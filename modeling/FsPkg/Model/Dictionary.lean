import FsPkg.Model.PkgCache

/-! # The dictionary of `dictionary.c`, and its use by `conf.c`

Three parallel arrays with holes, searched from the first slot on. An array is `none` after a failed
`mem_double`; reading through it, or behind its end, is undefined behaviour and has no result here, and
neither has the `int` overflow in `mem_double`. The copies made by `str_dup` and the three arrays of
`dictionary_new` are always had; whether each doubling succeeds is an argument.
-/

namespace FsPkg.Conf

open Pkg (Text)

/-- `dictionary`. -/
structure Dictionary where
  n : ℤ
  size : ℕ
  val : Option (List (Option Text))
  key : Option (List (Option Text))
  hash : Option (List UInt32)
deriving DecidableEq, Repr

/-- `DICTMINSZ`. -/
def dictminsz : ℕ := 128

def sizeofPointer : ℕ := 8

def sizeofUnsigned : ℕ := 4

/-- `(unsigned)key[i]`: a `char` is signed. -/
def charToUnsigned (c : Char) : UInt32 :=
  (UInt8.ofNat c.toNat).toInt8.toInt32.toUInt32

/-- The loop of `dictionary_hash`. -/
def dictionaryHashLoop (hash : UInt32) : Text → UInt32
  | [] => hash
  | c :: rest =>
    let hash := hash + charToUnsigned c
    let hash := hash + (hash <<< 10)
    let hash := hash ^^^ (hash >>> 6)
    dictionaryHashLoop hash rest

/-- `dictionary_hash`; the length is an `int`. -/
def dictionaryHash (key : Text) : UInt32 :=
  let len := Int32.ofNat key.length
  let hash := dictionaryHashLoop 0 (key.take len.toInt.toNat)
  let hash := hash + (hash <<< 3)
  let hash := hash ^^^ (hash >>> 11)
  hash + (hash <<< 15)

/-- `dictionary_new`. -/
def dictionaryNew (size : ℕ) : Dictionary :=
  let size := if size < dictminsz then dictminsz else size
  { n := 0
    size
    val := some (List.replicate size none)
    key := some (List.replicate size none)
    hash := some (List.replicate size 0) }

/-- The search loop of `dictionary_get`, `dictionary_set` and `dictionary_unset`, for so many slots from
slot `i` on: the first one with this hash and this key. -/
def dictionarySearch (d : Dictionary) (hash : UInt32) (key : Text) : ℕ → ℕ → Option (Option ℕ)
  | 0, _ => some none
  | slots + 1, i => do
    let stored ← (← d.key)[i]?
    match stored with
    | none => dictionarySearch d hash key slots (i + 1)
    | some other => do
      let storedHash ← (← d.hash)[i]?
      if hash = storedHash ∧ key = other then some (some i)
      else dictionarySearch d hash key slots (i + 1)

/-- `dictionary_get`. -/
def dictionaryGet (d : Dictionary) (key : Text) (defaultVal : Option Text) : Option (Option Text) := do
  match ← dictionarySearch d (dictionaryHash key) key d.size 0 with
  | some i => (← d.val)[i]?
  | none => some defaultVal

/-- `mem_double`: the number of bytes is an `int`, and doubled as one. A failed allocation leaves `NULL`,
a new half is zeroed. -/
def memDouble {α : Type} (zero : α) (array : Option (List α)) (size elemSize : ℕ) (calloc : Bool) :
    Option (Option (List α)) := do
  if 2 * (size * elemSize) < 2 ^ 31 then
    if calloc then
      let elems ← array
      some (some (elems ++ List.replicate size zero))
    else some none
  else none

/-- Which of the doublings succeed. -/
structure Growth where
  val : Bool := true
  key : Bool := true
  hash : Bool := true
deriving DecidableEq, Repr

/-- The growth of `dictionary_set`: 0, or -1 if an array could not be doubled. -/
def dictionaryGrow (d : Dictionary) (growth : Growth) : Option (Int32 × Dictionary) := do
  if d.n = d.size then
    let val ← memDouble none d.val d.size sizeofPointer growth.val
    let key ← memDouble none d.key d.size sizeofPointer growth.key
    let hash ← memDouble 0 d.hash d.size sizeofUnsigned growth.hash
    let d := { d with val, key, hash }
    if val = none ∨ key = none ∨ hash = none then some (-1, d)
    else some (0, { d with size := d.size * 2 })
  else some (0, d)

/-- The loop for the first empty slot, for so many slots from slot `i` on; without one, the slot behind
the last. -/
def emptySlot (d : Dictionary) : ℕ → ℕ → Option ℕ
  | 0, i => some i
  | slots + 1, i => do
    match ← (← d.key)[i]? with
    | none => some i
    | some _ => emptySlot d slots (i + 1)

/-- A store into an array, which needs the slot to exist. -/
def storeSlot {α : Type} (array : Option (List α)) (i : ℕ) (value : α) : Option (Option (List α)) := do
  let elems ← array
  if i < elems.length then some (some (elems.set i value)) else none

/-- The end of `dictionary_set`: the key goes to the first empty slot. -/
def dictionaryInsert (d : Dictionary) (key : Text) (val : Option Text) : Option Dictionary := do
  let i ← emptySlot d d.size 0
  let keys ← storeSlot d.key i (some key)
  let vals ← storeSlot d.val i val
  let hashes ← storeSlot d.hash i (dictionaryHash key)
  some { d with key := keys, val := vals, hash := hashes, n := d.n + 1 }

/-- The search of `dictionary_set`, which an empty dictionary is spared. -/
def dictionaryFind (d : Dictionary) (key : Text) : Option (Option ℕ) :=
  if 0 < d.n then dictionarySearch d (dictionaryHash key) key d.size 0 else some none

/-- `dictionary_set`. -/
def dictionarySet (d : Option Dictionary) (key val : Option Text) (growth : Growth) :
    Option (Int32 × Option Dictionary) :=
  match d, key with
  | some d, some key => do
    match ← dictionaryFind d key with
    | some i => do
      let vals ← storeSlot d.val i val
      some (0, some { d with val := vals })
    | none => do
      let (code, d) ← dictionaryGrow d growth
      if code ≠ 0 then some (code, some d)
      else do
        let d ← dictionaryInsert d key val
        some (0, some d)
  | d, _ => some (-1, d)

/-- `dictionary_unset`. -/
def dictionaryUnset (d : Dictionary) (key : Option Text) : Option Dictionary :=
  match key with
  | none => some d
  | some key => do
    match ← dictionarySearch d (dictionaryHash key) key d.size 0 with
    | none => some d
    | some i => do
      let keys ← storeSlot d.key i none
      let vals ← storeSlot d.val i none
      let hashes ← storeSlot d.hash i 0
      some { d with key := keys, val := vals, hash := hashes, n := d.n - 1 }

/-! ## `conf.c` -/

/-- `dconf_get_str`. -/
def dconfGetStr (dict : Option Dictionary) (key defaultVal : Option Text) : Option (Option Text) :=
  match dict, key with
  | some d, some key => dictionaryGet d key defaultVal
  | _, _ => some none

/-- `dconf_set`. -/
def dconfSet (dict : Option Dictionary) (key val : Option Text) (growth : Growth) :
    Option (Int32 × Option Dictionary) :=
  dictionarySet dict key val growth

/-- `dconf_unset`; without a dictionary it reads through `NULL`. -/
def dconfUnset (dict : Option Dictionary) (key : Option Text) : Option (Option Dictionary) :=
  match dict, key with
  | some d, key => (dictionaryUnset d key).map some
  | none, none => some none
  | none, some _ => none

end FsPkg.Conf
