import FsPkg.Machine.Run
import FsPkg.Proofs.DictionaryRuns

/-! # A `dconf_set` that fails

`dictionary_set` replaces its three arrays one after the other and looks at the results only then. If one of them could
not be doubled, its pointer is lost, the size stays, and no later call can grow the dictionary again. The only other
failure is that of a call without a key. So, along runs in which this does not happen, a call keeps what is stored
exactly if it does not have to grow the arrays or can.
-/

namespace FsPkg.Conf

open Pkg (Text)
open SlotTable

/-- A failure of `dconf_set` changes no answer of `dconf_get_str`, and the call may still succeed later. -/
def FailureKeeps (dict : Option Dictionary) (key val : Option Text) (growth : Growth) : Prop :=
  ∃ code dict', dconfSet dict key val growth = some (code, dict') ∧
    (code ≠ 0 → (∀ k defaultVal, dconfGetStr dict' k defaultVal = dconfGetStr dict k defaultVal) ∧
      (key ≠ none → ∃ growth' dict'', dconfSet dict' key val growth' = some (0, dict'')))

/-- The key has a slot. -/
def HasKey (d : Dictionary) (key : Text) : Prop :=
  ∃ keys, d.key = some keys ∧ some key ∈ keys

/-- The key has a slot already, or a slot is free, or the arrays can be doubled. -/
def FindsRoom (d : Dictionary) (key : Text) (growth : Growth) : Prop :=
  HasKey d key ∨ d.n ≠ d.size ∨ (growth = {} ∧ d.size < 2 ^ 27)

/-- One call, and which doublings succeed if it comes to them. -/
structure ConfCall where
  op : ConfOp
  growth : Growth := {}
deriving DecidableEq

namespace ConfCall

/-- The call, with its result left out. -/
def run (dict : Option Dictionary) (call : ConfCall) : Option (Option Dictionary) :=
  match call.op with
  | .dconfSet key val => (Conf.dconfSet dict (some key) val call.growth).map Prod.snd
  | .dconfUnset key => Conf.dconfUnset dict (some key)

/-- A `dconf_set` finds room. -/
def Roomy (d : Dictionary) (call : ConfCall) : Prop :=
  ∀ key val, call.op = .dconfSet key val → FindsRoom d key call.growth

/-- A call that finds room where it needs it. -/
def Step (d : Dictionary) (call : ConfCall) (d' : Dictionary) : Prop :=
  call.Roomy d ∧ call.run (some d) = some (some d')

end ConfCall

/-! ## Calls that find room -/

namespace Represents

variable {d : Dictionary} {m : Store} {k : Text}

theorem hasKey_iff (represents : Represents d m) (k : Text) : HasKey d k ↔ k ∈ m := by
  obtain ⟨keys, vals, hashes, sound, same, -⟩ := represents
  rw [← mem_iff sound same]
  constructor
  · rintro ⟨keys', stored, member⟩
    obtain rfl := Option.some.inj (stored.symm.trans sound.key)
    exact member
  · intro member
    exact ⟨keys, sound.key, member⟩

theorem full_iff (represents : Represents d m) : m.keys.card = d.size ↔ d.n = d.size := by
  obtain ⟨keys, vals, hashes, sound, -, card⟩ := represents
  rw [← card, sound.counted]
  exact_mod_cast Iff.rfl

theorem set_roomy (represents : Represents d m) {growth : Growth} (room : FindsRoom d k growth) (v : Option Text) :
    ∃ d', dictionarySet (some d) (some k) v growth = some (0, some d') ∧ Represents d' (m.insert k v) := by
  by_cases present : k ∈ m
  · exact represents.set_present present v growth
  · apply represents.set_new present
    intro full
    rcases room with stored | free | grows
    · exact absurd ((represents.hasKey_iff k).mp stored) present
    · exact absurd (represents.full_iff.mp full) free
    · exact grows

/-- The call carries the map along. -/
theorem step (represents : Represents d m) {call : ConfCall} {d' : Dictionary} (step : call.Step d d') :
    ∃ m', Represents d' m' := by
  obtain ⟨op, growth⟩ := call
  obtain ⟨room, ran⟩ := step
  cases op with
  | dconfSet key val =>
    obtain ⟨d'', set, final⟩ := represents.set_roomy (room key val rfl) val
    change (dictionarySet (some d) (some key) val growth).map Prod.snd = some (some d') at ran
    rw [set] at ran
    obtain rfl : d'' = d' := Option.some.inj (Option.some.inj ran)
    exact ⟨_, final⟩
  | dconfUnset key =>
    obtain ⟨d'', unset, final⟩ := represents.unset key
    change (dictionaryUnset d (some key)).map some = some (some d') at ran
    rw [unset] at ran
    obtain rfl : d'' = d' := Option.some.inj (Option.some.inj ran)
    exact ⟨_, final⟩

/-- In every run whose calls find room, the arrays are a finite map. -/
theorem reached {calls : List ConfCall} {d : Dictionary} (run : Machine.Run ConfCall.Step (dictionaryNew 0) calls d) :
    ∃ m, Represents d m :=
  run.invariant (I := fun d => ∃ m, Represents d m) ⟨_, .new⟩ fun _ _ _ ⟨_, represents⟩ last => represents.step last

end Represents

/-! ## Calls that do not -/

/-- An array cannot be doubled any more once it is lost. -/
theorem dictionaryGrow_lost {d d' : Dictionary} {growth : Growth} (full : d.n = d.size)
    (lost : d.val = none ∨ d.key = none ∨ d.hash = none) : dictionaryGrow d growth ≠ some (0, d') := by
  intro grew
  have kept {α : Type} {zero : α} {array : Option (List α)} {size elemSize : ℕ} {calloc : Bool}
      {doubled : Option (List α)} (ran : memDouble zero array size elemSize calloc = some doubled)
      (there : doubled ≠ none) : array ≠ none := by
    rintro rfl
    unfold memDouble at ran
    split at ran
    · split at ran
      · cases ran
      · exact there (Option.some.inj ran).symm
    · cases ran
  rw [dictionaryGrow, if_pos full] at grew
  obtain ⟨val, ranVal, grew⟩ := Option.bind_eq_some_iff.mp grew
  obtain ⟨key, ranKey, grew⟩ := Option.bind_eq_some_iff.mp grew
  obtain ⟨hash, ranHash, grew⟩ := Option.bind_eq_some_iff.mp grew
  split at grew
  · have failed : (-1 : Int32) = 0 := congrArg Prod.fst (Option.some.inj grew)
    exact absurd failed (by decide)
  · rename_i there
    simp only [not_or] at there
    rcases lost with lost | lost | lost
    · exact kept ranVal there.1 lost
    · exact kept ranKey there.2.1 lost
    · exact kept ranHash there.2.2 lost

/-- A slot that the search finds holds the key. -/
theorem dictionarySearch_found {d : Dictionary} {hash : UInt32} {key : Text} {slots i j : ℕ}
    (found : dictionarySearch d hash key slots i = some (some j)) : HasKey d key := by
  induction slots generalizing i with
  | zero => cases found
  | succ slots ih =>
    obtain ⟨keys, there, found⟩ := Option.bind_eq_some_iff.mp found
    obtain ⟨stored, slot, found⟩ := Option.bind_eq_some_iff.mp found
    cases stored with
    | none => exact ih found
    | some other =>
      obtain ⟨hashes, -, found⟩ := Option.bind_eq_some_iff.mp found
      obtain ⟨storedHash, -, found⟩ := Option.bind_eq_some_iff.mp found
      split at found
      · rename_i same
        rw [same.2]
        exact ⟨keys, there, List.mem_of_getElem? slot⟩
      · exact ih found

/-- A call for a new key never succeeds again when the dictionary is full and an array is lost. -/
theorem dictionarySet_lost {d : Dictionary} {dict : Option Dictionary} {key : Text} (val : Option Text)
    (growth : Growth) (absent : ¬HasKey d key) (full : d.n = d.size)
    (lost : d.val = none ∨ d.key = none ∨ d.hash = none) :
    dictionarySet (some d) (some key) val growth ≠ some (0, dict) := by
  intro set
  obtain ⟨found, search, set⟩ := Option.bind_eq_some_iff.mp set
  cases found with
  | some i =>
    unfold dictionaryFind at search
    split at search
    · exact absent (dictionarySearch_found search)
    · cases search
  | none =>
    obtain ⟨⟨code, grown⟩, grew, set⟩ := Option.bind_eq_some_iff.mp set
    by_cases worked : code = 0
    · rw [worked] at grew
      exact dictionaryGrow_lost full lost grew
    · simp only [ne_eq, worked, not_false_eq_true, if_true] at set
      exact worked (congrArg Prod.fst (Option.some.inj set))

/-- The array after `mem_double`, or `NULL`. -/
theorem memDouble_answer {α : Type} (zero : α) (array : List α) {size elemSize : ℕ} (small : size * elemSize < 2 ^ 30)
    (calloc : Bool) : memDouble zero (some array) size elemSize calloc =
      some (if calloc then some (array ++ List.replicate size zero) else none) := by
  cases calloc with
  | true => exact Sound.memDouble_some zero array small
  | false =>
    have fits : 2 * (size * elemSize) < 2 ^ 31 := by omega
    simp only [memDouble, if_pos fits, Bool.false_eq_true, if_false]

/-- The growth fails, and an array is lost. -/
theorem Sound.grow_fails {d : Dictionary} {keys vals : List (Option Text)} {hashes : List UInt32}
    (sound : Sound d keys vals hashes) (full : d.n = d.size) (small : d.size < 2 ^ 27) {growth : Growth}
    (fails : growth ≠ {}) : ∃ d', dictionaryGrow d growth = some (-1, d') ∧ d'.n = d'.size ∧
      (d'.val = none ∨ d'.key = none ∨ d'.hash = none) ∧ ∀ k, Absent keys k → ¬HasKey d' k := by
  refine ⟨{ d with
    val := if growth.val then some (vals ++ List.replicate d.size none) else none
    key := if growth.key then some (keys ++ List.replicate d.size none) else none
    hash := if growth.hash then some (hashes ++ List.replicate d.size 0) else none }, ?_, full, ?_, ?_⟩
  · have pointers : d.size * sizeofPointer < 2 ^ 30 := by
      simp only [sizeofPointer]
      omega
    have numbers : d.size * sizeofUnsigned < 2 ^ 30 := by
      simp only [sizeofUnsigned]
      omega
    rw [dictionaryGrow, if_pos full, sound.val, sound.key, sound.hash]
    simp only [bind, Option.bind_some, memDouble_answer none vals pointers, memDouble_answer none keys pointers,
      memDouble_answer 0 hashes numbers]
    rw [if_pos]
    obtain ⟨val, key, hash⟩ := growth
    cases val <;> cases key <;> cases hash <;> simp at fails ⊢
  · obtain ⟨val, key, hash⟩ := growth
    cases val <;> cases key <;> cases hash <;> simp at fails ⊢
  · rintro k absent ⟨keys', stored, member⟩
    simp only at stored
    split at stored
    · obtain rfl := Option.some.inj stored
      obtain ⟨i, slot⟩ := List.getElem?_of_mem member
      exact absent i (getElem?_append_holes.mp slot)
    · cases stored

/-- A call that finds no room is undefined, or fails for good. -/
theorem Represents.set_fails {d : Dictionary} {m : Store} (represents : Represents d m) {k : Text} {growth : Growth}
    (noRoom : ¬FindsRoom d k growth) (v : Option Text) : dictionarySet (some d) (some k) v growth = none ∨
      ∃ d', dictionarySet (some d) (some k) v growth = some (-1, some d') ∧
        ∀ growth' dict, dictionarySet (some d') (some k) v growth' ≠ some (0, dict) := by
  obtain ⟨unknown, full, stuck⟩ : ¬HasKey d k ∧ d.n = d.size ∧ ¬(growth = {} ∧ d.size < 2 ^ 27) := by
    simpa only [FindsRoom, not_or, not_not, ne_eq] using noRoom
  have absent : k ∉ m := fun member => unknown ((represents.hasKey_iff k).mpr member)
  have card := represents.full_iff.mpr full
  obtain ⟨keys, vals, hashes, sound, same, counted⟩ := id represents
  obtain ⟨e, low, size⟩ := sound.sized
  have most : d.size ≤ 2 ^ 27 := by
    rw [size]
    exact Nat.pow_le_pow_right (by omega) (by omega)
  by_cases small : d.size < 2 ^ 27
  · right
    have missing : Absent keys k := fun i stored => absent ((mem_iff sound same).mp (List.mem_of_getElem? stored))
    obtain ⟨d', grew, full', lost, gone⟩ := sound.grow_fails full small fun works => stuck ⟨works, small⟩
    refine ⟨d', ?_, fun growth' dict => dictionarySet_lost v growth' (gone k missing) full' lost⟩
    rw [dictionarySet, find sound, findIdx?_eq_none_iff.mpr missing]
    simp only [bind, Option.bind_some, grew]
    rfl
  · left
    exact represents.set_overflow absent (card.trans (by omega)) v growth

theorem Represents.not_failureKeeps {d : Dictionary} {m : Store} (represents : Represents d m) {k : Text}
    {growth : Growth} (noRoom : ¬FindsRoom d k growth) (v : Option Text) :
    ¬FailureKeeps (some d) (some k) v growth := by
  rintro ⟨code, dict', set, keeps⟩
  rcases represents.set_fails noRoom v with undefined | ⟨d', failed, stuck⟩
  · rw [dconfSet, undefined] at set
    cases set
  · rw [dconfSet, failed] at set
    obtain ⟨rfl, rfl⟩ := Prod.mk.inj (Option.some.inj set)
    obtain ⟨growth', dict'', retried⟩ := (keeps (by decide)).2 (by simp)
    exact stuck growth' dict'' retried

/-- In every state of every run whose calls find room, `dconf_set` keeps what is stored when it fails, and can be
retried, exactly if it finds room itself or is given no key. -/
theorem dconfSet_failure_iff {calls : List ConfCall} {d : Dictionary}
    (run : Machine.Run ConfCall.Step (dictionaryNew 0) calls d) (key val : Option Text) (growth : Growth) :
    FailureKeeps (some d) key val growth ↔ ∀ k, key = some k → FindsRoom d k growth := by
  obtain ⟨m, represents⟩ := Represents.reached run
  cases key with
  | none =>
    refine iff_of_true ⟨-1, some d, rfl, fun _ => ⟨fun _ _ => rfl, fun given => absurd rfl given⟩⟩ ?_
    intro k none
    cases none
  | some key =>
    constructor
    · intro keeps k same
      obtain rfl : key = k := Option.some.inj same
      by_contra noRoom
      exact represents.not_failureKeeps noRoom val keeps
    · intro room
      obtain ⟨d', set, -⟩ := represents.set_roomy (room key rfl) val
      exact ⟨0, some d', set, fun failed => absurd rfl failed⟩

/-- A new dictionary has room, also when no memory is left. -/
theorem dconfSet_failure_new :
    FailureKeeps (some (dictionaryNew 0)) (some ['a']) (some ['1']) ⟨false, false, false⟩ :=
  (dconfSet_failure_iff .start (some ['a']) (some ['1']) ⟨false, false, false⟩).mpr
    fun _ _ => .inr (.inl (by decide))

/-! ## A full dictionary -/

/-- `dconf_set` of as many keys as a new dictionary has slots, each with an empty value. -/
def fillingCalls (n : ℕ) : List ConfCall :=
  (List.range n).map fun i => { op := .dconfSet (List.replicate i 'a') (some []) }

theorem dictionaryInsert_size {d d' : Dictionary} {key : Text} {val : Option Text}
    (inserted : dictionaryInsert d key val = some d') : d'.size = d.size := by
  obtain ⟨i, -, inserted⟩ := Option.bind_eq_some_iff.mp inserted
  obtain ⟨keys, -, inserted⟩ := Option.bind_eq_some_iff.mp inserted
  obtain ⟨vals, -, inserted⟩ := Option.bind_eq_some_iff.mp inserted
  obtain ⟨hashes, -, inserted⟩ := Option.bind_eq_some_iff.mp inserted
  rw [← Option.some.inj inserted]

/-- The size stays while a slot is free. -/
theorem dictionarySet_size {d d' : Dictionary} {key : Text} {val : Option Text} {growth : Growth} (free : d.n ≠ d.size)
    (set : dictionarySet (some d) (some key) val growth = some (0, some d')) : d'.size = d.size := by
  obtain ⟨found, -, set⟩ := Option.bind_eq_some_iff.mp set
  cases found with
  | some i =>
    obtain ⟨vals, -, set⟩ := Option.bind_eq_some_iff.mp set
    rw [← Option.some.inj (congrArg Prod.snd (Option.some.inj set))]
  | none =>
    have grow : dictionaryGrow d growth = some (0, d) := if_neg free
    simp only [grow, bind, Option.bind_some, ne_eq, not_true_eq_false, if_false] at set
    obtain ⟨d'', inserted, set⟩ := Option.bind_eq_some_iff.mp set
    rw [← Option.some.inj (congrArg Prod.snd (Option.some.inj set))]
    exact dictionaryInsert_size inserted

/-- So many keys fit without growth. -/
theorem filling {n : ℕ} (fits : n ≤ dictminsz) :
    ∃ d m, Machine.Run ConfCall.Step (dictionaryNew 0) (fillingCalls n) d ∧ Represents d m ∧ d.size = dictminsz ∧
      m.keys = (Finset.range n).image fun i => List.replicate i 'a' := by
  induction n with
  | zero => exact ⟨_, ∅, .start, .new, rfl, rfl⟩
  | succ n ih =>
    obtain ⟨d, m, run, represents, size, keys⟩ := ih (by omega)
    have absent : List.replicate n 'a' ∉ m := by
      rw [← Finmap.mem_keys, keys]
      intro member
      obtain ⟨i, less, same⟩ := Finset.mem_image.mp member
      have length := congrArg List.length same
      rw [List.length_replicate, List.length_replicate] at length
      rw [Finset.mem_range] at less
      omega
    have card : m.keys.card ≤ n := by
      rw [keys]
      exact Finset.card_image_le.trans (Finset.card_range n).le
    have free : d.n ≠ d.size := by
      intro full
      have whole := represents.full_iff.mpr full
      omega
    have room : FindsRoom d (List.replicate n 'a') {} := .inr (.inl free)
    obtain ⟨d', set, final⟩ := represents.set_roomy room (some [])
    refine ⟨d', _, ?_, final, (dictionarySet_size free set).trans size, ?_⟩
    · have calls : fillingCalls (n + 1) =
          fillingCalls n ++ [{ op := .dconfSet (List.replicate n 'a') (some []) }] := by
        rw [fillingCalls, List.range_succ, List.map_append]
        rfl
      rw [calls]
      apply run.snoc
      constructor
      · rintro key val ⟨⟩
        exact room
      · change (dictionarySet (some d) (some (List.replicate n 'a')) (some []) {}).map Prod.snd = some (some d')
        rw [set]
        rfl
    · ext k
      rw [Finmap.mem_keys, Finmap.mem_insert, ← Finmap.mem_keys, keys, Finset.range_add_one, Finset.image_insert,
        Finset.mem_insert]

/-- Key number 129, when there is no memory to double the values. -/
theorem dconfSet_failure_loses : ∃ d, Machine.Run ConfCall.Step (dictionaryNew 0) (fillingCalls 128) d ∧
    ¬FailureKeeps (some d) (some (List.replicate 128 'a')) (some []) { val := false } := by
  obtain ⟨d, m, run, represents, size, keys⟩ := filling (le_refl 128)
  have injective : Function.Injective fun i => List.replicate i 'a' := by
    intro i j same
    have length := congrArg List.length same
    simpa only [List.length_replicate] using length
  have card : m.keys.card = d.size := by
    rw [keys, Finset.card_image_of_injective _ injective, Finset.card_range, size]
    rfl
  have noRoom : ¬FindsRoom d (List.replicate 128 'a') { val := false } := by
    rintro (stored | free | grows)
    · rw [represents.hasKey_iff, ← Finmap.mem_keys, keys] at stored
      obtain ⟨i, less, same⟩ := Finset.mem_image.mp stored
      rw [Finset.mem_range, injective same] at less
      omega
    · exact free (represents.full_iff.mp card)
    · exact absurd grows.1 (by decide)
  exact ⟨d, run, represents.not_failureKeeps noRoom (some [])⟩

end FsPkg.Conf
