import FsPkg.Model.Dictionary
import FsPkg.ToMathlib.SlotTable
import Mathlib.Data.Finmap

/-! # The dictionary as a finite map

`Sound` is the invariant of the three arrays; `Represents` reads a finite map out of them. Each function
of `dictionary.c` has one lemma here that computes it on a represented dictionary. Nothing depends on the
hash, except that it is the same for the same key.
-/

namespace FsPkg.Conf

open Pkg (Text)
open SlotTable

/-- The arrays are there, as long as `size` says; keys are stored once, beside their hash, and counted. The
size is a power of two whose doubling the `int` of `mem_double` has allowed. -/
structure Sound (d : Dictionary) (keys vals : List (Option Text)) (hashes : List UInt32) : Prop where
  key : d.key = some keys
  val : d.val = some vals
  hash : d.hash = some hashes
  keyLength : keys.length = d.size
  valLength : vals.length = d.size
  hashLength : hashes.length = d.size
  hashed : ∀ (i : ℕ) (k : Text), keys[i]? = some (some k) → hashes[i]? = some (dictionaryHash k)
  distinct : Distinct keys
  counted : d.n = count keys
  sized : ∃ e ≤ 20, d.size = 2 ^ (7 + e)

namespace Sound

variable {d : Dictionary} {keys vals : List (Option Text)} {hashes : List UInt32}

/-! ## The loops -/

theorem search_from (sound : Sound d keys vals hashes) (k : Text) (slots i : ℕ) (all : i + slots = d.size) :
    dictionarySearch d (dictionaryHash k) k slots i = some (((keys.drop i).findIdx? (· = some k)).map (· + i)) := by
  induction slots generalizing i with
  | zero =>
    rw [List.drop_of_length_le (by rw [sound.keyLength]; omega)]
    rfl
  | succ slots ih =>
    have bound : i < keys.length := by
      rw [sound.keyLength]
      omega
    have next := ih (i + 1) (by omega)
    have shift (found : Option ℕ) : (found.map (· + 1)).map (· + i) = found.map (· + (i + 1)) := by
      rw [Option.map_map]
      exact congrArg (found.map ·) (funext fun j => by simp only [Function.comp]; omega)
    have here : keys[i]? = some keys[i] := List.getElem?_eq_getElem bound
    rw [List.drop_eq_getElem_cons bound, List.findIdx?_cons, dictionarySearch]
    simp only [sound.key, bind, Option.bind_some, here]
    cases stored : keys[i] with
    | none =>
      simp only [reduceCtorEq, decide_false, Bool.false_eq_true, if_false, shift]
      exact next
    | some other =>
      have hash := sound.hashed i other (here.trans (congrArg some stored))
      simp only [sound.hash, Option.bind_some, hash]
      by_cases same : k = other
      · subst same
        simp
      · have different : ¬ (dictionaryHash k = dictionaryHash other ∧ k = other) := fun both => same both.2
        rw [if_neg different]
        simp only [Option.some.injEq, Ne.symm same, decide_false, Bool.false_eq_true, if_false, shift]
        exact next

/-- The search finds the slot of a key. -/
theorem search (sound : Sound d keys vals hashes) (k : Text) :
    dictionarySearch d (dictionaryHash k) k d.size 0 = some (keys.findIdx? (· = some k)) := by
  rw [sound.search_from k d.size 0 (Nat.zero_add _), List.drop_zero]
  simp

theorem emptySlot_from (sound : Sound d keys vals hashes) (slots i : ℕ) (all : i + slots = d.size)
    (hole : none ∈ keys.drop i) : ∃ j < d.size, emptySlot d slots i = some j ∧ keys[j]? = some none := by
  induction slots generalizing i with
  | zero =>
    rw [List.drop_of_length_le (by rw [sound.keyLength]; omega)] at hole
    contradiction
  | succ slots ih =>
    have bound : i < keys.length := by
      rw [sound.keyLength]
      omega
    have here : keys[i]? = some keys[i] := List.getElem?_eq_getElem bound
    rw [List.drop_eq_getElem_cons bound] at hole
    rw [emptySlot]
    simp only [sound.key, bind, Option.bind_some, here]
    cases stored : keys[i] with
    | none => exact ⟨i, by omega, rfl, here.trans (congrArg some stored)⟩
    | some other =>
      rw [stored] at hole
      exact ih (i + 1) (by omega) ((List.mem_cons.mp hole).resolve_left (by simp))

/-- The insertion loop stops at an empty slot, if there are fewer keys than slots. -/
theorem emptySlot (sound : Sound d keys vals hashes) (room : count keys < d.size) :
    ∃ j < d.size, emptySlot d d.size 0 = some j ∧ keys[j]? = some none := by
  apply sound.emptySlot_from d.size 0 (Nat.zero_add _)
  rw [List.drop_zero]
  exact exists_hole (by rw [sound.keyLength]; exact room)

theorem count_le (sound : Sound d keys vals hashes) : count keys ≤ d.size := by
  rw [← sound.keyLength]
  exact List.countP_le_length

/-! ## The changes -/

theorem storeSlot_some {α : Type} {array : List α} {i : ℕ} (bound : i < array.length) (value : α) :
    storeSlot (some array) i value = some (some (array.set i value)) := by
  simp [storeSlot, bound]

theorem memDouble_some {α : Type} (zero : α) (array : List α) {size elemSize : ℕ} (small : size * elemSize < 2 ^ 30) :
    memDouble zero (some array) size elemSize true = some (some (array ++ List.replicate size zero)) := by
  have fits : 2 * (size * elemSize) < 2 ^ 31 := by omega
  simp only [memDouble, if_pos fits, if_true, bind, Option.bind_some]

theorem doubled (sound : Sound d keys vals hashes) (small : d.size < 2 ^ 27) :
    Sound { d with
        val := some (vals ++ List.replicate d.size none), key := some (keys ++ List.replicate d.size none)
        hash := some (hashes ++ List.replicate d.size 0), size := d.size * 2 }
      (keys ++ List.replicate d.size none) (vals ++ List.replicate d.size none)
      (hashes ++ List.replicate d.size 0) where
  key := rfl
  val := rfl
  hash := rfl
  keyLength := by
    rw [List.length_append, List.length_replicate, sound.keyLength]
    exact (Nat.mul_two d.size).symm
  valLength := by
    rw [List.length_append, List.length_replicate, sound.valLength]
    exact (Nat.mul_two d.size).symm
  hashLength := by
    rw [List.length_append, List.length_replicate, sound.hashLength]
    exact (Nat.mul_two d.size).symm
  hashed i k stored := by
    have before := sound.hashed i k (getElem?_append_holes.mp stored)
    rw [List.getElem?_append_left (List.getElem?_eq_some_iff.mp before).1]
    exact before
  distinct := sound.distinct.append_holes d.size
  counted := by
    rw [count_append_holes]
    exact sound.counted
  sized := by
    obtain ⟨e, -, size⟩ := sound.sized
    refine ⟨e + 1, ?_, by rw [size, ← Nat.add_assoc, Nat.pow_succ]⟩
    rw [size] at small
    have := (Nat.pow_lt_pow_iff_right (Nat.one_lt_two)).mp small
    omega

/-- After the growth, and also right after the arrays are doubled, there is room. -/
theorem grow (sound : Sound d keys vals hashes) (growth : Growth)
    (room : count keys = d.size → growth = {} ∧ d.size < 2 ^ 27) :
    ∃ d' keys' vals' hashes', dictionaryGrow d growth = some (0, d') ∧ Sound d' keys' vals' hashes' ∧
      count keys' = count keys ∧ lookup keys' vals' = lookup keys vals ∧ (∀ k, Absent keys k → Absent keys' k) ∧
      count keys' < d'.size := by
  by_cases full : count keys = d.size
  · obtain ⟨rfl, small⟩ := room full
    refine ⟨_, _, _, _, ?_, sound.doubled small, count_append_holes d.size,
      lookup_append_holes sound.distinct (sound.valLength.trans sound.keyLength.symm) d.size _,
      fun k absent i stored => absent i (getElem?_append_holes.mp stored), ?_⟩
    · have same : d.n = d.size := by rw [sound.counted, full]
      rw [dictionaryGrow, if_pos same, sound.val, sound.key, sound.hash]
      simp only [bind, Option.bind_some, memDouble_some none vals (show d.size * sizeofPointer < 2 ^ 30 by
        simp only [sizeofPointer]; omega), memDouble_some none keys (show d.size * sizeofPointer < 2 ^ 30 by
        simp only [sizeofPointer]; omega), memDouble_some 0 hashes (show d.size * sizeofUnsigned < 2 ^ 30 by
        simp only [sizeofUnsigned]; omega)]
      rfl
    · rw [count_append_holes, full]
      obtain ⟨e, -, size⟩ := sound.sized
      have positive : 0 < d.size := by
        rw [size]
        exact Nat.two_pow_pos _
      simp only
      omega
  · have few : count keys < d.size := lt_of_le_of_ne sound.count_le full
    have room : ¬ d.n = d.size := by
      rw [sound.counted]
      exact_mod_cast full
    refine ⟨d, keys, vals, hashes, ?_, sound, rfl, rfl, fun _ absent => absent, few⟩
    rw [dictionaryGrow, if_neg room]

/-- A full dictionary of `2 ^ 27` slots cannot be doubled: the number of bytes overflows. -/
theorem grow_overflow (sound : Sound d keys vals hashes) (many : count keys = 2 ^ 27) (growth : Growth) :
    dictionaryGrow d growth = none := by
  obtain ⟨e, low, size⟩ := sound.sized
  have high := sound.count_le
  rw [many, size] at high
  have exact_ : e = 20 := by
    have := (Nat.pow_le_pow_iff_right Nat.one_lt_two).mp high
    omega
  subst exact_
  have same : d.n = d.size := by rw [sound.counted, many, size]
  have overflow : ¬ 2 * (d.size * sizeofPointer) < 2 ^ 31 := by
    rw [size]
    decide
  rw [dictionaryGrow, if_pos same]
  simp only [memDouble, if_neg overflow, bind, Option.bind_none]

/-- Filling a slot. -/
theorem insert (sound : Sound d keys vals hashes) (room : count keys < d.size) {k : Text} (absent : Absent keys k)
    (v : Option Text) : ∃ d' keys' vals' hashes', dictionaryInsert d k v = some d' ∧ Sound d' keys' vals' hashes' ∧
      count keys' = count keys + 1 ∧ lookup keys' vals' = Function.update (lookup keys vals) k (some v) := by
  obtain ⟨j, bound, empty, hole⟩ := sound.emptySlot room
  have keyBound : j < keys.length := by rw [sound.keyLength]; exact bound
  have valBound : j < vals.length := by rw [sound.valLength]; exact bound
  have hashBound : j < hashes.length := by rw [sound.hashLength]; exact bound
  refine ⟨{ d with
    key := some (keys.set j (some k)), val := some (vals.set j v), hash := some (hashes.set j (dictionaryHash k))
    n := d.n + 1 }, _, _, hashes.set j (dictionaryHash k), ?_, ?_, count_fill hole,
    lookup_fill sound.distinct hole absent valBound v⟩
  · simp only [dictionaryInsert, bind, empty, Option.bind_some, sound.key, sound.val, sound.hash,
      storeSlot_some keyBound, storeSlot_some valBound, storeSlot_some hashBound]
  · refine ⟨rfl, rfl, rfl, ?_, ?_, ?_, ?_, sound.distinct.fill hole absent, ?_, sound.sized⟩
    · rw [List.length_set, sound.keyLength]
    · rw [List.length_set, sound.valLength]
    · rw [List.length_set, sound.hashLength]
    · intro i other stored
      rcases (getElem?_fill hole).mp stored with ⟨rfl, rfl⟩ | before
      · exact List.getElem?_set_self hashBound
      · have different : j ≠ i := by
          rintro rfl
          rw [hole] at before
          exact absurd (Option.some.inj before) (by simp)
        rw [List.getElem?_set_ne different]
        exact sound.hashed i other before
    · rw [count_fill hole, sound.counted]
      rfl

/-- Storing beside a key. -/
theorem update (sound : Sound d keys vals hashes) {i : ℕ} {k : Text} (stored : keys[i]? = some (some k))
    (v : Option Text) : storeSlot d.val i v = some (some (vals.set i v)) ∧
      Sound { d with val := some (vals.set i v) } keys (vals.set i v) hashes ∧
      lookup keys (vals.set i v) = Function.update (lookup keys vals) k (some v) := by
  have bound : i < vals.length := by
    rw [sound.valLength, ← sound.keyLength]
    exact (List.getElem?_eq_some_iff.mp stored).1
  refine ⟨by rw [sound.val, storeSlot_some bound], ?_, lookup_store sound.distinct stored bound v⟩
  exact { sound with
    val := rfl
    valLength := by rw [List.length_set, sound.valLength] }

/-- Clearing the slot of a key. -/
theorem clear (sound : Sound d keys vals hashes) {i : ℕ} {k : Text} (stored : keys[i]? = some (some k)) :
    storeSlot d.key i none = some (some (keys.set i none)) ∧ storeSlot d.val i none = some (some (vals.set i none)) ∧
      storeSlot d.hash i 0 = some (some (hashes.set i 0)) ∧
      Sound { d with
          key := some (keys.set i none), val := some (vals.set i none), hash := some (hashes.set i 0), n := d.n - 1 }
        (keys.set i none) (vals.set i none) (hashes.set i 0) := by
  have keyBound : i < keys.length := (List.getElem?_eq_some_iff.mp stored).1
  have valBound : i < vals.length := by rw [sound.valLength, ← sound.keyLength]; exact keyBound
  have hashBound : i < hashes.length := by rw [sound.hashLength, ← sound.keyLength]; exact keyBound
  refine ⟨by rw [sound.key, storeSlot_some keyBound], by rw [sound.val, storeSlot_some valBound],
    by rw [sound.hash, storeSlot_some hashBound], rfl, rfl, rfl, ?_, ?_, ?_, ?_, sound.distinct.clear stored, ?_,
    sound.sized⟩
  · rw [List.length_set, sound.keyLength]
  · rw [List.length_set, sound.valLength]
  · rw [List.length_set, sound.hashLength]
  · intro j other found
    obtain ⟨different, before⟩ := (getElem?_clear stored sound.distinct).mp found
    have apart : i ≠ j := by
      rintro rfl
      rw [stored] at before
      exact different (Option.some.inj (Option.some.inj before)).symm
    rw [List.getElem?_set_ne apart]
    exact sound.hashed j other before
  · have fewer := count_clear stored
    change d.n - 1 = _
    rw [sound.counted]
    omega

end Sound

/-! ## The finite map -/

/-- The value stored for each key; a value may be `NULL`. -/
abbrev Store := Finmap fun _ : Text => Option Text

/-- The dictionary holds exactly this map. -/
def Represents (d : Dictionary) (m : Store) : Prop :=
  ∃ keys vals hashes, Sound d keys vals hashes ∧ lookup keys vals = (m.lookup ·) ∧ count keys = m.keys.card

namespace Represents

variable {d : Dictionary} {m : Store}

theorem new : Represents (dictionaryNew 0) ∅ := by
  have absent := fun k : Text => absent_holes dictminsz k
  refine ⟨List.replicate dictminsz none, List.replicate dictminsz none, List.replicate dictminsz 0,
    ⟨rfl, rfl, rfl, List.length_replicate, List.length_replicate, List.length_replicate,
      fun i k stored => absurd stored (absent k i), fun i j k stored => absurd stored (absent k i), ?_,
      0, by decide, rfl⟩, ?_, ?_⟩
  · rw [count_holes]
    rfl
  · funext k
    rw [Finmap.lookup_empty, lookup_eq_none (absent k)]
  · rw [count_holes, Finmap.keys_empty, Finset.card_empty]

theorem get (represents : Represents d m) (k : Text) (defaultVal : Option Text) :
    dictionaryGet d k defaultVal = some ((m.lookup k).getD defaultVal) := by
  obtain ⟨keys, vals, hashes, sound, same, -⟩ := represents
  rw [← congrFun same k, dictionaryGet, sound.search]
  simp only [bind, Option.bind_some, SlotTable.lookup]
  cases found : keys.findIdx? (· = some k) with
  | none => rfl
  | some i =>
    have bound : i < vals.length := by
      rw [sound.valLength, ← sound.keyLength]
      exact (List.findIdx?_eq_some_iff_getElem.mp found).1
    simp [sound.val, List.getElem?_eq_getElem bound]

theorem mem_iff {keys vals : List (Option Text)} {hashes : List UInt32} (sound : Sound d keys vals hashes)
    (same : lookup keys vals = (m.lookup ·)) {k : Text} : some k ∈ keys ↔ k ∈ m := by
  rw [← lookup_isSome_iff sound.distinct (sound.valLength.trans sound.keyLength.symm), congrFun same k,
    Finmap.lookup_isSome]

theorem insert_eq {keys vals : List (Option Text)} (same : lookup keys vals = (m.lookup ·)) (k : Text)
    (v : Option Text) : Function.update (lookup keys vals) k (some v) = ((m.insert k v).lookup ·) := by
  funext other
  by_cases here : other = k
  · subst here
    rw [Function.update_self, Finmap.lookup_insert]
  · rw [Function.update_of_ne here, Finmap.lookup_insert_of_ne _ here, same]

theorem find {keys vals : List (Option Text)} {hashes : List UInt32} (sound : Sound d keys vals hashes) (k : Text) :
    dictionaryFind d k = some (keys.findIdx? (· = some k)) := by
  unfold dictionaryFind
  split_ifs with some_
  · exact sound.search k
  · have none_ : count keys = 0 := by
      have counted := sound.counted
      omega
    refine congrArg some (findIdx?_eq_none_iff.mpr fun i stored => ?_).symm
    exact absurd none_ (List.countP_pos_iff.mpr ⟨some k, List.mem_of_getElem? stored, rfl⟩).ne'

/-- Setting a key that is there. -/
theorem set_present (represents : Represents d m) {k : Text} (present : k ∈ m) (v : Option Text) (growth : Growth) :
    ∃ d', dictionarySet (some d) (some k) v growth = some (0, some d') ∧ Represents d' (m.insert k v) := by
  obtain ⟨keys, vals, hashes, sound, same, card⟩ := represents
  obtain ⟨i, stored⟩ := List.getElem?_of_mem ((mem_iff sound same).mpr present)
  obtain ⟨ran, kept, updated⟩ := sound.update stored v
  refine ⟨_, ?_, keys, _, hashes, kept, ?_, ?_⟩
  · rw [dictionarySet, find sound, (findIdx?_eq_some_iff sound.distinct).mpr stored]
    simp only [bind, Option.bind_some, ran]
  · rw [updated, insert_eq same]
  · have keys_ : (m.insert k v).keys = m.keys := by
      ext other
      rw [Finmap.mem_keys, Finmap.mem_keys, Finmap.mem_insert]
      refine ⟨?_, .inr⟩
      rintro (rfl | before)
      · exact present
      · exact before
    rw [keys_, card]

/-- Setting a new key, while there is room or room can be made. -/
theorem set_new (represents : Represents d m) {k : Text} (absent : k ∉ m) {growth : Growth}
    (room : m.keys.card = d.size → growth = {} ∧ d.size < 2 ^ 27) (v : Option Text) :
    ∃ d', dictionarySet (some d) (some k) v growth = some (0, some d') ∧ Represents d' (m.insert k v) := by
  obtain ⟨keys, vals, hashes, sound, same, card⟩ := represents
  have missing : Absent keys k := fun i stored => absent ((mem_iff sound same).mp (List.mem_of_getElem? stored))
  rw [← card] at room
  obtain ⟨grown, keys₁, vals₁, hashes₁, ran, sound₁, count₁, same₁, missing₁, free⟩ := sound.grow growth room
  obtain ⟨d', keys₂, vals₂, hashes₂, inserted, sound₂, count₂, same₂⟩ := sound₁.insert free (missing₁ k missing) v
  refine ⟨d', ?_, keys₂, vals₂, hashes₂, sound₂, ?_, ?_⟩
  · rw [dictionarySet, find sound, findIdx?_eq_none_iff.mpr missing]
    simp only [bind, Option.bind_some, ran, ne_eq, not_true_eq_false, if_false, inserted]
  · rw [same₂, same₁, insert_eq same]
  · have keys_ : (m.insert k v).keys = Insert.insert k m.keys := by
      ext other
      rw [Finmap.mem_keys, Finmap.mem_insert, Finset.mem_insert, Finmap.mem_keys]
    rw [keys_, Finset.card_insert_of_notMem (by rwa [Finmap.mem_keys]), count₂, count₁, card]

/-- With `2 ^ 27` keys, a new one is too many. -/
theorem set_overflow (represents : Represents d m) {k : Text} (absent : k ∉ m) (many : m.keys.card = 2 ^ 27)
    (v : Option Text) (growth : Growth) : dictionarySet (some d) (some k) v growth = none := by
  obtain ⟨keys, vals, hashes, sound, same, card⟩ := represents
  have missing : Absent keys k := fun i stored => absent ((mem_iff sound same).mp (List.mem_of_getElem? stored))
  rw [dictionarySet, find sound, findIdx?_eq_none_iff.mpr missing]
  simp only [bind, Option.bind_some, sound.grow_overflow (card.trans many) growth, Option.bind_none]

theorem unset (represents : Represents d m) (k : Text) :
    ∃ d', dictionaryUnset d (some k) = some d' ∧ Represents d' (m.erase k) := by
  obtain ⟨keys, vals, hashes, sound, same, card⟩ := represents
  by_cases present : k ∈ m
  · obtain ⟨i, stored⟩ := List.getElem?_of_mem ((mem_iff sound same).mpr present)
    obtain ⟨key, val, hash, kept⟩ := sound.clear stored
    refine ⟨_, ?_, _, _, _, kept, ?_, ?_⟩
    · simp only [dictionaryUnset, bind, sound.search, (findIdx?_eq_some_iff sound.distinct).mpr stored,
        Option.bind_some, key, val, hash]
    · rw [lookup_clear sound.distinct stored, same]
      funext other
      by_cases here : other = k
      · subst here
        rw [Function.update_self, Finmap.lookup_erase]
      · rw [Function.update_of_ne here, Finmap.lookup_erase_ne here]
    · have fewer := count_clear stored
      rw [Finmap.keys_erase, Finset.card_erase_of_mem (Finmap.mem_keys.mpr present), ← card]
      omega
  · have missing : Absent keys k := fun i stored => present ((mem_iff sound same).mp (List.mem_of_getElem? stored))
    have unchanged : m.erase k = m := by
      apply Finmap.ext_lookup
      intro other
      by_cases here : other = k
      · subst here
        rw [Finmap.lookup_erase, Finmap.lookup_eq_none.mpr present]
      · rw [Finmap.lookup_erase_ne here]
    refine ⟨d, ?_, by rw [unchanged]; exact ⟨keys, vals, hashes, sound, same, card⟩⟩
    simp only [dictionaryUnset, bind, sound.search, findIdx?_eq_none_iff.mpr missing, Option.bind_some]

end Represents

end FsPkg.Conf
