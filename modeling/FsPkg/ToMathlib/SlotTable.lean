import Mathlib.Data.List.Basic
import Mathlib.Logic.Function.Basic

/-! # Tables with holes

A list of optional keys beside a list of values: a key is looked up at its first slot. Storing a value,
filling a hole, making one and appending holes each change the table, read as a partial function, at
one key or not at all, as long as no key is in two slots.
-/

namespace FsPkg.SlotTable

variable {α β : Type*} {keys : List (Option α)} {vals : List β} {a b : α} {v : β} {i j : ℕ}

/-! ## Keys -/

/-- No key is in two slots. -/
def Distinct (keys : List (Option α)) : Prop :=
  ∀ (i j : ℕ) (a : α), keys[i]? = some (some a) → keys[j]? = some (some a) → i = j

/-- The key is in no slot. -/
def Absent (keys : List (Option α)) (a : α) : Prop :=
  ∀ i : ℕ, keys[i]? ≠ some (some a)

/-- The number of keys in the table. -/
def count (keys : List (Option α)) : ℕ :=
  keys.countP Option.isSome

theorem getElem?_fill (hole : keys[i]? = some none) :
    (keys.set i (some a))[j]? = some (some b) ↔ (j = i ∧ a = b) ∨ keys[j]? = some (some b) := by
  have bound : i < keys.length := (List.getElem?_eq_some_iff.mp hole).1
  by_cases same : i = j
  · subst same
    simp [List.getElem?_set_self bound, hole]
  · rw [List.getElem?_set_ne same]
    simp [Ne.symm same]

theorem Distinct.fill (distinct : Distinct keys) (hole : keys[i]? = some none) (absent : Absent keys a) :
    Distinct (keys.set i (some a)) := by
  intro j l b first second
  rcases (getElem?_fill hole).mp first with ⟨here, rfl⟩ | before
  · rcases (getElem?_fill hole).mp second with ⟨there, -⟩ | before
    · rw [here, there]
    · exact absurd before (absent l)
  · rcases (getElem?_fill hole).mp second with ⟨-, rfl⟩ | too
    · exact absurd before (absent j)
    · exact distinct j l b before too

theorem count_fill (hole : keys[i]? = some none) : count (keys.set i (some a)) = count keys + 1 := by
  obtain ⟨bound, value⟩ := List.getElem?_eq_some_iff.mp hole
  rw [count, List.countP_set bound, value]
  simp [count]

theorem getElem?_clear (stored : keys[i]? = some (some a)) (distinct : Distinct keys) :
    (keys.set i none)[j]? = some (some b) ↔ b ≠ a ∧ keys[j]? = some (some b) := by
  have bound : i < keys.length := (List.getElem?_eq_some_iff.mp stored).1
  by_cases same : i = j
  · subst same
    simp [List.getElem?_set_self bound, stored, eq_comm]
  · rw [List.getElem?_set_ne same]
    constructor
    · intro other
      refine ⟨?_, other⟩
      rintro rfl
      exact same (distinct i j b stored other)
    · exact And.right

theorem Distinct.clear (distinct : Distinct keys) (stored : keys[i]? = some (some a)) : Distinct (keys.set i none) := by
  intro j l b first second
  exact distinct j l b ((getElem?_clear stored distinct).mp first).2 ((getElem?_clear stored distinct).mp second).2

theorem count_clear (stored : keys[i]? = some (some a)) : count (keys.set i none) + 1 = count keys := by
  obtain ⟨bound, value⟩ := List.getElem?_eq_some_iff.mp stored
  have positive : 0 < count keys := List.countP_pos_iff.mpr ⟨some a, List.mem_of_getElem? stored, rfl⟩
  rw [count] at positive ⊢
  rw [List.countP_set bound, value, count]
  simp only [Option.isSome_some, if_true, Option.isSome_none, Bool.false_eq_true, if_false]
  omega

theorem getElem?_append_holes {m : ℕ} :
    (keys ++ List.replicate m none)[j]? = some (some b) ↔ keys[j]? = some (some b) := by
  by_cases bound : j < keys.length
  · rw [List.getElem?_append_left bound]
  · have beyond : keys[j]? = none := List.getElem?_eq_none (by omega)
    rw [List.getElem?_append_right (by omega), beyond]
    simp [List.getElem?_replicate]

theorem Distinct.append_holes (distinct : Distinct keys) (m : ℕ) : Distinct (keys ++ List.replicate m none) := by
  intro i j b first second
  exact distinct i j b (getElem?_append_holes.mp first) (getElem?_append_holes.mp second)

theorem count_append_holes (m : ℕ) : count (keys ++ List.replicate m none) = count keys := by
  simp [count, List.countP_append, List.countP_replicate]

theorem absent_holes (m : ℕ) (a : α) : Absent (List.replicate m none) a := by
  intro i
  simp [List.getElem?_replicate]

theorem count_holes (m : ℕ) : count (List.replicate m (none : Option α)) = 0 := by
  simp [count, List.countP_replicate]

/-- A table with fewer keys than slots has a hole. -/
theorem exists_hole (few : count keys < keys.length) : none ∈ keys := by
  by_contra full
  have all : ∀ key ∈ keys, key.isSome = true := by
    intro key member
    cases key with
    | none => exact absurd member full
    | some a => rfl
  have whole := List.countP_eq_length.mpr all
  rw [count] at few
  omega

/-! ## Values -/

section Lookup

variable [DecidableEq α]

/-- The value beside the first slot of a key. -/
def lookup (keys : List (Option α)) (vals : List β) (a : α) : Option β :=
  (keys.findIdx? (· = some a)).bind (vals[·]?)

theorem findIdx?_eq_some_iff (distinct : Distinct keys) :
    keys.findIdx? (· = some a) = some i ↔ keys[i]? = some (some a) := by
  rw [List.findIdx?_eq_some_iff_getElem]
  constructor
  · rintro ⟨bound, same, -⟩
    rw [List.getElem?_eq_getElem bound]
    exact congrArg some (of_decide_eq_true same)
  · intro stored
    obtain ⟨bound, same⟩ := List.getElem?_eq_some_iff.mp stored
    refine ⟨bound, by simpa using same, fun j before found => ?_⟩
    have earlier : keys[j]? = some (some a) := by
      rw [List.getElem?_eq_getElem (by omega)]
      exact congrArg some (of_decide_eq_true found)
    exact absurd (distinct j i a earlier stored) (by omega)

theorem findIdx?_eq_none_iff : keys.findIdx? (· = some a) = none ↔ Absent keys a := by
  rw [List.findIdx?_eq_none_iff]
  constructor
  · intro absent i stored
    simpa using absent _ (List.mem_of_getElem? stored)
  · intro absent key member
    obtain ⟨i, stored⟩ := List.getElem?_of_mem member
    rw [decide_eq_false_iff_not]
    rintro rfl
    exact absent i stored

/-- A key has a value exactly if some slot holds both. -/
theorem lookup_eq_some_iff (distinct : Distinct keys) :
    lookup keys vals a = some v ↔ ∃ i : ℕ, keys[i]? = some (some a) ∧ vals[i]? = some v := by
  simp only [lookup, Option.bind_eq_some_iff, findIdx?_eq_some_iff distinct]

theorem lookup_eq_none (absent : Absent keys a) : lookup keys vals a = none := by
  rw [lookup, findIdx?_eq_none_iff.mpr absent]
  rfl

theorem lookup_isSome_iff (distinct : Distinct keys) (same : vals.length = keys.length) :
    (lookup keys vals a).isSome = true ↔ some a ∈ keys := by
  constructor
  · intro found
    obtain ⟨v, looked⟩ := Option.isSome_iff_exists.mp found
    obtain ⟨i, stored, -⟩ := (lookup_eq_some_iff distinct).mp looked
    exact List.mem_of_getElem? stored
  · intro member
    obtain ⟨i, stored⟩ := List.getElem?_of_mem member
    have bound : i < keys.length := (List.getElem?_eq_some_iff.mp stored).1
    have value : vals[i]? = some vals[i] := List.getElem?_eq_getElem (by omega)
    rw [(lookup_eq_some_iff distinct).mpr ⟨i, stored, value⟩]
    rfl

/-- Two tables agree at a key that is in the same slots, beside the same values. -/
theorem lookup_congr {keys' : List (Option α)} {vals' : List β} (distinct : Distinct keys) (distinct' : Distinct keys')
    (same : ∀ (v : β) (i : ℕ),
      keys'[i]? = some (some a) ∧ vals'[i]? = some v ↔ keys[i]? = some (some a) ∧ vals[i]? = some v) :
    lookup keys' vals' a = lookup keys vals a := by
  ext v
  rw [lookup_eq_some_iff distinct, lookup_eq_some_iff distinct']
  exact exists_congr fun i => same v i

theorem lookup_store (distinct : Distinct keys) (stored : keys[i]? = some (some a)) (bound : i < vals.length) (v : β) :
    lookup keys (vals.set i v) = Function.update (lookup keys vals) a (some v) := by
  funext b
  by_cases same : b = a
  · subst same
    rw [Function.update_self, lookup_eq_some_iff distinct]
    exact ⟨i, stored, List.getElem?_set_self bound⟩
  · rw [Function.update_of_ne same]
    refine lookup_congr distinct distinct fun v j => and_congr_right fun other => ?_
    have different : i ≠ j := by
      rintro rfl
      rw [stored] at other
      exact same (Option.some.inj (Option.some.inj other)).symm
    rw [List.getElem?_set_ne different]

theorem lookup_fill (distinct : Distinct keys) (hole : keys[i]? = some none) (absent : Absent keys a)
    (bound : i < vals.length) (v : β) :
    lookup (keys.set i (some a)) (vals.set i v) = Function.update (lookup keys vals) a (some v) := by
  have filled := distinct.fill hole absent
  funext b
  by_cases same : b = a
  · subst same
    rw [Function.update_self, lookup_eq_some_iff filled]
    exact ⟨i, (getElem?_fill hole).mpr (.inl ⟨rfl, rfl⟩), List.getElem?_set_self bound⟩
  · rw [Function.update_of_ne same]
    apply lookup_congr distinct filled
    intro v j
    rw [getElem?_fill hole]
    by_cases here : i = j
    · subst here
      simp [hole, Ne.symm same]
    · rw [List.getElem?_set_ne here]
      simp [Ne.symm here]

theorem lookup_clear (distinct : Distinct keys) (stored : keys[i]? = some (some a)) (v : β) :
    lookup (keys.set i none) (vals.set i v) = Function.update (lookup keys vals) a none := by
  funext b
  by_cases same : b = a
  · subst same
    rw [Function.update_self]
    exact lookup_eq_none fun j found => ((getElem?_clear stored distinct).mp found).1 rfl
  · rw [Function.update_of_ne same]
    apply lookup_congr distinct (distinct.clear stored)
    intro v j
    rw [getElem?_clear stored distinct]
    by_cases here : i = j
    · subst here
      simp [stored, Ne.symm same]
    · rw [List.getElem?_set_ne here]
      simp [same]

theorem lookup_append_holes (distinct : Distinct keys) (same : vals.length = keys.length) (m : ℕ) (more : List β) :
    lookup (keys ++ List.replicate m none) (vals ++ more) = lookup keys vals := by
  funext b
  apply lookup_congr distinct (distinct.append_holes m)
  intro v j
  rw [getElem?_append_holes]
  apply and_congr_right
  intro stored
  have bound : j < keys.length := (List.getElem?_eq_some_iff.mp stored).1
  rw [List.getElem?_append_left (by omega)]

end Lookup

end FsPkg.SlotTable
