import Mathlib.Data.Int.Notation
import Mathlib.Data.List.Count
import Mathlib.Data.List.Perm.Basic
import Mathlib.Logic.Function.Basic
import Mathlib.Tactic.TypeStar

/-! # Counted records

A record counts those that have it, and is there as long as somebody does. Whoever takes or gives back a record changes
its counter by one; who gives back the last sees a zero and frees it.
-/

namespace FsPkg.Machine

variable {α : Type*} [DecidableEq α]

/-- Each counter is the number of times that the record is had; a record that nobody has is not there. -/
def Counted (counts : α → Option ℤ) (holders : List α) : Prop :=
  ∀ k, counts k = if k ∈ holders then some (holders.count k : ℤ) else none

namespace Counted

variable {counts : α → Option ℤ} {holders holders' : List α} {k : α}

theorem perm (counted : Counted counts holders) (same : holders.Perm holders') : Counted counts holders' := by
  intro k
  rw [counted k, same.count_eq]
  simp only [same.mem_iff]

theorem isSome_iff (counted : Counted counts holders) : (counts k).isSome ↔ k ∈ holders := by
  rw [counted k]
  split_ifs with member <;> simp [member]

theorem eq_none_iff (counted : Counted counts holders) : counts k = none ↔ k ∉ holders := by
  rw [← counted.isSome_iff, Option.not_isSome_iff_eq_none]

/-- Who has a record alone. -/
theorem alone (counted : Counted counts (k :: holders)) (alone : k ∉ holders) : counts k = some 1 := by
  rw [counted k, if_pos List.mem_cons_self, List.count_cons_self, List.count_eq_zero_of_not_mem alone]
  rfl

/-- A new record. -/
theorem new (counted : Counted counts holders) (fresh : counts k = none) :
    Counted (Function.update counts k (some 1)) (k :: holders) := by
  have nobody := counted.eq_none_iff.mp fresh
  intro other
  rcases eq_or_ne other k with rfl | different
  · rw [Function.update_self, if_pos List.mem_cons_self, List.count_cons_self, List.count_eq_zero_of_not_mem nobody]
    rfl
  · rw [Function.update_of_ne different, counted other, List.count_cons_of_ne different.symm]
    simp only [List.mem_cons, different, false_or]

/-- One more has the record. -/
theorem hold (counted : Counted counts holders) {n : ℤ} (found : counts k = some n) :
    Counted (Function.update counts k (some (n + 1))) (k :: holders) := by
  have member := counted.isSome_iff.mp (Option.isSome_of_eq_some found)
  rw [counted k, if_pos member] at found
  intro other
  rcases eq_or_ne other k with rfl | different
  · rw [Function.update_self, if_pos List.mem_cons_self, List.count_cons_self, ← Option.some.inj found]
    push_cast
    rfl
  · rw [Function.update_of_ne different, counted other, List.count_cons_of_ne different.symm]
    simp only [List.mem_cons, different, false_or]

/-- The record is given back by one of those that have it. -/
theorem drop (counted : Counted counts (k :: holders)) : ∃ n, counts k = some n ∧
    Counted (Function.update counts k (if n - 1 = 0 then none else some (n - 1))) holders := by
  have found := counted k
  rw [if_pos List.mem_cons_self, List.count_cons_self] at found
  refine ⟨_, found, ?_⟩
  push_cast
  rw [Int.add_sub_cancel]
  intro other
  rcases eq_or_ne other k with rfl | different
  · rw [Function.update_self]
    by_cases member : other ∈ holders
    · rw [if_pos member, if_neg]
      have positive := List.count_pos_iff.mpr member
      omega
    · rw [if_neg member, if_pos]
      rw [List.count_eq_zero_of_not_mem member]
      rfl
  · rw [Function.update_of_ne different, counted other, List.count_cons_of_ne different.symm]
    simp only [List.mem_cons, different, false_or]

end Counted

end FsPkg.Machine
