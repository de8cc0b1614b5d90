import Mathlib.Algebra.BigOperators.Group.List.Basic
import Mathlib.Algebra.GroupWithZero.Nat
import Mathlib.Data.Finset.Card
import Mathlib.Order.Interval.Finset.Nat

/-! # Packing pairwise disjoint intervals

Half-open intervals `[first, first + size)` of natural numbers that are pairwise disjoint and lie
below a common bound have sizes summing to at most that bound. Mathlib has the cardinality of a
disjoint union; this is the list form used to bound what fits into one address space.
-/

namespace FsPkg.Packing

/-- Two half-open intervals, each given by its first point and its size, share no point. -/
def Apart (left right : ℕ × ℕ) : Prop :=
  left.1 + left.2 ≤ right.1 ∨ right.1 + right.2 ≤ left.1

instance (left right : ℕ × ℕ) : Decidable (Apart left right) := inferInstanceAs (Decidable (_ ∨ _))

theorem Apart.symm {left right : ℕ × ℕ} (apart : Apart left right) : Apart right left :=
  Or.symm apart

/-- Parts of disjoint intervals are disjoint. -/
theorem Apart.within {left right left' right' : ℕ × ℕ} (apart : Apart left right) (start : left.1 ≤ left'.1)
    (stop : left'.1 + left'.2 ≤ left.1 + left.2) (start' : right.1 ≤ right'.1)
    (stop' : right'.1 + right'.2 ≤ right.1 + right.2) : Apart left' right' := by
  unfold Apart at *
  omega

/-- No point lies in both of two disjoint intervals. -/
theorem Apart.not_both {left right : ℕ × ℕ} (apart : Apart left right) {point : ℕ}
    (inside : left.1 ≤ point ∧ point < left.1 + left.2) (inside' : right.1 ≤ point ∧ point < right.1 + right.2) :
    False := by
  unfold Apart at apart
  omega

/-- The points covered by a list of intervals. -/
def points : List (ℕ × ℕ) → Finset ℕ
  | [] => ∅
  | interval :: rest => Finset.Ico interval.1 (interval.1 + interval.2) ∪ points rest

theorem mem_points {intervals : List (ℕ × ℕ)} {point : ℕ} :
    point ∈ points intervals ↔ ∃ interval ∈ intervals, interval.1 ≤ point ∧ point < interval.1 + interval.2 := by
  induction intervals with
  | nil => simp [points]
  | cons interval rest ih => simp [points, ih]

/-- Disjoint intervals cover exactly as many points as their sizes say. -/
theorem card_points {intervals : List (ℕ × ℕ)} (apart : intervals.Pairwise Apart) :
    (points intervals).card = (intervals.map Prod.snd).sum := by
  induction intervals with
  | nil => rfl
  | cons interval rest ih =>
    obtain ⟨head, tail⟩ := List.pairwise_cons.mp apart
    have disjoint : Disjoint (Finset.Ico interval.1 (interval.1 + interval.2)) (points rest) := by
      apply Finset.disjoint_left.mpr
      intro point inside covered
      obtain ⟨other, member, inside'⟩ := mem_points.mp covered
      exact (head other member).not_both (Finset.mem_Ico.mp inside) inside'
    rw [points, Finset.card_union_of_disjoint disjoint, ih tail, Nat.card_Ico]
    simp

/-- Pairwise disjoint intervals below `bound` have total size at most `bound`. -/
theorem sum_sizes_le {intervals : List (ℕ × ℕ)} {bound : ℕ} (apart : intervals.Pairwise Apart)
    (inside : ∀ interval ∈ intervals, interval.1 + interval.2 ≤ bound) :
    (intervals.map Prod.snd).sum ≤ bound := by
  have covered : points intervals ⊆ Finset.range bound := by
    intro point member
    obtain ⟨interval, present, _, upper⟩ := mem_points.mp member
    exact Finset.mem_range.mpr (lt_of_lt_of_le upper (inside interval present))
  calc (intervals.map Prod.snd).sum = (points intervals).card := (card_points apart).symm
    _ ≤ (Finset.range bound).card := Finset.card_le_card covered
    _ = bound := Finset.card_range bound

end FsPkg.Packing
