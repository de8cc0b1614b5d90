import Mathlib.Logic.Equiv.Basic
import Mathlib.Order.Lattice
import Mathlib.Order.Nat

/-! # Array heaps of any shape

A heap kept in an array is a family of keys ordered along a parent function. Repairing it moves one
position along a path: the keys are ordered but for the edges at that position, and the position's
parent still bounds its children from below. Exchanging the position with its parent, or with a least
child, keeps that, so a path that stops where both edges are in order ends in a heap.
-/

namespace FsPkg

/-- The tree an array heap hangs its positions on: below the root every position has an earlier parent. -/
structure HeapLayout where
  root : ℕ
  parent : ℕ → ℕ
  root_le_parent : ∀ k, root < k → root ≤ parent k
  parent_lt : ∀ k, root < k → parent k < k

namespace HeapLayout

variable {L : HeapLayout} {T : Type*} [LinearOrder T] {f : ℕ → T} {n k c d j : ℕ}

/-- Position `c`, below the bound `n`, hangs on position `k`. -/
def Child (L : HeapLayout) (n c k : ℕ) : Prop :=
  L.root < c ∧ c < n ∧ L.parent c = k

theorem Child.lt (child : L.Child n c k) : k < c := by
  obtain ⟨inside, -, rfl⟩ := child
  exact L.parent_lt c inside

theorem Child.bound (child : L.Child n c k) : k < n :=
  child.lt.trans child.2.1

theorem Child.root_le (child : L.Child n c k) : L.root ≤ k := by
  obtain ⟨inside, -, rfl⟩ := child
  exact L.root_le_parent c inside

theorem Child.unique (first : L.Child n c k) (second : L.Child n c j) : k = j :=
  first.2.2.symm.trans second.2.2

/-- No key is below the key of its parent. -/
def Ordered (L : HeapLayout) (f : ℕ → T) (n : ℕ) : Prop :=
  ∀ c k, L.Child n c k → f k ≤ f c

/-- The keys are ordered but for the edges at `k`, whose parent is not above its children. -/
structure OrderedBut (L : HeapLayout) (f : ℕ → T) (n k : ℕ) : Prop where
  off : ∀ c j, L.Child n c j → c ≠ k → j ≠ k → f j ≤ f c
  bypass : ∀ c j, L.Child n c k → L.Child n k j → f j ≤ f c

/-- The root is a least key. -/
theorem Ordered.root_le (ordered : L.Ordered f n) : ∀ i, L.root ≤ i → i < n → f L.root ≤ f i := by
  intro i
  induction i using Nat.strongRecOn with
  | ind i ih =>
    intro inside bound
    rcases inside.eq_or_lt with rfl | below
    · exact le_rfl
    · have child : L.Child n i (L.parent i) := ⟨below, bound, rfl⟩
      exact (ih _ child.lt child.root_le child.bound).trans (ordered _ _ child)

theorem Ordered.mono (ordered : L.Ordered f n) (fewer : d ≤ n) : L.Ordered f d :=
  fun c k child => ordered c k ⟨child.1, child.2.1.trans_le fewer, child.2.2⟩

/-- A heap in which one key was replaced. -/
theorem Ordered.update (ordered : L.Ordered f n) (x : T) : L.OrderedBut (Function.update f k x) n k where
  off c j child away parentAway := by
    rw [Function.update_of_ne away, Function.update_of_ne parentAway]
    exact ordered c j child
  bypass c j child above := by
    rw [Function.update_of_ne child.lt.ne', Function.update_of_ne above.lt.ne]
    exact (ordered k j above).trans (ordered c k child)

/-- A heap with one key more, at its end. -/
theorem Ordered.append (ordered : L.Ordered f n) (x : T) : L.OrderedBut (Function.update f n x) (n + 1) n where
  off c j child away parentAway := by
    rw [Function.update_of_ne away, Function.update_of_ne parentAway]
    have bound := child.2.1
    exact ordered c j ⟨child.1, by omega, child.2.2⟩
  bypass c j child _ := by
    have bound := child.2.1
    have later := child.lt
    omega

theorem OrderedBut.ordered (but : L.OrderedBut f n k) (above : ∀ j, L.Child n k j → f j ≤ f k)
    (below : ∀ c, L.Child n c k → f k ≤ f c) : L.Ordered f n := by
  intro c j child
  rcases eq_or_ne c k with rfl | away
  · exact above j child
  · rcases eq_or_ne j k with rfl | parentAway
    · exact below c child
    · exact but.off c j child away parentAway

section Swap

omit [LinearOrder T]

private theorem swap_left : (f ∘ Equiv.swap k j) k = f j := by simp

private theorem swap_right : (f ∘ Equiv.swap k j) j = f k := by simp

private theorem swap_off {i : ℕ} (left : i ≠ k) (right : i ≠ j) : (f ∘ Equiv.swap k j) i = f i := by
  simp [Equiv.swap_apply_of_ne_of_ne left right]

end Swap

/-- A key below its parent's, and not above its children's, changes places with its parent. -/
theorem OrderedBut.rise (but : L.OrderedBut f n k) (below : ∀ c, L.Child n c k → f k ≤ f c)
    (parent : L.Child n k j) (less : f k < f j) :
    L.OrderedBut (f ∘ Equiv.swap k j) n j ∧
      ∀ c, L.Child n c j → (f ∘ Equiv.swap k j) j ≤ (f ∘ Equiv.swap k j) c := by
  -- The old parent's key is not above that of any of its children other than `k`.
  have siblings : ∀ c, L.Child n c j → c ≠ k → f j ≤ f c := fun c child away =>
    but.off c j child away parent.lt.ne
  refine ⟨⟨?_, ?_⟩, ?_⟩
  · intro c i child away parentAway
    rcases eq_or_ne c k with rfl | other
    · exact absurd (child.unique parent) parentAway
    · rw [swap_off other away]
      rcases eq_or_ne i k with rfl | parentOther
      · rw [swap_left]
        exact but.bypass c j child parent
      · rw [swap_off parentOther parentAway]
        exact but.off c i child other parentOther
  · intro c i child above
    have earlier : i ≠ k := (above.lt.trans parent.lt).ne
    have top : f i ≤ f j := but.off j i above parent.lt.ne earlier
    rw [swap_off earlier above.lt.ne]
    rcases eq_or_ne c k with rfl | other
    · rw [swap_left]
      exact top
    · rw [swap_off other child.lt.ne']
      exact top.trans (siblings c child other)
  · intro c child
    rw [swap_right]
    rcases eq_or_ne c k with rfl | other
    · rw [swap_left]
      exact less.le
    · rw [swap_off other child.lt.ne']
      exact less.le.trans (siblings c child other)

/-- A key above a least child's, and not below its parent's, changes places with that child. -/
theorem OrderedBut.sink (but : L.OrderedBut f n k) (child : L.Child n c k)
    (least : ∀ d, L.Child n d k → f c ≤ f d) (less : f c < f k) :
    L.OrderedBut (f ∘ Equiv.swap k c) n c ∧
      ∀ j, L.Child n c j → (f ∘ Equiv.swap k c) j ≤ (f ∘ Equiv.swap k c) c := by
  refine ⟨⟨?_, ?_⟩, ?_⟩
  · intro d i other away parentAway
    rcases eq_or_ne d k with rfl | elsewhere
    · rw [swap_left, swap_off other.lt.ne parentAway]
      exact but.bypass c i child other
    · rw [swap_off elsewhere away]
      rcases eq_or_ne i k with rfl | parentElsewhere
      · rw [swap_left]
        exact least d other
      · rw [swap_off parentElsewhere parentAway]
        exact but.off d i other elsewhere parentElsewhere
  · intro d i grandchild above
    obtain rfl : k = i := child.unique above
    rw [swap_left, swap_off (child.lt.trans grandchild.lt).ne' grandchild.lt.ne']
    exact but.off d c grandchild (child.lt.trans grandchild.lt).ne' child.lt.ne'
  · intro i above
    obtain rfl : k = i := child.unique above
    rw [swap_left, swap_right]
    exact less.le

end HeapLayout

end FsPkg
