import FsPkg.Model.EvHeap
import FsPkg.ToMathlib.HeapOrder

/-! # Repairs of the timer heap

`upheap` and `downheap` carry one cell along a path of the tree. While they do, that cell is out of the
heap and its place is a hole; with the cell put into the hole, the heap is ordered but for the edges
there. Both end with an ordered heap of the same cells in which each watcher knows its index.
-/

namespace FsPkg.Ev

variable {J T : Type*} {n k q c : ℕ}

/-! ## The tree -/

/-- The tree of the heap. -/
def layout : HeapLayout where
  root := heap0
  parent := hparent
  root_le_parent k _ := by simp [hparent]
  parent_lt k inside := by
    simp only [hparent, heap0, dheap] at inside ⊢
    omega

theorem layout_child : layout.Child n c k ↔ heap0 ≤ k ∧ hchild k ≤ c ∧ c < hchild k + dheap ∧ c < n := by
  simp only [HeapLayout.Child, layout, hparent, hchild, heap0, dheap]
  omega

theorem hparent_eq_self_iff (inside : heap0 ≤ k) : hparent k = k ↔ k = heap0 := by
  simp only [hparent, heap0, dheap] at inside ⊢
  omega

/-! ## Cells and indices -/

/-- The times of the cells. -/
def times (cell : ℕ → Anhe J T) (i : ℕ) : T := (cell i).at_

@[simp] theorem times_update (cell : ℕ → Anhe J T) (he : Anhe J T) :
    times (Function.update cell k he) = Function.update (times cell) k he.at_ := by
  funext i
  rcases eq_or_ne i k with rfl | away
  · simp [times]
  · simp [times, away]

/-- A cell of the heap of the positions from `HEAP0` to `n`. -/
def Holds (cell : ℕ → Anhe J T) (n : ℕ) (he : Anhe J T) : Prop :=
  ∃ i, heap0 ≤ i ∧ i < n ∧ cell i = he

/-- Every watcher in the heap knows its index. -/
def Heap.Indexed (h : Heap J T) (n : ℕ) : Prop :=
  ∀ i, heap0 ≤ i → i < n → h.active (h.cell i).w = i

theorem Heap.Indexed.injective {h : Heap J T} {i j : ℕ} (indexed : h.Indexed n) (inside : heap0 ≤ i) (bound : i < n)
    (inside' : heap0 ≤ j) (bound' : j < n) (same : (h.cell i).w = (h.cell j).w) : i = j := by
  rw [← indexed i inside bound, ← indexed j inside' bound', same]

/-- A heap of the cells of `cell`, ordered and indexed. The other cells and the other watchers are as before. -/
structure Repaired [LinearOrder T] (n : ℕ) (cell : ℕ → Anhe J T) (active : J → ℕ) (r : Heap J T) : Prop where
  ordered : layout.Ordered (times r.cell) n
  indexed : r.Indexed n
  same : ∀ he, Holds r.cell n he ↔ Holds cell n he
  outside : ∀ i, n ≤ i → r.cell i = cell i
  absent : ∀ w, (∀ i, heap0 ≤ i → i < n → (cell i).w ≠ w) → r.active w = active w

/-- The cell `he` is out of the heap, and position `k` is free for it. -/
structure Hole (he : Anhe J T) (h : Heap J T) (n k : ℕ) : Prop where
  inside : heap0 ≤ k
  bound : k < n
  indexed : ∀ i, heap0 ≤ i → i < n → i ≠ k → h.active (h.cell i).w = i
  out : ∀ i, heap0 ≤ i → i < n → i ≠ k → (h.cell i).w ≠ he.w

section Hole

variable [DecidableEq J] {he : Anhe J T} {h : Heap J T}

/-- Moving a cell into the hole leaves a hole where it was. -/
theorem Hole.move (hole : Hole he h n k) (inside : heap0 ≤ q) (bound : q < n) (away : q ≠ k) :
    Hole he (h.place k (h.cell q)) n q where
  inside := inside
  bound := bound
  indexed i low high other := by
    rcases eq_or_ne i k with rfl | elsewhere
    · simp [Heap.place]
    · have differs : (h.cell i).w ≠ (h.cell q).w := fun same => other <| by
        rw [← hole.indexed i low high elsewhere, ← hole.indexed q inside bound away, same]
      simp only [Heap.place, Function.update_of_ne elsewhere, Function.update_of_ne differs]
      exact hole.indexed i low high elsewhere
  out i low high other := by
    rcases eq_or_ne i k with rfl | elsewhere
    · simpa [Heap.place] using hole.out q inside bound away
    · simpa [Heap.place, elsewhere] using hole.out i low high elsewhere

theorem Hole.place_indexed (hole : Hole he h n k) : (h.place k he).Indexed n := by
  intro i low high
  rcases eq_or_ne i k with rfl | elsewhere
  · simp [Heap.place]
  · simp only [Heap.place, Function.update_of_ne elsewhere, Function.update_of_ne (hole.out i low high elsewhere)]
    exact hole.indexed i low high elsewhere

/-- The heap with its hole filled, before and after a move. -/
theorem fill_place (he : Anhe J T) (h : Heap J T) (away : q ≠ k) : Function.update (h.place k (h.cell q)).cell q he =
    Function.update h.cell k he ∘ Equiv.swap k q := by
  funext i
  rcases eq_or_ne i q with rfl | elsewhere
  · simp
  · rcases eq_or_ne i k with rfl | other
    · simp [Heap.place, elsewhere, away]
    · simp [Heap.place, elsewhere, other, Equiv.swap_apply_of_ne_of_ne other elsewhere]

omit [DecidableEq J] in
theorem holds_swap {cell : ℕ → Anhe J T} {x : Anhe J T} (insideK : heap0 ≤ k) (boundK : k < n) (insideQ : heap0 ≤ q)
    (boundQ : q < n) : Holds (cell ∘ Equiv.swap k q) n x ↔ Holds cell n x := by
  have stays : ∀ i, heap0 ≤ i → i < n → heap0 ≤ Equiv.swap k q i ∧ Equiv.swap k q i < n := by
    intro i low high
    rw [Equiv.swap_apply_def]
    split_ifs
    exacts [⟨insideQ, boundQ⟩, ⟨insideK, boundK⟩, ⟨low, high⟩]
  constructor
  · rintro ⟨i, low, high, rfl⟩
    exact ⟨_, (stays i low high).1, (stays i low high).2, rfl⟩
  · rintro ⟨i, low, high, rfl⟩
    exact ⟨_, (stays i low high).1, (stays i low high).2, by simp⟩

variable [LinearOrder T]

/-- What is repaired after a move of the hole was to be repaired before it. -/
theorem Repaired.of_move {r : Heap J T} (hole : Hole he h n k) (inside : heap0 ≤ q) (bound : q < n) (away : q ≠ k)
    (repaired : Repaired n (Function.update (h.place k (h.cell q)).cell q he) (h.place k (h.cell q)).active r) :
    Repaired n (Function.update h.cell k he) h.active r := by
  rw [fill_place he h away] at repaired
  refine ⟨repaired.ordered, repaired.indexed, fun x => ?_, fun i high => ?_, fun w absent => ?_⟩
  · rw [repaired.same, holds_swap hole.inside hole.bound inside bound]
  · rw [repaired.outside i high, Function.comp_apply,
      Equiv.swap_apply_of_ne_of_ne (hole.bound.trans_le high).ne' (bound.trans_le high).ne']
  · have moved : (h.cell q).w ≠ w := by simpa [away] using absent q inside bound
    rw [repaired.absent w]
    · exact Function.update_of_ne moved.symm _ _
    · intro i low high
      rw [Function.comp_apply, Equiv.swap_apply_def]
      split_ifs
      exacts [absent q inside bound, absent k hole.inside hole.bound, absent i low high]

/-- The cell is put into the hole. -/
theorem Hole.repaired (hole : Hole he h n k) (ordered : layout.Ordered (times (Function.update h.cell k he)) n) :
    Repaired n (Function.update h.cell k he) h.active (h.place k he) where
  ordered := ordered
  indexed := hole.place_indexed
  same _ := Iff.rfl
  outside _ _ := rfl
  absent w absent := by
    have other : he.w ≠ w := by simpa using absent k hole.inside hole.bound
    exact Function.update_of_ne other.symm _ _

end Hole

/-! ## Towards the root -/

section Repair

variable [DecidableEq J] [LinearOrder T] {he : Anhe J T} {h : Heap J T}

theorem upheapLoop_repaired (hole : Hole he h n k)
    (but : layout.OrderedBut (times (Function.update h.cell k he)) n k)
    (below : ∀ c, layout.Child n c k → times (Function.update h.cell k he) k ≤ times (Function.update h.cell k he) c) :
    Repaired n (Function.update h.cell k he) h.active (upheapLoop he h k) := by
  induction h, k using upheapLoop.induct he with
  | case1 h k p stops =>
    rw [upheapLoop, if_pos stops]
    refine hole.repaired (but.ordered ?_ below)
    rintro j ⟨inside, -, rfl⟩
    have differs : layout.parent k ≠ k := (layout.parent_lt k inside).ne
    rcases stops with same | stops
    · exact absurd same differs
    · rw [times_update, Function.update_self, Function.update_of_ne differs]
      exact stops
  | case2 h k p moves ih =>
    rw [upheapLoop, if_neg moves]
    obtain ⟨differs, less⟩ := not_or.mp moves
    have below_root : heap0 < k := lt_of_le_of_ne hole.inside fun root =>
      differs ((hparent_eq_self_iff hole.inside).mpr root.symm)
    have parent : layout.Child n k (hparent k) := ⟨below_root, hole.bound, rfl⟩
    have lesser : times (Function.update h.cell k he) k < times (Function.update h.cell k he) (hparent k) := by
      rw [times_update, Function.update_self, Function.update_of_ne differs]
      exact not_le.mp less
    have risen := but.rise below parent lesser
    have filled := fill_place he h differs
    refine .of_move hole parent.root_le parent.bound differs (ih (hole.move parent.root_le parent.bound differs) ?_ ?_)
    · rw [filled]
      exact risen.1
    · rw [filled]
      exact risen.2

/-! ## Away from the root -/

section Child

omit [DecidableEq J]

theorem lesser_le (h : Heap J T) (i j : ℕ) :
    times h.cell (lesser h i j) ≤ times h.cell i ∧ times h.cell (lesser h i j) ≤ times h.cell j := by
  unfold lesser times
  split_ifs with less
  · exact ⟨less.le, le_rfl⟩
  · exact ⟨le_rfl, not_lt.mp less⟩

/-- On the slow path an index behind the end is passed over. -/
theorem lesserBelow_eq (h : Heap J T) (i j : ℕ) : lesserBelow h n i j = if j < n then lesser h i j else i := by
  exact ite_and ..

/-- The fast path is the slow path, where all four children are there. -/
theorem minpos_eq (h : Heap J T) (pos : ℕ) : minpos h n pos = if pos < n then
    some (lesserBelow h n (lesserBelow h n (lesserBelow h n pos (pos + 1)) (pos + 2)) (pos + 3)) else none := by
  unfold minpos
  split_ifs with fast
  · simp only [dheap] at fast
    rw [lesserBelow_eq h pos, if_pos (by omega), lesserBelow_eq, if_pos (by omega), lesserBelow_eq, if_pos (by omega)]
  · simp only [dheap] at fast
    omega
  · rfl
  · rfl

theorem lesserBelow_le (h : Heap J T) (i j : ℕ) : times h.cell (lesserBelow h n i j) ≤ times h.cell i ∧
    (j < n → times h.cell (lesserBelow h n i j) ≤ times h.cell j) := by
  rw [lesserBelow_eq]
  split_ifs with bound
  · exact ⟨(lesser_le h i j).1, fun _ => (lesser_le h i j).2⟩
  · exact ⟨le_rfl, fun inside => absurd inside bound⟩

/-- The child that `downheap` picks is a least one; it picks none if there is none. -/
theorem minpos_spec (h : Heap J T) (inside : heap0 ≤ k) :
    (minpos h n (hchild k) = none ∧ ∀ c, ¬ layout.Child n c k) ∨
      ∃ c, minpos h n (hchild k) = some c ∧ layout.Child n c k ∧
        ∀ d, layout.Child n d k → times h.cell c ≤ times h.cell d := by
  cases found : minpos h n (hchild k) with
  | none =>
    refine .inl ⟨rfl, fun c child => ?_⟩
    obtain ⟨-, low, -, high⟩ := layout_child.mp child
    rw [minpos_eq, if_pos (low.trans_lt high)] at found
    cases found
  | some c =>
    obtain ⟨low, high, bound⟩ := minpos_range found
    refine .inr ⟨c, rfl, layout_child.mpr ⟨inside, low, high, bound⟩, fun d child => ?_⟩
    obtain ⟨-, lowD, highD, boundD⟩ := layout_child.mp child
    generalize hchild k = pos at found lowD highD
    rw [minpos_eq, if_pos (lowD.trans_lt boundD)] at found
    obtain rfl := Option.some.inj found
    have first := lesserBelow_le (n := n) h pos (pos + 1)
    have second := lesserBelow_le (n := n) h (lesserBelow h n pos (pos + 1)) (pos + 2)
    have third := lesserBelow_le (n := n) h (lesserBelow h n (lesserBelow h n pos (pos + 1)) (pos + 2)) (pos + 3)
    simp only [dheap] at highD
    obtain rfl | rfl | rfl | rfl : d = pos ∨ d = pos + 1 ∨ d = pos + 2 ∨ d = pos + 3 := by omega
    · exact third.1.trans (second.1.trans first.1)
    · exact third.1.trans (second.1.trans (first.2 boundD))
    · exact third.1.trans (second.2 boundD)
    · exact third.2 boundD

end Child

theorem downheapLoop_repaired (hole : Hole he h n k)
    (but : layout.OrderedBut (times (Function.update h.cell k he)) n k)
    (above : ∀ j, layout.Child n k j → times (Function.update h.cell k he) j ≤ times (Function.update h.cell k he) k) :
    Repaired n (Function.update h.cell k he) h.active (downheapLoop he n h k) := by
  induction h, k using downheapLoop.induct he n with
  | case1 h k found =>
    rw [downheapLoop, found]
    obtain ⟨-, childless⟩ | ⟨c, picked, -⟩ := minpos_spec (n := n) h hole.inside
    · exact hole.repaired (but.ordered above fun c child => absurd child (childless c))
    · rw [picked] at found
      cases found
  | case2 h k c found stops =>
    rw [downheapLoop, found]
    simp only [if_pos stops]
    obtain ⟨none, -⟩ | ⟨d, picked, child, least⟩ := minpos_spec (n := n) h hole.inside
    · rw [none] at found
      cases found
    · obtain rfl : c = d := Option.some.inj (found.symm.trans picked)
      refine hole.repaired (but.ordered above fun d other => ?_)
      rw [times_update, Function.update_self, Function.update_of_ne other.lt.ne']
      exact stops.trans (least d other)
  | case3 h k c found moves ih =>
    rw [downheapLoop, found]
    simp only [if_neg moves]
    obtain ⟨none, -⟩ | ⟨d, picked, child, least⟩ := minpos_spec (n := n) h hole.inside
    · rw [none] at found
      cases found
    · obtain rfl : c = d := Option.some.inj (found.symm.trans picked)
      have differs : c ≠ k := child.lt.ne'
      have sunk := but.sink child
        (fun d other => by
          rw [times_update, Function.update_of_ne differs, Function.update_of_ne other.lt.ne']
          exact least d other)
        (by
          rw [times_update, Function.update_self, Function.update_of_ne differs]
          exact not_le.mp moves)
      have filled := fill_place he h differs
      have inside : heap0 ≤ c := hole.inside.trans child.lt.le
      refine .of_move hole inside child.2.1 differs (ih (hole.move inside child.2.1 differs) ?_ ?_)
      · rw [filled]
        exact sunk.1
      · rw [filled]
        exact sunk.2

/-! ## The functions -/

variable {N : ℕ}

theorem upheap_repaired (hole : Hole (h.cell k) h n k) (but : layout.OrderedBut (times h.cell) n k)
    (below : ∀ c, layout.Child n c k → times h.cell k ≤ times h.cell c) :
    Repaired n h.cell h.active (upheap h k) := by
  have filled : Function.update h.cell k (h.cell k) = h.cell := Function.update_eq_self k h.cell
  simpa only [upheap, filled] using upheapLoop_repaired hole (by rwa [filled]) (by rwa [filled])

theorem downheap_repaired (hole : Hole (h.cell k) h (N + heap0) k)
    (but : layout.OrderedBut (times h.cell) (N + heap0) k)
    (above : ∀ j, layout.Child (N + heap0) k j → times h.cell j ≤ times h.cell k) :
    Repaired (N + heap0) h.cell h.active (downheap h N k) := by
  have filled : Function.update h.cell k (h.cell k) = h.cell := Function.update_eq_self k h.cell
  simpa only [downheap, filled] using downheapLoop_repaired hole (by rwa [filled]) (by rwa [filled])

/-- A heap in which one cell is out of order, whichever way it has to go. -/
theorem adjustheap_repaired (hole : Hole (h.cell k) h (N + heap0) k)
    (but : layout.OrderedBut (times h.cell) (N + heap0) k) :
    Repaired (N + heap0) h.cell h.active (adjustheap h N k) := by
  unfold adjustheap
  split_ifs with up
  · have parent : layout.Child (N + heap0) k (hparent k) := ⟨up.1, hole.bound, rfl⟩
    exact upheap_repaired hole but fun c child => up.2.trans (but.bypass c _ child parent)
  · refine downheap_repaired hole but ?_
    rintro j ⟨inside, -, rfl⟩
    exact (not_le.mp fun le => up ⟨inside, le⟩).le

end Repair

end FsPkg.Ev
