import Mathlib.Logic.Function.Basic
import Mathlib.Order.Lattice
import Mathlib.Order.Nat

/-! # The timer heap of `ev.c`

`ev.c` keeps its timers in an array that is a heap with four children to a node; the first cell in use is
`HEAP0`. A cell holds a watcher and a copy of its time, and a watcher holds the index of its cell in its
`active` field, which the loops write as they move cells. Times are any linear order: the `ev_tstamp` of
the source is a double, of which no clock gives a NaN.
-/

namespace FsPkg.Ev

/-- `ANHE`, with `EV_HEAP_CACHE_AT`. -/
structure Anhe (J T : Type*) where
  at_ : T
  w : J
deriving DecidableEq, Repr

/-- The cells of a heap, and the `active` fields of the watchers. -/
structure Heap (J T : Type*) where
  cell : ℕ → Anhe J T
  active : J → ℕ

/-- `DHEAP`. -/
def dheap : ℕ := 4

/-- `HEAP0`. -/
def heap0 : ℕ := dheap - 1

/-- `HPARENT`: at `HEAP0` the quotient is that of -1, which C rounds to 0. -/
def hparent (k : ℕ) : ℕ := (k - heap0 - 1) / dheap + heap0

/-- The index of the first child of `k`, the `pos` of `downheap`. -/
def hchild (k : ℕ) : ℕ := dheap * (k - heap0) + heap0 + 1

section Order

variable {J T : Type*} [DecidableEq J] [LinearOrder T]

/-- `heap[k] = he; ev_active(ANHE_w(he)) = k`. -/
def Heap.place (h : Heap J T) (k : ℕ) (he : Anhe J T) : Heap J T where
  cell := Function.update h.cell k he
  active := Function.update h.active he.w k

/-- The loop of `upheap`, with the cell taken out of the heap before it. -/
def upheapLoop (he : Anhe J T) (h : Heap J T) (k : ℕ) : Heap J T :=
  let p := hparent k
  if p = k ∨ (h.cell p).at_ ≤ he.at_ then h.place k he
  else upheapLoop he (h.place k (h.cell p)) p
termination_by if k < heap0 then heap0 + 1 else k
decreasing_by
  rename_i moves
  have differs : hparent k ≠ k := fun same => moves (.inl same)
  have inside : ¬ hparent k < heap0 := by simp [hparent]
  rw [if_neg inside]
  split_ifs with low
  · simp only [hparent, heap0, dheap] at low ⊢
    omega
  · simp only [hparent, heap0, dheap] at low differs ⊢
    omega

/-- `upheap`. -/
def upheap (h : Heap J T) (k : ℕ) : Heap J T :=
  upheapLoop (h.cell k) h k

/-- `if (ANHE_at(pos[i]) < minat) (minpos = pos + i), (minat = ANHE_at(*minpos))`. -/
def lesser (h : Heap J T) (minpos pos : ℕ) : ℕ :=
  if (h.cell pos).at_ < (h.cell minpos).at_ then pos else minpos

/-- The same with `pos + i < E &&` before it, on the slow path. -/
def lesserBelow (h : Heap J T) (E minpos pos : ℕ) : ℕ :=
  if pos < E ∧ (h.cell pos).at_ < (h.cell minpos).at_ then pos else minpos

/-- The least child of a node whose children start at `pos`, if it has one. -/
def minpos (h : Heap J T) (E pos : ℕ) : Option ℕ :=
  if pos + dheap - 1 < E then
    some (lesser h (lesser h (lesser h pos (pos + 1)) (pos + 2)) (pos + 3))
  else if pos < E then
    some (lesserBelow h E (lesserBelow h E (lesserBelow h E pos (pos + 1)) (pos + 2)) (pos + 3))
  else none

omit [DecidableEq J] in
theorem lesser_mem (h : Heap J T) (i j : ℕ) : lesser h i j = i ∨ lesser h i j = j := by
  unfold lesser
  split_ifs
  · exact .inr rfl
  · exact .inl rfl

omit [DecidableEq J] in
theorem lesserBelow_mem (h : Heap J T) (E i j : ℕ) :
    lesserBelow h E i j = i ∨ lesserBelow h E i j = j ∧ j < E := by
  unfold lesserBelow
  split_ifs with taken
  · exact .inr ⟨rfl, taken.1⟩
  · exact .inl rfl

omit [DecidableEq J] in
theorem minpos_range {h : Heap J T} {E pos c : ℕ} (found : minpos h E pos = some c) :
    pos ≤ c ∧ c < pos + dheap ∧ c < E := by
  unfold minpos at found
  split_ifs at found with fast
  · obtain rfl := Option.some.inj found
    simp only [dheap] at fast ⊢
    have first := lesser_mem h pos (pos + 1)
    have second := lesser_mem h (lesser h pos (pos + 1)) (pos + 2)
    have third := lesser_mem h (lesser h (lesser h pos (pos + 1)) (pos + 2)) (pos + 3)
    omega
  · obtain rfl := Option.some.inj found
    simp only [dheap] at fast ⊢
    have first := lesserBelow_mem h E pos (pos + 1)
    have second := lesserBelow_mem h E (lesserBelow h E pos (pos + 1)) (pos + 2)
    have third := lesserBelow_mem h E (lesserBelow h E (lesserBelow h E pos (pos + 1)) (pos + 2)) (pos + 3)
    omega

/-- The loop of `downheap`, with the cell taken out of the heap before it. -/
def downheapLoop (he : Anhe J T) (E : ℕ) (h : Heap J T) (k : ℕ) : Heap J T :=
  match _found : minpos h E (hchild k) with
  | none => h.place k he
  | some c =>
    if he.at_ ≤ (h.cell c).at_ then h.place k he
    else downheapLoop he E (h.place k (h.cell c)) c
termination_by E - k
decreasing_by
  have range := minpos_range _found
  simp only [hchild, heap0, dheap] at range
  omega

/-- `downheap`. -/
def downheap (h : Heap J T) (N k : ℕ) : Heap J T :=
  downheapLoop (h.cell k) (N + heap0) h k

/-- `adjustheap`. -/
def adjustheap (h : Heap J T) (N k : ℕ) : Heap J T :=
  if k > heap0 ∧ (h.cell (hparent k)).at_ ≥ (h.cell k).at_ then upheap h k
  else downheap h N k

end Order

end FsPkg.Ev
