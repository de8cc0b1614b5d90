import FsPkg.Model.Ev
import FsPkg.Proofs.EvHeapOrder
import Mathlib.Algebra.Order.Monoid.Unbundled.Basic

/-! # The timers of `ev.c` as a map

The heap is one way to hold a map from watchers to times. Its invariant is kept by everything `ev.c` does to it, and
what each of these does to the map is a change at one watcher, wherever the heap puts the cell of that watcher.
-/

namespace FsPkg.Ev

variable {J T : Type*} [LinearOrder T] [Zero T] {t : Timers J T} {w v : J}

/-! ## Sizes -/

theorem le_arrayDouble (cnt ncur : ℕ) (positive : 0 < ncur) : cnt ≤ arrayDouble cnt ncur := by
  induction ncur using arrayDouble.induct cnt with
  | case1 ncur short ih =>
    rw [arrayDouble, if_pos short]
    exact ih (by omega)
  | case2 ncur enough =>
    rw [arrayDouble, if_neg enough]
    omega

/-- The rounding to whole pages never takes away what was asked for. -/
theorem le_arrayNextsize {elem : ℕ} (cur cnt : ℕ) (positive : 0 < elem) : cnt ≤ arrayNextsize elem cur cnt := by
  have enough := le_arrayDouble cnt (cur + 1) (by omega)
  unfold arrayNextsize
  dsimp only
  split_ifs with large
  · refine enough.trans ((Nat.le_div_iff_mul_le positive).mpr ?_)
    simp only [mallocRound, sizeofPointer]
    omega
  · exact enough

theorem le_arrayNeedsize {elem : ℕ} (cur cnt : ℕ) (positive : 0 < elem) : cnt ≤ arrayNeedsize elem cur cnt := by
  unfold arrayNeedsize
  split_ifs with short
  · exact le_arrayNextsize cur cnt positive
  · exact not_lt.mp short

theorem self_le_arrayNeedsize {elem : ℕ} (cur cnt : ℕ) (positive : 0 < elem) : cur ≤ arrayNeedsize elem cur cnt := by
  unfold arrayNeedsize
  split_ifs with short
  · exact (le_of_lt short).trans (le_arrayNextsize cur cnt positive)
  · exact le_rfl

/-! ## The invariant -/

/-- The heap is ordered, its watchers know their indices, its cells know the times of their watchers, and all watchers
with an index are in it. -/
structure Timers.Sound (t : Timers J T) : Prop where
  ordered : layout.Ordered (times t.heap.cell) (t.timercnt + heap0)
  indexed : t.heap.Indexed (t.timercnt + heap0)
  cached : ∀ i, heap0 ≤ i → i < t.timercnt + heap0 → (t.heap.cell i).at_ = t.at_ (t.heap.cell i).w
  listed : ∀ w, t.heap.active w ≠ 0 → heap0 ≤ t.heap.active w ∧ t.heap.active w < t.timercnt + heap0 ∧
    (t.heap.cell (t.heap.active w)).w = w
  nonneg : ∀ w, t.heap.active w ≠ 0 → 0 ≤ t.repeat_ w
  room : t.timercnt = 0 ∨ t.timercnt + heap0 ≤ t.timermax

/-- The watcher is in one of the cells. -/
def InCells (cell : ℕ → Anhe J T) (n : ℕ) (w : J) : Prop :=
  ∃ i, heap0 ≤ i ∧ i < n ∧ (cell i).w = w

omit [LinearOrder T] [Zero T] in
theorem inCells_iff {cell : ℕ → Anhe J T} {n : ℕ} : InCells cell n w ↔ ∃ he, Holds cell n he ∧ he.w = w := by
  constructor
  · rintro ⟨i, low, high, rfl⟩
    exact ⟨_, ⟨i, low, high, rfl⟩, rfl⟩
  · rintro ⟨_, ⟨i, low, high, rfl⟩, rfl⟩
    exact ⟨i, low, high, rfl⟩

theorem Timers.Sound.active_iff (sound : t.Sound) :
    t.heap.active w ≠ 0 ↔ InCells t.heap.cell (t.timercnt + heap0) w := by
  constructor
  · intro active
    obtain ⟨low, high, same⟩ := sound.listed w active
    exact ⟨_, low, high, same⟩
  · rintro ⟨i, low, high, rfl⟩
    rw [sound.indexed i low high]
    simp only [heap0, dheap] at low
    omega

/-- A repaired heap is sound if its cells were right before the repair and no other watcher had an index. -/
theorem Repaired.sound {N : ℕ} {cell : ℕ → Anhe J T} {active : J → ℕ} {r : Heap J T}
    (repaired : Repaired (N + heap0) cell active r) (timermax : ℕ) (at_ repeat_ : J → T)
    (cached : ∀ i, heap0 ≤ i → i < N + heap0 → (cell i).at_ = at_ (cell i).w)
    (others : ∀ w, ¬ InCells cell (N + heap0) w → active w = 0)
    (nonneg : ∀ w, InCells cell (N + heap0) w → 0 ≤ repeat_ w) (room : N = 0 ∨ N + heap0 ≤ timermax) :
    Timers.Sound ⟨r, N, timermax, at_, repeat_⟩ ∧ ∀ w, r.active w ≠ 0 ↔ InCells cell (N + heap0) w := by
  have same : ∀ w, InCells r.cell (N + heap0) w ↔ InCells cell (N + heap0) w := by
    intro w
    simp only [inCells_iff, repaired.same]
  have inside : ∀ w, r.active w ≠ 0 → InCells cell (N + heap0) w := by
    intro w active
    by_contra outside
    refine active ((repaired.absent w fun i low high same => ?_).trans (others w outside))
    exact outside ⟨i, low, high, same⟩
  have indexed : ∀ w, InCells r.cell (N + heap0) w →
      heap0 ≤ r.active w ∧ r.active w < N + heap0 ∧ (r.cell (r.active w)).w = w := by
    rintro w ⟨i, low, high, rfl⟩
    rw [repaired.indexed i low high]
    exact ⟨low, high, rfl⟩
  refine ⟨⟨repaired.ordered, repaired.indexed, ?_, ?_, fun w active => nonneg w (inside w active), room⟩, fun w =>
    ⟨inside w, fun present => ?_⟩⟩
  · intro i low high
    obtain ⟨j, lowJ, highJ, equal⟩ := (repaired.same _).mp ⟨i, low, high, rfl⟩
    change (r.cell i).at_ = at_ (r.cell i).w
    rw [← equal]
    exact cached j lowJ highJ
  · exact fun w active => indexed w ((same w).mpr (inside w active))
  · have low := (indexed w ((same w).mpr present)).1
    simp only [heap0, dheap] at low
    omega

/-- The map that the heap holds. -/
def Timers.deadline (t : Timers J T) (w : J) : Option T :=
  if t.heap.active w = 0 then none else some (t.at_ w)

/-! ## Changes at one watcher -/

section Change

variable [DecidableEq J] {t' : Timers J T} {x : T} {n k : ℕ} {cell : ℕ → Anhe J T}

omit [LinearOrder T] [Zero T] in
theorem deadline_update (stored : t'.at_ = Function.update t.at_ w x)
    (started : ∀ v, t'.heap.active v ≠ 0 ↔ v = w ∨ t.heap.active v ≠ 0) :
    t'.deadline = Function.update t.deadline w (some x) := by
  funext v
  have present := started v
  rcases eq_or_ne v w with rfl | other
  · simp only [true_or, iff_true] at present
    simp [Timers.deadline, present, stored]
  · simp only [other, false_or] at present
    simp [Timers.deadline, not_iff_not.mp present, stored, other]

omit [LinearOrder T] [Zero T] in
theorem deadline_remove (stored : ∀ v, v ≠ w → t'.at_ v = t.at_ v)
    (stopped : ∀ v, t'.heap.active v ≠ 0 ↔ v ≠ w ∧ t.heap.active v ≠ 0) :
    t'.deadline = Function.update t.deadline w none := by
  funext v
  have present := stopped v
  rcases eq_or_ne v w with rfl | other
  · simp only [ne_eq, not_true_eq_false, false_and, iff_false, not_not] at present
    simp [Timers.deadline, present]
  · simp only [ne_eq, other, not_false_eq_true, true_and] at present
    simp [Timers.deadline, not_iff_not.mp present, stored v other, other]

omit [LinearOrder T] [Zero T] [DecidableEq J] in
theorem inCells_append (inside : heap0 ≤ n) :
    InCells (Function.update cell n ⟨x, w⟩) (n + 1) v ↔ v = w ∨ InCells cell n v := by
  constructor
  · rintro ⟨i, low, high, rfl⟩
    rcases eq_or_ne i n with rfl | other
    · simp
    · rw [Function.update_of_ne other]
      exact .inr ⟨i, low, by omega, rfl⟩
  · rintro (rfl | ⟨i, low, high, rfl⟩)
    · exact ⟨n, inside, by omega, by simp⟩
    · exact ⟨i, low, by omega, by rw [Function.update_of_ne high.ne]⟩

omit [LinearOrder T] [Zero T] [DecidableEq J] in
theorem inCells_replace (cell : ℕ → Anhe J T) :
    InCells (Function.update cell k ⟨x, (cell k).w⟩) n v ↔ InCells cell n v := by
  have same : ∀ i, (Function.update cell k ⟨x, (cell k).w⟩ i).w = (cell i).w := by
    intro i
    rcases eq_or_ne i k with rfl | other
    · simp
    · simp [other]
  simp only [InCells, same]

omit [LinearOrder T] [Zero T] [DecidableEq J] in
/-- The last cell is moved to where a watcher was. -/
theorem inCells_remove {h : Heap J T} (indexed : h.Indexed (n + 1)) (inside : heap0 ≤ k) (bound : k < n) :
    InCells (Function.update h.cell k (h.cell n)) n v ↔ v ≠ (h.cell k).w ∧ InCells h.cell (n + 1) v := by
  constructor
  · rintro ⟨i, low, high, rfl⟩
    rcases eq_or_ne i k with rfl | other
    · rw [Function.update_self]
      refine ⟨fun same => ?_, n, by omega, by omega, rfl⟩
      have := indexed.injective (by omega) (by omega) inside (by omega) same
      omega
    · rw [Function.update_of_ne other]
      exact ⟨fun same => other (indexed.injective low (by omega) inside (by omega) same), i, low, by omega, rfl⟩
  · rintro ⟨away, i, low, high, rfl⟩
    rcases eq_or_ne i n with rfl | other
    · exact ⟨k, inside, bound, by simp⟩
    · have elsewhere : i ≠ k := fun same => away (by rw [same])
      exact ⟨i, low, by omega, by rw [Function.update_of_ne elsewhere]⟩

/-- The heap after a watcher was added behind its end. -/
theorem upheap_sound (sound : t.Sound) (idle : t.heap.active w = 0) (x : T) (positive : 0 ≤ t.repeat_ w) :
    let k := t.timercnt + 1 + heap0 - 1
    let t' : Timers J T := { t with
      at_ := Function.update t.at_ w x
      timercnt := t.timercnt + 1
      timermax := arrayNeedsize 16 t.timermax (k + 1)
      heap := upheap ⟨Function.update t.heap.cell k ⟨x, w⟩, Function.update t.heap.active w k⟩ k }
    t'.Sound ∧ t'.deadline = Function.update t.deadline w (some x) := by
  intro k t'
  have last : k = t.timercnt + heap0 := by omega
  have size : t.timercnt + 1 + heap0 = k + 1 := by omega
  have elsewhere : ∀ i, heap0 ≤ i → i < k → (t.heap.cell i).w ≠ w := by
    intro i low high same
    refine absurd idle (sound.active_iff.mpr ⟨i, low, ?_, same⟩)
    omega
  let added : Heap J T := ⟨Function.update t.heap.cell k ⟨x, w⟩, Function.update t.heap.active w k⟩
  have hole : Hole (added.cell k) added (k + 1) k := by
    refine ⟨by omega, by omega, fun i low high other => ?_, fun i low high other => ?_⟩
    · simp only [added, Function.update_of_ne other, Function.update_of_ne (elsewhere i low (by omega))]
      exact sound.indexed i low (by omega)
    · simpa [added, other] using elsewhere i low (by omega)
  have ordered : layout.OrderedBut (times added.cell) (k + 1) k := by
    rw [times_update]
    refine HeapLayout.Ordered.append ?_ _
    rw [last]
    exact sound.ordered
  have childless : ∀ c, ¬ layout.Child (k + 1) c k := by
    intro c child
    have above := child.lt
    have below := child.2.1
    omega
  have repaired := upheap_repaired (h := added) hole ordered fun c child => absurd child (childless c)
  rw [← size] at repaired
  have members : ∀ v, InCells (Function.update t.heap.cell k ⟨x, w⟩) (t.timercnt + 1 + heap0) v ↔
      v = w ∨ t.heap.active v ≠ 0 := by
    intro v
    rw [size, inCells_append (by omega), last, sound.active_iff]
  have cached : ∀ i, heap0 ≤ i → i < t.timercnt + 1 + heap0 →
      (added.cell i).at_ = Function.update t.at_ w x (added.cell i).w := by
    intro i low high
    rcases eq_or_ne i k with rfl | other
    · simp [added]
    · simp only [added, Function.update_of_ne other, Function.update_of_ne (elsewhere i low (by omega))]
      exact sound.cached i low (by omega)
  obtain ⟨sound', active⟩ := repaired.sound t'.timermax t'.at_ t.repeat_ cached
    (fun v absent => by
      obtain ⟨other, idle⟩ := not_or.mp (mt (members v).mpr absent)
      simpa [added, other] using idle)
    (fun v present => by
      rcases (members v).mp present with rfl | active
      · exact positive
      · exact sound.nonneg v active)
    (.inr (size ▸ le_arrayNeedsize _ _ (by decide)))
  exact ⟨sound', deadline_update rfl fun v => (active v).trans (members v)⟩

/-- The heap after a cell was given a new time and a repair has put it where it belongs. -/
theorem Repaired.replace_sound {r : Heap J T} (sound : t.Sound) (place : t.heap.active w = k) (busy : k ≠ 0)
    (repaired : Repaired (t.timercnt + heap0) (Function.update t.heap.cell k ⟨x, w⟩) t.heap.active r) :
    let t' : Timers J T := { t with at_ := Function.update t.at_ w x, heap := r }
    t'.Sound ∧ t'.deadline = Function.update t.deadline w (some x) := by
  intro t'
  subst place
  obtain ⟨-, -, here⟩ := sound.listed w busy
  have members : ∀ v, InCells (Function.update t.heap.cell (t.heap.active w) ⟨x, w⟩) (t.timercnt + heap0) v ↔
      t.heap.active v ≠ 0 := by
    intro v
    have same := inCells_replace (n := t.timercnt + heap0) (x := x) (k := t.heap.active w) (v := v) t.heap.cell
    rw [here] at same
    rw [same, sound.active_iff]
  have cached : ∀ i, heap0 ≤ i → i < t.timercnt + heap0 →
      (Function.update t.heap.cell (t.heap.active w) ⟨x, w⟩ i).at_ =
        t'.at_ (Function.update t.heap.cell (t.heap.active w) ⟨x, w⟩ i).w := by
    intro i low high
    rcases eq_or_ne i (t.heap.active w) with rfl | other
    · simp [t']
    · have elsewhere : (t.heap.cell i).w ≠ w := fun same => other (by rw [← sound.indexed i low high, same])
      simp only [t', Function.update_of_ne other, Function.update_of_ne elsewhere]
      exact sound.cached i low high
  obtain ⟨sound', active⟩ := repaired.sound t.timermax t'.at_ t.repeat_ cached
    (fun v absent => not_not.mp (mt (members v).mpr absent))
    (fun v present => sound.nonneg v ((members v).mp present)) sound.room
  refine ⟨sound', deadline_update rfl fun v => ?_⟩
  rw [active v, members v]
  constructor
  · exact Or.inr
  · rintro (rfl | running)
    exacts [busy, running]

/-- The heap in which one cell has taken over a new time, and is otherwise in order. -/
theorem cache_hole (sound : t.Sound) (place : t.heap.active w = k) (busy : k ≠ 0) (x : T) :
    let h : Heap J T := ⟨Function.update t.heap.cell k ⟨x, w⟩, t.heap.active⟩
    Timers.cache { t with at_ := Function.update t.at_ w x } k = h ∧ Hole (h.cell k) h (t.timercnt + heap0) k ∧
      layout.OrderedBut (times h.cell) (t.timercnt + heap0) k := by
  intro h
  subst place
  obtain ⟨low, high, here⟩ := sound.listed w busy
  refine ⟨?_, ⟨low, high, fun i lowI highI other => ?_, fun i lowI highI other => ?_⟩, ?_⟩
  · simp [Timers.cache, h, here]
  · simp only [h, Function.update_of_ne other]
    exact sound.indexed i lowI highI
  · have elsewhere : (t.heap.cell i).w ≠ w := fun same => other (by rw [← sound.indexed i lowI highI, same])
    simpa [h, other] using elsewhere
  · simp only [h, times_update]
    exact sound.ordered.update x

/-- A timer is given a new time, by `ev_timer_again`. -/
theorem adjustheap_sound (sound : t.Sound) (busy : t.heap.active w ≠ 0) (x : T) :
    let t' := { t with at_ := Function.update t.at_ w x }
    let t'' := { t' with heap := adjustheap (t'.cache (t.heap.active w)) t.timercnt (t.heap.active w) }
    t''.Sound ∧ t''.deadline = Function.update t.deadline w (some x) := by
  obtain ⟨cached, hole, ordered⟩ := cache_hole sound rfl busy x
  simp only [cached]
  exact (adjustheap_repaired hole ordered).replace_sound sound rfl busy

/-- The first timer is given a new time, by `timers_reify`. -/
theorem downheap_sound (sound : t.Sound) (first : t.heap.active w = heap0) (x : T) :
    let t' := { t with at_ := Function.update t.at_ w x }
    let t'' := { t' with heap := downheap (t'.cache heap0) t.timercnt heap0 }
    t''.Sound ∧ t''.deadline = Function.update t.deadline w (some x) := by
  obtain ⟨cached, hole, ordered⟩ := cache_hole sound first (by decide) x
  simp only [cached]
  have repaired := downheap_repaired hole ordered fun j child => absurd child.1 (lt_irrefl _)
  exact repaired.replace_sound sound first (by decide)

omit [Zero T] in
/-- What `ev_timer_stop` makes of the heap, before the watcher forgets its index: the last cell goes where the watcher
was, unless that is the last one. -/
theorem timersDelete_repaired {m : ℕ} (size : t.timercnt = m + 1) (indexed : t.heap.Indexed (m + heap0 + 1))
    (ordered : layout.Ordered (times t.heap.cell) (m + heap0 + 1)) (low : heap0 ≤ k) (high : k < m + heap0 + 1) :
    ∃ cell, Repaired (m + heap0) cell t.heap.active (timersDelete t k).heap ∧
      (∀ v, InCells cell (m + heap0) v ↔ v ≠ (t.heap.cell k).w ∧ InCells t.heap.cell (m + heap0 + 1) v) ∧
      ∀ i, heap0 ≤ i → i < m + heap0 → Holds t.heap.cell (m + heap0 + 1) (cell i) := by
  have fewer : t.timercnt - 1 = m := by omega
  have shrunk := ordered.mono (Nat.le_succ (m + heap0))
  unfold timersDelete
  simp only [fewer]
  split_ifs with before
  · let moved : Heap J T := ⟨Function.update t.heap.cell k (t.heap.cell (m + heap0)), t.heap.active⟩
    have hole : Hole (moved.cell k) moved (m + heap0) k := by
      refine ⟨low, before, fun i lowI highI other => ?_, fun i lowI highI other same => ?_⟩
      · simp only [moved, Function.update_of_ne other]
        exact indexed i lowI (by omega)
      · simp only [moved, Function.update_of_ne other, Function.update_self] at same
        have := indexed.injective lowI (by omega) (by omega) (by omega) same
        omega
    have but : layout.OrderedBut (times moved.cell) (m + heap0) k := by
      simp only [moved, times_update]
      exact shrunk.update _
    refine ⟨moved.cell, adjustheap_repaired hole but, fun v => inCells_remove indexed low before, ?_⟩
    intro i lowI highI
    rcases eq_or_ne i k with rfl | other
    · exact ⟨m + heap0, by omega, by omega, by simp [moved]⟩
    · exact ⟨i, lowI, by omega, by simp [moved, other]⟩
  · obtain rfl : k = m + heap0 := by omega
    refine ⟨t.heap.cell, ⟨shrunk, fun i lowI highI => indexed i lowI (by omega), fun _ => Iff.rfl, fun _ _ => rfl,
      fun _ _ => rfl⟩, fun v => ⟨?_, ?_⟩, fun i lowI highI => ⟨i, lowI, by omega, rfl⟩⟩
    · rintro ⟨i, lowI, highI, rfl⟩
      refine ⟨fun same => ?_, i, lowI, by omega, rfl⟩
      have := indexed.injective lowI (by omega) low high same
      omega
    · rintro ⟨away, i, lowI, highI, rfl⟩
      have other : i ≠ m + heap0 := fun same => away (by rw [same])
      exact ⟨i, lowI, by omega, rfl⟩

omit [Zero T] in
theorem timersDelete_fields (t : Timers J T) (k : ℕ) : (timersDelete t k).timercnt = t.timercnt - 1 ∧
    (timersDelete t k).timermax = t.timermax ∧ (timersDelete t k).at_ = t.at_ ∧
      (timersDelete t k).repeat_ = t.repeat_ := by
  unfold timersDelete
  dsimp only
  split_ifs <;> exact ⟨rfl, rfl, rfl, rfl⟩

omit [Zero T] in
/-- A watcher that is in no cell may forget its index. -/
theorem Repaired.forget {active : J → ℕ} {r : Heap J T} (repaired : Repaired n cell active r)
    (outside : ¬ InCells cell n w) :
    Repaired n cell (Function.update active w 0) ⟨r.cell, Function.update r.active w 0⟩ where
  ordered := repaired.ordered
  indexed i low high := by
    have other : (r.cell i).w ≠ w := by
      intro same
      refine outside (inCells_iff.mpr ⟨r.cell i, (repaired.same _).mp ⟨i, low, high, rfl⟩, same⟩)
    simp only [Function.update_of_ne other]
    exact repaired.indexed i low high
  same := repaired.same
  outside := repaired.outside
  absent v away := by
    rcases eq_or_ne v w with rfl | other
    · simp
    · simp only [Function.update_of_ne other]
      exact repaired.absent v away

/-- A timer is taken out, by `ev_timer_stop`. -/
theorem timersDelete_sound (sound : t.Sound) (busy : t.heap.active w ≠ 0) (x : T) :
    let t' := timersDelete t (t.heap.active w)
    let t'' : Timers J T := { t' with
      at_ := Function.update t'.at_ w x
      heap := { t'.heap with active := Function.update t'.heap.active w 0 } }
    t''.Sound ∧ t''.deadline = Function.update t.deadline w none := by
  intro t' t''
  obtain ⟨low, high, here⟩ := sound.listed w busy
  obtain ⟨m, size⟩ : ∃ m, t.timercnt = m + 1 := ⟨t.timercnt - 1, by omega⟩
  have length : t.timercnt + heap0 = m + heap0 + 1 := by omega
  have indexed := sound.indexed
  have ordered := sound.ordered
  rw [length] at indexed ordered high
  obtain ⟨cell, repaired, members, old⟩ := timersDelete_repaired size indexed ordered low high
  simp only [here, ← length, ← sound.active_iff] at members
  have gone : ¬ InCells cell (m + heap0) w := fun present => ((members w).mp present).1 rfl
  obtain ⟨count, room, atField, repeatField⟩ := timersDelete_fields t (t.heap.active w)
  rw [size, Nat.add_sub_cancel] at count
  have cached : ∀ i, heap0 ≤ i → i < m + heap0 → (cell i).at_ = Function.update t.at_ w x (cell i).w := by
    intro i lowI highI
    have other : (cell i).w ≠ w := fun same => gone ⟨i, lowI, highI, same⟩
    obtain ⟨j, lowJ, highJ, equal⟩ := old i lowI highI
    rw [Function.update_of_ne other, ← equal]
    exact sound.cached j lowJ (by omega)
  have roomy := sound.room
  obtain ⟨sound', active⟩ := (repaired.forget gone).sound t.timermax (Function.update t.at_ w x) t.repeat_ cached
    (fun v absent => by
      rcases eq_or_ne v w with rfl | other
      · simp
      · rw [Function.update_of_ne other]
        by_contra running
        exact absent ((members v).mpr ⟨other, running⟩))
    (fun v present => sound.nonneg v ((members v).mp present).2) (by omega)
  have shape : t'' = ⟨⟨t'.heap.cell, Function.update t'.heap.active w 0⟩, m, t.timermax,
      Function.update t.at_ w x, t.repeat_⟩ := by
    simp only [t'', t', count, room, atField, repeatField]
  rw [shape]
  refine ⟨sound', deadline_remove (fun v other => by simp [other]) fun v => (active v).trans (members v)⟩

omit [DecidableEq J] in
/-- The fields of a watcher that is not started may change. -/
theorem Timers.Sound.set_idle {at_ repeat_ : J → T} (sound : t.Sound) (idle : t.heap.active w = 0)
    (time : ∀ v, v ≠ w → at_ v = t.at_ v) (repeats : ∀ v, v ≠ w → repeat_ v = t.repeat_ v) :
    Timers.Sound { t with at_ := at_, repeat_ := repeat_ } where
  ordered := sound.ordered
  indexed := sound.indexed
  cached i low high := by
    have other : (t.heap.cell i).w ≠ w := fun same =>
      absurd idle (sound.active_iff.mpr ⟨i, low, high, same⟩)
    exact (sound.cached i low high).trans (time _ other).symm
  listed := sound.listed
  nonneg v busy := by
    have other : v ≠ w := fun same => busy (same ▸ idle)
    exact (sound.nonneg v busy).trans_eq (repeats v other).symm
  room := sound.room

/-! ## A jump of the clock -/

section Jump

variable [Add T]

/-- The timers after the first `m` cells have been moved along with the clock. -/
structure Shifted (t : Timers J T) (delta : T) (m : ℕ) (t' : Timers J T) : Prop where
  cells : ∀ i, heap0 ≤ i → i < m + heap0 → t'.heap.cell i = ⟨(t.heap.cell i).at_ + delta, (t.heap.cell i).w⟩
  others : ∀ i, m + heap0 ≤ i → t'.heap.cell i = t.heap.cell i
  moved : ∀ w, InCells t.heap.cell (m + heap0) w → t'.at_ w = t.at_ w + delta
  kept : ∀ w, ¬ InCells t.heap.cell (m + heap0) w → t'.at_ w = t.at_ w
  active : t'.heap.active = t.heap.active
  timercnt : t'.timercnt = t.timercnt
  timermax : t'.timermax = t.timermax
  repeats : t'.repeat_ = t.repeat_

omit [LinearOrder T] [Zero T] [Add T] [DecidableEq J] in
theorem inCells_succ : InCells cell (n + 1) v ↔ heap0 ≤ n ∧ (cell n).w = v ∨ InCells cell n v := by
  constructor
  · rintro ⟨i, low, high, rfl⟩
    rcases eq_or_ne i n with rfl | other
    · exact .inl ⟨low, rfl⟩
    · exact .inr ⟨i, low, by omega, rfl⟩
  · rintro (⟨low, rfl⟩ | ⟨i, low, high, rfl⟩)
    · exact ⟨n, low, by omega, rfl⟩
    · exact ⟨i, low, by omega, rfl⟩

theorem Shifted.next {delta : T} {m : ℕ} (sound : t.Sound) (bound : m < t.timercnt) (shifted : Shifted t delta m t') :
    Shifted t delta (m + 1) (timersAdjust delta m t') := by
  have size : m + 1 + heap0 = m + heap0 + 1 := by omega
  have first : ¬ InCells t.heap.cell (m + heap0) (t.heap.cell (m + heap0)).w := by
    rintro ⟨i, low, high, same⟩
    have := sound.indexed.injective low (by omega) (by omega) (by omega) same
    omega
  have here : t'.heap.cell (m + heap0) = t.heap.cell (m + heap0) := shifted.others _ le_rfl
  have time : t'.at_ (t.heap.cell (m + heap0)).w = t.at_ (t.heap.cell (m + heap0)).w := shifted.kept _ first
  have cached := sound.cached (m + heap0) (by omega) (by omega)
  refine ⟨fun i low high => ?_, fun i high => ?_, fun v inside => ?_, fun v outside => ?_, shifted.active,
    shifted.timercnt, shifted.timermax, shifted.repeats⟩
  · rcases eq_or_ne i (m + heap0) with rfl | other
    · simp [timersAdjust, Timers.cache, here, time, cached]
    · simp only [timersAdjust, Timers.cache, Function.update_of_ne other]
      exact shifted.cells i low (by omega)
  · have other : i ≠ m + heap0 := by omega
    simp only [timersAdjust, Timers.cache, Function.update_of_ne other]
    exact shifted.others i (by omega)
  · rw [size, inCells_succ] at inside
    rcases eq_or_ne v (t.heap.cell (m + heap0)).w with rfl | other
    · simp [timersAdjust, here, time]
    · obtain ⟨-, same⟩ | before := inside
      · exact absurd same.symm other
      · simp only [timersAdjust, here, Function.update_of_ne other]
        exact shifted.moved v before
  · rw [size, inCells_succ] at outside
    obtain ⟨here', before⟩ := not_or.mp outside
    have other : v ≠ (t.heap.cell (m + heap0)).w := fun same => here' ⟨by omega, same.symm⟩
    simp only [timersAdjust, here, Function.update_of_ne other]
    exact shifted.kept v before

theorem shifted_fold (sound : t.Sound) (delta : T) : ∀ m, m ≤ t.timercnt →
    Shifted t delta m ((List.range m).foldl (fun t i => timersAdjust delta i t) t) := by
  intro m
  induction m with
  | zero =>
    intro _
    refine ⟨fun i low high => by omega, fun _ _ => rfl, ?_, fun _ _ => rfl, rfl, rfl, rfl, rfl⟩
    rintro w ⟨i, low, high, -⟩
    omega
  | succ m ih =>
    intro bound
    rw [List.range_succ, List.foldl_append]
    exact (ih (by omega)).next sound (by omega)

omit [DecidableEq J] in
/-- All timers are moved along with the clock, by `time_update`. -/
theorem Shifted.sound [AddRightMono T] {delta : T} (sound : t.Sound) (shifted : Shifted t delta t.timercnt t') :
    t'.Sound ∧ ∀ w, t'.deadline w = (t.deadline w).map (· + delta) := by
  have watcher : ∀ i, heap0 ≤ i → i < t.timercnt + heap0 → (t'.heap.cell i).w = (t.heap.cell i).w := by
    intro i low high
    rw [shifted.cells i low high]
  refine ⟨⟨?_, ?_, ?_, ?_, ?_, ?_⟩, fun w => ?_⟩
  · rintro c k child
    rw [shifted.timercnt] at child
    simp only [times, shifted.cells c (child.root_le.trans child.lt.le) child.2.1,
      shifted.cells k child.root_le child.bound]
    exact add_le_add_left (sound.ordered c k child) delta
  · intro i low high
    rw [shifted.timercnt] at high
    rw [watcher i low high, shifted.active]
    exact sound.indexed i low high
  · intro i low high
    rw [shifted.timercnt] at high
    rw [watcher i low high, shifted.moved _ ⟨i, low, high, rfl⟩, shifted.cells i low high, sound.cached i low high]
  · intro w busy
    rw [shifted.active] at busy ⊢
    obtain ⟨low, high, here⟩ := sound.listed w busy
    rw [shifted.timercnt, watcher _ low high]
    exact ⟨low, high, here⟩
  · intro w busy
    rw [shifted.active] at busy
    rw [shifted.repeats]
    exact sound.nonneg w busy
  · rw [shifted.timercnt, shifted.timermax]
    exact sound.room
  · rcases eq_or_ne (t.heap.active w) 0 with idle | busy
    · simp [Timers.deadline, shifted.active, idle]
    · simp [Timers.deadline, shifted.active, busy, shifted.moved w (sound.active_iff.mp busy)]

end Jump

end Change

end FsPkg.Ev
