import FsPkg.Proofs.BallocRuns

/-! # How the chain of blocks grows and shrinks

A collection that is not cut short removes the blocks none of whose elements is in use, and it is cut short only when
there is none of these, or a single one. Nothing keeps the last block, though: a chain of several unused blocks is
removed whole. A block is added only when every element of every block is in use, so the number of blocks is bounded by
the largest number of elements that were in use at the same time.
-/

namespace FsPkg.Balloc

open Machine

variable {β : Type}

/-! ## What a collection removes -/

/-- Every element of the block is free. -/
def Block.AllFree (count : ℕ) (b : Block β) : Prop :=
  ∀ m ∈ slots b.elems count, m ∈ b.freeList.nodes

instance (count : ℕ) (b : Block β) : Decidable (b.AllFree count) :=
  inferInstanceAs (Decidable (∀ m ∈ _, m ∈ b.freeList.nodes))

section Collection

variable {bh : BlockHeap β}

theorem Invariant.allFree_iff (inv : Invariant bh) {b : Block β} (member : b ∈ bh.base) :
    b.AllFree bh.elemsPerBlock.toNat ↔ b.usedList.nodes = [] := by
  have part := inv.partitioned b member
  constructor
  · intro free
    apply List.eq_nil_iff_forall_not_mem.mpr
    intro m used
    exact part.not_used_of_free (free m (mem_slots.mpr (part.used_slot used))) used
  · intro unused m slot
    have listed := part.perm.mem_iff.mpr slot
    simpa [unused] using listed

/-- The test of the collector, on the recorded length, picks those blocks. -/
theorem Invariant.length_eq_iff (inv : Invariant bh) {b : Block β} (member : b ∈ bh.base) :
    b.freeList.length = bh.elemsPerBlock ↔ b.AllFree bh.elemsPerBlock.toNat := by
  rw [inv.idle_iff member, inv.allFree_iff member]

theorem Invariant.filter_busy (inv : Invariant bh) :
    bh.base.filter (fun b => ¬ b.freeList.length = bh.elemsPerBlock) =
      bh.base.filter (fun b => ¬ b.AllFree bh.elemsPerBlock.toNat) :=
  List.filter_congr fun b member => by simp only [inv.length_eq_iff member]

theorem Invariant.countP_idle (inv : Invariant bh) :
    bh.base.countP (fun b => b.freeList.length = bh.elemsPerBlock) =
      bh.base.countP (fun b => b.AllFree bh.elemsPerBlock.toNat) :=
  List.countP_congr fun b member => by simp only [inv.length_eq_iff member]

/-- A block that is all free accounts for `elemsPerBlock` free elements. -/
theorem Invariant.allFree_le (inv : Invariant bh) {b : Block β} (member : b ∈ bh.base)
    (free : b.AllFree bh.elemsPerBlock.toNat) : bh.elemsPerBlock.toNat ≤ bh.freeElems.toNat := by
  have part := inv.partitioned b member
  have total := part.length_add
  rw [(inv.allFree_iff member).mp free, List.length_nil, Nat.add_zero] at total
  obtain ⟨before, after, chain⟩ := List.append_of_mem member
  have counted := inv.free
  simp only [chain, List.map_append, List.map_cons, List.sum_append, List.sum_cons] at counted
  omega

private theorem Invariant.none_allFree (inv : Invariant bh) (busy : bh.allocated ≠ [])
    (early : bh.freeElems < bh.elemsPerBlock ∨ bh.blocksAllocated = 1) {b : Block β} (member : b ∈ bh.base) :
    ¬ b.AllFree bh.elemsPerBlock.toNat := by
  intro free
  rcases early with few | single
  · have enough := inv.allFree_le member free
    rw [UInt64.lt_iff_toNat_lt] at few
    omega
  · -- the only block is the one with the element in use
    have length : bh.base.length = 1 := by
      rw [← inv.blocks, single]
      rfl
    obtain ⟨only, chain⟩ := List.length_eq_one_iff.mp length
    rw [chain, List.mem_singleton] at member
    subst member
    apply busy
    have unused := (inv.allFree_iff (b := b) (by simp [chain])).mp free
    simp [BlockHeap.allocated, chain, unused]

/-- An early exit means that nothing would be removed, as long as something is in use. -/
theorem Invariant.early_exit (inv : Invariant bh) (busy : bh.allocated ≠ [])
    (early : bh.freeElems < bh.elemsPerBlock ∨ bh.blocksAllocated = 1) :
    bh.base.filter (fun b => ¬ b.AllFree bh.elemsPerBlock.toNat) = bh.base ∧
      bh.base.countP (fun b => b.AllFree bh.elemsPerBlock.toNat) = 0 := by
  refine ⟨List.filter_eq_self.mpr ?_, List.countP_eq_zero.mpr ?_⟩
  · intro b member
    simpa using inv.none_allFree busy early member
  · intro b member
    simpa using inv.none_allFree busy early member

/-- Without an early exit, or with an element in use, the result is that of the full scan. -/
theorem Invariant.gc_scan (inv : Invariant bh)
    (full : bh.allocated ≠ [] ∨ ¬(bh.freeElems < bh.elemsPerBlock ∨ bh.blocksAllocated = 1)) :
    (blockheapGarbagecollect bh).base = bh.base.filter (fun b => ¬ b.AllFree bh.elemsPerBlock.toNat) ∧
    (blockheapGarbagecollect bh).blocksAllocated.toNat +
      bh.base.countP (fun b => b.AllFree bh.elemsPerBlock.toNat) = bh.blocksAllocated.toNat ∧
    (blockheapGarbagecollect bh).freeElems.toNat +
      bh.base.countP (fun b => b.AllFree bh.elemsPerBlock.toNat) * bh.elemsPerBlock.toNat =
        bh.freeElems.toNat := by
  unfold blockheapGarbagecollect
  split
  · next early =>
    obtain ⟨kept, zero⟩ := inv.early_exit (full.resolve_right (not_not.mpr early)) early
    rw [kept, zero]
    exact ⟨rfl, by simp, by simp⟩
  · obtain ⟨blocks, free, walk, blocksEq, freeEq, -⟩ := inv.scan_spec
    rw [inv.countP_idle] at blocksEq freeEq
    rw [inv.filter_busy] at walk
    simp only [walk]
    exact ⟨trivial, blocksEq, freeEq⟩

end Collection

section Reachable

variable [Zeros β] {elemsize : UInt64} {elemsperblock : Int32} {bh₀ bh : BlockHeap β} {events : List (HeapEvent β)}

/-- While an element is in use, a collection removes exactly the blocks whose elements are all free, and both early
exits are taken only where the full scan would change nothing. -/
theorem blockheap_gc_removes_idle (sensible : 1 ≤ elemsperblock) (created : Created elemsize elemsperblock bh₀)
    (run : Run HeapStep bh₀ events bh) (busy : bh.allocated ≠ []) :
    (blockheapGarbagecollect bh).base = bh.base.filter (fun b => ¬ b.AllFree bh.elemsPerBlock.toNat) ∧
    (blockheapGarbagecollect bh).blocksAllocated.toNat +
      bh.base.countP (fun b => b.AllFree bh.elemsPerBlock.toNat) = bh.blocksAllocated.toNat ∧
    (blockheapGarbagecollect bh).freeElems.toNat +
      bh.base.countP (fun b => b.AllFree bh.elemsPerBlock.toNat) * bh.elemsPerBlock.toNat = bh.freeElems.toNat ∧
    (bh.freeElems < bh.elemsPerBlock ∨ bh.blocksAllocated = 1 →
      garbagecollectWalk bh.elemsPerBlock bh.base bh.blocksAllocated bh.freeElems =
        (bh.base, bh.blocksAllocated, bh.freeElems)) := by
  obtain ⟨inv, -⟩ := run_invariant sensible created run
  obtain ⟨base, blocks, free⟩ := inv.gc_scan (.inl busy)
  refine ⟨base, blocks, free, ?_⟩
  intro early
  obtain ⟨kept, zero⟩ := inv.early_exit busy early
  obtain ⟨blocks, free, walk, blocksEq, freeEq, -⟩ := inv.scan_spec
  rw [inv.countP_idle, zero] at blocksEq freeEq
  have sameBlocks : blocks = bh.blocksAllocated := UInt64.toNat_inj.mp blocksEq
  have sameFree : free = bh.freeElems := UInt64.toNat_inj.mp (by simpa using freeEq)
  rw [walk, inv.filter_busy, kept, sameBlocks, sameFree]

end Reachable

theorem blockheap_gc_removes_idle_small : ∃ heap, Run HeapStep smallHeap smallCalls heap ∧
    (blockheapGarbagecollect heap).base.length < heap.base.length ∧
    (blockheapGarbagecollect heap).base = heap.base.filter (fun b => ¬ b.AllFree heap.elemsPerBlock.toNat) ∧
    (blockheapGarbagecollect heap).blocksAllocated.toNat +
      heap.base.countP (fun b => b.AllFree heap.elemsPerBlock.toNat) = heap.blocksAllocated.toNat := by
  obtain ⟨heap, run, before, held, after⟩ := smallCalls_run
  have busy : heap.allocated ≠ [] := by simp [held]
  obtain ⟨base, counted, -, -⟩ := blockheap_gc_removes_idle (by decide) smallHeap_created run busy
  exact ⟨heap, run, by rw [before, after]; decide, base, counted⟩

/-! ## What stays -/

/-- There is only one block, or an element is in use. -/
def BlockHeap.Guarded (bh : BlockHeap β) : Prop :=
  bh.blocksAllocated = 1 ∨ bh.allocated ≠ []

/-- The guard of `blockheap_garbagecollect` keeps a single block, and an element in use keeps its own; nothing else keeps
one. -/
theorem Invariant.gc_leaves_block_iff {bh : BlockHeap β} (inv : Invariant bh) :
    1 ≤ (blockheapGarbagecollect bh).blocksAllocated.toNat ↔ bh.Guarded := by
  obtain ⟨kept, -, -, live, -⟩ := inv.gc_spec
  constructor
  · intro stays
    by_contra unguarded
    obtain ⟨several, unused⟩ := not_or.mp unguarded
    rw [not_not] at unused
    have total := inv.free_add_allocated
    rw [unused, List.length_nil, Nat.add_zero] at total
    by_cases early : bh.freeElems < bh.elemsPerBlock ∨ bh.blocksAllocated = 1
    · -- every element is free and they are fewer than a block has, so there was no block before
      have few := UInt64.lt_iff_toNat_lt.mp (early.resolve_right several)
      have same : blockheapGarbagecollect bh = bh := by
        unfold blockheapGarbagecollect
        exact if_pos early
      rw [same, inv.blocks] at stays
      have enough := Nat.le_mul_of_pos_left bh.elemsPerBlock.toNat (Nat.lt_of_lt_of_le Nat.zero_lt_one stays)
      omega
    · obtain ⟨base, -⟩ := inv.gc_scan (.inr early)
      have removed : bh.base.filter (fun b => ¬ b.AllFree bh.elemsPerBlock.toNat) = [] := by
        refine List.filter_eq_nil_iff.mpr fun b member => ?_
        have idle := List.flatMap_eq_nil_iff.mp unused b member
        simpa using (inv.allFree_iff member).mpr idle
      rw [kept.blocks, base, removed] at stays
      simp at stays
  · rintro (single | busy)
    · have same : blockheapGarbagecollect bh = bh := by
        unfold blockheapGarbagecollect
        exact if_pos (.inr single)
      rw [same, single]
      decide
    · rw [kept.blocks]
      apply List.length_pos_iff.mpr
      intro empty
      apply busy
      have same := inv.allocated_congr kept fun ptr => by rw [live]
      have none_ : (blockheapGarbagecollect bh).allocated = [] := by rw [BlockHeap.allocated, empty]; rfl
      rw [none_] at same
      exact same.symm.eq_nil

section Steps

variable [Zeros β] {bh heap : BlockHeap β} {event : HeapEvent β}

/-- How many elements are in use after a call. -/
def HeapEvent.used : HeapEvent β → ℕ → ℕ
  | .alloc _ (some _), used => used + 1
  | .free _, used => used - 1
  | _, used => used

theorem HeapStep.allocated_length (step : HeapStep bh event heap) (inv : Invariant bh) :
    heap.allocated.length = event.used bh.allocated.length := by
  obtain ⟨kept, -, -, effect⟩ := step.spec inv
  cases event with
  | alloc os result =>
    cases result with
    | none => exact inv.length_allocated_congr kept fun ptr => by rw [show heap.live = bh.live from effect]
    | some ptr => exact inv.length_allocated_add kept effect.1 effect.2
  | free ptr =>
    obtain ⟨used, live⟩ := effect
    have held : ptr ∈ bh.allocated := by
      rwa [ne_eq, inv.live_none_iff, not_not] at used
    have returned := (inv.allocated_returned kept held live).length_eq
    rw [List.length_cons] at returned
    show heap.allocated.length = bh.allocated.length - 1
    omega
  | write ptr value =>
    obtain ⟨used, live⟩ := effect
    apply inv.length_allocated_congr kept
    intro other
    rw [live]
    by_cases same : other = ptr
    · simp [same, used]
    · simp [same]
  | garbagecollect => exact inv.length_allocated_congr kept fun ptr => by rw [show heap.live = bh.live from effect]

/-- A block is added only by an allocation that finds every element in use, and removed only by a collection. -/
theorem HeapStep.blocks (step : HeapStep bh event heap) (inv : Invariant bh) :
    heap.base.length = bh.base.length ∨
    (heap.base.length = bh.base.length + 1 ∧ heap.allocated.length = bh.base.length * bh.elemsPerBlock.toNat + 1) ∨
    event = .garbagecollect ∧ heap = blockheapGarbagecollect bh ∧ heap.base.length ≤ bh.base.length := by
  have before := inv.free_add_allocated
  have used := step.allocated_length inv
  have positive := inv.positive
  cases step with
  | alloc lawful ran =>
    rcases inv.alloc_spec lawful with ⟨-, -, failed⟩ | ⟨ptr, next, -, ok, kept, -, count, -, -, free⟩
    · rw [failed] at ran
      cases ran
      exact .inl rfl
    · rw [ok] at ran
      cases ran
      have after := kept.free_add_allocated
      rw [count, used] at after
      simp only [HeapEvent.used] at after used
      split at free
      · next empty =>
        rw [empty, show (0 : UInt64).toNat = 0 from rfl, Nat.zero_add] at before
        refine .inr (.inl ⟨?_, by rw [used, before]⟩)
        apply Nat.eq_of_mul_eq_mul_right positive
        rw [Nat.add_mul, Nat.one_mul]
        show next.base.length * _ = _
        omega
      · refine .inl ?_
        apply Nat.eq_of_mul_eq_mul_right positive
        show next.base.length * _ = _
        omega
  | free held ran =>
    obtain ⟨next, ok, kept, -, count, -, free⟩ := inv.free_spec held
    rw [ok] at ran
    cases ran
    refine .inl ?_
    have after := kept.free_add_allocated
    have positiveUse := List.length_pos_of_mem held
    rw [count, used, free] at after
    simp only [HeapEvent.used] at after
    apply Nat.eq_of_mul_eq_mul_right positive
    omega
  | write held ran =>
    obtain ⟨next, ok, kept, -, count, -, free⟩ := inv.write_spec held _
    rw [ok] at ran
    cases ran
    refine .inl ?_
    have after := kept.free_add_allocated
    rw [count, used, free] at after
    simp only [HeapEvent.used] at after
    apply Nat.eq_of_mul_eq_mul_right positive
    omega
  | garbagecollect =>
    obtain ⟨-, -, -, -, sub, -⟩ := inv.gc_spec
    exact .inr (.inr ⟨rfl, rfl, sub.length_le⟩)

end Steps

section Reachable

variable [Zeros β] {elemsize : UInt64} {elemsperblock : Int32} {bh₀ : BlockHeap β}

/-- A collection leaves a block exactly if there was one only or an element is in use; in a run whose collections all
meet this, there is always a block. -/
theorem blockheap_gc_leaves_block (sensible : 1 ≤ elemsperblock) (created : Created elemsize elemsperblock bh₀) :
    (∀ (events : List (HeapEvent β)) (bh : BlockHeap β), Run HeapStep bh₀ events bh →
      ((blockheapGarbagecollect bh).base ≠ [] ∧ 1 ≤ (blockheapGarbagecollect bh).blocksAllocated.toNat ↔
        bh.Guarded)) ∧
    ∀ (events : List (HeapEvent β)) (bh : BlockHeap β),
      Run (fun source event target =>
        HeapStep source event target ∧ (event = .garbagecollect → source.Guarded)) bh₀ events bh →
      bh.base ≠ [] ∧ 1 ≤ bh.blocksAllocated.toNat := by
  have chained {bh : BlockHeap β} (inv : Invariant bh) (one : 1 ≤ bh.blocksAllocated.toNat) : bh.base ≠ [] := by
    rw [inv.blocks] at one
    exact List.length_pos_iff.mp one
  constructor
  · intro events bh run
    obtain ⟨inv, -⟩ := run_invariant sensible created run
    rw [← inv.gc_leaves_block_iff]
    exact ⟨And.right, fun one => ⟨chained inv.gc_spec.1 one, one⟩⟩
  · intro events bh run
    have initial : Invariant bh₀ := (created.invariant sensible).1
    obtain ⟨inv, one⟩ := run.invariant (I := fun bh => Invariant bh ∧ 1 ≤ bh.blocksAllocated.toNat)
      ⟨initial, by rw [initial.blocks, created.one_block]⟩ (by
        rintro source event target ⟨inv, one⟩ ⟨step, guarded⟩
        have kept := (step.spec inv).1
        refine ⟨kept, ?_⟩
        rcases step.blocks inv with same | ⟨more, -⟩ | ⟨collects, rfl, -⟩
        · rwa [kept.blocks, same, ← inv.blocks]
        · rw [kept.blocks, more]
          exact Nat.le_add_left ..
        · exact inv.gc_leaves_block_iff.mpr (guarded collects))
    exact ⟨chained inv one, one⟩

end Reachable

theorem blockheap_gc_leaves_block_small : ∃ heap, Run HeapStep smallHeap smallCalls heap ∧ heap.base.length = 2 ∧
    (blockheapGarbagecollect heap).base.length = 1 ∧ heap.Guarded ∧
    (blockheapGarbagecollect heap).base ≠ [] ∧ 1 ≤ (blockheapGarbagecollect heap).blocksAllocated.toNat := by
  obtain ⟨heap, run, before, held, after⟩ := smallCalls_run
  have guarded : heap.Guarded := .inr (by simp [held])
  have stays := ((blockheap_gc_leaves_block (by decide) smallHeap_created).1 smallCalls heap run).mpr guarded
  exact ⟨heap, run, before, after, guarded, stays⟩

/-- One element per block. -/
def singleHeap : BlockHeap (List UInt8) := (emptyHeap 8 1).grown 4096

theorem singleHeap_created : Created 8 1 singleHeap := by
  exact ⟨true, ⟨true, some 4096⟩, emptyHeap_lawful true (by decide), rfl⟩

/-- The same heap with its element handed out. -/
def singleHeapFull : BlockHeap (List UInt8) :=
  { singleHeap with
    freeElems := 0
    base := [(singleHeap.freshBlock 4096).handOut ⟨4096, 0⟩ (Zeros.zeros 8)] }

/-- Two blocks are filled, both elements are freed, and a collection removes both blocks. -/
theorem blockheap_gc_strips_heap : ∃ events heap, (1 : Int32) ≤ 1 ∧ Created 8 1 singleHeap ∧
    Run HeapStep singleHeap events heap ∧ (blockheapGarbagecollect heap).base.length = 0 ∧
    (blockheapGarbagecollect heap).blocksAllocated = 0 := by
  have first : HeapStep singleHeap (.alloc ⟨true, none⟩ (some ⟨4096, 0⟩)) singleHeapFull :=
    @HeapStep.alloc _ _ _ _ ⟨some ⟨4096, 0⟩, singleHeapFull, false⟩ (by simp [BlockEnv.Lawful]) rfl
  have lawful : BlockEnv.Lawful ⟨true, some 8192⟩ singleHeapFull :=
    BlockEnv.lawful_at true (by decide) (List.forall_mem_singleton.mpr (.inr (by decide)))
  exact ⟨_, _, by decide, singleHeap_created, .cons first (.cons (.alloc lawful rfl) (.cons
    (@HeapStep.free _ _ _ _ ⟨4096, 0⟩ _ (List.mem_cons_of_mem _ (List.mem_cons_self ..)) rfl)
    (.single (@HeapStep.free _ _ _ _ ⟨8192, 0⟩ _ (List.mem_cons_self ..) rfl)))), rfl, rfl⟩

/-! ## How many blocks there are -/

/-- The elements in use, and the most that ever were. -/
structure Usage where
  used : ℕ := 0
  peak : ℕ := 0

def Usage.record (usage : Usage) (event : HeapEvent β) : Usage where
  used := event.used usage.used
  peak := max usage.peak (event.used usage.used)

/-- The usage after these calls, from the calls alone. -/
def usageOf (events : List (HeapEvent β)) : Usage :=
  events.foldl Usage.record {}

theorem usageOf_snoc (events : List (HeapEvent β)) (event : HeapEvent β) :
    usageOf (events ++ [event]) = (usageOf events).record event := by
  rw [usageOf, List.foldl_append]
  rfl

theorem usageOf_used_le (events : List (HeapEvent β)) : (usageOf events).used ≤ (usageOf events).peak := by
  induction events using List.reverseRecOn with
  | nil => exact le_refl _
  | append_singleton past event _ =>
    rw [usageOf_snoc]
    exact le_max_right ..

/-- The peak is the largest number in use at any point of the calls. -/
theorem usageOf_peak (events : List (HeapEvent β)) :
    (∀ past, past <+: events → (usageOf past).used ≤ (usageOf events).peak) ∧
      ∃ past, past <+: events ∧ (usageOf past).used = (usageOf events).peak := by
  induction events using List.reverseRecOn with
  | nil =>
    refine ⟨?_, [], List.prefix_refl _, rfl⟩
    intro past isPrefix
    rw [List.prefix_nil.mp isPrefix]
    exact le_refl _
  | append_singleton events event ih =>
    obtain ⟨bound, past, isPrefix, attained⟩ := ih
    constructor
    · intro longer within
      rcases List.prefix_concat_iff.mp within with rfl | shorter
      · exact usageOf_used_le _
      · rw [usageOf_snoc]
        exact (bound longer shorter).trans (le_max_left ..)
    · rw [usageOf_snoc]
      rcases le_total (usageOf events).peak (event.used (usageOf events).used) with higher | lower
      · refine ⟨_, List.prefix_refl _, ?_⟩
        rw [usageOf_snoc]
        exact (max_eq_right higher).symm
      · refine ⟨past, isPrefix.trans (List.prefix_append ..), ?_⟩
        rw [attained]
        exact (max_eq_left lower).symm

section Reachable

variable [Zeros β] {elemsize : UInt64} {elemsperblock : Int32} {bh₀ bh : BlockHeap β} {events : List (HeapEvent β)}

/-- At every point of a run there is one block, or no more than are needed for the largest number of elements that were
in use at the same time. -/
theorem blockheap_blocks_le_peak (sensible : 1 ≤ elemsperblock) (created : Created elemsize elemsperblock bh₀)
    (run : Run HeapStep bh₀ events bh) :
    (bh.elemsPerBlock.toNat : ℤ) = elemsperblock.toInt ∧
    (usageOf events).used = bh.allocated.length ∧
    (∀ past, past <+: events → (usageOf past).used ≤ (usageOf events).peak) ∧
    (∃ past, past <+: events ∧ (usageOf past).used = (usageOf events).peak) ∧
    bh.blocksAllocated.toNat ≤
      max 1 (((usageOf events).peak + bh.elemsPerBlock.toNat - 1) / bh.elemsPerBlock.toNat) := by
  obtain ⟨inv, -, count⟩ := run_invariant sensible created run
  have initial := (created.invariant sensible).1
  -- the last block was added when all the others were full
  have grown := run.history (I := fun past bh => Invariant bh ∧ bh.elemsPerBlock = bh₀.elemsPerBlock ∧
    (usageOf past).used = bh.allocated.length ∧ (bh.base.length ≤ 1 ∨
      (bh.base.length - 1) * bh₀.elemsPerBlock.toNat < (usageOf past).peak)) ?_ ?_
  · obtain ⟨-, size, used, blocks⟩ := grown
    obtain ⟨bound, attained⟩ := usageOf_peak events
    refine ⟨count, used, bound, attained, ?_⟩
    have positive := inv.positive
    rw [inv.blocks]
    rcases blocks with single | needed
    · exact single.trans (le_max_left ..)
    · refine le_trans ?_ (le_max_right ..)
      rw [Nat.le_div_iff_mul_le positive]
      rw [← size] at needed
      cases length : bh.base.length with
      | zero => simp
      | succ n =>
        rw [length, Nat.add_sub_cancel] at needed
        rw [Nat.add_mul, Nat.one_mul]
        omega
  · refine ⟨initial, rfl, ?_, .inl (by rw [created.one_block])⟩
    rw [created.allocated sensible]
    rfl
  · rintro past source event target - ⟨inv, size, used, blocks⟩ step
    obtain ⟨kept, -, same, -⟩ := step.spec inv
    have length := step.allocated_length inv
    have higher : (usageOf past).peak ≤ (usageOf (past ++ [event])).peak := by
      rw [usageOf_snoc]
      exact le_max_left ..
    have now : (usageOf (past ++ [event])).used = target.allocated.length := by
      rw [usageOf_snoc, length, ← used]
      rfl
    refine ⟨kept, same.trans size, now, ?_⟩
    rcases step.blocks inv with equal | ⟨more, full⟩ | ⟨-, -, fewer⟩
    · rw [equal]
      exact blocks.imp_right fun needed => lt_of_lt_of_le needed higher
    · refine .inr ?_
      have recorded := usageOf_used_le (past ++ [event])
      rw [now, full, size] at recorded
      rw [more, Nat.add_sub_cancel]
      omega
    · rcases blocks with single | needed
      · exact .inl (fewer.trans single)
      · refine .inr (lt_of_le_of_lt ?_ (lt_of_lt_of_le needed higher))
        exact Nat.mul_le_mul_right _ (Nat.sub_le_sub_right fewer 1)

end Reachable

theorem blockheap_blocks_le_peak_small : ∃ heap, Run HeapStep smallHeap (smallCalls ++ [.garbagecollect]) heap ∧
    (usageOf (smallCalls ++ [.garbagecollect])).peak = 3 ∧
    heap.blocksAllocated.toNat ≤ max 1 ((3 + heap.elemsPerBlock.toNat - 1) / heap.elemsPerBlock.toNat) := by
  obtain ⟨heap, run, -⟩ := smallCalls_run
  have run' := run.append (.single .garbagecollect)
  have bound := (blockheap_blocks_le_peak (by decide) smallHeap_created run').2.2.2.2
  have peak : (usageOf (smallCalls ++ [.garbagecollect])).peak = 3 := by decide
  rw [peak] at bound
  exact ⟨_, run', peak, bound⟩

end FsPkg.Balloc
