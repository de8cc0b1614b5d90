import FsPkg.Proofs.BallocInvariant

/-! # What each allocator operation does to a heap in its invariant

One lemma per function of `balloc.c`. Each says that the operation is defined, keeps the invariant,
and how it changes the live contents and the free counter.
-/

namespace FsPkg.Balloc

open Dlink Packing

variable {β : Type}

/-! ## A new block -/

section BlockNew

variable [Zeros β] {bh : BlockHeap β} {os : BlockEnv}

/-- The block that the setup loop of `blockheap_block_new` leaves: every header free. -/
def BlockHeap.freshBlock (bh : BlockHeap β) (elems : ℕ) : Block β where
  elems := elems
  allocSize := bh.allocSize
  freeList := (slots elems bh.elemsPerBlock.toNat).foldl (fun list m => dlinkAdd m list) {}
  usedList := {}
  data := fun _ => Zeros.zeros bh.elemSize

/-- The heap after a successful `blockheap_block_new`. -/
def BlockHeap.grown (bh : BlockHeap β) (elems : ℕ) : BlockHeap β :=
  { bh with
    blocksAllocated := bh.blocksAllocated + 1
    freeElems := bh.freeElems + bh.elemsPerBlock
    base := bh.freshBlock elems :: bh.base }

theorem blockheapBlockNew_failed (failed : ¬ os.Succeeds) : blockheapBlockNew bh os = some (1, bh) := by
  unfold blockheapBlockNew
  cases calloc : os.calloc with
  | false => rfl
  | true =>
    cases mmap : os.mmap with
    | none => rfl
    | some elems => exact (failed ⟨calloc, by simp [mmap]⟩).elim

theorem blockheapBlockNew_succeeds (fits : bh.elemsPerBlock.toNat * bh.stride ≤ bh.allocSize.toNat)
    (calloc : os.calloc = true) {elems : ℕ} (mmap : os.mmap = some elems) :
    blockheapBlockNew bh os = some (0, bh.grown elems) := by
  simp only [blockheapBlockNew, calloc, mmap, Bool.not_true, Bool.false_eq_true, ↓reduceIte, if_pos fits]
  rfl

/-- A first block that could be obtained shows that the layout fits the requested area. -/
theorem blockheapBlockNew_zero {result : BlockHeap β} (success : blockheapBlockNew bh os = some (0, result)) :
    bh.elemsPerBlock.toNat * bh.stride ≤ bh.allocSize.toNat ∧ os.calloc = true ∧
      ∃ elems, os.mmap = some elems ∧ result = bh.grown elems := by
  by_cases succeeds : os.Succeeds
  · obtain ⟨calloc, mapped⟩ := succeeds
    obtain ⟨elems, mmap⟩ := Option.isSome_iff_exists.mp mapped
    by_cases fits : bh.elemsPerBlock.toNat * bh.stride ≤ bh.allocSize.toNat
    · rw [blockheapBlockNew_succeeds fits calloc mmap] at success
      cases success
      exact ⟨fits, calloc, elems, mmap, rfl⟩
    · simp [blockheapBlockNew, calloc, mmap, fits] at success
  · rw [blockheapBlockNew_failed succeeds] at success
    cases success

theorem BlockHeap.freshBlock_free (bh : BlockHeap β) (elems : ℕ) :
    (bh.freshBlock elems).freeList.nodes = (slots elems bh.elemsPerBlock.toNat).reverse := by
  simp [BlockHeap.freshBlock, foldl_dlinkAdd_nodes]

theorem BlockHeap.freshBlock_partitioned (bh : BlockHeap β) (elems : ℕ) :
    (bh.freshBlock elems).Partitioned bh.elemsPerBlock.toNat where
  perm := by
    rw [bh.freshBlock_free elems]
    simp [BlockHeap.freshBlock]
  free := by
    apply foldl_dlinkAdd_counted _ DlinkList.counted_empty
    simpa using bh.elemsPerBlock.toNat_lt
  used := DlinkList.counted_empty

theorem Layout.grown (layout : Layout bh) {elems : ℕ} (inside : elems + bh.allocSize.toNat ≤ 2 ^ 64)
    (apart : ∀ b ∈ bh.base, Apart (elems, bh.allocSize.toNat) b.region) : Layout (bh.grown elems) where
  positive := layout.positive
  fits := layout.fits
  partitioned := List.forall_mem_cons.mpr ⟨bh.freshBlock_partitioned elems, layout.partitioned⟩
  sized := List.forall_mem_cons.mpr ⟨rfl, layout.sized⟩
  inside := List.forall_mem_cons.mpr ⟨inside, layout.inside⟩
  apart := by
    refine List.pairwise_cons.mpr ⟨?_, layout.apart⟩
    intro region member
    obtain ⟨b, present, rfl⟩ := List.mem_map.mp member
    exact apart b present

/-- `++blocksAllocated` and `freeElems += elemsPerBlock` do not wrap: the blocks still fit. -/
theorem Invariant.grown (inv : Invariant bh) {elems : ℕ} (inside : elems + bh.allocSize.toNat ≤ 2 ^ 64)
    (apart : ∀ b ∈ bh.base, Apart (elems, bh.allocSize.toNat) b.region) : Invariant (bh.grown elems) := by
  have layout := inv.toLayout.grown inside apart
  have capacity : (bh.base.length + 1) * bh.elemsPerBlock.toNat < 2 ^ 64 := layout.capacity
  have positive := inv.positive
  have one : (1 : UInt64).toNat = 1 := rfl
  refine { toLayout := layout, blocks := ?_, free := ?_ }
  · have bound : bh.base.length + 1 < 2 ^ 64 :=
      lt_of_le_of_lt (Nat.le_mul_of_pos_right _ positive) capacity
    change (bh.blocksAllocated + 1).toNat = bh.base.length + 1
    rw [UInt64.toNat_add, inv.blocks, one]
    exact Nat.mod_eq_of_lt bound
  · have bound : bh.freeElems.toNat + bh.elemsPerBlock.toNat < 2 ^ 64 := by
      have free := inv.freeElems_le
      rw [Nat.add_mul, Nat.one_mul] at capacity
      omega
    change (bh.freeElems + bh.elemsPerBlock).toNat =
      (bh.freshBlock elems).freeList.nodes.length + (bh.base.map (·.freeList.nodes.length)).sum
    rw [UInt64.toNat_add, Nat.mod_eq_of_lt bound, inv.free, bh.freshBlock_free elems]
    simp [Nat.add_comm]

theorem Invariant.live_grown (inv : Invariant bh) {elems : ℕ} (kept : Invariant (bh.grown elems)) :
    (bh.grown elems).live = bh.live := by
  funext ptr
  apply Option.ext
  intro value
  rw [kept.live_eq_some_iff, inv.live_eq_some_iff]
  constructor
  · rintro ⟨b, present, used, same⟩
    rcases List.mem_cons.mp present with rfl | old
    · simp [BlockHeap.freshBlock] at used
    · exact ⟨b, old, used, same⟩
  · rintro ⟨b, present, used, same⟩
    exact ⟨b, List.mem_cons_of_mem _ present, used, same⟩

end BlockNew

/-! ## Garbage collection -/

section GarbageCollect

variable {bh : BlockHeap β}

/-- The loop filters the chain and takes one block, with all its elements, off the counters each
time. Neither counter wraps while both cover the blocks to be dropped. -/
theorem garbagecollectWalk_spec (elemsPerBlock : UInt64) (base : List (Block β)) (blocks free : UInt64)
    (enoughBlocks : base.countP (fun b => b.freeList.length = elemsPerBlock) ≤ blocks.toNat)
    (enoughFree : base.countP (fun b => b.freeList.length = elemsPerBlock) * elemsPerBlock.toNat ≤ free.toNat) :
    ∃ blocks' free', garbagecollectWalk elemsPerBlock base blocks free =
        (base.filter (fun b => ¬ b.freeList.length = elemsPerBlock), blocks', free') ∧
      blocks'.toNat + base.countP (fun b => b.freeList.length = elemsPerBlock) = blocks.toNat ∧
      free'.toNat + base.countP (fun b => b.freeList.length = elemsPerBlock) * elemsPerBlock.toNat =
        free.toNat := by
  induction base generalizing blocks free with
  | nil => exact ⟨blocks, free, rfl, rfl, by simp⟩
  | cons walker next ih =>
    by_cases empty : walker.freeList.length = elemsPerBlock
    · simp only [List.countP_cons, empty, decide_true, ↓reduceIte, Nat.add_mul, Nat.one_mul] at enoughBlocks enoughFree
      have one : (1 : UInt64).toNat = 1 := rfl
      have blocksSub : (blocks - 1).toNat = blocks.toNat - 1 :=
        UInt64.toNat_sub_of_le _ _ (UInt64.le_iff_toNat_le.mpr (by omega))
      have freeSub : (free - elemsPerBlock).toNat = free.toNat - elemsPerBlock.toNat :=
        UInt64.toNat_sub_of_le _ _ (UInt64.le_iff_toNat_le.mpr (by omega))
      obtain ⟨blocks', free', walk, blocksEq, freeEq⟩ :=
        ih (blocks - 1) (free - elemsPerBlock) (by omega) (by omega)
      refine ⟨blocks', free', ?_, ?_, ?_⟩
      · simp [garbagecollectWalk, empty, walk]
      · simp only [List.countP_cons, empty, decide_true, ↓reduceIte]
        omega
      · simp only [List.countP_cons, empty, decide_true, ↓reduceIte, Nat.add_mul, Nat.one_mul]
        omega
    · simp only [List.countP_cons, empty, decide_false, Bool.false_eq_true, ↓reduceIte, Nat.add_zero]
        at enoughBlocks enoughFree ⊢
      obtain ⟨blocks', free', walk, blocksEq, freeEq⟩ := ih blocks free enoughBlocks enoughFree
      exact ⟨blocks', free', by simp [garbagecollectWalk, empty, walk], blocksEq, freeEq⟩

/-- A block is dropped exactly when none of its elements is in use. -/
theorem Invariant.idle_iff (inv : Invariant bh) {b : Block β} (member : b ∈ bh.base) :
    b.freeList.length = bh.elemsPerBlock ↔ b.usedList.nodes = [] := by
  have part := inv.partitioned b member
  have total := part.length_add
  rw [← UInt64.toNat_inj, part.free]
  constructor
  · exact part.used_length
  · intro unused
    simpa [unused] using total

private theorem sum_free_filter {count : ℕ} {size : UInt64} (base : List (Block β)) (same : size.toNat = count)
    (parts : ∀ b ∈ base, b.Partitioned count) :
    (base.map (·.freeList.nodes.length)).sum =
      ((base.filter (fun b => ¬ b.freeList.length = size)).map (·.freeList.nodes.length)).sum +
        base.countP (fun b => b.freeList.length = size) * count := by
  induction base with
  | nil => simp
  | cons b rest ih =>
    have tail := ih fun other member => parts other (List.mem_cons_of_mem _ member)
    have counted : b.freeList.length.toNat = b.freeList.nodes.length := (parts b (List.mem_cons_self ..)).free
    by_cases empty : b.freeList.length = size
    · have length : b.freeList.nodes.length = count := by rw [← counted, empty, same]
      simp only [List.map_cons, List.sum_cons, List.filter_cons, List.countP_cons, empty, tail, length,
        not_true_eq_false, decide_false, Bool.false_eq_true, decide_true, ↓reduceIte, Nat.add_mul, Nat.one_mul]
      omega
    · simp only [List.map_cons, List.sum_cons, List.filter_cons, List.countP_cons, empty, tail,
        not_false_eq_true, decide_true, decide_false, Bool.false_eq_true, ↓reduceIte, Nat.add_zero]
      omega

/-- The result of a collection that was not cut short: exactly the blocks in use remain. -/
theorem Invariant.collected (inv : Invariant bh) {blocks free : UInt64}
    (blocksEq : blocks.toNat + bh.base.countP (fun b => b.freeList.length = bh.elemsPerBlock) =
      bh.blocksAllocated.toNat)
    (freeEq : free.toNat + bh.base.countP (fun b => b.freeList.length = bh.elemsPerBlock) *
      bh.elemsPerBlock.toNat = bh.freeElems.toNat) :
    Invariant { bh with
      base := bh.base.filter (fun b => ¬ b.freeList.length = bh.elemsPerBlock)
      blocksAllocated := blocks
      freeElems := free } where
  positive := inv.positive
  fits := inv.fits
  partitioned b member := inv.partitioned b (List.mem_filter.mp member).1
  sized b member := inv.sized b (List.mem_filter.mp member).1
  inside b member := inv.inside b (List.mem_filter.mp member).1
  apart := inv.apart.sublist (List.filter_sublist.map _)
  blocks := by
    have split := List.length_eq_countP_add_countP (fun b : Block β => decide (b.freeList.length = bh.elemsPerBlock))
      (l := bh.base)
    have total := inv.blocks
    simp only [decide_eq_true_eq, List.countP_eq_length_filter] at split blocksEq ⊢
    omega
  free := by
    have split := sum_free_filter bh.base rfl inv.partitioned
    have total := inv.free
    dsimp only
    omega

theorem Invariant.live_collected (inv : Invariant bh) {blocks free : UInt64}
    (kept : Invariant { bh with
      base := bh.base.filter (fun b => ¬ b.freeList.length = bh.elemsPerBlock)
      blocksAllocated := blocks
      freeElems := free }) :
    BlockHeap.live { bh with
      base := bh.base.filter (fun b => ¬ b.freeList.length = bh.elemsPerBlock)
      blocksAllocated := blocks
      freeElems := free } = bh.live := by
  funext ptr
  apply Option.ext
  intro value
  rw [kept.live_eq_some_iff, inv.live_eq_some_iff]
  constructor
  · rintro ⟨b, present, used, same⟩
    exact ⟨b, (List.mem_filter.mp present).1, used, same⟩
  · rintro ⟨b, present, used, same⟩
    -- a block with an element in use is not idle, so the filter keeps it
    have busy : ¬ b.freeList.length = bh.elemsPerBlock := by
      intro idle
      rw [(inv.idle_iff present).mp idle] at used
      contradiction
    exact ⟨b, List.mem_filter.mpr ⟨present, by simpa using busy⟩, used, same⟩

/-- A full scan of the chain: neither counter wraps, and the invariant is kept. -/
theorem Invariant.scan_spec (inv : Invariant bh) :
    ∃ blocks free, garbagecollectWalk bh.elemsPerBlock bh.base bh.blocksAllocated bh.freeElems =
        (bh.base.filter (fun b => ¬ b.freeList.length = bh.elemsPerBlock), blocks, free) ∧
      blocks.toNat + bh.base.countP (fun b => b.freeList.length = bh.elemsPerBlock) = bh.blocksAllocated.toNat ∧
      free.toNat + bh.base.countP (fun b => b.freeList.length = bh.elemsPerBlock) * bh.elemsPerBlock.toNat =
        bh.freeElems.toNat ∧
      Invariant { bh with
        base := bh.base.filter (fun b => ¬ b.freeList.length = bh.elemsPerBlock)
        blocksAllocated := blocks
        freeElems := free } := by
  have enoughBlocks : bh.base.countP (fun b => b.freeList.length = bh.elemsPerBlock) ≤
      bh.blocksAllocated.toNat := by
    rw [inv.blocks]
    exact List.countP_le_length
  have enoughFree : bh.base.countP (fun b => b.freeList.length = bh.elemsPerBlock) *
      bh.elemsPerBlock.toNat ≤ bh.freeElems.toNat := by
    rw [inv.free, sum_free_filter bh.base rfl inv.partitioned]
    exact Nat.le_add_left _ _
  obtain ⟨blocks, free, walk, blocksEq, freeEq⟩ := garbagecollectWalk_spec bh.elemsPerBlock bh.base
    bh.blocksAllocated bh.freeElems enoughBlocks enoughFree
  exact ⟨blocks, free, walk, blocksEq, freeEq, inv.collected blocksEq freeEq⟩

/-- `blockheap_garbagecollect`: what it removes, and that both subtractions stay above zero. -/
theorem Invariant.gc_spec (inv : Invariant bh) :
    Invariant (blockheapGarbagecollect bh) ∧
    (blockheapGarbagecollect bh).elemSize = bh.elemSize ∧
    (blockheapGarbagecollect bh).elemsPerBlock = bh.elemsPerBlock ∧
    (blockheapGarbagecollect bh).live = bh.live ∧
    (blockheapGarbagecollect bh).base.Sublist bh.base ∧
    (∀ b ∈ bh.base, b.usedList.nodes ≠ [] → b ∈ (blockheapGarbagecollect bh).base) ∧
    ∃ removed, (blockheapGarbagecollect bh).base.length + removed = bh.base.length ∧
      (blockheapGarbagecollect bh).blocksAllocated.toNat + removed = bh.blocksAllocated.toNat ∧
      (blockheapGarbagecollect bh).freeElems.toNat + removed * bh.elemsPerBlock.toNat =
        bh.freeElems.toNat := by
  unfold blockheapGarbagecollect
  split
  · exact ⟨inv, rfl, rfl, rfl, List.Sublist.refl _, fun _ member _ => member, 0, by simp⟩
  · obtain ⟨blocks, free, walk, blocksEq, freeEq, kept⟩ := inv.scan_spec
    simp only [walk]
    refine ⟨kept, trivial, trivial, inv.live_collected kept, List.filter_sublist, ?_,
      bh.base.countP (fun b => b.freeList.length = bh.elemsPerBlock), ?_, blocksEq, freeEq⟩
    · intro b member busy
      refine List.mem_filter.mpr ⟨member, ?_⟩
      simpa using fun idle => busy ((inv.idle_iff member).mp idle)
    · have after := kept.blocks
      have before := inv.blocks
      dsimp only at after
      omega

end GarbageCollect

/-! ## Allocation -/

section Alloc

variable {bh : BlockHeap β}

/-- A block after its free head `m` has been handed out. -/
def Block.handOut (b : Block β) (m : MemBlock) (zero : β) : Block β :=
  { b with
    freeList := ⟨b.freeList.nodes.erase m, b.freeList.length - 1⟩
    usedList := ⟨m :: b.usedList.nodes, b.usedList.length + 1⟩
    data := Function.update b.data m.index zero }

/-- A block after its element `m` has been returned. -/
def Block.takeBack (b : Block β) (m : MemBlock) (zero : β) : Block β :=
  { b with
    freeList := ⟨m :: b.freeList.nodes, b.freeList.length + 1⟩
    usedList := ⟨b.usedList.nodes.erase m, b.usedList.length - 1⟩
    data := Function.update b.data m.index zero }

theorem Block.Partitioned.handOut {count : ℕ} {b : Block β} (part : b.Partitioned count)
    (bound : count < 2 ^ 64) {m : MemBlock} (member : m ∈ b.freeList.nodes) (zero : β) :
    (b.handOut m zero).Partitioned count := by
  have perm : (b.freeList.nodes.erase m ++ m :: b.usedList.nodes).Perm
      (b.freeList.nodes ++ b.usedList.nodes) :=
    List.perm_middle.trans ((List.perm_cons_erase member).symm.append_right b.usedList.nodes)
  refine { perm := perm.trans part.perm, free := part.free.erase member, used := ?_ }
  have total := part.length_add
  have positive := List.length_pos_of_mem member
  exact part.used.add (m :: b.usedList.nodes) rfl (by simp only [List.length_cons]; omega)

theorem Block.Partitioned.takeBack {count : ℕ} {b : Block β} (part : b.Partitioned count)
    (bound : count < 2 ^ 64) {m : MemBlock} (member : m ∈ b.usedList.nodes) (zero : β) :
    (b.takeBack m zero).Partitioned count := by
  have perm : (m :: b.freeList.nodes ++ b.usedList.nodes.erase m).Perm
      (b.freeList.nodes ++ b.usedList.nodes) :=
    List.perm_middle.symm.trans ((List.perm_cons_erase member).symm.append_left b.freeList.nodes)
  refine { perm := perm.trans part.perm, free := ?_, used := part.used.erase member }
  have total := part.length_add
  have positive := List.length_pos_of_mem member
  exact part.free.add (m :: b.freeList.nodes) rfl (by simp only [List.length_cons]; omega)

/-- The search stops at the first block with a free element, and only fails without any. -/
theorem allocWalk_spec (zero : β) (base : List (Block β))
    (counted : ∀ b ∈ base, b.freeList.Counted) :
    ((∀ b ∈ base, b.freeList.nodes = []) ∧ allocWalk zero base = some (none, base)) ∨
    ∃ before b after m, base = before ++ b :: after ∧ m ∈ b.freeList.nodes ∧
      allocWalk zero base = some (some m, before ++ b.handOut m zero :: after) := by
  induction base with
  | nil => exact .inl ⟨by simp, rfl⟩
  | cons walker next ih =>
    have here := counted walker (List.mem_cons_self ..)
    cases nodes : walker.freeList.nodes with
    | nil =>
      have none : ¬ 0 < walker.freeList.length := by simp [here.length_pos_iff, nodes]
      rcases ih fun b member => counted b (List.mem_cons_of_mem _ member) with
        ⟨empty, walk⟩ | ⟨before, b, after, m, rfl, member, walk⟩
      · refine .inl ⟨List.forall_mem_cons.mpr ⟨nodes, empty⟩, ?_⟩
        simp [allocWalk, none, walk]
      · refine .inr ⟨walker :: before, b, after, m, rfl, member, ?_⟩
        simp [allocWalk, none, walk]
    | cons m rest =>
      have some : 0 < walker.freeList.length := by simp [here.length_pos_iff, nodes]
      have member : m ∈ walker.freeList.nodes := by simp [nodes]
      refine .inr ⟨[], walker, next, m, rfl, member, ?_⟩
      simp only [allocWalk, some, ↓reduceIte]
      rw [nodes]
      simp only [dlinkMove, if_pos member, bind, Option.bind_some, List.nil_append]
      rfl

/-- With a free element counted, the search finds one: it was not in use, and becomes the only
new live element, zeroed. -/
theorem Invariant.allocWalk_of_free (inv : Invariant bh) (free : bh.freeElems ≠ 0) (zero : β) :
    ∃ ptr base, allocWalk zero bh.base = some (some ptr, base) ∧
      Invariant { bh with freeElems := bh.freeElems - 1, base } ∧ bh.live ptr = none ∧
      BlockHeap.live { bh with freeElems := bh.freeElems - 1, base } =
        Function.update bh.live ptr (some zero) ∧
      (bh.freeElems - 1).toNat + 1 = bh.freeElems.toNat := by
  have positive : 0 < bh.freeElems.toNat := by
    rw [Nat.pos_iff_ne_zero]
    exact fun zero => free (UInt64.toNat_inj.mp zero)
  have dec : (bh.freeElems - 1).toNat = bh.freeElems.toNat - 1 :=
    UInt64.toNat_sub_of_le _ _ (UInt64.le_iff_toNat_le.mpr positive)
  rcases allocWalk_spec zero bh.base fun b member => (inv.partitioned b member).free with
    ⟨empty, -⟩ | ⟨before, b, after, m, chain, member, walk⟩
  · have none : bh.freeElems.toNat = 0 := by
      rw [inv.free, List.sum_eq_zero]
      intro length listed
      obtain ⟨b, present, rfl⟩ := List.mem_map.mp listed
      simp [empty b present]
    omega
  · have inChain : b ∈ bh.base := by simp [chain]
    have part := inv.partitioned b inChain
    have lengthPos := List.length_pos_of_mem member
    have kept := inv.replace chain (b.handOut m zero) (bh.freeElems - 1) rfl rfl
      (part.handOut bh.elemsPerBlock.toNat_lt member zero) (by
        simp only [Block.handOut, List.length_erase_of_mem member]
        omega)
    have slot := mem_slots.mp (part.perm.mem_iff.mp (List.mem_append_left _ member))
    refine ⟨m, _, walk, kept, ?_, ?_, by omega⟩
    · rw [inv.live_of_block inChain slot.1, if_neg (part.not_used_of_free member)]
    · have elems : (b.handOut m zero).elems = b.elems := rfl
      rw [inv.live_replace chain elems kept slot.1]
      · simp [Block.handOut]
      · intro ptr different
        simp [Block.handOut, different]
      · intro index different
        simp [Block.handOut, different]

variable [Zeros β] {os : BlockEnv}

/-- With a free element no block is asked for. -/
theorem Invariant.alloc_of_free (inv : Invariant bh) (free : bh.freeElems ≠ 0) (os : BlockEnv) :
    ∃ ptr heap, blockheapAlloc bh os = some ⟨some ptr, heap, false⟩ ∧ Invariant heap ∧
      heap.elemSize = bh.elemSize ∧ heap.elemsPerBlock = bh.elemsPerBlock ∧ bh.live ptr = none ∧
      heap.live = Function.update bh.live ptr (some (Zeros.zeros bh.elemSize)) ∧
      heap.freeElems.toNat + 1 = bh.freeElems.toNat := by
  obtain ⟨ptr, base, walk, kept, fresh, live, dec⟩ := inv.allocWalk_of_free free (Zeros.zeros bh.elemSize)
  refine ⟨ptr, _, ?_, kept, rfl, rfl, fresh, live, dec⟩
  simp [blockheapAlloc, free, walk]

/-- `blockheap_alloc`: `NULL` exactly when nothing is free and no block can be had; otherwise a new
live element, zeroed, and one free element fewer than before or than in the new block. -/
theorem Invariant.alloc_spec (inv : Invariant bh) (lawful : os.Lawful bh) :
    (bh.freeElems = 0 ∧ ¬ os.Succeeds ∧ blockheapAlloc bh os = some ⟨none, bh, true⟩) ∨
    ∃ ptr heap, (bh.freeElems ≠ 0 ∨ os.Succeeds) ∧
      blockheapAlloc bh os = some ⟨some ptr, heap, false⟩ ∧ Invariant heap ∧
      heap.elemSize = bh.elemSize ∧ heap.elemsPerBlock = bh.elemsPerBlock ∧ bh.live ptr = none ∧
      heap.live = Function.update bh.live ptr (some (Zeros.zeros bh.elemSize)) ∧
      heap.freeElems.toNat + 1 =
        if bh.freeElems = 0 then bh.elemsPerBlock.toNat else bh.freeElems.toNat := by
  by_cases empty : bh.freeElems = 0
  · by_cases succeeds : os.Succeeds
    · obtain ⟨calloc, mapped⟩ := succeeds
      obtain ⟨elems, mmap⟩ := Option.isSome_iff_exists.mp mapped
      obtain ⟨inside, apart⟩ := lawful elems mmap
      have grown := inv.grown inside apart
      have count : (bh.grown elems).freeElems = bh.elemsPerBlock := by simp [BlockHeap.grown, empty]
      have free : (bh.grown elems).freeElems ≠ 0 := by
        rw [count]
        intro zero
        have positive := inv.positive
        simp [zero] at positive
      obtain ⟨ptr, base, walk, kept, fresh, live, dec⟩ :=
        grown.allocWalk_of_free free (Zeros.zeros bh.elemSize)
      rw [inv.live_grown grown] at fresh live
      refine .inr ⟨ptr, _, .inr ⟨calloc, mapped⟩, ?_, kept, rfl, rfl, fresh, live, ?_⟩
      · simp only [blockheapAlloc, empty, ↓reduceIte, blockheapBlockNew_succeeds inv.fits calloc mmap,
          bind, Option.bind_some, ne_eq, not_true_eq_false]
        have walk' : allocWalk (Zeros.zeros (bh.grown elems).elemSize) (bh.grown elems).base =
            some (some ptr, base) := walk
        simp only [walk', Option.bind_some]
      · rw [if_pos empty, ← count]
        exact dec
    · have idle : blockheapGarbagecollect bh = bh := by
        have below : bh.freeElems < bh.elemsPerBlock := by
          rw [empty, UInt64.lt_iff_toNat_lt]
          exact inv.positive
        simp [blockheapGarbagecollect, below]
      refine .inl ⟨empty, succeeds, ?_⟩
      rcases allocWalk_spec (Zeros.zeros bh.elemSize) bh.base fun b member =>
          (inv.partitioned b member).free with ⟨-, walk⟩ | ⟨before, b, after, m, chain, member, -⟩
      · simp [blockheapAlloc, empty, blockheapBlockNew_failed succeeds, idle, walk]
      · -- a free node would have been counted
        have free := inv.free
        have positive := List.length_pos_of_mem member
        have none : bh.freeElems.toNat = 0 := by simp [empty]
        simp only [chain, List.map_append, List.map_cons, List.sum_append, List.sum_cons] at free
        omega
  · obtain ⟨ptr, heap, ran, kept, size, count, fresh, live, dec⟩ := inv.alloc_of_free empty os
    refine .inr ⟨ptr, heap, .inl empty, ran, kept, size, count, fresh, live, ?_⟩
    rw [if_neg empty]
    exact dec

end Alloc

/-! ## Release and client access -/

section Release

variable {bh : BlockHeap β}

theorem modifyBlock_append {elems : ℕ} {change : Block β → Option (Block β)}
    {before after : List (Block β)} {old : Block β} (new : Block β) (here : old.elems = elems)
    (others : ∀ other ∈ before, other.elems ≠ elems) (changed : change old = some new) :
    modifyBlock elems change (before ++ old :: after) = some (before ++ new :: after) := by
  induction before with
  | nil => simp [modifyBlock, here, changed]
  | cons head rest ih =>
    obtain ⟨first, remaining⟩ := List.forall_mem_cons.mp others
    simp [modifyBlock, first, ih remaining]

/-- The chain position of the block that a live element belongs to. -/
theorem Invariant.block_of_allocated (inv : Invariant bh) {ptr : MemBlock} (member : ptr ∈ bh.allocated) :
    ∃ before b after, bh.base = before ++ b :: after ∧ b ∈ bh.base ∧ ptr ∈ b.usedList.nodes ∧
      ptr.block = b.elems ∧ ptr.index < bh.elemsPerBlock.toNat ∧
      ∀ other ∈ before, other.elems ≠ ptr.block := by
  obtain ⟨b, present, used⟩ := mem_allocated.mp member
  obtain ⟨block, bound⟩ := (inv.partitioned b present).used_slot used
  obtain ⟨before, after, chain⟩ := List.append_of_mem present
  refine ⟨before, b, after, chain, present, used, block, bound, ?_⟩
  intro other early equal
  have distinct := inv.elems_nodup
  rw [chain, List.map_append, List.map_cons, List.nodup_append] at distinct
  exact distinct.2.2 _ (List.mem_map_of_mem early) _ (List.mem_cons_self ..) (equal.trans block)

/-- `blockheap_free` of a live element: it alone stops being live, and one more element is free. -/
theorem Invariant.free_spec [Zeros β] (inv : Invariant bh) {ptr : MemBlock} (member : ptr ∈ bh.allocated) :
    ∃ heap, blockheapFree bh (some ptr) = some (0, heap) ∧ Invariant heap ∧
      heap.elemSize = bh.elemSize ∧ heap.elemsPerBlock = bh.elemsPerBlock ∧
      heap.live = Function.update bh.live ptr none ∧
      heap.freeElems.toNat = bh.freeElems.toNat + 1 := by
  obtain ⟨before, b, after, chain, present, used, block, bound, others⟩ := inv.block_of_allocated member
  have part := inv.partitioned b present
  have room : bh.freeElems.toNat + 1 < 2 ^ 64 := by
    have total := inv.free_add_allocated
    have capacity := inv.capacity
    have positive := List.length_pos_of_mem member
    omega
  have inc : (bh.freeElems + 1).toNat = bh.freeElems.toNat + 1 := by
    rw [UInt64.toNat_add]
    exact Nat.mod_eq_of_lt room
  have kept := inv.replace chain (b.takeBack ptr (Zeros.zeros bh.elemSize)) (bh.freeElems + 1) rfl rfl
    (part.takeBack bh.elemsPerBlock.toNat_lt used _) (by
      simp only [Block.takeBack, List.length_cons]
      omega)
  refine ⟨_, ?_, kept, rfl, rfl, ?_, inc⟩
  · simp only [blockheapFree, chain]
    rw [modifyBlock_append (b.takeBack ptr (Zeros.zeros bh.elemSize)) block.symm others]
    · rfl
    · simp [dlinkMove, used, Block.takeBack]
  · have elems : (b.takeBack ptr (Zeros.zeros bh.elemSize)).elems = b.elems := rfl
    have distinct := (List.nodup_append.mp part.nodup).2.1
    rw [inv.live_replace chain elems kept block]
    · simp [Block.takeBack, distinct.not_mem_erase]
    · intro other different
      simp [Block.takeBack, List.mem_erase_of_ne different]
    · intro index different
      simp [Block.takeBack, different]

/-- A store through a live pointer changes that element's contents and nothing else. -/
theorem Invariant.write_spec (inv : Invariant bh) {ptr : MemBlock} (member : ptr ∈ bh.allocated) (value : β) :
    ∃ heap, bh.write ptr value = some heap ∧ Invariant heap ∧
      heap.elemSize = bh.elemSize ∧ heap.elemsPerBlock = bh.elemsPerBlock ∧
      heap.live = Function.update bh.live ptr (some value) ∧ heap.freeElems = bh.freeElems := by
  obtain ⟨before, b, after, chain, present, used, block, bound, others⟩ := inv.block_of_allocated member
  have part := inv.partitioned b present
  let stored : Block β := { b with data := Function.update b.data ptr.index value }
  have kept := inv.replace chain stored bh.freeElems rfl rfl ⟨part.perm, part.free, part.used⟩ rfl
  refine ⟨_, ?_, kept, rfl, rfl, ?_, rfl⟩
  · simp only [BlockHeap.write, if_pos bound, chain]
    rw [modifyBlock_append stored block.symm others rfl]
    rfl
  · have elems : stored.elems = b.elems := rfl
    rw [inv.live_replace chain elems kept block (fun _ _ => Iff.rfl)]
    · simp [stored, used]
    · intro index different
      simp [stored, different]

private theorem modifyBlock_eq_some {elems : ℕ} {change : Block β → Option (Block β)} {base base' : List (Block β)}
    (modified : modifyBlock elems change base = some base') :
    ∃ before old new after, base = before ++ old :: after ∧ base' = before ++ new :: after ∧
      old.elems = elems ∧ change old = some new := by
  induction base generalizing base' with
  | nil => contradiction
  | cons b rest ih =>
    unfold modifyBlock at modified
    split at modified
    · next here =>
      obtain ⟨new, changed, rfl⟩ := Option.map_eq_some_iff.mp modified
      exact ⟨[], b, new, rest, rfl, rfl, here, changed⟩
    · obtain ⟨tail, inner, rfl⟩ := Option.map_eq_some_iff.mp modified
      obtain ⟨before, old, new, after, rfl, rfl, here, changed⟩ := ih inner
      exact ⟨b :: before, old, new, after, rfl, rfl, here, changed⟩

variable {heap : BlockHeap β} {ptr : MemBlock} {earlier : MemBlock → Option β} {old : β}

/-- No store hands out an element or takes one back. -/
theorem BlockHeap.write_allocated {value : β} (wrote : bh.write ptr value = some heap) :
    heap.allocated = bh.allocated := by
  unfold BlockHeap.write at wrote
  split at wrote
  · obtain ⟨base, modified, stored⟩ := Option.bind_eq_some_iff.mp wrote
    cases stored
    obtain ⟨before, b, new, after, chain, rfl, -, changed⟩ := modifyBlock_eq_some modified
    cases changed
    simp only [BlockHeap.allocated, chain, List.flatMap_append, List.flatMap_cons]
  · contradiction

/-- A store through a stale pointer changes nothing that is handed out. -/
theorem Invariant.write_stale (inv : Invariant bh) {value : β} (stale : ptr ∉ bh.allocated)
    (wrote : bh.write ptr value = some heap) : Invariant heap ∧ heap.live = bh.live := by
  unfold BlockHeap.write at wrote
  split at wrote
  · obtain ⟨base, modified, stored⟩ := Option.bind_eq_some_iff.mp wrote
    cases stored
    obtain ⟨before, b, new, after, chain, rfl, block, changed⟩ := modifyBlock_eq_some modified
    cases changed
    let stored : Block β := { b with data := Function.update b.data ptr.index value }
    have part := inv.partitioned b (by simp [chain])
    have unused : ptr ∉ b.usedList.nodes := fun used => stale (mem_allocated.mpr ⟨b, by simp [chain], used⟩)
    have kept := inv.replace chain stored bh.freeElems rfl rfl ⟨part.perm, part.free, part.used⟩ rfl
    have elems : stored.elems = b.elems := rfl
    refine ⟨kept, ?_⟩
    rw [inv.live_replace chain elems kept block.symm (fun _ _ => Iff.rfl), if_neg unused,
      ← inv.live_none_iff.mpr stale, Function.update_eq_self]
    intro index different
    exact Function.update_of_ne different ..
  · contradiction

/-- A store into an element that was just handed out or stored into. -/
theorem Invariant.store_spec (inv : Invariant bh) (live : bh.live = Function.update earlier ptr (some old))
    (value : β) :
    ∃ heap, bh.write ptr value = some heap ∧ Invariant heap ∧
      heap.live = Function.update earlier ptr (some value) := by
  obtain ⟨heap, wrote, inv', -, -, live', -⟩ := inv.write_spec (inv.held live) value
  refine ⟨heap, wrote, inv', ?_⟩
  rw [live', live, Function.update_idem]

theorem Invariant.stored (inv : Invariant bh) (live : bh.live = Function.update earlier ptr (some old)) {value : β}
    (wrote : bh.write ptr value = some heap) :
    Invariant heap ∧ heap.live = Function.update earlier ptr (some value) := by
  obtain ⟨heap', wrote', inv', live'⟩ := inv.store_spec live value
  rw [wrote] at wrote'
  obtain rfl := Option.some.inj wrote'
  exact ⟨inv', live'⟩

/-- An element that was just handed out or stored into is given back. -/
theorem Invariant.give_back [Zeros β] (inv : Invariant bh) (fresh : earlier ptr = none)
    (live : bh.live = Function.update earlier ptr (some old)) :
    ∃ heap, blockheapFree bh (some ptr) = some (0, heap) ∧ Invariant heap ∧ heap.live = earlier := by
  obtain ⟨heap, freed, inv', -, -, live', -⟩ := inv.free_spec (inv.held live)
  refine ⟨heap, freed, inv', ?_⟩
  rw [live', live, Function.update_idem, ← fresh, Function.update_eq_self]

end Release

end FsPkg.Balloc
