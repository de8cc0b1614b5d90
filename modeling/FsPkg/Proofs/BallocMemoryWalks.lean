import FsPkg.Proofs.BallocMemorySpec

/-! # Walks along the chain of a heap

`blockheap_alloc` searches the chain for a free element, `blockheap_garbagecollect` unmaps the idle blocks of it, and
`blockheap_destroy` all of them. Each walk meets blocks with records and ground of their own, so a step on one of them
leaves the rest of the chain and the other heaps as they were.
-/

namespace FsPkg.BallocMemory

open Machine Packing
open Balloc (slots sizeofMemBlock padElemSize Zeros)

variable {β : Type}

/-! ## Searching for a free element -/

section Search

variable {mem : Memory} {s : Sizes}

/-- A free list is empty when its length says so. -/
private theorem BlockHolds.free_pos_iff {x : Address × Balloc.Block β} (holds : BlockHolds mem s x) {r : Block}
    (found : mem.blocks x.1 = some r) : 0 < r.freeList.length ↔ x.2.freeList.nodes ≠ [] := by
  obtain ⟨r', found', -, -, free, -⟩ := holds.record
  obtain rfl : r = r' := Option.some.inj (found.symm.trans found')
  rw [free.length]
  exact holds.part.free.length_pos_iff

/-- The search hands out the first free element of the first block that has one, in memory as on sequences. -/
theorem allocWalk_spec (fits : s.Fits) (zero : β) (blocks : List (Address × Balloc.Block β))
    (holds : ∀ x ∈ blocks, BlockHolds mem s x) :
    (allocWalk s.elemSize (blocks.map Prod.fst) mem = some (none, mem) ∧
      Balloc.allocWalk zero (blocks.map Prod.snd) = some (none, blocks.map Prod.snd)) ∨
    ∃ before a b after m mem', blocks = before ++ (a, b) :: after ∧ m ∈ b.freeList.nodes ∧
      allocWalk s.elemSize (blocks.map Prod.fst) mem = some (some (some (s.element m)), mem') ∧
      Balloc.allocWalk zero (blocks.map Prod.snd) =
        some (some m, (before ++ (a, b.handOut m zero) :: after).map Prod.snd) ∧
      BlockHolds mem' s (a, b.handOut m zero) ∧ Spares mem mem' (a, b) ∧
      mem'.heaps = mem.heaps ∧ mem'.heapLists = mem.heapLists ∧ mem'.dying = mem.dying := by
  induction blocks with
  | nil => exact .inl ⟨rfl, rfl⟩
  | cons x next ih =>
    obtain ⟨a, b⟩ := x
    obtain ⟨here, others⟩ := List.forall_mem_cons.mp holds
    cases nodes : b.freeList.nodes with
    | nil =>
      obtain ⟨r, found, -⟩ := here.record
      have none : ¬ 0 < r.freeList.length := by simp [here.free_pos_iff found, nodes]
      have none' : ¬ 0 < b.freeList.length := by
        rw [here.part.free.length_pos_iff]
        simp [nodes]
      rcases ih others with ⟨walk, walk'⟩ | ⟨before, a', b', after, m, mem', rfl, member, walk, walk', rest⟩
      · refine .inl ⟨?_, ?_⟩
        · simp [allocWalk, found, none, walk]
        · simp [Balloc.allocWalk, none', walk']
      · refine .inr ⟨(a, b) :: before, a', b', after, m, mem', rfl, member, ?_, ?_, rest⟩
        · simp only [List.map_cons, allocWalk, found, bind, Option.bind_some, if_neg none, walk]
        · simp only [List.map_cons, Balloc.allocWalk, if_neg none', bind, walk', Option.bind_some, List.cons_append]
    | cons m rest =>
      have member : m ∈ b.freeList.nodes := by simp [nodes]
      obtain ⟨r, headers, free, used, headers', found, head, -, moved, payload, cleared, same, after⟩ :=
        here.handOut fits nodes zero
      have some_ : 0 < r.freeList.length := by simp [here.free_pos_iff found, nodes]
      have some' : 0 < b.freeList.length := by
        rw [here.part.free.length_pos_iff]
        simp [nodes]
      obtain ⟨h, header, back⟩ := Option.map_eq_some_iff.mp payload
      have data : h.self.data = some (s.element m) := (Prod.mk.inj back).1
      obtain ⟨changed, spares⟩ := after { mem with
        headers := headers'
        blocks := Function.update mem.blocks a (some { r with freeList := free, usedList := used }) } rfl rfl rfl
      refine .inr ⟨[], a, b, next, m, _, rfl, member, ?_, ?_, changed, spares, rfl, rfl, rfl⟩
      · simp only [List.map_cons, allocWalk, found, bind, Option.bind_some, if_pos some_, head, moved, header, data,
          cleared, same]
      · simp only [List.map_cons, Balloc.allocWalk, if_pos some']
        rw [nodes]
        simp only [Dlink.dlinkMove, if_pos member, bind, Option.bind_some, List.nil_append]
        rfl

end Search

/-! ## Unmapping blocks -/

section Unmap

variable {mem : Memory} {s : Sizes}

/-- The memory after a block was unmapped and its record freed. -/
def unmapped (a : Address) (r : Block) (mem : Memory) : Memory :=
  { blockheapBlockFree r.elems r.allocSize mem with
    blocks := Function.update (blockheapBlockFree r.elems r.allocSize mem).blocks a none }

/-- Unmapping a block leaves all others. -/
private theorem BlockHolds.unmapped {a : Address} {b : Balloc.Block β} (holds : BlockHolds mem s (a, b)) :
    ∃ r, mem.blocks a = some r ∧ r.freeList.length = b.freeList.length ∧ Spares mem (unmapped a r mem) (a, b) := by
  obtain ⟨r, found, elems, size, free, -⟩ := holds.record
  refine ⟨r, found, free.length, ?_⟩
  have region : b.region = (r.elems.toNat, r.allocSize.toNat) := by
    rw [holds.region, elems, size]
  have nonempty := holds.nonempty
  rw [← size] at nonempty
  refine { blocks := fun other different => Function.update_of_ne different .., headers := ?_, areas := ?_ }
  · intro k apart
    rw [region] at apart
    apply if_neg
    intro range
    exact apart.not_both ⟨le_rfl, Nat.lt_add_of_pos_right (Nat.succ_pos 31)⟩ range
  · intro area member apart
    rw [region] at apart
    refine List.mem_filter.mpr ⟨member, decide_eq_true ?_⟩
    rintro rfl
    have here := Nat.lt_add_of_pos_right (n := r.elems.toNat) nonempty
    exact apart.not_both ⟨le_rfl, here⟩ ⟨le_rfl, here⟩

/-- Blocks that share nothing with the given ones hold as before. -/
def Keeps (mem mem' : Memory) (blocks : List (Address × Balloc.Block β)) : Prop :=
  ∀ (s : Sizes) (y : Address × Balloc.Block β), s.Fits → (∀ x ∈ blocks, Distinct x y) →
    BlockHolds mem s y → BlockHolds mem' s y

/-- The collection walk: the idle blocks are unmapped, in memory as on sequences. -/
theorem garbagecollectWalk_spec (fits : s.Fits) (blocks : List (Address × Balloc.Block β))
    (holds : ∀ x ∈ blocks, BlockHolds mem s x) (distinct : blocks.Pairwise Distinct) (blocksAllocated freeElems : UInt64) :
    ∃ kept n f mem', kept = blocks.filter (fun x => ¬ x.2.freeList.length = s.elemsPerBlock) ∧
      garbagecollectWalk s.elemsPerBlock (blocks.map Prod.fst) blocksAllocated freeElems mem =
        some (kept.map Prod.fst, n, f, mem') ∧
      Balloc.garbagecollectWalk s.elemsPerBlock (blocks.map Prod.snd) blocksAllocated freeElems =
        (kept.map Prod.snd, n, f) ∧
      (∀ x ∈ kept, BlockHolds mem' s x) ∧ Keeps mem mem' blocks ∧
      mem'.heaps = mem.heaps ∧ mem'.heapLists = mem.heapLists ∧ mem'.dying = mem.dying := by
  induction blocks generalizing mem blocksAllocated freeElems with
  | nil => exact ⟨[], _, _, mem, rfl, rfl, rfl, by simp, fun _ _ _ _ holds => holds, rfl, rfl, rfl⟩
  | cons x next ih =>
    obtain ⟨a, b⟩ := x
    obtain ⟨here, others⟩ := List.forall_mem_cons.mp holds
    obtain ⟨first, rest⟩ := List.pairwise_cons.mp distinct
    obtain ⟨r, found, length, spares⟩ := here.unmapped
    by_cases idle : b.freeList.length = s.elemsPerBlock
    · have others' : ∀ y ∈ next, BlockHolds (unmapped a r mem) s y :=
        fun y listed => (others y listed).spared fits spares (first y listed)
      obtain ⟨kept, n, f, mem', filter, walk, walk', stay, keeps, heaps, registry, dying⟩ :=
        ih others' rest (blocksAllocated - 1) (freeElems - s.elemsPerBlock)
      refine ⟨kept, n, f, mem', ?_, ?_, ?_, stay, ?_, heaps, registry, dying⟩
      · rw [filter, List.filter_cons_of_neg (by simpa using idle)]
      · rw [← length] at idle
        simp only [List.map_cons, garbagecollectWalk, found, bind, Option.bind_some, if_pos idle]
        exact walk
      · simp only [List.map_cons, Balloc.garbagecollectWalk, if_pos idle, walk']
      · intro s' y fits' apart block
        obtain ⟨near, far⟩ := List.forall_mem_cons.mp apart
        exact keeps s' y fits' far (block.spared fits' spares near)
    · obtain ⟨kept, n, f, mem', filter, walk, walk', stay, keeps, heaps, registry, dying⟩ :=
        ih others rest blocksAllocated freeElems
      refine ⟨(a, b) :: kept, n, f, mem', ?_, ?_, ?_, ?_, ?_, heaps, registry, dying⟩
      · rw [filter, List.filter_cons_of_pos (by simpa using idle)]
      · rw [← length] at idle
        simp only [List.map_cons, garbagecollectWalk, found, bind, Option.bind_some, if_neg idle, walk]
      · simp only [List.map_cons, Balloc.garbagecollectWalk, if_neg idle, walk']
      · have own := keeps s (a, b) fits (fun y listed => (first y listed).symm) here
        intro x listed
        rcases List.mem_cons.mp listed with rfl | later
        · exact own
        · exact stay x later
      · intro s' y fits' apart block
        exact keeps s' y fits' (List.forall_mem_cons.mp apart).2 block

/-- The walk of `blockheap_destroy` unmaps every block. -/
theorem destroyWalk_spec (fits : s.Fits) (blocks : List (Address × Balloc.Block β))
    (holds : ∀ x ∈ blocks, BlockHolds mem s x) (distinct : blocks.Pairwise Distinct) :
    ∃ mem', destroyWalk (blocks.map Prod.fst) mem = some mem' ∧ Keeps mem mem' blocks ∧
      mem'.heaps = mem.heaps ∧ mem'.heapLists = mem.heapLists := by
  induction blocks generalizing mem with
  | nil => exact ⟨mem, rfl, fun _ _ _ _ holds => holds, rfl, rfl⟩
  | cons x next ih =>
    obtain ⟨a, b⟩ := x
    obtain ⟨here, others⟩ := List.forall_mem_cons.mp holds
    obtain ⟨first, rest⟩ := List.pairwise_cons.mp distinct
    obtain ⟨r, found, -, spares⟩ := here.unmapped
    have others' : ∀ y ∈ next, BlockHolds (unmapped a r mem) s y :=
      fun y listed => (others y listed).spared fits spares (first y listed)
    obtain ⟨mem', walk, keeps, heaps, registry⟩ := ih others' rest
    refine ⟨mem', ?_, ?_, heaps, registry⟩
    · simp only [List.map_cons, destroyWalk, found, bind, Option.bind_some]
      exact walk
    · intro s' y fits' apart block
      obtain ⟨near, far⟩ := List.forall_mem_cons.mp apart
      exact keeps s' y fits' far (block.spared fits' spares near)

end Unmap

/-! ## Collection -/

section Operations

variable {mem : Memory} {world : World β} {bh : Address} {p : Placed β}

/-- The heap without its idle blocks. -/
def Placed.collected (p : Placed β) (blocksAllocated freeElems : UInt64) : Placed β :=
  { p with
    blocksAllocated
    freeElems
    blocks := p.blocks.filter fun x => ¬ x.2.freeList.length = p.sizes.elemsPerBlock }

/-- A collection keeps the elements that are handed out. -/
private theorem HeapHolds.allocated_collected (holds : HeapHolds mem bh p) {n f : UInt64} {m : Balloc.MemBlock} :
    m ∈ (p.collected n f).heap.allocated ↔ m ∈ p.heap.allocated := by
  simp only [Balloc.mem_allocated, Placed.heap, Placed.collected, List.mem_map, List.mem_filter]
  constructor
  · rintro ⟨b, ⟨x, ⟨present, -⟩, rfl⟩, used⟩
    exact ⟨x.2, ⟨x, present, rfl⟩, used⟩
  · rintro ⟨b, ⟨x, present, rfl⟩, used⟩
    refine ⟨x.2, ⟨x, ⟨present, decide_eq_true ?_⟩, rfl⟩, used⟩
    intro idle
    have part := (holds.blocks x present).part
    have full : x.2.freeList.nodes.length = p.sizes.elemsPerBlock.toNat := by
      rw [← part.free, idle]
    rw [part.used_length full] at used
    contradiction

/-- `blockheap_garbagecollect` in memory and on sequences. -/
theorem Represents.garbagecollect (rep : Represents mem world) (placed : world bh = some p) :
    ∃ mem' p', blockheapGarbagecollect bh mem = some mem' ∧ p'.heap = Balloc.blockheapGarbagecollect p.heap ∧
      p'.sizes = p.sizes ∧ Represents mem' (Function.update world bh (some p')) ∧
      (∀ m, m ∈ p'.heap.allocated ↔ m ∈ p.heap.allocated) ∧
      mem'.heapLists = mem.heapLists ∧ mem'.dying = mem.dying := by
  have holds := rep.holds bh p placed
  by_cases early : p.freeElems < p.sizes.elemsPerBlock ∨ p.blocksAllocated = 1
  · have early' : p.record.freeElems < p.record.elemsPerBlock ∨ p.record.blocksAllocated = 1 := early
    have early'' : p.heap.freeElems < p.heap.elemsPerBlock ∨ p.heap.blocksAllocated = 1 := early
    refine ⟨mem, p, ?_, ?_, rfl, ?_, fun _ => Iff.rfl, rfl, rfl⟩
    · simp only [blockheapGarbagecollect, holds.record, bind, Option.bind_some, if_pos early']
    · rw [Balloc.blockheapGarbagecollect, if_pos early'']
    · rw [← placed, Function.update_eq_self]
      exact rep
  · have early' : ¬(p.record.freeElems < p.record.elemsPerBlock ∨ p.record.blocksAllocated = 1) := early
    have early'' : ¬(p.heap.freeElems < p.heap.elemsPerBlock ∨ p.heap.blocksAllocated = 1) := early
    obtain ⟨kept, n, f, mem', rfl, walk, walk', stay, keeps, heaps, registry, dying⟩ :=
      garbagecollectWalk_spec holds.fits p.blocks holds.blocks holds.distinct p.blocksAllocated p.freeElems
    refine ⟨{ mem' with heaps := Function.update mem'.heaps bh (some (p.collected n f).record) }, p.collected n f, ?_, ?_,
      rfl, ?_, fun m => holds.allocated_collected, registry, dying⟩
    · simp only [blockheapGarbagecollect, holds.record, bind, Option.bind_some, if_neg early']
      rw [show garbagecollectWalk p.record.elemsPerBlock p.record.base p.record.blocksAllocated p.record.freeElems mem =
        _ from walk]
      rfl
    · rw [Balloc.blockheapGarbagecollect, if_neg early'']
      rw [show Balloc.garbagecollectWalk p.heap.elemsPerBlock p.heap.base p.heap.blocksAllocated p.heap.freeElems =
        _ from walk']
      rfl
    · apply rep.update
      · refine { record := Function.update_self .., fits := holds.fits, blocks := ?_, distinct := ?_ }
        · intro x listed
          exact (stay x listed).of_eq rfl rfl rfl
        · exact holds.distinct.sublist List.filter_sublist
      · intro other different
        dsimp only
        rw [Function.update_of_ne different, heaps]
      · intro other q different found y listed
        have theirs := rep.holds other q found
        refine (keeps q.sizes y theirs.fits ?_ (theirs.blocks y listed)).of_eq rfl rfl rfl
        intro x present
        exact rep.separate bh p other q different.symm placed found x present y listed
      · intro other q different found x listed y present
        exact rep.separate bh p other q different.symm placed found x (List.mem_filter.mp listed).1 y present
      · exact registry

/-! ## Allocation -/

/-- The flag says nothing about the heaps. -/
private theorem Represents.with_dying (rep : Represents mem world) (dying : Bool) :
    Represents { mem with dying } world where
  holds := by
    intro bh p placed
    have before := rep.holds bh p placed
    exact { before with blocks := fun x listed => (before.blocks x listed).of_eq rfl rfl rfl }
  separate := rep.separate
  unused := rep.unused
  registered := rep.registered
  once := rep.once

variable [Zeros β] {os : BlockAnswer}

/-- The same part of `blockheap_alloc` on sequences. -/
private def reserve (bh : Balloc.BlockHeap β) (os : Balloc.BlockEnv) : Option (Balloc.BlockHeap β × Bool) :=
  if bh.freeElems = 0 then
    (Balloc.blockheapBlockNew bh os).bind fun new =>
      if new.1 ≠ 0 then
        some (Balloc.blockheapGarbagecollect new.2, decide ((Balloc.blockheapGarbagecollect new.2).freeElems = 0))
      else some (new.2, false)
  else some (bh, false)

private theorem blockheapAlloc_reserve {bh bh' : Balloc.BlockHeap β} {os : Balloc.BlockEnv} {dying : Bool}
    (reserved : reserve bh os = some (bh', dying)) {found : Option Balloc.MemBlock} {base : List (Balloc.Block β)}
    (walk : Balloc.allocWalk (Zeros.zeros bh'.elemSize) bh'.base = some (found, base)) :
    Balloc.blockheapAlloc bh os = some (found.elim ⟨none, bh', true⟩
      fun m => ⟨some m, { bh' with freeElems := bh'.freeElems - 1, base }, dying⟩) := by
  unfold reserve at reserved
  unfold Balloc.blockheapAlloc
  by_cases empty : bh.freeElems = 0
  · rw [if_pos empty] at reserved
    obtain ⟨⟨code, new⟩, ran, reserved⟩ := Option.bind_eq_some_iff.mp reserved
    simp only [if_pos empty, ran, bind, Option.bind_some]
    dsimp only at reserved
    split at reserved
    · next failed =>
      cases reserved
      simp only [if_pos failed, walk, Option.bind_some]
      cases found <;> rfl
    · next succeeded =>
      cases reserved
      simp only [if_neg succeeded, walk, Option.bind_some]
      cases found <;> rfl
  · rw [if_neg empty] at reserved
    cases reserved
    simp only [if_neg empty, bind, Option.bind_some, walk]
    cases found <;> rfl

/-- The part before the search, in memory and on sequences. -/
private theorem Represents.reserve (rep : Represents mem world) (placed : world bh = some p)
    (lawful : os.Lawful mem p.sizes.allocSize) :
    ∃ mem' p' dying, allocReserve bh os p.record mem = some mem' ∧
      BallocMemory.reserve p.heap os.env = some (p'.heap, dying) ∧
      p'.sizes = p.sizes ∧ Represents mem' (Function.update world bh (some p')) ∧
      (∀ m, m ∈ p'.heap.allocated ↔ m ∈ p.heap.allocated) ∧
      mem'.heapLists = mem.heapLists ∧ mem'.dying = (mem.dying || dying) := by
  have holds := rep.holds bh p placed
  unfold allocReserve BallocMemory.reserve
  by_cases empty : p.freeElems = 0
  · rw [if_pos (show p.record.freeElems = 0 from empty), if_pos (show p.heap.freeElems = 0 from empty)]
    by_cases succeeds : ∃ a elems, os.calloc = some a ∧ os.mmap = some elems
    · obtain ⟨a, elems, calloc, mmap⟩ := succeeds
      obtain ⟨mem', ran, rep', registry, dying⟩ := rep.blockNew placed lawful calloc mmap
      have ran' : Balloc.blockheapBlockNew p.heap os.env = some (0, p.heap.grown elems.toNat) := by
        apply Balloc.blockheapBlockNew_succeeds (p.heap_fits holds.fits)
        · simp [BlockAnswer.env, calloc]
        · simp [BlockAnswer.env, mmap]
      refine ⟨mem', p.grown a elems, false, ?_, ?_, rfl, rep', ?_, registry, ?_⟩
      · simp [ran]
      · simp [ran', p.grown_heap]
      · intro m
        simp [Balloc.mem_allocated, Placed.heap, Placed.grown, Balloc.BlockHeap.freshBlock]
      · simp [dying]
    · have ran : blockheapBlockNew bh os mem = some (1, mem) := by
        unfold blockheapBlockNew
        cases calloc : os.calloc with
        | none => rfl
        | some a =>
          cases mmap : os.mmap with
          | none => simp [holds.record]
          | some elems => exact (succeeds ⟨a, elems, calloc, mmap⟩).elim
      have ran' : Balloc.blockheapBlockNew p.heap os.env = some (1, p.heap) := by
        apply Balloc.blockheapBlockNew_failed
        rintro ⟨calloc, mmap⟩
        obtain ⟨a, calloc⟩ := Option.isSome_iff_exists.mp calloc
        obtain ⟨start, mmap⟩ := Option.isSome_iff_exists.mp mmap
        obtain ⟨elems, mmap, -⟩ := Option.map_eq_some_iff.mp mmap
        exact succeeds ⟨a, elems, calloc, mmap⟩
      obtain ⟨mem', p', collect, collect', sizes, rep', allocated, registry, dying⟩ := rep.garbagecollect placed
      have record := (rep'.holds bh p' (Function.update_self ..)).record
      refine ⟨_, p', decide (p'.freeElems = 0), ?_, ?_, sizes, rep'.with_dying (mem'.dying || decide (p'.freeElems = 0)),
        allocated, registry, ?_⟩
      · simp only [ran, bind, Option.bind_some, collect, record]
        rfl
      · simp only [ran', Option.bind_some, ← collect']
        rfl
      · rw [dying]
  · rw [if_neg (show ¬ p.record.freeElems = 0 from empty), if_neg (show ¬ p.heap.freeElems = 0 from empty)]
    refine ⟨mem, p, false, rfl, rfl, rfl, ?_, fun _ => Iff.rfl, rfl, by simp⟩
    rw [← placed, Function.update_eq_self]
    exact rep

omit [Zeros β] in
/-- The heap after an element was handed out. -/
def Placed.handedOut (p : Placed β) (before : List (Address × Balloc.Block β)) (a : Address) (b : Balloc.Block β)
    (after : List (Address × Balloc.Block β)) (m : Balloc.MemBlock) (zero : β) : Placed β :=
  { p with freeElems := p.freeElems - 1, blocks := before ++ (a, b.handOut m zero) :: after }

omit [Zeros β] in
private theorem Placed.mem_handedOut {before after : List (Address × Balloc.Block β)} {a : Address} {b : Balloc.Block β}
    (chain : p.blocks = before ++ (a, b) :: after) {m other : Balloc.MemBlock} (zero : β) :
    other ∈ (p.handedOut before a b after m zero).heap.allocated ↔ m = other ∨ other ∈ p.heap.allocated := by
  simp only [Balloc.mem_allocated, Placed.heap, Placed.handedOut, chain, List.map_append, List.map_cons, List.mem_append,
    List.mem_cons]
  constructor
  · rintro ⟨b', early | rfl | late, used⟩
    · exact .inr ⟨b', .inl early, used⟩
    · rcases List.mem_cons.mp used with rfl | used
      · exact .inl rfl
      · exact .inr ⟨b, .inr (.inl rfl), used⟩
    · exact .inr ⟨b', .inr (.inr late), used⟩
  · rintro (rfl | ⟨b', early | rfl | late, used⟩)
    · exact ⟨_, .inr (.inl rfl), List.mem_cons_self ..⟩
    · exact ⟨b', .inl early, used⟩
    · exact ⟨_, .inr (.inl rfl), List.mem_cons_of_mem _ used⟩
    · exact ⟨b', .inr (.inr late), used⟩

/-- `blockheap_alloc` in memory and on sequences. -/
theorem Represents.alloc (rep : Represents mem world) (placed : world bh = some p)
    (lawful : os.Lawful mem p.sizes.allocSize) :
    ∃ result mem' p', blockheapAlloc bh os mem = some (result.ptr.map p.sizes.element, mem') ∧
      Balloc.blockheapAlloc p.heap os.env = some result ∧ result.heap = p'.heap ∧ p'.sizes = p.sizes ∧
      Represents mem' (Function.update world bh (some p')) ∧
      (∀ m, m ∈ p'.heap.allocated ↔ result.ptr = some m ∨ m ∈ p.heap.allocated) ∧
      mem'.heapLists = mem.heapLists ∧ mem'.dying = (mem.dying || result.dying) := by
  have record := (rep.holds bh p placed).record
  obtain ⟨mem₁, p₁, dying₁, ran₁, reserved, sizes, rep₁, allocated₁, registry₁, flag₁⟩ := rep.reserve placed lawful
  have placed₁ : Function.update world bh (some p₁) bh = some p₁ := Function.update_self ..
  have holds₁ := rep₁.holds bh p₁ placed₁
  have elemSize : p₁.record.elemSize = p₁.sizes.elemSize := rfl
  have base : p₁.record.base = p₁.blocks.map Prod.fst := rfl
  rcases allocWalk_spec holds₁.fits (Zeros.zeros p₁.sizes.elemSize : β) p₁.blocks holds₁.blocks with
    ⟨walk, walk'⟩ | ⟨before, a, b, after, m, mem₂, chain, member, walk, walk', changed, spares, heaps, registry, flag⟩
  · refine ⟨⟨none, p₁.heap, true⟩, { mem₁ with dying := true }, p₁, ?_, blockheapAlloc_reserve reserved walk', rfl, sizes,
      rep₁.with_dying true, ?_, registry₁, by simp⟩
    · simp only [blockheapAlloc, record, bind, Option.bind_some, ran₁, holds₁.record, elemSize, base, walk, Option.map_none]
    · intro m
      simp [allocated₁]
  · have ground : (b.handOut m (Zeros.zeros p₁.sizes.elemSize : β)).region = b.region := rfl
    obtain ⟨mem₃, step⟩ : ∃ mem₃ : Memory, mem₃ = { mem₂ with
      heaps := Function.update mem₂.heaps bh (some { p₁.record with freeElems := p₁.freeElems - 1 }) } := ⟨_, rfl⟩
    have changed' : BlockHolds mem₃ p₁.sizes (a, b.handOut m (Zeros.zeros p₁.sizes.elemSize)) :=
      changed.of_eq (by rw [step]) (by rw [step]) (by rw [step])
    have spares' : Spares mem₁ mem₃ (a, b) := by
      subst step
      exact ⟨spares.blocks, spares.headers, spares.areas⟩
    have rep₂ := rep₁.replace placed₁ chain ground spares' changed' (p₁.freeElems - 1) (by rw [step, heaps])
      (by rw [step, registry])
    rw [Function.update_idem] at rep₂
    refine ⟨_, mem₃, p₁.handedOut before a b after m (Zeros.zeros p₁.sizes.elemSize), ?_,
      blockheapAlloc_reserve reserved walk', rfl, sizes, rep₂, ?_, ?_, ?_⟩
    · rw [← sizes]
      simp only [blockheapAlloc, record, bind, Option.bind_some, ran₁, holds₁.record, elemSize, base, walk, step]
      rfl
    · intro other
      rw [Placed.mem_handedOut chain, allocated₁]
      simp
    · rw [step]
      exact registry.trans registry₁
    · rw [step]
      exact flag.trans flag₁

omit [Zeros β] in
/-- `blockheap_destroy`: the heap and its blocks are gone, the others stay. -/
theorem Represents.destroy (rep : Represents mem world) (placed : world bh = some p) :
    ∃ mem', blockheapDestroy bh mem = some mem' ∧ Represents mem' (Function.update world bh none) := by
  have holds := rep.holds bh p placed
  obtain ⟨mem', walk, keeps, heaps, registry⟩ := destroyWalk_spec holds.fits p.blocks holds.blocks holds.distinct
  have base : p.record.base = p.blocks.map Prod.fst := rfl
  refine ⟨{ mem' with heapLists := mem'.heapLists.erase bh, heaps := Function.update mem'.heaps bh none }, ?_, ?_⟩
  · simp only [blockheapDestroy, holds.record, bind, Option.bind_some, base, walk]
  · refine { holds := ?_, separate := ?_, unused := ?_, registered := ?_, once := ?_ }
    · intro other q found
      obtain ⟨different, found⟩ := update_none_eq_some.mp found
      have theirs := rep.holds other q found
      refine { theirs with record := ?_, blocks := ?_ }
      · dsimp only
        rw [Function.update_of_ne different, heaps]
        exact theirs.record
      · intro y listed
        refine (keeps q.sizes y theirs.fits ?_ (theirs.blocks y listed)).of_eq rfl rfl rfl
        intro x present
        exact rep.separate bh p other q different.symm placed found x present y listed
    · intro first q second q' different found found'
      obtain ⟨-, found⟩ := update_none_eq_some.mp found
      obtain ⟨-, found'⟩ := update_none_eq_some.mp found'
      exact rep.separate first q second q' different found found'
    · intro other absent
      by_cases here : other = bh
      · rw [here]
        exact Function.update_self ..
      · rw [Function.update_of_ne here] at absent
        dsimp only
        rw [Function.update_of_ne here, heaps]
        exact rep.unused other absent
    · intro r listed
      dsimp only at listed
      rw [registry, rep.once.mem_erase_iff] at listed
      rw [Function.update_of_ne listed.1]
      exact rep.registered r listed.2
    · dsimp only
      rw [registry]
      exact rep.once.erase bh

/-! ## Creation -/

omit [Zeros β] in
/-- The heap record before its first block. -/
def Placed.empty (elemsize : UInt64) (elemsperblock : Int32) : Placed β where
  sizes := ⟨padElemSize elemsize, elemsperblock.toInt64.toUInt64⟩
  blocksAllocated := 0
  freeElems := 0
  blocks := []

omit [Zeros β] in
private theorem Represents.with_empty (rep : Represents mem world) (bh : Address) {elemsize : UInt64} {elemsperblock : Int32}
    (fits : (Placed.empty elemsize elemsperblock : Placed β).sizes.Fits) (dying : Bool) :
    Represents { mem with
      heaps := Function.update mem.heaps bh (some (Placed.empty elemsize elemsperblock : Placed β).record), dying }
      (Function.update world bh (some (Placed.empty elemsize elemsperblock))) := by
  refine rep.update ?_ ?_ ?_ ?_ rfl
  · exact { record := Function.update_self .., fits := fits, blocks := by simp [Placed.empty], distinct := .nil }
  · intro other different
    exact Function.update_of_ne different ..
  · intro other q different found y listed
    exact ((rep.holds other q found).blocks y listed).of_eq rfl rfl rfl
  · intro other q different found x listed
    contradiction

omit [Zeros β] in
private theorem Represents.with_registered (rep : Represents mem world) (placed : world bh = some p)
    (fresh : bh ∉ mem.heapLists) : Represents { mem with heapLists := bh :: mem.heapLists } world where
  holds := by
    intro other q found
    have before := rep.holds other q found
    exact { before with blocks := fun x listed => (before.blocks x listed).of_eq rfl rfl rfl }
  separate := rep.separate
  unused := rep.unused
  registered := List.forall_mem_cons.mpr ⟨⟨p, placed⟩, rep.registered⟩
  once := List.nodup_cons.mpr ⟨fresh, rep.once⟩

/-- `blockheap_create` when the record and the first block can be had, and the elements fit. -/
theorem Represents.create (rep : Represents mem world) {elemsize : UInt64} {elemsperblock : Int32}
    (fits : (Placed.empty elemsize elemsperblock : Placed β).sizes.Fits) (fresh : mem.heaps bh = none)
    (lawful : os.Lawful mem (Placed.empty elemsize elemsperblock : Placed β).sizes.allocSize) {a elems : Address}
    (calloc : os.calloc = some a) (mmap : os.mmap = some elems) :
    ∃ mem', blockheapCreate elemsize elemsperblock (some bh) os mem = some (bh, mem') ∧
      Represents mem' (Function.update world bh (some ((Placed.empty elemsize elemsperblock).grown a elems))) := by
  have absent : bh ∉ mem.heapLists := by
    intro listed
    obtain ⟨q, found⟩ := rep.registered bh listed
    rw [(rep.holds bh q found).record] at fresh
    contradiction
  have rep₁ := rep.with_empty bh fits (mem.dying || decide (elemsize ≤ 0 ∨ elemsperblock ≤ 0))
  have lawful₁ : os.Lawful { mem with
      heaps := Function.update mem.heaps bh (some (Placed.empty elemsize elemsperblock : Placed β).record)
      dying := mem.dying || decide (elemsize ≤ 0 ∨ elemsperblock ≤ 0) }
      (Placed.empty elemsize elemsperblock : Placed β).sizes.allocSize :=
    ⟨lawful.calloc, lawful.nonempty, lawful.inside, lawful.apart⟩
  obtain ⟨mem₂, ran, rep₂, registry, -⟩ := rep₁.blockNew (Function.update_self ..) lawful₁ calloc mmap
  rw [Function.update_idem] at rep₂
  have ran' : blockheapBlockNew bh os { mem with
      heaps := Function.update mem.heaps bh (some (emptyHeap elemsize elemsperblock))
      dying := mem.dying || decide (elemsize ≤ 0 ∨ elemsperblock ≤ 0) } = some (0, mem₂) := ran
  refine ⟨_, ?_, rep₂.with_registered (Function.update_self ..) (by rw [registry]; exact absent)⟩
  simp only [blockheapCreate, bind, Option.bind_some, ran', if_pos]

omit [Zeros β] in
/-- A creation that came to an end is one of these. -/
theorem blockheapCreate_fits {elemsize : UInt64} {elemsperblock : Int32} {r : Address} {mem' : Memory}
    (lawful : os.Lawful mem (Placed.empty elemsize elemsperblock : Placed β).sizes.allocSize)
    (ran : blockheapCreate elemsize elemsperblock (some bh) os mem = some (r, mem')) :
    (Placed.empty elemsize elemsperblock : Placed β).sizes.Fits ∧
      ∃ a elems, os.calloc = some a ∧ os.mmap = some elems := by
  simp only [blockheapCreate, bind, Option.bind_some, Option.bind_eq_some_iff] at ran
  obtain ⟨⟨code, mem₁⟩, new, ran⟩ := ran
  have zero : code = 0 := by
    by_contra other
    rw [if_neg other] at ran
    contradiction
  unfold blockheapBlockNew at new
  cases calloc : os.calloc with
  | none =>
    rw [calloc] at new
    cases new
    contradiction
  | some a =>
    cases mmap : os.mmap with
    | none =>
      simp only [calloc, mmap, Function.update_self, bind, Option.bind_some] at new
      cases new
      contradiction
    | some elems =>
      refine ⟨?_, a, elems, rfl, rfl⟩
      simp only [calloc, mmap, Function.update_self, bind, Option.bind_some, Option.bind_eq_some_iff] at new
      obtain ⟨result, setup, -⟩ := new
      have bound := lawful.inside elems mmap
      have total := setupLoop_fits (s := (Placed.empty elemsize elemsperblock : Placed β).sizes) bound setup
        (Nat.le_add_right _ _)
      exact Nat.le_of_add_le_add_left total

end Operations

end FsPkg.BallocMemory
