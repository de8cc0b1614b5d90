import FsPkg.Machine.Allocator
import FsPkg.Machine.Run
import FsPkg.Proofs.BallocSpec

/-! # Runs of the block allocator

Clients allocate, free what they hold, store into it, and the collector runs at any point; each
request for a new block may succeed or fail. The invariant holds along every run from a created
heap, and forgetting everything but the live contents maps the run to one of the abstract
allocator, with the collector's steps mapped to nothing.
-/

namespace FsPkg.Balloc

open Machine

variable {β : Type} [Zeros β]

/-- One call on a heap, with its result where the caller sees one. -/
inductive HeapEvent (β : Type) where
  | alloc (os : BlockEnv) (result : Option MemBlock)
  | free (ptr : MemBlock)
  | write (ptr : MemBlock) (value : β)
  | garbagecollect

/-- Frees and stores are of elements the client holds; the system answers lawfully. -/
inductive HeapStep : BlockHeap β → HeapEvent β → BlockHeap β → Prop
  | alloc {bh : BlockHeap β} {os : BlockEnv} {result : AllocResult β} (lawful : os.Lawful bh)
      (ran : blockheapAlloc bh os = some result) : HeapStep bh (.alloc os result.ptr) result.heap
  | free {bh heap : BlockHeap β} {ptr : MemBlock} {code : ℕ} (held : ptr ∈ bh.allocated)
      (ran : blockheapFree bh (some ptr) = some (code, heap)) : HeapStep bh (.free ptr) heap
  | write {bh heap : BlockHeap β} {ptr : MemBlock} {value : β} (held : ptr ∈ bh.allocated)
      (ran : bh.write ptr value = some heap) : HeapStep bh (.write ptr value) heap
  | garbagecollect {bh : BlockHeap β} : HeapStep bh .garbagecollect (blockheapGarbagecollect bh)

/-- A heap that `blockheap_create` returned. -/
def Created (elemsize : UInt64) (elemsperblock : Int32) (bh : BlockHeap β) : Prop :=
  ∃ calloc os, os.Lawful (emptyHeap (β := β) elemsize elemsperblock) ∧
    blockheapCreate elemsize elemsperblock calloc os = some bh

omit [Zeros β] in
theorem emptyHeap_elemsPerBlock (elemsize : UInt64) {elemsperblock : Int32} (sensible : 1 ≤ elemsperblock) :
    ((emptyHeap elemsize elemsperblock : BlockHeap β).elemsPerBlock.toNat : ℤ) = elemsperblock.toInt := by
  have bound : 1 ≤ elemsperblock.toInt := Int32.le_iff_toInt_le.mp sensible
  have nonneg : (0 : Int64) ≤ elemsperblock.toInt64 := by
    rw [Int64.le_iff_toInt_le, Int32.toInt_toInt64]
    exact le_trans (by decide) bound
  change ((elemsperblock.toInt64.toUInt64.toNat : ℕ) : ℤ) = _
  rw [Int64.toNat_toUInt64_of_le nonneg, Int32.toNatClampNeg_toInt64]
  exact Int.toNat_of_nonneg (by omega)

/-- A created heap is the empty one with a first block, which fits its area. -/
theorem Created.first_block {elemsize : UInt64} {elemsperblock : Int32} {bh : BlockHeap β}
    (created : Created elemsize elemsperblock bh) :
    ∃ elems, bh = (emptyHeap elemsize elemsperblock).grown elems ∧
      bh.elemsPerBlock.toNat * bh.stride ≤ bh.allocSize.toNat ∧ elems + bh.allocSize.toNat ≤ 2 ^ 64 := by
  obtain ⟨calloc, os, lawful, ran⟩ := created
  have success : blockheapBlockNew (emptyHeap elemsize elemsperblock) os = some (0, bh) := by
    cases calloc with
    | false => simp [blockheapCreate] at ran
    | true =>
      simp only [blockheapCreate, Bool.not_true, Bool.false_eq_true, ↓reduceIte, bind,
        Option.bind_eq_some_iff] at ran
      obtain ⟨⟨code, heap⟩, new, ran⟩ := ran
      dsimp only at ran
      split at ran
      · next zero => rw [new, zero, Option.some.inj ran]
      · contradiction
  obtain ⟨fits, -, elems, mmap, rfl⟩ := blockheapBlockNew_zero success
  exact ⟨elems, rfl, fits, (lawful elems mmap).1⟩

/-- A created heap has its one block, and nothing is handed out yet. -/
theorem Created.invariant {elemsize : UInt64} {elemsperblock : Int32} {bh : BlockHeap β}
    (created : Created elemsize elemsperblock bh) (sensible : 1 ≤ elemsperblock) :
    Invariant bh ∧ (bh.elemsPerBlock.toNat : ℤ) = elemsperblock.toInt ∧
      bh.elemSize = padElemSize elemsize ∧ bh.live = fun _ => none := by
  have count := emptyHeap_elemsPerBlock (β := β) elemsize sensible
  have bound : 1 ≤ elemsperblock.toInt := Int32.le_iff_toInt_le.mp sensible
  have positive : 0 < (emptyHeap elemsize elemsperblock : BlockHeap β).elemsPerBlock.toNat := by omega
  obtain ⟨elems, rfl, fits, inside⟩ := created.first_block
  have empty : Invariant (emptyHeap elemsize elemsperblock : BlockHeap β) :=
    { positive, fits, partitioned := by simp [emptyHeap], sized := by simp [emptyHeap],
      inside := by simp [emptyHeap], apart := by simp [emptyHeap], blocks := rfl, free := rfl }
  have inv := empty.grown inside (by simp [emptyHeap])
  refine ⟨inv, count, rfl, ?_⟩
  rw [empty.live_grown inv]
  funext ptr
  rw [empty.live_none_iff]
  simp [BlockHeap.allocated, emptyHeap]

theorem Created.allocated {elemsize : UInt64} {elemsperblock : Int32} {bh : BlockHeap β}
    (created : Created elemsize elemsperblock bh) (sensible : 1 ≤ elemsperblock) : bh.allocated = [] := by
  obtain ⟨inv, -, -, nothing⟩ := created.invariant sensible
  apply List.eq_nil_iff_forall_not_mem.mpr
  intro ptr
  rw [← inv.live_none_iff, nothing]

theorem Created.one_block {elemsize : UInt64} {elemsperblock : Int32} {bh : BlockHeap β}
    (created : Created elemsize elemsperblock bh) : bh.base.length = 1 := by
  obtain ⟨elems, rfl, -⟩ := created.first_block
  rfl

/-- What one call does to a heap in its invariant, seen through the live contents. -/
theorem HeapStep.spec {bh heap : BlockHeap β} {event : HeapEvent β} (step : HeapStep bh event heap)
    (inv : Invariant bh) :
    Invariant heap ∧ heap.elemSize = bh.elemSize ∧ heap.elemsPerBlock = bh.elemsPerBlock ∧
      match event with
      | .alloc _ none => heap.live = bh.live
      | .alloc _ (some ptr) => bh.live ptr = none ∧
          heap.live = Function.update bh.live ptr (some (Zeros.zeros bh.elemSize))
      | .free ptr => bh.live ptr ≠ none ∧ heap.live = Function.update bh.live ptr none
      | .write ptr value => bh.live ptr ≠ none ∧ heap.live = Function.update bh.live ptr (some value)
      | .garbagecollect => heap.live = bh.live := by
  cases step with
  | alloc lawful ran =>
    rcases inv.alloc_spec lawful with ⟨-, -, failed⟩ | ⟨ptr, next, -, ok, kept, size, count, fresh, live, -⟩
    · rw [failed] at ran
      cases ran
      exact ⟨inv, rfl, rfl, rfl⟩
    · rw [ok] at ran
      cases ran
      exact ⟨kept, size, count, fresh, live⟩
  | free held ran =>
    obtain ⟨next, ok, kept, size, count, live, -⟩ := inv.free_spec held
    rw [ok] at ran
    cases ran
    exact ⟨kept, size, count, fun none => inv.live_none_iff.mp none held, live⟩
  | write held ran =>
    obtain ⟨next, ok, kept, size, count, live, -⟩ := inv.write_spec held _
    rw [ok] at ran
    cases ran
    exact ⟨kept, size, count, fun none => inv.live_none_iff.mp none held, live⟩
  | garbagecollect =>
    obtain ⟨kept, size, count, live, -⟩ := inv.gc_spec
    exact ⟨kept, size, count, live⟩

section Reachable

variable {elemsize : UInt64} {elemsperblock : Int32} {bh₀ bh : BlockHeap β} {events : List (HeapEvent β)}

/-- The invariant and the heap's sizes along a run. -/
theorem run_invariant (sensible : 1 ≤ elemsperblock) (created : Created elemsize elemsperblock bh₀)
    (run : Run HeapStep bh₀ events bh) :
    Invariant bh ∧ bh.elemSize = padElemSize elemsize ∧
      (bh.elemsPerBlock.toNat : ℤ) = elemsperblock.toInt := by
  obtain ⟨initial, count, size, -⟩ := created.invariant sensible
  refine run.invariant (I := fun heap => Invariant heap ∧ heap.elemSize = padElemSize elemsize ∧
    (heap.elemsPerBlock.toNat : ℤ) = elemsperblock.toInt) ⟨initial, size, count⟩ ?_
  rintro source event target ⟨inv, size, count⟩ step
  obtain ⟨kept, sameSize, sameCount, -⟩ := step.spec inv
  exact ⟨kept, sameSize.trans size, by rw [sameCount, count]⟩

/-- In every state of every run the three counters agree with the chain, each element is on exactly
one list of its block, and no unsigned subtraction of the allocator wraps. -/
theorem blockheap_representation (sensible : 1 ≤ elemsperblock)
    (created : Created elemsize elemsperblock bh₀) (run : Run HeapStep bh₀ events bh) :
    bh.blocksAllocated.toNat = bh.base.length ∧
    (∀ b ∈ bh.base,
      (b.freeList.nodes ++ b.usedList.nodes).Perm (slots b.elems bh.elemsPerBlock.toNat) ∧
      b.freeList.length.toNat = b.freeList.nodes.length ∧
      b.usedList.length.toNat = b.usedList.nodes.length ∧
      (b.freeList.length.toNat + b.usedList.length.toNat : ℕ) = elemsperblock.toInt) ∧
    bh.freeElems.toNat = (bh.base.map (·.freeList.length.toNat)).sum ∧
    -- `bh->freeElems--`, after a new block or not
    (∀ os : BlockEnv, os.Lawful bh → ∃ result, blockheapAlloc bh os = some result ∧
      (result.ptr.isSome → result.heap.freeElems.toNat + 1 =
        if bh.freeElems = 0 then bh.elemsPerBlock.toNat else bh.freeElems.toNat)) ∧
    (∀ ptr ∈ bh.allocated, ∃ heap, blockheapFree bh (some ptr) = some (0, heap)) ∧
    -- `bh->blocksAllocated--` and `bh->freeElems -= bh->elemsPerBlock`, once per removed block
    (∃ removed, (blockheapGarbagecollect bh).base.length + removed = bh.base.length ∧
      (blockheapGarbagecollect bh).blocksAllocated.toNat + removed = bh.blocksAllocated.toNat ∧
      (blockheapGarbagecollect bh).freeElems.toNat + removed * bh.elemsPerBlock.toNat =
        bh.freeElems.toNat) ∧
    -- `(bh->blocksAllocated * bh->elemsPerBlock) - bh->freeElems`
    bh.freeElems.toNat ≤ bh.blocksAllocated.toNat * bh.elemsPerBlock.toNat ∧
    bh.blocksAllocated.toNat * bh.elemsPerBlock.toNat < 2 ^ 64 ∧
    (blockheapUsage bh).1.toNat = bh.allocated.length ∧ bh.allocated.Nodup := by
  obtain ⟨inv, -, count⟩ := run_invariant sensible created run
  have capacity := inv.capacity
  have total := inv.free_add_allocated
  have below := inv.freeElems_le
  rw [← inv.blocks] at capacity total below
  refine ⟨inv.blocks, ?_, ?_, ?_, ?_, ?_, below, capacity, ?_, inv.allocated_nodup⟩
  · intro b member
    have part := inv.partitioned b member
    refine ⟨part.perm, part.free, part.used, ?_⟩
    rw [part.free, part.used, part.length_add, count]
  · rw [inv.free]
    congr 1
    exact List.map_congr_left fun b member => ((inv.partitioned b member).free).symm
  · intro os lawful
    rcases inv.alloc_spec lawful with ⟨-, -, failed⟩ | ⟨ptr, heap, -, ok, -, -, -, -, -, dec⟩
    · exact ⟨_, failed, by simp⟩
    · exact ⟨_, ok, fun _ => dec⟩
  · intro ptr held
    obtain ⟨heap, ok, -⟩ := inv.free_spec held
    exact ⟨heap, ok⟩
  · obtain ⟨-, -, -, -, -, -, removed⟩ := inv.gc_spec
    exact removed
  · have product : (bh.blocksAllocated * bh.elemsPerBlock).toNat =
        bh.blocksAllocated.toNat * bh.elemsPerBlock.toNat := by
      rw [UInt64.toNat_mul]
      exact Nat.mod_eq_of_lt capacity
    have le : bh.freeElems ≤ bh.blocksAllocated * bh.elemsPerBlock := by
      rw [UInt64.le_iff_toNat_le, product]
      exact below
    simp only [blockheapUsage]
    rw [UInt64.toNat_sub_of_le _ _ le, product]
    omega

end Reachable

/-! ## A concrete heap -/

/-- What a call leaves, if it is one that a run can make. -/
def HeapEvent.exec (bh : BlockHeap β) : HeapEvent β → Option (BlockHeap β)
  | .alloc os result =>
    if os.Lawful bh then
      (blockheapAlloc bh os).bind fun given => if given.ptr = result then some given.heap else none
    else none
  | .free ptr => if ptr ∈ bh.allocated then (blockheapFree bh (some ptr)).map Prod.snd else none
  | .write ptr value => if ptr ∈ bh.allocated then bh.write ptr value else none
  | .garbagecollect => some (blockheapGarbagecollect bh)

theorem HeapEvent.step_of_exec {bh heap : BlockHeap β} {event : HeapEvent β} (ran : event.exec bh = some heap) :
    HeapStep bh event heap := by
  cases event with
  | alloc os result =>
    simp only [exec] at ran
    split_ifs at ran with lawful
    obtain ⟨given, ok, same⟩ := Option.bind_eq_some_iff.mp ran
    split_ifs at same with result
    obtain rfl := Option.some.inj same
    exact result ▸ .alloc lawful ok
  | free ptr =>
    simp only [exec] at ran
    split_ifs at ran with held
    obtain ⟨⟨code, next⟩, ok, rfl⟩ := Option.map_eq_some_iff.mp ran
    exact .free held ok
  | write ptr value =>
    simp only [exec] at ran
    split_ifs at ran with held
    exact .write held ran
  | garbagecollect =>
    obtain rfl := Option.some.inj ran
    exact .garbagecollect

/-- Two elements of five bytes per block, padded to eight. -/
def smallHeap : BlockHeap (List UInt8) := (emptyHeap 5 2).grown 4096

theorem smallHeap_created : Created 5 2 smallHeap := by
  exact ⟨true, ⟨true, some 4096⟩, emptyHeap_lawful true (by decide), rfl⟩

/-- A block is filled, another one is added for one more element, and the first is freed again. -/
def smallCalls : List (HeapEvent (List UInt8)) :=
  [.alloc ⟨true, none⟩ (some ⟨4096, 1⟩), .alloc ⟨true, none⟩ (some ⟨4096, 0⟩),
    .alloc ⟨true, some 8192⟩ (some ⟨8192, 1⟩), .write ⟨8192, 1⟩ [1, 2, 3], .free ⟨4096, 1⟩, .free ⟨4096, 0⟩]

/-- Only the second block is in use then, and only that is kept by a collection. -/
theorem smallCalls_run : ∃ heap, Run HeapStep smallHeap smallCalls heap ∧ heap.base.length = 2 ∧
    heap.allocated = [⟨8192, 1⟩] ∧ (blockheapGarbagecollect heap).base.length = 1 := by
  have ran : (smallCalls.foldlM HeapEvent.exec smallHeap).map (fun heap => (heap.base.length, heap.allocated,
      (blockheapGarbagecollect heap).base.length)) = some (2, [⟨8192, 1⟩], 1) := by
    decide +kernel
  obtain ⟨heap, ran, seen⟩ := Option.map_eq_some_iff.mp ran
  simp only [Prod.mk.injEq] at seen
  exact ⟨heap, .of_foldlM (fun _ _ _ => HeapEvent.step_of_exec) ran, seen⟩

theorem blockheap_representation_small : ∃ heap, Run HeapStep smallHeap (smallCalls ++ [.garbagecollect]) heap ∧
    heap.base.length = 1 ∧ heap.blocksAllocated.toNat = heap.base.length ∧
      (blockheapUsage heap).1.toNat = heap.allocated.length := by
  obtain ⟨heap, run, -, -, length⟩ := smallCalls_run
  have run' := run.append (.single .garbagecollect)
  obtain ⟨blocks, -, -, -, -, -, -, -, used, -⟩ := blockheap_representation (by decide) smallHeap_created run'
  exact ⟨_, run', length, blocks, used⟩

/-! ## Refinement of the abstract allocator -/

/-- The abstract events a call stands for; a collection stands for none. -/
def HeapEvent.denotes : HeapEvent β → List (Allocator.Event MemBlock β)
  | .alloc _ none => [.exhausted]
  | .alloc _ (some ptr) => [.alloc ptr]
  | .free ptr => [.free ptr]
  | .write ptr value => [.write ptr value]
  | .garbagecollect => []

/-- The live contents of a heap are an abstract allocator, run by run. -/
theorem run_refines {elemsize : UInt64} {elemsperblock : Int32} {bh₀ bh : BlockHeap β}
    {events : List (HeapEvent β)} (sensible : 1 ≤ elemsperblock)
    (created : Created elemsize elemsperblock bh₀) (run : Run HeapStep bh₀ events bh) :
    Run (Allocator.Step (Zeros.zeros (padElemSize elemsize))) (fun _ => none)
      (events.flatMap HeapEvent.denotes) bh.live := by
  obtain ⟨initial, -, size, nothing⟩ := created.invariant sensible
  have matched (source : BlockHeap β) (event : HeapEvent β) (target : BlockHeap β)
      (step : HeapStep source event target) (store : MemBlock → Option β)
      (related : Invariant source ∧ source.elemSize = padElemSize elemsize ∧ source.live = store) :
      ∃ next, Run (Allocator.Step (Zeros.zeros (padElemSize elemsize))) store event.denotes next ∧
        Invariant target ∧ target.elemSize = padElemSize elemsize ∧ target.live = next := by
    obtain ⟨inv, size, rfl⟩ := related
    have spec := step.spec inv
    rw [size] at spec
    obtain ⟨kept, sameSize, -, effect⟩ := spec
    refine ⟨target.live, ?_, kept, sameSize, rfl⟩
    match event with
    | .alloc _ none =>
      rw [show target.live = source.live from effect]
      exact Run.single .exhausted
    | .alloc _ (some ptr) =>
      obtain ⟨fresh, live⟩ := effect
      rw [live]
      exact Run.single (.alloc fresh)
    | .free ptr =>
      obtain ⟨used, live⟩ := effect
      rw [live]
      exact Run.single (.free used)
    | .write ptr value =>
      obtain ⟨used, live⟩ := effect
      rw [live]
      exact Run.single (.write used)
    | .garbagecollect =>
      rw [show target.live = source.live from effect]
      exact Run.start
  obtain ⟨store, abstractRun, -, -, rfl⟩ := run.simulate _ _ ⟨initial, size, nothing⟩ matched
  exact abstractRun

/-- A client program: allocations are numbered in the order they are made, and later calls name
them by that number, so the same program makes sense whatever addresses it is given. -/
inductive ClientOp (β : Type) where
  | alloc
  | free (k : ℕ)
  | write (k : ℕ) (value : β)
  | garbagecollect

def ClientOp.isGarbagecollect : ClientOp β → Bool
  | .garbagecollect => true
  | _ => false

def ClientOp.isAlloc : ClientOp β → Bool
  | .alloc => true
  | _ => false

/-- A run of a client program while every request for a block succeeds. `given` are the results of
the allocations made so far; the last argument says for each further one whether it succeeded. -/
inductive Plays : BlockHeap β → List (Option MemBlock) → List (ClientOp β) → List Bool → Prop
  | done {bh : BlockHeap β} {given : List (Option MemBlock)} : Plays bh given [] []
  | alloc {bh : BlockHeap β} {given : List (Option MemBlock)} {os : BlockEnv} {result : AllocResult β}
      {ops : List (ClientOp β)} {outcomes : List Bool} (lawful : os.Lawful bh) (succeeds : os.Succeeds)
      (ran : blockheapAlloc bh os = some result)
      (rest : Plays result.heap (given ++ [result.ptr]) ops outcomes) :
      Plays bh given (.alloc :: ops) (result.ptr.isSome :: outcomes)
  | free {bh heap : BlockHeap β} {given : List (Option MemBlock)} {k code : ℕ} {ptr : MemBlock}
      {ops : List (ClientOp β)} {outcomes : List Bool} (named : given[k]? = some (some ptr))
      (held : ptr ∈ bh.allocated) (ran : blockheapFree bh (some ptr) = some (code, heap))
      (rest : Plays heap given ops outcomes) : Plays bh given (.free k :: ops) outcomes
  | write {bh heap : BlockHeap β} {given : List (Option MemBlock)} {k : ℕ} {ptr : MemBlock} {value : β}
      {ops : List (ClientOp β)} {outcomes : List Bool} (named : given[k]? = some (some ptr))
      (held : ptr ∈ bh.allocated) (ran : bh.write ptr value = some heap)
      (rest : Plays heap given ops outcomes) : Plays bh given (.write k value :: ops) outcomes
  | garbagecollect {bh : BlockHeap β} {given : List (Option MemBlock)} {ops : List (ClientOp β)}
      {outcomes : List Bool} (rest : Plays (blockheapGarbagecollect bh) given ops outcomes) :
      Plays bh given (.garbagecollect :: ops) outcomes

/-- While blocks can be had, every allocation of a program succeeds, whatever the collector does. -/
theorem Plays.all_succeed {bh : BlockHeap β} {given : List (Option MemBlock)} {ops : List (ClientOp β)}
    {outcomes : List Bool} (plays : Plays bh given ops outcomes) (inv : Invariant bh) :
    outcomes = List.replicate (ops.countP ClientOp.isAlloc) true := by
  induction plays with
  | done => rfl
  | alloc lawful succeeds ran rest ih =>
    rcases inv.alloc_spec lawful with ⟨-, failed, -⟩ | ⟨ptr, heap, -, ok, kept, -⟩
    · exact (failed succeeds).elim
    · rw [ok] at ran
      cases ran
      rw [ih kept, List.countP_cons_of_pos rfl, List.replicate_succ]
      rfl
  | free _ held ran _ ih => exact ih (HeapStep.spec (.free held ran) inv).1
  | write _ held ran _ ih => exact ih (HeapStep.spec (.write held ran) inv).1
  | garbagecollect _ ih => exact ih inv.gc_spec.1

omit [Zeros β] in
private theorem countP_alloc_eq (ops : List (ClientOp β)) :
    ops.countP ClientOp.isAlloc = (ops.filter (fun op => !op.isGarbagecollect)).countP ClientOp.isAlloc := by
  rw [List.countP_filter]
  congr 1
  funext op
  cases op <;> rfl

section Refinement

variable {elemsize : UInt64} {elemsperblock : Int32} {bh₀ bh : BlockHeap (List UInt8)}
  {events : List (HeapEvent (List UInt8))}

/-- Runs of the block heap are runs of the abstract allocator in which collections do not occur:
when an allocation fails, what it returns, what a free and a collection change, and that adding or
removing collections does not change which allocations of a client program succeed. -/
theorem blockheap_refines (sensible : 1 ≤ elemsperblock) (created : Created elemsize elemsperblock bh₀)
    (run : Run HeapStep bh₀ events bh) :
    Run (Allocator.Step (List.replicate bh.elemSize.toNat 0)) (fun _ => none)
      (events.flatMap HeapEvent.denotes) bh.live ∧
    (∀ os : BlockEnv, os.Lawful bh → ∃ result, blockheapAlloc bh os = some result ∧
      (result.ptr = none ↔ bh.freeElems = 0 ∧ blockheapBlockNew bh os = some (1, bh)) ∧
      ∀ ptr, result.ptr = some ptr → ptr ∉ bh.allocated ∧
        result.heap.read ptr = some (List.replicate bh.elemSize.toNat 0) ∧
        ∀ other, other ∈ result.heap.allocated ↔ other = ptr ∨ other ∈ bh.allocated) ∧
    (∀ ptr ∈ bh.allocated, ∃ heap, blockheapFree bh (some ptr) = some (0, heap) ∧
      (∀ other, other ∈ heap.allocated ↔ other ∈ bh.allocated ∧ other ≠ ptr) ∧
      ∀ other ∈ heap.allocated, heap.read other = bh.read other) ∧
    ((∀ ptr, ptr ∈ (blockheapGarbagecollect bh).allocated ↔ ptr ∈ bh.allocated) ∧
      (∀ ptr ∈ bh.allocated, (blockheapGarbagecollect bh).read ptr = bh.read ptr) ∧
      ∀ b ∈ bh.base, b.usedList.nodes ≠ [] → b ∈ (blockheapGarbagecollect bh).base) ∧
    ∀ (ops ops' : List (ClientOp (List UInt8))) (outcomes outcomes' : List Bool),
      ops.filter (fun op => !op.isGarbagecollect) = ops'.filter (fun op => !op.isGarbagecollect) →
      Plays bh [] ops outcomes → Plays bh [] ops' outcomes' → outcomes = outcomes' := by
  obtain ⟨inv, size, -⟩ := run_invariant sensible created run
  have zero : (Zeros.zeros bh.elemSize : List UInt8) = List.replicate bh.elemSize.toNat 0 := rfl
  refine ⟨?_, ?_, ?_, ⟨?_, ?_, ?_⟩, ?_⟩
  · rw [← zero, size]
    exact run_refines sensible created run
  · intro os lawful
    rcases inv.alloc_spec lawful with
      ⟨empty, failed, ran⟩ | ⟨ptr, heap, enough, ran, kept, -, -, fresh, live, -⟩
    · refine ⟨_, ran, ⟨fun _ => ⟨empty, blockheapBlockNew_failed failed⟩, fun _ => rfl⟩, by simp⟩
    · refine ⟨_, ran, ⟨by simp, ?_⟩, ?_⟩
      · rintro ⟨empty, failed⟩
        rcases enough with free | ⟨calloc, mapped⟩
        · exact (free empty).elim
        · obtain ⟨elems, mmap⟩ := Option.isSome_iff_exists.mp mapped
          rw [blockheapBlockNew_succeeds inv.fits calloc mmap] at failed
          cases failed
      · rintro other ⟨⟩
        have now : heap.live ptr = some (Zeros.zeros bh.elemSize) := by rw [live, Function.update_self]
        refine ⟨inv.live_none_iff.mp fresh, kept.read_of_live now, ?_⟩
        intro other
        rw [(inv.allocated_taken kept fresh live).mem_iff, List.mem_cons]
  · intro ptr held
    obtain ⟨heap, ran, kept, -, -, live, -⟩ := inv.free_spec held
    have members (other : MemBlock) : other ∈ heap.allocated ↔ other ∈ bh.allocated ∧ other ≠ ptr := by
      rw [kept.mem_allocated_iff, inv.mem_allocated_iff, live]
      by_cases same : other = ptr
      · simp [same]
      · simp [same]
    refine ⟨heap, ran, members, ?_⟩
    intro other held'
    obtain ⟨value, now⟩ := kept.mem_allocated_iff.mp held'
    have before : bh.live other = some value := by
      rw [live, Function.update_of_ne ((members other).mp held').2] at now
      exact now
    rw [kept.read_of_live now, inv.read_of_live before]
  · intro ptr
    obtain ⟨kept, -, -, live, -⟩ := inv.gc_spec
    rw [kept.mem_allocated_iff, inv.mem_allocated_iff, live]
  · intro ptr held
    obtain ⟨kept, -, -, live, -⟩ := inv.gc_spec
    obtain ⟨value, before⟩ := inv.mem_allocated_iff.mp held
    rw [inv.read_of_live before, kept.read_of_live (live ▸ before)]
  · obtain ⟨-, -, -, -, -, busy, -⟩ := inv.gc_spec
    exact busy
  · intro ops ops' outcomes outcomes' same plays plays'
    rw [plays.all_succeed inv, plays'.all_succeed inv, countP_alloc_eq ops, countP_alloc_eq ops', same]

end Refinement

theorem blockheap_refines_small : ∃ heap, Run HeapStep smallHeap smallCalls heap ∧
    (blockheapGarbagecollect heap).base.length < heap.base.length ∧
    Run (Allocator.Step (List.replicate heap.elemSize.toNat 0)) (fun _ => none)
      (smallCalls.flatMap HeapEvent.denotes) heap.live ∧
    ∀ ptr ∈ heap.allocated, (blockheapGarbagecollect heap).read ptr = heap.read ptr := by
  obtain ⟨heap, run, before, -, after⟩ := smallCalls_run
  obtain ⟨abstract, -, -, ⟨-, read, -⟩, -⟩ := blockheap_refines (by decide) smallHeap_created run
  exact ⟨heap, run, by rw [before, after]; decide, abstract, read⟩

end FsPkg.Balloc
