import FsPkg.Proofs.BallocMemoryWalks

/-! # Runs on a set of heaps

Heaps are created and destroyed, elements are handed out and taken back, and the timer collects, in any order. Which
pointers are handed out is recorded beside the memory, by the results of the calls alone. While only such pointers are
freed, and to the heap they came from, the memory represents a set of heaps in every state, each of these pointers leads
back to its header and its block, and `blockheap_free` does what its comment says for them. For all others it does not:
it has no check, and never returns 1 for them.
-/

namespace FsPkg.BallocMemory

open Machine Packing
open Balloc (slots mem_slots sizeofMemBlock padElemSize Zeros)

/-- The memory, and the heap and address of each element handed out and not yet freed. -/
structure System where
  memory : Memory := {}
  held : List (Address × Address) := []

/-- The calls, with the results that the callers see. -/
inductive CallEvent where
  | create (elemsize : UInt64) (elemsperblock : Int32) (bh : Address)
  | alloc (bh : Address) (ptr : Option Address)
  | free (bh ptr : Address)
  | gc
  | destroy (bh : Address)

/-- One call. What is freed is held from that heap; `calloc` returns records that are not in use, and the system answers
lawfully. -/
inductive CallStep : System → CallEvent → System → Prop
  | create {sys : System} {elemsize : UInt64} {elemsperblock : Int32} {bh : Address} {os : BlockAnswer} {mem : Memory}
      (fresh : sys.memory.heaps bh = none)
      (lawful : os.Lawful sys.memory (emptyHeap elemsize elemsperblock).sizes.allocSize)
      (ran : blockheapCreate elemsize elemsperblock (some bh) os sys.memory = some (bh, mem)) :
      CallStep sys (.create elemsize elemsperblock bh) { sys with memory := mem }
  | alloc {sys : System} {bh : Address} {heap : BlockHeap} {os : BlockAnswer} {ptr : Option Address} {mem : Memory}
      (found : sys.memory.heaps bh = some heap) (lawful : os.Lawful sys.memory heap.sizes.allocSize)
      (ran : blockheapAlloc bh os sys.memory = some (ptr, mem)) :
      CallStep sys (.alloc bh ptr) { memory := mem, held := (ptr.map (Prod.mk bh)).toList ++ sys.held }
  | free {sys : System} {bh ptr : Address} {code : ℕ} {mem : Memory} (held : (bh, ptr) ∈ sys.held)
      (ran : blockheapFree (some bh) (some ptr) sys.memory = some (code, mem)) :
      CallStep sys (.free bh ptr) { memory := mem, held := sys.held.filter (· ≠ (bh, ptr)) }
  | gc {sys : System} {mem : Memory} (ran : blockheapGc sys.memory = some mem) :
      CallStep sys .gc { sys with memory := mem }
  | destroy {sys : System} {bh : Address} {heap : BlockHeap} {mem : Memory} (found : sys.memory.heaps bh = some heap)
      (ran : blockheapDestroy bh sys.memory = some mem) :
      CallStep sys (.destroy bh) { memory := mem, held := sys.held.filter (·.1 ≠ bh) }

variable {β : Type}

/-! ## Elements and their addresses -/

/-- The pointer is an element that the heap has handed out. -/
def Handed (world : World β) (bh ptr : Address) : Prop :=
  ∃ p m, world bh = some p ∧ m ∈ p.heap.allocated ∧ ptr = p.sizes.element m

/-- The pointer is an element of one of the blocks of some heap, free or not. -/
def Element (world : World β) (ptr : Address) : Prop :=
  ∃ owner p x m, world owner = some p ∧ x ∈ p.blocks ∧ m ∈ slots x.2.elems p.sizes.elemsPerBlock.toNat ∧
    ptr = p.sizes.element m

section Elements

variable {mem : Memory} {world : World β} {bh ptr : Address} {p p' : Placed β}

/-- An element lies on its block's ground. -/
private theorem BlockHolds.element_inside {s : Sizes} {x : Address × Balloc.Block β} (holds : BlockHolds mem s x)
    (fits : s.Fits) {m : Balloc.MemBlock} (slot : m ∈ slots x.2.elems s.elemsPerBlock.toNat) :
    x.2.elems ≤ (s.element m).toNat - 32 ∧ 32 ≤ (s.element m).toNat ∧
      (s.element m).toNat + s.elemSize.toNat ≤ x.2.elems + s.allocSize.toNat := by
  have within := s.header_inside fits holds.inside slot
  have address := s.element_toNat fits holds.inside slot
  rw [s.stride_eq] at within
  omega

/-- Different elements of a heap have different addresses. -/
theorem HeapHolds.element_injective (holds : HeapHolds mem bh p) {m m' : Balloc.MemBlock} {x y : Address × Balloc.Block β}
    (listed : x ∈ p.blocks) (listed' : y ∈ p.blocks) (slot : m ∈ slots x.2.elems p.sizes.elemsPerBlock.toNat)
    (slot' : m' ∈ slots y.2.elems p.sizes.elemsPerBlock.toNat) (same : p.sizes.element m = p.sizes.element m') :
    m = m' := by
  have block := holds.blocks x listed
  have block' := holds.blocks y listed'
  by_cases here : x = y
  · subst here
    have headers := congrArg (· - sizeofMemBlock) same
    simp only [Sizes.element_sub] at headers
    exact p.sizes.header_injective holds.fits block.inside slot slot' headers
  · -- on the ground of two blocks at once
    exfalso
    have inside := block.element_inside holds.fits slot
    have inside' := block'.element_inside holds.fits slot'
    rw [← same] at inside'
    have apart := (holds.distinct.forall listed listed' here).2
    rw [block.region, block'.region] at apart
    have shared : x.2.elems ≤ (p.sizes.element m).toNat - 1 ∧
        (p.sizes.element m).toNat - 1 < x.2.elems + p.sizes.allocSize.toNat := by omega
    have shared' : y.2.elems ≤ (p.sizes.element m).toNat - 1 ∧
        (p.sizes.element m).toNat - 1 < y.2.elems + p.sizes.allocSize.toNat := by omega
    exact apart.not_both shared shared'

/-- The block and slot of an element that is handed out. -/
private theorem HeapHolds.slot_of_allocated (holds : HeapHolds mem bh p) {m : Balloc.MemBlock}
    (held : m ∈ p.heap.allocated) : ∃ x ∈ p.blocks, m ∈ slots x.2.elems p.sizes.elemsPerBlock.toNat := by
  obtain ⟨before, a, b, after, chain, used⟩ := Placed.block_of_allocated held
  have listed : (a, b) ∈ p.blocks := by simp [chain]
  exact ⟨(a, b), listed, (holds.blocks _ listed).used_slot used⟩

/-- What is handed out after a change to one heap. -/
private theorem handed_update {bh' : Address} : Handed (Function.update world bh (some p)) bh' ptr ↔
    if bh' = bh then ∃ m ∈ p.heap.allocated, ptr = p.sizes.element m else Handed world bh' ptr := by
  split
  · next here =>
    subst here
    constructor
    · rintro ⟨q, m, found, held, address⟩
      rw [Function.update_self] at found
      cases found
      exact ⟨m, held, address⟩
    · rintro ⟨m, held, address⟩
      exact ⟨p, m, Function.update_self .., held, address⟩
  · next other =>
    unfold Handed
    rw [Function.update_of_ne other]

/-- A heap with the same elements handed out. -/
private theorem handed_congr (placed : world bh = some p) (sizes : p'.sizes = p.sizes)
    (same : ∀ m, m ∈ p'.heap.allocated ↔ m ∈ p.heap.allocated) {bh' : Address} :
    Handed (Function.update world bh (some p')) bh' ptr ↔ Handed world bh' ptr := by
  rw [handed_update]
  split
  · next here =>
    subst here
    constructor
    · rintro ⟨m, held, address⟩
      exact ⟨p, m, placed, (same m).mp held, sizes ▸ address⟩
    · rintro ⟨q, m, found, held, address⟩
      rw [placed] at found
      cases found
      exact ⟨m, (same m).mpr held, sizes ▸ address⟩
  · rfl

end Elements

/-! ## One call -/

/-- The heap as sequences is one that the calls on sequences lead to. -/
def Reached [Zeros β] (heap : Balloc.BlockHeap β) : Prop :=
  ∃ elemsize elemsperblock first events, Balloc.Created elemsize elemsperblock first ∧
    Run Balloc.HeapStep first events heap

/-- The memory represents heaps that the calls on sequences lead to, and what they have handed out is what the callers
hold. -/
structure System.Sound [Zeros β] (sys : System) (world : World β) : Prop where
  represents : Represents sys.memory world
  reached : ∀ bh p, world bh = some p → Reached p.heap
  held : ∀ bh ptr, (bh, ptr) ∈ sys.held ↔ Handed world bh ptr

section Steps

variable [Zeros β] {sys : System} {world : World β}

/-- Before the first call there is nothing. -/
theorem System.sound_initial : System.Sound {} (fun _ => none : World β) where
  represents := { holds := nofun, separate := nofun, unused := fun _ _ => rfl, registered := nofun, once := .nil }
  reached := nofun
  held := by
    intro bh ptr
    constructor
    · exact nofun
    · rintro ⟨p, m, found, -⟩
      contradiction

omit [Zeros β] in
/-- A heap record belongs to a heap. -/
private theorem Represents.placed {mem : Memory} (rep : Represents mem world) {bh : Address} {heap : BlockHeap}
    (found : mem.heaps bh = some heap) : ∃ p, world bh = some p ∧ heap = p.record := by
  cases placed : world bh with
  | none =>
    rw [rep.unused bh placed] at found
    contradiction
  | some p =>
    refine ⟨p, rfl, ?_⟩
    rw [(rep.holds bh p placed).record] at found
    exact (Option.some.inj found).symm

/-- A heap goes on with one more call. -/
private theorem Reached.step {heap heap' : Balloc.BlockHeap β} (reached : Reached heap) {event : Balloc.HeapEvent β}
    (next : Balloc.HeapStep heap event heap') : Reached heap' := by
  obtain ⟨elemsize, elemsperblock, first, events, created, run⟩ := reached
  exact ⟨elemsize, elemsperblock, first, _, created, run.snoc next⟩

private theorem reached_update {bh : Address} {p : Placed β} (reached : ∀ bh p, world bh = some p → Reached p.heap)
    (here : Reached p.heap) : ∀ bh' q, Function.update world bh (some p) bh' = some q → Reached q.heap := by
  intro bh' q found
  rcases update_some_eq_some.mp found with ⟨-, rfl⟩ | ⟨-, found⟩
  · exact here
  · exact reached bh' q found

omit [Zeros β] in
/-- Lawful answers are lawful for the heap as sequences. -/
private theorem BlockAnswer.Lawful.env {mem : Memory} {os : BlockAnswer} {bh : Address} {p : Placed β}
    (holds : HeapHolds mem bh p) (lawful : os.Lawful mem p.sizes.allocSize) : os.env.Lawful p.heap := by
  intro start mapped
  obtain ⟨elems, mmap, rfl⟩ := Option.map_eq_some_iff.mp mapped
  rw [p.heap_allocSize]
  refine ⟨Nat.le_of_lt (lawful.inside elems mmap), ?_⟩
  intro b listed
  obtain ⟨x, present, rfl⟩ := List.mem_map.mp listed
  have block := holds.blocks x present
  have apart := lawful.apart elems mmap _ block.area
  rw [block.start_toNat] at apart
  rw [block.region]
  exact apart

/-- The timer collects one heap after the other. -/
private theorem gc_sound (heaps : List Address) {mem mem' : Memory} (rep : Represents mem world)
    (reached : ∀ bh p, world bh = some p → Reached p.heap) (known : ∀ bh ∈ heaps, ∃ p, world bh = some p)
    (ran : heaps.foldlM (fun mem bh => blockheapGarbagecollect bh mem) mem = some mem') :
    ∃ world' : World β, Represents mem' world' ∧ (∀ bh p, world' bh = some p → Reached p.heap) ∧
      ∀ bh ptr, Handed world' bh ptr ↔ Handed world bh ptr := by
  induction heaps generalizing mem world with
  | nil =>
    cases ran
    exact ⟨world, rep, reached, fun _ _ => Iff.rfl⟩
  | cons bh rest ih =>
    obtain ⟨⟨p, placed⟩, later⟩ := List.forall_mem_cons.mp known
    obtain ⟨mem₁, p₁, collected, heap, sizes, rep₁, allocated, -⟩ := rep.garbagecollect placed
    have reached₁ : Reached p₁.heap := heap ▸ (reached bh p placed).step .garbagecollect
    rw [List.foldlM_cons, collected] at ran
    have known₁ : ∀ other ∈ rest, ∃ q, Function.update world bh (some p₁) other = some q := by
      intro other listed
      by_cases here : other = bh
      · exact ⟨p₁, by rw [here, Function.update_self]⟩
      · rw [Function.update_of_ne here]
        exact later other listed
    obtain ⟨world', rep', reached', same⟩ := ih rep₁ (reached_update reached reached₁) known₁ ran
    refine ⟨world', rep', reached', ?_⟩
    intro other ptr
    rw [same, handed_congr placed sizes allocated]

/-- A heap is created: nothing of it is handed out. -/
private theorem System.Sound.create (sound : sys.Sound world) {elemsize : UInt64} {elemsperblock : Int32} {bh : Address}
    {os : BlockAnswer} {mem : Memory} (fresh : sys.memory.heaps bh = none)
    (lawful : os.Lawful sys.memory (emptyHeap elemsize elemsperblock).sizes.allocSize)
    (ran : blockheapCreate elemsize elemsperblock (some bh) os sys.memory = some (bh, mem)) :
    ∃ world' : World β, System.Sound { sys with memory := mem } world' := by
  have rep := sound.represents
  obtain ⟨fits, a, elems, calloc, mmap⟩ := blockheapCreate_fits (β := β) lawful ran
  obtain ⟨mem', ran', rep'⟩ := rep.create fits fresh lawful calloc mmap
  rw [ran] at ran'
  cases ran'
  have created : Reached ((Placed.empty elemsize elemsperblock : Placed β).grown a elems).heap := by
    refine ⟨elemsize, elemsperblock, _, [], ⟨true, os.env, ?_, ?_⟩, .start⟩
    · intro start mapped
      obtain ⟨start, mmap', rfl⟩ := Option.map_eq_some_iff.mp mapped
      exact ⟨Nat.le_of_lt (lawful.inside start mmap'), by simp [Balloc.emptyHeap]⟩
    · have new : Balloc.blockheapBlockNew (Balloc.emptyHeap elemsize elemsperblock : Balloc.BlockHeap β) os.env =
          some (0, (Balloc.emptyHeap elemsize elemsperblock).grown elems.toNat) := by
        apply Balloc.blockheapBlockNew_succeeds ((Placed.empty elemsize elemsperblock).heap_fits fits)
        · simp [BlockAnswer.env, calloc]
        · simp [BlockAnswer.env, mmap]
      simp only [Balloc.blockheapCreate, Bool.not_true, Bool.false_eq_true, if_false, new, bind, Option.bind_some]
      rfl
  have absent : world bh = none := by
    cases placed : world bh with
    | none => rfl
    | some p =>
      rw [(rep.holds bh p placed).record] at fresh
      contradiction
  refine ⟨_, rep', reached_update sound.reached created, ?_⟩
  intro bh' ptr
  rw [sound.held, handed_update]
  split
  · next here =>
    subst here
    simp [Handed, absent, Balloc.mem_allocated, Placed.heap, Placed.grown, Placed.empty, Balloc.BlockHeap.freshBlock]
  · rfl

/-- An element is handed out, or none is. -/
private theorem System.Sound.alloc (sound : sys.Sound world) {bh : Address} {heap : BlockHeap} {os : BlockAnswer}
    {ptr : Option Address} {mem : Memory} (found : sys.memory.heaps bh = some heap)
    (lawful : os.Lawful sys.memory heap.sizes.allocSize) (ran : blockheapAlloc bh os sys.memory = some (ptr, mem)) :
    ∃ world' : World β,
      System.Sound { memory := mem, held := (ptr.map (Prod.mk bh)).toList ++ sys.held } world' := by
  have rep := sound.represents
  obtain ⟨p, placed, rfl⟩ := rep.placed found
  obtain ⟨result, mem', p', ran', sequence, heap, sizes, rep', allocated, -⟩ := rep.alloc placed lawful
  rw [ran] at ran'
  cases ran'
  have next := Balloc.HeapStep.alloc (lawful.env (rep.holds bh p placed)) sequence
  rw [heap] at next
  have new (bh' ptr' : Address) : (bh', ptr') ∈ ((result.ptr.map p.sizes.element).map (Prod.mk bh)).toList ↔
      bh' = bh ∧ ∃ m, result.ptr = some m ∧ ptr' = p.sizes.element m := by
    simp only [Option.mem_toList, Option.map_map, Option.map_eq_some_iff, Function.comp_apply, Prod.mk.injEq]
    constructor
    · rintro ⟨m, taken, rfl, rfl⟩
      exact ⟨rfl, m, taken, rfl⟩
    · rintro ⟨rfl, m, taken, rfl⟩
      exact ⟨m, taken, rfl, rfl⟩
  refine ⟨_, rep', reached_update sound.reached ((sound.reached bh p placed).step next), ?_⟩
  intro bh' ptr'
  rw [List.mem_append, new, sound.held, handed_update]
  split
  · next here =>
    subst here
    simp only [allocated, sizes, true_and]
    constructor
    · rintro (⟨m, taken, address⟩ | ⟨q, m, found', held, address⟩)
      · exact ⟨m, .inl taken, address⟩
      · rw [placed] at found'
        cases found'
        exact ⟨m, .inr held, address⟩
    · rintro ⟨m, taken | held, address⟩
      · exact .inl ⟨m, taken, address⟩
      · exact .inr ⟨p, m, placed, held, address⟩
  · next other =>
    simp only [other, false_and, false_or]

/-- An element that is held is taken back. -/
private theorem System.Sound.free (sound : sys.Sound world) {bh ptr : Address} {code : ℕ} {mem : Memory}
    (held : (bh, ptr) ∈ sys.held) (ran : blockheapFree (some bh) (some ptr) sys.memory = some (code, mem)) :
    ∃ world' : World β, System.Sound { memory := mem, held := sys.held.filter (· ≠ (bh, ptr)) } world' := by
  have rep := sound.represents
  obtain ⟨p, m, placed, allocated, rfl⟩ := (sound.held bh ptr).mp held
  have holds := rep.holds bh p placed
  obtain ⟨before, a, b, after, chain, used⟩ := Placed.block_of_allocated allocated
  obtain ⟨mem', ran', rep', -⟩ := rep.free placed chain used (Zeros.zeros p.sizes.elemSize)
  rw [ran] at ran'
  cases ran'
  have next := Balloc.HeapStep.free allocated (Placed.free_heap holds chain used)
  refine ⟨_, rep', reached_update sound.reached ((sound.reached bh p placed).step next), ?_⟩
  intro bh' ptr'
  rw [List.mem_filter, sound.held, handed_update]
  split
  · next here =>
    subst here
    simp only [holds.mem_returned chain used, decide_eq_true_eq, ne_eq, Prod.mk.injEq, true_and]
    constructor
    · rintro ⟨⟨q, m', found', held', rfl⟩, other⟩
      rw [placed] at found'
      cases found'
      refine ⟨m', ⟨held', ?_⟩, rfl⟩
      rintro rfl
      exact other rfl
    · rintro ⟨m', ⟨held', other⟩, rfl⟩
      refine ⟨⟨p, m', placed, held', rfl⟩, ?_⟩
      intro same
      obtain ⟨x, listed, slot⟩ := holds.slot_of_allocated allocated
      obtain ⟨y, listed', slot'⟩ := holds.slot_of_allocated held'
      exact other (holds.element_injective listed' listed slot' slot same)
  · next other =>
    simp [other]

/-- A heap is destroyed, and with it all that was handed out from it. -/
private theorem System.Sound.destroy (sound : sys.Sound world) {bh : Address} {heap : BlockHeap} {mem : Memory}
    (found : sys.memory.heaps bh = some heap) (ran : blockheapDestroy bh sys.memory = some mem) :
    ∃ world' : World β, System.Sound { memory := mem, held := sys.held.filter (·.1 ≠ bh) } world' := by
  have rep := sound.represents
  obtain ⟨p, placed, rfl⟩ := rep.placed found
  obtain ⟨mem', ran', rep'⟩ := rep.destroy placed
  rw [ran] at ran'
  cases ran'
  refine ⟨_, rep', ?_, ?_⟩
  · intro bh' q found
    exact sound.reached bh' q (update_none_eq_some.mp found).2
  · intro bh' ptr
    rw [List.mem_filter, sound.held]
    by_cases here : bh' = bh
    · simp [Handed, here]
    · simp [Handed, here]

/-- Every call keeps the account. -/
theorem CallStep.sound {event : CallEvent} {sys' : System} (step : CallStep sys event sys') (sound : sys.Sound world) :
    ∃ world' : World β, sys'.Sound world' := by
  cases step with
  | create fresh lawful ran => exact sound.create fresh lawful ran
  | alloc found lawful ran => exact sound.alloc found lawful ran
  | free held ran => exact sound.free held ran
  | gc ran =>
    obtain ⟨world', rep', reached, same⟩ := gc_sound _ sound.represents sound.reached sound.represents.registered ran
    exact ⟨world', rep', reached, fun bh ptr => (sound.held bh ptr).trans (same bh ptr).symm⟩
  | destroy found ran => exact sound.destroy found ran

/-- So does every run. -/
theorem run_sound {events : List CallEvent} (run : Run CallStep {} events sys) : ∃ world : World β, sys.Sound world := by
  refine run.invariant (I := fun sys => ∃ world : World β, sys.Sound world) ⟨_, System.sound_initial⟩ ?_
  rintro source event target ⟨world, sound⟩ step
  exact step.sound sound

end Steps

/-! ## One heap of two elements -/

/-- The answers that give a heap at `0x1000` its block at `0x10000`. -/
private def firstBlock : BlockAnswer := ⟨some 0x2000, some 0x10000⟩

/-- A heap of two elements of five bytes. -/
private def created : Memory := ((blockheapCreate 5 2 (some 0x1000) firstBlock {}).map Prod.snd).getD {}

/-- The same with one element handed out. -/
private def handedOut : Memory := ((blockheapAlloc 0x1000 ⟨none, none⟩ created).map Prod.snd).getD {}

/-- The same with the element taken back. -/
private def takenBack : Memory := ((blockheapFree (some 0x1000) (some 0x10048) handedOut).map Prod.snd).getD {}

private theorem handedOut_run : Run CallStep {} [.create 5 2 0x1000, .alloc 0x1000 (some 0x10048)]
    { memory := handedOut, held := [(0x1000, 0x10048)] } := by
  have lawful : firstBlock.Lawful {} (emptyHeap 5 2).sizes.allocSize := by
    refine { calloc := fun _ _ => rfl, nonempty := fun _ _ => by decide, inside := ?_, apart := nofun }
    intro elems mmap
    cases mmap
    decide
  have refused : BlockAnswer.Lawful ⟨none, none⟩ created (emptyHeap 5 2).sizes.allocSize := ⟨nofun, nofun, nofun, nofun⟩
  have create : CallStep {} (.create 5 2 0x1000) { memory := created } := .create rfl lawful rfl
  have alloc : CallStep { memory := created } (.alloc 0x1000 (some 0x10048))
      { memory := handedOut, held := [(0x1000, 0x10048)] } := .alloc rfl refused rfl
  exact .snoc (.single create) alloc

/-! ## What `blockheap_free` accepts -/

section Release

/-- The documented results of `blockheap_free`: 0 and an element moved to the free list of its block when the heap has
handed it out, else 1 and nothing changed. -/
def FreesAsDocumented (mem : Memory) (world : World β) (bh ptr : Address) : Prop :=
  (Handed world bh ptr → ∃ mem' p before a b after m zero, world bh = some p ∧ ptr = p.sizes.element m ∧
    p.blocks = before ++ (a, b) :: after ∧ m ∈ b.usedList.nodes ∧
    blockheapFree (some bh) (some ptr) mem = some (0, mem') ∧
    Represents mem' (Function.update world bh (some (p.returned before a b after m zero)))) ∧
  (¬Handed world bh ptr → ∃ mem', blockheapFree (some bh) (some ptr) mem = some (1, mem') ∧ Represents mem' world)

/-- Neither the list that the element is on nor its heap is looked at: a call that returns at all returns 0, and counts
one more free element. -/
theorem blockheapFree_unchecked {mem mem' : Memory} {bh ptr : Address} {code : ℕ}
    (ran : blockheapFree (some bh) (some ptr) mem = some (code, mem')) :
    code = 0 ∧ ∃ heap, mem.heaps bh = some heap ∧
      mem'.heaps bh = some { heap with freeElems := heap.freeElems + 1 } := by
  simp only [blockheapFree, bind, Option.bind_eq_some_iff] at ran
  obtain ⟨_, _, heap, found, _, _, _, _, _, _, _, _, _, _, done⟩ := ran
  cases done
  exact ⟨rfl, heap, found, Function.update_self ..⟩

variable [Zeros β] {sys : System} {world : World β} {bh ptr : Address}

/-- In an account that is sound, the documented results are those of the pointers that are held. -/
private theorem System.Sound.frees_iff (sound : sys.Sound world) :
    FreesAsDocumented sys.memory world bh ptr ↔ (bh, ptr) ∈ sys.held := by
  rw [sound.held]
  constructor
  · rintro ⟨-, refuses⟩
    by_contra foreign
    obtain ⟨mem', ran, -⟩ := refuses foreign
    exact absurd (blockheapFree_unchecked ran).1 one_ne_zero
  · intro handed
    refine ⟨fun _ => ?_, fun foreign => absurd handed foreign⟩
    obtain ⟨p, m, placed, held, rfl⟩ := handed
    obtain ⟨before, a, b, after, chain, used⟩ := Placed.block_of_allocated held
    obtain ⟨mem', ran, rep, -⟩ := sound.represents.free placed chain used (Zeros.zeros p.sizes.elemSize)
    exact ⟨mem', p, before, a, b, after, m, _, placed, rfl, chain, used, ran, rep⟩

/-- In every state of every run, `blockheap_free` does what its comment says for the pointers that the heap has handed
out and not yet got back, and for no others. -/
theorem blockheap_free_accepts {events : List CallEvent} (run : Run CallStep {} events sys) :
    (∃ world : World β, sys.Sound world) ∧ ∀ world : World β, sys.Sound world →
      ∀ bh ptr, FreesAsDocumented sys.memory world bh ptr ↔ (bh, ptr) ∈ sys.held := by
  refine ⟨run_sound run, ?_⟩
  intro world sound bh ptr
  exact sound.frees_iff

theorem blockheap_free_accepts_handed : ∃ sys, ∃ world : World (List UInt8),
    Run CallStep {} [.create 5 2 0x1000, .alloc 0x1000 (some 0x10048)] sys ∧ sys.Sound world ∧
    FreesAsDocumented sys.memory world 0x1000 0x10048 := by
  obtain ⟨⟨world, sound⟩, accepts⟩ := blockheap_free_accepts (β := List UInt8) handedOut_run
  exact ⟨_, world, handedOut_run, sound, (accepts world sound 0x1000 0x10048).mpr (List.mem_singleton.mpr rfl)⟩

/-- An element is freed twice: the second call returns 0 as well, and the heap of two elements counts three free. -/
theorem blockheap_free_accepts_twice : ∃ sys mem',
    Run CallStep {} [.create 5 2 0x1000, .alloc 0x1000 (some 0x10048), .free 0x1000 0x10048] sys ∧
    (∀ world : World (List UInt8), sys.Sound world →
      Element world 0x10048 ∧ ¬FreesAsDocumented sys.memory world 0x1000 0x10048) ∧
    blockheapFree (some 0x1000) (some 0x10048) sys.memory = some (0, mem') ∧
    (sys.memory.heaps 0x1000).map BlockHeap.freeElems = some 2 ∧
    (mem'.heaps 0x1000).map BlockHeap.freeElems = some 3 := by
  have free : CallStep { memory := handedOut, held := [(0x1000, 0x10048)] } (.free 0x1000 0x10048)
      { memory := takenBack } := .free (List.mem_singleton.mpr rfl) rfl
  refine ⟨{ memory := takenBack }, _, handedOut_run.snoc free, ?_, rfl, rfl, rfl⟩
  intro world sound
  refine ⟨?_, fun documented => absurd (sound.frees_iff.mp documented) List.not_mem_nil⟩
  obtain ⟨p, placed, record⟩ := sound.represents.placed (show takenBack.heaps 0x1000 = _ from rfl)
  -- the one block of the heap starts at 0x10000, and the element is its second
  have sizes : p.sizes = ⟨8, 2⟩ := (congrArg BlockHeap.sizes record).symm
  have bases : p.blocks.map Prod.fst = [0x2000] := (congrArg BlockHeap.base record).symm
  obtain ⟨⟨a, b⟩, blocks, rfl⟩ := List.map_eq_singleton_iff.mp bases
  have listed : (0x2000, b) ∈ p.blocks := by simp [blocks]
  obtain ⟨r, found, elems, -⟩ := ((sound.represents.holds _ p placed).blocks _ listed).record
  cases (show takenBack.blocks 0x2000 = _ from rfl).symm.trans found
  have start : b.elems = 0x10000 := elems.symm
  refine ⟨0x1000, p, (0x2000, b), ⟨0x10000, 1⟩, placed, listed, mem_slots.mpr ⟨start.symm, ?_⟩, ?_⟩
  · rw [sizes]
    decide
  · rw [sizes]
    rfl

/-! ## Layout -/

/-- The pointer leads back to its block: the header in front of it names it and a block of the heap, the two lie in the
area of that block, and `blockheap_free` changes the lists of no other. -/
def LeadsBack (mem : Memory) (bh ptr : Address) : Prop :=
  ∃ heap a block mem', mem.heaps bh = some heap ∧ a ∈ heap.base ∧ mem.blocks a = some block ∧
    mem.headers.payload (ptr - sizeofMemBlock) = some (some ptr, some a) ∧
    block.elems.toNat ≤ (ptr - sizeofMemBlock).toNat ∧
    ptr.toNat + heap.elemSize.toNat ≤ block.elems.toNat + block.allocSize.toNat ∧
    blockheapFree (some bh) (some ptr) mem = some (0, mem') ∧ ∀ other, other ≠ a → mem'.blocks other = mem.blocks other

/-- So does every pointer that is held. -/
private theorem System.Sound.leadsBack (sound : sys.Sound world) (held : (bh, ptr) ∈ sys.held) :
    LeadsBack sys.memory bh ptr := by
  obtain ⟨p, m, placed, allocated, rfl⟩ := (sound.held bh ptr).mp held
  have holds := sound.represents.holds bh p placed
  obtain ⟨before, a, b, after, chain, used⟩ := Placed.block_of_allocated allocated
  have listed : (a, b) ∈ p.blocks := by simp [chain]
  have block := holds.blocks _ listed
  have slot := block.used_slot used
  obtain ⟨r, found, elems, size, -⟩ := block.record
  obtain ⟨mem', ran, -, spares⟩ := sound.represents.free placed chain used (Zeros.zeros p.sizes.elemSize)
  have within := block.element_inside holds.fits slot
  have address := p.sizes.element_toNat holds.fits block.inside slot
  refine ⟨p.record, a, r, mem', holds.record, List.mem_map.mpr ⟨_, listed, rfl⟩, found, ?_, ?_, ?_, ran, spares.blocks⟩
  · rw [p.sizes.element_sub]
    exact block.payload m slot
  · rw [p.sizes.element_sub, elems]
    omega
  · rw [elems, size]
    exact within.2.2

/-- The layout of the blocks: sizes that fit `size_t` are padded to the next multiple of a pointer's size, a new block's
headers and elements do not meet and stay in its area, and every pointer handed out in a run leads back to its header
and its block. -/
theorem blockheap_block_layout {elemsize : UInt64} {elemsperblock : Int32} (sensible : 1 ≤ elemsperblock)
    (small : (elemsperblock.toInt.toNat + 1) * (Balloc.roundUp elemsize.toNat + 32) < 2 ^ 64) :
    IsLeast {size | 8 ∣ size ∧ elemsize.toNat ≤ size} (padElemSize elemsize).toNat ∧
    (∀ (mem : Memory) (bh a elems : Address) (heap : BlockHeap), mem.heaps bh = some heap →
      heap.sizes = (emptyHeap elemsize elemsperblock).sizes → elems.toNat + heap.sizes.allocSize.toNat < 2 ^ 64 →
      ∃ mem' block headers, blockheapBlockNew bh ⟨some a, some elems⟩ mem = some (0, mem') ∧
        (headers.length : ℤ) = elemsperblock.toInt ∧ block.elems = elems ∧
        block.allocSize.toNat = (elemsperblock.toInt.toNat + 1) * ((padElemSize elemsize).toNat + 32) ∧
        LaidOut mem' a heap.sizes block headers) ∧
    ∀ (events : List CallEvent) (sys : System), Run CallStep {} events sys →
      ∀ bh ptr, (bh, ptr) ∈ sys.held → LeadsBack sys.memory bh ptr := by
  have padded := Balloc.padElemSize_of_small small
  refine ⟨?_, ?_, ?_⟩
  · rw [padded]
    exact Balloc.roundUp_isLeast elemsize.toNat
  · intro mem bh a elems heap found sizes inside
    rw [← padded] at small
    have size := Balloc.emptyHeap_allocSize (β := List UInt8) elemsize sensible
    rw [Nat.mod_eq_of_lt small] at size
    have fits : heap.sizes.Fits := by
      rw [sizes]
      exact (Balloc.emptyHeap_fits_iff (β := List UInt8) elemsize sensible).mpr small
    obtain ⟨mem', block, headers, ran, start, allocSize, laid⟩ := blockheapBlockNew_laidOut (a := a) found fits inside
    refine ⟨mem', block, headers, ran, ?_, start, ?_, laid⟩
    · rw [laid.count, sizes]
      exact Balloc.emptyHeap_elemsPerBlock (β := List UInt8) elemsize sensible
    · rw [allocSize, sizes]
      exact size
  · intro events sys run bh ptr held
    obtain ⟨world, sound⟩ := run_sound (β := List UInt8) run
    exact sound.leadsBack held

theorem blockheap_block_layout_small :
    (padElemSize 5).toNat = 8 ∧
    (∃ mem' block headers, blockheapBlockNew 0x1000 ⟨some 0x2000, some 0x10000⟩
      { heaps := fun _ => some (emptyHeap 5 2) } = some (0, mem') ∧
      LaidOut mem' 0x2000 (emptyHeap 5 2).sizes block headers) ∧
    ∃ sys, Run CallStep {} [.create 5 2 0x1000, .alloc 0x1000 (some 0x10048)] sys ∧
      LeadsBack sys.memory 0x1000 0x10048 := by
  obtain ⟨-, blocks, held⟩ := @blockheap_block_layout 5 2 (by decide) (by decide)
  obtain ⟨mem', block, headers, ran, -, -, -, laid⟩ :=
    blocks { heaps := fun _ => some (emptyHeap 5 2) } 0x1000 0x2000 0x10000 (emptyHeap 5 2) rfl rfl (by decide)
  exact ⟨by decide, ⟨mem', block, headers, ran, laid⟩,
    _, handedOut_run, held _ _ handedOut_run _ _ (List.mem_singleton.mpr rfl)⟩

end Release

end FsPkg.BallocMemory
