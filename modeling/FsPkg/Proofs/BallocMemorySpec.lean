import FsPkg.Proofs.BallocMemoryLayout

/-! # The memory of a set of heaps

A memory represents a set of heaps when each heap record, each block record and each header says what the heaps as
sequences say, and no two blocks share their record or any ground. Each operation on such a memory does what the
operation on sequences does to its heap, and leaves the blocks of all other heaps alone.
-/

namespace FsPkg.BallocMemory

open Machine Packing
open Balloc (slots mem_slots sizeofMemBlock sizeofMemBlock_toNat Zeros)

variable {β : Type}

/-! ## Representation -/

/-- A heap with the addresses of its block records. -/
structure Placed (β : Type) where
  sizes : Sizes
  blocksAllocated : UInt64
  freeElems : UInt64
  blocks : List (Address × Balloc.Block β)

/-- The heap as sequences. -/
def Placed.heap (p : Placed β) : Balloc.BlockHeap β where
  elemSize := p.sizes.elemSize
  elemsPerBlock := p.sizes.elemsPerBlock
  blocksAllocated := p.blocksAllocated
  freeElems := p.freeElems
  base := p.blocks.map Prod.snd

/-- Its record in memory. -/
def Placed.record (p : Placed β) : BlockHeap where
  elemSize := p.sizes.elemSize
  elemsPerBlock := p.sizes.elemsPerBlock
  blocksAllocated := p.blocksAllocated
  freeElems := p.freeElems
  base := p.blocks.map Prod.fst

theorem Placed.heap_stride (p : Placed β) : p.heap.stride = p.sizes.stride := rfl

theorem Placed.heap_allocSize (p : Placed β) : p.heap.allocSize = p.sizes.allocSize := rfl

theorem Placed.heap_fits (p : Placed β) (fits : p.sizes.Fits) :
    p.heap.elemsPerBlock.toNat * p.heap.stride ≤ p.heap.allocSize.toNat := by
  rw [p.heap_stride, p.heap_allocSize]
  exact fits

/-- A list in memory with the nodes and the length of a sequence. -/
structure ListHolds (headers : Headers) (s : Sizes) (list : DlinkList) (nodes : Dlink.DlinkList Balloc.MemBlock) :
    Prop where
  length : list.length = nodes.length
  linked : Linked headers.links list.ends (nodes.nodes.map s.header)

/-- A block in memory, given with the address of its record. -/
structure BlockHolds (mem : Memory) (s : Sizes) (x : Address × Balloc.Block β) : Prop where
  record : ∃ r, mem.blocks x.1 = some r ∧ r.elems.toNat = x.2.elems ∧ r.allocSize = s.allocSize ∧
    ListHolds mem.headers s r.freeList x.2.freeList ∧ ListHolds mem.headers s r.usedList x.2.usedList
  payload : ∀ m ∈ slots x.2.elems s.elemsPerBlock.toNat,
    mem.headers.payload (s.header m) = some (some (s.element m), some x.1)
  area : (UInt64.ofNat x.2.elems, s.allocSize) ∈ mem.areas
  nonempty : 0 < s.allocSize.toNat
  inside : x.2.elems + s.allocSize.toNat < 2 ^ 64
  sized : x.2.allocSize = s.allocSize
  part : x.2.Partitioned s.elemsPerBlock.toNat

/-- Two blocks share neither their record nor any ground. -/
def Distinct (x y : Address × Balloc.Block β) : Prop := x.1 ≠ y.1 ∧ Apart x.2.region y.2.region

theorem Distinct.symm {x y : Address × Balloc.Block β} (distinct : Distinct x y) : Distinct y x :=
  ⟨distinct.1.symm, distinct.2.symm⟩

instance : Std.Symm (Distinct (β := β)) := ⟨fun _ _ => Distinct.symm⟩

structure HeapHolds (mem : Memory) (bh : Address) (p : Placed β) : Prop where
  record : mem.heaps bh = some p.record
  fits : p.sizes.Fits
  blocks : ∀ x ∈ p.blocks, BlockHolds mem p.sizes x
  distinct : p.blocks.Pairwise Distinct

/-- The heaps of a memory by the addresses of their records. -/
abbrev World (β : Type) := Address → Option (Placed β)

structure Represents (mem : Memory) (world : World β) : Prop where
  holds : ∀ bh p, world bh = some p → HeapHolds mem bh p
  separate : ∀ bh p other q, bh ≠ other → world bh = some p → world other = some q →
    ∀ x ∈ p.blocks, ∀ y ∈ q.blocks, Distinct x y
  unused : ∀ bh, world bh = none → mem.heaps bh = none
  registered : ∀ bh ∈ mem.heapLists, ∃ p, world bh = some p
  once : mem.heapLists.Nodup

/-! ## What an operation on one block leaves alone -/

/-- Outside one block nothing changed. -/
structure Spares (mem mem' : Memory) (x : Address × Balloc.Block β) : Prop where
  blocks : ∀ a, a ≠ x.1 → mem'.blocks a = mem.blocks a
  headers : ∀ k : Address, Apart (k.toNat, 32) x.2.region → mem'.headers k = mem.headers k
  areas : ∀ area ∈ mem.areas, Apart (area.1.toNat, area.2.toNat) x.2.region → area ∈ mem'.areas

section Frame

variable {mem mem' : Memory} {s : Sizes} {x y : Address × Balloc.Block β}

theorem ListHolds.congr {headers headers' : Headers} {list : DlinkList} {nodes : Dlink.DlinkList Balloc.MemBlock}
    (holds : ListHolds headers s list nodes)
    (same : ∀ m ∈ nodes.nodes, headers' (s.header m) = headers (s.header m)) : ListHolds headers' s list nodes := by
  refine ⟨holds.length, holds.linked.congr ?_⟩
  intro k member
  obtain ⟨m, listed, rfl⟩ := List.mem_map.mp member
  simp only [Headers.links, same m listed]

theorem BlockHolds.free_slot (holds : BlockHolds mem s x) {m : Balloc.MemBlock} (member : m ∈ x.2.freeList.nodes) :
    m ∈ slots x.2.elems s.elemsPerBlock.toNat :=
  holds.part.perm.mem_iff.mp (List.mem_append_left _ member)

theorem BlockHolds.used_slot (holds : BlockHolds mem s x) {m : Balloc.MemBlock} (member : m ∈ x.2.usedList.nodes) :
    m ∈ slots x.2.elems s.elemsPerBlock.toNat :=
  holds.part.perm.mem_iff.mp (List.mem_append_right _ member)

theorem BlockHolds.congr (holds : BlockHolds mem s x) (record : mem'.blocks x.1 = mem.blocks x.1)
    (headers : ∀ m ∈ slots x.2.elems s.elemsPerBlock.toNat, mem'.headers (s.header m) = mem.headers (s.header m))
    (area : (UInt64.ofNat x.2.elems, s.allocSize) ∈ mem'.areas) : BlockHolds mem' s x := by
  obtain ⟨r, found, elems, size, free, used⟩ := holds.record
  refine { holds with
    record := ⟨r, record.trans found, elems, size, ?_, ?_⟩
    payload := ?_
    area := area }
  · exact free.congr fun m member => headers m (holds.free_slot member)
  · exact used.congr fun m member => headers m (holds.used_slot member)
  · intro m slot
    rw [← holds.payload m slot]
    simp only [Headers.payload, headers m slot]

/-- A block does not depend on the heap records. -/
theorem BlockHolds.of_eq (holds : BlockHolds mem s x) (headers : mem'.headers = mem.headers)
    (blocks : mem'.blocks = mem.blocks) (areas : mem'.areas = mem.areas) : BlockHolds mem' s x :=
  holds.congr (congrFun blocks _) (fun _ _ => congrFun headers _) (areas ▸ holds.area)

/-- The ground of a block. -/
theorem BlockHolds.region (holds : BlockHolds mem s x) : x.2.region = (x.2.elems, s.allocSize.toNat) := by
  rw [Balloc.Block.region, holds.sized]

/-- A block starts inside the address space. -/
theorem BlockHolds.start_toNat (holds : BlockHolds mem s x) : (UInt64.ofNat x.2.elems).toNat = x.2.elems := by
  rw [UInt64.toNat_ofNat']
  exact Nat.mod_eq_of_lt (Nat.lt_of_le_of_lt (Nat.le_add_right ..) holds.inside)

/-- Two blocks start at different addresses. -/
theorem BlockHolds.elems_ne {s' : Sizes} (holds : BlockHolds mem s x) (holds' : BlockHolds mem s' y)
    (distinct : Distinct x y) : x.2.elems ≠ y.2.elems := by
  intro same
  have apart := distinct.2
  rw [holds.region, holds'.region, same] at apart
  exact apart.not_both ⟨le_rfl, Nat.lt_add_of_pos_right holds.nonempty⟩ ⟨le_rfl, Nat.lt_add_of_pos_right holds'.nonempty⟩

theorem BlockHolds.spared (holds : BlockHolds mem s y) (fits : s.Fits) (spares : Spares mem mem' x)
    (distinct : Distinct x y) : BlockHolds mem' s y := by
  obtain ⟨records, apart⟩ := distinct
  rw [holds.region] at apart
  apply holds.congr (spares.blocks _ (Ne.symm records))
  · intro m slot
    apply spares.headers
    have within := s.header_inside fits holds.inside slot
    rw [s.stride_eq] at within
    exact apart.symm.within within.1 (by dsimp only; omega) le_rfl le_rfl
  · apply spares.areas _ holds.area
    rw [holds.start_toNat]
    exact apart.symm

end Frame

/-- One heap changes, and the blocks of the others still hold. -/
theorem Represents.update {mem mem' : Memory} {world : World β} (rep : Represents mem world) {bh : Address}
    {p : Placed β} (holds : HeapHolds mem' bh p) (heaps : ∀ other, other ≠ bh → mem'.heaps other = mem.heaps other)
    (kept : ∀ other q, other ≠ bh → world other = some q → ∀ y ∈ q.blocks, BlockHolds mem' q.sizes y)
    (separate : ∀ other q, other ≠ bh → world other = some q → ∀ x ∈ p.blocks, ∀ y ∈ q.blocks, Distinct x y)
    (registry : mem'.heapLists = mem.heapLists) : Represents mem' (Function.update world bh (some p)) where
  holds := by
    intro other q found
    rcases update_some_eq_some.mp found with ⟨rfl, rfl⟩ | ⟨here, found⟩
    · exact holds
    · have before := rep.holds other q found
      exact { before with record := (heaps other here).trans before.record, blocks := kept other q here found }
  separate := by
    intro first q second q' different found found'
    rcases update_some_eq_some.mp found with ⟨rfl, rfl⟩ | ⟨here, old⟩
    · rw [Function.update_of_ne different.symm] at found'
      exact separate second q' different.symm found'
    · rcases update_some_eq_some.mp found' with ⟨rfl, rfl⟩ | ⟨-, old'⟩
      · intro x member y listed
        exact (separate first q here old y listed x member).symm
      · exact rep.separate first q second q' different old old'
  unused := by
    intro other absent
    by_cases here : other = bh
    · rw [here, Function.update_self] at absent
      contradiction
    · rw [Function.update_of_ne here] at absent
      exact (heaps other here).trans (rep.unused other absent)
  registered := by
    intro r listed
    by_cases here : r = bh
    · exact ⟨p, by rw [here, Function.update_self]⟩
    · rw [Function.update_of_ne here]
      exact rep.registered r (registry ▸ listed)
  once := registry ▸ rep.once

/-- One block of a heap changes on its own ground. -/
theorem Represents.replace {mem mem' : Memory} {world : World β} (rep : Represents mem world) {bh : Address}
    {p : Placed β} (placed : world bh = some p) {before after : List (Address × Balloc.Block β)} {a : Address}
    {b b' : Balloc.Block β} (chain : p.blocks = before ++ (a, b) :: after) (ground : b'.region = b.region)
    (spares : Spares mem mem' (a, b)) (changed : BlockHolds mem' p.sizes (a, b')) (freeElems : UInt64)
    (heaps : mem'.heaps = Function.update mem.heaps bh (some { p.record with freeElems }))
    (registry : mem'.heapLists = mem.heapLists) :
    Represents mem' (Function.update world bh (some { p with freeElems, blocks := before ++ (a, b') :: after })) := by
  have old := rep.holds bh p placed
  have member : (a, b) ∈ p.blocks := by simp [chain]
  have pairwise := old.distinct
  rw [chain] at pairwise
  obtain ⟨front, back, cross⟩ := List.pairwise_append.mp pairwise
  obtain ⟨first, back⟩ := List.pairwise_cons.mp back
  have distinct' : ∀ y, Distinct (a, b) y → Distinct (a, b') y := by
    intro y distinct
    exact ⟨distinct.1, ground ▸ distinct.2⟩
  have others : ∀ y, y ∈ before ∨ y ∈ after → y ∈ p.blocks ∧ Distinct (a, b) y := by
    rintro y (early | late)
    · exact ⟨by simp [chain, early], (cross y early (a, b) (List.mem_cons_self ..)).symm⟩
    · exact ⟨by simp [chain, late], first y late⟩
  apply rep.update
  · refine { record := ?_, fits := old.fits, blocks := ?_, distinct := ?_ }
    · rw [heaps, Function.update_self]
      simp only [Placed.record, chain, List.map_append, List.map_cons]
    · intro y listed
      rcases List.mem_append.mp listed with early | late
      · obtain ⟨present, distinct⟩ := others y (.inl early)
        exact (old.blocks y present).spared old.fits spares distinct
      · rcases List.mem_cons.mp late with rfl | later
        · exact changed
        · obtain ⟨present, distinct⟩ := others y (.inr later)
          exact (old.blocks y present).spared old.fits spares distinct
    · apply List.pairwise_append.mpr
      refine ⟨front, List.pairwise_cons.mpr ⟨fun y late => distinct' y (first y late), back⟩, ?_⟩
      intro y early z late
      rcases List.mem_cons.mp late with rfl | later
      · exact (distinct' y (others y (.inl early)).2).symm
      · exact cross y early z (List.mem_cons_of_mem _ later)
  · intro other different
    rw [heaps, Function.update_of_ne different]
  · intro other q different found y listed
    have holds := rep.holds other q found
    exact (holds.blocks y listed).spared holds.fits spares
      (rep.separate bh p other q different.symm placed found _ member y listed)
  · intro other q different found x listed y present
    rcases List.mem_append.mp listed with early | late
    · exact rep.separate bh p other q different.symm placed found x (others x (.inl early)).1 y present
    · rcases List.mem_cons.mp late with rfl | later
      · exact distinct' y (rep.separate bh p other q different.symm placed found _ member y present)
      · exact rep.separate bh p other q different.symm placed found x (others x (.inr later)).1 y present
  · exact registry

/-- A heap gets one block more, on new ground. -/
theorem Represents.prepend {mem mem' : Memory} {world : World β} (rep : Represents mem world) {bh : Address}
    {p : Placed β} (placed : world bh = some p) {x : Address × Balloc.Block β} (spares : Spares mem mem' x)
    (fresh : BlockHolds mem' p.sizes x)
    (distinct : ∀ other q, world other = some q → ∀ y ∈ q.blocks, Distinct x y) (blocksAllocated freeElems : UInt64)
    (heaps : mem'.heaps = Function.update mem.heaps bh
      (some { p.record with blocksAllocated, freeElems, base := x.1 :: p.record.base }))
    (registry : mem'.heapLists = mem.heapLists) :
    Represents mem'
      (Function.update world bh (some { p with blocksAllocated, freeElems, blocks := x :: p.blocks })) := by
  have holds := rep.holds bh p placed
  refine rep.update ?_ ?_ ?_ ?_ registry
  · refine { record := ?_, fits := holds.fits, blocks := ?_, distinct := ?_ }
    · rw [heaps, Function.update_self]
      rfl
    · intro y listed
      rcases List.mem_cons.mp listed with rfl | old
      · exact fresh
      · exact (holds.blocks y old).spared holds.fits spares (distinct bh p placed y old)
    · exact List.pairwise_cons.mpr ⟨distinct bh p placed, holds.distinct⟩
  · intro other different
    rw [heaps, Function.update_of_ne different]
  · intro other q different found y listed
    have theirs := rep.holds other q found
    exact (theirs.blocks y listed).spared theirs.fits spares (distinct other q found y listed)
  · intro other q different found y listed z present
    rcases List.mem_cons.mp listed with rfl | old
    · exact distinct other q found z present
    · exact rep.separate bh p other q different.symm placed found y old z present

/-! ## Moving an element between the lists of its block -/

section Move

variable {mem : Memory} {s : Sizes} {a : Address} {b : Balloc.Block β} {m : Balloc.MemBlock}

/-- `dlink_move` on lists that stand for sequences of elements of one block. -/
private theorem dlinkMove_lists {headers : Headers} {elems : ℕ} (fits : s.Fits)
    (inside : elems + s.allocSize.toNat < 2 ^ 64) {old new : DlinkList}
    {oldSeq newSeq : Dlink.DlinkList Balloc.MemBlock} (holdsOld : ListHolds headers s old oldSeq)
    (holdsNew : ListHolds headers s new newSeq)
    (slots_ : ∀ m ∈ oldSeq.nodes ++ newSeq.nodes, m ∈ slots elems s.elemsPerBlock.toNat)
    (nodup : (oldSeq.nodes ++ newSeq.nodes).Nodup) (member : m ∈ oldSeq.nodes) :
    ∃ headers' old' new', dlinkMove (s.header m) headers old new = some (headers', old', new') ∧
      ListHolds headers' s old' ⟨oldSeq.nodes.erase m, oldSeq.length - 1⟩ ∧
      ListHolds headers' s new' ⟨m :: newSeq.nodes, newSeq.length + 1⟩ ∧
      headers'.payload = headers.payload ∧
      ∀ k, (∀ m ∈ slots elems s.elemsPerBlock.toNat, k ≠ s.header m) → headers' k = headers k := by
  obtain ⟨distinct, -, apart⟩ := List.nodup_append.mp nodup
  obtain ⟨left, right, split⟩ := List.append_of_mem member
  have erased : oldSeq.nodes.erase m = left ++ right := by
    rw [split] at distinct ⊢
    have early : m ∉ left := fun early => (List.nodup_append.mp distinct).2.2 m early m (List.mem_cons_self ..) rfl
    rw [List.erase_append_right _ early, List.erase_cons_head]
  have linkedOld := holdsOld.linked
  rw [split, List.map_append, List.map_cons] at linkedOld
  have disjoint : (left.map s.header ++ s.header m :: right.map s.header).Disjoint (newSeq.nodes.map s.header) := by
    rw [← List.map_cons, ← List.map_append, ← split]
    intro k onOld onNew
    obtain ⟨m₁, listed₁, rfl⟩ := List.mem_map.mp onOld
    obtain ⟨m₂, listed₂, same⟩ := List.mem_map.mp onNew
    have equal := s.header_injective fits inside (slots_ m₂ (List.mem_append_right _ listed₂))
      (slots_ m₁ (List.mem_append_left _ listed₁)) same
    exact apart m₁ listed₁ m₂ listed₂ equal.symm
  obtain ⟨headers', old', new', ran, oldLength, newLength, oldLinked, newLinked, payload, links⟩ :=
    dlinkMove_spec linkedOld holdsNew.linked disjoint
  refine ⟨headers', old', new', ran, ⟨?_, ?_⟩, ⟨?_, newLinked⟩, payload, ?_⟩
  · rw [oldLength, holdsOld.length]
  · rw [erased, List.map_append]
    exact oldLinked
  · rw [newLength, holdsNew.length]
  · intro k outside
    apply Headers.ext_at _ (congrFun payload k)
    apply links
    · rw [← List.map_cons, ← List.map_append, ← split]
      intro onOld
      obtain ⟨m', listed, rfl⟩ := List.mem_map.mp onOld
      exact outside m' (slots_ m' (List.mem_append_left _ listed)) rfl
    · intro onNew
      obtain ⟨m', listed, rfl⟩ := List.mem_map.mp onNew
      exact outside m' (slots_ m' (List.mem_append_right _ listed)) rfl

/-- Zeroing an element touches no header, in its block or outside. -/
theorem BlockHolds.memset_element (holds : BlockHolds mem s (a, b)) (fits : s.Fits)
    (slot : m ∈ slots b.elems s.elemsPerBlock.toNat) :
    ∃ headers, memset (s.element m) s.elemSize mem = some { mem with headers } ∧
      (∀ other ∈ slots b.elems s.elemsPerBlock.toNat, headers (s.header other) = mem.headers (s.header other)) ∧
      ∀ k : Address, Apart (k.toNat, 32) b.region → headers k = mem.headers k := by
  have inside : b.elems + s.allocSize.toNat < 2 ^ 64 := holds.inside
  have within := s.header_inside fits inside slot
  have address := s.element_toNat fits inside slot
  have start : (UInt64.ofNat b.elems).toNat = b.elems := holds.start_toNat
  rw [s.stride_eq] at within
  have area : (UInt64.ofNat b.elems, s.allocSize) ∈ mem.areas := holds.area
  have low : (UInt64.ofNat b.elems).toNat ≤ (s.element m).toNat := by omega
  have high : (s.element m).toNat + s.elemSize.toNat ≤ (UInt64.ofNat b.elems).toNat + s.allocSize.toNat := by omega
  obtain ⟨headers, ran, same⟩ := memset_spec area low high
  refine ⟨headers, ran, ?_, ?_⟩
  · intro other slot'
    apply same
    rw [address]
    by_cases here : m = other
    · exact .inl (by dsimp only; rw [here])
    · have apart := s.header_apart fits inside slot slot' here
      rw [s.stride_eq] at apart
      exact apart.symm.within le_rfl (by dsimp only; omega) (by dsimp only; omega) (by dsimp only; omega)
  · intro k apart
    apply same
    rw [address]
    rw [Balloc.Block.region, show b.allocSize = s.allocSize from holds.sized] at apart
    exact apart.within le_rfl le_rfl (by dsimp only; omega) (by dsimp only; omega)

/-- A block whose two lists were changed, on its own ground. -/
private theorem BlockHolds.relist (holds : BlockHolds mem s (a, b)) {mem' : Memory} {r : Block} {b' : Balloc.Block β}
    {free used : DlinkList} (elems : r.elems.toNat = b.elems) (size : r.allocSize = s.allocSize)
    (elems' : b'.elems = b.elems) (size' : b'.allocSize = b.allocSize)
    (part : b'.Partitioned s.elemsPerBlock.toNat) (holdsFree : ListHolds mem'.headers s free b'.freeList)
    (holdsUsed : ListHolds mem'.headers s used b'.usedList)
    (blocks : mem'.blocks = Function.update mem.blocks a (some { r with freeList := free, usedList := used }))
    (areas : mem'.areas = mem.areas)
    (payload : ∀ m ∈ slots b.elems s.elemsPerBlock.toNat,
      mem'.headers.payload (s.header m) = mem.headers.payload (s.header m))
    (headers : ∀ k : Address, Apart (k.toNat, 32) b.region → mem'.headers k = mem.headers k) :
    BlockHolds mem' s (a, b') ∧ Spares mem mem' (a, b) := by
  have found : mem'.blocks a = some { r with freeList := free, usedList := used } := by
    rw [blocks, Function.update_self]
  constructor
  · refine
      { record := ⟨_, found, elems.trans elems'.symm, size, holdsFree, holdsUsed⟩
        payload := ?_
        area := by rw [areas, elems']; exact holds.area
        nonempty := holds.nonempty
        inside := by rw [elems']; exact holds.inside
        sized := size'.trans holds.sized
        part := part }
    intro m slot
    rw [elems'] at slot
    rw [payload m slot]
    exact holds.payload m slot
  · refine { blocks := ?_, headers := headers, areas := ?_ }
    · intro other different
      rw [blocks, Function.update_of_ne different]
    · intro area member _
      rw [areas]
      exact member

/-- A header lies on its block's ground. -/
private theorem BlockHolds.header_ne (holds : BlockHolds mem s (a, b)) (fits : s.Fits) {k : Address}
    (apart : Apart (k.toNat, 32) b.region) : ∀ m ∈ slots b.elems s.elemsPerBlock.toNat, k ≠ s.header m := by
  rintro m slot rfl
  have within := s.header_inside fits holds.inside slot
  rw [s.stride_eq] at within
  rw [Balloc.Block.region, show b.allocSize = s.allocSize from holds.sized] at apart
  exact apart.not_both ⟨le_rfl, Nat.lt_add_of_pos_right (Nat.succ_pos 31)⟩ ⟨within.1, by dsimp only at within ⊢; omega⟩

/-- The first free element of a block is handed out: `dlink_move` and `memset` as `blockheap_alloc` calls them. -/
theorem BlockHolds.handOut (holds : BlockHolds mem s (a, b)) (fits : s.Fits) {rest : List Balloc.MemBlock}
    (first : b.freeList.nodes = m :: rest) (zero : β) :
    ∃ r headers free used headers', mem.blocks a = some r ∧ r.freeList.head = some (s.header m) ∧
      r.freeList.length = b.freeList.length ∧
      dlinkMove (s.header m) mem.headers r.freeList r.usedList = some (headers, free, used) ∧
      headers.payload (s.header m) = some (some (s.element m), some a) ∧
      memset (s.element m) s.elemSize { mem with
        headers, blocks := Function.update mem.blocks a (some { r with freeList := free, usedList := used }) } =
        some { mem with
          headers := headers', blocks := Function.update mem.blocks a (some { r with freeList := free, usedList := used }) } ∧
      headers' (s.header m) = headers (s.header m) ∧
      ∀ mem' : Memory, mem'.headers = headers' → mem'.areas = mem.areas →
        mem'.blocks = Function.update mem.blocks a (some { r with freeList := free, usedList := used }) →
        BlockHolds mem' s (a, b.handOut m zero) ∧ Spares mem mem' (a, b) := by
  obtain ⟨r, found, elems, size, holdsFree, holdsUsed⟩ := holds.record
  have member : m ∈ b.freeList.nodes := by simp [first]
  have slot := holds.free_slot member
  have slots_ : ∀ m ∈ b.freeList.nodes ++ b.usedList.nodes, m ∈ slots b.elems s.elemsPerBlock.toNat :=
    fun m listed => holds.part.perm.mem_iff.mp listed
  obtain ⟨headers, free, used, ran, holdsFree', holdsUsed', payload, others⟩ :=
    dlinkMove_lists fits holds.inside holdsFree holdsUsed slots_ holds.part.nodup member
  have part := holds.part.handOut s.elemsPerBlock.toNat_lt member zero
  have payload' : headers.payload (s.header m) = some (some (s.element m), some a) := by
    rw [payload]
    exact holds.payload m slot
  obtain ⟨middle, step⟩ : ∃ middle : Memory, middle = { mem with
    headers, blocks := Function.update mem.blocks a (some { r with freeList := free, usedList := used }) } := ⟨_, rfl⟩
  have between : BlockHolds middle s (a, b.handOut m zero) ∧ Spares mem middle (a, b) := by
    subst step
    exact holds.relist elems size rfl rfl part holdsFree' holdsUsed' rfl rfl (fun other _ => congrFun payload _)
      (fun k apart => others k (holds.header_ne fits apart))
  have moved := between.1
  rw [step] at moved
  obtain ⟨headers', cleared, same, outside⟩ := moved.memset_element fits slot
  refine ⟨r, headers, free, used, headers', found, ?_, holdsFree.length, ran, payload', cleared, same m slot, ?_⟩
  · rw [show r.freeList.head = _ from holdsFree.linked.head, first]
    rfl
  · intro mem' headersEq areas blocks
    have own : ∀ other ∈ slots b.elems s.elemsPerBlock.toNat, mem'.headers (s.header other) = headers (s.header other) := by
      intro other slot'
      rw [headersEq]
      exact same other slot'
    refine holds.relist elems size rfl rfl part ?_ ?_ blocks areas ?_ ?_
    · exact holdsFree'.congr fun other listed => own other (moved.free_slot listed)
    · exact holdsUsed'.congr fun other listed => own other (moved.used_slot listed)
    · intro other slot'
      rw [← congrFun payload]
      simp only [Headers.payload, own other slot']
    · intro k apart
      rw [headersEq]
      exact (outside k apart).trans (others k (holds.header_ne fits apart))

/-- A used element of a block is taken back: `memset` and `dlink_move` as `blockheap_free` calls them. -/
theorem BlockHolds.takeBack (holds : BlockHolds mem s (a, b)) (fits : s.Fits) (member : m ∈ b.usedList.nodes) (zero : β) :
    ∃ r headers used free headers', mem.blocks a = some r ∧
      memset (s.element m) s.elemSize mem = some { mem with headers } ∧
      headers.payload (s.header m) = some (some (s.element m), some a) ∧
      dlinkMove (s.header m) headers r.usedList r.freeList = some (headers', used, free) ∧
      ∀ mem' : Memory, mem'.headers = headers' → mem'.areas = mem.areas →
        mem'.blocks = Function.update mem.blocks a (some { r with freeList := free, usedList := used }) →
        BlockHolds mem' s (a, b.takeBack m zero) ∧ Spares mem mem' (a, b) := by
  have slot := holds.used_slot member
  obtain ⟨headers, cleared, same, outside⟩ := holds.memset_element fits slot
  have kept : BlockHolds { mem with headers } s (a, b) := holds.congr rfl same holds.area
  obtain ⟨r, found, elems, size, holdsFree, holdsUsed⟩ := kept.record
  have slots_ : ∀ m ∈ b.usedList.nodes ++ b.freeList.nodes, m ∈ slots b.elems s.elemsPerBlock.toNat :=
    fun m listed => holds.part.perm.mem_iff.mp (List.perm_append_comm.mem_iff.mp listed)
  obtain ⟨headers', used, free, ran, holdsUsed', holdsFree', payload, others⟩ := dlinkMove_lists fits holds.inside
    holdsUsed holdsFree slots_ (List.perm_append_comm.nodup_iff.mp holds.part.nodup) member
  refine ⟨r, headers, used, free, headers', found, cleared, kept.payload m slot, ran, ?_⟩
  rintro mem' rfl areas blocks
  refine holds.relist elems size rfl rfl (holds.part.takeBack s.elemsPerBlock.toNat_lt member zero) holdsFree' holdsUsed'
    blocks areas ?_ ?_
  · intro other slot'
    rw [payload]
    simp only [Headers.payload, same other slot']
  · intro k apart
    exact (others k (holds.header_ne fits apart)).trans (outside k apart)

end Move

/-! ## Release -/

section Free

variable {mem : Memory} {world : World β} {bh : Address} {p : Placed β} {m : Balloc.MemBlock}

/-- The block of an element that is handed out. -/
theorem Placed.block_of_allocated (held : m ∈ p.heap.allocated) :
    ∃ before a b after, p.blocks = before ++ (a, b) :: after ∧ m ∈ b.usedList.nodes := by
  obtain ⟨b, present, used⟩ := Balloc.mem_allocated.mp held
  obtain ⟨⟨a, b⟩, member, rfl⟩ := List.mem_map.mp present
  obtain ⟨before, after, chain⟩ := List.append_of_mem member
  exact ⟨before, a, b, after, chain, used⟩

/-- The heap after an element was taken back. -/
def Placed.returned (p : Placed β) (before : List (Address × Balloc.Block β)) (a : Address) (b : Balloc.Block β)
    (after : List (Address × Balloc.Block β)) (m : Balloc.MemBlock) (zero : β) : Placed β :=
  { p with freeElems := p.freeElems + 1, blocks := before ++ (a, b.takeBack m zero) :: after }

/-- `blockheap_free` of an element that is handed out: it moves to the free list of its block. -/
theorem Represents.free (rep : Represents mem world) (placed : world bh = some p)
    {before after : List (Address × Balloc.Block β)} {a : Address} {b : Balloc.Block β}
    (chain : p.blocks = before ++ (a, b) :: after) (used : m ∈ b.usedList.nodes) (zero : β) :
    ∃ mem', blockheapFree (some bh) (some (p.sizes.element m)) mem = some (0, mem') ∧
      Represents mem' (Function.update world bh (some (p.returned before a b after m zero))) ∧
      Spares mem mem' (a, b) := by
  have holds := rep.holds bh p placed
  have block := holds.blocks (a, b) (by simp [chain])
  obtain ⟨r, headers, usedList, freeList, headers', found, cleared, payload, moved, after'⟩ :=
    block.takeBack holds.fits used zero
  obtain ⟨h, header, back⟩ := Option.map_eq_some_iff.mp payload
  obtain ⟨h₀, header₀, -⟩ := Option.map_eq_some_iff.mp (block.payload m (block.used_slot used))
  have owner : h.block = some a := (Prod.mk.inj back).2
  obtain ⟨changed, spares⟩ := after' { mem with
    headers := headers'
    blocks := Function.update mem.blocks a (some { r with usedList, freeList })
    heaps := Function.update mem.heaps bh (some { p.record with freeElems := p.freeElems + 1 }) } rfl rfl rfl
  have ground : (b.takeBack m zero).region = b.region := rfl
  refine ⟨_, ?_, rep.replace placed chain ground spares changed (p.freeElems + 1) rfl rfl, spares⟩
  simp only [blockheapFree, p.sizes.element_sub, bind, header₀, holds.record, Option.bind_some]
  rw [show p.record.elemSize = p.sizes.elemSize from rfl, cleared]
  simp only [Option.bind_some, header, owner, found, moved]
  rfl

/-- The same on sequences. -/
theorem Placed.free_heap [Zeros β] (holds : HeapHolds mem bh p) {before after : List (Address × Balloc.Block β)}
    {a : Address} {b : Balloc.Block β} (chain : p.blocks = before ++ (a, b) :: after) (used : m ∈ b.usedList.nodes) :
    Balloc.blockheapFree p.heap (some m) =
      some (0, (p.returned before a b after m (Zeros.zeros p.sizes.elemSize)).heap) := by
  have block := holds.blocks (a, b) (by simp [chain])
  obtain ⟨here, -⟩ := block.part.used_slot used
  have others : ∀ other ∈ before.map Prod.snd, other.elems ≠ m.block := by
    intro other early
    obtain ⟨y, listed, rfl⟩ := List.mem_map.mp early
    have distinct := holds.distinct
    rw [chain] at distinct
    rw [here]
    exact (holds.blocks y (by simp [chain, listed])).elems_ne block
      ((List.pairwise_append.mp distinct).2.2 y listed (a, b) (List.mem_cons_self ..))
  have base : p.heap.base = before.map Prod.snd ++ b :: after.map Prod.snd := by
    simp [Placed.heap, chain]
  simp only [Balloc.blockheapFree, base]
  rw [Balloc.modifyBlock_append (b.takeBack m (Zeros.zeros p.sizes.elemSize)) here.symm others]
  · simp [Placed.heap, Placed.returned]
  · simp [Dlink.dlinkMove, used, Balloc.Block.takeBack, Placed.heap]

/-- The element alone is no longer handed out. -/
theorem HeapHolds.mem_returned (holds : HeapHolds mem bh p) {before after : List (Address × Balloc.Block β)}
    {a : Address} {b : Balloc.Block β} (chain : p.blocks = before ++ (a, b) :: after) (used : m ∈ b.usedList.nodes)
    (zero : β) {other : Balloc.MemBlock} :
    other ∈ (p.returned before a b after m zero).heap.allocated ↔ other ∈ p.heap.allocated ∧ other ≠ m := by
  have block := holds.blocks (a, b) (by simp [chain])
  have distinct := holds.distinct
  rw [chain] at distinct
  obtain ⟨-, back, cross⟩ := List.pairwise_append.mp distinct
  obtain ⟨first, -⟩ := List.pairwise_cons.mp back
  have nodup := (List.nodup_append.mp block.part.nodup).2.1
  have elsewhere : ∀ y, y ∈ before ∨ y ∈ after → other ∈ y.2.usedList.nodes → other ≠ m := by
    rintro y place usedThere rfl
    have present : y ∈ p.blocks := by
      rcases place with early | late
      · simp [chain, early]
      · simp [chain, late]
    have there := holds.blocks y present
    have apart : Distinct y (a, b) := by
      rcases place with early | late
      · exact cross y early (a, b) (List.mem_cons_self ..)
      · exact (first y late).symm
    exact there.elems_ne block apart
      ((there.part.used_slot usedThere).1.symm.trans (block.part.used_slot used).1)
  simp only [Balloc.mem_allocated, Placed.heap, Placed.returned, chain, List.map_append, List.map_cons, List.mem_append,
    List.mem_cons, List.mem_map]
  constructor
  · rintro ⟨b', ⟨y, early, rfl⟩ | rfl | ⟨y, late, rfl⟩, usedThere⟩
    · exact ⟨⟨y.2, .inl ⟨y, early, rfl⟩, usedThere⟩, elsewhere y (.inl early) usedThere⟩
    · obtain ⟨other_, still⟩ := nodup.mem_erase_iff.mp usedThere
      exact ⟨⟨b, .inr (.inl rfl), still⟩, other_⟩
    · exact ⟨⟨y.2, .inr (.inr ⟨y, late, rfl⟩), usedThere⟩, elsewhere y (.inr late) usedThere⟩
  · rintro ⟨⟨b', ⟨y, early, rfl⟩ | rfl | ⟨y, late, rfl⟩, usedThere⟩, other_⟩
    · exact ⟨y.2, .inl ⟨y, early, rfl⟩, usedThere⟩
    · exact ⟨_, .inr (.inl rfl), nodup.mem_erase_iff.mpr ⟨other_, usedThere⟩⟩
    · exact ⟨y.2, .inr (.inr ⟨y, late, rfl⟩), usedThere⟩

end Free

/-! ## New blocks -/

/-- `calloc` returns a record that is not in use, and `mmap` an area that is not empty, lies inside the address space and
meets no other area. -/
structure BlockAnswer.Lawful (os : BlockAnswer) (mem : Memory) (size : UInt64) : Prop where
  calloc : ∀ a, os.calloc = some a → mem.blocks a = none
  nonempty : ∀ elems, os.mmap = some elems → 0 < size.toNat
  inside : ∀ elems, os.mmap = some elems → elems.toNat + size.toNat < 2 ^ 64
  apart : ∀ elems, os.mmap = some elems → ∀ area ∈ mem.areas,
    Apart (elems.toNat, size.toNat) (area.1.toNat, area.2.toNat)

/-- The same answers for a heap as sequences. -/
def BlockAnswer.env (os : BlockAnswer) : Balloc.BlockEnv := ⟨os.calloc.isSome, os.mmap.map UInt64.toNat⟩

section BlockNew

variable [Zeros β] {mem : Memory} {world : World β} {bh : Address} {p : Placed β} {os : BlockAnswer} {a elems : Address}

/-- The heap with one block more, all of it free. -/
def Placed.grown (p : Placed β) (a elems : Address) : Placed β :=
  { p with
    blocksAllocated := p.blocksAllocated + 1
    freeElems := p.freeElems + p.sizes.elemsPerBlock
    blocks := (a, p.heap.freshBlock elems.toNat) :: p.blocks }

theorem Placed.grown_heap (p : Placed β) (a elems : Address) : (p.grown a elems).heap = p.heap.grown elems.toNat := rfl

omit [Zeros β] in
/-- New ground meets no block. -/
private theorem BlockAnswer.Lawful.distinct {size : UInt64} (lawful : os.Lawful mem size) (calloc : os.calloc = some a)
    (mmap : os.mmap = some elems) {b : Balloc.Block β} (region : b.region = (elems.toNat, size.toNat)) {s : Sizes}
    {y : Address × Balloc.Block β} (block : BlockHolds mem s y) : Distinct (a, b) y := by
  obtain ⟨r, record, -⟩ := block.record
  constructor
  · rintro rfl
    rw [lawful.calloc _ calloc] at record
    contradiction
  · have apart := lawful.apart elems mmap _ block.area
    rw [block.start_toNat] at apart
    rw [region, block.region]
    exact apart

/-- The block that `blockheap_block_new` makes, as a sequence. -/
private theorem freshBlock_holds {mem' : Memory} (p : Placed β) (inside : elems.toNat + p.sizes.allocSize.toNat < 2 ^ 64)
    (nonempty : 0 < p.sizes.allocSize.toNat) {freeList : DlinkList} (length : freeList.length = p.sizes.elemsPerBlock)
    (found : mem'.blocks a = some { allocSize := p.sizes.allocSize, elems, freeList })
    (area : (elems, p.sizes.allocSize) ∈ mem'.areas)
    (linked : Linked mem'.headers.links freeList.ends
      ((slots elems.toNat p.sizes.elemsPerBlock.toNat).reverse.map p.sizes.header))
    (payload : ∀ m ∈ slots elems.toNat p.sizes.elemsPerBlock.toNat,
      mem'.headers.payload (p.sizes.header m) = some (some (p.sizes.element m), some a)) :
    BlockHolds mem' p.sizes (a, p.heap.freshBlock elems.toNat) := by
  have part := p.heap.freshBlock_partitioned elems.toNat
  refine
    { record := ⟨_, found, rfl, rfl, ⟨?_, ?_⟩, ⟨rfl, Linked.empty _⟩⟩
      payload := payload
      area := ?_
      nonempty := nonempty
      inside := inside
      sized := rfl
      part := part }
  · apply UInt64.toNat_inj.mp
    have counted := part.free
    rw [Dlink.DlinkList.Counted, p.heap.freshBlock_free elems.toNat, List.length_reverse, Balloc.slots_length] at counted
    rw [counted, length]
    rfl
  · rw [p.heap.freshBlock_free elems.toNat]
    exact linked
  · simpa [Balloc.BlockHeap.freshBlock] using area

/-- `blockheap_block_new` when both allocations succeed. -/
theorem Represents.blockNew (rep : Represents mem world) (placed : world bh = some p)
    (lawful : os.Lawful mem p.sizes.allocSize) (calloc : os.calloc = some a) (mmap : os.mmap = some elems) :
    ∃ mem', blockheapBlockNew bh os mem = some (0, mem') ∧
      Represents mem' (Function.update world bh (some (p.grown a elems))) ∧
      mem'.heapLists = mem.heapLists ∧ mem'.dying = mem.dying := by
  have holds := rep.holds bh p placed
  have inside := lawful.inside elems mmap
  obtain ⟨headers, freeList, ran, length, linked, payload, others⟩ :=
    blockheapBlockNew_spec holds.record holds.fits calloc mmap inside
  obtain ⟨mem', after⟩ : ∃ mem' : Memory, mem' = { mem with
    headers
    areas := (elems, p.sizes.allocSize) :: mem.areas
    blocks := Function.update mem.blocks a (some { allocSize := p.sizes.allocSize, elems, freeList })
    heaps := Function.update mem.heaps bh (some (p.grown a elems).record) } := ⟨_, rfl⟩
  have fresh : BlockHolds mem' p.sizes (a, p.heap.freshBlock elems.toNat) := by
    subst after
    exact freshBlock_holds p inside (lawful.nonempty elems mmap) length (Function.update_self ..)
      (List.mem_cons_self ..) linked payload
  have spares : Spares mem mem' (a, p.heap.freshBlock elems.toNat) := by
    subst after
    refine { blocks := fun other different => Function.update_of_ne different .., headers := ?_, areas := ?_ }
    · intro k apart
      exact others k (fresh.header_ne holds.fits apart)
    · intro area member _
      exact List.mem_cons_of_mem _ member
  have distinct : ∀ other q, world other = some q → ∀ y ∈ q.blocks,
      Distinct (a, p.heap.freshBlock elems.toNat) y := by
    intro other q found y listed
    exact lawful.distinct calloc mmap fresh.region ((rep.holds other q found).blocks y listed)
  refine ⟨mem', ?_, rep.prepend placed spares fresh distinct _ _ ?_ ?_, by rw [after], by rw [after]⟩
  · rw [ran, after]
    rfl
  · rw [after]
    rfl
  · rw [after]

end BlockNew

end FsPkg.BallocMemory
