import FsPkg.Proofs.BallocCreate
import FsPkg.Proofs.BallocMemoryLists

/-! # Where the headers of a block lie

The setup loop of `blockheap_block_new` walks through the new area in strides of an element and its header. While the
area is inside the address space no step wraps, so the header of the element number `i` lies `i` strides after the start
of the area, its data behind it, and the ranges of different elements do not meet. A `memset` of an element then stays
between two headers.
-/

namespace FsPkg.BallocMemory

open Machine Packing
open Balloc (slots mem_slots sizeofMemBlock sizeofMemBlock_toNat)

/-- The two sizes of a heap, which never change. -/
structure Sizes where
  elemSize : UInt64
  elemsPerBlock : UInt64

def BlockHeap.sizes (heap : BlockHeap) : Sizes := ⟨heap.elemSize, heap.elemsPerBlock⟩

namespace Sizes

/-- The distance from one header to the next. -/
def stride (s : Sizes) : ℕ := s.elemSize.toNat + sizeofMemBlock.toNat

/-- The size of an area, computed in `size_t`. -/
def allocSize (s : Sizes) : UInt64 := (s.elemsPerBlock + 1) * (s.elemSize + sizeofMemBlock)

/-- The elements of a block fit its area. -/
def Fits (s : Sizes) : Prop := s.elemsPerBlock.toNat * s.stride ≤ s.allocSize.toNat

/-- The address of a header: so many strides behind the start of its block. -/
def header (s : Sizes) (m : Balloc.MemBlock) : Address := UInt64.ofNat (m.block + m.index * s.stride)

/-- The address of an element, as `blockheap_alloc` returns it. -/
def element (s : Sizes) (m : Balloc.MemBlock) : Address := s.header m + sizeofMemBlock

variable {s : Sizes} {elems : ℕ} {m other : Balloc.MemBlock}

theorem stride_eq (s : Sizes) : s.stride = s.elemSize.toNat + 32 := rfl

/-- One element and its header lie inside the area, and the next multiple of the stride does not wrap. -/
theorem slot_bounds (fits : s.Fits) (slot : m ∈ slots elems s.elemsPerBlock.toNat) :
    elems + m.index * s.stride + s.stride ≤ elems + s.allocSize.toNat := by
  have index : (m.index + 1) * s.stride ≤ s.elemsPerBlock.toNat * s.stride :=
    Nat.mul_le_mul_right _ (mem_slots.mp slot).2
  have whole : s.elemsPerBlock.toNat * s.stride ≤ s.allocSize.toNat := fits
  rw [Nat.add_mul, Nat.one_mul] at index
  omega

theorem header_toNat (fits : s.Fits) (inside : elems + s.allocSize.toNat < 2 ^ 64)
    (slot : m ∈ slots elems s.elemsPerBlock.toNat) : (s.header m).toNat = elems + m.index * s.stride := by
  have bounds := slot_bounds fits slot
  rw [header, (mem_slots.mp slot).1, UInt64.toNat_ofNat']
  exact Nat.mod_eq_of_lt (by omega)

theorem element_toNat (fits : s.Fits) (inside : elems + s.allocSize.toNat < 2 ^ 64)
    (slot : m ∈ slots elems s.elemsPerBlock.toNat) : (s.element m).toNat = (s.header m).toNat + 32 := by
  have bounds := slot_bounds fits slot
  have address := header_toNat fits inside slot
  rw [stride_eq] at bounds
  rw [stride_eq] at address
  rw [element, UInt64.toNat_add, sizeofMemBlock_toNat]
  exact Nat.mod_eq_of_lt (by omega)

/-- The way back from an element to its header. -/
theorem element_sub (s : Sizes) (m : Balloc.MemBlock) : s.element m - sizeofMemBlock = s.header m :=
  UInt64.add_sub_cancel ..

/-- The header lies in its block's area. -/
theorem header_inside (fits : s.Fits) (inside : elems + s.allocSize.toNat < 2 ^ 64)
    (slot : m ∈ slots elems s.elemsPerBlock.toNat) :
    elems ≤ (s.header m).toNat ∧ (s.header m).toNat + s.stride ≤ elems + s.allocSize.toNat := by
  have bounds := slot_bounds fits slot
  rw [header_toNat fits inside slot]
  omega

/-- Of two headers of a block, one lies a whole stride behind the other. -/
theorem header_apart (fits : s.Fits) (inside : elems + s.allocSize.toNat < 2 ^ 64)
    (slot : m ∈ slots elems s.elemsPerBlock.toNat) (slot' : other ∈ slots elems s.elemsPerBlock.toNat)
    (different : m ≠ other) : Apart ((s.header m).toNat, s.stride) ((s.header other).toNat, s.stride) := by
  obtain ⟨block, -⟩ := mem_slots.mp slot
  obtain ⟨block', -⟩ := mem_slots.mp slot'
  rw [header_toNat fits inside slot, header_toNat fits inside slot']
  have indices : m.index ≠ other.index := by
    intro same
    apply different
    cases m
    cases other
    simp_all
  rcases Nat.lt_or_gt_of_ne indices with less | more
  · have strides : (m.index + 1) * s.stride ≤ other.index * s.stride := Nat.mul_le_mul_right _ less
    rw [Nat.add_mul, Nat.one_mul] at strides
    exact .inl (by dsimp only; omega)
  · have strides : (other.index + 1) * s.stride ≤ m.index * s.stride := Nat.mul_le_mul_right _ more
    rw [Nat.add_mul, Nat.one_mul] at strides
    exact .inr (by dsimp only; omega)

theorem header_injective (fits : s.Fits) (inside : elems + s.allocSize.toNat < 2 ^ 64)
    (slot : m ∈ slots elems s.elemsPerBlock.toNat) (slot' : other ∈ slots elems s.elemsPerBlock.toNat)
    (same : s.header m = s.header other) : m = other := by
  by_contra different
  have apart := header_apart fits inside slot slot' different
  rw [same, Apart, stride_eq] at apart
  omega

/-- The ranges of a header and of the data behind it, each given by its start and its size. -/
def slotRanges (s : Sizes) (h : Address) : List (ℕ × ℕ) :=
  [(h.toNat, sizeofMemBlock.toNat), ((h + sizeofMemBlock).toNat, s.elemSize.toNat)]

/-- They lie inside one stride. -/
private theorem slotRanges_inside (fits : s.Fits) (inside : elems + s.allocSize.toNat < 2 ^ 64)
    (slot : m ∈ slots elems s.elemsPerBlock.toNat) {range : ℕ × ℕ} (listed : range ∈ s.slotRanges (s.header m)) :
    (s.header m).toNat ≤ range.1 ∧ range.1 + range.2 ≤ (s.header m).toNat + s.stride := by
  have data : (s.header m + sizeofMemBlock).toNat = (s.header m).toNat + 32 := element_toNat fits inside slot
  rw [stride_eq]
  simp only [slotRanges, List.mem_cons, List.not_mem_nil, or_false] at listed
  rcases listed with rfl | rfl
  · simp [sizeofMemBlock_toNat]
  · dsimp only
    omega

/-- All ranges of a block lie in its area. -/
theorem ranges_inside (fits : s.Fits) (inside : elems + s.allocSize.toNat < 2 ^ 64) :
    ∀ range ∈ ((slots elems s.elemsPerBlock.toNat).map s.header).flatMap s.slotRanges,
      elems ≤ range.1 ∧ range.1 + range.2 ≤ elems + s.allocSize.toNat := by
  intro range listed
  obtain ⟨h, member, listed⟩ := List.mem_flatMap.mp listed
  obtain ⟨m, slot, rfl⟩ := List.mem_map.mp member
  have within := header_inside fits inside slot
  have stride := slotRanges_inside fits inside slot listed
  omega

/-- No two of them meet. -/
theorem ranges_apart (fits : s.Fits) (inside : elems + s.allocSize.toNat < 2 ^ 64) :
    (((slots elems s.elemsPerBlock.toNat).map s.header).flatMap s.slotRanges).Pairwise Apart := by
  rw [List.pairwise_flatMap, List.forall_mem_map, List.pairwise_map]
  constructor
  · intro m slot
    have data : (s.header m + sizeofMemBlock).toNat = (s.header m).toNat + 32 := element_toNat fits inside slot
    simp only [slotRanges, List.pairwise_pair]
    exact .inl (by dsimp only; rw [data, sizeofMemBlock_toNat])
  · apply (Balloc.slots_nodup elems s.elemsPerBlock.toNat).imp_of_mem
    intro m other slot slot' different range listed range' listed'
    have stride := slotRanges_inside fits inside slot listed
    have stride' := slotRanges_inside fits inside slot' listed'
    exact (header_apart fits inside slot slot' different).within stride.1 stride.2 stride'.1 stride'.2

/-- The step of the setup loop from one header to the next. -/
theorem header_succ (s : Sizes) (elems index : ℕ) :
    s.header ⟨elems, index⟩ + s.elemSize + sizeofMemBlock = s.header ⟨elems, index + 1⟩ := by
  apply UInt64.toNat_inj.mp
  simp only [header, UInt64.toNat_add, UInt64.toNat_ofNat', stride]
  rw [Nat.add_mul, Nat.one_mul]
  omega

end Sizes

/-! ## Clearing memory -/

section Memset

variable {mem : Memory} {ptr : Address} {size : UInt64}

/-- A header outside the range is not changed. -/
theorem MemBlock.clear_of_apart {address : Address} (h : MemBlock)
    (apart : Apart (address.toNat, 32) (ptr.toNat, size.toNat)) : h.clear ptr size address = h := by
  have outside : ∀ offset < 32, covered ptr size address offset = false := by
    intro offset small
    rw [covered, decide_eq_false_iff_not]
    intro range
    exact apart.not_both ⟨Nat.le_add_right .., Nat.add_lt_add_left small _⟩ range
  simp only [MemBlock.clear, outside 0 (by decide), outside 8 (by decide), outside 16 (by decide),
    outside 24 (by decide), Bool.false_eq_true, if_false]

/-- `memset` inside an area. -/
theorem memset_spec {area : Address × UInt64} (mapped : area ∈ mem.areas) (start : area.1.toNat ≤ ptr.toNat)
    (stop : ptr.toNat + size.toNat ≤ area.1.toNat + area.2.toNat) :
    ∃ headers, memset ptr size mem = some { mem with headers } ∧
      ∀ address, Apart (address.toNat, 32) (ptr.toNat, size.toNat) → headers address = mem.headers address := by
  refine ⟨fun address => (mem.headers address).map (·.clear ptr size address), ?_, ?_⟩
  · apply if_pos
    rw [List.any_eq_true]
    exact ⟨area, mapped, decide_eq_true ⟨start, stop⟩⟩
  · intro address apart
    cases found : mem.headers address with
    | none => simp [found]
    | some h => simp [found, h.clear_of_apart apart]

end Memset

/-! ## The setup loop -/

section Setup

variable {s : Sizes} {elems : ℕ} {a : Address}

/-- The headers of the elements `first`, `first + 1` and so on. -/
private def headersFrom (s : Sizes) (elems first count : ℕ) : List Address :=
  (List.range' first count).map fun index => s.header ⟨elems, index⟩

private theorem mem_headersFrom {first count : ℕ} {k : Address} : k ∈ headersFrom s elems first count ↔
    ∃ index, first ≤ index ∧ index < first + count ∧ s.header ⟨elems, index⟩ = k := by
  simp only [headersFrom, List.mem_map, List.mem_range'_1, and_assoc]

/-- A new header is filled in and linked in front of the others. -/
private theorem dlinkAdd_new {headers : Headers} {list : DlinkList} {nodes : List Address} {h : Address}
    (linked : Linked headers.links list.ends nodes) (fresh : h ∉ nodes) (data a : Address) :
    ∃ headers' list',
      dlinkAdd data h (Function.update headers h (some { block := some a })) list = some (headers', list') ∧
      list'.length = list.length + 1 ∧ Linked headers'.links list'.ends (h :: nodes) ∧
      headers'.payload h = some (some data, some a) ∧ (∀ k, k ≠ h → headers'.payload k = headers.payload k) ∧
      ∀ k, k ∉ h :: nodes → headers'.links k = headers.links k := by
  obtain ⟨filled, fill⟩ : ∃ filled : Headers, filled =
    Function.update headers h (some { block := some a }) := ⟨_, rfl⟩
  have found : filled h = some { block := some a } := by
    rw [fill, Function.update_self]
  have same : ∀ k, k ≠ h → filled k = headers k := by
    intro k other
    rw [fill, Function.update_of_ne other]
  have kept : Linked filled.links list.ends nodes := by
    apply linked.congr
    intro k member
    have other : k ≠ h := by
      rintro rfl
      exact fresh member
    simp only [Headers.links, same k other]
  obtain ⟨headers', list', ran, length, linked', payload, links⟩ := dlinkAdd_spec found kept fresh data
  rw [← fill]
  refine ⟨headers', list', ran, length, linked', ?_, ?_, ?_⟩
  · rw [payload, Function.update_self]
  · intro k other
    rw [payload, Function.update_of_ne other]
    simp only [Headers.payload, same k other]
  · intro k outside
    rw [links k outside]
    simp only [Headers.links, same k (List.ne_of_not_mem_cons outside)]

/-- The loop from the element `first` on: each header is filled in and linked in front of the others. -/
private theorem setupLoop_from (fits : s.Fits) (inside : elems + s.allocSize.toNat < 2 ^ 64) (count : ℕ) {first : ℕ}
    {headers : Headers} {list : DlinkList} {nodes : List Address} (end_ : first + count = s.elemsPerBlock.toNat)
    (linked : Linked headers.links list.ends nodes) (apart : (headersFrom s elems first count).Disjoint nodes) :
    ∃ headers' list',
      setupLoop a s.elemSize (elems + s.allocSize.toNat) count (s.header ⟨elems, first⟩) headers list =
        some (headers', list') ∧
      list'.length = list.length + UInt64.ofNat count ∧
      Linked headers'.links list'.ends ((headersFrom s elems first count).reverse ++ nodes) ∧
      (∀ index, first ≤ index → index < first + count →
        headers'.payload (s.header ⟨elems, index⟩) = some (some (s.element ⟨elems, index⟩), some a)) ∧
      (∀ k, k ∉ headersFrom s elems first count → headers'.payload k = headers.payload k) ∧
      ∀ k, k ∉ headersFrom s elems first count → k ∉ nodes → headers'.links k = headers.links k := by
  induction count generalizing first headers list nodes with
  | zero =>
    refine ⟨headers, list, rfl, ?_, linked, ?_, fun _ _ => rfl, fun _ _ _ => rfl⟩
    · simp
    · intro index low high
      omega
  | succ count ih =>
    have slot : ⟨elems, first⟩ ∈ slots elems s.elemsPerBlock.toNat := mem_slots.mpr ⟨rfl, by dsimp only; omega⟩
    obtain ⟨-, room⟩ := s.header_inside fits inside slot
    have split : headersFrom s elems first (count + 1) =
        s.header ⟨elems, first⟩ :: headersFrom s elems (first + 1) count := rfl
    rw [split] at apart ⊢
    obtain ⟨here, later⟩ := List.disjoint_cons_left.mp apart
    obtain ⟨headers₁, list₁, ran₁, length₁, linked₁, own, payload₁, links₁⟩ :=
      dlinkAdd_new linked here (s.element ⟨elems, first⟩) a
    have fresh : s.header ⟨elems, first⟩ ∉ headersFrom s elems (first + 1) count := by
      intro member
      obtain ⟨index, low, high, equal⟩ := mem_headersFrom.mp member
      have slot' : ⟨elems, index⟩ ∈ slots elems s.elemsPerBlock.toNat := mem_slots.mpr ⟨rfl, by dsimp only; omega⟩
      have equal := (Balloc.MemBlock.mk.inj (s.header_injective fits inside slot' slot equal)).2
      omega
    have apart' : (headersFrom s elems (first + 1) count).Disjoint (s.header ⟨elems, first⟩ :: nodes) :=
      List.disjoint_cons_right.mpr ⟨fresh, later⟩
    obtain ⟨headers', list', ran, length, linked'', payload, otherPayload, otherLinks⟩ := ih (by omega) linked₁ apart'
    refine ⟨headers', list', ?_, ?_, ?_, ?_, ?_, ?_⟩
    · rw [setupLoop, if_pos (by rw [Nat.add_assoc]; exact room)]
      dsimp only
      rw [s.header_succ]
      simp only [show s.header ⟨elems, first⟩ + sizeofMemBlock = s.element ⟨elems, first⟩ from rfl, ran₁, bind,
        Option.bind_some, ran]
    · rw [length, length₁, UInt64.add_assoc, UInt64.add_comm 1, ← UInt64.ofNat_one, ← UInt64.ofNat_add]
    · simpa using linked''
    · intro index low high
      rcases Nat.eq_or_lt_of_le low with rfl | above
      · rw [otherPayload _ fresh, own]
      · exact payload index above (by omega)
    · intro k outside
      simp only [List.mem_cons, not_or] at outside
      rw [otherPayload k outside.2, payload₁ k outside.1]
    · intro k outside notListed
      simp only [List.mem_cons, not_or] at outside
      rw [otherLinks k outside.2 (by simp [outside.1, notListed]), links₁ k (by simp [outside.1, notListed])]

private theorem headersFrom_zero (s : Sizes) (elems count : ℕ) :
    headersFrom s elems 0 count = (slots elems count).map s.header := by
  rw [headersFrom, slots, List.map_map, List.range_eq_range']
  rfl

/-- The setup loop of a block at `elems`: all headers are filled in and free, and nothing else changes. -/
theorem setupLoop_spec (fits : s.Fits) {elems : Address} (inside : elems.toNat + s.allocSize.toNat < 2 ^ 64)
    (headers : Headers) :
    ∃ headers' list', setupLoop a s.elemSize (elems.toNat + s.allocSize.toNat) s.elemsPerBlock.toNat elems headers {} =
        some (headers', list') ∧
      list'.length = s.elemsPerBlock ∧
      Linked headers'.links list'.ends ((slots elems.toNat s.elemsPerBlock.toNat).reverse.map s.header) ∧
      (∀ m ∈ slots elems.toNat s.elemsPerBlock.toNat,
        headers'.payload (s.header m) = some (some (s.element m), some a)) ∧
      ∀ k, (∀ m ∈ slots elems.toNat s.elemsPerBlock.toNat, k ≠ s.header m) → headers' k = headers k := by
  have start : s.header ⟨elems.toNat, 0⟩ = elems := by
    rw [Sizes.header, Nat.zero_mul, Nat.add_zero, UInt64.ofNat_toNat]
  have empty : Linked headers.links ({} : DlinkList).ends [] := Linked.empty headers.links
  obtain ⟨headers', list', ran, length, linked, payload, otherPayload, otherLinks⟩ :=
    setupLoop_from (a := a) fits inside s.elemsPerBlock.toNat (Nat.zero_add _) empty (List.disjoint_nil_right _)
  rw [start] at ran
  rw [headersFrom_zero] at linked otherPayload otherLinks
  refine ⟨headers', list', ran, ?_, ?_, ?_, ?_⟩
  · rw [length, UInt64.zero_add, UInt64.ofNat_toNat]
  · simpa using linked
  · rintro ⟨block, index⟩ slot
    obtain ⟨rfl, bound⟩ := mem_slots.mp slot
    exact payload index (Nat.zero_le _) (by dsimp only at bound; omega)
  · intro k outside
    have absent : k ∉ (slots elems.toNat s.elemsPerBlock.toNat).map s.header := by
      intro member
      obtain ⟨m, slot, rfl⟩ := List.mem_map.mp member
      exact outside m slot rfl
    exact Headers.ext_at (otherLinks k absent (List.not_mem_nil)) (otherPayload k absent)

/-- `blockheap_block_new` when both allocations succeed: a block with the new headers on its free list. -/
theorem blockheapBlockNew_spec {mem : Memory} {bh : Address} {heap : BlockHeap} {os : BlockAnswer} {a elems : Address}
    (found : mem.heaps bh = some heap) (fits : heap.sizes.Fits) (calloc : os.calloc = some a)
    (mmap : os.mmap = some elems) (inside : elems.toNat + heap.sizes.allocSize.toNat < 2 ^ 64) :
    ∃ headers freeList,
      blockheapBlockNew bh os mem = some (0, { mem with
        headers
        areas := (elems, heap.sizes.allocSize) :: mem.areas
        blocks := Function.update mem.blocks a (some { allocSize := heap.sizes.allocSize, elems, freeList })
        heaps := Function.update mem.heaps bh (some { heap with
          blocksAllocated := heap.blocksAllocated + 1
          freeElems := heap.freeElems + heap.elemsPerBlock
          base := a :: heap.base }) }) ∧
      freeList.length = heap.elemsPerBlock ∧
      Linked headers.links freeList.ends ((slots elems.toNat heap.elemsPerBlock.toNat).reverse.map heap.sizes.header) ∧
      (∀ m ∈ slots elems.toNat heap.elemsPerBlock.toNat,
        headers.payload (heap.sizes.header m) = some (some (heap.sizes.element m), some a)) ∧
      ∀ k, (∀ m ∈ slots elems.toNat heap.elemsPerBlock.toNat, k ≠ heap.sizes.header m) →
        headers k = mem.headers k := by
  obtain ⟨headers, freeList, ran, filled⟩ := setupLoop_spec (a := a) fits inside mem.headers
  refine ⟨headers, freeList, ?_, filled⟩
  have size : (heap.elemsPerBlock + 1) * (heap.elemSize + sizeofMemBlock) = heap.sizes.allocSize := rfl
  have elemSize : heap.elemSize = heap.sizes.elemSize := rfl
  have count : heap.elemsPerBlock.toNat = heap.sizes.elemsPerBlock.toNat := rfl
  simp only [blockheapBlockNew, calloc, mmap, found, bind, Option.bind_some, size]
  rw [elemSize, count, ran]
  rfl

/-- A block with these headers, in the order of their addresses: all are free, each names its element and the block, and
their ranges and those of the elements lie in the area and do not meet. -/
structure LaidOut (mem : Memory) (a : Address) (s : Sizes) (block : Block) (headers : List Address) : Prop where
  stored : mem.blocks a = some block
  count : headers.length = s.elemsPerBlock.toNat
  linked : Linked mem.headers.links block.freeList.ends headers.reverse
  payload : ∀ h ∈ headers, mem.headers.payload h = some (some (h + sizeofMemBlock), some a)
  apart : (headers.flatMap s.slotRanges).Pairwise Apart
  inside : ∀ range ∈ headers.flatMap s.slotRanges,
    block.elems.toNat ≤ range.1 ∧ range.1 + range.2 ≤ block.elems.toNat + block.allocSize.toNat

/-- The block that `blockheap_block_new` makes. -/
theorem blockheapBlockNew_laidOut {mem : Memory} {bh a elems : Address} {heap : BlockHeap}
    (found : mem.heaps bh = some heap) (fits : heap.sizes.Fits)
    (inside : elems.toNat + heap.sizes.allocSize.toNat < 2 ^ 64) :
    ∃ mem' block headers, blockheapBlockNew bh ⟨some a, some elems⟩ mem = some (0, mem') ∧ block.elems = elems ∧
      block.allocSize = heap.sizes.allocSize ∧ LaidOut mem' a heap.sizes block headers := by
  obtain ⟨headers, freeList, ran, -, linked, payload, -⟩ :=
    blockheapBlockNew_spec found fits (show (BlockAnswer.mk (some a) (some elems)).calloc = some a from rfl) rfl inside
  refine ⟨_, { allocSize := heap.sizes.allocSize, elems, freeList },
    (slots elems.toNat heap.elemsPerBlock.toNat).map heap.sizes.header, ran, rfl, rfl, ?_⟩
  refine
    { stored := Function.update_self ..
      count := ?_
      linked := ?_
      payload := ?_
      apart := heap.sizes.ranges_apart fits inside
      inside := heap.sizes.ranges_inside fits inside }
  · rw [List.length_map, Balloc.slots_length]
    rfl
  · rw [← List.map_reverse]
    exact linked
  · intro h member
    obtain ⟨m, slot, rfl⟩ := List.mem_map.mp member
    exact payload m slot

/-- A loop that ended did not leave its area. -/
theorem setupLoop_fits {limit : ℕ} (bound : limit < 2 ^ 64) {count : ℕ} {offset : Address} {headers : Headers}
    {list : DlinkList} {result : Headers × DlinkList}
    (ran : setupLoop a s.elemSize limit count offset headers list = some result) (start : offset.toNat ≤ limit) :
    offset.toNat + count * s.stride ≤ limit := by
  induction count generalizing offset headers list with
  | zero => omega
  | succ count ih =>
    rw [setupLoop] at ran
    split at ran
    · next room =>
      have next : (offset + s.elemSize + sizeofMemBlock).toNat = offset.toNat + s.stride := by
        rw [UInt64.toNat_add, UInt64.toNat_add, Sizes.stride]
        omega
      obtain ⟨⟨headers₁, list₁⟩, -, rest⟩ := Option.bind_eq_some_iff.mp ran
      have total := ih rest (by rw [next, Sizes.stride]; omega)
      rw [next] at total
      rw [Nat.add_mul, Nat.one_mul]
      omega
    · contradiction

end Setup

end FsPkg.BallocMemory
