import FsPkg.Model.Balloc

/-! # The block allocator over its memory

`balloc.c` and the functions of `dlink.c` that it calls, pointer by pointer. The headers in the element areas, the
records of the blocks and those of the heaps are stored by their addresses, so a call may follow a pointer from one heap
into another. What is not recorded is the data between the headers; a `memset` over a header clears the fields it
covers. The chain link `next` of a block is the order of `BlockHeap.base`, and the registry is the order of its heaps.

Pointers are `size_t` numbers or `NULL`, and pointer arithmetic wraps. A result `none` stands for undefined behaviour: a
`NULL` or stray dereference, or an access outside a mapping. The answers of `calloc` and `mmap` are arguments; a block
record that is lost when `mmap` fails is not recorded.
-/

namespace FsPkg.BallocMemory

open Balloc (sizeofMemBlock padElemSize)

abbrev Address := UInt64

/-- `dlink_node`. -/
structure DlinkNode where
  data : Option Address := none
  next : Option Address := none
  prev : Option Address := none
deriving DecidableEq, Repr

/-- `struct MemBlock`, the header of an element. -/
structure MemBlock where
  self : DlinkNode := {}
  block : Option Address := none
deriving DecidableEq, Repr

/-- `dlink_list`. -/
structure DlinkList where
  head : Option Address := none
  tail : Option Address := none
  length : UInt64 := 0
deriving DecidableEq, Repr

/-- `struct Block`. -/
structure Block where
  allocSize : UInt64
  elems : Address
  freeList : DlinkList := {}
  usedList : DlinkList := {}
deriving DecidableEq, Repr

/-- `struct BlockHeap` without its name and registry link. -/
structure BlockHeap where
  elemSize : UInt64
  elemsPerBlock : UInt64
  blocksAllocated : UInt64
  freeElems : UInt64
  base : List Address
deriving DecidableEq, Repr

abbrev Headers := Address → Option MemBlock

/-- The headers, the areas that `mmap` returned with their sizes, the records of blocks and heaps, the heaps on
`heap_lists`, and `conf.dying`. -/
structure Memory where
  headers : Headers := fun _ => none
  areas : List (Address × UInt64) := []
  blocks : Address → Option Block := fun _ => none
  heaps : Address → Option BlockHeap := fun _ => none
  heapLists : List Address := []
  dying : Bool := false

/-! ## `dlink.c` -/

/-- An assignment through a pointer to a header. -/
def Headers.modify (headers : Headers) (m : Address) (change : MemBlock → MemBlock) : Option Headers :=
  (headers m).map fun h => Function.update headers m (some (change h))

def Headers.setNext (headers : Headers) (m : Address) (next : Option Address) : Option Headers :=
  headers.modify m fun h => { h with self := { h.self with next } }

def Headers.setPrev (headers : Headers) (m : Address) (prev : Option Address) : Option Headers :=
  headers.modify m fun h => { h with self := { h.self with prev } }

/-- The end of `dlink_add` and `dlink_move`: `m`, whose links are set, becomes the head. -/
def dlinkHead (m : Address) (headers : Headers) (list : DlinkList) : Option (Headers × DlinkList) := do
  let (headers, list) ← match list.head with
    | some head => (headers.setPrev head (some m)).map (·, list)
    | none => some (headers, if list.tail = none then { list with tail := some m } else list)
  some (headers, { list with head := some m, length := list.length + 1 })

/-- `dlink_add`. -/
def dlinkAdd (data : Address) (m : Address) (headers : Headers) (list : DlinkList) : Option (Headers × DlinkList) := do
  let headers ← headers.modify m fun h => { h with self := { data := some data, next := list.head, prev := none } }
  dlinkHead m headers list

/-- The first half of unlinking a node in `dlink_move`: its successor, or the tail of the list. -/
def unlinkNext (h : MemBlock) (headers : Headers) (list : DlinkList) : Option (Headers × DlinkList) :=
  match h.self.next with
  | some next => (headers.setPrev next h.self.prev).map (·, list)
  | none => some (headers, { list with tail := h.self.prev })

/-- The second half: its predecessor, or the head of the list. -/
def unlinkPrev (h : MemBlock) (headers : Headers) (list : DlinkList) : Option (Headers × DlinkList) :=
  match h.self.prev with
  | some prev => (headers.setNext prev h.self.next).map (·, list)
  | none => some (headers, { list with head := h.self.next })

/-- `dlink_move` for two lists that differ. The links of `m` are read again for its second neighbour. -/
def dlinkMove (m : Address) (headers : Headers) (oldlist newlist : DlinkList) :
    Option (Headers × DlinkList × DlinkList) := do
  let h ← headers m
  let (headers, oldlist) ← unlinkNext h headers oldlist
  let h ← headers m
  let (headers, oldlist) ← unlinkPrev h headers oldlist
  let headers ← headers.setPrev m none
  let headers ← headers.setNext m newlist.head
  let (headers, newlist) ← dlinkHead m headers newlist
  some (headers, { oldlist with length := oldlist.length - 1 }, newlist)

/-! ## Memory -/

/-- The word at `address + offset` lies in the range. -/
def covered (ptr : Address) (size : UInt64) (address : Address) (offset : ℕ) : Bool :=
  decide (ptr.toNat ≤ address.toNat + offset ∧ address.toNat + offset < ptr.toNat + size.toNat)

/-- A header after zeros were written over a range: its four words lie one after the other. -/
def MemBlock.clear (ptr : Address) (size : UInt64) (address : Address) (h : MemBlock) : MemBlock where
  self :=
    { data := if covered ptr size address 0 then none else h.self.data
      next := if covered ptr size address 8 then none else h.self.next
      prev := if covered ptr size address 16 then none else h.self.prev }
  block := if covered ptr size address 24 then none else h.block

/-- `memset(ptr, 0, size)`, inside one mapping. -/
def memset (ptr : Address) (size : UInt64) (mem : Memory) : Option Memory :=
  if mem.areas.any fun area =>
      decide (area.1.toNat ≤ ptr.toNat ∧ ptr.toNat + size.toNat ≤ area.1.toNat + area.2.toNat) then
    some { mem with headers := fun address => (mem.headers address).map (·.clear ptr size address) }
  else none

/-- `blockheap_block_free`: `munmap`. -/
def blockheapBlockFree (ptr : Address) (size : UInt64) (mem : Memory) : Memory :=
  { mem with
    areas := mem.areas.filter fun area => area ≠ (ptr, size)
    headers := fun address =>
      if ptr.toNat ≤ address.toNat ∧ address.toNat < ptr.toNat + size.toNat then none else mem.headers address }

/-! ## `balloc.c` -/

/-- What the system answers when a block is requested: the addresses that `calloc` and `mmap` return. -/
structure BlockAnswer where
  calloc : Option Address
  mmap : Option Address
deriving DecidableEq, Repr

/-- The setup loop of `blockheap_block_new`. The area ends at `limit`, and `offset` never passes it. -/
def setupLoop (b : Address) (elemSize : UInt64) (limit : ℕ) :
    ℕ → Address → Headers → DlinkList → Option (Headers × DlinkList)
  | 0, _, headers, freeList => some (headers, freeList)
  | count + 1, offset, headers, freeList =>
    if offset.toNat + elemSize.toNat + sizeofMemBlock.toNat ≤ limit then do
      let newblk : MemBlock := { block := some b }
      let data := offset + sizeofMemBlock
      let (headers, freeList) ← dlinkAdd data offset (Function.update headers offset (some newblk)) freeList
      setupLoop b elemSize limit count (offset + elemSize + sizeofMemBlock) headers freeList
    else none

/-- `blockheap_block_new`. -/
def blockheapBlockNew (bh : Address) (os : BlockAnswer) (mem : Memory) : Option (ℕ × Memory) :=
  match os.calloc with
  | none => some (1, mem)
  | some b => do
    let heap ← mem.heaps bh
    let allocSize := (heap.elemsPerBlock + 1) * (heap.elemSize + sizeofMemBlock)
    match os.mmap with
    | none => some (1, mem)
    | some elems =>
      let (headers, freeList) ← setupLoop b heap.elemSize (elems.toNat + allocSize.toNat) heap.elemsPerBlock.toNat
        elems mem.headers {}
      some (0, { mem with
        headers
        areas := (elems, allocSize) :: mem.areas
        blocks := Function.update mem.blocks b (some { allocSize, elems, freeList })
        heaps := Function.update mem.heaps bh (some { heap with
          blocksAllocated := heap.blocksAllocated + 1
          freeElems := heap.freeElems + heap.elemsPerBlock
          base := b :: heap.base }) })

/-- The heap record as `blockheap_create` fills it in, before the first block. -/
def emptyHeap (elemsize : UInt64) (elemsperblock : Int32) : BlockHeap where
  elemSize := padElemSize elemsize
  elemsPerBlock := elemsperblock.toInt64.toUInt64
  blocksAllocated := 0
  freeElems := 0
  base := []

/-- `blockheap_create`: the heap record is at the address that its `calloc` returns. -/
def blockheapCreate (elemsize : UInt64) (elemsperblock : Int32) (calloc : Option Address) (os : BlockAnswer)
    (mem : Memory) : Option (Address × Memory) := do
  let dying := mem.dying || decide (elemsize ≤ 0 ∨ elemsperblock ≤ 0)
  let bh ← calloc
  let (code, mem) ← blockheapBlockNew bh os
    { mem with heaps := Function.update mem.heaps bh (some (emptyHeap elemsize elemsperblock)), dying }
  -- a record that was freed is used on
  if code = 0 then some (bh, { mem with heapLists := bh :: mem.heapLists }) else none

/-- The loop of `blockheap_garbagecollect`, with the two counters it decrements. -/
def garbagecollectWalk (elemsPerBlock : UInt64) :
    List Address → UInt64 → UInt64 → Memory → Option (List Address × UInt64 × UInt64 × Memory)
  | [], blocksAllocated, freeElems, mem => some ([], blocksAllocated, freeElems, mem)
  | walker :: next, blocksAllocated, freeElems, mem => do
    let block ← mem.blocks walker
    if block.freeList.length = elemsPerBlock then
      let mem := blockheapBlockFree block.elems block.allocSize mem
      garbagecollectWalk elemsPerBlock next (blocksAllocated - 1) (freeElems - elemsPerBlock)
        { mem with blocks := Function.update mem.blocks walker none }
    else do
      let (rest, blocks, free, mem) ← garbagecollectWalk elemsPerBlock next blocksAllocated freeElems mem
      some (walker :: rest, blocks, free, mem)

/-- `blockheap_garbagecollect`. -/
def blockheapGarbagecollect (bh : Address) (mem : Memory) : Option Memory := do
  let heap ← mem.heaps bh
  if heap.freeElems < heap.elemsPerBlock ∨ heap.blocksAllocated = 1 then some mem
  else do
    let (base, blocksAllocated, freeElems, mem) ←
      garbagecollectWalk heap.elemsPerBlock heap.base heap.blocksAllocated heap.freeElems mem
    some { mem with heaps := Function.update mem.heaps bh (some { heap with base, blocksAllocated, freeElems }) }

/-- `blockheap_gc`, the timer: every registered heap is collected. -/
def blockheapGc (mem : Memory) : Option Memory :=
  mem.heapLists.foldlM (fun mem bh => blockheapGarbagecollect bh mem) mem

/-- The search loop of `blockheap_alloc`: whether it returns, and what. `NULL` has no `data`, and there is nothing to
zero behind a `NULL`. -/
def allocWalk (elemSize : UInt64) : List Address → Memory → Option (Option (Option Address) × Memory)
  | [], mem => some (none, mem)
  | walker :: next, mem => do
    let block ← mem.blocks walker
    if 0 < block.freeList.length then
      let newNode ← block.freeList.head
      let (headers, freeList, usedList) ← dlinkMove newNode mem.headers block.freeList block.usedList
      let mem := { mem with headers, blocks := Function.update mem.blocks walker (some { block with freeList, usedList }) }
      let data ← (← headers newNode).self.data
      let mem ← memset data elemSize mem
      some (some (← mem.headers newNode).self.data, mem)
    else allocWalk elemSize next mem

/-- What `blockheap_alloc` does before its search: without a free element it asks for a block, and collects when there
is none to be had. -/
def allocReserve (bh : Address) (os : BlockAnswer) (heap : BlockHeap) (mem : Memory) : Option Memory :=
  if heap.freeElems = 0 then do
    let (code, mem) ← blockheapBlockNew bh os mem
    if code ≠ 0 then do
      let mem ← blockheapGarbagecollect bh mem
      let heap ← mem.heaps bh
      some { mem with dying := mem.dying || decide (heap.freeElems = 0) }
    else some mem
  else some mem

/-- `blockheap_alloc`. -/
def blockheapAlloc (bh : Address) (os : BlockAnswer) (mem : Memory) : Option (Option Address × Memory) := do
  let heap ← mem.heaps bh
  let mem ← allocReserve bh os heap mem
  let heap ← mem.heaps bh
  match ← allocWalk heap.elemSize heap.base mem with
  | (some data, mem) =>
    some (data, { mem with
      heaps := Function.update mem.heaps bh (some { heap with freeElems := heap.freeElems - 1 }) })
  | (none, mem) => some (none, { mem with dying := true })

/-- `blockheap_free`: the code and the memory. A `NULL` block is reported, and then used. -/
def blockheapFree (bh ptr : Option Address) (mem : Memory) : Option (ℕ × Memory) :=
  match bh with
  | none => some (1, mem)
  | some bh =>
    match ptr with
    | none => some (1, mem)
    | some ptr => do
      let memblock := ptr - sizeofMemBlock
      let _ ← mem.headers memblock
      let heap ← mem.heaps bh
      let mem ← memset ptr heap.elemSize mem
      let block ← (← mem.headers memblock).block
      let record ← mem.blocks block
      let (headers, usedList, freeList) ← dlinkMove memblock mem.headers record.usedList record.freeList
      some (0, { mem with
        headers
        blocks := Function.update mem.blocks block (some { record with usedList, freeList })
        heaps := Function.update mem.heaps bh (some { heap with freeElems := heap.freeElems + 1 }) })

/-- The loop of `blockheap_destroy`. -/
def destroyWalk : List Address → Memory → Option Memory
  | [], mem => some mem
  | walker :: next, mem => do
    let block ← mem.blocks walker
    let mem := blockheapBlockFree block.elems block.allocSize mem
    destroyWalk next { mem with blocks := Function.update mem.blocks walker none }

/-- `blockheap_destroy` of a heap on `heap_lists`. -/
def blockheapDestroy (bh : Address) (mem : Memory) : Option Memory := do
  let heap ← mem.heaps bh
  let mem ← destroyWalk heap.base mem
  some { mem with heapLists := mem.heapLists.erase bh, heaps := Function.update mem.heaps bh none }

end FsPkg.BallocMemory
