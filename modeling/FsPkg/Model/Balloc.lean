import FsPkg.Model.Dlink
import Mathlib.Logic.Function.Basic

/-! # The block allocator of `balloc.c`

A heap owns a chain of blocks. Each block is one `mmap`ed area laid out as `elemsPerBlock` headers
(`struct MemBlock`), each followed by `elemSize` bytes of data; every header is linked on the
block's `free_list` or `used_list`. A data pointer is modelled by the header in front of it, that
is, by the block it points back to and its position there. Counters are `unsigned long` and wrap.

Contents are stored per block, so unmapping a block loses them. They are kept abstract in a type
`β` with a value for "all bytes zero": raw bytes, or the structure a client keeps in the heap.
A result `none` stands for undefined behaviour of the C program (a `NULL` dereference, a use after
free, an access outside a mapping); the answers of `calloc` and `mmap` are arguments.
-/

namespace FsPkg.Balloc

open Dlink

/-- Element contents with the value a `memset` to zero leaves behind, given the element size. -/
class Zeros (β : Type) where
  zeros : UInt64 → β

/-- Raw contents: a byte string, zeroed to the element size. -/
instance : Zeros (List UInt8) where
  zeros size := List.replicate size.toNat 0

/-- A header: the block it belongs to (the address of its element area) and its position there. -/
structure MemBlock where
  block : ℕ
  index : ℕ
deriving DecidableEq, Repr

/-- `sizeof(struct MemBlock)` on LP64: three pointers of the embedded `dlink_node`, one to the block. -/
def sizeofMemBlock : UInt64 := 32

/-- `sizeof(void *)`. -/
def sizeofPointer : UInt64 := 8

/-- `struct Block`. The chain link `next` is the order of `BlockHeap.base`. -/
structure Block (β : Type) where
  elems : ℕ
  allocSize : UInt64
  freeList : DlinkList MemBlock
  usedList : DlinkList MemBlock
  data : ℕ → β

/-- `struct BlockHeap` without its name and registry link. -/
structure BlockHeap (β : Type) where
  elemSize : UInt64
  elemsPerBlock : UInt64
  blocksAllocated : UInt64
  freeElems : UInt64
  base : List (Block β)

variable {β : Type}

/-- What the system answers when a block is requested: whether `calloc` yields the block record,
and the address `mmap` returns, if any. -/
structure BlockEnv where
  calloc : Bool
  mmap : Option ℕ
deriving DecidableEq, Repr

/-- The size requested from `mmap`, computed in `size_t`. -/
def BlockHeap.allocSize (bh : BlockHeap β) : UInt64 :=
  (bh.elemsPerBlock + 1) * (bh.elemSize + sizeofMemBlock)

/-- The distance from one header to the next, without wraparound. -/
def BlockHeap.stride (bh : BlockHeap β) : ℕ :=
  bh.elemSize.toNat + sizeofMemBlock.toNat

/-- The headers of a block at `elems`, in address order. -/
def slots (elems count : ℕ) : List MemBlock :=
  (List.range count).map (MemBlock.mk elems)

/-- `blockheap_block_new`: 0 and the grown heap, or 1 and the heap as it was. The setup loop walks
`elemsPerBlock` strides through the new area; leaving it is undefined behaviour. -/
def blockheapBlockNew [Zeros β] (bh : BlockHeap β) (os : BlockEnv) : Option (ℕ × BlockHeap β) :=
  if !os.calloc then some (1, bh)
  else match os.mmap with
    | none => some (1, bh)
    | some elems =>
      if bh.elemsPerBlock.toNat * bh.stride ≤ bh.allocSize.toNat then
        -- `dlink_add` puts each header in front of the previous ones
        let freeList := (slots elems bh.elemsPerBlock.toNat).foldl (fun list m => dlinkAdd m list) {}
        let b : Block β :=
          { elems, allocSize := bh.allocSize, freeList, usedList := {},
            data := fun _ => Zeros.zeros bh.elemSize }
        some (0, { bh with
          blocksAllocated := bh.blocksAllocated + 1
          freeElems := bh.freeElems + bh.elemsPerBlock
          base := b :: bh.base })
      else none

/-- The rounding of `blockheap_create` to a pointer boundary. -/
def padElemSize (elemsize : UInt64) : UInt64 :=
  if elemsize % sizeofPointer ≠ 0 then
    (elemsize + sizeofPointer) &&& ~~~(sizeofPointer - 1)
  else elemsize

/-- The heap record as `blockheap_create` fills it in, before the first block. The `int` count is
converted to `unsigned long`. -/
def emptyHeap (elemsize : UInt64) (elemsperblock : Int32) : BlockHeap β where
  elemSize := padElemSize elemsize
  elemsPerBlock := elemsperblock.toInt64.toUInt64
  blocksAllocated := 0
  freeElems := 0
  base := []

/-- `blockheap_create`. "Idiotic sizes" only raise `conf.dying`. A failed `calloc` is followed by a
write through `NULL`, a failed first block by writes to the freed heap record. -/
def blockheapCreate [Zeros β] (elemsize : UInt64) (elemsperblock : Int32) (calloc : Bool)
    (os : BlockEnv) : Option (BlockHeap β) :=
  if !calloc then none
  else do
    let (code, bh) ← blockheapBlockNew (emptyHeap elemsize elemsperblock) os
    if code = 0 then some bh else none

/-- What `blockheap_create` changes outside the heap: `heap_lists`, whose nodes are named by the addresses of the heap
records they lie in, and `conf.dying`. -/
structure Globals where
  heapLists : DlinkList ℕ := {}
  dying : Bool := false
deriving DecidableEq, Repr

/-- `blockheap_create` with its globals and its result: a `NULL`, or the address of the heap record and the record. The
first argument after the sizes is what `calloc` returns for that record. -/
def blockheapCreateIn [Zeros β] (elemsize : UInt64) (elemsperblock : Int32) (calloc : Option ℕ) (os : BlockEnv)
    (globals : Globals) : Option (Option (ℕ × BlockHeap β) × Globals) :=
  let dying := globals.dying || decide (elemsize ≤ 0 ∨ elemsperblock ≤ 0)
  match calloc with
  -- `conf.dying` is raised and the record is filled in all the same
  | none => none
  | some address => do
    let (code, bh) ← blockheapBlockNew (emptyHeap elemsize elemsperblock) os
    -- the record is freed, and then named, linked in and returned all the same
    if code ≠ 0 then none
    else some (some (address, bh), { heapLists := dlinkAdd address globals.heapLists, dying })

/-- The loop of `blockheap_garbagecollect`, with the two counters it decrements. -/
def garbagecollectWalk (elemsPerBlock : UInt64) :
    List (Block β) → UInt64 → UInt64 → List (Block β) × UInt64 × UInt64
  | [], blocksAllocated, freeElems => ([], blocksAllocated, freeElems)
  | walker :: next, blocksAllocated, freeElems =>
    if walker.freeList.length = elemsPerBlock then
      garbagecollectWalk elemsPerBlock next (blocksAllocated - 1) (freeElems - elemsPerBlock)
    else
      let (rest, blocks, free) := garbagecollectWalk elemsPerBlock next blocksAllocated freeElems
      (walker :: rest, blocks, free)

/-- `blockheap_garbagecollect`. -/
def blockheapGarbagecollect (bh : BlockHeap β) : BlockHeap β :=
  if bh.freeElems < bh.elemsPerBlock ∨ bh.blocksAllocated = 1 then bh
  else
    let (base, blocksAllocated, freeElems) :=
      garbagecollectWalk bh.elemsPerBlock bh.base bh.blocksAllocated bh.freeElems
    { bh with base, blocksAllocated, freeElems }

/-- The search loop of `blockheap_alloc`: the first block with a positive `free_list` length gives
up its head node, whose data is zeroed. A positive length without a head would be a `NULL` node. -/
def allocWalk (zero : β) : List (Block β) → Option (Option MemBlock × List (Block β))
  | [] => some (none, [])
  | walker :: next =>
    if 0 < walker.freeList.length then
      match walker.freeList.nodes with
      | [] => none
      | newNode :: _ => do
        let (freeList, usedList) ← dlinkMove newNode walker.freeList walker.usedList
        some (some newNode,
          { walker with freeList, usedList, data := Function.update walker.data newNode.index zero } :: next)
    else do
      let (found, rest) ← allocWalk zero next
      some (found, walker :: rest)

/-- What `blockheap_alloc` leaves: its result, the heap, and whether `conf.dying` was raised. -/
structure AllocResult (β : Type) where
  ptr : Option MemBlock
  heap : BlockHeap β
  dying : Bool

/-- `blockheap_alloc`. -/
def blockheapAlloc [Zeros β] (bh : BlockHeap β) (os : BlockEnv) : Option (AllocResult β) := do
  let (bh, dying) ←
    if bh.freeElems = 0 then do
      let (code, bh) ← blockheapBlockNew bh os
      if code ≠ 0 then
        let bh := blockheapGarbagecollect bh
        some (bh, decide (bh.freeElems = 0))
      else some (bh, false)
    else some (bh, false)
  let (found, base) ← allocWalk (Zeros.zeros bh.elemSize) bh.base
  match found with
  | some newNode =>
    some { ptr := some newNode, heap := { bh with freeElems := bh.freeElems - 1, base }, dying }
  | none => some { ptr := none, heap := bh, dying := true }

/-- Change the block at an address, if the chain has it. -/
def modifyBlock (elems : ℕ) (change : Block β → Option (Block β)) :
    List (Block β) → Option (List (Block β))
  | [] => none
  | b :: rest =>
    if b.elems = elems then (change b).map (· :: rest)
    else (modifyBlock elems change rest).map (b :: ·)

/-- `blockheap_free` for a pointer into one of this heap's blocks (`NULL` is refused with 1). The
header names its block; `dlink_move` then needs the element to be on that block's `used_list`. -/
def blockheapFree [Zeros β] (bh : BlockHeap β) (ptr : Option MemBlock) : Option (ℕ × BlockHeap β) :=
  match ptr with
  | none => some (1, bh)
  | some memblock => do
    let base ← modifyBlock memblock.block (fun block => do
      let (usedList, freeList) ← dlinkMove memblock block.usedList block.freeList
      some { block with
        freeList, usedList
        data := Function.update block.data memblock.index (Zeros.zeros bh.elemSize) }) bh.base
    some (0, { bh with freeElems := bh.freeElems + 1, base })

/-- `blockheap_usage`: used elements, free elements and memory in use. -/
def blockheapUsage (bh : BlockHeap β) : UInt64 × UInt64 × UInt64 :=
  let freem := bh.freeElems
  let used := bh.blocksAllocated * bh.elemsPerBlock - bh.freeElems
  (used, freem, used * (bh.elemSize + sizeofMemBlock))

/-- A client's load through a data pointer; there is nothing to read outside the mapped blocks. -/
def BlockHeap.read (bh : BlockHeap β) (ptr : MemBlock) : Option β := do
  let b ← bh.base.find? (fun b => b.elems = ptr.block)
  if ptr.index < bh.elemsPerBlock.toNat then some (b.data ptr.index) else none

/-- A client's store through a data pointer. -/
def BlockHeap.write (bh : BlockHeap β) (ptr : MemBlock) (value : β) : Option (BlockHeap β) := do
  if ptr.index < bh.elemsPerBlock.toNat then
    let base ← modifyBlock ptr.block
      (fun b => some { b with data := Function.update b.data ptr.index value }) bh.base
    some { bh with base }
  else none

/-- The elements handed out and not yet freed. -/
def BlockHeap.allocated (bh : BlockHeap β) : List MemBlock :=
  bh.base.flatMap (·.usedList.nodes)

end FsPkg.Balloc
