import Mathlib.Data.UInt
import Mathlib.Logic.Function.Basic

/-! # Doubly linked lists, pointer by pointer

`dlink.c` over a memory of nodes and list heads, each stored by its address. An assignment through a pointer changes one
field of one record, in the order of the source, so that two arguments may be the same list. A result `none` stands for
undefined behaviour, a `NULL` or stray dereference; a walk through more nodes than there are addresses never ends, and
has no result either.
-/

namespace FsPkg.DlinkMemory

/-- A pointer other than `NULL`. -/
abbrev Address := { address : UInt64 // address ≠ 0 }

/-- `dlink_node`. -/
structure DlinkNode where
  data : UInt64 := 0
  next : Option Address := none
  prev : Option Address := none
deriving DecidableEq

/-- `dlink_list`. -/
structure DlinkList where
  head : Option Address := none
  tail : Option Address := none
  length : UInt64 := 0
deriving DecidableEq

structure Memory where
  nodes : Address → Option DlinkNode
  lists : Address → Option DlinkList

namespace Memory

/-- An assignment through a pointer to a node. -/
def modifyNode (mem : Memory) (m : Address) (change : DlinkNode → DlinkNode) : Option Memory :=
  (mem.nodes m).map fun node => { mem with nodes := Function.update mem.nodes m (some (change node)) }

/-- An assignment through a pointer to a list. -/
def modifyList (mem : Memory) (list : Address) (change : DlinkList → DlinkList) : Option Memory :=
  (mem.lists list).map fun l => { mem with lists := Function.update mem.lists list (some (change l)) }

def setData (mem : Memory) (m : Address) (data : UInt64) : Option Memory :=
  mem.modifyNode m fun node => { node with data }

def setNext (mem : Memory) (m : Address) (next : Option Address) : Option Memory :=
  mem.modifyNode m fun node => { node with next }

def setPrev (mem : Memory) (m : Address) (prev : Option Address) : Option Memory :=
  mem.modifyNode m fun node => { node with prev }

def setHead (mem : Memory) (list : Address) (head : Option Address) : Option Memory :=
  mem.modifyList list fun l => { l with head }

def setTail (mem : Memory) (list : Address) (tail : Option Address) : Option Memory :=
  mem.modifyList list fun l => { l with tail }

/-- `list->length++`. -/
def lengthUp (mem : Memory) (list : Address) : Option Memory :=
  mem.modifyList list fun l => { l with length := l.length + 1 }

/-- `list->length--`. -/
def lengthDown (mem : Memory) (list : Address) : Option Memory :=
  mem.modifyList list fun l => { l with length := l.length - 1 }

end Memory

/-- The end of `dlink_add` and `dlink_move`: `m`, whose links are set, becomes the head. -/
def becomeHead (m list : Address) (mem : Memory) : Option Memory := do
  let l ← mem.lists list
  let mem ← match l.head with
    | some head => mem.setPrev head (some m)
    | none => if l.tail = none then mem.setTail list (some m) else some mem
  mem.setHead list (some m)

/-- `dlink_add`. -/
def dlinkAdd (data : UInt64) (m list : Address) (mem : Memory) : Option Memory := do
  let mem ← mem.setData m data
  let l ← mem.lists list
  let mem ← mem.setNext m l.head
  let mem ← mem.setPrev m none
  let mem ← becomeHead m list mem
  mem.lengthUp list

/-- `dlink_add_before`. -/
def dlinkAddBefore (b : Address) (data : UInt64) (m list : Address) (mem : Memory) : Option Memory := do
  let l ← mem.lists list
  if l.head = some b then dlinkAdd data m list mem
  else
    let mem ← mem.setData m data
    let before ← (← mem.nodes b).prev
    let mem ← mem.setNext before (some m)
    let mem ← mem.setPrev m (← mem.nodes b).prev
    let mem ← mem.setPrev b (some m)
    let mem ← mem.setNext m (some b)
    mem.lengthUp list

/-- `dlink_add_tail`. -/
def dlinkAddTail (data : UInt64) (m list : Address) (mem : Memory) : Option Memory := do
  let mem ← mem.setData m data
  let mem ← mem.setNext m none
  let l ← mem.lists list
  let mem ← mem.setPrev m l.tail
  let mem ← match l.head, l.tail with
    | none, _ => mem.setHead list (some m)
    | some _, some tail => mem.setNext tail (some m)
    | some _, none => some mem
  let mem ← mem.setTail list (some m)
  mem.lengthUp list

/-- The predecessor of a node, or else the head of the list, goes on with its successor. -/
def unlinkPrev (m list : Address) (mem : Memory) : Option Memory := do
  let node ← mem.nodes m
  match node.prev with
  | none => mem.setHead list node.next
  | some prev => mem.setNext prev node.next

/-- The successor of a node, or else the tail of the list, goes back to its predecessor. -/
def unlinkNext (m list : Address) (mem : Memory) : Option Memory := do
  let node ← mem.nodes m
  match node.next with
  | none => mem.setTail list node.prev
  | some next => mem.setPrev next node.prev

/-- `dlink_delete`; the links of `m` stay as they are. -/
def dlinkDelete (m list : Address) (mem : Memory) : Option Memory := do
  let mem ← unlinkPrev m list mem
  let mem ← unlinkNext m list mem
  mem.lengthDown list

/-- More nodes than there are addresses. -/
def addresses : ℕ := 2 ^ 64

/-- The loop of `dlink_find` and `dlink_find_delete`: the first node from `ptr` on with this data. -/
def findLoop (data : UInt64) (mem : Memory) : ℕ → Option Address → Option (Option Address)
  | _, none => some none
  | 0, some _ => none
  | fuel + 1, some ptr => do
    let node ← mem.nodes ptr
    if node.data = data then some (some ptr) else findLoop data mem fuel node.next

/-- `dlink_find`. -/
def dlinkFind (data : UInt64) (list : Address) (mem : Memory) : Option (Option Address) := do
  let l ← mem.lists list
  findLoop data mem addresses l.head

/-- `dlink_find_delete`. -/
def dlinkFindDelete (data : UInt64) (list : Address) (mem : Memory) : Option (Option Address × Memory) := do
  let l ← mem.lists list
  match ← findLoop data mem addresses l.head with
  | none => some (none, mem)
  | some ptr => do
    let mem ← unlinkNext ptr list mem
    let mem ← unlinkPrev ptr list mem
    let mem ← mem.setPrev ptr none
    let mem ← mem.setNext ptr none
    let mem ← mem.lengthDown list
    some (some ptr, mem)

/-- `dlink_move`. -/
def dlinkMove (m oldlist newlist : Option Address) (mem : Memory) : Option Memory :=
  match m, oldlist, newlist with
  | some m, some oldlist, some newlist => do
    let mem ← unlinkNext m oldlist mem
    let mem ← unlinkPrev m oldlist mem
    let mem ← mem.setPrev m none
    let l ← mem.lists newlist
    let mem ← mem.setNext m l.head
    let mem ← becomeHead m newlist mem
    let mem ← mem.lengthDown oldlist
    mem.lengthUp newlist
  | _, _, _ => some mem

end FsPkg.DlinkMemory
