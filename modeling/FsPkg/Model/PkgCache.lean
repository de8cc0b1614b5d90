import FsPkg.Model.Balloc
import Mathlib.Data.Int.Notation

/-! # The package cache of `pkg.c`

Open packages are kept on `pkg_list`. A handle is an element of `pkg_heap`; the list nodes are
elements of `node_heap`, each holding the pointer to its handle, so finding a package really reads
both heaps. A pointer into a block that is no longer mapped cannot be read (`none`), and neither
can a `NULL` name be compared.

The answers of the system (`open`, `flock`, `time`, memory) are arguments. The descriptors that
`pkg_open` obtained and nobody closed are tracked with their lock state. Log messages are left out.
-/

namespace FsPkg.Pkg

open Dlink Balloc

/-- A C string: its characters are the bytes before the terminator. -/
abbrev Text := List Char

/-- `struct pkg_handle`. -/
structure PkgHandle where
  fd : Int32 := 0
  refcnt : Int32 := 0
  otime : Int64 := 0
  name : Option Text := none
  id : UInt32 := 0
deriving DecidableEq, Repr

instance : Zeros PkgHandle where
  zeros _ := {}

/-- `struct _dlink_node` as allocated from `node_heap`; its links are the order of the list. -/
structure DlinkNode where
  data : Option MemBlock := none
deriving DecidableEq, Repr

instance : Zeros DlinkNode where
  zeros _ := {}

/-- A descriptor held by the process, and whether it carries the exclusive lock. -/
structure Descriptor where
  fd : Int32
  locked : Bool := false
deriving DecidableEq, Repr

/-- The globals `pkg_heap`, `node_heap`, `dlink_count`, `pkg_list` and `pkg_lifetime`, and the
kernel's view of the descriptors. -/
structure State where
  pkgHeap : BlockHeap PkgHandle
  nodeHeap : BlockHeap DlinkNode
  dlinkCount : Int32 := 0
  pkgList : DlinkList MemBlock := {}
  pkgLifetime : Int64
  descriptors : List Descriptor := []

/-- `dlink_create`: a zeroed node from `node_heap`; writing to it when there is none faults. -/
def dlinkCreate (st : State) (os : BlockEnv) : Option (MemBlock × State) := do
  let result ← blockheapAlloc st.nodeHeap os
  let m ← result.ptr
  let nodeHeap ← result.heap.write m { data := none }
  some (m, { st with nodeHeap, dlinkCount := st.dlinkCount + 1 })

/-- `dlink_add_tail_alloc(data, &pkg_list)`. -/
def dlinkAddTailAlloc (data : MemBlock) (st : State) (os : BlockEnv) : Option State := do
  let (m, st) ← dlinkCreate st os
  let nodeHeap ← st.nodeHeap.write m { data := some data }
  some { st with nodeHeap, pkgList := dlinkAddTail m st.pkgList }

/-- `pkg_findnode`: the first node whose data is the handle. -/
def pkgFindnode (nodeHeap : BlockHeap DlinkNode) (pkg : MemBlock) :
    List MemBlock → Option (Option MemBlock)
  | [] => some none
  | ptr :: next => do
    let node ← nodeHeap.read ptr
    if node.data = some pkg then some (some ptr) else pkgFindnode nodeHeap pkg next

/-- `pkg_handle_byname`: the first listed handle whose name equals the path. -/
def pkgHandleByname (st : State) (path : Text) : List MemBlock → Option (Option MemBlock)
  | [] => some none
  | ptr :: next => do
    let node ← st.nodeHeap.read ptr
    let p ← node.data
    let handle ← st.pkgHeap.read p
    let name ← handle.name
    if name = path then some (some p) else pkgHandleByname st path next

/-- `flock` on a descriptor of ours; on any other number it fails without effect. -/
def setLock (fd : Int32) (locked : Bool) (descriptors : List Descriptor) : List Descriptor :=
  descriptors.map fun d => if d.fd = fd then { d with locked } else d

/-- `close`. -/
def closeFd (fd : Int32) (descriptors : List Descriptor) : List Descriptor :=
  descriptors.filter fun d => d.fd ≠ fd

/-- `pkg_release`: drop the name, unlock, close (descriptor 0 is taken for "none"), and, if the
handle is listed, unlink its node and return the handle to `pkg_heap`. The node is not freed. -/
def pkgRelease (pkg : MemBlock) (st : State) : Option State := do
  let handle ← st.pkgHeap.read pkg
  let descriptors := setLock handle.fd false st.descriptors
  let descriptors := if handle.fd ≠ 0 then closeFd handle.fd descriptors else descriptors
  let pkgHeap ← st.pkgHeap.write pkg
    { handle with name := none, fd := if handle.fd ≠ 0 then -1 else handle.fd }
  match ← pkgFindnode st.nodeHeap pkg st.pkgList.nodes with
  | none => some { st with pkgHeap, descriptors }
  | some ptr => do
    let pkgList ← dlinkDelete ptr st.pkgList
    let node ← st.nodeHeap.read ptr
    let (_, pkgHeap) ← blockheapFree pkgHeap node.data
    some { st with pkgHeap, pkgList, descriptors }

/-- The loop of `pkg_gc`. `DLINK_FOREACH_SAFE` fetches the next node before the body runs, so the
loop visits the nodes the list had at the start. -/
def pkgGcLoop (now : Int64) : List MemBlock → State → Option State
  | [], st => some st
  | ptr :: next, st => do
    let node ← st.nodeHeap.read ptr
    let p ← node.data
    let handle ← st.pkgHeap.read p
    let st ← if handle.refcnt = 0 ∧ now > handle.otime + st.pkgLifetime / 2 then pkgRelease p st else some st
    pkgGcLoop now next st

/-- `pkg_gc` at clock value `now`. -/
def pkgGc (now : Int64) (st : State) : Option State :=
  pkgGcLoop now st.pkgList.nodes st

/-- What the system answers during one `pkg_open`: the descriptor from `open`, whether the lock is
granted, the clock, and memory for a handle and for a node. -/
structure OpenEnv where
  open_ : Option Int32
  flock : Bool
  now : Int64
  pkgBlock : BlockEnv
  nodeBlock : BlockEnv
deriving DecidableEq, Repr

/-- The branch of `pkg_open` for a package that is not cached: allocate, name, open, lock, list. -/
def pkgOpenNew (path : Text) (env : OpenEnv) (st : State) : Option (Option MemBlock × State) := do
  let result ← blockheapAlloc st.pkgHeap env.pkgBlock
  let t ← result.ptr
  let fresh ← result.heap.read t
  match env.open_ with
  | none => do
    let pkgHeap ← result.heap.write t { fresh with name := some path, fd := -1 }
    let st ← pkgRelease t { st with pkgHeap }
    some (none, st)
  | some fd => do
    let pkgHeap ← result.heap.write t { fresh with name := some path, fd }
    let st := { st with pkgHeap, descriptors := ⟨fd, false⟩ :: st.descriptors }
    if env.flock then do
      let st := { st with descriptors := setLock fd true st.descriptors }
      let st ← dlinkAddTailAlloc t st env.nodeBlock
      some (some t, st)
    else do
      let st ← pkgRelease t st
      some (none, st)

/-- `pkg_open`. -/
def pkgOpen (path : Text) (env : OpenEnv) (st : State) : Option (Option MemBlock × State) := do
  let (t, st) ← match ← pkgHandleByname st path st.pkgList.nodes with
    | some t => some (some t, st)
    | none => pkgOpenNew path env st
  match t with
  | none => some (none, st)
  | some t => do
    let handle ← st.pkgHeap.read t
    let pkgHeap ← st.pkgHeap.write t { handle with otime := env.now, refcnt := handle.refcnt + 1 }
    some (some t, { st with pkgHeap })

/-- `pkg_close`. -/
def pkgClose (pkg : MemBlock) (st : State) : Option State := do
  let handle ← st.pkgHeap.read pkg
  let pkgHeap ← st.pkgHeap.write pkg { handle with refcnt := handle.refcnt - 1 }
  some { st with pkgHeap }

/-- A `blockheap_gc` tick collects every registered heap. -/
def blockheapGc (st : State) : State :=
  { st with
    pkgHeap := blockheapGarbagecollect st.pkgHeap
    nodeHeap := blockheapGarbagecollect st.nodeHeap }

/-- The handles on `pkg_list`, in list order. -/
def State.listed (st : State) : List MemBlock :=
  st.pkgList.nodes.filterMap fun ptr => (st.nodeHeap.read ptr).bind DlinkNode.data

/-- The name stored in a handle. -/
def State.name (st : State) (pkg : MemBlock) : Option Text :=
  (st.pkgHeap.read pkg).bind PkgHandle.name

end FsPkg.Pkg
