import FsPkg.Model.VfsInotify

/-! # The watch registry of `vfs_inotify.c`

Watches are elements of `vfs_watch_heap`, listed on `vfs_watch_list` through nodes of the same `node_heap` that
`pkg_list` uses, so the registry contains the package cache. Beside them stands what the kernel watches on
`vfs_inotify_fd`, the only inotify instance of the process; its answers to the system calls are arguments.

`vfs_inotify_evt_get` is modelled here once more, on the heaps. What the packages it imports and forgets do to
the cache are calls of their own.
-/

namespace FsPkg.Vfs

open Machine Dlink Balloc
open Pkg (Text)

instance : Zeros Watch where
  zeros _ := { mask := 0, fd := 0, path := [] }

/-- A directory the kernel watches, under its watch descriptor. -/
structure KernelWatch where
  wd : Int32
  dir : ℕ
deriving DecidableEq, Repr

/-- `vfs_watch_heap`, `vfs_watch_list` and `vfs_inotify_fd`, with the package cache and the kernel's watches. -/
structure Registry where
  cache : Pkg.State
  watchHeap : BlockHeap Watch
  watchList : DlinkList MemBlock := {}
  inotifyFd : Int32
  active : List KernelWatch := []

/-- What the system answers during `vfs_watch_add`: the directory at the path, if it can be watched; the
descriptor for a directory that is not watched yet; and memory for a watch and for a node. -/
structure WatchEnv where
  dir : Option ℕ
  wd : Int32
  watchBlock : BlockEnv
  nodeBlock : BlockEnv
deriving DecidableEq, Repr

/-- `inotify_add_watch`: a watched directory keeps its descriptor. -/
def inotifyAddWatch (active : List KernelWatch) (env : WatchEnv) : Int32 × List KernelWatch :=
  match env.dir with
  | none => (-1, active)
  | some dir =>
    match active.find? fun watched => watched.dir = dir with
    | some watched => (watched.wd, active)
    | none => (env.wd, active ++ [⟨env.wd, dir⟩])

/-- `inotify_rm_watch(fd, wd)`, where `inotifyFd` is the only instance. -/
def inotifyRmWatch (inotifyFd : Int32) (active : List KernelWatch) (fd wd : Int32) : Int32 × List KernelWatch :=
  if fd = inotifyFd ∧ wd ∈ active.map KernelWatch.wd then (0, active.filter fun watched => watched.wd ≠ wd)
  else (-1, active)

/-- The mask of `vfs_watch_add`. -/
def watchMask : UInt32 :=
  inCloseWrite ||| inMovedTo ||| inMovedFrom ||| inDelete ||| inDeleteSelf

namespace Registry

/-- `vfs_watch_findnode`. -/
def vfsWatchFindnode (st : Registry) (watch : MemBlock) : Option (Option MemBlock) :=
  Pkg.pkgFindnode st.cache.nodeHeap watch st.watchList.nodes

/-- `vfs_watch_findnode_byfd`: the first listed watch with the descriptor. -/
def vfsWatchFindnodeByfd (st : Registry) (fd : Int32) : List MemBlock → Option (Option MemBlock)
  | [] => some none
  | ptr :: next => do
    let node ← st.cache.nodeHeap.read ptr
    let data ← node.data
    let watch ← st.watchHeap.read data
    if watch.fd = fd then some (some ptr) else vfsWatchFindnodeByfd st fd next

/-- `dlink_add_tail_alloc(data, &vfs_watch_list)`. -/
def dlinkAddTailAlloc (data : MemBlock) (st : Registry) (os : BlockEnv) : Option Registry := do
  let (m, cache) ← Pkg.dlinkCreate st.cache os
  let nodeHeap ← cache.nodeHeap.write m { data := some data }
  some { st with cache := { cache with nodeHeap }, watchList := dlinkAddTail m st.watchList }

/-- `vfs_watch_add`; the copy of the path fills its field. -/
def vfsWatchAdd (path : Text) (env : WatchEnv) (st : Registry) : Option (Option MemBlock × Registry) := do
  let result ← blockheapAlloc st.watchHeap env.watchBlock
  let wh ← result.ptr
  let (fd, active) := inotifyAddWatch st.active env
  let watchHeap ← result.heap.write wh { mask := watchMask, fd, path := path.take pathMax }
  if fd ≤ 0 then
    let (_, watchHeap) ← blockheapFree watchHeap (some wh)
    some (none, { st with watchHeap, active })
  else
    let st ← dlinkAddTailAlloc wh { st with watchHeap, active } env.nodeBlock
    some (some wh, st)

/-- `vfs_watch_remove`, with the arguments of `inotify_rm_watch` in the order they are given. The node is not
freed. -/
def vfsWatchRemove (watch : MemBlock) (st : Registry) : Option (Int32 × Registry) := do
  let stored ← st.watchHeap.read watch
  let (rv, active) := inotifyRmWatch st.inotifyFd st.active stored.fd st.inotifyFd
  match ← st.vfsWatchFindnode watch with
  | none => some (rv, { st with active })
  | some ptr => do
    let watchList ← dlinkDelete ptr st.watchList
    let node ← st.cache.nodeHeap.read ptr
    let (_, watchHeap) ← blockheapFree st.watchHeap node.data
    some (rv, { st with watchHeap, watchList, active })

/-- The calls of `vfs_inotify_evt_get`, the registry it leaves, and how it ends. -/
structure EvtGet where
  calls : List (ℕ × PkgCall) := []
  registry : Registry
  ending : Ending

/-- A call made before the others. -/
def EvtGet.after (offset : ℕ) (call : PkgCall) (rest : EvtGet) : EvtGet :=
  { rest with calls := (offset, call) :: rest.calls }

/-- The `while` loop of `vfs_inotify_evt_get` on the heaps. -/
def evtGetLoop (mem : Memory) (len : ℤ) : ℕ → ℕ → Registry → Option EvtGet
  | 0, _, st => some { registry := st, ending := .running }
  | fuel + 1, i, st =>
    if i < len then
      let wd := (load32 mem i).toInt32
      let mask := load32 mem (i + 4)
      let elen := load32 mem (i + 12)
      if mem (i + sizeofEvent) = 46 then evtGetLoop mem len fuel i st
      else do
        match ← st.vfsWatchFindnodeByfd wd st.watchList.nodes with
        | none => some { registry := st, ending := .returned }
        | some ptr =>
          if elen = 0 then some { registry := st, ending := .returned }
          else do
            let node ← st.cache.nodeHeap.read ptr
            let data ← node.data
            let watch ← st.watchHeap.read data
            let path := joinPath watch.path (eventName mem i)
            match isPackage path with
            | none => some { registry := st, ending := .fault }
            | some false => some { registry := st, ending := .returned }
            | some true =>
              let next := i + sizeofEvent + elen.toNat
              if mask &&& inCloseWrite ≠ 0 ∨ mask &&& inMovedTo ≠ 0 then
                (evtGetLoop mem len fuel next st).map (·.after i (.pkgImport path))
              else if mask &&& inDelete ≠ 0 ∨ mask &&& inMovedFrom ≠ 0 then
                (evtGetLoop mem len fuel next st).map (·.after i (.pkgForget path))
              else if mask &&& inDeleteSelf ≠ 0 then do
                let (_, st) ← vfsWatchRemove data st
                evtGetLoop mem len fuel next st
              else evtGetLoop mem len fuel next st
    else some { registry := st, ending := .returned }

/-- `vfs_inotify_evt_get`: `len` is what `read` returned. -/
def vfsInotifyEvtGet (mem : Memory) (len : ℤ) (iterations : ℕ) (st : Registry) : Option EvtGet :=
  evtGetLoop mem len iterations 0 st

/-- A `blockheap_gc` tick. -/
def blockheapGc (st : Registry) : Registry :=
  { st with cache := Pkg.blockheapGc st.cache, watchHeap := blockheapGarbagecollect st.watchHeap }

/-- The watches on `vfs_watch_list`, in list order. -/
def listed (st : Registry) : List MemBlock :=
  st.watchList.nodes.filterMap fun ptr => (st.cache.nodeHeap.read ptr).bind Pkg.DlinkNode.data

/-- The descriptors that the listed watches record. -/
def fds (st : Registry) : List Int32 :=
  st.listed.filterMap fun ptr => (st.watchHeap.read ptr).map Watch.fd

end Registry

end FsPkg.Vfs
