import FsPkg.Model.VfsWatch
import FsPkg.Proofs.PkgCacheNodes
import FsPkg.Proofs.VfsInotifyEvents

/-! # The watch registry as a list of watches

`Watches` reads the registry out of its heaps: which node holds which watch, with which contents, and that nothing
else is allocated on `vfs_watch_heap`. Every operation of `vfs_inotify.c` has one lemma here that says what it does to
the watches, to the nodes and to what the kernel watches.
-/

namespace FsPkg.Vfs

open Machine Dlink Balloc
open Pkg (Text NodeAdded NodesKept)

/-- A listed watch: its list node, its element and the contents of the element. -/
structure WatchEntry where
  node : MemBlock
  ptr : MemBlock
  watch : Watch
deriving DecidableEq, Repr

/-- The list, its nodes and `vfs_watch_heap` hold exactly these watches. -/
structure Watches (st : Registry) (ws : List WatchEntry) : Prop where
  watchHeap : Invariant st.watchHeap
  nodeHeap : Invariant st.cache.nodeHeap
  nodes : st.watchList.nodes = ws.map WatchEntry.node
  nodeLive : ∀ w ∈ ws, st.cache.nodeHeap.live w.node = some { data := some w.ptr }
  ptrLive : ∀ w ∈ ws, st.watchHeap.live w.ptr = some w.watch
  distinctNodes : (ws.map WatchEntry.node).Nodup
  distinctPtrs : (ws.map WatchEntry.ptr).Nodup
  complete : ∀ ptr ∈ st.watchHeap.allocated, ptr ∈ ws.map WatchEntry.ptr

/-- Memory can be mapped only where it is free, and a new watch gets a positive descriptor that is not in use. -/
structure WatchEnv.Lawful (env : WatchEnv) (st : Registry) : Prop where
  watchBlock : env.watchBlock.Lawful st.watchHeap
  nodeBlock : env.nodeBlock.Lawful st.cache.nodeHeap
  positive : 0 < env.wd
  unused : ∀ watched ∈ st.active, watched.wd ≠ env.wd

namespace Watches

variable {st : Registry} {ws before after : List WatchEntry} {w : WatchEntry}

theorem node_read (rep : Watches st ws) (member : w ∈ ws) :
    st.cache.nodeHeap.read w.node = some { data := some w.ptr } :=
  rep.nodeHeap.read_of_live (rep.nodeLive w member)

theorem ptr_read (rep : Watches st ws) (member : w ∈ ws) : st.watchHeap.read w.ptr = some w.watch :=
  rep.watchHeap.read_of_live (rep.ptrLive w member)

theorem allocated (rep : Watches st ws) (member : w ∈ ws) : w.ptr ∈ st.watchHeap.allocated :=
  rep.watchHeap.mem_allocated_iff.mpr ⟨_, rep.ptrLive w member⟩

theorem listed_eq (rep : Watches st ws) : st.listed = ws.map WatchEntry.ptr := by
  rw [Registry.listed, rep.nodes]
  apply Pkg.filterMap_of_reads
  intro w member
  rw [rep.node_read member]
  rfl

theorem fds_eq (rep : Watches st ws) : st.fds = ws.map (·.watch.fd) := by
  rw [Registry.fds, rep.listed_eq]
  apply Pkg.filterMap_of_reads
  intro w member
  rw [rep.ptr_read member]
  rfl

/-- Exactly the listed watches are allocated. -/
theorem allocated_perm (rep : Watches st ws) : st.watchHeap.allocated.Perm st.listed := by
  rw [rep.listed_eq]
  apply (List.perm_ext_iff_of_nodup rep.watchHeap.allocated_nodup rep.distinctPtrs).mpr
  intro ptr
  refine ⟨rep.complete ptr, fun member => ?_⟩
  obtain ⟨w, present, rfl⟩ := List.mem_map.mp member
  exact rep.allocated present

theorem vfsWatchFindnode_spec (rep : Watches st ws) (watch : MemBlock) :
    st.vfsWatchFindnode watch = some ((ws.find? fun w => w.ptr = watch).map WatchEntry.node) := by
  rw [Registry.vfsWatchFindnode, rep.nodes]
  exact Pkg.pkgFindnode_walk (fun _ member => rep.node_read member) watch

theorem vfsWatchFindnodeByfd_spec (rep : Watches st ws) (fd : Int32) :
    st.vfsWatchFindnodeByfd fd st.watchList.nodes = some ((ws.find? fun w => w.watch.fd = fd).map WatchEntry.node) := by
  have reads : ∀ w ∈ ws, st.cache.nodeHeap.read w.node = some { data := some w.ptr } ∧
      st.watchHeap.read w.ptr = some w.watch :=
    fun w member => ⟨rep.node_read member, rep.ptr_read member⟩
  rw [rep.nodes]
  clear rep
  induction ws with
  | nil => rfl
  | cons w ws ih =>
    obtain ⟨⟨node, ptr⟩, tail⟩ := List.forall_mem_cons.mp reads
    simp only [List.map_cons, Registry.vfsWatchFindnodeByfd, bind, node, Option.bind_some, ptr, ih tail, List.find?_cons]
    by_cases same : w.watch.fd = fd
    · simp [same]
    · simp [same]

/-- What else happens to the nodes leaves the watches alone. -/
theorem frame (rep : Watches st ws) {st' : Registry} (nodeHeap : Invariant st'.cache.nodeHeap)
    (nodes : st'.watchList.nodes = st.watchList.nodes) (watchHeap : st'.watchHeap = st.watchHeap)
    (sameNode : ∀ w ∈ ws, st'.cache.nodeHeap.live w.node = st.cache.nodeHeap.live w.node) : Watches st' ws :=
  { rep with
    nodeHeap
    watchHeap := watchHeap ▸ rep.watchHeap
    nodes := nodes.trans rep.nodes
    nodeLive := fun w member => (sameNode w member).trans (rep.nodeLive w member)
    ptrLive := fun w member => watchHeap ▸ rep.ptrLive w member
    complete := fun ptr member => rep.complete ptr (watchHeap ▸ member) }

/-- A node that is added is none of the listed ones. -/
theorem node_ne (rep : Watches st ws) {m : MemBlock} (fresh : st.cache.nodeHeap.live m = none) (member : w ∈ ws) :
    w.node ≠ m := by
  rintro rfl
  rw [rep.nodeLive w member] at fresh
  contradiction

/-- Changes of the package cache keep the watches, whether a node is added or not. -/
theorem cache_kept (rep : Watches st ws) {cache : Pkg.State} (kept : NodesKept st.cache cache) :
    Watches { st with cache } ws := by
  refine rep.frame ?_ rfl rfl fun w _ => ?_
  · show Invariant cache.nodeHeap
    rw [kept.nodeHeap]
    exact rep.nodeHeap
  · show cache.nodeHeap.live w.node = _
    rw [kept.nodeHeap]

theorem cache_added (rep : Watches st ws) {cache : Pkg.State} {m : MemBlock} {node : Pkg.DlinkNode}
    (added : NodeAdded st.cache cache m node) : Watches { st with cache } ws := by
  refine rep.frame added.invariant rfl rfl fun w member => ?_
  show cache.nodeHeap.live w.node = _
  rw [added.live, Function.update_of_ne (rep.node_ne added.fresh member)]

/-! ## `vfs_watch_remove` -/

/-- Removing a listed watch takes it off the list and frees it. The kernel is asked to remove the watch
`vfs_inotify_fd` from the instance `watch->fd`. -/
theorem vfsWatchRemove_spec (rep : Watches st (before ++ w :: after)) :
    ∃ rv st', st.vfsWatchRemove w.ptr = some (rv, st') ∧ Watches st' (before ++ after) ∧ st'.cache = st.cache ∧
      st'.inotifyFd = st.inotifyFd ∧
      st'.active = (inotifyRmWatch st.inotifyFd st.active w.watch.fd st.inotifyFd).2 := by
  have present : w ∈ before ++ w :: after := by simp
  obtain ⟨freed, free, kept, -, -, gone, -⟩ := rep.watchHeap.free_spec (rep.allocated present)
  have linked : w.node ∈ st.watchList.nodes := rep.nodes ▸ List.mem_map_of_mem present
  have sub : (before ++ after).Sublist (before ++ w :: after) :=
    (List.Sublist.refl before).append (List.sublist_cons_self w after)
  refine ⟨(inotifyRmWatch st.inotifyFd st.active w.watch.fd st.inotifyFd).1, { st with
    watchHeap := freed, watchList := ⟨st.watchList.nodes.erase w.node, st.watchList.length - 1⟩,
    active := (inotifyRmWatch st.inotifyFd st.active w.watch.fd st.inotifyFd).2 }, ?_, ?_, rfl, rfl, rfl⟩
  · simp only [Registry.vfsWatchRemove, bind, rep.ptr_read present, Option.bind_some, rep.vfsWatchFindnode_spec,
      Pkg.find?_of_split rep.distinctPtrs, Option.map_some, dlinkDelete, if_pos linked, rep.node_read present, free]
  · refine ⟨kept, rep.nodeHeap, ?_, ?_, ?_, ?_, ?_, ?_⟩
    · show st.watchList.nodes.erase w.node = _
      rw [rep.nodes, Pkg.erase_of_split rep.distinctNodes]
    · exact fun other member => rep.nodeLive other (Pkg.mem_of_split member)
    · intro other member
      show freed.live other.ptr = _
      rw [gone, Function.update_of_ne (Pkg.ne_of_split rep.distinctPtrs member)]
      exact rep.ptrLive other (Pkg.mem_of_split member)
    · exact rep.distinctNodes.sublist (sub.map _)
    · exact rep.distinctPtrs.sublist (sub.map _)
    · intro ptr held
      obtain ⟨value, live⟩ := kept.mem_allocated_iff.mp held
      rw [gone] at live
      have different : ptr ≠ w.ptr := by
        rintro rfl
        rw [Function.update_self] at live
        contradiction
      rw [Function.update_of_ne different] at live
      have listed := rep.complete ptr (rep.watchHeap.mem_allocated_iff.mpr ⟨value, live⟩)
      rw [(List.perm_middle.map WatchEntry.ptr).mem_iff, List.map_cons, List.mem_cons] at listed
      exact listed.resolve_left different

/-! ## `vfs_watch_add` -/

/-- What `vfs_watch_add` stores. -/
def stored (path : Text) (fd : Int32) : Watch :=
  { mask := watchMask, fd, path := path.take pathMax }

/-- If the kernel refuses, the element is given back. -/
theorem add_refused (rep : Watches st ws) {ptr : MemBlock} {grown filled : BlockHeap Watch} {watch : Watch}
    (inv : Invariant grown) (fresh : st.watchHeap.live ptr = none)
    (live : grown.live = Function.update st.watchHeap.live ptr (some (Zeros.zeros st.watchHeap.elemSize)))
    (wrote : grown.write ptr watch = some filled) :
    ∃ freed, blockheapFree filled (some ptr) = some (0, freed) ∧ ∀ active,
      Watches { st with watchHeap := freed, active } ws := by
  obtain ⟨inv', live'⟩ := inv.stored live wrote
  obtain ⟨freed, free, kept, same⟩ := inv'.give_back fresh live'
  refine ⟨freed, free, fun active => ?_⟩
  refine { rep with watchHeap := kept, ptrLive := ?_, complete := ?_ }
  · intro w member
    show freed.live w.ptr = _
    rw [same]
    exact rep.ptrLive w member
  · intro other member
    obtain ⟨value, found⟩ := kept.mem_allocated_iff.mp member
    rw [same] at found
    exact rep.complete other (rep.watchHeap.mem_allocated_iff.mpr ⟨value, found⟩)

/-- Otherwise it is listed at the tail, through a new node. -/
theorem add_listed (rep : Watches st ws) {ptr m : MemBlock} {grown filled : BlockHeap Watch} {watch : Watch}
    {cache : Pkg.State} (inv : Invariant grown) (fresh : st.watchHeap.live ptr = none)
    (live : grown.live = Function.update st.watchHeap.live ptr (some (Zeros.zeros st.watchHeap.elemSize)))
    (wrote : grown.write ptr watch = some filled) (added : NodeAdded st.cache cache m { data := some ptr })
    (length : UInt64) (active : List KernelWatch) :
    Watches { st with cache, watchHeap := filled, watchList := ⟨st.watchList.nodes ++ [m], length⟩, active }
      (ws ++ [⟨m, ptr, watch⟩]) := by
  obtain ⟨inv', live'⟩ := inv.stored live wrote
  have otherPtr : ∀ w ∈ ws, w.ptr ≠ ptr := by
    intro w member same
    have taken := rep.ptrLive w member
    rw [same, fresh] at taken
    contradiction
  refine ⟨inv', added.invariant, ?_, ?_, ?_, ?_, ?_, ?_⟩
  · show st.watchList.nodes ++ [m] = _
    rw [rep.nodes, List.map_append]
    rfl
  · intro w member
    show cache.nodeHeap.live w.node = _
    rw [added.live]
    rcases List.mem_append.mp member with old | new
    · rw [Function.update_of_ne (rep.node_ne added.fresh old)]
      exact rep.nodeLive w old
    · rw [List.mem_singleton.mp new]
      exact Function.update_self ..
  · intro w member
    show filled.live w.ptr = _
    rw [live']
    rcases List.mem_append.mp member with old | new
    · rw [Function.update_of_ne (otherPtr w old)]
      exact rep.ptrLive w old
    · rw [List.mem_singleton.mp new]
      exact Function.update_self ..
  · exact Pkg.nodup_snoc rep.distinctNodes fun w member => rep.node_ne added.fresh member
  · exact Pkg.nodup_snoc rep.distinctPtrs otherPtr
  · intro other member
    obtain ⟨value, found⟩ := inv'.mem_allocated_iff.mp member
    rw [List.map_append, List.mem_append, List.map_singleton, List.mem_singleton]
    by_cases here : other = ptr
    · exact .inr here
    · rw [live', Function.update_of_ne here] at found
      exact .inl (rep.complete other (rep.watchHeap.mem_allocated_iff.mpr ⟨value, found⟩))

/-- `vfs_watch_add`: nothing is kept if the kernel refuses, and otherwise a watch with the descriptor it gave. -/
theorem vfsWatchAdd_spec (rep : Watches st ws) {path : Text} {env : WatchEnv} (lawful : env.Lawful st)
    {result : Option MemBlock} {st' : Registry} (ran : st.vfsWatchAdd path env = some (result, st')) :
    st'.inotifyFd = st.inotifyFd ∧ st'.active = (inotifyAddWatch st.active env).2 ∧
      (((inotifyAddWatch st.active env).1 ≤ 0 ∧ result = none ∧ st'.cache = st.cache ∧ Watches st' ws) ∨
        ∃ node ptr, 0 < (inotifyAddWatch st.active env).1 ∧ result = some ptr ∧
          NodeAdded st.cache st'.cache node { data := some ptr } ∧
          st'.cache = { st.cache with nodeHeap := st'.cache.nodeHeap, dlinkCount := st'.cache.dlinkCount } ∧
          Watches st' (ws ++ [⟨node, ptr, stored path (inotifyAddWatch st.active env).1⟩])) := by
  rcases rep.watchHeap.alloc_spec lawful.watchBlock with
    ⟨-, -, alloc⟩ | ⟨ptr, grown, -, alloc, inv, -, -, fresh, live, -⟩
  · simp [Registry.vfsWatchAdd, alloc] at ran
  · simp only [Registry.vfsWatchAdd, bind, alloc, Option.bind_some, Option.bind_eq_some_iff] at ran
    obtain ⟨filled, wrote, ran⟩ := ran
    split at ran
    · next refused =>
      obtain ⟨freed, free, kept⟩ := rep.add_refused inv fresh live wrote
      simp only [free, Option.bind_some, Option.some.injEq, Prod.mk.injEq] at ran
      obtain ⟨rfl, rfl⟩ := ran
      exact ⟨rfl, rfl, .inl ⟨refused, rfl, rfl, kept _⟩⟩
    · next granted =>
      simp only [Registry.dlinkAddTailAlloc, bind, Option.bind_eq_some_iff] at ran
      obtain ⟨listed, ⟨⟨m, cache⟩, create, nodeHeap, write, add⟩, ran⟩ := ran
      cases add
      cases ran
      obtain ⟨added, shape⟩ := Pkg.dlinkCreate_added create write rep.nodeHeap lawful.nodeBlock
      refine ⟨rfl, rfl, .inr ⟨m, ptr, Int32.not_le.mp granted, rfl, added, ?_, ?_⟩⟩
      · show { cache with nodeHeap } = _
        rw [shape]
      · exact rep.add_listed inv fresh live wrote added _ _

/-! ## `vfs_inotify_evt_get` -/

theorem findnodeByfd_watches (ws : List WatchEntry) (fd : Int32) :
    vfsWatchFindnodeByfd (ws.map WatchEntry.watch) fd = (ws.find? fun w => w.watch.fd = fd).map WatchEntry.watch := by
  rw [vfsWatchFindnodeByfd, List.find?_map]
  rfl

/-- On a buffer of whole events the loop makes the calls it makes on the list of watches, and ends as it does there.
It comes to `vfs_watch_remove` only for an event with a name, so the registry stays as it is. -/
theorem evtGetLoop_spec (rep : Watches st ws) {mem : Memory} {events : List InotifyEvent} {i : ℕ} {len : ℤ}
    (holds : Holds mem i (events.flatMap InotifyEvent.bytes))
    (whole : len = i + (events.flatMap InotifyEvent.bytes).length) (fuel : ℕ) :
    st.evtGetLoop mem len fuel i = some
      { calls := (Vfs.evtGetLoop mem len fuel i (ws.map WatchEntry.watch)).calls
        registry := st
        ending := (Vfs.evtGetLoop mem len fuel i (ws.map WatchEntry.watch)).ending } := by
  induction fuel generalizing i events with
  | zero => rfl
  | succ fuel ih =>
    rw [Registry.evtGetLoop, Vfs.evtGetLoop]
    by_cases inside : i < len
    · rw [if_pos inside, if_pos inside]
      by_cases dot : mem (i + sizeofEvent) = 46
      · simp only [if_pos dot]
        exact ih holds whole
      · simp only [if_neg dot, rep.vfsWatchFindnodeByfd_spec, findnodeByfd_watches, bind, Option.bind_some]
        cases found : ws.find? fun w => w.watch.fd = (load32 mem i).toInt32 with
        | none => rfl
        | some w =>
          have member := List.mem_of_find?_eq_some found
          simp only [Option.map_some]
          by_cases nameless : load32 mem (i + 12) = 0
          · simp only [if_pos nameless]
          · simp only [if_neg nameless, rep.node_read member, rep.ptr_read member, Option.bind_some]
            cases isPackage (joinPath w.watch.path (eventName mem i)) with
            | none => rfl
            | some package =>
              cases package with
              | false => rfl
              | true =>
                -- there is a next event, and this one has a name
                cases events with
                | nil =>
                  rw [List.flatMap_nil, List.length_nil] at whole
                  omega
                | cons e events =>
                  rw [List.flatMap_cons, holds_append] at holds
                  obtain ⟨here, later⟩ := holds
                  have here := at_of_holds here
                  rw [List.flatMap_cons, List.length_append] at whole
                  rw [e.length_bytes] at later whole
                  have named : e.name ≠ [] := mt here.elen_eq_zero.mpr nameless
                  have notSelf : ¬load32 mem (i + 4) &&& inDeleteSelf ≠ 0 := by
                    rw [here.mask]
                    exact fun self => named (e.aboutSelf self)
                  have next := ih later (by push_cast at whole ⊢; omega)
                  rw [← Nat.add_assoc] at next
                  simp only [here.elen, if_neg notSelf, next]
                  split_ifs <;> rfl
    · rw [if_neg inside, if_neg inside]

theorem blockheapGc_spec (rep : Watches st ws) : Watches st.blockheapGc ws := by
  obtain ⟨watchHeap, -, -, watchLive, -⟩ := rep.watchHeap.gc_spec
  obtain ⟨nodeHeap, -, -, nodeLive, -⟩ := rep.nodeHeap.gc_spec
  refine { rep with watchHeap, nodeHeap, nodeLive := ?_, ptrLive := ?_, complete := ?_ }
  · intro w member
    exact (congrFun nodeLive w.node).trans (rep.nodeLive w member)
  · intro w member
    exact (congrFun watchLive w.ptr).trans (rep.ptrLive w member)
  · intro ptr member
    obtain ⟨value, live⟩ := watchHeap.mem_allocated_iff.mp member
    exact rep.complete ptr (rep.watchHeap.mem_allocated_iff.mpr ⟨value, (congrFun watchLive ptr).symm.trans live⟩)

end Watches

end FsPkg.Vfs
