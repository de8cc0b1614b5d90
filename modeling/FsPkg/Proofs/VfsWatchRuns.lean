import FsPkg.Proofs.VfsWatchSpec

/-! # Runs of the watch registry

Calls of the package cache, of the watch functions and of the event handler in any order. What each can do is said
once, on a `Shape`: the packages and watches that are listed, the watches of the kernel and the number of list nodes.
Two properties are then read off it. The registry agrees with the kernel until a watched directory is added again, a
watch is removed or a watched directory is deleted; and every list node is on a list until something is taken off one.
-/

namespace FsPkg.Vfs

open Machine Dlink Balloc
open Pkg (Text Entry OpenEnv NodeAdded NodesKept)

/-- One call, or one buffer of events. -/
inductive RegistryEvent where
  | pkgOpen (path : Text) (env : OpenEnv) (result : Option MemBlock)
  | pkgClose (pkg : MemBlock)
  | pkgGc (now : Int64)
  | blockheapGc
  | vfsWatchAdd (path : Text) (env : WatchEnv) (result : Option MemBlock)
  | vfsWatchRemove (watch : MemBlock)
  | vfsInotifyEvtGet (events : List InotifyEvent)

/-- The descriptors of the directories that were deleted. -/
def selfDeleted (events : List InotifyEvent) : List Int32 :=
  (events.filter fun e => e.mask &&& inDeleteSelf ≠ 0).map InotifyEvent.wd

/-- The kernel drops the watch of a directory that is deleted. -/
def dropWatches (active : List KernelWatch) (events : List InotifyEvent) : List KernelWatch :=
  active.filter fun watched => watched.wd ∉ selfDeleted events

/-- Handles that are closed are not freed, and watches that are removed are listed. An event about the deletion of a
watched directory means that its descriptor is gone. -/
inductive RegistryStep : Registry → RegistryEvent → Registry → Prop
  | pkgOpen {st : Registry} {path : Text} {env : OpenEnv} {result : Option MemBlock} {cache : Pkg.State}
      (lawful : env.Lawful st.cache) (ran : Pkg.pkgOpen path env st.cache = some (result, cache)) :
      RegistryStep st (.pkgOpen path env result) { st with cache }
  | pkgClose {st : Registry} {pkg : MemBlock} {cache : Pkg.State} (held : pkg ∈ st.cache.pkgHeap.allocated)
      (ran : Pkg.pkgClose pkg st.cache = some cache) : RegistryStep st (.pkgClose pkg) { st with cache }
  | pkgGc {st : Registry} {now : Int64} {cache : Pkg.State} (ran : Pkg.pkgGc now st.cache = some cache) :
      RegistryStep st (.pkgGc now) { st with cache }
  | blockheapGc {st : Registry} : RegistryStep st .blockheapGc st.blockheapGc
  | vfsWatchAdd {st st' : Registry} {path : Text} {env : WatchEnv} {result : Option MemBlock} (lawful : env.Lawful st)
      (ran : st.vfsWatchAdd path env = some (result, st')) : RegistryStep st (.vfsWatchAdd path env result) st'
  | vfsWatchRemove {st st' : Registry} {watch : MemBlock} {rv : Int32} (listed : watch ∈ st.listed)
      (ran : st.vfsWatchRemove watch = some (rv, st')) : RegistryStep st (.vfsWatchRemove watch) st'
  | vfsInotifyEvtGet {st : Registry} {events : List InotifyEvent} {mem : Memory} {iterations : ℕ}
      {result : Registry.EvtGet} (watched : ∀ wd ∈ selfDeleted events, wd ∈ st.active.map KernelWatch.wd)
      (holds : Holds mem 0 (events.flatMap InotifyEvent.bytes))
      (ran : Registry.vfsInotifyEvtGet mem (events.flatMap InotifyEvent.bytes).length iterations
        { st with active := dropWatches st.active events } = some result) :
      RegistryStep st (.vfsInotifyEvtGet events) result.registry

/-- `sizeof(struct vfs_watch)`. -/
def sizeofWatch : UInt64 := 4104

/-- After initialization, before the first watch. -/
structure Registry.Initial (st : Registry) : Prop where
  cache : Pkg.Initial st.cache
  dlinkCount : st.cache.dlinkCount = 0
  watchHeap : ∃ count : Int32, 1 ≤ count ∧ Created sizeofWatch count st.watchHeap
  watchList : st.watchList = {}
  active : st.active = []

/-! ## What one step does -/

/-- What the lists hold, what the kernel watches, and how many nodes are allocated. -/
structure Shape where
  packages : List Entry := []
  watches : List WatchEntry := []
  active : List KernelWatch := []
  nodes : ℕ := 0

/-- The descriptor that the kernel gives to a new watch. -/
structure WatchEnv.Grants (env : WatchEnv) (active : List KernelWatch) : Prop where
  positive : 0 < env.wd
  unused : ∀ watched ∈ active, watched.wd ≠ env.wd

inductive Effect (lifetime : Int64) (inotifyFd : Int32) : Shape → RegistryEvent → Shape → Prop
  | opened {s : Shape} {path : Text} {env : OpenEnv} {result : Option MemBlock} {packages : List Entry} {grown : ℕ}
      (length : packages.length = s.packages.length + grown) :
      Effect lifetime inotifyFd s (.pkgOpen path env result) { s with packages, nodes := s.nodes + grown }
  | closed {s : Shape} {pkg : MemBlock} {packages : List Entry} (length : packages.length = s.packages.length) :
      Effect lifetime inotifyFd s (.pkgClose pkg) { s with packages }
  | collected {s : Shape} {now : Int64} :
      Effect lifetime inotifyFd s (.pkgGc now)
        { s with packages := s.packages.filter fun e => ¬e.Expired now lifetime }
  | swept {s : Shape} : Effect lifetime inotifyFd s .blockheapGc s
  | refused {s : Shape} {path : Text} {env : WatchEnv} (grants : env.Grants s.active)
      (refused : (inotifyAddWatch s.active env).1 ≤ 0) :
      Effect lifetime inotifyFd s (.vfsWatchAdd path env none)
        { s with active := (inotifyAddWatch s.active env).2 }
  | added {s : Shape} {path : Text} {env : WatchEnv} {node ptr : MemBlock} (grants : env.Grants s.active)
      (granted : 0 < (inotifyAddWatch s.active env).1) :
      Effect lifetime inotifyFd s (.vfsWatchAdd path env (some ptr))
        { s with
          watches := s.watches ++ [⟨node, ptr, Watches.stored path (inotifyAddWatch s.active env).1⟩]
          active := (inotifyAddWatch s.active env).2
          nodes := s.nodes + 1 }
  | removed {s : Shape} {before after : List WatchEntry} {w : WatchEntry} (listed : s.watches = before ++ w :: after) :
      Effect lifetime inotifyFd s (.vfsWatchRemove w.ptr)
        { s with
          watches := before ++ after
          active := (inotifyRmWatch inotifyFd s.active w.watch.fd inotifyFd).2 }
  | delivered {s : Shape} {events : List InotifyEvent}
      (watched : ∀ wd ∈ selfDeleted events, wd ∈ s.active.map KernelWatch.wd) :
      Effect lifetime inotifyFd s (.vfsInotifyEvtGet events) { s with active := dropWatches s.active events }

/-- The registry has this shape. -/
structure Shaped (st : Registry) (s : Shape) : Prop where
  cache : Pkg.Represents st.cache s.packages
  watches : Watches st s.watches
  active : st.active = s.active
  nodes : st.cache.nodeHeap.allocated.length = s.nodes
  count : st.cache.dlinkCount = Int32.ofNat s.nodes

theorem Registry.Initial.shaped {st : Registry} (initial : st.Initial) : Shaped st {} := by
  obtain ⟨count, sensible, created⟩ := initial.watchHeap
  obtain ⟨nodeCount, nodeSensible, nodeCreated⟩ := initial.cache.nodeHeap
  obtain ⟨watchHeap, -, -, watchLive⟩ := created.invariant sensible
  obtain ⟨nodeHeap, -, -, nodeLive⟩ := nodeCreated.invariant nodeSensible
  refine ⟨initial.cache.represents, ?_, initial.active, ?_, initial.dlinkCount⟩
  · refine ⟨watchHeap, nodeHeap, ?_, by simp, by simp, List.nodup_nil, List.nodup_nil, ?_⟩
    · rw [initial.watchList]
      rfl
    · intro ptr member
      obtain ⟨value, live⟩ := watchHeap.mem_allocated_iff.mp member
      rw [watchLive] at live
      contradiction
  · refine List.length_eq_zero_iff.mpr (List.eq_nil_iff_forall_not_mem.mpr fun ptr member => ?_)
    obtain ⟨value, live⟩ := nodeHeap.mem_allocated_iff.mp member
    rw [nodeLive] at live
    contradiction

section Cache

variable {st : Pkg.State} {es : List Entry} {st' : Pkg.State}

/-- A node for another list leaves the cache alone. -/
theorem represents_added (rep : Pkg.Represents st es) {m : MemBlock} {node : Pkg.DlinkNode}
    (added : NodeAdded st st' m node)
    (shape : st' = { st with nodeHeap := st'.nodeHeap, dlinkCount := st'.dlinkCount }) : Pkg.Represents st' es := by
  rw [shape]
  refine rep.frame rep.pkgHeap added.invariant rfl (fun _ _ => rfl) ?_ rep.opened rep.valid
  intro e member
  show st'.nodeHeap.live e.node = _
  have other : e.node ≠ m := by
    rintro rfl
    have fresh := added.fresh
    rw [rep.nodeLive e member] at fresh
    contradiction
  rw [added.live, Function.update_of_ne other]

end Cache

theorem ofNat_succ (n : ℕ) : Int32.ofNat (n + 1) = Int32.ofNat n + 1 := by
  rw [Int32.ofNat_add]
  rfl

namespace Shaped

variable {st : Registry} {s : Shape}

theorem kept (shaped : Shaped st s) {cache : Pkg.State} {packages : List Entry} (rep : Pkg.Represents cache packages)
    (kept : NodesKept st.cache cache) : Shaped { st with cache } { s with packages } where
  cache := rep
  watches := shaped.watches.cache_kept kept
  active := shaped.active
  nodes := by
    show cache.nodeHeap.allocated.length = _
    rw [kept.nodeHeap]
    exact shaped.nodes
  count := kept.count.trans shaped.count

/-- A call that leaves the package cache alone. -/
theorem of_cache (shaped : Shaped st s) {st' : Registry} {watches : List WatchEntry} {active : List KernelWatch}
    (cache : st'.cache = st.cache) (rep : Watches st' watches) (listed : st'.active = active) :
    Shaped st' { s with watches, active } where
  cache := by
    rw [cache]
    exact shaped.cache
  watches := rep
  active := listed
  nodes := by
    rw [cache]
    exact shaped.nodes
  count := by
    rw [cache]
    exact shaped.count

theorem node_added (shaped : Shaped st s) {cache : Pkg.State} {m : MemBlock} {node : Pkg.DlinkNode}
    (added : NodeAdded st.cache cache m node) :
    cache.nodeHeap.allocated.length = s.nodes + 1 ∧ cache.dlinkCount = Int32.ofNat (s.nodes + 1) := by
  constructor
  · rw [shaped.watches.nodeHeap.length_allocated_add added.invariant added.fresh added.live, shaped.nodes]
  · rw [added.count, shaped.count, ofNat_succ]

theorem packages_length (shaped : Shaped st s) : st.cache.pkgList.nodes.length = s.packages.length := by
  rw [shaped.cache.nodes, List.length_map]

theorem watches_length (shaped : Shaped st s) : st.watchList.nodes.length = s.watches.length := by
  rw [shaped.watches.nodes, List.length_map]

theorem pkgOpen (shaped : Shaped st s) {path : Text} {env : OpenEnv} {result : Option MemBlock} {cache : Pkg.State}
    (lawful : env.Lawful st.cache) (ran : Pkg.pkgOpen path env st.cache = some (result, cache)) :
    ∃ s', Effect st.cache.pkgLifetime st.inotifyFd s (.pkgOpen path env result) s' ∧
      Shaped { st with cache } s' := by
  obtain ⟨result', cache', packages, computed, rep, effect⟩ := shaped.cache.pkgOpen_effect path fun _ => lawful
  rw [ran] at computed
  obtain ⟨rfl, rfl⟩ := Prod.mk.inj (Option.some.inj computed)
  have length : cache.pkgList.nodes.length = packages.length := by rw [rep.nodes, List.length_map]
  have before := shaped.packages_length
  rcases Pkg.pkgOpen_nodes shaped.watches.nodeHeap lawful.nodeBlock ran with
    ⟨kept, shorter⟩ | ⟨m, node, added, listed⟩
  · -- an entry can only have been changed: there is no node for a new one
    refine ⟨{ s with packages, nodes := s.nodes + 0 }, .opened ?_, shaped.kept rep kept⟩
    rw [length, before] at shorter
    generalize s.packages = packages₀ at effect shorter
    cases effect with
    | hit named => simp
    | refused => rfl
    | added absent fresh =>
      rw [List.length_append, List.length_singleton] at shorter
      omega
  · obtain ⟨nodes, count⟩ := shaped.node_added added
    refine ⟨{ s with packages, nodes := s.nodes + 1 }, .opened ?_, ?_⟩
    · rw [← length, listed, List.length_append, List.length_singleton, before]
    · exact ⟨rep, shaped.watches.cache_added added, shaped.active, nodes, count⟩

/-- The inversion of a step. -/
theorem step (shaped : Shaped st s) {event : RegistryEvent} {st' : Registry} (step : RegistryStep st event st') :
    ∃ s', Effect st.cache.pkgLifetime st.inotifyFd s event s' ∧ Shaped st' s' ∧ st'.inotifyFd = st.inotifyFd := by
  cases step with
  | pkgOpen lawful ran =>
    obtain ⟨s', effect, final⟩ := shaped.pkgOpen lawful ran
    exact ⟨s', effect, final, rfl⟩
  | pkgClose held ran =>
    obtain ⟨rep, -⟩ := shaped.cache.pkgClose_any ran
    exact ⟨_, .closed (List.length_map _), shaped.kept rep (Pkg.pkgClose_kept ran), rfl⟩
  | pkgGc ran =>
    obtain ⟨cache, computed, -, rep⟩ := shaped.cache.pkgGc_spec _
    rw [computed] at ran
    cases ran
    exact ⟨_, .collected, shaped.kept rep (Pkg.pkgGcLoop_kept computed), rfl⟩
  | blockheapGc =>
    obtain ⟨nodeHeap, -, -, nodeLive, -⟩ := shaped.watches.nodeHeap.gc_spec
    have nodes := shaped.watches.nodeHeap.length_allocated_congr nodeHeap fun ptr => by rw [nodeLive]
    exact ⟨s, .swept, ⟨shaped.cache.blockheapGc_spec, shaped.watches.blockheapGc_spec, shaped.active,
      nodes.trans shaped.nodes, shaped.count⟩, rfl⟩
  | vfsWatchAdd lawful ran =>
    have grants : WatchEnv.Grants _ s.active :=
      ⟨lawful.positive, fun watched member => lawful.unused watched (shaped.active ▸ member)⟩
    obtain ⟨fd, active, ⟨refused, rfl, cache, rep⟩ | ⟨node, ptr, granted, rfl, added, shape, rep⟩⟩ :=
      shaped.watches.vfsWatchAdd_spec lawful ran
    · rw [shaped.active] at refused active
      exact ⟨_, .refused grants refused, shaped.of_cache cache rep active, fd⟩
    · rw [shaped.active] at granted active rep
      obtain ⟨nodes, count⟩ := shaped.node_added added
      exact ⟨_, .added grants granted, ⟨represents_added shaped.cache added shape, rep, active, nodes, count⟩, fd⟩
  | vfsWatchRemove listed ran =>
    rw [shaped.watches.listed_eq] at listed
    obtain ⟨w, member, rfl⟩ := List.mem_map.mp listed
    obtain ⟨before, after, split⟩ := List.append_of_mem member
    obtain ⟨rv, next, computed, rep, cache, fd, active⟩ := (split ▸ shaped.watches).vfsWatchRemove_spec
    rw [computed] at ran
    cases ran
    rw [shaped.active] at active
    exact ⟨_, .removed split, shaped.of_cache cache rep active, fd⟩
  | vfsInotifyEvtGet watched holds ran =>
    rename_i events mem iterations result
    have rep : Watches { st with active := dropWatches st.active events } s.watches :=
      shaped.watches.frame shaped.watches.nodeHeap rfl rfl fun _ _ => rfl
    rw [Registry.vfsInotifyEvtGet, rep.evtGetLoop_spec holds (by simp)] at ran
    cases ran
    rw [shaped.active] at watched
    refine ⟨_, .delivered watched, shaped.of_cache rfl rep ?_, rfl⟩
    show dropWatches st.active events = _
    rw [shaped.active]

end Shaped

/-! ## The registry and the kernel -/

/-- The listed watches are those that are active, each once, and each has one allocated element. -/
structure Registry.Agrees (st : Registry) : Prop where
  fds : ∀ wd, st.fds.count wd = if wd ∈ st.active.map KernelWatch.wd then 1 else 0
  elements : st.watchHeap.allocated.Perm st.listed
  distinct : st.listed.Nodup

/-- The directory is not watched already, the watch has the number of `vfs_inotify_fd`, and no watched directory is
deleted. -/
def Registry.Respects (st : Registry) : RegistryEvent → Prop
  | .vfsWatchAdd _ env _ => ∀ dir, env.dir = some dir → dir ∉ st.active.map KernelWatch.dir
  | .vfsWatchRemove watch => (st.watchHeap.read watch).map Watch.fd = some st.inotifyFd
  | .vfsInotifyEvtGet events => selfDeleted events = []
  | _ => True

/-- Descriptors are positive, and no two watches share one. -/
structure Distinct (active : List KernelWatch) : Prop where
  nodup : (active.map KernelWatch.wd).Nodup
  positive : ∀ watched ∈ active, 0 < watched.wd

theorem Distinct.filter {active : List KernelWatch} (distinct : Distinct active) (keep : KernelWatch → Bool) :
    Distinct (active.filter keep) where
  nodup := distinct.nodup.sublist (List.filter_sublist.map _)
  positive := fun watched member => distinct.positive watched (List.mem_filter.mp member).1

theorem inotifyAddWatch_cases (active : List KernelWatch) (env : WatchEnv) :
    (env.dir = none ∧ inotifyAddWatch active env = (-1, active)) ∨
    (∃ watched ∈ active, env.dir = some watched.dir ∧ inotifyAddWatch active env = (watched.wd, active)) ∨
    ∃ dir, env.dir = some dir ∧ dir ∉ active.map KernelWatch.dir ∧
      inotifyAddWatch active env = (env.wd, active ++ [⟨env.wd, dir⟩]) := by
  unfold inotifyAddWatch
  cases env.dir with
  | none => exact .inl ⟨rfl, rfl⟩
  | some dir =>
    cases found : active.find? fun watched => watched.dir = dir with
    | some watched =>
      have same : watched.dir = dir := by simpa using List.find?_some found
      refine .inr (.inl ⟨watched, List.mem_of_find?_eq_some found, by rw [same], ?_⟩)
      simp only [found]
    | none =>
      refine .inr (.inr ⟨dir, rfl, ?_, ?_⟩)
      · intro member
        obtain ⟨watched, present, same⟩ := List.mem_map.mp member
        simpa [same] using List.find?_eq_none.mp found watched present
      · simp only [found]

theorem Distinct.effect {lifetime : Int64} {inotifyFd : Int32} {s s' : Shape} {event : RegistryEvent}
    (distinct : Distinct s.active) (effect : Effect lifetime inotifyFd s event s') : Distinct s'.active := by
  have add {env : WatchEnv} (grants : env.Grants s.active) : Distinct (inotifyAddWatch s.active env).2 := by
    rcases inotifyAddWatch_cases s.active env with ⟨-, same⟩ | ⟨watched, -, -, same⟩ | ⟨dir, -, -, same⟩
    · rwa [same]
    · rwa [same]
    · rw [same]
      constructor
      · rw [List.map_append, List.map_singleton, List.nodup_append]
        refine ⟨distinct.nodup, List.nodup_singleton _, ?_⟩
        intro wd member other single
        obtain ⟨watched, present, rfl⟩ := List.mem_map.mp member
        rw [List.mem_singleton.mp single]
        exact grants.unused watched present
      · intro watched member
        rcases List.mem_append.mp member with old | new
        · exact distinct.positive watched old
        · rw [List.mem_singleton.mp new]
          exact grants.positive
  cases effect with
  | opened | closed | collected | swept => exact distinct
  | refused grants _ => exact add grants
  | added grants _ => exact add grants
  | removed listed =>
    unfold inotifyRmWatch
    split
    · exact distinct.filter _
    · exact distinct
  | delivered watched => exact distinct.filter _

/-- Every active descriptor is recorded once, and no other is. -/
def Shape.Agrees (s : Shape) : Prop :=
  ∀ wd, (s.watches.map (·.watch.fd)).count wd = if wd ∈ s.active.map KernelWatch.wd then 1 else 0

namespace Shape.Agrees

variable {s : Shape}

theorem active_of_mem (agrees : s.Agrees) {w : WatchEntry} (member : w ∈ s.watches) :
    w.watch.fd ∈ s.active.map KernelWatch.wd := by
  have counted := agrees w.watch.fd
  have positive : 0 < (s.watches.map (·.watch.fd)).count w.watch.fd :=
    List.count_pos_iff.mpr (List.mem_map_of_mem member)
  by_contra inactive
  rw [if_neg inactive] at counted
  omega

/-- A new directory, under a descriptor that was not in use. -/
theorem add_new (agrees : s.Agrees) {wd : Int32} (unused : wd ∉ s.active.map KernelWatch.wd) (w : WatchEntry)
    (same : w.watch.fd = wd) (dir nodes : ℕ) :
    Agrees { s with watches := s.watches ++ [w], active := s.active ++ [⟨wd, dir⟩], nodes } := by
  intro other
  have counted := agrees other
  simp only [List.map_append, List.map_singleton, List.count_append, List.count_singleton, same, counted,
    List.mem_append, List.mem_singleton, beq_iff_eq]
  by_cases here : other = wd
  · subst here
    simp [unused]
  · simp [here, Ne.symm here]

/-- A directory that is watched already is then recorded twice. -/
theorem not_add_again (agrees : s.Agrees) {watched : KernelWatch} (member : watched ∈ s.active) (w : WatchEntry)
    (same : w.watch.fd = watched.wd) (nodes : ℕ) :
    ¬Agrees { s with watches := s.watches ++ [w], active := s.active, nodes } := by
  intro again
  have active : watched.wd ∈ s.active.map KernelWatch.wd := List.mem_map_of_mem member
  have before := agrees watched.wd
  have counted := again watched.wd
  simp only [List.map_append, List.map_singleton, List.count_append, same, List.count_singleton_self, before,
    if_pos active] at counted
  omega

theorem remove_iff (agrees : s.Agrees) {inotifyFd : Int32} {before after : List WatchEntry} {w : WatchEntry}
    (split : s.watches = before ++ w :: after) :
    Agrees { s with
      watches := before ++ after
      active := (inotifyRmWatch inotifyFd s.active w.watch.fd inotifyFd).2 } ↔ w.watch.fd = inotifyFd := by
  have active := agrees.active_of_mem (w := w) (by simp [split])
  have total (wd : Int32) : (s.watches.map (·.watch.fd)).count wd =
      ((before ++ after).map (·.watch.fd)).count wd + if w.watch.fd = wd then 1 else 0 := by
    rw [split, (List.perm_middle.map _).count_eq, List.map_cons, List.count_cons]
    simp
  by_cases same : w.watch.fd = inotifyFd
  · refine iff_of_true ?_ same
    intro wd
    have counted := agrees wd
    rw [total] at counted
    have removed : (inotifyRmWatch inotifyFd s.active w.watch.fd inotifyFd).2 =
        s.active.filter fun watched => watched.wd ≠ inotifyFd := by
      rw [inotifyRmWatch, if_pos ⟨same, same ▸ active⟩]
    have remains : wd ∈ (s.active.filter fun watched => watched.wd ≠ inotifyFd).map KernelWatch.wd ↔
        wd ∈ s.active.map KernelWatch.wd ∧ wd ≠ inotifyFd := by
      simp only [List.mem_map, List.mem_filter, decide_eq_true_eq]
      constructor
      · rintro ⟨watched, ⟨present, other⟩, rfl⟩
        exact ⟨⟨watched, present, rfl⟩, other⟩
      · rintro ⟨⟨watched, present, rfl⟩, other⟩
        exact ⟨watched, ⟨present, other⟩, rfl⟩
    show ((before ++ after).map (·.watch.fd)).count wd = _
    simp only [removed, remains]
    by_cases here : wd = inotifyFd
    · rw [if_pos (same.trans here.symm), if_pos (here ▸ same ▸ active)] at counted
      rw [if_neg (by simp [here])]
      omega
    · rw [if_neg (fun equal => here (equal.symm.trans same))] at counted
      simpa [here] using counted
  · refine iff_of_false ?_ same
    intro still
    have kept : (inotifyRmWatch inotifyFd s.active w.watch.fd inotifyFd).2 = s.active := by
      rw [inotifyRmWatch, if_neg (fun both => same both.1)]
    have counted := agrees w.watch.fd
    have gone := still w.watch.fd
    rw [total, if_pos rfl] at counted
    simp only [kept, if_pos active] at gone counted
    omega

theorem deliver_iff (agrees : s.Agrees) {events : List InotifyEvent}
    (watched : ∀ wd ∈ selfDeleted events, wd ∈ s.active.map KernelWatch.wd) :
    Agrees { s with active := dropWatches s.active events } ↔ selfDeleted events = [] := by
  constructor
  · intro still
    apply List.eq_nil_iff_forall_not_mem.mpr
    intro wd member
    have gone : wd ∉ (dropWatches s.active events).map KernelWatch.wd := by
      intro present
      obtain ⟨active, kept, rfl⟩ := List.mem_map.mp present
      exact of_decide_eq_true (List.mem_filter.mp kept).2 member
    have counted := agrees wd
    rw [if_pos (watched wd member)] at counted
    have after := still wd
    simp only [if_neg gone, counted] at after
    omega
  · intro none_
    have kept : dropWatches s.active events = s.active := by
      simp [dropWatches, none_]
    rwa [kept]

end Shape.Agrees

section Agreement

variable {st st' : Registry} {s : Shape} {event : RegistryEvent}

theorem Shaped.agrees_iff (shaped : Shaped st s) : st.Agrees ↔ s.Agrees := by
  have fds : st.fds = s.watches.map (·.watch.fd) := shaped.watches.fds_eq
  constructor
  · intro agrees wd
    rw [← fds, ← shaped.active]
    exact agrees.fds wd
  · intro agrees
    refine ⟨?_, shaped.watches.allocated_perm, ?_⟩
    · intro wd
      rw [fds, shaped.active]
      exact agrees wd
    · rw [shaped.watches.listed_eq]
      exact shaped.watches.distinctPtrs

/-- A step keeps the agreement exactly if it respects it. -/
theorem Shaped.respects_iff (shaped : Shaped st s) (distinct : Distinct s.active) (agrees : s.Agrees) {s' : Shape}
    (effect : Effect st.cache.pkgLifetime st.inotifyFd s event s') : s'.Agrees ↔ st.Respects event := by
  cases effect with
  | opened | closed | collected | swept => exact iff_of_true agrees trivial
  | refused grants refused =>
    rename_i env
    rcases inotifyAddWatch_cases s.active env with
      ⟨nowhere, same⟩ | ⟨watched, member, -, same⟩ | ⟨dir, -, -, same⟩
    · simp only [same]
      apply iff_of_true agrees
      intro dir found
      rw [nowhere] at found
      contradiction
    · rw [same] at refused
      exact absurd (distinct.positive watched member) (Int32.not_lt.mpr refused)
    · rw [same] at refused
      exact absurd grants.positive (Int32.not_lt.mpr refused)
  | added grants granted =>
    rename_i env node ptr
    rcases inotifyAddWatch_cases s.active env with
      ⟨-, same⟩ | ⟨watched, member, dir, same⟩ | ⟨dir, found, new, same⟩
    · have negative : ¬(0 : Int32) < -1 := by decide
      rw [same] at granted
      exact absurd granted negative
    · simp only [same]
      apply iff_of_false (agrees.not_add_again member _ rfl _)
      intro respects
      apply respects _ dir
      rw [shaped.active]
      exact List.mem_map_of_mem member
    · simp only [same]
      refine iff_of_true (agrees.add_new ?_ _ rfl _ _) fun other found' => ?_
      · intro member
        obtain ⟨watched, present, equal⟩ := List.mem_map.mp member
        exact grants.unused watched present equal
      · rw [found] at found'
        cases found'
        rwa [shaped.active]
  | removed listed =>
    rename_i before after w
    rw [agrees.remove_iff listed, Registry.Respects, shaped.watches.ptr_read (by simp [listed]), Option.map_some,
      Option.some_inj]
  | delivered watched => exact agrees.deliver_iff watched

/-- As long as no watched directory is added again, only watches whose descriptor has the number of `vfs_inotify_fd`
are removed, and no watched directory is deleted, the registry agrees with the kernel in every state. Any other step
breaks the agreement. -/
theorem watch_registry_agrees {st₀ : Registry} {events : List RegistryEvent} (initial : st₀.Initial)
    (run : Run (fun st event st' => RegistryStep st event st' ∧ st.Respects event) st₀ events st) :
    st.Agrees ∧ ∀ event st', RegistryStep st event st' → (st'.Agrees ↔ st.Respects event) := by
  have invariant : ∃ s, Shaped st s ∧ Distinct s.active ∧ s.Agrees := by
    apply run.invariant (I := fun st => ∃ s, Shaped st s ∧ Distinct s.active ∧ s.Agrees)
    · exact ⟨{}, initial.shaped, ⟨List.nodup_nil, by simp⟩, fun wd => by simp⟩
    · rintro source event target ⟨s, shaped, distinct, agrees⟩ ⟨step, respects⟩
      obtain ⟨s', effect, final, -⟩ := shaped.step step
      exact ⟨s', final, distinct.effect effect, (shaped.respects_iff distinct agrees effect).mpr respects⟩
  obtain ⟨s, shaped, distinct, agrees⟩ := invariant
  refine ⟨shaped.agrees_iff.mpr agrees, fun event st' step => ?_⟩
  obtain ⟨s', effect, final, -⟩ := shaped.step step
  rw [final.agrees_iff, shaped.respects_iff distinct agrees effect]

end Agreement

/-! ## The list nodes -/

/-- Every allocated node is on one of the lists, going by their number, and `dlink_count` counts them. -/
structure Registry.Balanced (st : Registry) : Prop where
  nodes : st.cache.nodeHeap.allocated.length = st.cache.pkgList.nodes.length + st.watchList.nodes.length
  count : st.cache.dlinkCount = Int32.ofNat (st.cache.pkgList.nodes.length + st.watchList.nodes.length)

/-- `pkg_gc` finds no handle to release, and `vfs_watch_remove` is not called. -/
def Registry.Retains (st : Registry) : RegistryEvent → Prop
  | .pkgGc now => ∀ pkg ∈ st.cache.listed, ∀ handle, st.cache.pkgHeap.read pkg = some handle →
      ¬(handle.refcnt = 0 ∧ now > handle.otime + st.cache.pkgLifetime / 2)
  | .vfsWatchRemove _ => False
  | _ => True

def Shape.Balanced (s : Shape) : Prop :=
  s.nodes = s.packages.length + s.watches.length

section Balance

variable {st st' : Registry} {s : Shape} {event : RegistryEvent}

theorem Shaped.balanced_iff (shaped : Shaped st s) : st.Balanced ↔ s.Balanced := by
  constructor
  · rintro ⟨nodes, -⟩
    rwa [shaped.nodes, shaped.packages_length, shaped.watches_length] at nodes
  · intro balanced
    unfold Shape.Balanced at balanced
    constructor
    · rw [shaped.nodes, shaped.packages_length, shaped.watches_length, balanced]
    · rw [shaped.count, shaped.packages_length, shaped.watches_length, balanced]

theorem Shaped.retains_iff (shaped : Shaped st s) (balanced : s.Balanced) {s' : Shape}
    (effect : Effect st.cache.pkgLifetime st.inotifyFd s event s') : s'.Balanced ↔ st.Retains event := by
  unfold Shape.Balanced at *
  cases effect with
  | opened length =>
    refine iff_of_true ?_ trivial
    simp only [length]
    omega
  | closed length =>
    refine iff_of_true ?_ trivial
    simp only [length]
    omega
  | collected =>
    rename_i now
    have fewer := List.length_filter_le (fun e => decide ¬Entry.Expired now st.cache.pkgLifetime e) s.packages
    have all := List.length_filter_eq_length_iff (l := s.packages)
      (p := fun e => decide ¬Entry.Expired now st.cache.pkgLifetime e)
    have retains : st.Retains (.pkgGc now) ↔ ∀ e ∈ s.packages, ¬e.Expired now st.cache.pkgLifetime := by
      rw [Registry.Retains, shaped.cache.listed_eq]
      constructor
      · intro retains e member
        exact retains e.ptr (List.mem_map_of_mem member) e.handle (shaped.cache.ptr_read member)
      · intro kept pkg member handle found
        obtain ⟨e, present, rfl⟩ := List.mem_map.mp member
        rw [shaped.cache.ptr_read present] at found
        obtain rfl := Option.some.inj found
        exact kept e present
    simp only [decide_eq_true_eq] at all
    rw [retains, ← all]
    simp only
    omega
  | swept => exact iff_of_true balanced trivial
  | refused => exact iff_of_true balanced trivial
  | added =>
    refine iff_of_true ?_ trivial
    simp only [List.length_append, List.length_singleton]
    omega
  | removed listed =>
    refine iff_of_false ?_ id
    simp only [listed, List.length_append, List.length_cons] at balanced ⊢
    omega
  | delivered => exact iff_of_true balanced trivial

/-- As long as `pkg_gc` finds nothing to release and no watch is removed, there are as many list nodes as there are
entries on the two lists, so none when both are empty. Any other step leaves a node behind. -/
theorem list_nodes_balanced {st₀ : Registry} {events : List RegistryEvent} (initial : st₀.Initial)
    (run : Run (fun st event st' => RegistryStep st event st' ∧ st.Retains event) st₀ events st) :
    st.Balanced ∧ (st.cache.pkgList.nodes = [] → st.watchList.nodes = [] → st.cache.nodeHeap.allocated = []) ∧
      ∀ event st', RegistryStep st event st' → (st'.Balanced ↔ st.Retains event) := by
  have invariant : ∃ s, Shaped st s ∧ s.Balanced := by
    apply run.invariant (I := fun st => ∃ s, Shaped st s ∧ s.Balanced) ⟨{}, initial.shaped, rfl⟩
    rintro source event target ⟨s, shaped, balanced⟩ ⟨step, retains⟩
    obtain ⟨s', effect, final, -⟩ := shaped.step step
    exact ⟨s', final, (shaped.retains_iff balanced effect).mpr retains⟩
  obtain ⟨s, shaped, balanced⟩ := invariant
  have nodes := shaped.balanced_iff.mpr balanced
  refine ⟨nodes, ?_, fun event st' step => ?_⟩
  · intro noPackage noWatch
    have none_ := nodes.nodes
    rw [noPackage, noWatch] at none_
    exact List.length_eq_zero_iff.mp none_
  · obtain ⟨s', effect, final, -⟩ := shaped.step step
    rw [final.balanced_iff, shaped.retains_iff balanced effect]

end Balance

/-! ## A concrete registry -/

/-- Two watches per block, and inotify instance 3. -/
def smallRegistry : Registry where
  cache := Pkg.smallCache
  watchHeap := (emptyHeap sizeofWatch 2).grown 65536
  inotifyFd := 3

theorem smallRegistry_initial : smallRegistry.Initial := by
  exact ⟨Pkg.smallCache_initial, rfl,
    ⟨2, by decide, true, ⟨true, some 65536⟩, emptyHeap_lawful true (by decide), rfl⟩, rfl, rfl⟩

/-- A directory that is not watched yet, under this descriptor; no block is needed. -/
def smallWatchEnv (wd : Int32) : WatchEnv where
  dir := some 1
  wd
  watchBlock := ⟨true, none⟩
  nodeBlock := ⟨true, none⟩

theorem smallWatchEnv_lawful {wd : Int32} (positive : 0 < wd) {st : Registry} (none_ : st.active = []) :
    (smallWatchEnv wd).Lawful st :=
  ⟨by simp [BlockEnv.Lawful, smallWatchEnv], by simp [BlockEnv.Lawful, smallWatchEnv], positive, by simp [none_]⟩

/-- `/pkg` is watched. -/
theorem smallRegistry_add {wd : Int32} (positive : 0 < wd) {watch : MemBlock} {st : Registry}
    (ran : smallRegistry.vfsWatchAdd "/pkg".toList (smallWatchEnv wd) = some (some watch, st)) :
    RegistryStep smallRegistry (.vfsWatchAdd "/pkg".toList (smallWatchEnv wd) (some watch)) st ∧
      smallRegistry.Respects (.vfsWatchAdd "/pkg".toList (smallWatchEnv wd) (some watch)) ∧
      ∃ s w, Shaped st s ∧ Distinct s.active ∧ s.Agrees ∧ s.Balanced ∧ st.inotifyFd = 3 ∧ s.watches = [w] ∧
        w.watch.fd = wd := by
  have step := RegistryStep.vfsWatchAdd (smallWatchEnv_lawful positive rfl) ran
  have respects : smallRegistry.Respects (.vfsWatchAdd "/pkg".toList (smallWatchEnv wd) (some watch)) :=
    fun dir _ => by simp [smallRegistry]
  have initial := smallRegistry_initial.shaped
  have distinct : Distinct ({} : Shape).active := ⟨List.nodup_nil, by simp⟩
  obtain ⟨s, effect, shaped, fd⟩ := initial.step step
  have agrees := (initial.respects_iff distinct (fun wd => by simp) effect).mpr respects
  have balanced := (initial.retains_iff rfl effect).mpr trivial
  have distinct' := distinct.effect effect
  cases effect with
  | added grants granted => exact ⟨step, respects, _, _, shaped, distinct', agrees, balanced, fd, rfl, rfl⟩

/-- The watch that was added is removed again. -/
theorem smallRegistry_remove {st : Registry} {s : Shape} (shaped : Shaped st s) {w : WatchEntry}
    (only : s.watches = [w]) : ∃ st', RegistryStep st (.vfsWatchRemove w.ptr) st' := by
  have rep : Watches st ([] ++ w :: []) := by
    rw [List.nil_append, ← only]
    exact shaped.watches
  have listed : w.ptr ∈ st.listed := by
    rw [rep.listed_eq]
    simp
  obtain ⟨rv, st', ran, -⟩ := rep.vfsWatchRemove_spec
  exact ⟨st', .vfsWatchRemove listed ran⟩

/-- A watch that happens to have the number of the inotify instance is added and removed. -/
theorem watch_registry_agrees_small : ∃ events st, events.length = 2 ∧
    Run (fun st event st' => RegistryStep st event st' ∧ st.Respects event) smallRegistry events st ∧ st.Agrees := by
  obtain ⟨st, ran⟩ : ∃ st, smallRegistry.vfsWatchAdd "/pkg".toList (smallWatchEnv 3) =
      some (some ⟨65536, 1⟩, st) := ⟨_, rfl⟩
  obtain ⟨step, respects, s, w, shaped, -, -, -, fd, only, number⟩ := smallRegistry_add (by decide) ran
  obtain ⟨st', next⟩ := smallRegistry_remove shaped only
  have removed : st.Respects (.vfsWatchRemove w.ptr) := by
    rw [Registry.Respects, shaped.watches.ptr_read (by simp [only]), Option.map_some, number, fd]
  have run : Run (fun st event st' => RegistryStep st event st' ∧ st.Respects event) smallRegistry _ st' :=
    (Run.single ⟨step, respects⟩).snoc ⟨next, removed⟩
  exact ⟨_, st', rfl, run, (watch_registry_agrees smallRegistry_initial run).1⟩

/-- The first watch of an instance has descriptor 1. Removed from the list, it stays active. -/
theorem removed_watch_stays_active :
    ¬∀ (st₀ st : Registry) (events : List RegistryEvent), st₀.Initial → Run RegistryStep st₀ events st → st.Agrees := by
  intro always
  obtain ⟨st, ran⟩ : ∃ st, smallRegistry.vfsWatchAdd "/pkg".toList (smallWatchEnv 1) =
      some (some ⟨65536, 1⟩, st) := ⟨_, rfl⟩
  obtain ⟨step, -, s, w, shaped, distinct, agrees, -, fd, only, number⟩ := smallRegistry_add (by decide) ran
  obtain ⟨st', next⟩ := smallRegistry_remove shaped only
  obtain ⟨s', effect, final, -⟩ := shaped.step next
  have agreed := final.agrees_iff.mp (always _ _ _ smallRegistry_initial ((Run.single step).snoc next))
  have respects := (shaped.respects_iff distinct agrees effect).mp agreed
  rw [Registry.Respects, shaped.watches.ptr_read (by simp [only]), Option.map_some, number, fd] at respects
  exact absurd respects (by decide)

/-- A package is opened and a directory is watched. -/
theorem list_nodes_balanced_small : ∃ events st,
    Run (fun st event st' => RegistryStep st event st' ∧ st.Retains event) smallRegistry events st ∧
    st.cache.pkgList.nodes.length = 1 ∧ st.watchList.nodes.length = 1 ∧ st.cache.nodeHeap.allocated.length = 2 := by
  obtain ⟨cache, pkg, st, watch, opened, added, active, packages, watches⟩ : ∃ cache pkg st watch,
      Pkg.pkgOpen "/pkg/a.pkg".toList Pkg.smallEnv smallRegistry.cache = some (some pkg, cache) ∧
      Registry.vfsWatchAdd "/pkg".toList (smallWatchEnv 1) { smallRegistry with cache } = some (some watch, st) ∧
      smallRegistry.active = [] ∧ st.cache.pkgList.nodes.length = 1 ∧ st.watchList.nodes.length = 1 :=
    ⟨_, _, _, _, rfl, rfl, rfl, rfl, rfl⟩
  have first : RegistryStep smallRegistry (.pkgOpen "/pkg/a.pkg".toList Pkg.smallEnv (some pkg))
      { smallRegistry with cache } := .pkgOpen Pkg.smallEnv_lawful opened
  have second : RegistryStep { smallRegistry with cache }
      (.vfsWatchAdd "/pkg".toList (smallWatchEnv 1) (some watch)) st :=
    .vfsWatchAdd (smallWatchEnv_lawful (by decide) active) added
  have run : Run (fun st event st' => RegistryStep st event st' ∧ st.Retains event) smallRegistry _ st :=
    (Run.single ⟨first, trivial⟩).snoc ⟨second, trivial⟩
  refine ⟨_, st, run, packages, watches, ?_⟩
  rw [(list_nodes_balanced smallRegistry_initial run).1.nodes, packages, watches]

/-- The node of a watch that is removed stays allocated. -/
theorem removed_watch_leaks_node :
    ¬∀ (st₀ st : Registry) (events : List RegistryEvent), st₀.Initial → Run RegistryStep st₀ events st → st.Balanced := by
  intro always
  obtain ⟨st, ran⟩ : ∃ st, smallRegistry.vfsWatchAdd "/pkg".toList (smallWatchEnv 1) =
      some (some ⟨65536, 1⟩, st) := ⟨_, rfl⟩
  obtain ⟨step, -, s, w, shaped, -, -, balanced, -, only, -⟩ := smallRegistry_add (by decide) ran
  obtain ⟨st', next⟩ := smallRegistry_remove shaped only
  obtain ⟨s', effect, final, -⟩ := shaped.step next
  have kept := final.balanced_iff.mp (always _ _ _ smallRegistry_initial ((Run.single step).snoc next))
  exact (shaped.retains_iff balanced effect).mp kept

end FsPkg.Vfs
