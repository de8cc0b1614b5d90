import FsPkg.Machine.Run
import FsPkg.Model.PkgCache
import FsPkg.Proofs.BallocSpec

/-! # The package cache as a list of entries

`Represents` reads the cache out of the two heaps: which node holds which handle, with which
contents. Every operation of `pkg.c` has one lemma here that computes it on a represented state and
says which entries represent the result; failing opens leave the entries alone, although they leave
an element of `pkg_heap` behind.
-/

namespace FsPkg.Pkg

open Dlink Balloc Machine

/-- A listed package: its list node, its handle and the contents of the handle. -/
structure Entry where
  node : MemBlock
  ptr : MemBlock
  handle : PkgHandle
deriving DecidableEq, Repr

/-- The list, its nodes and its handles hold exactly these entries, and each entry's descriptor is
open and locked. -/
structure Represents (st : State) (es : List Entry) : Prop where
  pkgHeap : Invariant st.pkgHeap
  nodeHeap : Invariant st.nodeHeap
  nodes : st.pkgList.nodes = es.map Entry.node
  nodeLive : ∀ e ∈ es, st.nodeHeap.live e.node = some { data := some e.ptr }
  ptrLive : ∀ e ∈ es, st.pkgHeap.live e.ptr = some e.handle
  named : ∀ e ∈ es, e.handle.name.isSome
  distinctNodes : (es.map Entry.node).Nodup
  distinctPtrs : (es.map Entry.ptr).Nodup
  distinctFds : (es.map (·.handle.fd)).Nodup
  opened : ∀ e ∈ es, ⟨e.handle.fd, true⟩ ∈ st.descriptors
  valid : ∀ d ∈ st.descriptors, 0 ≤ d.fd

/-- Memory can be had, and `open` yields a number that is not in use. -/
structure OpenEnv.Lawful (env : OpenEnv) (st : State) : Prop where
  pkgBlock : env.pkgBlock.Lawful st.pkgHeap
  pkgSucceeds : env.pkgBlock.Succeeds
  nodeBlock : env.nodeBlock.Lawful st.nodeHeap
  nodeSucceeds : env.nodeBlock.Succeeds
  open_ : ∀ fd, env.open_ = some fd → 0 ≤ fd ∧ ∀ d ∈ st.descriptors, d.fd ≠ fd

/-- The same without the promise of memory. -/
structure OpenEnv.Answers (env : OpenEnv) (st : State) : Prop where
  pkgBlock : env.pkgBlock.Lawful st.pkgHeap
  nodeBlock : env.nodeBlock.Lawful st.nodeHeap
  open_ : ∀ fd, env.open_ = some fd → 0 ≤ fd ∧ ∀ d ∈ st.descriptors, d.fd ≠ fd

instance (env : OpenEnv) (st : State) : Decidable (env.Answers st) :=
  decidable_of_iff (env.pkgBlock.Lawful st.pkgHeap ∧ env.nodeBlock.Lawful st.nodeHeap ∧
    env.open_.all fun fd => 0 ≤ fd ∧ ∀ d ∈ st.descriptors, d.fd ≠ fd)
    ⟨fun all => ⟨all.1, all.2.1, by simpa [Option.all_eq_true] using all.2.2⟩,
      fun answers => ⟨answers.pkgBlock, answers.nodeBlock, by simpa [Option.all_eq_true] using answers.open_⟩⟩

theorem OpenEnv.Lawful.answers {env : OpenEnv} {st : State} (lawful : env.Lawful st) : env.Answers st :=
  ⟨lawful.pkgBlock, lawful.nodeBlock, lawful.open_⟩

instance (env : OpenEnv) (st : State) : Decidable (env.Lawful st) :=
  decidable_of_iff (env.Answers st ∧ env.pkgBlock.Succeeds ∧ env.nodeBlock.Succeeds)
    ⟨fun all => ⟨all.1.pkgBlock, all.2.1, all.1.nodeBlock, all.2.2, all.1.open_⟩,
      fun lawful => ⟨lawful.answers, lawful.pkgSucceeds, lawful.nodeSucceeds⟩⟩

/-! ## Descriptors -/

theorem mem_closeFd {fd : Int32} {d : Descriptor} {descriptors : List Descriptor} :
    d ∈ closeFd fd descriptors ↔ d ∈ descriptors ∧ d.fd ≠ fd := by
  simp [closeFd]

theorem mem_setLock_of_ne {fd : Int32} {locked : Bool} {d : Descriptor} {descriptors : List Descriptor}
    (other : d.fd ≠ fd) : d ∈ setLock fd locked descriptors ↔ d ∈ descriptors := by
  constructor
  · intro member
    obtain ⟨old, present, rfl⟩ := List.mem_map.mp member
    split at other
    · next same => exact (other same).elim
    · next different => simpa only [if_neg different] using present
  · intro present
    exact List.mem_map.mpr ⟨d, present, if_neg other⟩

theorem fd_of_mem_setLock {fd : Int32} {locked : Bool} {d : Descriptor} {descriptors : List Descriptor}
    (member : d ∈ setLock fd locked descriptors) : ∃ old ∈ descriptors, d.fd = old.fd := by
  obtain ⟨old, present, rfl⟩ := List.mem_map.mp member
  refine ⟨old, present, ?_⟩
  split <;> rfl

/-- Unlocking and closing, as `pkg_release` does it. -/
def dropFd (fd : Int32) (descriptors : List Descriptor) : List Descriptor :=
  if fd ≠ 0 then closeFd fd (setLock fd false descriptors) else setLock fd false descriptors

theorem mem_dropFd_of_ne {fd : Int32} {d : Descriptor} {descriptors : List Descriptor}
    (other : d.fd ≠ fd) : d ∈ dropFd fd descriptors ↔ d ∈ descriptors := by
  unfold dropFd
  split
  · rw [mem_closeFd, mem_setLock_of_ne other]
    simp [other]
  · exact mem_setLock_of_ne other

theorem fd_of_mem_dropFd {fd : Int32} {d : Descriptor} {descriptors : List Descriptor}
    (member : d ∈ dropFd fd descriptors) : ∃ old ∈ descriptors, d.fd = old.fd := by
  unfold dropFd at member
  split at member
  · exact fd_of_mem_setLock (mem_closeFd.mp member).1
  · exact fd_of_mem_setLock member

section Unused

variable {fd : Int32} {descriptors : List Descriptor} (unused : ∀ d ∈ descriptors, d.fd ≠ fd)
include unused

theorem setLock_unused (locked : Bool) : setLock fd locked descriptors = descriptors := by
  unfold setLock
  conv_rhs => rw [← List.map_id descriptors]
  exact List.map_congr_left fun d member => if_neg (unused d member)

theorem dropFd_unused : dropFd fd descriptors = descriptors := by
  unfold dropFd
  rw [setLock_unused unused]
  split
  · exact List.filter_eq_self.mpr fun d member => by simpa using unused d member
  · rfl

/-- A descriptor of its own is closed, unless it is number 0. -/
theorem dropFd_cons (locked : Bool) :
    dropFd fd (⟨fd, locked⟩ :: descriptors) = if fd = 0 then ⟨0, false⟩ :: descriptors else descriptors := by
  have unlocked : setLock fd false (⟨fd, locked⟩ :: descriptors) = ⟨fd, false⟩ :: descriptors := by
    have rest := setLock_unused unused false
    unfold setLock at rest ⊢
    simp [rest]
  unfold dropFd
  rw [unlocked]
  by_cases zero : fd = 0
  · simp [zero]
  · rw [if_pos zero, if_neg zero, closeFd, List.filter_cons_of_neg (by simp)]
    exact List.filter_eq_self.mpr fun d member => by simpa using unused d member

theorem setLock_cons : setLock fd true (⟨fd, false⟩ :: descriptors) = ⟨fd, true⟩ :: descriptors := by
  have rest := setLock_unused unused true
  unfold setLock at rest ⊢
  simp [rest]

end Unused

/-! ## Looking things up -/

theorem filterMap_of_reads {α β γ : Type} {f : α → β} {g : β → Option γ} {h : α → γ} {entries : List α}
    (reads : ∀ e ∈ entries, g (f e) = some (h e)) : (entries.map f).filterMap g = entries.map h := by
  rw [List.filterMap_map, ← List.filterMap_eq_map]
  exact List.filterMap_congr reads

section Represented

variable {st : State} {es before after : List Entry} {e : Entry}

namespace Represents

theorem node_read (rep : Represents st es) (member : e ∈ es) :
    st.nodeHeap.read e.node = some { data := some e.ptr } :=
  rep.nodeHeap.read_of_live (rep.nodeLive e member)

theorem ptr_read (rep : Represents st es) (member : e ∈ es) : st.pkgHeap.read e.ptr = some e.handle :=
  rep.pkgHeap.read_of_live (rep.ptrLive e member)

theorem allocated (rep : Represents st es) (member : e ∈ es) : e.ptr ∈ st.pkgHeap.allocated :=
  rep.pkgHeap.mem_allocated_iff.mpr ⟨_, rep.ptrLive e member⟩

theorem listed_eq (rep : Represents st es) : st.listed = es.map Entry.ptr := by
  rw [State.listed, rep.nodes]
  apply filterMap_of_reads
  intro e member
  rw [rep.node_read member]
  rfl

theorem name_eq (rep : Represents st es) (member : e ∈ es) : st.name e.ptr = e.handle.name := by
  rw [State.name, rep.ptr_read member]
  rfl

end Represents

private theorem pkgHandleByname_walk (rep : Represents st es) (path : Text) (rest : List Entry)
    (part : ∀ e ∈ rest, e ∈ es) : pkgHandleByname st path (rest.map Entry.node) =
      some ((rest.find? fun e => e.handle.name = some path).map Entry.ptr) := by
  induction rest with
  | nil => rfl
  | cons e rest ih =>
    obtain ⟨head, tail⟩ := List.forall_mem_cons.mp part
    obtain ⟨name, named⟩ := Option.isSome_iff_exists.mp (rep.named e head)
    simp only [List.map_cons, pkgHandleByname, bind, rep.node_read head, Option.bind_some,
      rep.ptr_read head, named, ih tail, List.find?_cons, Option.some.injEq]
    by_cases same : name = path
    · simp [same]
    · simp [same]

/-- `pkg_handle_byname` finds the first entry of that name. -/
theorem Represents.pkgHandleByname_spec (rep : Represents st es) (path : Text) :
    pkgHandleByname st path st.pkgList.nodes =
      some ((es.find? fun e => e.handle.name = some path).map Entry.ptr) := by
  rw [rep.nodes]
  exact pkgHandleByname_walk rep path es fun _ member => member

/-- The search of `pkg_findnode` through nodes that can be read. -/
theorem pkgFindnode_walk {ε : Type} {nodeHeap : BlockHeap DlinkNode} {node ptr : ε → MemBlock} {entries : List ε}
    (reads : ∀ e ∈ entries, nodeHeap.read (node e) = some { data := some (ptr e) }) (pkg : MemBlock) :
    pkgFindnode nodeHeap pkg (entries.map node) = some ((entries.find? fun e => ptr e = pkg).map node) := by
  induction entries with
  | nil => rfl
  | cons e rest ih =>
    obtain ⟨head, tail⟩ := List.forall_mem_cons.mp reads
    simp only [List.map_cons, pkgFindnode, bind, head, Option.bind_some, ih tail, List.find?_cons,
      Option.some.injEq]
    by_cases same : ptr e = pkg
    · simp [same]
    · simp [same]

/-- `pkg_findnode` finds the entry of that handle. -/
theorem Represents.pkgFindnode_spec (rep : Represents st es) (pkg : MemBlock) :
    pkgFindnode st.nodeHeap pkg st.pkgList.nodes =
      some ((es.find? fun e => e.ptr = pkg).map Entry.node) := by
  rw [rep.nodes]
  exact pkgFindnode_walk (fun _ member => rep.node_read member) pkg

/-! ## Changing a represented state -/

/-- Whatever happens elsewhere in the heaps and to other descriptors, the entries stay. -/
theorem Represents.frame (rep : Represents st es) {st' : State} (pkgHeap : Invariant st'.pkgHeap)
    (nodeHeap : Invariant st'.nodeHeap) (nodes : st'.pkgList.nodes = st.pkgList.nodes)
    (samePtr : ∀ e ∈ es, st'.pkgHeap.live e.ptr = st.pkgHeap.live e.ptr)
    (sameNode : ∀ e ∈ es, st'.nodeHeap.live e.node = st.nodeHeap.live e.node)
    (opened : ∀ e ∈ es, ⟨e.handle.fd, true⟩ ∈ st'.descriptors)
    (valid : ∀ d ∈ st'.descriptors, 0 ≤ d.fd) : Represents st' es :=
  { rep with
    pkgHeap, nodeHeap, opened, valid
    nodes := nodes.trans rep.nodes
    nodeLive := fun e member => (sameNode e member).trans (rep.nodeLive e member)
    ptrLive := fun e member => (samePtr e member).trans (rep.ptrLive e member) }

theorem mem_of_split {ε : Type} {before after : List ε} {e other : ε} (member : other ∈ before ++ after) :
    other ∈ before ++ e :: after := by
  rcases List.mem_append.mp member with left | right
  · exact List.mem_append_left _ left
  · exact List.mem_append_right _ (List.mem_cons_of_mem _ right)

theorem ne_of_split {ε α : Type} {before after : List ε} {e : ε} {f : ε → α}
    (distinct : ((before ++ e :: after).map f).Nodup) {other : ε} (member : other ∈ before ++ after) :
    f other ≠ f e := by
  have moved : ((e :: (before ++ after)).map f).Nodup := (List.perm_middle.map f).nodup_iff.mp distinct
  intro same
  exact (List.nodup_cons.mp moved).1 (same ▸ List.mem_map_of_mem member)

/-- Keys stay distinct when an entry with a new one is appended. -/
theorem nodup_snoc {ε α : Type} {entries : List ε} {f : ε → α} (distinct : (entries.map f).Nodup) {new : ε}
    (different : ∀ e ∈ entries, f e ≠ f new) : ((entries ++ [new]).map f).Nodup := by
  rw [List.map_append, List.nodup_append]
  refine ⟨distinct, by simp, ?_⟩
  intro value member last atEnd
  obtain ⟨e, present, rfl⟩ := List.mem_map.mp member
  simpa [List.mem_singleton.mp atEnd] using different e present

/-- Where keys are distinct, the search for a key finds its entry. -/
theorem find?_of_split {ε α : Type} [DecidableEq α] {before after : List ε} {e : ε} {f : ε → α}
    (distinct : ((before ++ e :: after).map f).Nodup) :
    (before ++ e :: after).find? (fun other => f other = f e) = some e := by
  have absent : before.find? (fun other => f other = f e) = none := by
    rw [List.find?_eq_none]
    intro other member
    simpa using ne_of_split distinct (List.mem_append_left after member)
  rw [List.find?_append, absent]
  simp

theorem erase_of_split {ε α : Type} [DecidableEq α] {before after : List ε} {e : ε} {f : ε → α}
    (distinct : ((before ++ e :: after).map f).Nodup) :
    ((before ++ e :: after).map f).erase (f e) = (before ++ after).map f := by
  have absent : f e ∉ before.map f := by
    intro member
    obtain ⟨other, left, same⟩ := List.mem_map.mp member
    exact ne_of_split distinct (List.mem_append_left after left) same
  rw [List.map_append, List.map_cons, List.erase_append_right _ absent, List.erase_cons_head, List.map_append]

/-- Storing into a listed handle, its name kept and its descriptor untouched. -/
theorem Represents.store (rep : Represents st (before ++ e :: after)) (handle : PkgHandle)
    (fd : handle.fd = e.handle.fd) (name : handle.name = e.handle.name) :
    ∃ heap, st.pkgHeap.write e.ptr handle = some heap ∧
      Represents { st with pkgHeap := heap } (before ++ { e with handle } :: after) := by
  have present : e ∈ before ++ e :: after := by simp
  obtain ⟨heap, ran, inv, -, -, live, -⟩ := rep.pkgHeap.write_spec (rep.allocated present) handle
  refine ⟨heap, ran, inv, rep.nodeHeap, ?_, ?_, ?_, ?_, ?_, ?_, ?_, ?_, rep.valid⟩
  · simpa using rep.nodes
  · intro other member
    rcases List.mem_append.mp member with left | right
    · exact rep.nodeLive other (by simp [left])
    · rcases List.mem_cons.mp right with rfl | right
      · exact rep.nodeLive e present
      · exact rep.nodeLive other (by simp [right])
  · intro other member
    rw [live]
    rcases List.mem_cons.mp (List.perm_middle.mem_iff.mp member) with rfl | rest
    · exact Function.update_self ..
    · rw [Function.update_of_ne (ne_of_split rep.distinctPtrs rest)]
      exact rep.ptrLive other (mem_of_split rest)
  · intro other member
    rcases List.mem_cons.mp (List.perm_middle.mem_iff.mp member) with rfl | rest
    · exact name ▸ rep.named e present
    · exact rep.named other (mem_of_split rest)
  · simpa using rep.distinctNodes
  · simpa using rep.distinctPtrs
  · simpa [fd] using rep.distinctFds
  · intro other member
    rcases List.mem_cons.mp (List.perm_middle.mem_iff.mp member) with rfl | rest
    · exact fd ▸ rep.opened e present
    · exact rep.opened other (mem_of_split rest)

/-- The contents `pkg_release` leaves in a handle. -/
def released (handle : PkgHandle) : PkgHandle :=
  { handle with name := none, fd := if handle.fd ≠ 0 then -1 else handle.fd }

/-- Releasing a handle that never made it to the list: the element stays allocated. -/
theorem Represents.pkgRelease_unlisted (rep : Represents st es) {pkg : MemBlock} {handle : PkgHandle}
    (live : st.pkgHeap.live pkg = some handle) (unlisted : ∀ e ∈ es, e.ptr ≠ pkg)
    (unused : ∀ e ∈ es, e.handle.fd ≠ handle.fd) :
    ∃ heap, pkgRelease pkg st =
        some { st with pkgHeap := heap, descriptors := dropFd handle.fd st.descriptors } ∧
      heap.live = Function.update st.pkgHeap.live pkg (some (released handle)) ∧
      Represents { st with pkgHeap := heap, descriptors := dropFd handle.fd st.descriptors } es := by
  have held : pkg ∈ st.pkgHeap.allocated := rep.pkgHeap.mem_allocated_iff.mpr ⟨_, live⟩
  obtain ⟨heap, ran, inv, -, -, now, -⟩ := rep.pkgHeap.write_spec held (released handle)
  have notFound : es.find? (fun e => e.ptr = pkg) = none := by
    rw [List.find?_eq_none]
    intro e member
    simpa using unlisted e member
  refine ⟨heap, ?_, now, ?_⟩
  · unfold released at ran
    simp only [pkgRelease, bind, rep.pkgHeap.read_of_live live, Option.bind_some, ran,
      rep.pkgFindnode_spec, notFound]
    rfl
  · refine rep.frame inv rep.nodeHeap rfl ?_ (fun _ _ => rfl) ?_ ?_
    · intro e member
      rw [show State.pkgHeap _ = heap from rfl, now, Function.update_of_ne (unlisted e member)]
    · intro e member
      exact (mem_dropFd_of_ne (unused e member)).mpr (rep.opened e member)
    · intro d member
      obtain ⟨old, present, same⟩ := fd_of_mem_dropFd member
      exact same ▸ rep.valid old present

/-- What `pkg_release` does to a listed handle: it alone stops being handed out, and its node leaves the list. -/
structure Released (st : State) (e : Entry) (st' : State) : Prop where
  ran : pkgRelease e.ptr st = some st'
  live : st'.pkgHeap.live = Function.update st.pkgHeap.live e.ptr none
  freeElems : st'.pkgHeap.freeElems.toNat = st.pkgHeap.freeElems.toNat + 1
  nodeHeap : st'.nodeHeap = st.nodeHeap
  pkgList : st'.pkgList = ⟨st.pkgList.nodes.erase e.node, st.pkgList.length - 1⟩
  descriptors : st'.descriptors = dropFd e.handle.fd st.descriptors
  pkgLifetime : st'.pkgLifetime = st.pkgLifetime

/-- Releasing a listed handle takes its entry off the list and frees the handle. -/
theorem Represents.pkgRelease_listed (rep : Represents st (before ++ e :: after)) :
    ∃ st', Released st e st' ∧ Represents st' (before ++ after) := by
  have present : e ∈ before ++ e :: after := by simp
  obtain ⟨heap, ran, inv, -, -, live, count⟩ :=
    rep.pkgHeap.write_spec (rep.allocated present) (released e.handle)
  have still : e.ptr ∈ heap.allocated := inv.held live
  obtain ⟨freed, free, kept, -, -, gone, more⟩ := inv.free_spec still
  have linked : e.node ∈ st.pkgList.nodes := rep.nodes ▸ List.mem_map_of_mem present
  have unlinked : st.pkgList.nodes.erase e.node = (before ++ after).map Entry.node := by
    rw [rep.nodes, erase_of_split rep.distinctNodes]
  refine ⟨{ st with
    pkgHeap := freed, pkgList := ⟨st.pkgList.nodes.erase e.node, st.pkgList.length - 1⟩,
    descriptors := dropFd e.handle.fd st.descriptors }, ⟨?_, ?_, ?_, rfl, rfl, rfl, rfl⟩, ?_⟩
  · unfold released at ran
    simp only [pkgRelease, bind, rep.ptr_read present, Option.bind_some, ran, rep.pkgFindnode_spec,
      find?_of_split rep.distinctPtrs, Option.map_some, dlinkDelete, if_pos linked, rep.node_read present, free]
    rfl
  · show freed.live = _
    rw [gone, live, Function.update_idem]
  · show freed.freeElems.toNat = _
    rw [more, count]
  · have sub : (before ++ after).Sublist (before ++ e :: after) :=
      (List.Sublist.refl before).append (List.sublist_cons_self e after)
    refine ⟨kept, rep.nodeHeap, unlinked, ?_, ?_, ?_, ?_, ?_, ?_, ?_, ?_⟩
    · exact fun other member => rep.nodeLive other (mem_of_split member)
    · intro other member
      have different := ne_of_split rep.distinctPtrs member
      rw [show State.pkgHeap _ = freed from rfl, gone, Function.update_of_ne different, live,
        Function.update_of_ne different]
      exact rep.ptrLive other (mem_of_split member)
    · exact fun other member => rep.named other (mem_of_split member)
    · exact rep.distinctNodes.sublist (sub.map _)
    · exact rep.distinctPtrs.sublist (sub.map _)
    · exact rep.distinctFds.sublist (sub.map _)
    · intro other member
      have different := ne_of_split (f := fun e => e.handle.fd) rep.distinctFds member
      exact (mem_dropFd_of_ne different).mpr (rep.opened other (mem_of_split member))
    · intro d member
      obtain ⟨old, there, same⟩ := fd_of_mem_dropFd member
      exact same ▸ rep.valid old there

/-- Both collectors leave what is handed out alone. -/
theorem Represents.blockheapGc_spec (rep : Represents st es) : Represents (blockheapGc st) es := by
  obtain ⟨pkgHeap, -, -, pkgLive, -⟩ := rep.pkgHeap.gc_spec
  obtain ⟨nodeHeap, -, -, nodeLive, -⟩ := rep.nodeHeap.gc_spec
  exact rep.frame pkgHeap nodeHeap rfl (fun e _ => congrFun pkgLive e.ptr)
    (fun e _ => congrFun nodeLive e.node) rep.opened rep.valid

/-! ## `pkg_gc` -/

/-- The test of `pkg_gc`. -/
def Entry.Expired (now lifetime : Int64) (e : Entry) : Prop :=
  e.handle.refcnt = 0 ∧ now > e.handle.otime + lifetime / 2

instance (now lifetime : Int64) (e : Entry) : Decidable (e.Expired now lifetime) :=
  inferInstanceAs (Decidable (_ ∧ _))

/-- A module with the entries it represents, before and after one of them is released. -/
inductive ReleaseStep : State × List Entry → Entry → State × List Entry → Prop
  | release {st st' : State} {before after : List Entry} {e : Entry} (rep : Represents st (before ++ e :: after))
      (released : Released st e st') (left : Represents st' (before ++ after)) :
      ReleaseStep (st, before ++ e :: after) e (st', before ++ after)

/-- The loop, started in the middle: `before` are the entries already visited and kept. The next node was fetched
before the body ran, and is still listed when the loop gets there. -/
private theorem pkgGcLoop_releases (now : Int64) (rest : List Entry) (before : List Entry) (st : State)
    (rep : Represents st (before ++ rest)) :
    ∃ st', pkgGcLoop now (rest.map Entry.node) st = some st' ∧ st'.pkgLifetime = st.pkgLifetime ∧
      Represents st' (before ++ rest.filter fun e => ¬ e.Expired now st.pkgLifetime) ∧
      Run ReleaseStep (st, before ++ rest) (rest.filter fun e => e.Expired now st.pkgLifetime)
        (st', before ++ rest.filter fun e => ¬ e.Expired now st.pkgLifetime) := by
  induction rest generalizing before st with
  | nil => exact ⟨st, rfl, rfl, by simpa using rep, .start⟩
  | cons e rest ih =>
    have present : e ∈ before ++ e :: rest := by simp
    simp only [List.map_cons, pkgGcLoop, bind, rep.node_read present, Option.bind_some,
      rep.ptr_read present]
    by_cases expired : e.Expired now st.pkgLifetime
    · obtain ⟨next, released, left⟩ := rep.pkgRelease_listed
      have lifetime := released.pkgLifetime
      obtain ⟨st', ran, same, final, run⟩ := ih before next left
      rw [lifetime] at final run
      refine ⟨st', ?_, same.trans lifetime, ?_, ?_⟩
      · apply (if_pos expired).trans
        rw [released.ran]
        exact ran
      · simpa [expired] using final
      · simpa [expired] using Run.cons (.release rep released left) run
    · obtain ⟨st', ran, same, final, run⟩ := ih (before ++ [e]) st (by simpa using rep)
      refine ⟨st', ?_, same, ?_, ?_⟩
      · exact (if_neg expired).trans ran
      · simpa [expired] using final
      · simpa [expired] using run

/-- `pkg_gc` releases the entries that are idle and old enough, one after the other. -/
theorem Represents.pkgGc_releases (rep : Represents st es) (now : Int64) :
    ∃ st', pkgGc now st = some st' ∧ st'.pkgLifetime = st.pkgLifetime ∧
      Represents st' (es.filter fun e => ¬ e.Expired now st.pkgLifetime) ∧
      Run ReleaseStep (st, es) (es.filter fun e => e.Expired now st.pkgLifetime)
        (st', es.filter fun e => ¬ e.Expired now st.pkgLifetime) := by
  unfold pkgGc
  rw [rep.nodes]
  exact pkgGcLoop_releases now es [] st rep

/-- `pkg_gc` drops exactly the entries that are idle and old enough. -/
theorem Represents.pkgGc_spec (rep : Represents st es) (now : Int64) :
    ∃ st', pkgGc now st = some st' ∧ st'.pkgLifetime = st.pkgLifetime ∧
      Represents st' (es.filter fun e => ¬ e.Expired now st.pkgLifetime) := by
  obtain ⟨st', ran, lifetime, final, -⟩ := rep.pkgGc_releases now
  exact ⟨st', ran, lifetime, final⟩

/-! ## `pkg_open` and `pkg_close` -/

/-- A handle after one more `pkg_open`. -/
def PkgHandle.touched (now : Int64) (handle : PkgHandle) : PkgHandle :=
  { handle with otime := now, refcnt := handle.refcnt + 1 }

/-- A handle after one more `pkg_close`. -/
def PkgHandle.closed (handle : PkgHandle) : PkgHandle :=
  { handle with refcnt := handle.refcnt - 1 }

/-- The common end of `pkg_open`. -/
private theorem touch_spec (rep : Represents st (before ++ e :: after)) (now : Int64) :
    ∃ heap, ((st.pkgHeap.read e.ptr).bind fun handle =>
      (st.pkgHeap.write e.ptr { handle with otime := now, refcnt := handle.refcnt + 1 }).bind fun pkgHeap =>
        some (some e.ptr, { st with pkgHeap })) = some (some e.ptr, { st with pkgHeap := heap }) ∧
      heap.allocated = st.pkgHeap.allocated ∧
      Represents { st with pkgHeap := heap } (before ++ { e with handle := e.handle.touched now } :: after) := by
  obtain ⟨heap, ran, kept⟩ := rep.store (e.handle.touched now) rfl rfl
  refine ⟨heap, ?_, BlockHeap.write_allocated ran, kept⟩
  unfold PkgHandle.touched at ran
  simp only [rep.ptr_read (e := e) (by simp), Option.bind_some, ran]

/-- Opening a cached package touches its handle and nothing else. -/
theorem Represents.pkgOpen_hit (rep : Represents st (before ++ e :: after)) {path : Text}
    (named : e.handle.name = some path) (first : ∀ other ∈ before, other.handle.name ≠ some path)
    (env : OpenEnv) :
    ∃ heap, pkgOpen path env st = some (some e.ptr, { st with pkgHeap := heap }) ∧
      heap.allocated = st.pkgHeap.allocated ∧
      Represents { st with pkgHeap := heap }
        (before ++ { e with handle := e.handle.touched env.now } :: after) := by
  have found : (before ++ e :: after).find? (fun other => other.handle.name = some path) = some e := by
    have absent : before.find? (fun other => other.handle.name = some path) = none := by
      rw [List.find?_eq_none]
      intro other member
      simpa using first other member
    rw [List.find?_append, absent]
    simp [named]
  obtain ⟨heap, ran, kept⟩ := touch_spec rep env.now
  refine ⟨heap, ?_, kept⟩
  simp only [pkgOpen, bind, rep.pkgHandleByname_spec, found, Option.map_some, Option.bind_some, ran]

/-- A zeroed handle, allocated and then filled in, does not disturb the entries. -/
private theorem alloc_filled (rep : Represents st es) {os : BlockEnv} (lawful : os.Lawful st.pkgHeap) (path : Text) :
    (∃ heap dying, blockheapAlloc st.pkgHeap os = some ⟨none, heap, dying⟩ ∧ ¬os.Succeeds) ∨
    ∃ ptr grown dying, blockheapAlloc st.pkgHeap os = some ⟨some ptr, grown, dying⟩ ∧
      grown.read ptr = some {} ∧ st.pkgHeap.live ptr = none ∧ (∀ e ∈ es, e.ptr ≠ ptr) ∧
      ∀ fd, ∃ heap, grown.write ptr { name := some path, fd } = some heap ∧
        heap.live = Function.update st.pkgHeap.live ptr (some { name := some path, fd }) ∧
        Represents { st with pkgHeap := heap } es := by
  rcases rep.pkgHeap.alloc_spec lawful with ⟨-, failed, ran⟩ | ⟨ptr, grown, -, ran, inv, -, -, fresh, live, -⟩
  · exact .inl ⟨_, _, ran, failed⟩
  · have zero : grown.live ptr = some {} := by
      rw [live, Function.update_self]
      rfl
    have other (e : Entry) (member : e ∈ es) : e.ptr ≠ ptr := by
      intro same
      have before := rep.ptrLive e member
      rw [same, fresh] at before
      contradiction
    refine .inr ⟨ptr, grown, _, ran, inv.read_of_live zero, fresh, other, fun fd => ?_⟩
    obtain ⟨heap, wrote, kept, now⟩ := inv.store_spec live { name := some path, fd }
    refine ⟨heap, wrote, now, ?_⟩
    refine rep.frame kept rep.nodeHeap rfl ?_ (fun _ _ => rfl) rep.opened rep.valid
    intro e member
    rw [show State.pkgHeap _ = heap from rfl, now, Function.update_of_ne (other e member)]

/-- Listing a handle appends an entry for it. -/
private theorem dlinkAddTailAlloc_spec (rep : Represents st es) {os : BlockEnv}
    (lawful : os.Lawful st.nodeHeap) {ptr : MemBlock} {handle : PkgHandle}
    (live : st.pkgHeap.live ptr = some handle) (named : handle.name.isSome)
    (unlisted : ∀ e ∈ es, e.ptr ≠ ptr) (unused : ∀ e ∈ es, e.handle.fd ≠ handle.fd)
    (locked : ⟨handle.fd, true⟩ ∈ st.descriptors) :
    (dlinkAddTailAlloc ptr st os = none ∧ ¬os.Succeeds) ∨
    ∃ node heap, dlinkAddTailAlloc ptr st os = some { st with
        nodeHeap := heap, dlinkCount := st.dlinkCount + 1, pkgList := dlinkAddTail node st.pkgList } ∧
      Represents { st with
        nodeHeap := heap, dlinkCount := st.dlinkCount + 1, pkgList := dlinkAddTail node st.pkgList }
        (es ++ [⟨node, ptr, handle⟩]) := by
  rcases rep.nodeHeap.alloc_spec lawful with ⟨-, failed, ran⟩ | ⟨node, grown, -, ran, inv, -, -, fresh, now, -⟩
  · refine .inl ⟨?_, failed⟩
    simp only [dlinkAddTailAlloc, dlinkCreate, bind, ran, Option.bind_some, Option.bind_none]
  · obtain ⟨cleared, clear, inv, blank⟩ := inv.store_spec now { data := none }
    obtain ⟨heap, wrote, kept, final⟩ := inv.store_spec blank { data := some ptr }
    have other (e : Entry) (member : e ∈ es) : e.node ≠ node := by
      intro same
      have before := rep.nodeLive e member
      rw [same, fresh] at before
      contradiction
    refine .inr ⟨node, heap, ?_, ?_⟩
    · simp only [dlinkAddTailAlloc, dlinkCreate, bind, ran, Option.bind_some, clear, wrote]
    · refine ⟨rep.pkgHeap, kept, ?_, ?_, ?_, ?_, nodup_snoc rep.distinctNodes other,
        nodup_snoc rep.distinctPtrs unlisted, nodup_snoc rep.distinctFds unused, ?_, rep.valid⟩
      · simp [dlinkAddTail, rep.nodes]
      · intro e member
        rw [show State.nodeHeap _ = heap from rfl, final]
        rcases List.mem_append.mp member with old | new
        · rw [Function.update_of_ne (other e old)]
          exact rep.nodeLive e old
        · rw [List.mem_singleton.mp new]
          exact Function.update_self ..
      · intro e member
        rcases List.mem_append.mp member with old | new
        · exact rep.ptrLive e old
        · rw [List.mem_singleton.mp new]
          exact live
      · intro e member
        rcases List.mem_append.mp member with old | new
        · exact rep.named e old
        · rw [List.mem_singleton.mp new]
          exact named
      · intro e member
        rcases List.mem_append.mp member with old | new
        · exact rep.opened e old
        · rw [List.mem_singleton.mp new]
          exact locked

/-- A `pkg_open` that failed after it had taken the element `ptr`: the element stays taken, and descriptor 0, if that is
what `open` returned, stays open. -/
structure Refused (env : OpenEnv) (st : State) (ptr : MemBlock) (st' : State) : Prop where
  failed : env.open_ = none ∨ env.flock = false
  fresh : st.pkgHeap.live ptr = none
  live : ∃ handle, st'.pkgHeap.live = Function.update st.pkgHeap.live ptr (some handle)
  nodeHeap : st'.nodeHeap = st.nodeHeap
  pkgList : st'.pkgList = st.pkgList
  descriptors : st'.descriptors = if env.open_ = some 0 then ⟨0, false⟩ :: st.descriptors else st.descriptors
  pkgLifetime : st'.pkgLifetime = st.pkgLifetime

/-- A `pkg_open` that listed a new handle with a descriptor of its own. -/
structure Enlisted (env : OpenEnv) (st : State) (ptr : MemBlock) (fd : Int32) (st' : State) : Prop where
  opened : env.open_ = some fd
  locked : env.flock = true
  fresh : st.pkgHeap.live ptr = none
  allocated : st'.pkgHeap.allocated.Perm (ptr :: st.pkgHeap.allocated)
  descriptors : st'.descriptors = ⟨fd, true⟩ :: st.descriptors
  pkgLifetime : st'.pkgLifetime = st.pkgLifetime

/-- Opening a package that is not cached: without memory the call faults; if `open` or `flock` fails the entries stay as
they were, otherwise one is appended, with one reference. -/
theorem Represents.pkgOpen_uncached (rep : Represents st es) {path : Text}
    (absent : ∀ e ∈ es, e.handle.name ≠ some path) {env : OpenEnv} (answers : env.Answers st) :
    (pkgOpen path env st = none ∧ ¬(env.pkgBlock.Succeeds ∧ env.nodeBlock.Succeeds)) ∨
    (∃ ptr st', pkgOpen path env st = some (none, st') ∧ Refused env st ptr st' ∧ Represents st' es) ∨
    ∃ fd node ptr st', pkgOpen path env st = some (some ptr, st') ∧ Enlisted env st ptr fd st' ∧
      (∀ e ∈ es, e.ptr ≠ ptr) ∧
      Represents st' (es ++ [⟨node, ptr, { name := some path, fd, otime := env.now, refcnt := 1 }⟩]) := by
  have notFound : es.find? (fun e => e.handle.name = some path) = none := by
    rw [List.find?_eq_none]
    intro e member
    simpa using absent e member
  have looked : pkgHandleByname st path st.pkgList.nodes = some none := by
    rw [rep.pkgHandleByname_spec, notFound, Option.map_none]
  rcases alloc_filled rep answers.pkgBlock path with
    ⟨heap, dying, alloc, failed⟩ | ⟨ptr, grown, dying, alloc, zero, fresh, other, fill⟩
  · refine .inl ⟨?_, fun both => failed both.1⟩
    simp only [pkgOpen, looked, pkgOpenNew, bind, alloc, Option.bind_some, Option.bind_none]
  cases opened : env.open_ with
  | none =>
    obtain ⟨heap, wrote, live, filled⟩ := fill (-1)
    have valid (d : Descriptor) (member : d ∈ st.descriptors) : d.fd ≠ -1 := by
      intro same
      have nonneg := rep.valid d member
      rw [same] at nonneg
      exact absurd nonneg (by decide)
    obtain ⟨last, ran, taken, final⟩ := filled.pkgRelease_unlisted (by rw [live, Function.update_self]) other
      fun e member => valid _ (rep.opened e member)
    refine .inr (.inl ⟨ptr, { st with pkgHeap := last, descriptors := dropFd (-1) st.descriptors }, ?_,
      ⟨.inl opened, fresh, ⟨released { name := some path, fd := -1 }, ?_⟩, rfl, rfl, ?_, rfl⟩, final⟩)
    · simp only [pkgOpen, looked, pkgOpenNew, bind, alloc, Option.bind_some, zero, opened, wrote, ran]
    · exact taken.trans (by rw [live, Function.update_idem])
    · rw [opened, if_neg (by simp)]
      exact dropFd_unused valid
  | some fd =>
    obtain ⟨nonneg, unusedFd⟩ := answers.open_ fd opened
    obtain ⟨heap, wrote, live, filled⟩ := fill fd
    have here : heap.live ptr = some { name := some path, fd } := by rw [live, Function.update_self]
    have unused (e : Entry) (member : e ∈ es) : e.handle.fd ≠ fd := unusedFd _ (rep.opened e member)
    have added (locked : Bool) : Represents
        { st with pkgHeap := heap, descriptors := ⟨fd, locked⟩ :: st.descriptors } es := by
      refine filled.frame filled.pkgHeap filled.nodeHeap rfl (fun _ _ => rfl) (fun _ _ => rfl) ?_ ?_
      · exact fun e member => List.mem_cons_of_mem _ (rep.opened e member)
      · exact List.forall_mem_cons.mpr ⟨nonneg, rep.valid⟩
    cases flock : env.flock with
    | false =>
      obtain ⟨last, ran, taken, final⟩ := (added false).pkgRelease_unlisted here other unused
      refine .inr (.inl ⟨ptr,
        { st with pkgHeap := last, descriptors := dropFd fd (⟨fd, false⟩ :: st.descriptors) }, ?_,
        ⟨.inr flock, fresh, ⟨released { name := some path, fd }, ?_⟩, rfl, rfl, ?_, rfl⟩, final⟩)
      · simp only [pkgOpen, looked, pkgOpenNew, bind, alloc, Option.bind_some, zero, opened, wrote, flock,
          Bool.false_eq_true, if_false, ran]
      · exact taken.trans (by rw [live, Function.update_idem])
      · rw [opened]
        simpa using dropFd_cons unusedFd false
    | true =>
      rcases dlinkAddTailAlloc_spec (added true) answers.nodeBlock here rfl other unused (by simp) with
        ⟨faults, failed⟩ | ⟨node, nodeHeap, listed, final⟩
      · refine .inl ⟨?_, fun both => failed both.2⟩
        simp only [pkgOpen, looked, pkgOpenNew, bind, alloc, Option.bind_some, zero, opened, wrote, flock, if_true,
          setLock_cons unusedFd, faults, Option.bind_none]
      · obtain ⟨last, touched, same, done⟩ := touch_spec final env.now
        refine .inr (.inr ⟨fd, node, ptr, { st with
          pkgHeap := last, nodeHeap, dlinkCount := st.dlinkCount + 1, pkgList := dlinkAddTail node st.pkgList
          descriptors := ⟨fd, true⟩ :: st.descriptors }, ?_, ⟨opened, flock, fresh, ?_, rfl, rfl⟩, other, done⟩)
        · simp only [pkgOpen, looked, pkgOpenNew, bind, alloc, Option.bind_some, zero, opened, wrote, flock, if_true,
            setLock_cons unusedFd, listed]
          exact touched
        · show last.allocated.Perm _
          rw [same]
          exact rep.pkgHeap.allocated_taken filled.pkgHeap fresh live

/-- With memory the call returns. -/
theorem Represents.pkgOpen_miss (rep : Represents st es) {path : Text}
    (absent : ∀ e ∈ es, e.handle.name ≠ some path) {env : OpenEnv} (lawful : env.Lawful st) :
    ∃ result st', pkgOpen path env st = some (result, st') ∧ st'.pkgLifetime = st.pkgLifetime ∧
      (((env.open_ = none ∨ env.flock = false) ∧ result = none ∧ Represents st' es) ∨
        ∃ fd node ptr, env.open_ = some fd ∧ env.flock = true ∧ result = some ptr ∧
          (∀ e ∈ es, e.ptr ≠ ptr) ∧
          Represents st' (es ++ [⟨node, ptr, { name := some path, fd, otime := env.now, refcnt := 1 }⟩])) := by
  rcases rep.pkgOpen_uncached absent lawful.answers with
    ⟨-, failed⟩ | ⟨ptr, st', ran, refused, final⟩ | ⟨fd, node, ptr, st', ran, enlisted, other, final⟩
  · exact (failed ⟨lawful.pkgSucceeds, lawful.nodeSucceeds⟩).elim
  · exact ⟨none, st', ran, refused.pkgLifetime, .inl ⟨refused.failed, rfl, final⟩⟩
  · exact ⟨some ptr, st', ran, enlisted.pkgLifetime,
      .inr ⟨fd, node, ptr, enlisted.opened, enlisted.locked, rfl, other, final⟩⟩

/-- `pkg_close` of a listed handle takes one reference off. -/
theorem Represents.pkgClose_spec (rep : Represents st (before ++ e :: after)) :
    ∃ heap, pkgClose e.ptr st = some { st with pkgHeap := heap } ∧
      Represents { st with pkgHeap := heap } (before ++ { e with handle := e.handle.closed } :: after) := by
  obtain ⟨heap, ran, kept⟩ := rep.store e.handle.closed rfl rfl
  unfold PkgHandle.closed at ran
  refine ⟨heap, ?_, kept⟩
  simp only [pkgClose, bind, rep.ptr_read (e := e) (by simp), Option.bind_some, ran]

/-- `pkg_close` of any handle that can still be reached: a listed one loses a reference, any other is no entry. -/
theorem Represents.pkgClose_any (rep : Represents st es) {pkg : MemBlock} {st' : State}
    (ran : pkgClose pkg st = some st') :
    Represents st' (es.map fun e => if e.ptr = pkg then { e with handle := e.handle.closed } else e) ∧
      st'.pkgHeap.allocated = st.pkgHeap.allocated ∧ st' = { st with pkgHeap := st'.pkgHeap } := by
  have stored : ∃ handle, (∃ value, st.pkgHeap.write pkg value = some st'.pkgHeap) ∧
      st.pkgHeap.read pkg = some handle ∧ st' = { st with pkgHeap := st'.pkgHeap } := by
    simp only [pkgClose, bind, Option.bind_eq_some_iff] at ran
    obtain ⟨handle, found, heap, wrote, ran⟩ := ran
    cases ran
    exact ⟨handle, ⟨_, wrote⟩, found, rfl⟩
  obtain ⟨handle, ⟨value, wrote⟩, found, shape⟩ := stored
  refine ⟨?_, BlockHeap.write_allocated wrote, shape⟩
  by_cases listed : ∃ e ∈ es, e.ptr = pkg
  · obtain ⟨e, member, rfl⟩ := listed
    obtain ⟨before, after, rfl⟩ := List.append_of_mem member
    obtain ⟨heap, computed, final⟩ := rep.pkgClose_spec
    rw [computed] at ran
    cases ran
    have others (part : List Entry) (inside : ∀ other ∈ part, other ∈ before ++ after) :
        part.map (fun other => if other.ptr = e.ptr then { other with handle := other.handle.closed } else other) =
          part := by
      conv_rhs => rw [← List.map_id part]
      exact List.map_congr_left fun other member => if_neg (ne_of_split rep.distinctPtrs (inside other member))
    rw [List.map_append, List.map_cons, if_pos rfl, others before (fun _ => List.mem_append_left _),
      others after (fun _ => List.mem_append_right _)]
    exact final
  · have other (e : Entry) (member : e ∈ es) : e.ptr ≠ pkg := fun same => listed ⟨e, member, same⟩
    have same : es.map (fun e => if e.ptr = pkg then { e with handle := e.handle.closed } else e) = es := by
      conv_rhs => rw [← List.map_id es]
      exact List.map_congr_left fun e member => if_neg (other e member)
    have kept : Invariant st'.pkgHeap ∧ ∀ e ∈ es, st'.pkgHeap.live e.ptr = st.pkgHeap.live e.ptr := by
      by_cases held : pkg ∈ st.pkgHeap.allocated
      · obtain ⟨heap, ran, inv, -, -, live, -⟩ := rep.pkgHeap.write_spec held value
        rw [wrote] at ran
        obtain rfl := Option.some.inj ran
        exact ⟨inv, fun e member => by rw [live, Function.update_of_ne (other e member)]⟩
      · obtain ⟨inv, live⟩ := rep.pkgHeap.write_stale held wrote
        exact ⟨inv, fun e _ => by rw [live]⟩
    rw [same, shape]
    exact rep.frame kept.1 rep.nodeHeap rfl kept.2 (fun _ _ => rfl) rep.opened rep.valid

end Represented

end FsPkg.Pkg
