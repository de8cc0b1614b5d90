import FsPkg.Proofs.PkgCacheRuns

/-! # The list nodes of the package cache

`node_heap` is shared with the other lists of the program. Here is what the calls of `pkg.c` do to it: a successful
open of a package that is not cached takes one new node, and nothing ever gives a node back.
-/

namespace FsPkg.Pkg

open Dlink Balloc

/-- One new node, and nothing else, on `node_heap`. -/
structure NodeAdded (before after : State) (m : MemBlock) (node : DlinkNode) : Prop where
  invariant : Invariant after.nodeHeap
  fresh : before.nodeHeap.live m = none
  live : after.nodeHeap.live = Function.update before.nodeHeap.live m (some node)
  count : after.dlinkCount = before.dlinkCount + 1

/-- `node_heap` and `dlink_count` as they were. -/
structure NodesKept (before after : State) : Prop where
  nodeHeap : after.nodeHeap = before.nodeHeap
  count : after.dlinkCount = before.dlinkCount

theorem NodesKept.refl (st : State) : NodesKept st st := ⟨rfl, rfl⟩

theorem NodesKept.trans {first second third : State} (left : NodesKept first second) (right : NodesKept second third) :
    NodesKept first third :=
  ⟨right.nodeHeap.trans left.nodeHeap, right.count.trans left.count⟩

variable {st st' : State}

/-- `dlink_create`, and the store of the data into the node. -/
theorem dlinkCreate_added {os : BlockEnv} {m : MemBlock} (created : dlinkCreate st os = some (m, st'))
    {node : DlinkNode} {heap : BlockHeap DlinkNode} (wrote : st'.nodeHeap.write m node = some heap)
    (inv : Invariant st.nodeHeap) (lawful : os.Lawful st.nodeHeap) :
    NodeAdded st { st' with nodeHeap := heap } m node ∧
      st' = { st with nodeHeap := st'.nodeHeap, dlinkCount := st'.dlinkCount } := by
  rcases inv.alloc_spec lawful with ⟨-, -, alloc⟩ | ⟨ptr, grown, -, alloc, inv', -, -, fresh, live, -⟩
  · simp [dlinkCreate, alloc] at created
  · obtain ⟨cleared, clear, inv'', live'⟩ := inv'.store_spec live { data := none }
    simp only [dlinkCreate, bind, alloc, Option.bind_some, clear, Option.some.injEq, Prod.mk.injEq] at created
    obtain ⟨rfl, rfl⟩ := created
    obtain ⟨inv₃, live₃⟩ := inv''.stored live' wrote
    exact ⟨⟨inv₃, fresh, live₃, rfl⟩, rfl⟩

/-! ## What the calls do -/

/-- `pkg_release` leaves the nodes, and at most unlinks one. -/
theorem pkgRelease_kept {pkg : MemBlock} (ran : pkgRelease pkg st = some st') :
    NodesKept st st' ∧ st'.pkgList.nodes.length ≤ st.pkgList.nodes.length := by
  simp only [pkgRelease, bind, Option.bind_eq_some_iff] at ran
  obtain ⟨handle, -, pkgHeap, -, found, -, ran⟩ := ran
  cases found with
  | none =>
    cases ran
    exact ⟨⟨rfl, rfl⟩, le_rfl⟩
  | some ptr =>
    simp only [Option.bind_eq_some_iff] at ran
    obtain ⟨pkgList, unlinked, node, -, freed, -, ran⟩ := ran
    cases ran
    refine ⟨⟨rfl, rfl⟩, ?_⟩
    unfold dlinkDelete at unlinked
    split at unlinked
    · cases unlinked
      exact List.length_erase_le
    · contradiction

theorem pkgGcLoop_kept {now : Int64} {nodes : List MemBlock} (ran : pkgGcLoop now nodes st = some st') :
    NodesKept st st' := by
  induction nodes generalizing st with
  | nil =>
    cases ran
    exact .refl _
  | cons ptr nodes ih =>
    simp only [pkgGcLoop, bind, Option.bind_eq_some_iff] at ran
    obtain ⟨node, -, p, -, handle, -, ran⟩ := ran
    split at ran
    · obtain ⟨middle, release, ran⟩ := Option.bind_eq_some_iff.mp ran
      exact (pkgRelease_kept release).1.trans (ih ran)
    · exact ih ran

theorem pkgClose_kept {pkg : MemBlock} (ran : pkgClose pkg st = some st') : NodesKept st st' := by
  simp only [pkgClose, bind, Option.bind_eq_some_iff] at ran
  obtain ⟨handle, -, pkgHeap, -, ran⟩ := ran
  cases ran
  exact ⟨rfl, rfl⟩

/-- `pkg_open` leaves the nodes, or adds the one that is listed. -/
theorem pkgOpenNew_nodes {path : Text} {env : OpenEnv} {result : Option MemBlock} (inv : Invariant st.nodeHeap)
    (lawful : env.nodeBlock.Lawful st.nodeHeap) (ran : pkgOpenNew path env st = some (result, st')) :
    (NodesKept st st' ∧ st'.pkgList.nodes.length ≤ st.pkgList.nodes.length) ∨
      ∃ m node, NodeAdded st st' m node ∧ st'.pkgList.nodes = st.pkgList.nodes ++ [m] := by
  simp only [pkgOpenNew, bind, Option.bind_eq_some_iff] at ran
  obtain ⟨alloc, -, t, -, fresh, -, ran⟩ := ran
  cases opened : env.open_ with
  | none =>
    simp only [opened, Option.bind_eq_some_iff] at ran
    obtain ⟨pkgHeap, -, released, release, ran⟩ := ran
    cases ran
    obtain ⟨⟨nodeHeap, count⟩, shorter⟩ := pkgRelease_kept release
    exact .inl ⟨⟨nodeHeap, count⟩, shorter⟩
  | some fd =>
    simp only [opened, Option.bind_eq_some_iff] at ran
    obtain ⟨pkgHeap, -, ran⟩ := ran
    split at ran
    · simp only [Option.bind_eq_some_iff, dlinkAddTailAlloc, bind] at ran
      obtain ⟨listed, ⟨⟨m, created⟩, create, nodeHeap, wrote, add⟩, ran⟩ := ran
      cases ran
      cases add
      obtain ⟨added, shape⟩ := dlinkCreate_added create wrote inv lawful
      refine .inr ⟨m, _, ⟨added.invariant, added.fresh, added.live, added.count⟩, ?_⟩
      rw [dlinkAddTail, shape]
    · simp only [Option.bind_eq_some_iff] at ran
      obtain ⟨released, release, ran⟩ := ran
      cases ran
      obtain ⟨⟨nodeHeap, count⟩, shorter⟩ := pkgRelease_kept release
      exact .inl ⟨⟨nodeHeap, count⟩, shorter⟩

/-- The reference count and the time are stored in `pkg_heap`. -/
private theorem touch_kept {env : OpenEnv} {opened : State} {t result : Option MemBlock}
    (ran : (match t with
      | none => some (none, opened)
      | some t => (opened.pkgHeap.read t).bind fun handle =>
          (opened.pkgHeap.write t { handle with otime := env.now, refcnt := handle.refcnt + 1 }).bind
            fun pkgHeap => some (some t, { opened with pkgHeap })) = some (result, st')) :
    NodesKept opened st' ∧ st'.pkgList = opened.pkgList := by
  cases t with
  | none =>
    cases ran
    exact ⟨.refl _, rfl⟩
  | some t =>
    simp only [Option.bind_eq_some_iff] at ran
    obtain ⟨handle, -, pkgHeap, -, ran⟩ := ran
    cases ran
    exact ⟨⟨rfl, rfl⟩, rfl⟩

theorem pkgOpen_nodes {path : Text} {env : OpenEnv} {result : Option MemBlock} (inv : Invariant st.nodeHeap)
    (lawful : env.nodeBlock.Lawful st.nodeHeap) (ran : pkgOpen path env st = some (result, st')) :
    (NodesKept st st' ∧ st'.pkgList.nodes.length ≤ st.pkgList.nodes.length) ∨
      ∃ m node, NodeAdded st st' m node ∧ st'.pkgList.nodes = st.pkgList.nodes ++ [m] := by
  simp only [pkgOpen, bind, Option.bind_eq_some_iff] at ran
  obtain ⟨found, -, ran⟩ := ran
  cases found with
  | some t =>
    obtain ⟨kept, list⟩ := touch_kept (t := some t) ran
    refine .inl ⟨kept, ?_⟩
    rw [list]
  | none =>
    obtain ⟨⟨t, opened⟩, first, ran⟩ := Option.bind_eq_some_iff.mp ran
    obtain ⟨⟨nodeHeap, count⟩, list⟩ := touch_kept ran
    rcases pkgOpenNew_nodes inv lawful first with ⟨kept, shorter⟩ | ⟨m, node, added, listed⟩
    · refine .inl ⟨kept.trans ⟨nodeHeap, count⟩, ?_⟩
      rw [list]
      exact shorter
    · refine .inr ⟨m, node, ⟨?_, added.fresh, ?_, count.trans added.count⟩, ?_⟩
      · rw [nodeHeap]
        exact added.invariant
      · rw [nodeHeap]
        exact added.live
      · rw [list]
        exact listed

end FsPkg.Pkg
