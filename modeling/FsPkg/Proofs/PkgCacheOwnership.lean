import FsPkg.Proofs.PkgCacheRuns

/-! # What the package cache owns

Every order of opens, closes and collections, whatever is closed and whether or not memory can be had. A ledger splits
the elements of `pkg_heap` and the descriptors that `pkg_open` took into those of the listed handles and those of
nobody; `Booking` says once what each call does to it. An open that fails loses its element, and descriptor 0 is never
closed.
-/

namespace FsPkg.Pkg

open Dlink Balloc Machine

/-- One call, whatever is closed and whether memory is granted or not. A call that faults is no step. -/
inductive CallStep : State → CacheEvent → State → Prop
  | pkgOpen {st st' : State} {path : Text} {env : OpenEnv} {result : Option MemBlock}
      (answers : (∀ pkg ∈ st.listed, st.name pkg ≠ some path) → env.Answers st)
      (ran : pkgOpen path env st = some (result, st')) : CallStep st (.pkgOpen path env result) st'
  | pkgClose {st st' : State} {pkg : MemBlock} (ran : pkgClose pkg st = some st') : CallStep st (.pkgClose pkg) st'
  | pkgGc {st st' : State} {now : Int64} (ran : pkgGc now st = some st') : CallStep st (.pkgGc now) st'
  | blockheapGc {st : State} : CallStep st .blockheapGc (blockheapGc st)

/-- The listed packages, the elements of `pkg_heap` that no listed package has, and the open descriptors that none has. -/
structure Ledger where
  entries : List Entry := []
  lost : List MemBlock := []
  stray : List Descriptor := []

/-- The descriptor of a listed package, which is locked. -/
def Entry.descriptor (e : Entry) : Descriptor := ⟨e.handle.fd, true⟩

/-- The ledger of a state. -/
structure Keeps (st : State) (l : Ledger) : Prop where
  represents : Represents st l.entries
  elements : st.pkgHeap.allocated.Perm (l.entries.map Entry.ptr ++ l.lost)
  descriptors : st.descriptors.Perm (l.entries.map Entry.descriptor ++ l.stray)
  distinct : (st.descriptors.map Descriptor.fd).Nodup

theorem Initial.keeps {st : State} (initial : Initial st) : Keeps st {} := by
  obtain ⟨count, sensible, created⟩ := initial.pkgHeap
  refine ⟨initial.represents, ?_, ?_, ?_⟩
  · rw [created.allocated sensible]
    exact .refl _
  · rw [initial.descriptors]
    exact .refl _
  · rw [initial.descriptors]
    exact List.nodup_nil

/-! ## What one call does -/

/-- Number 0 is what is left of the descriptors of these packages. -/
def leftOpen (released : List Entry) : List Descriptor :=
  (released.filter fun e => e.handle.fd = 0).map fun _ => ⟨0, false⟩

/-- The ledger before and after a call. -/
inductive Booking (lifetime : Int64) : Ledger → CacheEvent → Ledger → Prop
  | hit {l : Ledger} {entries : List Entry} {path : Text} {env : OpenEnv} {ptr : MemBlock}
      (cached : ∃ e ∈ l.entries, e.handle.name = some path) :
      Booking lifetime l (.pkgOpen path env (some ptr)) { l with entries }
  | refused {l : Ledger} {path : Text} {env : OpenEnv} {ptr : MemBlock}
      (absent : ∀ e ∈ l.entries, e.handle.name ≠ some path) (failed : env.open_ = none ∨ env.flock = false) :
      Booking lifetime l (.pkgOpen path env none) { l with
        lost := ptr :: l.lost
        stray := if env.open_ = some 0 then ⟨0, false⟩ :: l.stray else l.stray }
  | added {l : Ledger} {entries : List Entry} {path : Text} {env : OpenEnv} {ptr : MemBlock}
      (locked : env.flock = true) : Booking lifetime l (.pkgOpen path env (some ptr)) { l with entries }
  | closed {l : Ledger} {entries : List Entry} {pkg : MemBlock} :
      Booking lifetime l (.pkgClose pkg) { l with entries }
  | collected {l : Ledger} {now : Int64} :
      Booking lifetime l (.pkgGc now) { l with
        entries := l.entries.filter fun e => ¬ e.Expired now lifetime
        stray := leftOpen (l.entries.filter fun e => e.Expired now lifetime) ++ l.stray }
  | swept {l : Ledger} : Booking lifetime l .blockheapGc l

section Dropped

variable {fd : Int32} {descriptors descriptors' : List Descriptor}

theorem dropFd_perm (same : descriptors.Perm descriptors') : (dropFd fd descriptors).Perm (dropFd fd descriptors') := by
  unfold dropFd
  split
  · exact (same.map _).filter _
  · exact same.map _

/-- What is left when one of distinct descriptors is dropped. -/
theorem dropFd_of_perm {locked : Bool} (same : descriptors.Perm (⟨fd, locked⟩ :: descriptors'))
    (distinct : (descriptors.map Descriptor.fd).Nodup) :
    (dropFd fd descriptors).Perm (if fd = 0 then ⟨0, false⟩ :: descriptors' else descriptors') := by
  have split := (same.map Descriptor.fd).nodup_iff.mp distinct
  have unused : ∀ d ∈ descriptors', d.fd ≠ fd := by
    intro d member equal
    have present := List.mem_map_of_mem (f := Descriptor.fd) member
    rw [equal] at present
    exact (List.nodup_cons.mp split).1 present
  rw [← dropFd_cons unused locked]
  exact dropFd_perm same

theorem dropFd_distinct (distinct : (descriptors.map Descriptor.fd).Nodup) :
    ((dropFd fd descriptors).map Descriptor.fd).Nodup := by
  have unlocked : (setLock fd false descriptors).map Descriptor.fd = descriptors.map Descriptor.fd := by
    simp only [setLock, List.map_map]
    apply List.map_congr_left
    intro d _
    simp only [Function.comp_apply]
    split <;> rfl
  unfold dropFd
  split
  · apply List.Nodup.sublist (List.filter_sublist.map _)
    rwa [unlocked]
  · rwa [unlocked]

end Dropped

/-- The ledger while `pkg_gc` releases one package after the other. -/
theorem Keeps.releases {st st' : State} {l : Ledger} {es : List Entry} {removed : List Entry} (keeps : Keeps st l)
    (run : Run ReleaseStep (st, l.entries) removed (st', es)) (rep : Represents st' es) :
    Keeps st' { l with entries := es, stray := leftOpen removed ++ l.stray } := by
  have books := run.history
    (I := fun past s => s.1.pkgHeap.allocated.Perm (s.2.map Entry.ptr ++ l.lost) ∧
      s.1.descriptors.Perm (s.2.map Entry.descriptor ++ (leftOpen past ++ l.stray)) ∧
      (s.1.descriptors.map Descriptor.fd).Nodup) ⟨keeps.elements, keeps.descriptors, keeps.distinct⟩ ?_
  · exact ⟨rep, books.1, books.2.1, books.2.2⟩
  rintro past source e target - ⟨elements, descriptors, distinct⟩ step
  cases step with
  | @release _ _ before after _ rep released left =>
    have held := rep.allocated (e := e) (by simp)
    refine ⟨?_, ?_, ?_⟩
    · have before := (rep.pkgHeap.allocated_returned left.pkgHeap held released.live).symm.trans elements
      rw [List.map_append, List.map_cons, List.append_assoc, List.cons_append] at before
      simpa using (before.trans List.perm_middle).cons_inv
    · rw [List.map_append, List.map_cons, List.append_assoc, List.cons_append] at descriptors
      have dropped := dropFd_of_perm (descriptors.trans List.perm_middle) distinct
      rw [released.descriptors]
      apply dropped.trans
      by_cases zero : e.handle.fd = 0
      · rw [if_pos zero]
        simp only [leftOpen, List.filter_append, List.map_append, List.append_assoc, List.filter_cons, zero,
          decide_true, if_true, List.filter_nil, List.map_cons, List.map_nil, List.cons_append, List.nil_append]
        rw [← List.append_assoc, ← List.append_assoc, ← List.append_assoc, ← List.append_assoc]
        exact List.perm_middle.symm
      · simp [zero, leftOpen]
    · rw [released.descriptors]
      exact dropFd_distinct distinct

/-- A descriptor that was not in use goes to a new entry. -/
theorem Keeps.enlist {st st' : State} {l : Ledger} (keeps : Keeps st l) {env : OpenEnv} {ptr : MemBlock} {fd : Int32}
    (enlisted : Enlisted env st ptr fd st') (answers : env.Answers st) {new : Entry} (same : new.ptr = ptr)
    (descriptor : new.handle.fd = fd) (rep : Represents st' (l.entries ++ [new])) :
    Keeps st' { l with entries := l.entries ++ [new] } := by
  refine ⟨rep, ?_, ?_, ?_⟩
  · refine enlisted.allocated.trans ((keeps.elements.cons ptr).trans ?_)
    rw [List.map_append, List.map_singleton, List.append_assoc, same]
    exact List.perm_middle.symm
  · rw [enlisted.descriptors, List.map_append, List.map_singleton, List.append_assoc, Entry.descriptor, descriptor]
    exact (keeps.descriptors.cons _).trans List.perm_middle.symm
  · rw [enlisted.descriptors, List.map_cons, List.nodup_cons]
    refine ⟨?_, keeps.distinct⟩
    intro member
    obtain ⟨d, present, equal⟩ := List.mem_map.mp member
    exact (answers.open_ fd enlisted.opened).2 d present equal

theorem Keeps.refuse {st st' : State} {l : Ledger} (keeps : Keeps st l) {env : OpenEnv} {ptr : MemBlock}
    (refused : Refused env st ptr st') (answers : env.Answers st) (rep : Represents st' l.entries) :
    Keeps st' { l with
      lost := ptr :: l.lost, stray := if env.open_ = some 0 then ⟨0, false⟩ :: l.stray else l.stray } := by
  obtain ⟨handle, live⟩ := refused.live
  refine ⟨rep, ?_, ?_, ?_⟩
  · have taken := keeps.represents.pkgHeap.allocated_taken rep.pkgHeap refused.fresh live
    exact taken.trans ((keeps.elements.cons ptr).trans List.perm_middle.symm)
  · rw [refused.descriptors]
    split
    · exact (keeps.descriptors.cons _).trans List.perm_middle.symm
    · exact keeps.descriptors
  · rw [refused.descriptors]
    split
    · next zero =>
      rw [List.map_cons, List.nodup_cons]
      refine ⟨?_, keeps.distinct⟩
      intro member
      obtain ⟨d, present, equal⟩ := List.mem_map.mp member
      exact (answers.open_ 0 zero).2 d present equal
    · exact keeps.distinct

/-- The inversion of a call. -/
theorem Keeps.step {st st' : State} {event : CacheEvent} {l : Ledger} (keeps : Keeps st l)
    (step : CallStep st event st') :
    ∃ l', Keeps st' l' ∧ Booking st.pkgLifetime l event l' ∧ st'.pkgLifetime = st.pkgLifetime := by
  have rep := keeps.represents
  cases step with
  | @pkgOpen _ path env result answers ran =>
    by_cases cached : ∃ e ∈ l.entries, e.handle.name = some path
    · obtain ⟨before, e, after, heap, split, named, computed, same, final⟩ := rep.pkgOpen_cached cached env
      rw [computed] at ran
      cases ran
      refine ⟨_, ⟨final, ?_, ?_, keeps.distinct⟩, .hit cached, rfl⟩
      · have elements := keeps.elements
        rw [split] at elements
        simpa [same] using elements
      · have descriptors := keeps.descriptors
        rw [split] at descriptors
        simpa [Entry.descriptor, PkgHandle.touched] using descriptors
    · have absent : ∀ e ∈ l.entries, e.handle.name ≠ some path := by
        intro e member named
        exact cached ⟨e, member, named⟩
      have answers := answers (rep.uncached_iff.mpr absent)
      rcases rep.pkgOpen_uncached absent answers with
        ⟨faults, -⟩ | ⟨ptr, next, computed, refused, final⟩ | ⟨fd, node, ptr, next, computed, enlisted, -, final⟩
      · rw [faults] at ran
        contradiction
      · rw [computed] at ran
        cases ran
        exact ⟨_, keeps.refuse refused answers final, .refused absent refused.failed, refused.pkgLifetime⟩
      · rw [computed] at ran
        cases ran
        exact ⟨_, keeps.enlist enlisted answers rfl rfl final, .added enlisted.locked, enlisted.pkgLifetime⟩
  | pkgClose ran =>
    obtain ⟨final, same, shape⟩ := rep.pkgClose_any ran
    refine ⟨_, ⟨final, ?_, ?_, ?_⟩, .closed, by rw [shape]⟩
    · rw [same, List.map_map, List.map_congr_left (g := Entry.ptr)]
      · exact keeps.elements
      · intro e _
        simp only [Function.comp_apply]
        split <;> rfl
    · rw [shape, List.map_map, List.map_congr_left (g := Entry.descriptor)]
      · exact keeps.descriptors
      · intro e _
        simp only [Function.comp_apply]
        split <;> rfl
    · rw [shape]
      exact keeps.distinct
  | pkgGc ran =>
    obtain ⟨next, computed, lifetime, final, run⟩ := rep.pkgGc_releases _
    rw [computed] at ran
    cases ran
    exact ⟨_, keeps.releases run final, .collected, lifetime⟩
  | blockheapGc =>
    obtain ⟨inv, -, -, live, -⟩ := rep.pkgHeap.gc_spec
    have same := rep.pkgHeap.allocated_congr inv fun ptr => by rw [live]
    exact ⟨l, ⟨rep.blockheapGc_spec, same.trans keeps.elements, keeps.descriptors, keeps.distinct⟩, .swept, rfl⟩

/-- Every reachable state has a ledger. -/
theorem Keeps.run {st₀ st : State} {events : List CacheEvent} (initial : Initial st₀)
    (run : Run CallStep st₀ events st) : ∃ l, Keeps st l :=
  run.invariant (I := fun st => ∃ l, Keeps st l) ⟨_, initial.keeps⟩ fun _ _ _ ⟨_, keeps⟩ step =>
    (keeps.step step).imp fun _ booked => booked.1

/-! ## `pkg_gc` is a filter -/

/-- The test of `pkg_gc`, on what the handle holds. -/
def State.expired (now : Int64) (st : State) (pkg : MemBlock) : Bool :=
  (st.pkgHeap.read pkg).any fun handle => handle.refcnt = 0 ∧ now > handle.otime + st.pkgLifetime / 2

/-- The same, for the handle of a list node. -/
def State.nodeExpired (now : Int64) (st : State) (node : MemBlock) : Bool :=
  ((st.nodeHeap.read node).bind DlinkNode.data).any (st.expired now)

section Expired

variable {st : State} {es : List Entry} (rep : Represents st es) (now : Int64)
include rep

theorem Represents.expired_eq {e : Entry} (member : e ∈ es) :
    st.expired now e.ptr = decide (e.Expired now st.pkgLifetime) := by
  rw [State.expired, rep.ptr_read member]
  rfl

theorem Represents.nodeExpired_eq {e : Entry} (member : e ∈ es) :
    st.nodeExpired now e.node = decide (e.Expired now st.pkgLifetime) := by
  rw [State.nodeExpired, rep.node_read member]
  exact rep.expired_eq now member

theorem Represents.expired_listed :
    st.listed.filter (st.expired now) = (es.filter fun e => e.Expired now st.pkgLifetime).map Entry.ptr := by
  rw [rep.listed_eq, List.filter_map]
  congr 1
  exact List.filter_congr fun e member => rep.expired_eq now member

theorem Represents.kept_listed :
    (st.listed.filter fun pkg => !st.expired now pkg) =
      (es.filter fun e => ¬ e.Expired now st.pkgLifetime).map Entry.ptr := by
  rw [rep.listed_eq, List.filter_map]
  congr 1
  refine List.filter_congr fun e member => ?_
  simp only [Function.comp_apply, rep.expired_eq now member, decide_not]

theorem Represents.kept_nodes :
    (st.pkgList.nodes.filter fun node => !st.nodeExpired now node) =
      (es.filter fun e => ¬ e.Expired now st.pkgLifetime).map Entry.node := by
  rw [rep.nodes, List.filter_map]
  congr 1
  refine List.filter_congr fun e member => ?_
  simp only [Function.comp_apply, rep.nodeExpired_eq now member, decide_not]

end Expired

/-- One `pkg_release` that finds a name to free and returns the element, which was handed out, to `pkg_heap`. -/
structure Releases (st : State) (pkg : MemBlock) (st' : State) : Prop where
  ran : pkgRelease pkg st = some st'
  named : (st.name pkg).isSome
  returned : st.pkgHeap.allocated.Perm (pkg :: st'.pkgHeap.allocated)
  counted : st'.pkgHeap.freeElems.toNat = st.pkgHeap.freeElems.toNat + 1

theorem ReleaseStep.releases {s t : State × List Entry} {e : Entry} (step : ReleaseStep s e t) :
    Releases s.1 e.ptr t.1 := by
  cases step with
  | @release _ _ before after _ rep released left =>
    have member : e ∈ before ++ e :: after := by simp
    refine ⟨released.ran, ?_, ?_, released.freeElems⟩
    · rw [rep.name_eq member]
      exact rep.named e member
    · exact rep.pkgHeap.allocated_returned left.pkgHeap (rep.allocated member) released.live

/-- A whole pass changes nothing but the list and the elements it releases. -/
theorem releases_frame {s t : State × List Entry} {removed : List Entry} (run : Run ReleaseStep s removed t) :
    t.1.nodeHeap = s.1.nodeHeap ∧ t.1.pkgList.length = s.1.pkgList.length - UInt64.ofNat removed.length ∧
      ∀ pkg, t.1.pkgHeap.live pkg = if pkg ∈ removed.map Entry.ptr then none else s.1.pkgHeap.live pkg := by
  refine run.history (I := fun past t => t.1.nodeHeap = s.1.nodeHeap ∧
    t.1.pkgList.length = s.1.pkgList.length - UInt64.ofNat past.length ∧
    ∀ pkg, t.1.pkgHeap.live pkg = if pkg ∈ past.map Entry.ptr then none else s.1.pkgHeap.live pkg) ?_ ?_
  · exact ⟨rfl, by simp, fun _ => rfl⟩
  · rintro past source e target - ⟨nodeHeap, length, live⟩ step
    cases step with
    | release rep released left =>
      refine ⟨released.nodeHeap.trans nodeHeap, ?_, ?_⟩
      · rw [released.pkgList, length, List.length_append, List.length_singleton, UInt64.ofNat_add]
        exact sub_sub ..
      · intro pkg
        rw [released.live, List.map_append, List.map_singleton]
        by_cases same : pkg = e.ptr
        · simp [same]
        · simpa [same] using live pkg

/-! ## A small cache -/

/-- `open` yields this number, and the lock is granted or not. -/
def numberedEnv (fd : Int32) (flock : Bool) : OpenEnv :=
  { smallEnv with open_ := some fd, flock }

theorem numberedEnv_answers {fd : Int32} (nonneg : 0 ≤ fd) (flock : Bool) :
    (numberedEnv fd flock).Answers smallCache := by
  refine ⟨smallEnv_lawful.pkgBlock, smallEnv_lawful.nodeBlock, ?_⟩
  intro number answer
  cases answer
  exact ⟨nonneg, by simp [smallCache]⟩

private theorem smallCache_absent : ∀ e ∈ ([] : List Entry), e.handle.name ≠ some ['a'] := by simp

/-- A package that was opened. -/
theorem smallCache_opened {fd : Int32} (nonneg : 0 ≤ fd) : ∃ st node pkg,
    CallStep smallCache (.pkgOpen ['a'] (numberedEnv fd true) (some pkg)) st ∧ st.pkgLifetime = 60 ∧
    Represents st [⟨node, pkg, { name := some ['a'], fd, otime := 0, refcnt := 1 }⟩] := by
  have answers := numberedEnv_answers nonneg true
  rcases smallCache_initial.represents.pkgOpen_uncached smallCache_absent answers with
    ⟨-, failed⟩ | ⟨ptr, st, -, refused, -⟩ | ⟨number, node, ptr, st, ran, enlisted, -, final⟩
  · exact (failed ⟨smallEnv_lawful.pkgSucceeds, smallEnv_lawful.nodeSucceeds⟩).elim
  · exact absurd refused.failed (by simp [numberedEnv])
  · obtain rfl : fd = number := Option.some.inj enlisted.opened
    exact ⟨st, node, ptr, .pkgOpen (fun _ => answers) ran, enlisted.pkgLifetime, final⟩

/-- The same package after it was closed. -/
theorem smallCache_idle {fd : Int32} (nonneg : 0 ≤ fd) : ∃ st pkg,
    Run CallStep smallCache [.pkgOpen ['a'] (numberedEnv fd true) (some pkg), .pkgClose pkg] st ∧
    st.listed = [pkg] ∧ st.fd pkg = some fd ∧ st.expired 31 pkg = true := by
  obtain ⟨opened, node, pkg, first, lifetime, rep⟩ := smallCache_opened nonneg
  rw [← List.nil_append [_]] at rep
  obtain ⟨heap, ran, final⟩ := rep.pkgClose_spec
  have member := List.mem_singleton.mpr (Eq.refl (⟨node, pkg,
    PkgHandle.closed { name := some ['a'], fd, otime := 0, refcnt := 1 }⟩ : Entry))
  refine ⟨_, pkg, .cons first (.single (.pkgClose ran)), final.listed_eq, final.fd_eq member, ?_⟩
  rw [final.expired_eq 31 member]
  show decide ((1 - 1 : Int32) = 0 ∧ (31 : Int64) > 0 + opened.pkgLifetime / 2) = true
  rw [lifetime]
  decide

/-- A package that could be opened but not locked. -/
theorem smallCache_refused {fd : Int32} (nonneg : 0 ≤ fd) : ∃ st ptr,
    CallStep smallCache (.pkgOpen ['a'] (numberedEnv fd false) none) st ∧
    Refused (numberedEnv fd false) smallCache ptr st := by
  have answers := numberedEnv_answers nonneg false
  rcases smallCache_initial.represents.pkgOpen_uncached smallCache_absent answers with
    ⟨-, failed⟩ | ⟨ptr, st, ran, refused, -⟩ | ⟨number, node, ptr, st, -, enlisted, -⟩
  · exact (failed ⟨smallEnv_lawful.pkgSucceeds, smallEnv_lawful.nodeSucceeds⟩).elim
  · exact ⟨st, ptr, .pkgOpen (fun _ => answers) ran, refused⟩
  · exact absurd enlisted.locked (by simp [numberedEnv])

/-- In every reachable state `pkg_gc` returns, and is a filter: the nodes of idle handles that are old enough are taken
off the list, the others stay in their order with the same contents, and every handle taken off is released once, with
its name freed and its element returned. -/
theorem pkg_gc_filter {st₀ st : State} {events : List CacheEvent} (initial : Initial st₀)
    (run : Run CallStep st₀ events st) (now : Int64) :
    ∃ st', pkgGc now st = some st' ∧
      (st'.pkgList.nodes = st.pkgList.nodes.filter fun node => !st.nodeExpired now node) ∧
      st'.pkgList.length = st.pkgList.length - UInt64.ofNat (st.listed.filter (st.expired now)).length ∧
      (st'.listed = st.listed.filter fun pkg => !st.expired now pkg) ∧
      st'.nodeHeap = st.nodeHeap ∧
      (∀ pkg ∈ st'.listed, ∃ handle, st.pkgHeap.read pkg = some handle ∧ st'.pkgHeap.read pkg = some handle) ∧
      (st.listed.filter (st.expired now)).Nodup ∧
      Run Releases st (st.listed.filter (st.expired now)) st' ∧
      ∀ pkg, pkg ∈ st'.pkgHeap.allocated ↔
        pkg ∈ st.pkgHeap.allocated ∧ pkg ∉ st.listed.filter (st.expired now) := by
  obtain ⟨l, keeps⟩ := Keeps.run initial run
  have rep := keeps.represents
  obtain ⟨st', ran, -, final, releases⟩ := rep.pkgGc_releases now
  obtain ⟨nodeHeap, length, live⟩ := releases_frame releases
  have removed := rep.expired_listed now
  refine ⟨st', ran, ?_, ?_, ?_, nodeHeap, ?_, ?_, ?_, ?_⟩
  · rw [rep.kept_nodes, final.nodes]
  · rw [removed, List.length_map]
    exact length
  · rw [rep.kept_listed, final.listed_eq]
  · intro pkg member
    rw [final.listed_eq] at member
    obtain ⟨e, present, rfl⟩ := List.mem_map.mp member
    exact ⟨e.handle, rep.ptr_read (List.mem_filter.mp present).1, final.ptr_read present⟩
  · rw [removed]
    exact rep.distinctPtrs.sublist (List.filter_sublist.map _)
  · have matched : ∀ source e target, ReleaseStep source e target → ∀ image, source.1 = image →
        ∃ next, Run Releases image [e.ptr] next ∧ target.1 = next := by
      rintro source e target step _ rfl
      exact ⟨_, .single step.releases, rfl⟩
    obtain ⟨image, run, rfl⟩ := releases.simulate (fun s image => s.1 = image) (fun e => [e.ptr]) rfl matched
    rw [removed, List.map_eq_flatMap]
    exact run
  · intro pkg
    rw [← not_iff_not, ← final.pkgHeap.live_none_iff, live, removed, not_and_or, not_not, ← rep.pkgHeap.live_none_iff]
    by_cases released : pkg ∈ (l.entries.filter fun e => e.Expired now st.pkgLifetime).map Entry.ptr
    · simp [released]
    · simp [released]

theorem pkg_gc_filter_small : ∃ events st pkg st', Run CallStep smallCache events st ∧ st.listed = [pkg] ∧
    pkgGc 31 st = some st' ∧ st'.listed = [] ∧ Run Releases st [pkg] st' := by
  obtain ⟨st, pkg, run, listed, -, expired⟩ := smallCache_idle (show (0 : Int32) ≤ 3 by decide)
  obtain ⟨st', ran, -, -, kept, -, -, -, releases, -⟩ := pkg_gc_filter smallCache_initial run 31
  refine ⟨_, st, pkg, st', run, listed, ran, ?_, ?_⟩
  · rw [kept, listed]
    simp [expired]
  · rw [listed] at releases
    simpa [expired] using releases

/-! ## Descriptors -/

/-- The descriptors that are open are those of the listed handles, all locked, and no two handles share one. -/
structure State.OwnsExactly (st : State) : Prop where
  exactly : st.descriptors.Perm (st.listed.filterMap fun pkg => (st.fd pkg).map fun fd => ⟨fd, true⟩)
  distinct : (st.listed.map st.fd).Nodup

/-- No descriptor 0 is released: a new package does not get number 0 and then fail to be locked, and no handle that
`pkg_gc` releases has it. -/
def State.Spares (st : State) : CacheEvent → Prop
  | .pkgOpen path env _ =>
    (∃ pkg ∈ st.listed, st.name pkg = some path) ∨ ¬(env.open_ = some 0 ∧ env.flock = false)
  | .pkgGc now => ∀ pkg ∈ st.listed, st.expired now pkg = true → st.fd pkg ≠ some 0
  | _ => True

theorem Keeps.owns_iff {st : State} {l : Ledger} (keeps : Keeps st l) : st.OwnsExactly ↔ l.stray = [] := by
  have rep := keeps.represents
  have owned : (st.listed.filterMap fun pkg => (st.fd pkg).map fun fd => (⟨fd, true⟩ : Descriptor)) =
      l.entries.map Entry.descriptor := by
    rw [rep.listed_eq]
    apply filterMap_of_reads
    intro e member
    rw [rep.fd_eq member]
    rfl
  constructor
  · intro owns
    have length := (owns.exactly.symm.trans keeps.descriptors).length_eq
    rw [owned, List.length_append] at length
    exact List.length_eq_zero_iff.mp (by omega)
  · intro none_
    constructor
    · rw [owned]
      simpa [none_] using keeps.descriptors
    · have fds : st.listed.map st.fd = l.entries.map fun e => some e.handle.fd := by
        rw [rep.listed_eq, List.map_map]
        exact List.map_congr_left fun e member => rep.fd_eq member
      rw [fds]
      simpa [Function.comp_def] using rep.distinctFds.map (Option.some_injective _)

theorem leftOpen_eq_nil {released : List Entry} : leftOpen released = [] ↔ ∀ e ∈ released, e.handle.fd ≠ 0 := by
  simp [leftOpen]

/-- A stray descriptor is never closed, and each call that does not spare descriptor 0 makes one. -/
theorem Keeps.spares_iff {st : State} {l l' : Ledger} {event : CacheEvent} (keeps : Keeps st l)
    (booking : Booking st.pkgLifetime l event l') : l'.stray = [] ↔ l.stray = [] ∧ st.Spares event := by
  have rep := keeps.represents
  cases booking with
  | hit cached =>
    obtain ⟨e, member, named⟩ := cached
    have listed : e.ptr ∈ st.listed := by
      rw [rep.listed_eq]
      exact List.mem_map_of_mem member
    exact ⟨fun none_ => ⟨none_, .inl ⟨e.ptr, listed, (rep.name_eq member).trans named⟩⟩, And.left⟩
  | @refused path env _ absent failed =>
    have uncached : ¬∃ pkg ∈ st.listed, st.name pkg = some path := by
      rintro ⟨pkg, member, named⟩
      exact rep.uncached_iff.mpr absent pkg member named
    simp only [State.Spares, uncached, false_or]
    by_cases zero : env.open_ = some 0
    · have locked : env.flock = false := failed.resolve_left (by simp [zero])
      simp [zero, locked]
    · simp [zero]
  | added locked => exact ⟨fun none_ => ⟨none_, .inr (by simp [locked])⟩, And.left⟩
  | closed => exact ⟨fun none_ => ⟨none_, trivial⟩, And.left⟩
  | @collected now =>
    rw [List.append_eq_nil_iff, leftOpen_eq_nil, and_comm]
    apply and_congr_right'
    rw [State.Spares, rep.listed_eq, List.forall_mem_map]
    simp only [List.mem_filter, decide_eq_true_eq, and_imp]
    apply forall₂_congr
    intro e member
    rw [rep.expired_eq now member, rep.fd_eq member]
    simp
  | swept => exact ⟨fun none_ => ⟨none_, trivial⟩, And.left⟩

/-- At the end of a run the open descriptors are those of the listed handles exactly if no call of the run released
descriptor 0. -/
theorem pkg_descriptors_owned {st₀ st : State} {events : List CacheEvent} (initial : Initial st₀)
    (run : Run CallStep st₀ events st) :
    st.OwnsExactly ↔ Run (fun source event target => CallStep source event target ∧ source.Spares event)
      st₀ events st := by
  constructor
  · intro owns
    induction run with
    | start => exact .start
    | @snoc past source target event run last ih =>
      obtain ⟨l, keeps⟩ := Keeps.run initial run
      obtain ⟨l', kept, booking, -⟩ := keeps.step last
      obtain ⟨before, spares⟩ := (keeps.spares_iff booking).mp (kept.owns_iff.mp owns)
      exact (ih (keeps.owns_iff.mpr before)).snoc ⟨last, spares⟩
  · intro sparing
    obtain ⟨l, keeps, none_⟩ := sparing.invariant (I := fun st => ∃ l, Keeps st l ∧ l.stray = [])
      ⟨_, initial.keeps, rfl⟩ (by
        rintro source event target ⟨l, keeps, none_⟩ ⟨last, spares⟩
        obtain ⟨l', kept, booking, -⟩ := keeps.step last
        exact ⟨l', kept, (keeps.spares_iff booking).mpr ⟨none_, spares⟩⟩)
    exact keeps.owns_iff.mpr none_

instance (st : State) (event : CacheEvent) : Decidable (st.Spares event) :=
  match event with
  | .pkgOpen .. => inferInstanceAs (Decidable (_ ∨ ¬(_ ∧ _)))
  | .pkgGc now => inferInstanceAs (Decidable (∀ pkg ∈ st.listed, st.expired now pkg = true → _))
  | .pkgClose _ | .blockheapGc => isTrue trivial

theorem CacheStep.callStep {s t : Session} {event : CacheEvent} (step : CacheStep s event t) :
    CallStep s.state event t.state := by
  cases step with
  | pkgOpen lawful ran => exact .pkgOpen (fun absent => (lawful absent).answers) ran
  | pkgClose _ ran => exact .pkgClose ran
  | pkgGc ran => exact .pkgGc ran
  | blockheapGc => exact .blockheapGc

/-- A call that releases no descriptor 0. -/
def Session.spare (s : Session) (event : CacheEvent) : Option Session :=
  if s.state.Spares event then s.exec event else none

/-- Two packages are opened and closed, and the one that is idle is released and its descriptor closed. -/
theorem pkg_descriptors_owned_small : ∃ st, Run CallStep smallCache (smallCalls ++ smallSweep) st ∧
    st.descriptors = [⟨3, true⟩] ∧ st.OwnsExactly := by
  have ran : ((smallCalls ++ smallSweep).foldlM Session.spare ⟨smallCache, []⟩).map (fun s => s.state.descriptors) =
      some [⟨3, true⟩] := by decide +kernel
  obtain ⟨s, ran, descriptors⟩ := Option.map_eq_some_iff.mp ran
  have sound (source : Session) (event : CacheEvent) (target : Session) (spared : source.spare event = some target) :
      CallStep source.state event target.state ∧ source.state.Spares event := by
    rw [Session.spare] at spared
    split_ifs at spared with spares
    exact ⟨(Session.step_of_exec spared).callStep, spares⟩
  have sparing : Run (fun source event target => CallStep source event target ∧ source.Spares event) smallCache
      (smallCalls ++ smallSweep) s.state :=
    Run.map Session.state sound (.of_foldlM (fun _ _ _ spared => spared) ran)
  have run := sparing.map id fun _ _ _ step => step.1
  exact ⟨s.state, run, descriptors, (pkg_descriptors_owned smallCache_initial run).mpr sparing⟩

/-- A package that got descriptor 0 and could not be locked: the descriptor stays open, and no handle has it. -/
theorem pkg_descriptor_zero_stays_open : ∃ st, Initial smallCache ∧
    Run CallStep smallCache [.pkgOpen ['a'] (numberedEnv 0 false) none] st ∧
    st.descriptors = [⟨0, false⟩] ∧ st.listed = [] ∧ ¬st.OwnsExactly := by
  obtain ⟨st, ptr, step, refused⟩ := smallCache_refused (show (0 : Int32) ≤ 0 by decide)
  have open_ : st.descriptors = [⟨0, false⟩] := refused.descriptors
  have listed : st.listed = [] := by
    rw [State.listed, refused.pkgList]
    rfl
  refine ⟨st, smallCache_initial, .single step, open_, listed, ?_⟩
  intro owns
  have same := owns.exactly
  rw [open_, listed] at same
  exact List.cons_ne_nil _ _ same.eq_nil

/-! ## Elements of `pkg_heap` -/

/-- The list, the cached handles and the set of allocated elements are as they were. -/
structure State.Untouched (st st' : State) : Prop where
  pkgList : st'.pkgList = st.pkgList
  handles : ∀ pkg ∈ st.listed, st'.pkgHeap.read pkg = st.pkgHeap.read pkg
  elements : ∀ pkg, pkg ∈ st'.pkgHeap.allocated ↔ pkg ∈ st.pkgHeap.allocated

/-- A `pkg_open` that returned `NULL`. -/
def CacheEvent.fails : CacheEvent → Bool
  | .pkgOpen _ _ none => true
  | _ => false

/-- A failing open leaves the list and the cached handles alone. -/
theorem Keeps.failed {st st' : State} {l : Ledger} (keeps : Keeps st l) {path : Text} {env : OpenEnv}
    (step : CallStep st (.pkgOpen path env none) st') :
    st'.pkgList = st.pkgList ∧ (∀ pkg ∈ st.listed, st'.pkgHeap.read pkg = st.pkgHeap.read pkg) ∧
      ∃ ptr, ptr ∉ st.pkgHeap.allocated ∧ st'.pkgHeap.allocated.Perm (ptr :: st.pkgHeap.allocated) := by
  have rep := keeps.represents
  cases step with
  | pkgOpen answers ran =>
    by_cases cached : ∃ e ∈ l.entries, e.handle.name = some path
    · obtain ⟨before, e, after, heap, -, -, computed, -⟩ := rep.pkgOpen_cached cached env
      rw [computed] at ran
      cases ran
    · have absent : ∀ e ∈ l.entries, e.handle.name ≠ some path := by
        intro e member named
        exact cached ⟨e, member, named⟩
      rcases rep.pkgOpen_uncached absent (answers (rep.uncached_iff.mpr absent)) with
        ⟨faults, -⟩ | ⟨ptr, next, computed, refused, final⟩ | ⟨fd, node, ptr, next, computed, -⟩
      · rw [faults] at ran
        contradiction
      · rw [computed] at ran
        cases ran
        obtain ⟨handle, live⟩ := refused.live
        refine ⟨refused.pkgList, ?_, ptr, rep.pkgHeap.live_none_iff.mp refused.fresh,
          rep.pkgHeap.allocated_taken final.pkgHeap refused.fresh live⟩
        intro pkg member
        rw [rep.listed_eq] at member
        obtain ⟨e, present, rfl⟩ := List.mem_map.mp member
        rw [rep.ptr_read present, final.ptr_read present]
      · rw [computed] at ran
        cases ran

/-- Every failing open leaves the list and the cached handles as they were, but takes an element of `pkg_heap` that
nothing gives back: in every reachable state as many elements are lost as opens have failed. -/
theorem pkg_open_failure_loses {st₀ st : State} {events : List CacheEvent} (initial : Initial st₀)
    (run : Run CallStep st₀ events st) :
    (∀ path env st', CallStep st (.pkgOpen path env none) st' → ¬st.Untouched st' ∧ st'.pkgList = st.pkgList ∧
      (∀ pkg ∈ st.listed, st'.pkgHeap.read pkg = st.pkgHeap.read pkg) ∧
      ∃ ptr, ptr ∉ st.pkgHeap.allocated ∧ st'.pkgHeap.allocated.Perm (ptr :: st.pkgHeap.allocated)) ∧
    st.pkgHeap.allocated.length = st.listed.length + events.countP CacheEvent.fails := by
  obtain ⟨l, keeps, count⟩ := run.history
    (I := fun past st => ∃ l, Keeps st l ∧ l.lost.length = past.countP CacheEvent.fails)
    ⟨_, initial.keeps, rfl⟩ (by
      rintro past source event target - ⟨l, keeps, count⟩ step
      obtain ⟨l', kept, booking, -⟩ := keeps.step step
      refine ⟨l', kept, ?_⟩
      rw [List.countP_append, List.countP_singleton, ← count]
      cases booking <;> rfl)
  constructor
  · intro path env st' step
    obtain ⟨list, handles, ptr, fresh, taken⟩ := keeps.failed step
    refine ⟨?_, list, handles, ptr, fresh, taken⟩
    intro untouched
    exact fresh ((untouched.elements ptr).mp (taken.mem_iff.mpr (List.mem_cons_self ..)))
  · rw [keeps.elements.length_eq, keeps.represents.listed_eq, List.length_append, count]

theorem pkg_open_failure_loses_small : ∃ st,
    Run CallStep smallCache [.pkgOpen ['a'] (numberedEnv 3 false) none] st ∧
    st.pkgHeap.allocated.length = st.listed.length + 1 := by
  obtain ⟨st, ptr, step, -⟩ := smallCache_refused (show (0 : Int32) ≤ 3 by decide)
  exact ⟨st, .single step, (pkg_open_failure_loses smallCache_initial (.single step)).2⟩

/-- One package that cannot be locked: nothing is listed, and one element is in use. -/
theorem pkg_open_failure_leaves_element : ∃ st, Initial smallCache ∧
    Run CallStep smallCache [.pkgOpen ['a'] (numberedEnv 3 false) none] st ∧
    st.listed = [] ∧ smallCache.pkgHeap.allocated = [] ∧ st.pkgHeap.allocated.length = 1 ∧
    ¬smallCache.Untouched st := by
  obtain ⟨st, ptr, step, refused⟩ := smallCache_refused (show (0 : Int32) ≤ 3 by decide)
  obtain ⟨-, -, ptr, fresh, taken⟩ := smallCache_initial.keeps.failed step
  have before : smallCache.pkgHeap.allocated = [] := rfl
  have listed : st.listed = [] := by
    rw [State.listed, refused.pkgList]
    rfl
  refine ⟨st, smallCache_initial, .single step, listed, before, taken.length_eq, ?_⟩
  intro untouched
  exact fresh ((untouched.elements ptr).mp (taken.mem_iff.mpr (List.mem_cons_self ..)))

end FsPkg.Pkg
