import FsPkg.Proofs.BallocRuns
import FsPkg.Proofs.PkgCacheSpec

/-! # Runs of the package cache

Opens with any outcome, closes of handles that are still open, and both collectors, in any order.
`Effect` says once what each call can do to the entries; the invariant relates them to the history
of calls: one entry per name, as many references as there are opens to be matched, and none for a
handle that is not listed. The count is an `int`, so all of this needs fewer than `2 ^ 31`
outstanding opens of one handle.
-/

namespace FsPkg.Pkg

open Dlink Balloc Machine

/-- One call, with the result of `pkg_open`. -/
inductive CacheEvent where
  | pkgOpen (path : Text) (env : OpenEnv) (result : Option MemBlock)
  | pkgClose (pkg : MemBlock)
  | pkgGc (now : Int64)
  | blockheapGc
deriving DecidableEq

def CacheEvent.opens (pkg : MemBlock) : CacheEvent → Bool
  | .pkgOpen _ _ (some t) => t = pkg
  | _ => false

def CacheEvent.closes (pkg : MemBlock) : CacheEvent → Bool
  | .pkgClose t => t = pkg
  | _ => false

/-- The successful `pkg_open` calls on a handle less the `pkg_close` calls on it. -/
def outstanding (pkg : MemBlock) (calls : List CacheEvent) : ℤ :=
  calls.countP (CacheEvent.opens pkg) - calls.countP (CacheEvent.closes pkg)

/-- The state of the module and the calls made so far. -/
structure Session where
  state : State
  calls : List CacheEvent := []

/-- Only a handle with an outstanding open is closed. Memory and descriptors are asked for only
when the path is not cached. -/
inductive CacheStep : Session → CacheEvent → Session → Prop
  | pkgOpen {s : Session} {path : Text} {env : OpenEnv} {result : Option MemBlock} {state : State}
      (lawful : (∀ pkg ∈ s.state.listed, s.state.name pkg ≠ some path) → env.Lawful s.state)
      (ran : pkgOpen path env s.state = some (result, state)) :
      CacheStep s (.pkgOpen path env result) ⟨state, s.calls ++ [.pkgOpen path env result]⟩
  | pkgClose {s : Session} {pkg : MemBlock} {state : State} (held : 0 < outstanding pkg s.calls)
      (ran : pkgClose pkg s.state = some state) :
      CacheStep s (.pkgClose pkg) ⟨state, s.calls ++ [.pkgClose pkg]⟩
  | pkgGc {s : Session} {now : Int64} {state : State} (ran : pkgGc now s.state = some state) :
      CacheStep s (.pkgGc now) ⟨state, s.calls ++ [.pkgGc now]⟩
  | blockheapGc {s : Session} :
      CacheStep s .blockheapGc ⟨blockheapGc s.state, s.calls ++ [.blockheapGc]⟩

/-- `sizeof(struct pkg_handle)` on LP64. -/
def sizeofPkgHandle : UInt64 := 32

/-- `sizeof(dlink_node)` on LP64. -/
def sizeofDlinkNode : UInt64 := 24

/-- The module after initialization: both heaps created, nothing listed, nothing opened. -/
structure Initial (st : State) : Prop where
  pkgHeap : ∃ count : Int32, 1 ≤ count ∧ Created sizeofPkgHandle count st.pkgHeap
  nodeHeap : ∃ count : Int32, 1 ≤ count ∧ Created sizeofDlinkNode count st.nodeHeap
  pkgList : st.pkgList = {}
  descriptors : st.descriptors = []

theorem Initial.represents {st : State} (initial : Initial st) : Represents st [] := by
  obtain ⟨count, sensible, created⟩ := initial.pkgHeap
  obtain ⟨nodeCount, nodeSensible, nodeCreated⟩ := initial.nodeHeap
  have pkgHeap := (created.invariant sensible).1
  have nodeHeap := (nodeCreated.invariant nodeSensible).1
  refine ⟨pkgHeap, nodeHeap, ?_, ?_, ?_, ?_, ?_, ?_, ?_, ?_, ?_⟩
  · rw [initial.pkgList]
    rfl
  · simp
  · simp
  · simp
  · exact List.nodup_nil
  · exact List.nodup_nil
  · exact List.nodup_nil
  · simp
  · simp [initial.descriptors]

/-! ## What one call does -/

/-- The entries before and after a call. -/
inductive Effect (lifetime : Int64) : List Entry → CacheEvent → List Entry → Prop
  | hit {before after : List Entry} {e : Entry} {path : Text} {env : OpenEnv}
      (named : e.handle.name = some path) :
      Effect lifetime (before ++ e :: after) (.pkgOpen path env (some e.ptr))
        (before ++ { e with handle := e.handle.touched env.now } :: after)
  | refused {es : List Entry} {path : Text} {env : OpenEnv} :
      Effect lifetime es (.pkgOpen path env none) es
  | added {es : List Entry} {path : Text} {env : OpenEnv} {node ptr : MemBlock} {fd : Int32}
      (absent : ∀ e ∈ es, e.handle.name ≠ some path) (fresh : ∀ e ∈ es, e.ptr ≠ ptr) :
      Effect lifetime es (.pkgOpen path env (some ptr))
        (es ++ [⟨node, ptr, { name := some path, fd, otime := env.now, refcnt := 1 }⟩])
  | closed {before after : List Entry} {e : Entry} :
      Effect lifetime (before ++ e :: after) (.pkgClose e.ptr)
        (before ++ { e with handle := e.handle.closed } :: after)
  | collected {es : List Entry} {now : Int64} :
      Effect lifetime es (.pkgGc now) (es.filter fun e => ¬ e.Expired now lifetime)
  | swept {es : List Entry} : Effect lifetime es .blockheapGc es

/-- The path is not cached. -/
theorem Represents.uncached_iff {st : State} {es : List Entry} (rep : Represents st es) {path : Text} :
    (∀ pkg ∈ st.listed, st.name pkg ≠ some path) ↔ ∀ e ∈ es, e.handle.name ≠ some path := by
  rw [rep.listed_eq, List.forall_mem_map]
  apply forall₂_congr
  intro e member
  rw [rep.name_eq member]

/-- The first entry of a cached path is the one that is opened. -/
theorem Represents.pkgOpen_cached {st : State} {es : List Entry} (rep : Represents st es) {path : Text}
    (cached : ∃ e ∈ es, e.handle.name = some path) (env : OpenEnv) :
    ∃ before e after heap, es = before ++ e :: after ∧ e.handle.name = some path ∧
      pkgOpen path env st = some (some e.ptr, { st with pkgHeap := heap }) ∧
      heap.allocated = st.pkgHeap.allocated ∧
      Represents { st with pkgHeap := heap }
        (before ++ { e with handle := e.handle.touched env.now } :: after) := by
  obtain ⟨e, found⟩ : ∃ e, es.find? (fun e => e.handle.name = some path) = some e := by
    apply Option.isSome_iff_exists.mp
    obtain ⟨e, member, named⟩ := cached
    exact List.find?_isSome.mpr ⟨e, member, by simpa using named⟩
  obtain ⟨named, before, after, rfl, first⟩ := List.find?_eq_some_iff_append.mp found
  have named : e.handle.name = some path := by simpa using named
  obtain ⟨heap, ran, same, final⟩ := rep.pkgOpen_hit named (by simpa using first) env
  exact ⟨before, e, after, heap, rfl, named, ran, same, final⟩

/-- Every open of a represented state returns, and has one of the three effects of an open. -/
theorem Represents.pkgOpen_effect {st : State} {es : List Entry} (rep : Represents st es) (path : Text)
    {env : OpenEnv}
    (lawful : (∀ pkg ∈ st.listed, st.name pkg ≠ some path) → env.Lawful st) :
    ∃ result st' es', pkgOpen path env st = some (result, st') ∧ Represents st' es' ∧
      Effect st.pkgLifetime es (.pkgOpen path env result) es' := by
  by_cases cached : ∃ e ∈ es, e.handle.name = some path
  · obtain ⟨before, e, after, heap, rfl, named, ran, -, final⟩ := rep.pkgOpen_cached cached env
    exact ⟨_, _, _, ran, final, .hit named⟩
  · have absent : ∀ e ∈ es, e.handle.name ≠ some path := by
      intro e member named
      exact cached ⟨e, member, named⟩
    obtain ⟨result, st', ran, -, ⟨-, rfl, final⟩ | ⟨fd, node, ptr, -, -, rfl, fresh, final⟩⟩ :=
      rep.pkgOpen_miss absent (lawful (rep.uncached_iff.mpr absent))
    · exact ⟨_, _, _, ran, final, .refused⟩
    · exact ⟨_, _, _, ran, final, .added absent fresh⟩

/-- The entries, the reference counts and the calls made so far agree. -/
structure Consistent (es : List Entry) (calls : List CacheEvent) : Prop where
  names : (es.map (·.handle.name)).Nodup
  counted : ∀ e ∈ es, e.handle.refcnt.toInt = outstanding e.ptr calls
  unlisted : ∀ pkg, (∀ e ∈ es, e.ptr ≠ pkg) → outstanding pkg calls = 0
  nonneg : ∀ pkg, 0 ≤ outstanding pkg calls

theorem Consistent.listed {es : List Entry} {calls : List CacheEvent} (consistent : Consistent es calls)
    {pkg : MemBlock} (held : 0 < outstanding pkg calls) : ∃ e ∈ es, e.ptr = pkg := by
  by_contra absent
  have zero := consistent.unlisted pkg fun e member same => absent ⟨e, member, same⟩
  omega

/-- The inversion of a step: what it does to the entries and to the history. -/
theorem CacheStep.effect {s t : Session} {event : CacheEvent} (step : CacheStep s event t)
    {es : List Entry} (rep : Represents s.state es) (consistent : Consistent es s.calls) :
    t.calls = s.calls ++ [event] ∧
      ∃ es', Represents t.state es' ∧ Effect s.state.pkgLifetime es event es' := by
  cases step with
  | pkgOpen lawful ran =>
    obtain ⟨result, st', es', computed, final, effect⟩ := rep.pkgOpen_effect _ lawful
    rw [computed] at ran
    cases ran
    exact ⟨rfl, es', final, effect⟩
  | pkgClose held ran =>
    obtain ⟨e, member, rfl⟩ := consistent.listed held
    obtain ⟨before, after, rfl⟩ := List.append_of_mem member
    obtain ⟨heap, computed, final⟩ := rep.pkgClose_spec
    rw [computed] at ran
    cases ran
    exact ⟨rfl, _, final, .closed⟩
  | pkgGc ran =>
    obtain ⟨st', computed, -, final⟩ := rep.pkgGc_spec _
    rw [computed] at ran
    cases ran
    exact ⟨rfl, _, final, .collected⟩
  | blockheapGc => exact ⟨rfl, _, rep.blockheapGc_spec, .swept⟩

/-! ## The invariant -/

theorem outstanding_snoc (pkg : MemBlock) (calls : List CacheEvent) (event : CacheEvent) :
    outstanding pkg (calls ++ [event]) = outstanding pkg calls +
      ((if event.opens pkg then 1 else 0) - (if event.closes pkg then 1 else 0)) := by
  unfold outstanding
  rw [List.countP_append, List.countP_append, List.countP_singleton, List.countP_singleton]
  push_cast
  omega

private theorem toInt_succ {count : Int32} (bound : count.toInt + 1 < 2 ^ 31) :
    (count + 1).toInt = count.toInt + 1 := by
  have low := Int32.le_toInt count
  rw [Int32.toInt_add, show (1 : Int32).toInt = 1 from rfl]
  exact Int.bmod_eq_of_le (by omega) (by omega)

private theorem toInt_pred {count : Int32} (bound : 0 < count.toInt) :
    (count - 1).toInt = count.toInt - 1 := by
  have high := Int32.toInt_lt count
  rw [Int32.toInt_sub, show (1 : Int32).toInt = 1 from rfl]
  exact Int.bmod_eq_of_le (by omega) (by omega)

private theorem Consistent.congr {es : List Entry} {calls calls' : List CacheEvent}
    (consistent : Consistent es calls) (same : ∀ pkg, outstanding pkg calls' = outstanding pkg calls) :
    Consistent es calls' where
  names := consistent.names
  counted e member := (consistent.counted e member).trans (same e.ptr).symm
  unlisted pkg absent := (same pkg).trans (consistent.unlisted pkg absent)
  nonneg pkg := (consistent.nonneg pkg).trans_eq (same pkg).symm

/-- One entry's count changes with the history of its handle, all others stay. -/
private theorem Consistent.recount {before after : List Entry} {e : Entry} {calls : List CacheEvent}
    (consistent : Consistent (before ++ e :: after) calls) {event : CacheEvent} {handle : PkgHandle}
    (distinct : ((before ++ e :: after).map Entry.ptr).Nodup) (name : handle.name = e.handle.name)
    (count : handle.refcnt.toInt = outstanding e.ptr (calls ++ [event]))
    (elsewhere : ∀ pkg ≠ e.ptr, outstanding pkg (calls ++ [event]) = outstanding pkg calls)
    (nonneg : 0 ≤ outstanding e.ptr (calls ++ [event])) :
    Consistent (before ++ { e with handle } :: after) (calls ++ [event]) := by
  refine ⟨by simpa [name] using consistent.names, ?_, ?_, ?_⟩
  · intro other member
    rcases List.mem_cons.mp (List.perm_middle.mem_iff.mp member) with rfl | rest
    · exact count
    · rw [elsewhere _ (ne_of_split distinct rest)]
      exact consistent.counted other (List.perm_middle.mem_iff.mpr (List.mem_cons_of_mem _ rest))
  · intro pkg absent
    have different : pkg ≠ e.ptr := by
      intro same
      exact absent { e with handle } (by simp) same.symm
    rw [elsewhere pkg different]
    apply consistent.unlisted pkg
    intro other member
    rcases List.mem_cons.mp (List.perm_middle.mem_iff.mp member) with rfl | rest
    · exact different.symm
    · exact absent other (List.perm_middle.mem_iff.mpr (List.mem_cons_of_mem _ rest))
  · intro pkg
    by_cases same : pkg = e.ptr
    · rw [same]
      exact nonneg
    · rw [elsewhere pkg same]
      exact consistent.nonneg pkg

/-- A new entry, with the one reference of the call that made it. -/
private theorem Consistent.add {es : List Entry} {calls : List CacheEvent} (consistent : Consistent es calls)
    {new : Entry} {path : Text} {env : OpenEnv} (name : new.handle.name = some path)
    (count : new.handle.refcnt = 1) (absent : ∀ e ∈ es, e.handle.name ≠ some path)
    (fresh : ∀ e ∈ es, e.ptr ≠ new.ptr) :
    Consistent (es ++ [new]) (calls ++ [.pkgOpen path env (some new.ptr)]) := by
  have zero := consistent.unlisted new.ptr fresh
  have elsewhere (pkg : MemBlock) (different : pkg ≠ new.ptr) :
      outstanding pkg (calls ++ [.pkgOpen path env (some new.ptr)]) = outstanding pkg calls := by
    simp [outstanding_snoc, CacheEvent.opens, CacheEvent.closes, different.symm]
  have here : outstanding new.ptr (calls ++ [.pkgOpen path env (some new.ptr)]) = 1 := by
    simp [outstanding_snoc, CacheEvent.opens, CacheEvent.closes, zero]
  refine ⟨?_, ?_, ?_, ?_⟩
  · exact nodup_snoc consistent.names fun e member same => absent e member (same.trans name)
  · intro e member
    rcases List.mem_append.mp member with old | new
    · rw [elsewhere _ (fresh e old)]
      exact consistent.counted e old
    · rw [List.mem_singleton.mp new, here, count]
      rfl
  · intro pkg missing
    have different : pkg ≠ new.ptr := by
      intro same
      exact missing _ (List.mem_append_right _ (List.mem_singleton.mpr rfl)) same.symm
    rw [elsewhere pkg different]
    exact consistent.unlisted pkg fun e member => missing e (List.mem_append_left _ member)
  · intro pkg
    by_cases same : pkg = new.ptr
    · rw [same, here]
      decide
    · rw [elsewhere pkg same]
      exact consistent.nonneg pkg

/-- Entries without references are dropped. -/
private theorem Consistent.collect {es : List Entry} {calls calls' : List CacheEvent}
    (consistent : Consistent es calls) (same : ∀ pkg, outstanding pkg calls' = outstanding pkg calls)
    (now lifetime : Int64) : Consistent (es.filter fun e => ¬ e.Expired now lifetime) calls' := by
  refine ⟨consistent.names.sublist (List.filter_sublist.map _), ?_, ?_, ?_⟩
  · intro e member
    rw [same]
    exact consistent.counted e (List.mem_filter.mp member).1
  · intro pkg absent
    rw [same]
    by_cases before : ∃ e ∈ es, e.ptr = pkg
    · -- it was listed and is gone, so its count was zero
      obtain ⟨e, member, rfl⟩ := before
      have expired : e.Expired now lifetime := by
        by_contra alive
        exact absent e (List.mem_filter.mpr ⟨member, by simpa using alive⟩) rfl
      rw [← consistent.counted e member, expired.1]
      rfl
    · exact consistent.unlisted pkg fun e member same => before ⟨e, member, same⟩
  · intro pkg
    rw [same]
    exact consistent.nonneg pkg

/-- One call keeps entries and history in agreement while the counts fit an `int`. -/
theorem Consistent.step {es es' : List Entry} {calls : List CacheEvent} {event : CacheEvent}
    {lifetime : Int64} (consistent : Consistent es calls) (distinct : (es.map Entry.ptr).Nodup)
    (effect : Effect lifetime es event es')
    (held : ∀ pkg, event = .pkgClose pkg → 0 < outstanding pkg calls)
    (bounded : ∀ pkg, outstanding pkg (calls ++ [event]) < 2 ^ 31) :
    Consistent es' (calls ++ [event]) := by
  -- a call that neither opens nor closes leaves the history of every handle as it was
  have quiet (silent : ∀ pkg, event.opens pkg = false ∧ event.closes pkg = false) (pkg : MemBlock) :
      outstanding pkg (calls ++ [event]) = outstanding pkg calls := by
    simp [outstanding_snoc, silent pkg]
  cases effect with
  | @hit before after e path env named =>
    have here : outstanding e.ptr (calls ++ [.pkgOpen path env (some e.ptr)]) = outstanding e.ptr calls + 1 := by
      simp [outstanding_snoc, CacheEvent.opens, CacheEvent.closes]
    have counted := consistent.counted e (by simp)
    have nonneg := consistent.nonneg e.ptr
    refine consistent.recount distinct (by rfl) ?_ ?_ (by omega)
    · have bound := bounded e.ptr
      rw [here, ← counted] at bound
      rw [here, ← counted]
      exact toInt_succ bound
    · intro pkg different
      simp [outstanding_snoc, CacheEvent.opens, CacheEvent.closes, different.symm]
  | refused => exact consistent.congr (quiet fun _ => ⟨rfl, rfl⟩)
  | added absent fresh => exact consistent.add rfl rfl absent fresh
  | @closed before after e =>
    have here : outstanding e.ptr (calls ++ [.pkgClose e.ptr]) = outstanding e.ptr calls - 1 := by
      simp [outstanding_snoc, CacheEvent.opens, CacheEvent.closes]
      rfl
    have counted := consistent.counted e (by simp)
    have positive := held e.ptr rfl
    refine consistent.recount distinct (by rfl) ?_ ?_ (by omega)
    · rw [here, ← counted]
      exact toInt_pred (by omega)
    · intro pkg different
      simp [outstanding_snoc, CacheEvent.opens, CacheEvent.closes, different.symm]
  | @collected _ now => exact consistent.collect (quiet fun _ => ⟨rfl, rfl⟩) now lifetime
  | swept => exact consistent.congr (quiet fun _ => ⟨rfl, rfl⟩)

/-- A referenced entry survives every call, with its handle, name and descriptor. -/
theorem Effect.survives {es es' : List Entry} {event : CacheEvent} {lifetime : Int64}
    (effect : Effect lifetime es event es') {e : Entry} (member : e ∈ es) (used : e.handle.refcnt ≠ 0) :
    ∃ e' ∈ es', e'.ptr = e.ptr ∧ e'.handle.name = e.handle.name ∧ e'.handle.fd = e.handle.fd := by
  cases effect with
  | @hit before after _ path env named =>
    rcases List.mem_cons.mp (List.perm_middle.mem_iff.mp member) with rfl | rest
    · exact ⟨_, List.mem_append_right before (List.mem_cons_self ..), rfl, rfl, rfl⟩
    · exact ⟨e, List.perm_middle.mem_iff.mpr (List.mem_cons_of_mem _ rest), rfl, rfl, rfl⟩
  | refused => exact ⟨e, member, rfl, rfl, rfl⟩
  | added absent fresh => exact ⟨e, List.mem_append_left _ member, rfl, rfl, rfl⟩
  | @closed before after _ =>
    rcases List.mem_cons.mp (List.perm_middle.mem_iff.mp member) with rfl | rest
    · exact ⟨_, List.mem_append_right before (List.mem_cons_self ..), rfl, rfl, rfl⟩
    · exact ⟨e, List.perm_middle.mem_iff.mpr (List.mem_cons_of_mem _ rest), rfl, rfl, rfl⟩
  | @collected _ now =>
    have alive : ¬ e.Expired now lifetime := fun expired => used expired.1
    exact ⟨e, List.mem_filter.mpr ⟨member, by simpa using alive⟩, rfl, rfl, rfl⟩
  | swept => exact ⟨e, member, rfl, rfl, rfl⟩

/-- Along the calls, no handle has `2 ^ 31` opens to be matched. -/
def Countable (before calls : List CacheEvent) : Prop :=
  ∀ past, past <+: calls → ∀ pkg, outstanding pkg (before ++ past) < 2 ^ 31

/-- A session whose state represents entries that agree with its history. -/
def Sound (s : Session) (es : List Entry) : Prop :=
  Represents s.state es ∧ Consistent es s.calls

/-- One step from a sound session, with what became of the entries. -/
theorem Sound.step {s t : Session} {event : CacheEvent} {es : List Entry} (sound : Sound s es)
    (step : CacheStep s event t) (bounded : ∀ pkg, outstanding pkg (s.calls ++ [event]) < 2 ^ 31) :
    t.calls = s.calls ++ [event] ∧
      ∃ es', Sound t es' ∧ Effect s.state.pkgLifetime es event es' := by
  obtain ⟨rep, consistent⟩ := sound
  obtain ⟨history, es', final, effect⟩ := step.effect rep consistent
  refine ⟨history, es', ⟨final, ?_⟩, effect⟩
  have held (pkg : MemBlock) (same : event = .pkgClose pkg) : 0 < outstanding pkg s.calls := by
    subst same
    cases step with
    | pkgClose held => exact held
  rw [history]
  exact consistent.step rep.distinctPtrs effect held bounded

/-- A run from a sound session stays sound; an entry that is referenced all along stays, unchanged
in handle, name and descriptor. -/
theorem Sound.run {s t : Session} {calls : List CacheEvent} {es : List Entry} (sound : Sound s es)
    (run : Run CacheStep s calls t) (bounded : Countable s.calls calls) :
    t.calls = s.calls ++ calls ∧ ∃ es', Sound t es' ∧
      ∀ e ∈ es, (∀ past, past <+: calls → 0 < outstanding e.ptr (s.calls ++ past)) →
        ∃ e' ∈ es', e'.ptr = e.ptr ∧ e'.handle.name = e.handle.name ∧ e'.handle.fd = e.handle.fd := by
  induction run with
  | start => exact ⟨by simp, es, sound, fun e member _ => ⟨e, member, rfl, rfl, rfl⟩⟩
  | @snoc past source target label run last ih =>
    have shorter {P : List CacheEvent → Prop} (all : ∀ more, more <+: past ++ [label] → P more) :
        ∀ more, more <+: past → P more :=
      fun more isPrefix => all more (isPrefix.trans (List.prefix_append past [label]))
    obtain ⟨history, es₁, sound₁, kept₁⟩ := ih (shorter bounded)
    have room (pkg : MemBlock) : outstanding pkg (source.calls ++ [label]) < 2 ^ 31 := by
      rw [history, List.append_assoc]
      exact bounded _ (List.prefix_refl _) pkg
    obtain ⟨grown, es₂, sound₂, effect⟩ := sound₁.step last room
    refine ⟨by rw [grown, history, List.append_assoc], es₂, sound₂, ?_⟩
    intro e member used
    obtain ⟨e₁, member₁, ptr₁, name₁, fd₁⟩ := kept₁ e member (shorter used)
    have referenced : e₁.handle.refcnt ≠ 0 := by
      intro zero
      have count := sound₁.2.counted e₁ member₁
      have positive := used past (List.prefix_append past [label])
      rw [zero, ptr₁, history, show (0 : Int32).toInt = 0 from rfl] at count
      omega
    obtain ⟨e₂, member₂, ptr₂, name₂, fd₂⟩ := effect.survives member₁ referenced
    exact ⟨e₂, member₂, ptr₂.trans ptr₁, name₂.trans name₁, fd₂.trans fd₁⟩

theorem Initial.sound {st : State} (initial : Initial st) : Sound ⟨st, []⟩ [] :=
  ⟨initial.represents, List.nodup_nil, by simp, fun _ _ => rfl, fun _ => le_refl _⟩

/-! ## Safety -/

/-- The descriptor stored in a handle. -/
def State.fd (st : State) (pkg : MemBlock) : Option Int32 :=
  (st.pkgHeap.read pkg).map PkgHandle.fd

theorem Represents.fd_eq {st : State} {es : List Entry} (rep : Represents st es) {e : Entry}
    (member : e ∈ es) : st.fd e.ptr = some e.handle.fd := by
  rw [State.fd, rep.ptr_read member]
  rfl

/-- In every state of every run with fewer than `2 ^ 31` outstanding opens of one handle: names are
not listed twice; counts are the outstanding opens; a handle with an outstanding open is listed,
allocated and keeps name and open, locked descriptor while it has one; an open of a listed path
returns its handle and leaves the descriptors alone; and no call faults. -/
theorem pkg_cache_safety {st₀ : State} {events : List CacheEvent} {s : Session} (initial : Initial st₀)
    (run : Run CacheStep ⟨st₀, []⟩ events s) (bounded : Countable [] events) :
    (s.state.listed.map s.state.name).Nodup ∧
    (∀ pkg ∈ s.state.listed, ∃ handle, s.state.pkgHeap.read pkg = some handle ∧
      handle.refcnt.toInt = outstanding pkg events ∧ 0 ≤ handle.refcnt.toInt) ∧
    (∀ pkg, 0 < outstanding pkg events → ∀ more t, Run CacheStep s more t → Countable events more →
      (∀ past, past <+: more → 0 < outstanding pkg (events ++ past)) →
      pkg ∈ t.state.listed ∧ pkg ∈ t.state.pkgHeap.allocated ∧ t.state.name pkg = s.state.name pkg ∧
        ∃ fd, s.state.fd pkg = some fd ∧ t.state.fd pkg = some fd ∧ ⟨fd, true⟩ ∈ t.state.descriptors) ∧
    (∀ pkg ∈ s.state.listed, ∀ path, s.state.name pkg = some path → ∀ env, ∃ st,
      pkgOpen path env s.state = some (some pkg, st) ∧ st.descriptors = s.state.descriptors) ∧
    (∀ path env, env.Lawful s.state → (pkgOpen path env s.state).isSome) ∧
    (∀ pkg, 0 < outstanding pkg events → (pkgClose pkg s.state).isSome) ∧
    ∀ now, (pkgGc now s.state).isSome := by
  obtain ⟨history, es, ⟨rep, consistent⟩, -⟩ := initial.sound.run run bounded
  rw [List.nil_append] at history
  refine ⟨?_, ?_, ?_, ?_, ?_, ?_, ?_⟩
  · have names : s.state.listed.map s.state.name = es.map (·.handle.name) := by
      rw [rep.listed_eq, List.map_map]
      exact List.map_congr_left fun e member => rep.name_eq member
    rw [names]
    exact consistent.names
  · intro pkg member
    rw [rep.listed_eq] at member
    obtain ⟨e, present, rfl⟩ := List.mem_map.mp member
    have counted := consistent.counted e present
    rw [history] at counted
    refine ⟨e.handle, rep.ptr_read present, counted, ?_⟩
    rw [counted, ← history]
    exact consistent.nonneg e.ptr
  · intro pkg held more t later countable used
    obtain ⟨e, present, rfl⟩ := consistent.listed (history ▸ held)
    obtain ⟨-, es', ⟨rep', -⟩, kept⟩ := Sound.run ⟨rep, consistent⟩ later (history ▸ countable)
    obtain ⟨e', present', ptr, name, fd⟩ := kept e present (history ▸ used)
    rw [← ptr]
    refine ⟨?_, rep'.allocated present', ?_, e.handle.fd, ?_, ?_, fd ▸ rep'.opened e' present'⟩
    · rw [rep'.listed_eq]
      exact List.mem_map_of_mem present'
    · rw [rep'.name_eq present', name, ptr, rep.name_eq present]
    · rw [ptr, rep.fd_eq present]
    · rw [rep'.fd_eq present', fd]
  · intro pkg member path named env
    rw [rep.listed_eq] at member
    obtain ⟨e, present, rfl⟩ := List.mem_map.mp member
    rw [rep.name_eq present] at named
    obtain ⟨before, after, rfl⟩ := List.append_of_mem present
    have names := consistent.names
    rw [List.map_append, List.map_cons, List.nodup_append] at names
    have first (other : Entry) (left : other ∈ before) : other.handle.name ≠ some path := by
      rw [← named]
      exact names.2.2 _ (List.mem_map_of_mem left) _ (List.mem_cons_self ..)
    obtain ⟨heap, ran, -⟩ := rep.pkgOpen_hit named first env
    exact ⟨_, ran, rfl⟩
  · intro path env lawful
    obtain ⟨result, st', es', ran, -⟩ := rep.pkgOpen_effect path fun _ => lawful
    rw [ran]
    rfl
  · intro pkg held
    obtain ⟨e, present, rfl⟩ := consistent.listed (history ▸ held)
    obtain ⟨before, after, rfl⟩ := List.append_of_mem present
    obtain ⟨heap, ran, -⟩ := rep.pkgClose_spec
    rw [ran]
    rfl
  · intro now
    obtain ⟨st', ran, -⟩ := rep.pkgGc_spec now
    rw [ran]
    rfl

/-! ## A concrete cache -/

/-- Two handles and two nodes per block, and a collection interval of a minute. -/
def smallCache : State where
  pkgHeap := (emptyHeap sizeofPkgHandle 2).grown 4096
  nodeHeap := (emptyHeap sizeofDlinkNode 2).grown 4096
  pkgLifetime := 60

/-- Memory is available, `open` yields descriptor 3 and the lock is granted. -/
def smallEnv : OpenEnv where
  open_ := some 3
  flock := true
  now := 0
  pkgBlock := ⟨true, some 65536⟩
  nodeBlock := ⟨true, some 65536⟩

theorem smallCache_initial : Initial smallCache := by
  exact ⟨⟨2, by decide, true, ⟨true, some 4096⟩, emptyHeap_lawful true (by decide), rfl⟩,
    ⟨2, by decide, true, ⟨true, some 4096⟩, emptyHeap_lawful true (by decide), rfl⟩, rfl, rfl⟩

theorem smallEnv_lawful : smallEnv.Lawful smallCache := by
  refine ⟨?_, by decide, ?_, by decide, ?_⟩
  · exact BlockEnv.lawful_at true (by decide) (List.forall_mem_singleton.mpr (.inr (by decide)))
  · exact BlockEnv.lawful_at true (by decide) (List.forall_mem_singleton.mpr (.inr (by decide)))
  · intro fd answer
    cases answer
    exact ⟨by decide, by simp [smallCache]⟩

/-- Opening one path again and again: each call adds one to the `int`. -/
theorem smallCache_opens (path : Text) : ∃ pkg, ∀ n : ℕ, ∃ s node handle,
    Run CacheStep ⟨smallCache, []⟩ (List.replicate (n + 1) (.pkgOpen path smallEnv (some pkg))) s ∧
    Represents s.state [⟨node, pkg, handle⟩] ∧ handle.name = some path ∧
    handle.refcnt = Int32.ofNat (n + 1) := by
  obtain ⟨result, st, ran, -, ⟨failed, -⟩ | ⟨fd, node, pkg, -, -, rfl, -, first⟩⟩ :=
    smallCache_initial.represents.pkgOpen_miss
      (List.forall_mem_nil fun e : Entry => e.handle.name ≠ some path) smallEnv_lawful
  · exact absurd failed (by decide)
  · refine ⟨pkg, fun n => ?_⟩
    induction n with
    | zero => exact ⟨_, node, _, .single (.pkgOpen (fun _ => smallEnv_lawful) ran), first, rfl, rfl⟩
    | succ n ih =>
      obtain ⟨s, node, handle, run, rep, named, count⟩ := ih
      have only : Represents s.state ([] ++ ⟨node, pkg, handle⟩ :: []) := rep
      obtain ⟨heap, again, -, final⟩ := only.pkgOpen_hit named (List.forall_mem_nil _) smallEnv
      have cached (absent : ∀ other ∈ s.state.listed, s.state.name other ≠ some path) :
          smallEnv.Lawful s.state := by
        have listed : pkg ∈ s.state.listed := by
          rw [rep.listed_eq]
          exact List.mem_singleton.mpr rfl
        refine absurd ?_ (absent pkg listed)
        rw [rep.name_eq (List.mem_singleton.mpr rfl), named]
      have run' := run.snoc (.pkgOpen cached again)
      rw [← List.replicate_succ'] at run'
      refine ⟨_, node, handle.touched smallEnv.now, run', final, named, ?_⟩
      change handle.refcnt + 1 = _
      rw [count, Int32.ofNat_add (n + 1) 1]
      rfl

private theorem outstanding_replicate (path : Text) (env : OpenEnv) (pkg : MemBlock) (n : ℕ) :
    outstanding pkg (List.replicate n (.pkgOpen path env (some pkg))) = n := by
  simp [outstanding, List.countP_replicate, CacheEvent.opens, CacheEvent.closes]

/-- What a call leaves, if it is one that a run can make. -/
def Session.exec (s : Session) (event : CacheEvent) : Option Session :=
  let left : Option State :=
    match event with
    | .pkgOpen path env result =>
      if (∀ pkg ∈ s.state.listed, s.state.name pkg ≠ some path) → env.Lawful s.state then
        (pkgOpen path env s.state).bind fun given => if given.1 = result then some given.2 else none
      else none
    | .pkgClose pkg => if 0 < outstanding pkg s.calls then pkgClose pkg s.state else none
    | .pkgGc now => pkgGc now s.state
    | .blockheapGc => some (blockheapGc s.state)
  left.map fun state => ⟨state, s.calls ++ [event]⟩

theorem Session.step_of_exec {s t : Session} {event : CacheEvent} (ran : s.exec event = some t) :
    CacheStep s event t := by
  obtain ⟨state, left, rfl⟩ := Option.map_eq_some_iff.mp ran
  cases event with
  | pkgOpen path env result =>
    dsimp only at left
    split_ifs at left with lawful
    obtain ⟨⟨found, next⟩, opened, same⟩ := Option.bind_eq_some_iff.mp left
    split_ifs at same with result
    obtain rfl := Option.some.inj same
    exact result ▸ .pkgOpen lawful opened
  | pkgClose pkg =>
    dsimp only at left
    split_ifs at left with held
    exact .pkgClose held left
  | pkgGc now => exact .pkgGc left
  | blockheapGc =>
    obtain rfl := Option.some.inj left
    exact .blockheapGc

/-- Short runs stay below the bound. -/
theorem countable_of_length {before calls : List CacheEvent} (short : before.length + calls.length < 2 ^ 31) :
    Countable before calls := by
  intro past isPrefix pkg
  have opens : (before ++ past).countP (CacheEvent.opens pkg) ≤ (before ++ past).length := List.countP_le_length
  rw [List.length_append] at opens
  have less := isPrefix.length_le
  unfold outstanding
  omega

/-- Two packages are opened, one of them twice; each is closed once. -/
def smallCalls : List CacheEvent :=
  [.pkgOpen ['a'] smallEnv (some ⟨4096, 1⟩), .pkgOpen ['b'] { smallEnv with open_ := some 4 } (some ⟨4096, 0⟩),
    .pkgOpen ['a'] smallEnv (some ⟨4096, 1⟩), .pkgClose ⟨4096, 1⟩, .pkgClose ⟨4096, 0⟩]

/-- Later the idle one is released, and the heaps are collected. -/
def smallSweep : List CacheEvent := [.pkgGc 31, .blockheapGc]

theorem smallCalls_run : ∃ s t, Run CacheStep ⟨smallCache, []⟩ smallCalls s ∧ Run CacheStep s smallSweep t ∧
    s.state.listed = [⟨4096, 1⟩, ⟨4096, 0⟩] ∧ t.state.listed = [⟨4096, 1⟩] := by
  have ran : ((smallCalls.foldlM Session.exec ⟨smallCache, []⟩).bind fun s => (smallSweep.foldlM Session.exec s).map
      fun t => (s.state.listed, t.state.listed)) = some ([⟨4096, 1⟩, ⟨4096, 0⟩], [⟨4096, 1⟩]) := by
    decide +kernel
  obtain ⟨s, first, ran⟩ := Option.bind_eq_some_iff.mp ran
  obtain ⟨t, second, listed⟩ := Option.map_eq_some_iff.mp ran
  have sound : ∀ (s : Session) (event : CacheEvent) (t : Session), s.exec event = some t → CacheStep s event t :=
    fun _ _ _ => Session.step_of_exec
  exact ⟨s, t, .of_foldlM sound first, .of_foldlM sound second, Prod.ext_iff.mp listed⟩

theorem pkg_cache_safety_small : ∃ s t, Run CacheStep ⟨smallCache, []⟩ smallCalls s ∧ Run CacheStep s smallSweep t ∧
    t.state.listed = [⟨4096, 1⟩] ∧ outstanding ⟨4096, 1⟩ smallCalls = 1 ∧
    (∃ handle, s.state.pkgHeap.read ⟨4096, 1⟩ = some handle ∧ handle.refcnt.toInt = 1) ∧
    ⟨4096, 1⟩ ∈ t.state.pkgHeap.allocated ∧ t.state.name ⟨4096, 1⟩ = s.state.name ⟨4096, 1⟩ := by
  obtain ⟨s, t, run, later, before, after⟩ := smallCalls_run
  obtain ⟨-, counted, kept, -⟩ :=
    pkg_cache_safety smallCache_initial run (countable_of_length (by decide))
  have one : outstanding ⟨4096, 1⟩ smallCalls = 1 := by decide
  obtain ⟨handle, read, count, -⟩ := counted ⟨4096, 1⟩ (by simp [before])
  rw [one] at count
  have used : ∀ past ∈ smallSweep.inits, 0 < outstanding ⟨4096, 1⟩ (smallCalls ++ past) := by decide
  obtain ⟨-, allocated, name, -⟩ := kept ⟨4096, 1⟩ (by rw [one]; decide) smallSweep t later
    (countable_of_length (by decide)) fun past isPrefix => used past ((List.mem_inits ..).mpr isPrefix)
  exact ⟨s, t, run, later, after, one, ⟨handle, read, count⟩, allocated, name⟩

/-- Without the bound, `2 ^ 31` opens of one path leave a listed handle with a negative count. -/
theorem pkg_cache_refcnt_wraps : ∃ events s pkg handle, Initial smallCache ∧
    Run CacheStep ⟨smallCache, []⟩ events s ∧ pkg ∈ s.state.listed ∧
    s.state.pkgHeap.read pkg = some handle ∧ outstanding pkg events = 2 ^ 31 ∧
    handle.refcnt.toInt < 0 := by
  obtain ⟨pkg, opens⟩ := smallCache_opens ['a']
  obtain ⟨s, node, handle, run, rep, -, count⟩ := opens (2 ^ 31 - 1)
  refine ⟨_, s, pkg, handle, smallCache_initial, run, ?_, ?_, ?_, ?_⟩
  · rw [rep.listed_eq]
    exact List.mem_singleton.mpr rfl
  · exact rep.ptr_read (List.mem_singleton.mpr rfl)
  · rw [outstanding_replicate]
    decide
  · rw [count]
    decide

end FsPkg.Pkg
