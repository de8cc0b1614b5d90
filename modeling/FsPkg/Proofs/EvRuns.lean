import FsPkg.Machine.Run
import FsPkg.Proofs.EvOperations
import Mathlib.Algebra.Order.BigOperators.Group.Finset
import Mathlib.Algebra.Order.Group.Int

/-! # Runs of the event loop

Whatever the program and its callbacks do to a loop, in any order, the checks of `ev_loop_verify` pass and no assertion
of the library fails that does not test an argument. The loop then behaves as a plain schedule: which timers run until
when, and which events each watcher is waiting to be called with.
-/

namespace FsPkg.Ev

open Machine

variable {I J T : Type*} [DecidableEq I] [DecidableEq J] [LinearOrder T] [Zero T] [Add T] [Sub T] {s s' : Loop I J T}
  {op : Op I J T}

/-! ## All operations -/

/-- The operations that test their arguments, and fail: a timer that is to be started repeats after a negative time, or
a watcher waits for events that there are not. No callback is called but the next one. -/
def Op.Rejected (s : Loop I J T) : Op I J T → Prop
  | .timerStart w => s.timers.heap.active w = 0 ∧ s.timers.repeat_ w < 0
  | .timerAgain w => s.timers.heap.active w = 0 ∧ s.timers.repeat_ w < 0
  | .ioStart x => s.fds.active x = 0 ∧ s.fds.events x &&& ~~~(evIofdset ||| evRead ||| evWrite) ≠ 0
  | .callPending pri called => ∀ p, Ev.callPending pri s.pendings ≠ some (called, p)
  | _ => False

omit [DecidableEq I] [DecidableEq J] [Add T] [Sub T] in
/-- Only the queues change, and the priorities that count stay in range. -/
theorem Loop.Sound.queues (sound : s.Sound) {p : Pendings (I ⊕ J)} (pendings : p.Sound)
    (inRange : ∀ w, ¬ s.Idle w → p.priority w = s.pendings.priority w) : Loop.Sound { s with pendings := p } where
  timers := sound.timers
  pendings := pendings
  fds := sound.fds
  timerPriority w running := by
    rw [Pendings.InRange, inRange (.inr w) running]
    exact sound.timerPriority w running
  ioPriority w running := by
    rw [Pendings.InRange, inRange (.inl w) running]
    exact sound.ioPriority w running
  activecnt := sound.activecnt

theorem exec_callPending {pri : ℕ} {called : Option ((I ⊕ J) × UInt32)} : (Op.callPending pri called).exec s = some s' ↔
    ∃ p, callPending pri s.pendings = some (called, p) ∧ { s with pendings := p } = s' := by
  cases found : callPending pri s.pendings with
  | none => simp [Op.exec, found]
  | some next =>
    obtain ⟨other, p⟩ := next
    simp only [Op.exec, found, Option.some.injEq, Prod.mk.injEq]
    split_ifs with same
    · simp [same]
    · simp [same]

/-- An operation keeps the invariant and does to the schedule what it is for. -/
theorem Step.spec [AddRightMono T] (sound : s.Sound) (step : Step s op s') :
    s'.Sound ∧ s.schedule.Step op s'.schedule := by
  obtain ⟨allowed, ran⟩ := step
  cases op with
  | timerSet w after repeat_ =>
    obtain rfl := Option.some.inj ran
    have timers : (evTimerSet w after repeat_ s.timers).Sound := sound.timers.set_idle allowed
      (fun v other => Function.update_of_ne other _ _) fun v other => Function.update_of_ne other _ _
    exact ⟨⟨timers, sound.pendings, sound.fds, sound.timerPriority, sound.ioPriority, sound.activecnt⟩, rfl⟩
  | timerStart w => exact evTimerStart_spec sound ran
  | timerStop w =>
    obtain ⟨_, stopped, sound', schedule, -⟩ := evTimerStop_spec sound w
    obtain rfl := Option.some.inj (stopped.symm.trans ran)
    exact ⟨sound', schedule⟩
  | timerAgain w => exact evTimerAgain_spec sound ran
  | ioSet x fd events =>
    obtain rfl := Option.some.inj ran
    have fds := evIoSet_sound sound.fds allowed fd events
    exact ⟨⟨sound.timers, sound.pendings, fds, sound.timerPriority, sound.ioPriority, sound.activecnt⟩, rfl⟩
  | ioStart x => exact evIoStart_spec sound ran
  | ioStop x =>
    obtain ⟨_, stopped, sound', schedule⟩ := evIoStop_spec sound x
    obtain rfl := Option.some.inj (stopped.symm.trans ran)
    exact ⟨sound', schedule⟩
  | setPriority w pri =>
    obtain rfl := Option.some.inj ran
    obtain ⟨idle, waits⟩ := allowed
    obtain ⟨pendings, waiting⟩ := sound.pendings.prioritize (w := w) pri fun busy => absurd waits busy
    refine ⟨sound.queues pendings fun v busy => ?_, ?_⟩
    · have other : v ≠ w := fun same => busy (same ▸ idle)
      exact Function.update_of_ne other _ _
    · simp only [Schedule.Step, Loop.schedule, waiting]
  | feedEvent w revents =>
    obtain rfl := Option.some.inj ran
    exact evFeedEvent_spec sound allowed revents
  | clearPending w =>
    obtain rfl := Option.some.inj ran
    obtain ⟨pendings, waiting⟩ := clearPending_sound (w := w) sound.pendings
    refine ⟨sound.queues pendings fun v _ => congrFun clearPending_priority v, ?_⟩
    simp only [Schedule.Step, Schedule.clear, Loop.schedule, waiting, clearPending_priority]
  | feedFdEvent fd revents =>
    obtain rfl := Option.some.inj ran
    exact evFeedFdEvent_spec sound fd revents
  | fdReify =>
    obtain rfl := Option.some.inj ran
    obtain ⟨fds, -, reified⟩ := fdReify_sound sound.fds
    have count : (fdReify s.fds).count = s.fds.count := by
      unfold Fds.count
      rw [reified.anfdmax]
      refine Finset.sum_congr rfl fun fd _ => ?_
      rw [reified.anfds]
      split_ifs <;> rfl
    refine ⟨⟨sound.timers, sound.pendings, fds, sound.timerPriority, fun x running => ?_, ?_⟩, ?_⟩
    · rw [reified.active] at running
      exact sound.ioPriority x running
    · rw [count]
      exact sound.activecnt
    · simp only [Schedule.Step, Loop.schedule, reified.active, reified.fields]
  | timeUpdate haveMonotonic clock maxBlock minTimejump =>
    obtain rfl := Option.some.inj ran
    exact timeUpdate_spec sound haveMonotonic clock maxBlock minTimejump
  | timersReify =>
    obtain ⟨_, reified, sound', schedule⟩ := timersReify_spec sound
    obtain rfl := Option.some.inj (reified.symm.trans ran)
    exact ⟨sound', schedule⟩
  | callPending pri called =>
    obtain ⟨p, found, rfl⟩ := exec_callPending.mp ran
    obtain ⟨pendings, due, waiting⟩ := callPending_sound sound.pendings found
    have priority := callPending_priority found
    refine ⟨sound.queues pendings fun v _ => congrFun priority v, ?_⟩
    cases called with
    | none =>
      have same : p.waiting = s.pendings.waiting := funext fun v => (waiting v).trans (by simp)
      simp only [Schedule.Step, Loop.schedule, priority, same]
    | some call =>
      obtain ⟨w, events⟩ := call
      obtain ⟨level, waits⟩ := due w events rfl
      refine ⟨level, waits, ?_⟩
      have cleared : p.waiting = Function.update s.pendings.waiting w none := by
        funext v
        rw [waiting]
        rcases eq_or_ne v w with rfl | other
        · simp
        · simp [other, other.symm]
      simp only [Schedule.clear, Loop.schedule, priority, cleared]

/-- No other assertion of the library fails, and `timers_reify` comes to an end. -/
theorem Op.exec_eq_none_iff (sound : s.Sound) : op.exec s = none ↔ op.Rejected s := by
  cases op with
  | timerStart w =>
    simp only [Op.exec, Op.Rejected, evTimerStart]
    split_ifs with busy positive
    · simp [busy]
    · simp [not_lt.mpr positive]
    · simp [not_not.mp busy, not_le.mp positive]
  | timerStop w =>
    obtain ⟨_, stopped, -⟩ := evTimerStop_spec sound w
    simp [Op.exec, Op.Rejected, stopped]
  | timerAgain w =>
    obtain ⟨_, stopped, -⟩ := evTimerStop_spec sound w
    simp only [Op.exec, Op.Rejected, evTimerAgain, stopped]
    split_ifs with busy repeats repeats
    · simp [busy]
    · simp [busy]
    · simp only [evTimerStart, if_neg busy]
      split_ifs with positive
      · simp [not_lt.mpr positive]
      · simp [not_not.mp busy, not_le.mp positive]
    · simp [not_not.mp repeats]
  | ioStart x =>
    simp only [Op.exec, Op.Rejected, evIoStart]
    split_ifs with busy legal
    · simp [busy]
    · simp [legal]
    · simp [not_not.mp busy, legal]
  | ioStop x =>
    obtain ⟨_, stopped, -⟩ := evIoStop_spec sound x
    simp [Op.exec, Op.Rejected, stopped]
  | timersReify =>
    obtain ⟨_, reified, -⟩ := timersReify_spec sound
    simp [Op.exec, Op.Rejected, reified]
  | callPending pri called =>
    rw [Option.eq_none_iff_forall_ne_some]
    simp only [ne_eq, exec_callPending, Op.Rejected]
    constructor
    · intro never p found
      exact never _ ⟨p, found, rfl⟩
    · rintro never _ ⟨p, found, -⟩
      exact never p found
  | _ => simp [Op.exec, Op.Rejected]

/-! ## Runs -/

/-- The invariant holds in every state of a run, and the run is one of the schedule. -/
theorem run_spec [AddRightMono T] {start : Loop I J T} {ops : List (Op I J T)} (fresh : start.Fresh)
    (run : Run Step start ops s) :
    s.Sound ∧ Run Schedule.Step start.schedule ops s.schedule := by
  refine run.history (I := fun ops s => s.Sound ∧ Run Schedule.Step start.schedule ops s.schedule)
    ⟨fresh.sound, .start⟩ ?_
  rintro past source op target - ⟨sound, abstract⟩ step
  obtain ⟨sound', next⟩ := step.spec sound
  exact ⟨sound', abstract.snoc next⟩

/-- The operations of a list, one after the other. -/
def Loop.execAll : List (Op I J T) → Loop I J T → Option (Loop I J T)
  | [], s => some s
  | op :: ops, s => if op.Allowed s then op.exec s >>= execAll ops else none

theorem run_of_execAll {ops : List (Op I J T)} (ran : s.execAll ops = some s') : Run Step s ops s' := by
  induction ops generalizing s with
  | nil =>
    obtain rfl := Option.some.inj ran
    exact .start
  | cons op ops ih =>
    simp only [Loop.execAll] at ran
    split_ifs at ran with allowed
    obtain ⟨next, first, rest⟩ := Option.bind_eq_some_iff.mp ran
    exact .cons ⟨allowed, first⟩ (ih rest)

/-- A loop of one descriptor watcher and two timers that was just made. -/
def freshLoop : Loop (Fin 1) (Fin 2) ℤ where
  mnNow := 0
  activecnt := 0
  timers := ⟨⟨fun _ => ⟨0, 0⟩, fun _ => 0⟩, 0, 0, fun _ => 0, fun _ => 0⟩
  pendings := ⟨fun _ => [], fun _ => 0, fun _ => 0, fun _ => 0⟩
  fds := ⟨fun _ => ⟨[], 0, 0⟩, 0, [], 0, fun _ => 0, fun _ => 0, fun _ => 0, fun _ => 0⟩

theorem freshLoop_fresh : freshLoop.Fresh where
  activecnt := rfl
  timercnt := rfl
  idle w := by cases w <;> rfl
  pending _ := rfl
  pendings _ := rfl
  anfdmax := rfl
  fdchanges := rfl
  modified _ := rfl

/-- A timer that repeats and one that does not expire together, and a descriptor can be read. -/
def busyTurn : List (Op (Fin 1) (Fin 2) ℤ) :=
  [.timerSet 0 5 3, .timerStart 0, .timerSet 1 2 0, .timerStart 1, .ioSet 0 4 evRead, .ioStart 0,
    .timeUpdate true 9 0 0,
    .timersReify, .feedFdEvent 4 evRead, .fdReify]

theorem busyTurn_runs : ∃ s, Run Step freshLoop busyTurn s := by
  have ran : (freshLoop.execAll busyTurn).isSome := by decide +kernel
  obtain ⟨s, ran⟩ := Option.isSome_iff_exists.mp ran
  exact ⟨s, run_of_execAll ran⟩

/-! ## Checks -/

omit [Zero T] [Add T] [Sub T] [LinearOrder T] [DecidableEq I] [DecidableEq J] in
theorem verifyWatcher_of_sound {W : Type*} [DecidableEq W] {p : Pendings W} {w : W} (sound : p.Sound)
    (inRange : p.InRange w) :
    verifyWatcher p w = true := by
  have known : p.pending w = 0 ∨ (p.pendings (p.abspri w))[p.pending w - 1]?.map Anpending.w = some (some w) := by
    rcases eq_or_ne (p.pending w) 0 with idle | busy
    · exact .inl idle
    · obtain ⟨events, found⟩ := sound.entry w busy
      exact .inr (by rw [found]; rfl)
  obtain ⟨low, high⟩ := inRange
  simp only [verifyWatcher, Bool.and_eq_true, decide_eq_true_eq, Bool.or_eq_true, beq_iff_eq]
  refine ⟨⟨by omega, ?_⟩, known⟩
  simp only [evMinpri, evMaxpri, numpri] at low high ⊢
  omega

omit [Add T] [Sub T] in
theorem evLoopVerify_of_sound (sound : s.Sound) : evLoopVerify s = true := by
  have timers : verifyHeap s = true := by
    simp only [verifyHeap, List.all_eq_true, List.mem_range, Bool.and_eq_true, Bool.or_eq_true, beq_iff_eq,
      decide_eq_true_eq]
    intro n bound
    have low : heap0 ≤ n + heap0 := by omega
    have high : n + heap0 < s.timers.timercnt + heap0 := by omega
    have busy := sound.timers.active_iff.mpr ⟨n + heap0, low, high, rfl⟩
    refine ⟨⟨⟨sound.timers.indexed _ low high, ?_⟩, sound.timers.cached _ low high⟩,
      verifyWatcher_of_sound sound.pendings (sound.timerPriority _ busy)⟩
    rcases low.eq_or_lt with root | below
    · exact .inl root.symm
    · exact .inr (sound.timers.ordered _ _ ⟨below, high, rfl⟩)
  have descriptors : ∀ fd < s.fds.anfdmax, ∀ w ∈ (s.fds.anfds fd).head,
      (verifyWatcher s.pendings (.inl w) = true ∧ s.fds.active w = 1) ∧ s.fds.fd w = fd := by
    intro fd bound w member
    obtain ⟨busy, place⟩ := sound.fds.member fd bound w member
    exact ⟨⟨verifyWatcher_of_sound sound.pendings (sound.ioPriority w busy), (sound.fds.listed w busy).1⟩, place⟩
  have count := sound.activecnt
  have room := sound.timers.room
  simp only [evLoopVerify, Bool.and_eq_true, List.all_eq_true, List.mem_range, beq_iff_eq, decide_eq_true_eq]
  exact ⟨⟨⟨⟨⟨by omega, sound.fds.room⟩, descriptors⟩, by omega⟩, timers⟩, fun pri _ => sound.pendings.room pri⟩

/-- In every run the checks of `ev_loop_verify` pass, and an operation aborts only where it refuses its arguments. -/
theorem evLoopVerify_run [AddRightMono T] {start : Loop I J T} {ops : List (Op I J T)} (fresh : start.Fresh)
    (run : Run Step start ops s) : evLoopVerify s = true ∧ ∀ op : Op I J T, op.exec s = none ↔ op.Rejected s :=
  have sound := (run_spec fresh run).1
  ⟨evLoopVerify_of_sound sound, fun _ => Op.exec_eq_none_iff sound⟩

theorem evLoopVerify_busyTurn : ∃ s, Run Step freshLoop busyTurn s ∧ evLoopVerify s = true := by
  obtain ⟨s, run⟩ := busyTurn_runs
  exact ⟨s, run, (evLoopVerify_run freshLoop_fresh run).1⟩

/-- Every run of the loop is a run of its schedule: heap, indices, caches and queues cannot be told from a map. -/
theorem schedule_run [AddRightMono T] {start : Loop I J T} {ops : List (Op I J T)} (fresh : start.Fresh)
    (run : Run Step start ops s) : Run Schedule.Step start.schedule ops s.schedule :=
  (run_spec fresh run).2

theorem schedule_busyTurn : ∃ a, Run Schedule.Step freshLoop.schedule busyTurn a := by
  obtain ⟨s, run⟩ := busyTurn_runs
  exact ⟨s.schedule, schedule_run freshLoop_fresh run⟩

/-! ## The backend -/

/-- After `fd_reify` the backend has been told of exactly the events that some watcher of a descriptor waits for. -/
theorem fdReify_run [AddRightMono T] {start : Loop I J T} {ops : List (Op I J T)} (fresh : start.Fresh)
    (run : Run Step start (ops ++ [.fdReify]) s) (fd : ℕ) (m : UInt8) :
    s.fds.modified fd &&& m ≠ 0 ↔ ∃ w, s.fds.active w ≠ 0 ∧ s.fds.fd w = fd ∧ (s.fds.events w).toUInt8 &&& m ≠ 0 := by
  have sound := (run_spec fresh run).1.fds
  have told : ∀ fd, fd < s.fds.anfdmax → s.fds.modified fd = s.fds.wanted fd := by
    obtain ⟨before, rest, -, ran⟩ := run.last
    obtain rfl := Option.some.inj ran
    obtain ⟨-, told, reified⟩ := fdReify_sound (run_spec fresh rest).1.fds
    intro fd bound
    rw [reified.anfdmax] at bound
    rw [told fd bound, reified.wanted]
  rcases lt_or_ge fd s.fds.anfdmax with bound | outside
  · rw [told fd bound, Fds.wanted, foldl_or_and]
    simp [sound.active_iff bound, and_assoc]
  · rw [sound.untold fd outside]
    refine iff_of_false (by simp) ?_
    rintro ⟨w, busy, rfl, -⟩
    exact absurd (sound.listed w busy).2.1 (not_lt.mpr outside)

theorem fdReify_busyTurn : ∃ s, Run Step freshLoop busyTurn s ∧ (s.fds.modified 4 &&& evRead.toUInt8 ≠ 0 ↔
    ∃ w, s.fds.active w ≠ 0 ∧ s.fds.fd w = 4 ∧ (s.fds.events w).toUInt8 &&& evRead.toUInt8 ≠ 0) := by
  obtain ⟨s, run⟩ := busyTurn_runs
  have reified : Run Step freshLoop (busyTurn.dropLast ++ [.fdReify]) s := run
  exact ⟨s, run, fdReify_run freshLoop_fresh reified 4 _⟩

/-! ## Delivery -/

/-- The call that a step makes. -/
def Op.called : Op I J T → Option ((I ⊕ J) × UInt32)
  | .callPending _ called => called
  | _ => none

/-- The step is a turn of `call_pending`. -/
def Op.Calls : Op I J T → Prop
  | .callPending _ _ => True
  | _ => False

omit [DecidableEq I] [DecidableEq J] [Zero T] [Add T] [Sub T] [LinearOrder T] in
theorem Loop.nothing_waits (empty : ∀ pri, s.pendings.pendings pri = []) (sound : s.pendings.Sound) (w : I ⊕ J) :
    s.pendings.waiting w = none := by
  rw [Option.eq_none_iff_forall_ne_some]
  intro events waits
  obtain ⟨pri, i, found⟩ := sound.waiting_iff.mp waits
  rw [empty pri] at found
  cases found

/-- Besides turns of `call_pending`, the operation does nothing to what a watcher is waiting for: it neither feeds it nor
stops it nor takes back what it was fed. -/
def Op.Spares (w : I ⊕ J) : Op I J T → Prop
  | .timerStop v | .timerAgain v => .inr v ≠ w
  | .ioStop v => .inl v ≠ w
  | .feedEvent v _ | .clearPending v => v ≠ w
  | .feedFdEvent _ _ => w.isRight
  | .timersReify => w.isLeft
  | _ => True

/-- The call a watcher is waiting for. -/
def Schedule.awaited (a : Schedule I J T) (w : I ⊕ J) : List ((I ⊕ J) × UInt32) :=
  ((a.waiting w).map fun events => (w, events)).toList

omit [DecidableEq I] [DecidableEq J] [Zero T] [Add T] [Sub T] [LinearOrder T] in
theorem Schedule.awaited_congr {a a' : Schedule I J T} {w : I ⊕ J} (same : a'.waiting w = a.waiting w) :
    a'.awaited w = a.awaited w := by
  rw [awaited, awaited, same]

omit [Zero T] [Add T] [Sub T] [LinearOrder T] in
theorem Schedule.waiting_clear {a : Schedule I J T} {v w : I ⊕ J} (other : v ≠ w) :
    (a.clear v).waiting w = a.waiting w :=
  Function.update_of_ne other.symm _ _

/-- An operation that spares a watcher leaves it waiting, or is the call. -/
theorem Schedule.Step.awaited {a a' : Schedule I J T} (step : a.Step op a') {w : I ⊕ J} (spares : op.Spares w) :
    op.called.toList.filter (·.1 = w) ++ a'.awaited w = a.awaited w := by
  cases op with
  | callPending pri called =>
    cases called with
    | none =>
      obtain rfl := step
      rfl
    | some call =>
      obtain ⟨v, events⟩ := call
      obtain ⟨-, waits, rfl⟩ := step
      rcases eq_or_ne v w with rfl | other
      · simp [Op.called, Schedule.awaited, Schedule.clear, waits]
      · simp [Op.called, other, Schedule.awaited, Schedule.waiting_clear other]
  | timerStart v =>
    obtain rfl := step
    apply Schedule.awaited_congr
    simp only [Schedule.start]
    split_ifs <;> rfl
  | timerStop v =>
    obtain rfl := step
    apply Schedule.awaited_congr
    simp only [Schedule.stop]
    split_ifs <;> exact Schedule.waiting_clear spares
  | timerAgain v =>
    obtain rfl := step
    apply Schedule.awaited_congr
    simp only [Schedule.again, Schedule.stop, Schedule.start]
    split_ifs <;> first | rfl | exact Schedule.waiting_clear spares
  | ioStart v =>
    obtain rfl := step
    apply Schedule.awaited_congr
    simp only [Schedule.watch]
    split_ifs <;> rfl
  | ioStop v =>
    obtain rfl := step
    exact Schedule.awaited_congr (Schedule.waiting_clear spares)
  | feedEvent v revents =>
    obtain rfl := step
    exact Schedule.awaited_congr (Function.update_of_ne (Ne.symm spares) _ _)
  | clearPending v =>
    obtain rfl := step
    exact Schedule.awaited_congr (Schedule.waiting_clear spares)
  | feedFdEvent fd revents =>
    obtain rfl := step
    obtain ⟨v, rfl⟩ := Sum.isRight_iff.mp spares
    rfl
  | timersReify =>
    obtain rfl := step
    obtain ⟨v, rfl⟩ := Sum.isLeft_iff.mp spares
    rfl
  | timeUpdate haveMonotonic clock maxBlock minTimejump =>
    obtain rfl := step
    apply Schedule.awaited_congr
    simp only [Schedule.tick]
    split_ifs <;> rfl
  | timerSet | ioSet | setPriority | fdReify =>
    obtain rfl := step
    rfl

/-- What a watcher has been called with so far and what it still waits for are what it was waiting for. -/
theorem calls_spec [AddRightMono T] {calls : List (Op I J T)} (sound : s.Sound) (run : Run Step s calls s') {w : I ⊕ J}
    (spares : ∀ op ∈ calls, op.Spares w) :
    s'.Sound ∧ (calls.filterMap Op.called).filter (·.1 = w) ++ s'.schedule.awaited w = s.schedule.awaited w := by
  induction run with
  | start => exact ⟨sound, by simp⟩
  | @snoc past source target op run last ih =>
    obtain ⟨before, heard⟩ := ih fun op member => spares op (List.mem_append_left _ member)
    obtain ⟨after, step⟩ := last.spec before
    apply And.intro after
    have next := step.awaited (spares op (List.mem_append_right _ (List.mem_singleton_self _)))
    rw [← heard, ← next, List.filterMap_append, List.filter_append, List.append_assoc]
    congr 2

/-- A turn of `call_pending` takes one entry off a queue that is not empty. -/
theorem callPending_progress {pri : ℕ} (waits : s.pendings.pendings pri ≠ []) :
    ∃ called s', Step s (.callPending pri called) s' ∧
      s'.pendings.pendings = Function.update s.pendings.pendings pri (s.pendings.pendings pri).dropLast := by
  obtain ⟨⟨owner, events⟩, last⟩ := Option.isSome_iff_exists.mp (List.getLast?_isSome.mpr waits)
  cases owner with
  | none => exact ⟨none, _, ⟨trivial, exec_callPending.mpr ⟨_, by rw [callPending, last], rfl⟩⟩, rfl⟩
  | some w => exact ⟨some (w, events), _, ⟨trivial, exec_callPending.mpr ⟨_, by rw [callPending, last], rfl⟩⟩, rfl⟩

/-- The turns of `call_pending` come to an end, whatever is in the queues. -/
theorem drained_exists [AddRightMono T] (sound : s.Sound) : ∃ calls s', Run Step s calls s' ∧ (∀ op ∈ calls, op.Calls) ∧
    ∀ pri, s'.pendings.pendings pri = [] := by
  induction total : ∑ pri ∈ Finset.range numpri, (s.pendings.pendings pri).length
    using Nat.strongRecOn generalizing s with
  | ind n ih =>
    rcases Classical.em (∀ pri, s.pendings.pendings pri = []) with empty | waits
    · exact ⟨[], s, .start, by simp, empty⟩
    · obtain ⟨pri, waits⟩ := not_forall.mp waits
      have inside : pri ∈ Finset.range numpri := by
        rw [Finset.mem_range]
        by_contra outside
        exact waits (sound.pendings.levels pri (not_lt.mp outside))
      obtain ⟨called, s1, step, queues⟩ := callPending_progress waits
      have shorter : ∑ i ∈ Finset.range numpri, (s1.pendings.pendings i).length < n := by
        rw [← total]
        refine Finset.sum_lt_sum (fun i _ => ?_) ⟨pri, inside, ?_⟩
        · rw [queues]
          rcases eq_or_ne i pri with rfl | other
          · simp
          · simp [other]
        · have positive := List.length_pos_of_ne_nil waits
          rw [queues, Function.update_self, List.length_dropLast]
          omega
      obtain ⟨calls, s', rest, only, empty⟩ := ih _ shorter (step.spec sound).1 rfl
      refine ⟨_, s', .cons step rest, fun op member => ?_, empty⟩
      rcases List.mem_cons.mp member with rfl | later
      · exact trivial
      · exact only op later

/-- In every state that a run reaches, `call_pending` comes to an end. When the queues are empty, whatever the callbacks
have done to other watchers, each watcher that they spared has been called once, with all it was waiting for, or not at
all if it was not waiting. -/
theorem callPending_run [AddRightMono T] {start : Loop I J T} {ops : List (Op I J T)} (fresh : start.Fresh)
    (run : Run Step start ops s) :
    (∃ calls s', Run Step s calls s' ∧ (∀ op ∈ calls, op.Calls) ∧ ∀ pri, s'.pendings.pendings pri = []) ∧
    ∀ calls s', Run Step s calls s' → (∀ pri, s'.pendings.pendings pri = []) →
      ∀ w, (∀ op ∈ calls, op.Spares w) →
        (calls.filterMap Op.called).filter (·.1 = w) = s.schedule.awaited w := by
  have sound := (run_spec fresh run).1
  refine ⟨drained_exists sound, fun calls s' drain empty w spares => ?_⟩
  obtain ⟨sound', heard⟩ := calls_spec sound drain spares
  have none : s'.schedule.awaited w = [] := by
    rw [Schedule.awaited, show s'.schedule.waiting w = none from Loop.nothing_waits empty sound'.pendings w]
    rfl
  rw [← heard, none, List.append_nil]

/-- The queues are emptied after that turn; the first callback stops a timer that is waiting. -/
def stoppingCalls : List (Op (Fin 1) (Fin 2) ℤ) :=
  [.callPending 2 (some (.inl 0, evRead)), .timerStop 1, .callPending 2 (some (.inr 0, evTimeout)),
    .callPending 2 none]

theorem stoppingCalls_run : ∃ s s', Run Step freshLoop busyTurn s ∧ Run Step s stoppingCalls s' ∧
    ∀ pri, s'.pendings.pendings pri = [] := by
  have ran : ((freshLoop.execAll busyTurn).bind fun s => (s.execAll stoppingCalls).map fun s' =>
      (List.range numpri).all fun pri => (s'.pendings.pendings pri).isEmpty) = some true := by decide +kernel
  obtain ⟨s, first, ran⟩ := Option.bind_eq_some_iff.mp ran
  obtain ⟨s', second, empty⟩ := Option.map_eq_some_iff.mp ran
  refine ⟨s, s', run_of_execAll first, run_of_execAll second, fun pri => ?_⟩
  rcases lt_or_ge pri numpri with inside | outside
  · have none := List.all_eq_true.mp empty pri (List.mem_range.mpr inside)
    rwa [List.isEmpty_iff] at none
  · have sound := (run_spec freshLoop_fresh ((run_of_execAll first).append (run_of_execAll second))).1
    exact sound.pendings.levels pri outside

theorem callPending_busyTurn : ∃ s s', Run Step freshLoop busyTurn s ∧ Run Step s stoppingCalls s' ∧
    (∃ calls s', Run Step s calls s' ∧ (∀ op ∈ calls, op.Calls) ∧ ∀ pri, s'.pendings.pendings pri = []) ∧
    [(.inl 0, evRead)] = s.schedule.awaited (.inl 0) ∧ [(.inr 0, evTimeout)] = s.schedule.awaited (.inr 0) := by
  obtain ⟨s, s', run, calls, empty⟩ := stoppingCalls_run
  obtain ⟨ends, called⟩ := callPending_run freshLoop_fresh run
  refine ⟨s, s', run, calls, ends, ?_, ?_⟩
  · exact called stoppingCalls s' calls empty (.inl 0) (by simp [stoppingCalls, Op.Spares])
  · exact called stoppingCalls s' calls empty (.inr 0) (by simp [stoppingCalls, Op.Spares])

end FsPkg.Ev
