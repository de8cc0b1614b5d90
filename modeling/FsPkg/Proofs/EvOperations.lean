import FsPkg.Proofs.EvFds
import FsPkg.Proofs.EvPending
import Mathlib.Data.Set.Card

/-! # Operations on an event loop

Each function of the library keeps the parts of a loop together and does to its schedule what it is for. The heap, the
indices and the queues are only in the invariant.
-/

namespace FsPkg.Ev

variable {I J T : Type*} [LinearOrder T] [Zero T]

/-! ## The invariant -/

/-- The parts of a loop fit together. -/
structure Loop.Sound (s : Loop I J T) : Prop where
  timers : s.timers.Sound
  pendings : s.pendings.Sound
  fds : s.fds.Sound
  timerPriority : ∀ w, s.timers.heap.active w ≠ 0 → s.pendings.InRange (.inr w)
  ioPriority : ∀ w, s.fds.active w ≠ 0 → s.pendings.InRange (.inl w)
  activecnt : s.activecnt = s.timers.timercnt + s.fds.count

theorem Loop.Fresh.sound {s : Loop I J T} (fresh : s.Fresh) : s.Sound where
  timers :=
    { ordered := fun c k child => absurd child.2.1 (by
        have above := child.1
        simp only [fresh.timercnt, layout] at above ⊢
        omega)
      indexed := fun i low high => absurd high (by rw [fresh.timercnt]; omega)
      cached := fun i low high => absurd high (by rw [fresh.timercnt]; omega)
      listed := fun w busy => absurd (fresh.idle (.inr w)) busy
      nonneg := fun w busy => absurd (fresh.idle (.inr w)) busy
      room := .inl fresh.timercnt }
  pendings :=
    { entry := fun w busy => absurd (fresh.pending w) busy
      owner := fun pri i w events found => by simp [fresh.pendings] at found
      inRange := fun w busy => absurd (fresh.pending w) busy
      levels := fun pri _ => fresh.pendings pri
      room := fun pri => by simp [fresh.pendings] }
  fds :=
    { listed := fun w busy => absurd (fresh.idle (.inl w)) busy
      member := fun fd bound => absurd bound (by rw [fresh.anfdmax]; omega)
      nodup := fun fd bound => absurd bound (by rw [fresh.anfdmax]; omega)
      mask := fun w busy => absurd (fresh.idle (.inl w)) busy
      told := fun fd bound => absurd bound (by rw [fresh.anfdmax]; omega)
      untold := fun fd _ => fresh.modified fd
      reified := fun fd bound => absurd bound (by rw [fresh.anfdmax]; omega)
      flagged := fun fd bound => absurd bound (by rw [fresh.anfdmax]; omega)
      changes := fun fd noted => by simp [fresh.fdchanges] at noted
      room := by simp [fresh.fdchanges] }
  timerPriority w busy := absurd (fresh.idle (.inr w)) busy
  ioPriority w busy := absurd (fresh.idle (.inl w)) busy
  activecnt := by simp [fresh.activecnt, fresh.timercnt, Fds.count, fresh.anfdmax]

/-! ## The schedule of a loop -/

/-- What a loop comes to. -/
def Loop.schedule (s : Loop I J T) : Schedule I J T where
  now := s.mnNow
  time := s.timers.at_
  repeat_ := s.timers.repeat_
  running w := decide (s.timers.heap.active w ≠ 0)
  watching w := decide (s.fds.active w ≠ 0)
  fd := s.fds.fd
  events := s.fds.events
  priority := s.pendings.priority
  waiting := s.pendings.waiting

omit [LinearOrder T] [Zero T] in
theorem Timers.active_iff_deadline {t : Timers J T} {w : J} : t.heap.active w ≠ 0 ↔ (t.deadline w).isSome := by
  unfold Timers.deadline
  split_ifs with idle <;> simp [idle]

section Timer

variable [DecidableEq J] {t t' : Timers J T} {w : J} {x : T}

omit [LinearOrder T] [Zero T] in
theorem active_started (changed : t'.deadline = Function.update t.deadline w (some x)) (v : J) :
    t'.heap.active v ≠ 0 ↔ v = w ∨ t.heap.active v ≠ 0 := by
  rw [Timers.active_iff_deadline, Timers.active_iff_deadline, changed]
  rcases eq_or_ne v w with rfl | other
  · simp
  · simp [other]

omit [LinearOrder T] [Zero T] in
theorem active_stopped (changed : t'.deadline = Function.update t.deadline w none) (v : J) :
    t'.heap.active v ≠ 0 ↔ v ≠ w ∧ t.heap.active v ≠ 0 := by
  rw [Timers.active_iff_deadline, Timers.active_iff_deadline, changed]
  rcases eq_or_ne v w with rfl | other
  · simp
  · simp [other]

omit [LinearOrder T] [Zero T] in
theorem running_started (changed : t'.deadline = Function.update t.deadline w (some x)) :
    (fun v => decide (t'.heap.active v ≠ 0)) = Function.update (fun v => decide (t.heap.active v ≠ 0)) w true := by
  funext v
  rcases eq_or_ne v w with rfl | other
  · simpa using (active_started changed v).mpr (.inl rfl)
  · rw [Function.update_of_ne other]
    exact decide_eq_decide.mpr ((active_started changed v).trans (or_iff_right other))

omit [LinearOrder T] [Zero T] in
theorem running_stopped (changed : t'.deadline = Function.update t.deadline w none) :
    (fun v => decide (t'.heap.active v ≠ 0)) = Function.update (fun v => decide (t.heap.active v ≠ 0)) w false := by
  funext v
  rcases eq_or_ne v w with rfl | other
  · simpa using fun busy => ((active_stopped changed v).mp busy).1 rfl
  · rw [Function.update_of_ne other]
    exact decide_eq_decide.mpr ((active_stopped changed v).trans (and_iff_right other))

end Timer

/-! ## Operations -/

section Operations

variable [DecidableEq I] [DecidableEq J] [Add T] [Sub T] {s s' : Loop I J T} {w : J} {x : I}

omit [Sub T] in
theorem evTimerStart_spec (sound : s.Sound) (ran : evTimerStart w s = some s') :
    s'.Sound ∧ s'.schedule = s.schedule.start w := by
  unfold evTimerStart at ran
  dsimp only at ran
  split_ifs at ran with busy positive
  · obtain rfl := Option.some.inj ran
    refine ⟨sound, ?_⟩
    simp [Schedule.start, Loop.schedule, busy]
  · obtain rfl := Option.some.inj ran
    have idle : s.timers.heap.active w = 0 := not_not.mp busy
    obtain ⟨timers, deadline⟩ := upheap_sound sound.timers idle (s.timers.at_ w + s.mnNow) positive
    obtain ⟨pendings, waiting⟩ := priAdjust_sound (w := Sum.inr w) sound.pendings
    refine ⟨⟨timers, pendings, sound.fds, fun v running => ?_,
      fun v running => priAdjust_keeps (sound.ioPriority v running), ?_⟩, ?_⟩
    · rcases (active_started deadline v).mp running with rfl | before
      · exact priAdjust_inRange
      · exact priAdjust_keeps (sound.timerPriority v before)
    · have count := sound.activecnt
      push_cast
      omega
    · have running := running_started deadline
      simp only [Schedule.start, Schedule.clamp, Loop.schedule, idle, ne_eq, not_true_eq_false, decide_false,
        Bool.false_eq_true, if_false, Schedule.mk.injEq, true_and]
      exact ⟨running, rfl, waiting⟩

omit [Add T] in
/-- The watcher is in the cell its index says, so the assertion of `ev_timer_stop` holds. -/
theorem evTimerStop_spec (sound : s.Sound) (w : J) :
    ∃ s', evTimerStop w s = some s' ∧ s'.Sound ∧ s'.schedule = s.schedule.stop w ∧ s'.mnNow = s.mnNow := by
  obtain ⟨pendings, waiting⟩ := clearPending_sound (w := Sum.inr w) sound.pendings
  have priority : (clearPending (Sum.inr w) s.pendings).priority = s.pendings.priority := clearPending_priority
  have inRange : ∀ v, s.pendings.InRange v → (clearPending (Sum.inr w) s.pendings).InRange v := fun v holds => by
    rwa [Pendings.InRange, priority]
  unfold evTimerStop
  dsimp only
  rcases eq_or_ne (s.timers.heap.active w) 0 with idle | busy
  · rw [if_pos idle]
    refine ⟨_, rfl, ⟨sound.timers, pendings, sound.fds, fun v running => inRange _ (sound.timerPriority v running),
      fun v running => inRange _ (sound.ioPriority v running), sound.activecnt⟩, ?_, rfl⟩
    simp [Schedule.stop, Schedule.clear, Loop.schedule, idle, priority, waiting]
  · obtain ⟨low, high, here⟩ := sound.timers.listed w busy
    rw [if_neg busy, if_pos here]
    obtain ⟨timers, deadline⟩ :=
      timersDelete_sound sound.timers busy ((timersDelete s.timers (s.timers.heap.active w)).at_ w - s.mnNow)
    obtain ⟨size, -, time, repeats⟩ := timersDelete_fields s.timers (s.timers.heap.active w)
    refine ⟨_, rfl, ⟨timers, pendings, sound.fds, fun v running => ?_,
      fun v running => inRange _ (sound.ioPriority v running), ?_⟩,
      ?_, rfl⟩
    · exact inRange _ (sound.timerPriority v ((active_stopped deadline v).mp running).2)
    · have count := sound.activecnt
      simp only [size]
      omega
    · have running := running_stopped deadline
      simp only [Schedule.stop, Schedule.clear, Loop.schedule, busy, ne_eq, not_false_eq_true, decide_true, if_true,
        Schedule.mk.injEq, true_and, repeats, time, priority, waiting, and_true]
      exact running

omit [DecidableEq I] [Add T] [Sub T] in
/-- The time of a running timer changes, and its cell goes where it belongs. -/
theorem retimed_spec {h : Heap J T} {y : T} (sound : s.Sound) (busy : s.timers.heap.active w ≠ 0)
    (timers : Timers.Sound { s.timers with at_ := Function.update s.timers.at_ w y, heap := h })
    (deadline : Timers.deadline { s.timers with at_ := Function.update s.timers.at_ w y, heap := h } =
      Function.update s.timers.deadline w (some y)) :
    let s' : Loop I J T := { s with timers := { s.timers with at_ := Function.update s.timers.at_ w y, heap := h } }
    s'.Sound ∧ s'.schedule = { s.schedule with time := Function.update s.schedule.time w y } := by
  intro s'
  have active : ∀ v, h.active v ≠ 0 ↔ s.timers.heap.active v ≠ 0 := fun v =>
    (active_started deadline v).trans (or_iff_right_of_imp fun same => same ▸ busy)
  refine ⟨⟨timers, sound.pendings, sound.fds, fun v running => sound.timerPriority v ((active v).mp running),
    sound.ioPriority,
    sound.activecnt⟩, ?_⟩
  have running : (fun v => decide (h.active v ≠ 0)) = fun v => decide (s.timers.heap.active v ≠ 0) :=
    funext fun v => decide_eq_decide.mpr (active v)
  simp only [Loop.schedule, s', running]

theorem evTimerAgain_spec (sound : s.Sound) (ran : evTimerAgain w s = some s') :
    s'.Sound ∧ s'.schedule = s.schedule.again w := by
  unfold evTimerAgain at ran
  dsimp only at ran
  split_ifs at ran with busy repeats repeats
  · obtain rfl := Option.some.inj ran
    obtain ⟨timers, deadline⟩ := adjustheap_sound sound.timers busy (s.mnNow + s.timers.repeat_ w)
    obtain ⟨sound', schedule⟩ := retimed_spec sound busy timers deadline
    refine ⟨sound', schedule.trans ?_⟩
    simp [Schedule.again, Loop.schedule, busy, repeats]
  · obtain ⟨_, stopped, sound', schedule, -⟩ := evTimerStop_spec sound w
    obtain rfl := Option.some.inj (stopped.symm.trans ran)
    refine ⟨sound', schedule.trans ?_⟩
    simp [Schedule.again, Loop.schedule, busy, not_not.mp repeats]
  · have idle : s.timers.heap.active w = 0 := not_not.mp busy
    let reset : Loop I J T := { s with
      timers := { s.timers with at_ := Function.update s.timers.at_ w (s.timers.repeat_ w) } }
    have timers : reset.timers.Sound :=
      sound.timers.set_idle idle (fun v other => Function.update_of_ne other _ _) fun _ _ => rfl
    have resetSound : reset.Sound :=
      ⟨timers, sound.pendings, sound.fds, sound.timerPriority, sound.ioPriority, sound.activecnt⟩
    obtain ⟨sound', schedule⟩ := evTimerStart_spec resetSound ran
    refine ⟨sound', schedule.trans ?_⟩
    simp [Schedule.again, Loop.schedule, idle, repeats, reset]
  · obtain rfl := Option.some.inj ran
    refine ⟨sound, ?_⟩
    simp [Schedule.again, Loop.schedule, not_not.mp busy, not_not.mp repeats]

omit [Add T] [Sub T] in
theorem evFeedEvent_spec {v : I ⊕ J} (sound : s.Sound) (inRange : s.pendings.InRange v) (revents : UInt32) :
    let s' : Loop I J T := { s with pendings := evFeedEvent v revents s.pendings }
    s'.Sound ∧ s'.schedule = s.schedule.feed v revents := by
  intro s'
  obtain ⟨pendings, waiting⟩ := evFeedEvent_sound sound.pendings inRange revents
  have priority : s'.pendings.priority = s.pendings.priority := evFeedEvent_priority revents
  refine ⟨⟨sound.timers, pendings, sound.fds, fun w running => ?_, fun w running => ?_, sound.activecnt⟩, ?_⟩
  · rw [Pendings.InRange, priority]
    exact sound.timerPriority w running
  · rw [Pendings.InRange, priority]
    exact sound.ioPriority w running
  · simp only [Schedule.feed, Loop.schedule, s', waiting, evFeedEvent_priority]

/-! ## Expiry -/

omit [DecidableEq I] [DecidableEq J] [Add T] [Sub T] [Zero T] in
theorem due_iff {v : J} : s.schedule.due v ↔ s.timers.heap.active v ≠ 0 ∧ s.timers.at_ v < s.mnNow := by
  simp [Schedule.due, Loop.schedule]

omit [DecidableEq I] [DecidableEq J] [Add T] [Sub T] in
/-- The first cell is that of an earliest timer. -/
theorem first_due (sound : s.Sound) (due : s.schedule.due w) :
    s.timers.timercnt ≠ 0 ∧ (s.timers.heap.cell heap0).at_ < s.mnNow := by
  obtain ⟨busy, before⟩ := due_iff.mp due
  obtain ⟨low, high, here⟩ := sound.timers.listed w busy
  refine ⟨by omega, (sound.timers.ordered.root_le _ low high).trans_lt ?_⟩
  have cached := sound.timers.cached _ low high
  rw [here] at cached
  exact cached.trans_lt before

/-- What one turn of `timers_reify` does to a schedule. -/
def Schedule.expireOne (w : J) (a : Schedule I J T) : Schedule I J T :=
  if a.repeat_ w = 0 then (a.stop w).feed (.inr w) evTimeout
  else feed (.inr w) evTimeout { a with time := Function.update a.time w (max a.now (a.time w + a.repeat_ w)) }

theorem timersReifyOne_spec (sound : s.Sound)
    (first : s.timers.timercnt ≠ 0 ∧ (s.timers.heap.cell heap0).at_ < s.mnNow) :
    ∃ s' w, timersReifyOne s = some s' ∧ s'.Sound ∧ s.schedule.due w ∧ s'.schedule = s.schedule.expireOne w := by
  have inside : heap0 < s.timers.timercnt + heap0 := by omega
  have index := sound.timers.indexed heap0 le_rfl inside
  have cached := sound.timers.cached heap0 le_rfl inside
  unfold timersReifyOne
  dsimp only
  generalize (s.timers.heap.cell heap0).w = w at index cached
  have busy : s.timers.heap.active w ≠ 0 := by simp [index, heap0, dheap]
  have inRange := sound.timerPriority w busy
  have due : s.schedule.due w := due_iff.mpr ⟨busy, cached ▸ first.2⟩
  rcases eq_or_ne (s.timers.repeat_ w) 0 with once | again
  · rw [if_neg (not_not.mpr once)]
    obtain ⟨s1, stopped, sound1, schedule, -⟩ := evTimerStop_spec sound w
    have priority : s1.pendings.priority = s.pendings.priority := by
      have fields := congrArg Schedule.priority schedule
      simpa [Schedule.stop, Schedule.clear, Loop.schedule, busy] using fields
    obtain ⟨sound2, fed⟩ := evFeedEvent_spec (v := Sum.inr w) sound1 (by rwa [Pendings.InRange, priority]) evTimeout
    rw [stopped]
    refine ⟨_, w, rfl, sound2, due, ?_⟩
    rw [fed, schedule]
    exact (if_pos once).symm
  · have positive : 0 < s.timers.repeat_ w := lt_of_le_of_ne (sound.timers.nonneg w busy) again.symm
    rw [if_pos again, if_pos positive]
    have next : (if s.timers.at_ w + s.timers.repeat_ w < s.mnNow then s.mnNow
        else s.timers.at_ w + s.timers.repeat_ w) =
        max s.mnNow (s.timers.at_ w + s.timers.repeat_ w) := by
      split_ifs with late
      · exact (max_eq_left late.le).symm
      · exact (max_eq_right (not_lt.mp late)).symm
    rw [next]
    obtain ⟨timers, deadline⟩ := downheap_sound sound.timers index (max s.mnNow (s.timers.at_ w + s.timers.repeat_ w))
    obtain ⟨sound1, schedule⟩ := retimed_spec sound busy timers deadline
    obtain ⟨sound2, fed⟩ := evFeedEvent_spec (v := Sum.inr w) sound1 inRange evTimeout
    refine ⟨_, w, rfl, sound2, due, fed.trans ?_⟩
    rw [schedule]
    exact (if_neg again).symm

/-- Timers expire one by one as they do all at once. -/
theorem Schedule.expire_expireOne {a : Schedule I J T} (due : a.due w) :
    (∀ v, (a.expireOne w).due v = (decide (v ≠ w) && a.due v)) ∧
    (a.expireOne w).expire = a.expire := by
  obtain ⟨runs, late⟩ : a.running w = true ∧ a.time w < a.now := by simpa [Schedule.due] using due
  have fresh : ∀ v, (a.expireOne w).due v = (decide (v ≠ w) && a.due v) := by
    intro v
    unfold expireOne
    split_ifs with once
    · rcases eq_or_ne v w with rfl | other
      · simp [Schedule.due, feed, stop, clear, runs]
      · simp [Schedule.due, feed, stop, clear, runs, other]
    · rcases eq_or_ne v w with rfl | other
      · simp [Schedule.due, feed]
      · simp [Schedule.due, feed, other]
  refine ⟨fresh, ?_⟩
  unfold expire
  simp only [fresh]
  unfold expireOne
  split_ifs with once
  · simp only [feed, stop, runs, if_true, clear]
    refine Schedule.ext rfl (funext fun v => ?_) rfl (funext fun v => ?_) rfl rfl rfl rfl (funext fun v => ?_)
    · rcases eq_or_ne v w with rfl | other
      · simp [due, once]
      · simp [other]
    · rcases eq_or_ne v w with rfl | other
      · simp [due, once]
      · simp [other]
    · rcases v with v | v
      · simp
      · rcases eq_or_ne v w with rfl | other
        · simp [due, once]
        · simp [other]
  · simp only [feed]
    refine Schedule.ext rfl (funext fun v => ?_) rfl (funext fun v => ?_) rfl rfl rfl rfl (funext fun v => ?_)
    · rcases eq_or_ne v w with rfl | other
      · simp [due, once]
      · simp [other]
    · rcases eq_or_ne v w with rfl | other
      · simp [once]
      · simp only [ne_eq, other, not_false_eq_true, decide_true, Bool.true_and]
        rfl
    · rcases v with v | v
      · simp
      · rcases eq_or_ne v w with rfl | other
        · simp [due, once]
        · simp [other]

omit [DecidableEq I] [DecidableEq J] [LinearOrder T] [Add T] [Sub T] [Zero T] in
theorem Schedule.expire_eq_self [LinearOrder T] [Add T] [Sub T] [Zero T] {a : Schedule I J T}
    (none : ∀ v, a.due v = false) :
    a.expire = a := by
  unfold expire
  simp only [none, Bool.false_eq_true, if_false, Bool.false_and, Bool.not_false, Bool.and_true]
  refine Schedule.ext rfl rfl rfl rfl rfl rfl rfl rfl (funext fun v => ?_)
  rcases v with v | v <;> rfl

omit [DecidableEq I] [DecidableEq J] [Add T] [Sub T] in
/-- There are no more timers due than there are timers. -/
theorem ncard_due_le (sound : s.Sound) :
    {v | s.schedule.due v}.Finite ∧ {v | s.schedule.due v}.ncard ≤ s.timers.timercnt := by
  classical
  let watchers := (Finset.range s.timers.timercnt).image fun i => (s.timers.heap.cell (i + heap0)).w
  have covered : {v | s.schedule.due v} ⊆ watchers := by
    intro v due
    obtain ⟨low, high, here⟩ := sound.timers.listed v (due_iff.mp due).1
    refine Finset.mem_coe.mpr
      (Finset.mem_image.mpr ⟨s.timers.heap.active v - heap0, Finset.mem_range.mpr (by omega), ?_⟩)
    rw [Nat.sub_add_cancel low, here]
  refine ⟨watchers.finite_toSet.subset covered, ?_⟩
  calc {v | s.schedule.due v}.ncard ≤ (watchers : Set J).ncard := Set.ncard_le_ncard covered watchers.finite_toSet
    _ = watchers.card := Set.ncard_coe_finset watchers
    _ ≤ s.timers.timercnt := Finset.card_image_le.trans_eq (Finset.card_range _)

/-- Every turn of the loop takes one timer out of those that are due. -/
theorem timersReify_turns (turns : ℕ) (sound : s.Sound) (enough : {v | s.schedule.due v}.ncard ≤ turns) :
    ∃ s', timersReify turns s = some s' ∧ s'.Sound ∧ s'.schedule = s.schedule.expire := by
  induction turns generalizing s with
  | zero =>
    have none : ∀ v, s.schedule.due v = false := by
      intro v
      have empty := (Set.ncard_eq_zero (ncard_due_le sound).1).mp (Nat.le_zero.mp enough)
      simpa using fun due => (Set.eq_empty_iff_forall_notMem.mp empty v) due
    rw [timersReify, if_neg]
    · exact ⟨s, rfl, sound, (Schedule.expire_eq_self none).symm⟩
    · intro first
      obtain ⟨-, w, -, -, due, -⟩ := timersReifyOne_spec sound first
      rw [none w] at due
      cases due
  | succ turns ih =>
    rw [timersReify]
    split_ifs with first
    · obtain ⟨s1, w, ran, sound1, due, schedule⟩ := timersReifyOne_spec sound first
      obtain ⟨fewer, same⟩ := Schedule.expire_expireOne due
      have left : {v | s1.schedule.due v} = {v | s.schedule.due v} \ {w} := by
        ext v
        simp [schedule, fewer, and_comm]
      obtain ⟨s', rest, sound', expired⟩ := ih sound1 (by
        rw [left]
        have smaller := Set.ncard_sdiff_singleton_add_one (a := w) due (ncard_due_le sound).1
        omega)
      refine ⟨s', ?_, sound', by rw [expired, schedule, same]⟩
      rw [ran]
      exact rest
    · have none : ∀ v, s.schedule.due v = false := by
        intro v
        simpa using fun due => first (first_due sound due)
      exact ⟨s, rfl, sound, (Schedule.expire_eq_self none).symm⟩

theorem timersReify_spec (sound : s.Sound) : ∃ s', timersReify s.timers.timercnt s = some s' ∧ s'.Sound ∧
    s'.schedule = s.schedule.expire :=
  timersReify_turns _ sound (ncard_due_le sound).2

/-! ## Descriptors -/

omit [LinearOrder T] [Zero T] [DecidableEq J] [Add T] [Sub T] in
theorem watching_update (active : I → ℕ) (x : I) (n : ℕ) :
    (fun v => decide (Function.update active x n v ≠ 0)) =
      Function.update (fun v => decide (active v ≠ 0)) x (decide (n ≠ 0)) := by
  funext v
  rcases eq_or_ne v x with rfl | other
  · simp
  · simp [other]

omit [Add T] [Sub T] in
theorem watch_spec {f : Fds I} (sound : s.Sound) (idle : s.fds.active x = 0) (fds : f.Sound)
    (count : f.count = s.fds.count + 1) (active : f.active = Function.update s.fds.active x 1) (field : f.fd = s.fds.fd)
    (events : f.events = Function.update s.fds.events x (s.fds.events x &&& ~~~evIofdset)) :
    let s' : Loop I J T := { s with activecnt := s.activecnt + 1, pendings := priAdjust (.inl x) s.pendings, fds := f }
    s'.Sound ∧ s'.schedule = s.schedule.watch x := by
  intro s'
  obtain ⟨pendings, waiting⟩ := priAdjust_sound (w := Sum.inl x) sound.pendings
  refine ⟨⟨sound.timers, pendings, fds, fun v running => priAdjust_keeps (sound.timerPriority v running),
    fun v running => ?_, ?_⟩, ?_⟩
  · rcases eq_or_ne v x with rfl | other
    · exact priAdjust_inRange
    · simp only [s', active, Function.update_of_ne other] at running
      exact priAdjust_keeps (sound.ioPriority v running)
  · have before := sound.activecnt
    simp only [s', count]
    push_cast
    omega
  · simp only [Schedule.watch, Schedule.clamp, Loop.schedule, idle, s', active, field, events, watching_update, waiting]
    rfl

omit [Add T] [Sub T] in
theorem evIoStart_spec (sound : s.Sound) (ran : evIoStart x s = some s') :
    s'.Sound ∧ s'.schedule = s.schedule.watch x := by
  unfold evIoStart at ran
  dsimp only at ran
  split_ifs at ran with busy legal
  · obtain rfl := Option.some.inj ran
    refine ⟨sound, ?_⟩
    simp [Schedule.watch, Loop.schedule, busy]
  · obtain rfl := Option.some.inj ran
    have idle : s.fds.active x = 0 := not_not.mp busy
    obtain ⟨fds, count, active, field⟩ := ioStart_sound sound.fds idle legal
    exact watch_spec sound idle fds count active field rfl

omit [Add T] [Sub T] in
/-- The descriptor of a watcher that is started has a place in the array, so the assertion of `ev_io_stop` holds. -/
theorem evIoStop_spec (sound : s.Sound) (x : I) :
    ∃ s', evIoStop x s = some s' ∧ s'.Sound ∧ s'.schedule = s.schedule.unwatch x := by
  obtain ⟨pendings, waiting⟩ := clearPending_sound (w := Sum.inl x) sound.pendings
  have priority : (clearPending (Sum.inl x) s.pendings).priority = s.pendings.priority := clearPending_priority
  have inRange : ∀ v, s.pendings.InRange v → (clearPending (Sum.inl x) s.pendings).InRange v := fun v holds => by
    rwa [Pendings.InRange, priority]
  unfold evIoStop
  dsimp only
  rcases eq_or_ne (s.fds.active x) 0 with idle | busy
  · rw [if_pos idle]
    refine ⟨_, rfl, ⟨sound.timers, pendings, sound.fds, fun v running => inRange _ (sound.timerPriority v running),
      fun v running => inRange _ (sound.ioPriority v running), sound.activecnt⟩, ?_⟩
    have same : Function.update (fun v => decide (s.fds.active v ≠ 0)) x false =
      fun v => decide (s.fds.active v ≠ 0) := by
      rw [show false = decide (s.fds.active x ≠ 0) by simp [idle]]
      exact Function.update_eq_self x _
    simp only [Schedule.unwatch, Schedule.clear, Loop.schedule, priority, waiting, same]
  · obtain ⟨-, bound, -⟩ := sound.fds.listed x busy
    rw [if_neg busy, if_pos bound]
    obtain ⟨fds, count, active, field⟩ := ioStop_sound sound.fds busy
    refine ⟨_, rfl, ⟨sound.timers, pendings, fds, fun v running => inRange _ (sound.timerPriority v running),
      fun v running => ?_, ?_⟩, ?_⟩
    · rcases eq_or_ne v x with rfl | other
      · simp only [active, Function.update_self, ne_eq, not_true_eq_false] at running
      · simp only [active, Function.update_of_ne other] at running
        exact inRange _ (sound.ioPriority v running)
    · have before := sound.activecnt
      dsimp only
      rw [← count] at before
      push_cast at before
      omega
    · have events : ∀ f : Fds I, (fdChange (s.fds.fd x) 1 f).events = f.events := by
        intro f
        unfold fdChange
        dsimp only
        split_ifs <;> rfl
      simp only [Schedule.unwatch, Schedule.clear, Loop.schedule, active, field, watching_update, priority, waiting,
        events]
      rfl

omit [LinearOrder T] [Zero T] [Add T] [Sub T] in
/-- The loop of `fd_event`. -/
theorem fdEvent_fold (events : I → UInt32) (revents : UInt32) {l : List I} (nodup : l.Nodup) {p : Pendings (I ⊕ J)}
    (sound : p.Sound)
    (inRange : ∀ w ∈ l, p.InRange (.inl w)) :
    let p' := l.foldl (fun p w =>
      if events w &&& revents ≠ 0 then evFeedEvent (.inl w) (events w &&& revents) p else p) p
    p'.Sound ∧ p'.priority = p.priority ∧ (∀ w, p'.waiting (.inr w) = p.waiting (.inr w)) ∧
      ∀ w, p'.waiting (.inl w) = if w ∈ l ∧ events w &&& revents ≠ 0 then
        some (merged (p.waiting (.inl w)) (events w &&& revents)) else p.waiting (.inl w) := by
  induction l generalizing p with
  | nil => exact ⟨sound, rfl, fun _ => rfl, fun w => by simp⟩
  | cons x l ih =>
    obtain ⟨fresh, rest⟩ := List.nodup_cons.mp nodup
    rw [List.foldl_cons]
    split_ifs with interested
    · obtain ⟨fed, waiting⟩ := evFeedEvent_sound sound (inRange x (by simp)) (events x &&& revents)
      have priority := evFeedEvent_priority (w := Sum.inl x) (p := p) (events x &&& revents)
      obtain ⟨sound', priority', timers, descriptors⟩ := ih rest fed fun w member => by
        rw [Pendings.InRange, priority]
        exact inRange w (by simp [member])
      refine ⟨sound', priority'.trans priority, fun w => ?_, fun w => ?_⟩
      · rw [timers, waiting]
        simp
      · rw [descriptors, waiting]
        rcases eq_or_ne w x with rfl | other
        · simp [fresh, interested]
        · simp [other]
    · obtain ⟨sound', priority', timers, descriptors⟩ := ih rest sound fun w member => inRange w (by simp [member])
      refine ⟨sound', priority', timers, fun w => ?_⟩
      rw [descriptors]
      rcases eq_or_ne w x with rfl | other
      · simp [fresh, interested]
      · simp [other]

omit [Add T] [Sub T] in
/-- What `fd_event` feeds is what each watcher of the descriptor is interested in. -/
theorem evFeedFdEvent_spec (sound : s.Sound) (fd : ℕ) (revents : UInt32) :
    let s' : Loop I J T := { s with pendings := evFeedFdEvent s.fds fd revents s.pendings }
    s'.Sound ∧ s'.schedule = s.schedule.ready fd revents := by
  intro s'
  rcases lt_or_ge fd s.fds.anfdmax with bound | outside
  · have members : ∀ w, w ∈ (s.fds.anfds fd).head ↔ s.fds.active w ≠ 0 ∧ s.fds.fd w = fd :=
      fun w => sound.fds.active_iff bound
    obtain ⟨pendings, priority, timers, descriptors⟩ :=
      fdEvent_fold s.fds.events revents (sound.fds.nodup fd bound) sound.pendings
      fun w member => sound.ioPriority w ((members w).mp member).1
    have fed : s'.pendings = fdEvent s.fds fd revents s.pendings := if_pos bound
    have same : s'.pendings.priority = s.pendings.priority := by
      rw [fed]
      exact priority
    refine ⟨⟨sound.timers, by rw [fed]; exact pendings, sound.fds, fun w running => ?_, fun w running => ?_,
      sound.activecnt⟩, ?_⟩
    · rw [Pendings.InRange, same]
      exact sound.timerPriority w running
    · rw [Pendings.InRange, same]
      exact sound.ioPriority w running
    · refine Schedule.ext rfl rfl rfl rfl rfl rfl rfl same (funext fun w => ?_)
      change s'.pendings.waiting w = _
      rw [fed]
      rcases w with w | w
      · refine (descriptors w).trans ?_
        simp [Schedule.ready, Loop.schedule, members, and_assoc]
      · exact timers w
  · have fed : s'.pendings = s.pendings := if_neg (not_lt.mpr outside)
    have unheard : ∀ w, ¬ (s.fds.active w ≠ 0 ∧ s.fds.fd w = fd) := by
      rintro w ⟨busy, rfl⟩
      exact absurd (sound.fds.listed w busy).2.1 (not_lt.mpr outside)
    have unchanged : s' = s := congrArg (fun pendings => { s with pendings := pendings }) fed
    rw [unchanged]
    refine ⟨sound, Schedule.ext rfl rfl rfl rfl rfl rfl rfl rfl (funext fun w => ?_)⟩
    rcases w with w | w
    · have deaf := unheard w
      simp only [Schedule.ready, Loop.schedule, Sum.elim_inl, decide_eq_true_eq]
      rw [if_neg]
      exact fun interested => deaf ⟨interested.1, interested.2.1⟩
    · rfl

/-! ## The clock -/

omit [DecidableEq I] in
theorem timeUpdate_spec [AddRightMono T] (sound : s.Sound) (haveMonotonic : Bool) (clock maxBlock minTimejump : T) :
    (timeUpdate haveMonotonic clock maxBlock minTimejump s).Sound ∧
      (timeUpdate haveMonotonic clock maxBlock minTimejump s).schedule =
        s.schedule.tick haveMonotonic clock maxBlock minTimejump := by
  have still : Loop.Sound { s with mnNow := clock } :=
    ⟨sound.timers, sound.pendings, sound.fds, sound.timerPriority, sound.ioPriority, sound.activecnt⟩
  unfold timeUpdate Schedule.tick
  cases haveMonotonic with
  | true => exact ⟨still, rfl⟩
  | false =>
    simp only [Bool.false_eq_true, if_false, Bool.not_false, true_and, gt_iff_lt]
    split_ifs with jumped jumped' jumped'
    · have shifted := shifted_fold sound.timers (clock - s.mnNow) s.timers.timercnt le_rfl
      obtain ⟨timers, deadline⟩ := shifted.sound sound.timers
      refine ⟨⟨timers, sound.pendings, sound.fds, fun w running => ?_, sound.ioPriority, ?_⟩, ?_⟩
      · simp only [shifted.active] at running
        exact sound.timerPriority w running
      · simp only [shifted.timercnt]
        exact sound.activecnt
      · refine Schedule.ext rfl (funext fun w => ?_) shifted.repeats (funext fun w => ?_) rfl rfl rfl rfl rfl
        · simp only [Loop.schedule, decide_eq_true_eq]
          split_ifs with busy
          · exact shifted.moved w (sound.timers.active_iff.mp busy)
          · exact shifted.kept w (mt sound.timers.active_iff.mpr busy)
        · simp only [Loop.schedule, shifted.active]
    · exact absurd jumped jumped'
    · exact absurd jumped' jumped
    · exact ⟨still, rfl⟩

end Operations

end FsPkg.Ev
