import FsPkg.Proofs.FuseRuns

/-! # Sessions come to rest

While no message comes in, every step of a thread brings it closer to having nothing left to do, and a thread that has
something to do can take its step. What is left at the end are INTERRUPT messages that wait for their requests.
-/

namespace FsPkg.Fuse

open Machine

variable {pending waiting : List ReqPtr} {received : List FuseIn} {s s' : Session} {fuel : ℕ} {a : Action}

/-- No message comes in. -/
def Action.Quiet : Action → Prop
  | .receive _ _ => False
  | _ => True

theorem received_of_quiet (quiet : a.Quiet) : a.received = [] := by
  cases a with
  | receive => exact quiet.elim
  | own | reply | free | bounce | mark | release => rfl

namespace Session

/-- How many steps the threads have before them. -/
def load (s : Session) : ℕ :=
  2 * s.inFlight.length + s.answered.length + s.bouncing.length + 2 * s.marking.length + s.releasing.length

theorem own_eq {req : ReqPtr} {in_ : FuseIn} (done : s.own req in_ = some s') : ∃ ll, s' = s.wrote req in_ ll := by
  unfold Session.own at done
  split at done
  · obtain ⟨ll, -, same⟩ := Option.bind_eq_some_iff.mp done
    exact ⟨ll, (Option.some.inj same).symm⟩
  · obtain ⟨ll, -, same⟩ := Option.bind_eq_some_iff.mp done
    exact ⟨ll, (Option.some.inj same).symm⟩
  · exact ⟨s.ll, (Option.some.inj done).symm⟩
  · obtain ⟨ll, -, same⟩ := Option.bind_eq_some_iff.mp done
    exact ⟨ll, (Option.some.inj same).symm⟩

theorem load_wrote {req : ReqPtr} {in_ : FuseIn} (member : (req, in_) ∈ s.inFlight) (ll : Ll) :
    (s.wrote req in_ ll).load < s.load := by
  have erased := List.length_erase_of_mem member
  have positive := List.length_pos_of_mem member
  simp only [load, wrote, List.length_append, List.length_singleton]
  omega

/-- A step that no message comes with leaves less to do. -/
theorem load_lt (enabled : s.Enabled a) (done : s.step fuel a = some s') (quiet : a.Quiet) : s'.load < s.load := by
  cases a with
  | receive address in_ => exact quiet.elim
  | own req in_ =>
    obtain ⟨ll, rfl⟩ := own_eq done
    exact load_wrote enabled.1 ll
  | reply req in_ error payload =>
    obtain ⟨ll, -, same⟩ := Option.bind_eq_some_iff.mp done
    obtain rfl := Option.some.inj same
    exact load_wrote enabled.1 ll
  | free req =>
    obtain ⟨ll, -, same⟩ := Option.bind_eq_some_iff.mp done
    obtain rfl := Option.some.inj same
    have member : req ∈ s.answered := enabled
    have erased := List.length_erase_of_mem member
    have positive := List.length_pos_of_mem member
    simp only [load]
    omega
  | bounce intr =>
    obtain ⟨ll, -, same⟩ := Option.bind_eq_some_iff.mp done
    obtain rfl := Option.some.inj same
    have member : intr ∈ s.bouncing := enabled
    have erased := List.length_erase_of_mem member
    have positive := List.length_pos_of_mem member
    simp only [load]
    omega
  | mark intr curr =>
    obtain ⟨mem, -, same⟩ := Option.bind_eq_some_iff.mp done
    obtain rfl := Option.some.inj same
    have member : (intr, curr) ∈ s.marking := enabled
    have erased := List.length_erase_of_mem member
    have positive := List.length_pos_of_mem member
    simp only [load, List.length_append, List.length_singleton]
    omega
  | release intr curr =>
    obtain ⟨mem, -, same⟩ := Option.bind_eq_some_iff.mp done
    obtain rfl := Option.some.inj same
    have member : (intr, curr) ∈ s.releasing := enabled
    have erased := List.length_erase_of_mem member
    have positive := List.length_pos_of_mem member
    simp only [load]
    omega

/-- A thread that has something to do can take a step. -/
theorem exists_enabled (busy : s.load ≠ 0) : ∃ a : Action, a.Quiet ∧ s.Enabled a := by
  by_contra stuck
  simp only [not_exists, not_and] at stuck
  apply busy
  have inFlight : s.inFlight = [] := by
    apply List.eq_nil_iff_forall_not_mem.mpr
    rintro ⟨req, in_⟩ member
    by_cases own : in_.body.isOwn
    · exact stuck (.own req in_) trivial ⟨member, own⟩
    · exact stuck (.reply req in_ 0 .empty) trivial ⟨member, by simp [own]⟩
  have answered : s.answered = [] :=
    List.eq_nil_iff_forall_not_mem.mpr fun req member => stuck (.free req) trivial member
  have bouncing : s.bouncing = [] :=
    List.eq_nil_iff_forall_not_mem.mpr fun intr member => stuck (.bounce intr) trivial member
  have marking : s.marking = [] :=
    List.eq_nil_iff_forall_not_mem.mpr fun pair member => stuck (.mark pair.1 pair.2) trivial member
  have releasing : s.releasing = [] :=
    List.eq_nil_iff_forall_not_mem.mpr fun pair member => stuck (.release pair.1 pair.2) trivial member
  simp only [load, inFlight, answered, bouncing, marking, releasing, List.length_nil]

/-- What is left to do gets done. -/
theorem Sound.rests (sound : s.Sound pending waiting received) (enough : received.length < fuel) :
    ∃ more s' pending' waiting', Run (Session.Step fuel) s more s' ∧ (∀ a ∈ more, Action.Quiet a) ∧
      s'.load = 0 ∧ s'.Sound pending' waiting' received := by
  induction left : s.load using Nat.strong_induction_on generalizing s pending waiting with
  | _ n ih =>
    rcases eq_or_ne s.load 0 with rest | busy
    · exact ⟨[], s, pending, waiting, .start, fun a member => absurd member List.not_mem_nil, rest, sound⟩
    · obtain ⟨a, quiet, enabled⟩ := exists_enabled busy
      obtain ⟨s₁, pending₁, waiting₁, done, sound₁⟩ := sound.step enough enabled
      rw [received_of_quiet quiet, List.append_nil] at sound₁
      obtain ⟨more, s', pending', waiting', run, silent, rest, sound'⟩ :=
        ih s₁.load (left ▸ load_lt enabled done quiet) sound₁ rfl
      refine ⟨a :: more, s', pending', waiting', run.cons ⟨enabled, done⟩, ?_, rest, sound'⟩
      intro b member
      rcases List.mem_cons.mp member with rfl | later
      · exact quiet
      · exact silent b later

end Session

/-- From every state that is reached the threads can go on, without another message, until none has a record left. Every
request with a record has been answered then, and only INTERRUPT messages that wait for their requests are still there. -/
theorem fuse_rest_run {s₀ : Session} (fresh : s₀.Fresh) {actions : List Action}
    (run : Run (Session.Step fuel) s₀ actions s) (enough : actions.length < fuel) :
    ∃ more s', Run (Session.Step fuel) s more s' ∧ (∀ a ∈ more, Action.Quiet a) ∧ s'.load = 0 ∧
      (∃ waiting, Ring s'.ll.mem.links .interrupts waiting ∧ Counted s'.ll.mem.counts waiting) ∧
      ∀ u, (((messages actions).filter FuseIn.wantsAnswer).map FuseIn.unique).count u ≤
        (s'.ll.sent.map Out.unique).count u := by
  obtain ⟨pending, waiting, sound⟩ := fresh.sound_of_run run enough.le
  obtain ⟨more, s', pending', waiting', on, silent, rest, sound'⟩ :=
    sound.rests (Nat.lt_of_le_of_lt (length_messages actions) enough)
  have nothing : s'.inFlight = [] ∧ s'.answered = [] ∧ s'.alone = [] ∧ s'.held = [] := by
    simp only [Session.load, Nat.add_eq_zero_iff, Nat.mul_eq_zero, List.length_eq_zero_iff] at rest
    obtain ⟨⟨⟨⟨flies, answered⟩, bouncing⟩, marking⟩, releasing⟩ := rest
    simp_all [Session.alone, Session.held]
  obtain ⟨flies, answered, alone, held⟩ := nothing
  refine ⟨more, s', on, silent, rest, ⟨waiting', sound'.records.interrupts, ?_⟩, fun u => ?_⟩
  · have order := sound'.order
    rw [flies, answered] at order
    obtain rfl := List.perm_nil.mp order
    have counted := sound'.records.counted
    rwa [alone, held, List.nil_append, List.append_nil, List.append_nil] at counted
  · have kept := sound'.kept u
    rwa [flies, List.filter_nil, List.map_nil, List.count_nil, Nat.add_zero] at kept

theorem fuse_rest_run_opening : ∃ more s', Run (Session.Step 9) (openingSession 4) more s' ∧
    (∀ a ∈ more, Action.Quiet a) ∧ s'.load = 0 ∧
      (∃ waiting, Ring s'.ll.mem.links .interrupts waiting ∧ Counted s'.ll.mem.counts waiting) ∧
      ∀ u, (((messages openingActions).filter FuseIn.wantsAnswer).map FuseIn.unique).count u ≤
        (s'.ll.sent.map Out.unique).count u :=
  fuse_rest_run newSession_fresh openingSession_run (by decide)

end FsPkg.Fuse
