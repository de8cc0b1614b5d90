import FsPkg.Proofs.EvTimers
import Mathlib.Algebra.BigOperators.Group.Finset.Basic
import Mathlib.Algebra.BigOperators.Intervals
import Mathlib.Data.List.Basic
import Mathlib.Data.List.Induction
import Mathlib.Tactic.Tauto

/-! # The descriptors of `ev.c`

The watchers of a descriptor may change many times before the backend is told. What it was told last is kept beside the
watchers, and whenever that is not what they want, the descriptor is among the changes for `fd_reify` to look at. The
flag that keeps a descriptor from being noted twice is not set by a watcher that only writes and was started before, so
a descriptor may be noted more than once.
-/

namespace FsPkg.Ev

variable {I : Type*} {s : Fds I} {w v : I} {fd : ℕ}

/-- The watchers of a descriptor are those that were started for it, and the backend knows their interest in it unless
it is to be told. -/
structure Fds.Sound (s : Fds I) : Prop where
  listed : ∀ w, s.active w ≠ 0 → s.active w = 1 ∧ s.fd w < s.anfdmax ∧ w ∈ (s.anfds (s.fd w)).head
  member : ∀ fd, fd < s.anfdmax → ∀ w ∈ (s.anfds fd).head, s.active w ≠ 0 ∧ s.fd w = fd
  nodup : ∀ fd, fd < s.anfdmax → (s.anfds fd).head.Nodup
  mask : ∀ w, s.active w ≠ 0 → s.events w &&& ~~~(evRead ||| evWrite) = 0
  told : ∀ fd, fd < s.anfdmax → s.modified fd = (s.anfds fd).events
  untold : ∀ fd, s.anfdmax ≤ fd → s.modified fd = 0
  reified : ∀ fd, fd < s.anfdmax → (s.anfds fd).events = s.wanted fd ∨ fd ∈ s.fdchanges
  flagged : ∀ fd, fd < s.anfdmax → (s.anfds fd).reify ≠ 0 → fd ∈ s.fdchanges
  changes : ∀ fd ∈ s.fdchanges, fd < s.anfdmax
  room : s.fdchanges.length ≤ s.fdchangemax

theorem Fds.Sound.active_iff (sound : s.Sound) (bound : fd < s.anfdmax) :
    w ∈ (s.anfds fd).head ↔ s.active w ≠ 0 ∧ s.fd w = fd := by
  constructor
  · exact sound.member fd bound w
  · rintro ⟨active, rfl⟩
    exact (sound.listed w active).2.2

/-! ## Interest -/

/-- An event is wanted if one of the watchers waits for it. -/
theorem foldl_or_and (f : I → UInt8) (m : UInt8) (l : List I) (a : UInt8) :
    l.foldl (fun events w => events ||| f w) a &&& m ≠ 0 ↔ a &&& m ≠ 0 ∨ ∃ w ∈ l, f w &&& m ≠ 0 := by
  induction l generalizing a with
  | nil => simp
  | cons w l ih =>
    have distributes : (a ||| f w) &&& m ≠ 0 ↔ a &&& m ≠ 0 ∨ f w &&& m ≠ 0 := by
      have split : (a ||| f w) &&& m = a &&& m ||| f w &&& m :=
        UInt8.toBitVec_inj.mp (by simp [BitVec.and_or_distrib_right])
      rw [split, ne_eq, UInt8.or_eq_zero_iff]
      tauto
    rw [List.foldl_cons, ih, distributes]
    simp [or_assoc]

/-- The wanted events go by the watchers of the descriptor and their events alone. -/
theorem wanted_congr {s' : Fds I} (heads : (s'.anfds fd).head = (s.anfds fd).head)
    (events : ∀ w ∈ (s.anfds fd).head, s'.events w = s.events w) : s'.wanted fd = s.wanted fd := by
  unfold Fds.wanted
  rw [heads]
  exact List.foldl_ext _ _ _ fun a w member => by rw [events w member]

/-! ## Changes -/

/-- What `fd_change` does: the descriptor is among the changes, and the watchers are the same. -/
structure Noted (s : Fds I) (fd : ℕ) (s' : Fds I) : Prop where
  head : ∀ x, (s'.anfds x).head = (s.anfds x).head
  anfdEvents : ∀ x, (s'.anfds x).events = (s.anfds x).events
  reify : ∀ x, x ≠ fd → (s'.anfds x).reify = (s.anfds x).reify
  anfdmax : s'.anfdmax = s.anfdmax
  modified : s'.modified = s.modified
  active : s'.active = s.active
  fields : s'.fd = s.fd ∧ s'.events = s.events
  changes : ∀ x, x ∈ s'.fdchanges ↔ x = fd ∨ x ∈ s.fdchanges
  room : s'.fdchanges.length ≤ s'.fdchangemax

theorem fdChange_noted (flagged : (s.anfds fd).reify ≠ 0 → fd ∈ s.fdchanges) (room : s.fdchanges.length ≤ s.fdchangemax)
    (flags : UInt8) : Noted s fd (fdChange fd flags s) := by
  have heads : ∀ x, (Function.update s.anfds fd { s.anfds fd with reify := (s.anfds fd).reify ||| flags } x).head =
      (s.anfds x).head := by
    intro x
    rcases eq_or_ne x fd with rfl | other
    · simp
    · simp [other]
  have events : ∀ x, (Function.update s.anfds fd { s.anfds fd with reify := (s.anfds fd).reify ||| flags } x).events =
      (s.anfds x).events := by
    intro x
    rcases eq_or_ne x fd with rfl | other
    · simp
    · simp [other]
  unfold fdChange
  dsimp only
  split_ifs with set
  · exact ⟨heads, events, fun x other => by simp [other], rfl, rfl, rfl, ⟨rfl, rfl⟩, fun x => by simp [or_comm],
      by rw [List.length_append]; exact le_arrayNeedsize _ _ (by decide)⟩
  · refine ⟨heads, events, fun x other => by simp [other], rfl, rfl, rfl, ⟨rfl, rfl⟩, fun x => ⟨Or.inr, ?_⟩, room⟩
    rintro (rfl | noted)
    exacts [flagged set, noted]

/-- The array of descriptors grows with empty ones. -/
theorem anfdsNeedsize_sound (sound : s.Sound) (fd : ℕ) :
    (anfdsNeedsize fd s).Sound ∧ fd < (anfdsNeedsize fd s).anfdmax ∧
    s.anfdmax ≤ (anfdsNeedsize fd s).anfdmax := by
  have larger : s.anfdmax ≤ (anfdsNeedsize fd s).anfdmax := self_le_arrayNeedsize _ _ (by decide)
  have old : ∀ x, x < s.anfdmax → (anfdsNeedsize fd s).anfds x = s.anfds x := by
    intro x bound
    simp [anfdsNeedsize, bound]
  have new : ∀ x, s.anfdmax ≤ x → x < (anfdsNeedsize fd s).anfdmax → (anfdsNeedsize fd s).anfds x = ⟨[], 0, 0⟩ := by
    intro x low high
    exact if_pos ⟨low, high⟩
  refine ⟨⟨fun w active => ?_, fun x bound w member => ?_, fun x bound => ?_, sound.mask, fun x bound => ?_,
    fun x bound => ?_,
    fun x bound => ?_, fun x bound set => ?_, fun x noted => (sound.changes x noted).trans_le larger, sound.room⟩,
    le_arrayNeedsize _ _ (by decide), larger⟩
  · obtain ⟨one, bound, member⟩ := sound.listed w active
    exact ⟨one, bound.trans_le larger, by rwa [show (anfdsNeedsize fd s).fd w = s.fd w from rfl, old _ bound]⟩
  · rcases lt_or_ge x s.anfdmax with before | behind
    · rw [old x before] at member
      exact sound.member x before w member
    · rw [new x behind bound] at member
      cases member
  · rcases lt_or_ge x s.anfdmax with before | behind
    · rw [old x before]
      exact sound.nodup x before
    · rw [new x behind bound]
      exact List.nodup_nil
  · rcases lt_or_ge x s.anfdmax with before | behind
    · rw [old x before]
      exact sound.told x before
    · rw [new x behind bound]
      exact sound.untold x behind
  · exact sound.untold x (larger.trans bound)
  · rcases lt_or_ge x s.anfdmax with before | behind
    · rw [old x before, wanted_congr (congrArg Anfd.head (old x before)) fun _ _ => rfl]
      exact sound.reified x before
    · left
      simp [Fds.wanted, new x behind bound]
  · rcases lt_or_ge x s.anfdmax with before | behind
    · rw [old x before] at set
      exact sound.flagged x before set
    · rw [new x behind bound] at set
      exact absurd rfl set

/-! ## `fd_reify` -/

/-- What the loop of `fd_reify` has done after the changes `done`. -/
structure Reified (s : Fds I) (done : List ℕ) (s' : Fds I) : Prop where
  anfds : ∀ x, s'.anfds x = if x ∈ done then ⟨(s.anfds x).head, s.wanted x, 0⟩ else s.anfds x
  modified : ∀ x, s'.modified x = if x ∈ done then s.wanted x else s.modified x
  anfdmax : s'.anfdmax = s.anfdmax
  active : s'.active = s.active
  fields : s'.fd = s.fd ∧ s'.events = s.events
  room : s'.fdchangemax = s.fdchangemax

theorem Reified.wanted {done : List ℕ} {s' : Fds I} (reified : Reified s done s') (x : ℕ) :
    s'.wanted x = s.wanted x := by
  refine wanted_congr ?_ fun w _ => by rw [reified.fields.2]
  rw [reified.anfds]
  split_ifs <;> rfl

theorem Reified.next {done : List ℕ} {s' : Fds I} (told : ∀ x, x = fd → s.modified x = (s.anfds x).events)
    (reified : Reified s done s') : Reified s (done ++ [fd]) (fdReifyOne s' fd) := by
  have told' : s'.modified fd = (s'.anfds fd).events := by
    rw [reified.anfds, reified.modified]
    split_ifs
    · rfl
    · exact told fd rfl
  have anfds : ∀ x, (fdReifyOne s' fd).anfds x =
      if x = fd then { s'.anfds fd with events := s'.wanted fd, reify := 0 } else s'.anfds x := by
    intro x
    unfold fdReifyOne
    dsimp only
    split_ifs <;> simp_all
  have modified : ∀ x, (fdReifyOne s' fd).modified x = if x = fd then s'.wanted fd else s'.modified x := by
    intro x
    unfold fdReifyOne
    dsimp only
    split_ifs <;> simp_all
  refine ⟨fun x => ?_, fun x => ?_, ?_, ?_, ?_, ?_⟩
  · rw [anfds, reified.wanted]
    rcases eq_or_ne x fd with rfl | other
    · rw [if_pos rfl, if_pos (by simp), reified.anfds]
      split_ifs <;> rfl
    · rw [if_neg other, reified.anfds]
      simp [other]
  · rw [modified, reified.wanted]
    rcases eq_or_ne x fd with rfl | other
    · rw [if_pos rfl, if_pos (by simp)]
    · rw [if_neg other, reified.modified]
      simp [other]
  all_goals
    unfold fdReifyOne
    dsimp only
    split_ifs
  any_goals exact reified.anfdmax
  any_goals exact reified.active
  any_goals exact reified.fields
  any_goals exact reified.room

theorem reified_fold (sound : s.Sound) : ∀ done : List ℕ, (∀ fd ∈ done, fd < s.anfdmax) →
    Reified s done (done.foldl fdReifyOne s) := by
  intro done
  induction done using List.reverseRecOn with
  | nil => exact fun _ => ⟨fun x => by simp, fun x => by simp, rfl, rfl, ⟨rfl, rfl⟩, rfl⟩
  | append_singleton done fd ih =>
    intro bounds
    rw [List.foldl_append]
    refine (ih fun x member => bounds x (by simp [member])).next ?_
    rintro x rfl
    exact sound.told x (bounds x (by simp))

/-- After `fd_reify` the backend knows the interest of all watchers. -/
theorem fdReify_sound (sound : s.Sound) : (fdReify s).Sound ∧
    (∀ fd, fd < s.anfdmax → (fdReify s).modified fd = s.wanted fd) ∧ Reified s s.fdchanges (fdReify s) := by
  have fold := reified_fold sound s.fdchanges sound.changes
  have reified : Reified s s.fdchanges (fdReify s) :=
    ⟨fold.anfds, fold.modified, fold.anfdmax, fold.active, fold.fields, fold.room⟩
  have heads : ∀ x, ((fdReify s).anfds x).head = (s.anfds x).head := by
    intro x
    rw [reified.anfds]
    split_ifs <;> rfl
  have events : ∀ x, x < s.anfdmax → ((fdReify s).anfds x).events = s.wanted x := by
    intro x bound
    rw [reified.anfds]
    split_ifs with noted
    · rfl
    · exact (sound.reified x bound).resolve_right noted
  have modified : ∀ x, x < s.anfdmax → (fdReify s).modified x = s.wanted x := by
    intro x bound
    rw [reified.modified]
    split_ifs with noted
    · rfl
    · rw [sound.told x bound]
      exact (sound.reified x bound).resolve_right noted
  refine ⟨⟨fun w active => ?_, fun x bound w member => ?_, fun x bound => ?_, fun w active => ?_, fun x bound => ?_,
    fun x bound => ?_,
    fun x bound => ?_, fun x bound set => ?_, fun x noted => absurd noted List.not_mem_nil, Nat.zero_le _⟩, modified,
    reified⟩
  · rw [reified.active] at active ⊢
    rw [reified.fields.1, reified.anfdmax, heads]
    exact sound.listed w active
  · rw [heads] at member
    rw [reified.active, reified.fields.1]
    exact sound.member x (reified.anfdmax ▸ bound) w member
  · rw [heads]
    exact sound.nodup x (reified.anfdmax ▸ bound)
  · rw [reified.active] at active
    rw [reified.fields.2]
    exact sound.mask w active
  · rw [reified.anfdmax] at bound
    rw [modified x bound, events x bound]
  · rw [reified.anfdmax] at bound
    have unnoted : x ∉ s.fdchanges := fun noted => absurd (sound.changes x noted) (not_lt.mpr bound)
    rw [reified.modified, if_neg unnoted]
    exact sound.untold x bound
  · rw [reified.anfdmax] at bound
    rw [events x bound, reified.wanted]
    exact .inl rfl
  · rw [reified.anfdmax] at bound
    rw [reified.anfds] at set
    split_ifs at set with noted
    · exact absurd rfl set
    · exact absurd (sound.flagged x bound set) noted

/-! ## Watchers -/

section Watchers

variable [DecidableEq I]

omit [DecidableEq I] in
/-- The watchers of one descriptor change, and the descriptor is noted. -/
theorem Noted.sound {s' : Fds I} {heads : List I} {active : I → ℕ} {events : I → UInt32} (sound : s.Sound)
    (bound : fd < s.anfdmax)
    (noted : Noted { s with anfds := Function.update s.anfds fd { s.anfds fd with head := heads }, active := active }
      fd s')
    (here : ∀ v, v ∈ heads ↔ active v ≠ 0 ∧ s.fd v = fd) (nodup : heads.Nodup)
    (one : ∀ v, active v ≠ 0 → active v = 1)
    (others : ∀ v, s.fd v ≠ fd → active v = s.active v ∧ events v = s.events v)
    (mask : ∀ v, active v ≠ 0 → events v &&& ~~~(evRead ||| evWrite) = 0) :
    Fds.Sound { s' with events := events } := by
  have head : ∀ x, (s'.anfds x).head = if x = fd then heads else (s.anfds x).head := by
    intro x
    rw [noted.head]
    split_ifs with same
    · simp [same]
    · simp [same]
  have elsewhere : ∀ x, x ≠ fd → s'.wanted x = s.wanted x ∧ (s'.anfds x).reify = (s.anfds x).reify := by
    intro x other
    refine ⟨wanted_congr (by rw [head, if_neg other]) fun v _ => by rw [noted.fields.2], ?_⟩
    rw [noted.reify x other]
    simp [other]
  have anfdEvents : ∀ x, (s'.anfds x).events = (s.anfds x).events := by
    intro x
    rw [noted.anfdEvents]
    rcases eq_or_ne x fd with rfl | other
    · simp
    · simp [other]
  have field : s'.fd = s.fd := noted.fields.1
  have running : s'.active = active := noted.active
  have size : s'.anfdmax = s.anfdmax := noted.anfdmax
  have told : s'.modified = s.modified := noted.modified
  refine ⟨fun v busy => ?_, fun x inside v member => ?_, fun x inside => ?_, fun v busy => ?_, fun x inside => ?_,
    fun x outside => ?_,
    fun x inside => ?_, fun x inside set => ?_, fun x change => ?_, noted.room⟩
  · simp only [running, field, size, head] at busy ⊢
    refine ⟨one v busy, ?_⟩
    rcases eq_or_ne (s.fd v) fd with same | other
    · rw [if_pos same, here]
      exact ⟨same ▸ bound, busy, same⟩
    · rw [if_neg other]
      rw [(others v other).1] at busy
      exact (sound.listed v busy).2
  · simp only [running, field, size, head] at inside member ⊢
    split_ifs at member with same
    · rw [same]
      exact (here v).mp member
    · obtain ⟨busy, place⟩ := sound.member x inside v member
      rw [(others v (place ▸ same)).1]
      exact ⟨busy, place⟩
  · simp only [size, head] at inside ⊢
    split_ifs
    · exact nodup
    · exact sound.nodup x inside
  · simp only [running] at busy
    exact mask v busy
  · simp only [size] at inside
    simp only [told, anfdEvents]
    exact sound.told x inside
  · simp only [size] at outside
    simp only [told]
    exact sound.untold x outside
  · simp only [size] at inside
    simp only [anfdEvents]
    rcases eq_or_ne x fd with rfl | other
    · exact .inr ((noted.changes x).mpr (.inl rfl))
    · have wanted : Fds.wanted { s' with events := events } x = s.wanted x := by
        refine wanted_congr (by simp [head, other]) fun v member => ?_
        obtain ⟨-, place⟩ := sound.member x inside v member
        exact (others v (place ▸ other)).2
      rw [wanted]
      exact (sound.reified x inside).imp_right fun change => (noted.changes x).mpr (.inr change)
  · simp only [size] at inside
    rcases eq_or_ne x fd with rfl | other
    · exact (noted.changes x).mpr (.inl rfl)
    · simp only [(elsewhere x other).2] at set
      exact (noted.changes x).mpr (.inr (sound.flagged x inside set))
  · simp only [size]
    rcases (noted.changes x).mp change with rfl | before
    · exact bound
    · exact sound.changes x before

omit [DecidableEq I] in
/-- The number of watchers of all descriptors. -/
def Fds.count (s : Fds I) : ℕ :=
  ∑ fd ∈ Finset.range s.anfdmax, (s.anfds fd).head.length

omit [DecidableEq I] in
/-- One descriptor has other watchers than before. -/
theorem Fds.count_update {s' : Fds I} {heads : List I} (bound : fd < s.anfdmax) (size : s'.anfdmax = s.anfdmax)
    (head : ∀ x, (s'.anfds x).head = if x = fd then heads else (s.anfds x).head) :
    s'.count + (s.anfds fd).head.length = s.count + heads.length := by
  have inside : fd ∈ Finset.range s.anfdmax := Finset.mem_range.mpr bound
  unfold Fds.count
  rw [size, ← Finset.sum_erase_add _ _ inside, ← Finset.sum_erase_add (a := fd) _ _ inside]
  have rest : ∑ x ∈ (Finset.range s.anfdmax).erase fd, (s'.anfds x).head.length =
      ∑ x ∈ (Finset.range s.anfdmax).erase fd, (s.anfds x).head.length := by
    refine Finset.sum_congr rfl fun x member => ?_
    rw [head, if_neg (Finset.ne_of_mem_erase member)]
  rw [rest, head fd, if_pos rfl]
  omega

omit [DecidableEq I] in
theorem anfdsNeedsize_count (s : Fds I) (fd : ℕ) : (anfdsNeedsize fd s).count = s.count := by
  have larger : s.anfdmax ≤ (anfdsNeedsize fd s).anfdmax := self_le_arrayNeedsize _ _ (by decide)
  unfold Fds.count
  rw [← Finset.sum_range_add_sum_Ico _ larger]
  have old : ∑ x ∈ Finset.range s.anfdmax, ((anfdsNeedsize fd s).anfds x).head.length =
      ∑ x ∈ Finset.range s.anfdmax, (s.anfds x).head.length := by
    refine Finset.sum_congr rfl fun x member => ?_
    have inside : ¬ (s.anfdmax ≤ x ∧ x < arrayNeedsize 16 s.anfdmax (fd + 1)) := fun outside =>
      absurd (Finset.mem_range.mp member) (not_lt.mpr outside.1)
    simp [anfdsNeedsize, inside]
  have new : ∑ x ∈ Finset.Ico s.anfdmax (anfdsNeedsize fd s).anfdmax,
      ((anfdsNeedsize fd s).anfds x).head.length = 0 := by
    refine Finset.sum_eq_zero fun x member => ?_
    have range : s.anfdmax ≤ x ∧ x < arrayNeedsize 16 s.anfdmax (fd + 1) := Finset.mem_Ico.mp member
    simp [anfdsNeedsize, range]
  rw [old, new, Nat.add_zero]

/-- A watcher is put on the list of its descriptor, by `ev_io_start`. -/
theorem ioStart_sound (sound : s.Sound) (idle : s.active w = 0)
    (legal : s.events w &&& ~~~(evIofdset ||| evRead ||| evWrite) = 0) :
    let fd := s.fd w
    let grown := anfdsNeedsize fd { s with active := Function.update s.active w 1 }
    let anfd := grown.anfds fd
    let listed := { grown with anfds := Function.update grown.anfds fd { anfd with head := w :: anfd.head } }
    let changed := fdChange fd (s.events w &&& (evIofdset ||| 1)).toUInt8 listed
    let s' : Fds I := { changed with events := Function.update s.events w (s.events w &&& ~~~evIofdset) }
    s'.Sound ∧ s'.count = s.count + 1 ∧ s'.active = Function.update s.active w 1 ∧ s'.fd = s.fd := by
  intro fd grown anfd listed changed s'
  obtain ⟨roomy, bound, -⟩ := anfdsNeedsize_sound sound fd
  have same : ∀ x, grown.anfds x = (anfdsNeedsize fd s).anfds x := fun _ => rfl
  have noted : Noted listed fd changed := fdChange_noted (s := listed)
    (fun set => roomy.flagged fd bound (by simpa [listed, anfd, grown, anfdsNeedsize] using set)) roomy.room _
  have absent : w ∉ ((anfdsNeedsize fd s).anfds fd).head := fun member => (roomy.member fd bound w member).1 idle
  refine ⟨noted.sound roomy bound (fun v => ?_) ?_ (fun v busy => ?_) (fun v other => ?_) (fun v busy => ?_), ?_,
    noted.active, noted.fields.1⟩
  · rw [List.mem_cons]
    have before := roomy.active_iff (w := v) bound
    rcases eq_or_ne v w with rfl | other
    · simp [fd, grown, anfdsNeedsize]
    · simp only [other, false_or, grown, anfdsNeedsize, Function.update_of_ne other]
      exact before
  · exact List.nodup_cons.mpr ⟨absent, roomy.nodup fd bound⟩
  · rcases eq_or_ne v w with rfl | other
    · simp [grown, anfdsNeedsize]
    · simp only [grown, anfdsNeedsize, Function.update_of_ne other] at busy ⊢
      exact (sound.listed v busy).1
  · have different : v ≠ w := fun same => other (by rw [same]; rfl)
    simp [grown, anfdsNeedsize, different]
  · rcases eq_or_ne v w with rfl | other
    · rw [Function.update_self, UInt32.and_assoc]
      exact legal
    · simp only [grown, anfdsNeedsize, Function.update_of_ne other] at busy ⊢
      exact sound.mask v busy
  · have head : ∀ x, (s'.anfds x).head =
        if x = fd then w :: ((anfdsNeedsize fd s).anfds fd).head else ((anfdsNeedsize fd s).anfds x).head := by
      intro x
      refine (noted.head x).trans ?_
      split_ifs with here
      · simp [listed, here, anfd, same]
      · simp [listed, here, same]
    have counted : s'.count + ((anfdsNeedsize fd s).anfds fd).head.length =
        (anfdsNeedsize fd s).count + (w :: ((anfdsNeedsize fd s).anfds fd).head).length :=
      Fds.count_update bound noted.anfdmax head
    rw [List.length_cons, anfdsNeedsize_count] at counted
    omega

/-- A watcher is taken off the list of its descriptor, by `ev_io_stop`. -/
theorem ioStop_sound (sound : s.Sound) (busy : s.active w ≠ 0) :
    let fd := s.fd w
    let anfd := s.anfds fd
    let s' := fdChange fd 1 { s with
      anfds := Function.update s.anfds fd { anfd with head := anfd.head.erase w }
      active := Function.update s.active w 0 }
    s'.Sound ∧ s'.count + 1 = s.count ∧ s'.active = Function.update s.active w 0 ∧ s'.fd = s.fd := by
  intro fd anfd s'
  obtain ⟨-, bound, member⟩ := sound.listed w busy
  let unlisted : Fds I := { s with
    anfds := Function.update s.anfds fd { anfd with head := anfd.head.erase w }
    active := Function.update s.active w 0 }
  have noted : Noted unlisted fd s' := fdChange_noted (s := unlisted)
    (fun set => sound.flagged fd bound (by simpa [unlisted, anfd] using set)) sound.room 1
  have events : s'.events = s.events := noted.fields.2
  refine ⟨?_, ?_, noted.active, noted.fields.1⟩
  · have stopped : Fds.Sound { s' with events := s.events } :=
      noted.sound sound bound (fun v => ?_) ((sound.nodup fd bound).erase w)
      (fun v running => ?_) (fun v other => ?_) (fun v running => ?_)
    · rwa [← events] at stopped
    · rw [(sound.nodup fd bound).mem_erase_iff, sound.active_iff bound]
      rcases eq_or_ne v w with rfl | other
      · simp
      · simp [other]
    · rcases eq_or_ne v w with rfl | other
      · simp at running
      · simp only [Function.update_of_ne other] at running ⊢
        exact (sound.listed v running).1
    · have different : v ≠ w := fun same => other (by rw [same])
      simp [different]
    · rcases eq_or_ne v w with rfl | other
      · simp at running
      · simp only [Function.update_of_ne other] at running
        exact sound.mask v running
  · have head : ∀ x, (s'.anfds x).head = if x = fd then anfd.head.erase w else (s.anfds x).head := by
      intro x
      refine (noted.head x).trans ?_
      split_ifs with here
      · simp [unlisted, here]
      · simp [unlisted, here]
    have counted : s'.count + (s.anfds (s.fd w)).head.length = s.count + ((s.anfds (s.fd w)).head.erase w).length :=
      Fds.count_update bound noted.anfdmax head
    have positive := List.length_pos_of_mem member
    rw [List.length_erase_of_mem member] at counted
    omega

/-- A watcher that is not started may be set to another descriptor. -/
theorem evIoSet_sound (sound : s.Sound) (idle : s.active w = 0) (fd : ℕ) (events : UInt32) :
    (evIoSet w fd events s).Sound := by
  have field : ∀ v, s.active v ≠ 0 →
      (evIoSet w fd events s).fd v = s.fd v ∧ (evIoSet w fd events s).events v = s.events v := by
    intro v busy
    have other : v ≠ w := fun same => busy (same ▸ idle)
    simp [evIoSet, other]
  refine ⟨fun v busy => ?_, fun x bound v member => ?_, sound.nodup, fun v busy => ?_, sound.told, sound.untold,
    fun x bound => ?_,
    sound.flagged, sound.changes, sound.room⟩
  · rw [(field v busy).1]
    exact sound.listed v busy
  · obtain ⟨busy, place⟩ := sound.member x bound v member
    exact ⟨busy, (field v busy).1.trans place⟩
  · rw [(field v busy).2]
    exact sound.mask v busy
  · have wanted : (evIoSet w fd events s).wanted x = s.wanted x :=
      wanted_congr rfl fun v member => (field v (sound.member x bound v member).1).2
    rw [wanted]
    exact sound.reified x bound

end Watchers

end FsPkg.Ev
