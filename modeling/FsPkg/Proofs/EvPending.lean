import FsPkg.Model.EvSchedule
import FsPkg.Proofs.EvTimers

/-! # The pending events of `ev.c` as a map

A watcher with pending events is in one entry of the queue of its priority and knows its index there; a watcher that was
cleared leaves an entry without a watcher. Read as a map from watchers to events, the queues change at one watcher at a
time: feeding adds events, clearing and calling take them away.
-/

namespace FsPkg.Ev

variable {W : Type*} {p : Pendings W} {w v : W} {pri : ℕ}

/-- `ABSPRI` of the watcher is an index of `pendings`. -/
def Pendings.InRange (p : Pendings W) (w : W) : Prop :=
  evMinpri ≤ p.priority w ∧ p.priority w ≤ evMaxpri

theorem Pendings.InRange.abspri_lt (inRange : p.InRange w) : p.abspri w < numpri := by
  obtain ⟨low, high⟩ := inRange
  simp only [Pendings.abspri, evMinpri, evMaxpri, numpri] at low high ⊢
  omega

/-- The watchers and their entries point at each other. -/
structure Pendings.Sound (p : Pendings W) : Prop where
  entry : ∀ w, p.pending w ≠ 0 → ∃ events, (p.pendings (p.abspri w))[p.pending w - 1]? = some ⟨some w, events⟩
  owner : ∀ (pri i : ℕ) w events, (p.pendings pri)[i]? = some ⟨some w, events⟩ → p.abspri w = pri ∧ p.pending w = i + 1
  inRange : ∀ w, p.pending w ≠ 0 → p.InRange w
  levels : ∀ pri, numpri ≤ pri → p.pendings pri = []
  room : ∀ pri, (p.pendings pri).length ≤ p.pendingmax pri

/-- The events a watcher is waiting to be called with. -/
def Pendings.waiting (p : Pendings W) (w : W) : Option UInt32 :=
  if p.pending w = 0 then none else (p.pendings (p.abspri w))[p.pending w - 1]?.map Anpending.events

/-- A watcher waits for exactly what the entry with its name says. -/
theorem Pendings.Sound.waiting_iff (sound : p.Sound) {events : UInt32} :
    p.waiting w = some events ↔ ∃ pri i : ℕ, (p.pendings pri)[i]? = some ⟨some w, events⟩ := by
  unfold Pendings.waiting
  constructor
  · intro waits
    split_ifs at waits with busy
    obtain ⟨known, found⟩ := sound.entry w busy
    rw [found] at waits
    obtain rfl := Option.some.inj waits
    exact ⟨_, _, found⟩
  · rintro ⟨pri, i, found⟩
    obtain ⟨level, index⟩ := sound.owner pri i w events found
    rw [if_neg (by omega), level, index, Nat.add_sub_cancel, found]
    rfl

/-! ## Changes of one entry -/

section Entry

variable {q : ℕ → List (Anpending W)} {i j level : ℕ} {a : Anpending W}

theorem getElem?_update_modify (f : Anpending W → Anpending W) (found : (q level)[j]? = some a) :
    (Function.update q level ((q level).modify j f) pri)[i]? =
      if pri = level ∧ i = j then some (f a) else (q pri)[i]? := by
  rcases eq_or_ne pri level with rfl | other
  · rw [Function.update_self, List.getElem?_modify]
    rcases eq_or_ne i j with rfl | elsewhere
    · simp [found]
    · simp [elsewhere, elsewhere.symm]
  · simp [other]

theorem getElem?_update_append :
    (Function.update q level (q level ++ [a]) pri)[i]? =
      if pri = level ∧ i = (q level).length then some a else (q pri)[i]? := by
  rcases eq_or_ne pri level with rfl | other
  · rw [Function.update_self]
    rcases lt_trichotomy i (q pri).length with before | rfl | behind
    · rw [List.getElem?_append_left before, if_neg (by omega)]
    · simp
    · rw [List.getElem?_eq_none (by simpa using Nat.succ_le_of_lt behind), List.getElem?_eq_none behind.le,
        if_neg (by omega)]
  · simp [other]

theorem getElem?_update_dropLast :
    (Function.update q level (q level).dropLast pri)[i]? =
      if pri = level ∧ i = (q level).length - 1 then none else (q pri)[i]? := by
  rcases eq_or_ne pri level with rfl | other
  · rw [Function.update_self, List.getElem?_dropLast]
    split_ifs with inside last last
    · omega
    · rfl
    · rfl
    · rw [List.getElem?_eq_none (by omega)]
  · simp [other]

end Entry

section Change

variable [DecidableEq W] {p' : Pendings W} {level j : ℕ} {events : UInt32}

/-- One entry is given to a watcher that has no other. -/
theorem Pendings.Sound.write (sound : p.Sound) (priority : p'.priority = p.priority)
    (lookup : ∀ pri i : ℕ, (p'.pendings pri)[i]? =
      if pri = p.abspri w ∧ i = j then some ⟨some w, events⟩ else (p.pendings pri)[i]?)
    (pending : p'.pending = Function.update p.pending w (j + 1))
    (free : ∀ v known, (p.pendings (p.abspri w))[j]? = some ⟨some v, known⟩ → v = w)
    (only : p.pending w = 0 ∨ p.pending w = j + 1) (inRange : p.InRange w)
    (room : ∀ pri, (p'.pendings pri).length ≤ p'.pendingmax pri) :
    p'.Sound ∧ p'.waiting = Function.update p.waiting w (some events) := by
  have level : p'.abspri = p.abspri := by
    funext v
    simp only [Pendings.abspri, priority]
  have own : ∀ pri i known, (p.pendings pri)[i]? = some ⟨some w, known⟩ → pri = p.abspri w ∧ i = j := by
    intro pri i known found
    have index := sound.owner pri i w known found
    omega
  have sound' : p'.Sound := by
    refine ⟨fun v busy => ?_, fun pri i v known found => ?_, fun v busy => ?_, fun pri high => ?_, room⟩
    · rw [level, pending]
      rcases eq_or_ne v w with rfl | other
      · exact ⟨events, by rw [lookup, Function.update_self, if_pos ⟨rfl, Nat.add_sub_cancel ..⟩]⟩
      · rw [pending, Function.update_of_ne other] at busy
        obtain ⟨known, found⟩ := sound.entry v busy
        refine ⟨known, ?_⟩
        rw [Function.update_of_ne other, lookup, if_neg, found]
        rintro ⟨same, index⟩
        rw [same, index] at found
        exact other (free v known found)
    · rw [lookup] at found
      rw [level, pending]
      split_ifs at found with here
      · simp only [Option.some.injEq, Anpending.mk.injEq] at found
        obtain ⟨rfl, -⟩ := found
        simp [here]
      · have other : v ≠ w := by
          rintro rfl
          exact here (own pri i known found)
        rw [Function.update_of_ne other]
        exact sound.owner pri i v known found
    · simp only [Pendings.InRange, priority]
      rcases eq_or_ne v w with rfl | other
      · exact inRange
      · rw [pending, Function.update_of_ne other] at busy
        exact sound.inRange v busy
    · refine List.eq_nil_of_length_eq_zero (Nat.le_zero.mp (List.getElem?_eq_none_iff.mp ?_))
      have off : ¬ (pri = p.abspri w ∧ 0 = j) := fun same => absurd inRange.abspri_lt (by omega)
      rw [lookup, if_neg off, sound.levels pri high]
      rfl
  refine ⟨sound', funext fun v => Option.ext fun known => ?_⟩
  rw [sound'.waiting_iff]
  rcases eq_or_ne v w with rfl | other
  · rw [Function.update_self]
    constructor
    · rintro ⟨pri, i, found⟩
      rw [lookup] at found
      split_ifs at found with here
      · simpa using found
      · exact absurd (own pri i known found) here
    · intro same
      obtain rfl := Option.some.inj same
      exact ⟨p.abspri v, j, by rw [lookup, if_pos ⟨rfl, rfl⟩]⟩
  · rw [Function.update_of_ne other, sound.waiting_iff]
    refine exists_congr fun pri => exists_congr fun i => ?_
    rw [lookup]
    split_ifs with here
    · obtain ⟨rfl, rfl⟩ := here
      constructor
      · intro same
        simp only [Option.some.injEq, Anpending.mk.injEq] at same
        exact absurd same.1.symm other
      · intro found
        exact absurd (free v known found) other
    · exact Iff.rfl

/-- One entry is taken away, and its watcher, if it has one, waits no more. -/
theorem Pendings.Sound.erase {owner : Option W} (sound : p.Sound) (left : Option (Anpending W))
    (priority : p'.priority = p.priority) (found : (p.pendings level)[j]? = some ⟨owner, events⟩)
    (lookup : ∀ pri i : ℕ, (p'.pendings pri)[i]? = if pri = level ∧ i = j then left else (p.pendings pri)[i]?)
    (nameless : ∀ w events, left ≠ some ⟨some w, events⟩)
    (pending : ∀ v, p'.pending v = if owner = some v then 0 else p.pending v)
    (room : ∀ pri, (p'.pendings pri).length ≤ p'.pendingmax pri) :
    p'.Sound ∧ ∀ v, p'.waiting v = if owner = some v then none else p.waiting v := by
  have same : p'.abspri = p.abspri := by
    funext v
    simp only [Pendings.abspri, priority]
  have kept : ∀ v, p'.pending v ≠ 0 → owner ≠ some v ∧ p.pending v ≠ 0 := by
    intro v busy
    rw [pending] at busy
    split_ifs at busy with owned
    · exact absurd rfl busy
    · exact ⟨owned, busy⟩
  have sound' : p'.Sound := by
    refine ⟨fun v busy => ?_, fun pri i v known present => ?_, fun v busy => ?_, fun pri high => ?_, room⟩
    · obtain ⟨other, busy⟩ := kept v busy
      obtain ⟨known, present⟩ := sound.entry v busy
      refine ⟨known, ?_⟩
      rw [same, pending, if_neg other, lookup, if_neg, present]
      rintro ⟨here, index⟩
      rw [here, index, found] at present
      exact other (by simpa using congrArg Anpending.w (Option.some.inj present))
    · rw [lookup] at present
      split_ifs at present with here
      · exact absurd present (nameless v known)
      · obtain ⟨level', index⟩ := sound.owner pri i v known present
        have other : owner ≠ some v := by
          rintro rfl
          obtain ⟨first, second⟩ := sound.owner level j v events found
          exact here ⟨by omega, by omega⟩
        rw [same, pending, if_neg other]
        exact ⟨level', index⟩
    · simp only [Pendings.InRange, priority]
      exact sound.inRange v (kept v busy).2
    · refine List.eq_nil_of_length_eq_zero (Nat.le_zero.mp (List.getElem?_eq_none_iff.mp ?_))
      have off : ¬ (pri = level ∧ 0 = j) := by
        rintro ⟨rfl, -⟩
        rw [sound.levels pri high] at found
        simp at found
      rw [lookup, if_neg off, sound.levels pri high]
      rfl
  refine ⟨sound', fun v => Option.ext fun known => ?_⟩
  rw [sound'.waiting_iff]
  split_ifs with owned
  · subst owned
    refine iff_of_false ?_ (by simp)
    rintro ⟨pri, i, present⟩
    have index := (sound'.owner pri i v known present).2
    rw [pending, if_pos rfl] at index
    omega
  · rw [sound.waiting_iff]
    refine exists_congr fun pri => exists_congr fun i => ?_
    rw [lookup]
    split_ifs with here
    · obtain ⟨rfl, rfl⟩ := here
      refine iff_of_false (nameless v known) fun present => owned ?_
      rw [found] at present
      simpa using congrArg Anpending.w (Option.some.inj present)
    · exact Iff.rfl

/-! ## The functions -/

theorem evFeedEvent_sound (sound : p.Sound) (inRange : p.InRange w) (revents : UInt32) :
    (evFeedEvent w revents p).Sound ∧
      (evFeedEvent w revents p).waiting = Function.update p.waiting w (some (merged (p.waiting w) revents)) := by
  rcases eq_or_ne (p.pending w) 0 with idle | busy
  · have nothing : p.waiting w = none := by simp [Pendings.waiting, idle]
    simp only [evFeedEvent, idle, ne_eq, not_true_eq_false, if_false, nothing, merged, Option.elim_none]
    refine sound.write (j := (p.pendings (p.abspri w)).length) rfl (fun pri i => getElem?_update_append) rfl ?_
      (.inl idle)
      inRange fun pri => ?_
    · intro v known present
      simp at present
    · rcases eq_or_ne pri (p.abspri w) with rfl | other
      · simp only [Function.update_self, List.length_append, List.length_singleton]
        exact le_arrayNeedsize _ _ (by decide)
      · simpa [other] using sound.room pri
  · obtain ⟨known, found⟩ := sound.entry w busy
    have before : p.waiting w = some known := sound.waiting_iff.mpr ⟨_, _, found⟩
    simp only [evFeedEvent, busy, ne_eq, not_false_eq_true, if_true, before, merged, Option.elim_some]
    refine sound.write (j := p.pending w - 1) rfl (fun pri i => getElem?_update_modify _ found) ?_ ?_ (.inr (by omega))
      inRange fun pri => ?_
    · rw [show p.pending w - 1 + 1 = p.pending w by omega, Function.update_eq_self]
    · intro v events present
      rw [found] at present
      simpa [eq_comm] using congrArg Anpending.w (Option.some.inj present)
    · rcases eq_or_ne pri (p.abspri w) with rfl | other
      · simpa using sound.room (p.abspri w)
      · simpa [other] using sound.room pri

theorem clearPending_sound (sound : p.Sound) :
    (clearPending w p).Sound ∧ (clearPending w p).waiting = Function.update p.waiting w none := by
  rcases eq_or_ne (p.pending w) 0 with idle | busy
  · have nothing : p.waiting w = none := by simp [Pendings.waiting, idle]
    simp only [clearPending, idle, ne_eq, not_true_eq_false, if_false]
    refine ⟨sound, ?_⟩
    rw [← nothing, Function.update_eq_self]
  · obtain ⟨known, found⟩ := sound.entry w busy
    have erased : (clearPending w p).Sound ∧
        ∀ v, (clearPending w p).waiting v = if some w = some v then none else p.waiting v := by
      simp only [clearPending, busy, ne_eq, not_false_eq_true, if_true]
      refine sound.erase (some ⟨none, known⟩) rfl found (fun pri i => getElem?_update_modify _ found) (by simp) ?_ ?_
      · intro v
        rcases eq_or_ne v w with rfl | other
        · simp
        · simp [other, other.symm]
      · intro pri
        rcases eq_or_ne pri (p.abspri w) with rfl | other
        · simpa using sound.room (p.abspri w)
        · simpa [other] using sound.room pri
    refine ⟨erased.1, funext fun v => ?_⟩
    rw [erased.2 v]
    rcases eq_or_ne v w with rfl | other
    · simp
    · simp [other, other.symm]

theorem clearPending_priority : (clearPending w p).priority = p.priority := by
  unfold clearPending
  dsimp only
  split_ifs <;> rfl

theorem evFeedEvent_priority (revents : UInt32) : (evFeedEvent w revents p).priority = p.priority := by
  unfold evFeedEvent
  dsimp only
  split_ifs <;> rfl

theorem callPending_priority {called : Option (W × UInt32)} (ran : callPending pri p = some (called, p')) :
    p'.priority = p.priority := by
  unfold callPending at ran
  split at ran
  · cases ran
  · dsimp only at ran
    split at ran <;> cases ran <;> rfl

/-- What is called is what its watcher was waiting for, and the watcher waits no more. -/
theorem callPending_sound {called : Option (W × UInt32)} (sound : p.Sound)
    (ran : callPending pri p = some (called, p')) :
    p'.Sound ∧ (∀ w events, called = some (w, events) → p.abspri w = pri ∧ p.waiting w = some events) ∧
      ∀ v, p'.waiting v = if called.map Prod.fst = some v then none else p.waiting v := by
  unfold callPending at ran
  cases last : (p.pendings pri).getLast? with
  | none =>
    rw [last] at ran
    cases ran
  | some entry =>
    obtain ⟨owner, events⟩ := entry
    rw [last] at ran
    have found : (p.pendings pri)[(p.pendings pri).length - 1]? = some ⟨owner, events⟩ := by
      rw [← last, List.getLast?_eq_getElem?]
    let taken : Pendings W := ⟨Function.update p.pendings pri (p.pendings pri).dropLast, p.pendingmax,
      fun v => if owner = some v then 0 else p.pending v, p.priority⟩
    have erased : taken.Sound ∧ ∀ v, taken.waiting v = if owner = some v then none else p.waiting v := by
      refine sound.erase none rfl found (fun pri i => getElem?_update_dropLast) (by simp) (fun v => rfl) fun level => ?_
      rcases eq_or_ne level pri with rfl | other
      · simpa [taken] using (Nat.pred_le _).trans (sound.room level)
      · simpa [taken, other] using sound.room level
    cases owner with
    | none =>
      obtain ⟨rfl, rfl⟩ : none = called ∧ taken = p' := by simpa [taken] using ran
      exact ⟨erased.1, by simp, erased.2⟩
    | some w =>
      have pending : (fun v => if w = v then 0 else p.pending v) = Function.update p.pending w 0 := by
        funext v
        rcases eq_or_ne v w with rfl | other
        · simp
        · simp [other, other.symm]
      obtain ⟨rfl, rfl⟩ : some (w, events) = called ∧ taken = p' := by simpa [taken, pending] using ran
      refine ⟨erased.1, ?_, erased.2⟩
      rintro v known same
      obtain ⟨rfl, rfl⟩ : w = v ∧ events = known := by simpa using same
      exact ⟨(sound.owner _ _ _ _ found).1, sound.waiting_iff.mpr ⟨_, _, found⟩⟩

/-- A watcher that waits for nothing may change its priority. -/
theorem Pendings.Sound.prioritize (sound : p.Sound) (x : ℤ) (waits : p.pending w ≠ 0 → x = p.priority w) :
    let p' := { p with priority := Function.update p.priority w x }
    p'.Sound ∧ p'.waiting = p.waiting := by
  intro p'
  have priority : ∀ v, p.pending v ≠ 0 → p'.priority v = p.priority v := by
    intro v busy
    rcases eq_or_ne v w with rfl | other
    · simp [p', waits busy]
    · simp [p', other]
  have level : ∀ v, p.pending v ≠ 0 → p'.abspri v = p.abspri v := by
    intro v busy
    simp only [Pendings.abspri, priority v busy]
  refine ⟨⟨fun v busy => ?_, fun pri i v known found => ?_, fun v busy => ?_, sound.levels, sound.room⟩,
    funext fun v => ?_⟩
  · rw [level v busy]
    exact sound.entry v busy
  · obtain ⟨here, index⟩ := sound.owner pri i v known found
    rw [level v (by omega)]
    exact ⟨here, index⟩
  · rw [Pendings.InRange, priority v busy]
    exact sound.inRange v busy
  · rcases eq_or_ne (p.pending v) 0 with idle | busy
    · simp [Pendings.waiting, p', idle]
    · simp only [Pendings.waiting, level v busy, p']

theorem priAdjust_priority (inRange : p.InRange w) : (priAdjust v p).priority w = p.priority w := by
  rcases eq_or_ne w v with rfl | other
  · simp only [priAdjust, Function.update_self]
    rw [max_eq_right inRange.1, min_eq_right inRange.2]
  · simp [priAdjust, other]

theorem priAdjust_inRange : (priAdjust w p).InRange w := by
  have order : evMinpri ≤ evMaxpri := by decide
  simp [Pendings.InRange, priAdjust, order]

theorem priAdjust_keeps (inRange : p.InRange w) : (priAdjust v p).InRange w := by
  rwa [Pendings.InRange, priAdjust_priority inRange]

theorem priAdjust_sound (sound : p.Sound) : (priAdjust w p).Sound ∧ (priAdjust w p).waiting = p.waiting := by
  refine sound.prioritize _ fun busy => ?_
  obtain ⟨low, high⟩ := sound.inRange w busy
  rw [max_eq_right low, min_eq_right high]

end Change

end FsPkg.Ev
