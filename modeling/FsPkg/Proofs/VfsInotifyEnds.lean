import FsPkg.Proofs.VfsInotifyEvents

/-! # Where the event loop ends

The loop advances only behind an event it passes. It tests the first character of the name before it
asks whether there is a name, so behind an event without one it reads the next event, or what the
buffer holds behind the last. If that byte is a dot the loop stays at the event for good.
-/

namespace FsPkg.Vfs

open Machine
open Pkg (Text)

/-- The byte behind the fixed part of an event; `behind` is the one behind the last event. -/
def firstByte (e : InotifyEvent) (after : List InotifyEvent) (behind : UInt8) : UInt8 :=
  (e.name ++ after.flatMap InotifyEvent.bytes).head?.getD behind

/-- The path of an event with a registered watch has no dot. -/
def faults (watches : List Watch) (e : InotifyEvent) : Bool :=
  e.name ≠ [] && match vfsWatchFindnodeByfd watches e.wd with
    | none => false
    | some watch => isPackage (joinPath watch.path e.text) = none

/-- How the loop ends on a list of events; `running` is for good. -/
def evtGetEnding (watches : List Watch) (behind : UInt8) : List InotifyEvent → Ending
  | [] => .returned
  | e :: rest =>
    if firstByte e rest behind = 46 then .running
    else if passes watches e then evtGetEnding watches behind rest
    else if faults watches e then .fault
    else .returned

section Loop

variable {mem : Memory} {len : ℤ} {i : ℕ} {e : InotifyEvent} {events : List InotifyEvent} {watches : List Watch}

/-- At a dot the loop only repeats itself. -/
theorem evtGetLoop_dot (inside : i < len) (dot : mem (i + sizeofEvent) = 46) (fuel : ℕ) :
    (evtGetLoop mem len fuel i watches).ending = .running := by
  induction fuel with
  | zero => rfl
  | succ fuel ih =>
    rw [evtGetLoop, if_pos inside]
    simp only [if_pos dot]
    exact ih

/-- At any other event it cannot pass, the loop is left in one iteration. -/
theorem evtGetLoop_leaves (here : At mem i e) (room : e.name.length ≤ inotifyBufsize) (inside : i < len)
    (dot : mem (i + sizeofEvent) ≠ 46) (stuck : passes watches e = false) (fuel : ℕ) :
    (evtGetLoop mem len (fuel + 1) i watches).ending = if faults watches e then .fault else .returned := by
  rw [evtGetLoop, if_pos inside]
  simp only [if_neg dot, here.wd]
  cases found : vfsWatchFindnodeByfd watches e.wd with
  | none => simp [faults, found]
  | some watch =>
    by_cases nameless : e.name = []
    · simp [if_pos (here.elen_eq_zero.mpr nameless), faults, nameless]
    · have other := here.not_package dot nameless found stuck
      simp only [if_neg (mt here.elen_eq_zero.mp nameless), here.eventName nameless room]
      cases verdict : isPackage (joinPath watch.path e.text) with
      | none => simp [faults, nameless, found, verdict]
      | some package =>
        cases package with
        | false => simp [faults, nameless, found, verdict]
        | true => exact absurd verdict other

theorem firstByte_eq {rest : List InotifyEvent} (name : Holds mem (i + sizeofEvent) e.name)
    (later : Holds mem (i + (sizeofEvent + e.name.length)) (rest.flatMap InotifyEvent.bytes)) :
    firstByte e rest (mem (i + (sizeofEvent + e.name.length) + (rest.flatMap InotifyEvent.bytes).length)) =
      mem (i + sizeofEvent) := by
  have all : Holds mem (i + sizeofEvent) (e.name ++ rest.flatMap InotifyEvent.bytes) := by
    rw [holds_append]
    exact ⟨name, by rwa [← Nat.add_assoc] at later⟩
  unfold firstByte
  cases split : e.name ++ rest.flatMap InotifyEvent.bytes with
  | nil =>
    obtain ⟨noName, noRest⟩ := List.append_eq_nil_iff.mp split
    simp [noName, noRest]
  | cons byte bytes =>
    rw [split] at all
    exact (holds_cons.mp all).1.symm

/-- With one iteration for each event, and a last test of the condition, the loop has ended if it ever
does. -/
theorem evtGetLoop_ending (holds : Holds mem i (events.flatMap InotifyEvent.bytes))
    (whole : len = i + (events.flatMap InotifyEvent.bytes).length)
    (room : (events.flatMap InotifyEvent.bytes).length ≤ inotifyBufsize) {fuel : ℕ} (enough : events.length < fuel) :
    (evtGetLoop mem len fuel i watches).ending =
      evtGetEnding watches (mem (i + (events.flatMap InotifyEvent.bytes).length)) events := by
  induction events generalizing i fuel with
  | nil =>
    obtain ⟨fuel, rfl⟩ : ∃ smaller, fuel = smaller + 1 := ⟨fuel - 1, by simp at enough; omega⟩
    rw [evtGetLoop, if_neg (by simp [whole])]
    rfl
  | cons e rest ih =>
    rw [List.flatMap_cons, holds_append] at holds
    obtain ⟨first, later⟩ := holds
    rw [List.flatMap_cons, List.length_append, e.length_bytes] at whole room
    rw [e.length_bytes] at later
    have here := at_of_holds first
    have small : e.name.length ≤ inotifyBufsize := by omega
    have inside : (i : ℤ) < len := by
      simp only [sizeofEvent] at whole
      omega
    obtain ⟨fuel, rfl⟩ : ∃ smaller, fuel = smaller + 1 := ⟨fuel - 1, by simp at enough; omega⟩
    rw [evtGetEnding, List.flatMap_cons, List.length_append, e.length_bytes, ← Nat.add_assoc,
      firstByte_eq here.name later]
    by_cases dot : mem (i + sizeofEvent) = 46
    · rw [if_pos dot, evtGetLoop_dot inside dot]
    · rw [if_neg dot]
      cases passed : passes watches e with
      | false => rw [evtGetLoop_leaves here small inside dot passed, if_neg Bool.false_ne_true]
      | true =>
        have shorter : rest.length < fuel := by simpa using enough
        rw [evtGetLoop_pass here small inside passed, if_pos rfl, ← ih later (by omega) (by omega) shorter]
        cases yields watches e with
        | none => rfl
        | some call => rfl

end Loop

/-- An event the loop comes to: it passes all those in front. -/
def Reaches (watches : List Watch) (events before : List InotifyEvent) (e : InotifyEvent)
    (after : List InotifyEvent) : Prop :=
  events = before ++ e :: after ∧ ∀ other ∈ before, passes watches other = true

/-- A passed event is neither a dot nor a fault. -/
theorem not_dot_of_passes {watches : List Watch} {e : InotifyEvent} (passed : passes watches e = true)
    (rest : List InotifyEvent) (behind : UInt8) : firstByte e rest behind ≠ 46 ∧ faults watches e = false := by
  simp only [passes, Bool.and_eq_true, decide_eq_true_iff, Bool.not_eq_true'] at passed
  obtain ⟨⟨named, visible⟩, package⟩ := passed
  obtain ⟨byte, more, split⟩ := List.exists_cons_of_ne_nil named
  constructor
  · intro dot
    have hidden : e.hidden = true := by simpa [InotifyEvent.hidden, firstByte, split] using dot
    rw [hidden] at visible
    contradiction
  · unfold faults
    cases found : vfsWatchFindnodeByfd watches e.wd with
    | none => simp
    | some watch =>
      have verdict : isPackage (joinPath watch.path e.text) = some true := by simpa [found] using package
      simp [verdict]

section Ending

variable {watches : List Watch} {behind : UInt8} {events : List InotifyEvent}

theorem exists_reaches_nil {Q : InotifyEvent → List InotifyEvent → Prop} :
    ¬ ∃ before e after, Reaches watches [] before e after ∧ Q e after := by
  rintro ⟨before, e, after, ⟨split, -⟩, -⟩
  exact absurd split.symm (by simp)

/-- The loop comes to the first event, and to the others if it passes that one. -/
theorem exists_reaches_cons {Q : InotifyEvent → List InotifyEvent → Prop} {first : InotifyEvent}
    {rest : List InotifyEvent} : (∃ before e after, Reaches watches (first :: rest) before e after ∧ Q e after) ↔
      Q first rest ∨ passes watches first = true ∧ ∃ before e after, Reaches watches rest before e after ∧ Q e after := by
  constructor
  · rintro ⟨before, e, after, ⟨split, passed⟩, holds⟩
    cases before with
    | nil =>
      obtain ⟨rfl, rfl⟩ := List.cons.inj split
      exact .inl holds
    | cons head more =>
      obtain ⟨rfl, rfl⟩ := List.cons.inj split
      obtain ⟨here, later⟩ := List.forall_mem_cons.mp passed
      exact .inr ⟨here, more, e, after, ⟨rfl, later⟩, holds⟩
  · rintro (holds | ⟨here, before, e, after, ⟨rfl, later⟩, holds⟩)
    · exact ⟨[], first, rest, ⟨rfl, List.forall_mem_nil _⟩, holds⟩
    · exact ⟨first :: before, e, after, ⟨rfl, List.forall_mem_cons.mpr ⟨here, later⟩⟩, holds⟩

/-- The loop runs for good exactly if it comes to a dot. -/
theorem evtGetEnding_running : evtGetEnding watches behind events = .running ↔
    ∃ before e after, Reaches watches events before e after ∧ firstByte e after behind = 46 := by
  induction events with
  | nil => exact iff_of_false (by simp [evtGetEnding]) exists_reaches_nil
  | cons first rest ih =>
    rw [exists_reaches_cons (Q := fun e after => firstByte e after behind = 46), ← ih, evtGetEnding]
    by_cases dot : firstByte first rest behind = 46
    · simp [dot]
    · cases passed : passes watches first with
      | true => simp [dot]
      | false => cases faulty : faults watches first <;> simp [dot]

/-- The loop faults exactly if it comes to a path without a dot. -/
theorem evtGetEnding_fault : evtGetEnding watches behind events = .fault ↔
    ∃ before e after, Reaches watches events before e after ∧
      (firstByte e after behind ≠ 46 ∧ faults watches e = true) := by
  induction events with
  | nil => exact iff_of_false (by simp [evtGetEnding]) exists_reaches_nil
  | cons first rest ih =>
    rw [exists_reaches_cons (Q := fun e after => firstByte e after behind ≠ 46 ∧ faults watches e = true), ← ih,
      evtGetEnding]
    by_cases dot : firstByte first rest behind = 46
    · have stuck : passes watches first = false := by
        rw [Bool.eq_false_iff]
        exact fun passed => (not_dot_of_passes passed rest behind).1 dot
      simp [dot, stuck]
    · cases passed : passes watches first with
      | true => simp [dot, (not_dot_of_passes passed rest behind).2]
      | false => cases faulty : faults watches first <;> simp [dot]

end Ending

/-- For every answer of `read` and every buffer of events: the loop has ended after one iteration for
each event exactly if it comes to no event with a dot behind its fixed part; and it has then returned,
unless it comes to a path without a dot. -/
theorem inotify_ends_iff {mem : Memory} {len : ℤ} {watches : List Watch} {events : List InotifyEvent}
    (holds : Holds mem 0 (events.flatMap InotifyEvent.bytes))
    (count : len = (events.flatMap InotifyEvent.bytes).length ∨ len < 0 ∧ events = [])
    (room : (events.flatMap InotifyEvent.bytes).length ≤ inotifyBufsize) :
    ((vfsInotifyEvtGet mem len watches (events.length + 1)).ending ≠ .running ↔
      ∀ before e after, Reaches watches events before e after →
        firstByte e after (mem (events.flatMap InotifyEvent.bytes).length) ≠ 46) ∧
    ((vfsInotifyEvtGet mem len watches (events.length + 1)).ending = .returned ↔
      ∀ before e after, Reaches watches events before e after →
        firstByte e after (mem (events.flatMap InotifyEvent.bytes).length) ≠ 46 ∧ faults watches e = false) := by
  have ending : (vfsInotifyEvtGet mem len watches (events.length + 1)).ending =
      evtGetEnding watches (mem (events.flatMap InotifyEvent.bytes).length) events := by
    rcases count with whole | ⟨failed, rfl⟩
    · have reached : (evtGetLoop mem len (events.length + 1) 0 watches).ending = _ :=
        evtGetLoop_ending holds (by rw [whole]; simp) room (Nat.lt_succ_self events.length)
      rwa [Nat.zero_add] at reached
    · have outside : ¬ ((0 : ℕ) : ℤ) < len := by omega
      rw [vfsInotifyEvtGet, evtGetLoop, if_neg outside]
      rfl
  rw [ending]
  generalize mem (events.flatMap InotifyEvent.bytes).length = behind
  have returned (ending : Ending) : ending = .returned ↔ ending ≠ .running ∧ ending ≠ .fault := by
    cases ending <;> simp
  constructor
  · rw [Ne, evtGetEnding_running]
    push Not
    rfl
  · rw [returned, Ne, Ne, evtGetEnding_running, evtGetEnding_fault]
    push Not
    constructor
    · rintro ⟨noDot, noFault⟩ before e after reaches
      have free := noDot before e after reaches
      exact ⟨free, by simpa using noFault before e after reaches free⟩
    · intro clean
      refine ⟨fun before e after reaches => (clean before e after reaches).1, ?_⟩
      intro before e after reaches _
      simp [(clean before e after reaches).2]

theorem inotify_ends_two :
    (vfsInotifyEvtGet (image ([wroteA, deletedB].flatMap InotifyEvent.bytes)) 44 [watchP] 3).ending ≠ .running := by
  apply (inotify_ends_iff (holds_image _) (.inl (by decide)) (by decide)).1.mpr
  have passed : ∀ e ∈ [wroteA, deletedB], passes [watchP] e = true := by decide
  rintro before e after ⟨split, -⟩
  exact (not_dot_of_passes (passed e (split ▸ List.mem_append_right _ List.mem_cons_self)) after _).1

/-- `.a` was written. -/
def wroteHidden : InotifyEvent := { wd := 1, mask := inCloseWrite, name := [46, 97, 0] }

/-- A hidden name: the loop does not end in any number of iterations. -/
theorem inotify_hidden_name_never_ends : ¬ ∃ iterations,
    (vfsInotifyEvtGet (image ([wroteHidden].flatMap InotifyEvent.bytes)) 19 [watchP] iterations).ending ≠ .running := by
  rintro ⟨iterations, ends⟩
  exact ends (evtGetLoop_dot (by decide) (by decide) iterations)

end FsPkg.Vfs
