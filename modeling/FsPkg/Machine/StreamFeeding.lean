import FsPkg.Machine.StreamDecoder

/-! # Feeding a streaming decoder

A piece of input is fed to a decoder by calls with the same room, until one of them leaves some of it; a call may also
refuse the stream, which ends the feeding. What a decoder refuses is a matter of the input and not of how it is cut:
`Refuses s input` says that a decoder in state `s` that is given `input` comes to refuse it.
-/

namespace FsPkg.Machine.StreamDecoder

variable {σ α β : Type*} {decode : StreamDecoder σ α β} {Fatal : σ → List α → ℕ → Prop} {room : ℕ}

/-- The calls on one piece of input: what each puts out, and the last state, or `none` if a call refused. -/
inductive Feeds (decode : StreamDecoder σ α β) (Fatal : σ → List α → ℕ → Prop) (room : ℕ) :
    σ → List α → List (List β) → Option σ → Prop
  | fatal {s : σ} {input : List α} (refused : Fatal s input room) : Feeds decode Fatal room s input [] none
  | spare {s : σ} {input : List α} (accepted : ¬Fatal s input room)
      (spare : (decode s input room).output.length ≠ room) :
      Feeds decode Fatal room s input [(decode s input room).output] (some (decode s input room).state)
  | full {s : σ} {input : List α} {chunks : List (List β)} {last : Option σ} (accepted : ¬Fatal s input room)
      (full : (decode s input room).output.length = room)
      (rest : Feeds decode Fatal room (decode s input room).state (input.drop (decode s input room).used) chunks last) :
      Feeds decode Fatal room s input ((decode s input room).output :: chunks) last

/-- A piece is fed in one way only. -/
theorem Feeds.deterministic {s : σ} {input : List α} {chunks chunks' : List (List β)} {last last' : Option σ}
    (one : Feeds decode Fatal room s input chunks last) (other : Feeds decode Fatal room s input chunks' last') :
    chunks = chunks' ∧ last = last' := by
  induction one generalizing chunks' with
  | fatal refused =>
    cases other with
    | fatal => exact ⟨rfl, rfl⟩
    | spare accepted => exact (accepted refused).elim
    | full accepted => exact (accepted refused).elim
  | spare accepted spare =>
    cases other with
    | fatal refused => exact (accepted refused).elim
    | spare => exact ⟨rfl, rfl⟩
    | full _ full => exact (spare full).elim
  | full accepted full rest ih =>
    cases other with
    | fatal refused => exact (accepted refused).elim
    | spare _ spare => exact (spare full).elim
    | full _ _ rest' =>
      obtain ⟨rfl, same⟩ := ih rest'
      exact ⟨rfl, same⟩

/-- What a decoder refuses is settled by the input: a call that goes on keeps it, a call that leaves room has seen that
there is nothing to refuse, and after the end of the stream nothing is. `pending` bounds what the input can still give. -/
structure Judged (decode : StreamDecoder σ α β) (Fatal : σ → List α → ℕ → Prop) (Ended : σ → Prop)
    (Refuses : σ → List α → Prop) (pending : σ → List α → ℕ) : Prop where
  output_le : ∀ s input room, (decode s input room).output.length ≤ room
  stops : ∀ s input room, ¬Fatal s input room → (decode s input room).output.length = room ∨
    input.length ≤ (decode s input room).used ∨ Ended (decode s input room).state
  fatal : ∀ s input room, Fatal s input room → Refuses s input
  append : ∀ s input more, Refuses s input → Refuses s (input ++ more)
  carries : ∀ s input room more, ¬Fatal s input room → (Refuses s (input ++ more) ↔
    Refuses (decode s input room).state (input.drop (decode s input room).used ++ more))
  settles : ∀ s input room, ¬Fatal s input room → (decode s input room).output.length < room → ¬Refuses s input
  ended : ∀ s input, Ended s → ¬Refuses s input
  finite : ∀ s input room, ¬Fatal s input room → (decode s input room).output.length +
    pending (decode s input room).state (input.drop (decode s input room).used) ≤ pending s input

variable {Ended : σ → Prop} {Refuses : σ → List α → Prop} {pending : σ → List α → ℕ}

/-- A feeding that is refused was fed something to refuse. -/
theorem Judged.refuses_of_feeds (judged : Judged decode Fatal Ended Refuses pending) {s : σ} {input : List α}
    {chunks : List (List β)} (feeds : Feeds decode Fatal room s input chunks none) : Refuses s input := by
  generalize outcome : (none : Option σ) = last at feeds
  induction feeds with
  | fatal refused => exact judged.fatal _ _ _ refused
  | spare accepted spare => contradiction
  | full accepted full rest ih =>
    have later := judged.carries _ _ room [] accepted
    simp only [List.append_nil] at later
    exact later.mpr (ih outcome)

/-- A feeding that is not leaves the judgement to what follows. -/
theorem Judged.carries_of_feeds (judged : Judged decode Fatal Ended Refuses pending) {s s' : σ} {input : List α}
    {chunks : List (List β)} (feeds : Feeds decode Fatal room s input chunks (some s')) :
    ¬Refuses s input ∧ ∀ more, Refuses s (input ++ more) ↔ Refuses s' more := by
  generalize outcome : some s' = last at feeds
  induction feeds with
  | fatal refused => contradiction
  | @spare s input accepted spare =>
    cases outcome
    have some_ := Nat.lt_of_le_of_ne (judged.output_le s input room) spare
    refine ⟨judged.settles _ _ _ accepted some_, ?_⟩
    intro more
    rw [judged.carries _ _ room more accepted]
    rcases judged.stops s input room accepted with full | used | ended
    · exact (spare full).elim
    · rw [List.drop_eq_nil_of_le used, List.nil_append]
    · exact iff_of_false (judged.ended _ _ ended) (judged.ended _ _ ended)
  | full accepted full rest ih =>
    obtain ⟨kept, carried⟩ := ih outcome
    have later := judged.carries _ _ room [] accepted
    simp only [List.append_nil] at later
    refine ⟨fun refuses => kept (later.mp refuses), ?_⟩
    intro more
    rw [judged.carries _ _ room more accepted]
    exact carried more

/-- With any room at all a feeding comes to its end. -/
theorem Judged.feeds_total (judged : Judged decode Fatal Ended Refuses pending) (positive : 0 < room) (s : σ)
    (input : List α) : ∃ chunks last, Feeds decode Fatal room s input chunks last := by
  -- a call that fills the room leaves less to come
  induction bound : pending s input using Nat.strongRecOn generalizing s input with
  | ind count ih =>
    by_cases refused : Fatal s input room
    · exact ⟨[], none, .fatal refused⟩
    · by_cases full : (decode s input room).output.length = room
      · have finite := judged.finite s input room refused
        have less : pending (decode s input room).state (input.drop (decode s input room).used) < count := by omega
        obtain ⟨chunks, last, rest⟩ := ih _ less _ _ rfl
        exact ⟨_, last, .full refused full rest⟩
      · exact ⟨_, _, .spare refused full⟩

/-- Without room it does not, unless something is refused. -/
theorem Judged.not_feeds (judged : Judged decode Fatal Ended Refuses pending) {s : σ} {input : List α}
    {chunks : List (List β)} {last : Option σ} (accepts : ¬Refuses s input) :
    ¬Feeds decode Fatal 0 s input chunks last := by
  intro feeds
  induction feeds with
  | fatal refused => exact accepts (judged.fatal _ _ _ refused)
  | @spare s input accepted spare => exact spare (Nat.le_zero.mp (judged.output_le s input 0))
  | full accepted full rest ih =>
    apply ih
    have later := judged.carries _ _ 0 [] accepted
    simp only [List.append_nil] at later
    exact fun refuses => accepts (later.mpr refuses)

/-! ## A stream inside the input -/

variable {Decodes : σ → List α → List β → Prop}

/-- A lawful decoder that leaves alone what follows the end of the stream. -/
structure Halts (decode : StreamDecoder σ α β) (Decodes : σ → List α → List β → Prop) (Ended : σ → Prop) : Prop
    extends Lawful decode Decodes Ended where
  leaves : ∀ s stream trailing room output, Decodes s stream output →
    (decode s (stream ++ trailing) room).used ≤ stream.length ∧ ∃ rest,
      output = (decode s (stream ++ trailing) room).output ++ rest ∧
      Decodes (decode s (stream ++ trailing) room).state
        (stream.drop (decode s (stream ++ trailing) room).used) rest

/-- The input starts with the rest of a stream that gives this output. -/
def Contains (Decodes : σ → List α → List β → Prop) (s : σ) (input : List α) (output : List β) : Prop :=
  ∃ stream trailing, input = stream ++ trailing ∧ Decodes s stream output

/-- One call on input that contains a stream, of which `more` is still to come. -/
theorem Halts.call (halts : Halts decode Decodes Ended) {s : σ} {input more : List α} {output : List β}
    (contains : Contains Decodes s (input ++ more) output) (room : ℕ) :
    ∃ rest, output = (decode s input room).output ++ rest ∧
      Contains Decodes (decode s input room).state (input.drop (decode s input room).used ++ more) rest ∧
      ((decode s input room).output.length ≠ room →
        Contains Decodes (decode s input room).state more rest ∧ (more = [] → rest = [])) := by
  obtain ⟨stream, trailing, split, decodes⟩ := contains
  rcases List.append_eq_append_iff.mp split with ⟨ahead, rfl, rfl⟩ | ⟨beyond, rfl, rfl⟩
  · -- the stream goes on after the input
    obtain ⟨rest, whole, after, spare⟩ := halts.toLawful.call decodes room
    refine ⟨rest, whole, ⟨_, trailing, (List.append_assoc ..).symm, after⟩, ?_⟩
    intro left
    obtain ⟨used, last⟩ := spare left
    rw [used, List.nil_append] at after
    refine ⟨⟨ahead, trailing, rfl, after⟩, ?_⟩
    intro none_
    exact last (List.append_eq_nil_iff.mp none_).1
  · -- the stream ends in the input
    obtain ⟨used, rest, whole, after⟩ := halts.leaves s stream beyond room output decodes
    refine ⟨rest, whole, ⟨_, beyond ++ more, ?_, after⟩, ?_⟩
    · rw [List.drop_append_of_le_length used, List.append_assoc]
    · intro left
      have nothing : stream.drop (decode s (stream ++ beyond) room).used = [] ∧ rest = [] := by
        rcases halts.stops s (stream ++ beyond) room with full | all | ended
        · exact (left full).elim
        · rw [List.length_append] at all
          obtain rfl : beyond = [] := List.eq_nil_of_length_eq_zero (by omega)
          simp only [List.append_nil, List.length_nil] at all left whole ⊢
          have drained := halts.drains s stream room output decodes
            (Nat.lt_of_le_of_ne (halts.output_le s stream room) left)
          rw [drained] at whole
          exact ⟨List.drop_eq_nil_of_le (by omega), List.self_eq_append_right.mp whole⟩
        · exact halts.ended _ _ _ ended after
      rw [nothing.1] at after
      exact ⟨⟨[], more, rfl, after⟩, fun _ => nothing.2⟩

/-- Feeding input that contains a stream puts out what the stream gives, and after the last of the input, all of it. -/
theorem Halts.contains_of_feeds (halts : Halts decode Decodes Ended) {s s' : σ} {input more : List α}
    {chunks : List (List β)} {output : List β} (feeds : Feeds decode Fatal room s input chunks (some s'))
    (contains : Contains Decodes s (input ++ more) output) :
    ∃ rest, output = chunks.flatten ++ rest ∧ Contains Decodes s' more rest ∧ (more = [] → rest = []) := by
  generalize outcome : some s' = last at feeds
  induction feeds generalizing output with
  | fatal refused => contradiction
  | spare accepted spare =>
    cases outcome
    obtain ⟨rest, whole, -, left⟩ := halts.call contains room
    refine ⟨rest, ?_, left spare⟩
    rw [whole, List.flatten_singleton]
  | full accepted full rest ih =>
    obtain ⟨later, whole, after, -⟩ := halts.call contains room
    obtain ⟨rest, split, ends⟩ := ih after outcome
    refine ⟨rest, ?_, ends⟩
    rw [whole, split, List.flatten_cons, List.append_assoc]

end FsPkg.Machine.StreamDecoder

namespace FsPkg.Machine.ItemMachine

variable {τ α β : Type*} {m : ItemMachine τ α β} {room : ℕ}

private theorem decode_leaves (s : Queued τ β) (stream trailing : List α) (output : List β)
    (decodes : m.Decodes s stream output) :
    (m.decode room s (stream ++ trailing)).used ≤ stream.length ∧ ∃ rest,
      output = (m.decode room s (stream ++ trailing)).output ++ rest ∧
      m.Decodes (m.decode room s (stream ++ trailing)).state
        (stream.drop (m.decode room s (stream ++ trailing)).used) rest := by
  induction stream generalizing s with
  | nil =>
    obtain ⟨t, queue⟩ := s
    obtain ⟨later, rfl, completes⟩ := decodes
    have stopped : m.decode room (t, queue) trailing =
        { used := 0, output := queue.take room, state := (t, queue.drop room) } := by
      cases trailing with
      | nil => rfl
      | cons item trailing => exact if_pos (.inr completes.1)
    rw [List.nil_append, stopped]
    refine ⟨Nat.le_refl _, queue.drop room ++ later, ?_, later, rfl, completes⟩
    rw [← List.append_assoc, List.take_append_drop]
  | cons item stream ih =>
    obtain ⟨t, queue⟩ := s
    obtain ⟨later, rfl, completes⟩ := decodes
    simp only [List.cons_append, decode]
    split
    · refine ⟨Nat.zero_le _, queue.drop room ++ later, ?_, later, rfl, completes⟩
      rw [← List.append_assoc, List.take_append_drop]
    · obtain ⟨-, rest, rfl, completes⟩ := completes
      obtain ⟨used, after⟩ := ih (m.next t item, queue ++ m.emit t item) ⟨rest, by simp, completes⟩
      exact ⟨Nat.succ_le_succ used, after⟩

theorem halts (m : ItemMachine τ α β) : StreamDecoder.Halts m.decoder m.Decodes m.Ended where
  toLawful := m.lawful
  leaves := fun s stream trailing _ output => decode_leaves s stream trailing output

/-- A machine that refuses nothing and puts out at most `most` for each item. -/
theorem judged (m : ItemMachine τ α β) {most : ℕ} (emits : ∀ t item, (m.emit t item).length ≤ most) :
    StreamDecoder.Judged m.decoder (fun _ _ _ => False) m.Ended (fun _ _ => False)
      (fun s input => s.2.length + most * input.length) where
  output_le := m.lawful.output_le
  stops := fun s input room _ => m.lawful.stops s input room
  fatal := fun _ _ _ => id
  append := fun _ _ _ => id
  carries := fun _ _ _ _ _ => Iff.rfl
  settles := fun _ _ _ _ _ => id
  ended := fun _ _ _ => id
  finite := by
    intro s input room _
    unfold decoder
    induction input generalizing s with
    | nil =>
      obtain ⟨t, queue⟩ := s
      simp only [decode, List.length_take, List.length_drop, List.drop_nil, List.length_nil]
      omega
    | cons item input ih =>
      obtain ⟨t, queue⟩ := s
      simp only [decode]
      split
      · simp only [List.length_take, List.length_drop, List.drop_zero]
        omega
      · have rest := ih (m.next t item, queue ++ m.emit t item)
        have one := emits t item
        rw [List.length_append] at rest
        rw [List.drop_succ_cons, List.length_cons, Nat.mul_succ]
        dsimp only at rest ⊢
        omega

end FsPkg.Machine.ItemMachine
