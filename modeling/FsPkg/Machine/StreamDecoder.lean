import Mathlib.Data.List.Basic
import Mathlib.Tactic.TypeStar

/-! # Streaming decoders

A decoder is called with the input that is at hand and with room for so much output. It takes some of the input, puts
out some output, and goes on to another state. What a state stands for is a relation: `Decodes s rest output` says that
`rest` is what the coded stream still lacks and `output` is what is still to be put out. A lawful decoder keeps this
account and does not stop without a reason, so the pieces make up the whole, wherever input and output are cut.
-/

namespace FsPkg.Machine

variable {σ τ α β : Type*}

/-- The outcome of one call: how much input it used, what it put out, and the next state. -/
structure DecodeStep (σ β : Type*) where
  used : ℕ
  output : List β
  state : σ

/-- A decoder by its calls: state, input at hand and room for output. -/
abbrev StreamDecoder (σ α β : Type*) := σ → List α → ℕ → DecodeStep σ β

namespace StreamDecoder

variable {decode : StreamDecoder σ α β} {Decodes : σ → List α → List β → Prop} {Ended : σ → Prop}

/-- A call never loses or invents anything; it stops only when the input is used up, the room is filled or the stream
has ended; after the end nothing is to come; and while there is room, nothing that the input determines is held back. -/
structure Lawful (decode : StreamDecoder σ α β) (Decodes : σ → List α → List β → Prop) (Ended : σ → Prop) : Prop where
  output_le : ∀ s input room, (decode s input room).output.length ≤ room
  advances : ∀ s input room more output, Decodes s (input ++ more) output → ∃ rest,
    output = (decode s input room).output ++ rest ∧
      Decodes (decode s input room).state (input.drop (decode s input room).used ++ more) rest
  stops : ∀ s input room, (decode s input room).output.length = room ∨
    input.length ≤ (decode s input room).used ∨ Ended (decode s input room).state
  ended : ∀ s rest output, Ended s → Decodes s rest output → rest = [] ∧ output = []
  drains : ∀ s input room output, Decodes s input output → (decode s input room).output.length < room →
    output = (decode s input room).output

/-- One call on a stream of which `input` is at hand and `more` is still to come. -/
theorem Lawful.call (lawful : Lawful decode Decodes Ended) {s : σ} {input more : List α} {output : List β}
    (decodes : Decodes s (input ++ more) output) (room : ℕ) :
    ∃ rest, output = (decode s input room).output ++ rest ∧
      Decodes (decode s input room).state (input.drop (decode s input room).used ++ more) rest ∧
      ((decode s input room).output.length ≠ room →
        input.drop (decode s input room).used = [] ∧ (more = [] → rest = [])) := by
  obtain ⟨rest, whole, after⟩ := lawful.advances s input room more output decodes
  refine ⟨rest, whole, after, ?_⟩
  intro spare
  constructor
  · rcases lawful.stops s input room with full | used | ended
    · exact (spare full).elim
    · exact List.drop_eq_nil_of_le used
    · exact (List.append_eq_nil_iff.mp (lawful.ended _ _ _ ended after).1).1
  · rintro rfl
    rw [List.append_nil] at decodes
    have all := lawful.drains s input room output decodes (Nat.lt_of_le_of_ne (lawful.output_le s input room) spare)
    rw [all] at whole
    exact List.self_eq_append_right.mp whole

end StreamDecoder

/-! ## Decoders that work item by item -/

/-- A machine that reads one item at a time, puts out what it completes, and knows the end of the stream. -/
structure ItemMachine (τ α β : Type*) where
  next : τ → α → τ
  emit : τ → α → List β
  final : τ → Bool

namespace ItemMachine

/-- The state of the decoder: that of the machine, and what did not fit the room of the last call. -/
abbrev Queued (τ β : Type*) := τ × List β

/-- Input is read until the room is filled, the input is used up or the stream ends. -/
def decode (m : ItemMachine τ α β) (room : ℕ) : Queued τ β → List α → DecodeStep (Queued τ β) β
  | (t, queue), [] => { used := 0, output := queue.take room, state := (t, queue.drop room) }
  | (t, queue), item :: input =>
    if room ≤ queue.length ∨ m.final t then { used := 0, output := queue.take room, state := (t, queue.drop room) }
    else
      let step := decode m room (m.next t item, queue ++ m.emit t item) input
      { step with used := step.used + 1 }

def decoder (m : ItemMachine τ α β) : StreamDecoder (Queued τ β) α β :=
  fun s input room => m.decode room s input

/-- The items lead to the end of the stream, and not before the last of them, and put this out. -/
def Completes (m : ItemMachine τ α β) : τ → List α → List β → Prop
  | t, [], output => m.final t = true ∧ output = []
  | t, item :: rest, output =>
    m.final t = false ∧ ∃ later, output = m.emit t item ++ later ∧ m.Completes (m.next t item) rest later

def Decodes (m : ItemMachine τ α β) (s : Queued τ β) (rest : List α) (output : List β) : Prop :=
  ∃ later, output = s.2 ++ later ∧ m.Completes s.1 rest later

def Ended (m : ItemMachine τ α β) (s : Queued τ β) : Prop :=
  m.final s.1 = true ∧ s.2 = []

variable {m : ItemMachine τ α β} {room : ℕ}

theorem Completes.of_final {t : τ} {rest : List α} {output : List β} (completes : m.Completes t rest output)
    (final : m.final t = true) : rest = [] ∧ output = [] := by
  cases rest with
  | nil => exact ⟨rfl, completes.2⟩
  | cons item rest =>
    rw [completes.1] at final
    contradiction

/-- What a call does to a stream whose rest is known. -/
private theorem decode_advances (s : Queued τ β) (input more : List α) (output : List β)
    (decodes : m.Decodes s (input ++ more) output) : ∃ rest, output = (m.decode room s input).output ++ rest ∧
      m.Decodes (m.decode room s input).state (input.drop (m.decode room s input).used ++ more) rest := by
  induction input generalizing s with
  | nil =>
    obtain ⟨t, queue⟩ := s
    obtain ⟨later, rfl, completes⟩ := decodes
    refine ⟨queue.drop room ++ later, ?_, later, rfl, completes⟩
    simp only [decode, ← List.append_assoc, List.take_append_drop]
  | cons item input ih =>
    obtain ⟨t, queue⟩ := s
    obtain ⟨later, rfl, completes⟩ := decodes
    simp only [decode]
    split
    · refine ⟨queue.drop room ++ later, ?_, later, rfl, completes⟩
      simp only [← List.append_assoc, List.take_append_drop]
    · obtain ⟨-, rest, rfl, completes⟩ := completes
      exact ih _ ⟨rest, by simp, completes⟩

/-- The call stops for one of three reasons. -/
private theorem decode_stops (s : Queued τ β) (input : List α) :
    (m.decode room s input).output.length = room ∨ input.length ≤ (m.decode room s input).used ∨
      m.Ended (m.decode room s input).state := by
  induction input generalizing s with
  | nil => exact .inr (.inl (Nat.le_refl _))
  | cons item input ih =>
    obtain ⟨t, queue⟩ := s
    simp only [decode]
    split
    · next stop =>
      by_cases full : room ≤ queue.length
      · exact .inl (List.length_take_of_le full)
      · refine .inr (.inr ⟨stop.resolve_left full, ?_⟩)
        exact List.drop_eq_nil_of_le (by omega)
    · simpa using ih _

/-- With room left, everything was put out. -/
private theorem decode_drains (s : Queued τ β) (input : List α) (output : List β) (decodes : m.Decodes s input output)
    (spare : (m.decode room s input).output.length < room) : output = (m.decode room s input).output := by
  induction input generalizing s with
  | nil =>
    obtain ⟨t, queue⟩ := s
    obtain ⟨later, rfl, -, rfl⟩ := decodes
    simp only [decode, List.length_take] at spare ⊢
    rw [List.append_nil, List.take_of_length_le (by omega)]
  | cons item input ih =>
    obtain ⟨t, queue⟩ := s
    obtain ⟨later, rfl, running, rest, rfl, completes⟩ := decodes
    simp only [decode] at spare ⊢
    split at spare
    · next stop =>
      rcases stop with full | final
      · rw [List.length_take] at spare
        omega
      · rw [running] at final
        contradiction
    · next go =>
      rw [if_neg go]
      exact ih _ ⟨rest, by simp, completes⟩ spare

theorem lawful (m : ItemMachine τ α β) : StreamDecoder.Lawful m.decoder m.Decodes m.Ended where
  output_le := by
    intro s input room
    unfold decoder
    induction input generalizing s with
    | nil => exact List.length_take_le ..
    | cons item input ih =>
      simp only [decode]
      split
      · exact List.length_take_le ..
      · exact ih _
  advances := fun s input _ more output => decode_advances s input more output
  stops := fun s input _ => decode_stops s input
  ended := by
    rintro ⟨t, queue⟩ rest output ⟨final, rfl⟩ ⟨later, rfl, completes⟩
    exact completes.of_final final
  drains := fun s input _ output => decode_drains s input output

end ItemMachine

end FsPkg.Machine
