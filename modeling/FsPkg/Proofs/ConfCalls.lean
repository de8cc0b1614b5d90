import FsPkg.Proofs.ConfPieces

/-! # The calls that `dconf_init` makes

Every call of `dconf_set` comes from one piece: an assignment outside of comments, with pieces before it that are passed
without a fault. A line that fits the buffer is one piece; what follows the first 511 characters of a longer one is read
as if it were a line.
-/

namespace FsPkg.Conf

open Machine
open Pkg (Text)

/-- The calls of the loop over the pieces, given the position of the first one. -/
def callsOf (inComment : Bool) (dict : Option Dictionary) (offset : ℕ) : List Text → List SetCall
  | [] => []
  | buf :: rest =>
    match dconfLine buf inComment with
    | none => []
    | some (inComment, none) => callsOf inComment dict (offset + buf.length) rest
    | some (inComment, some (key, val)) =>
      match dconfSet dict (some key) (some val) {} with
      | none => [⟨offset, key, val, false⟩]
      | some (_, dict) => ⟨offset, key, val, true⟩ :: callsOf inComment dict (offset + buf.length) rest

theorem dconfLoopCalls_eq (fuel : ℕ) (text : Text) (fails : Bool) (offset : ℕ) (inComment : Bool)
    (dict : Option Dictionary) : dconfLoopCalls fuel { rest := text, fails } offset inComment dict =
      callsOf inComment dict offset ((buffers text).take fuel) := by
  induction fuel generalizing text offset inComment dict with
  | zero => rfl
  | succ fuel ih =>
    obtain ⟨eof, read, ended⟩ := fgets_eq text fails
    -- behind the end of the file there are no more pieces
    have goesOn (offset : ℕ) (inComment : Bool) (dict : Option Dictionary) :
        dconfLoopCalls fuel { rest := text.drop (bufferCut text + 1), fails, eof } offset inComment dict =
          callsOf inComment dict offset ((buffers (text.drop (bufferCut text + 1))).take fuel) := by
      cases eof with
      | false => exact ih _ offset inComment dict
      | true =>
        rw [(ended rfl).2]
        cases fuel <;> rfl
    rw [dconfLoopCalls, if_neg Bool.false_ne_true, read]
    simp only
    by_cases nothing : text = []
    · subst nothing
      have none := goesOn offset inComment dict
      rw [List.drop_nil, show buffers [] = [] from rfl, List.take_nil] at none
      rw [List.take_nil, List.drop_nil, dconfLine_blank rfl, show buffers [] = [] from rfl, List.take_nil]
      exact none
    · rw [buffers, pieces_of_ne_nil nothing, List.take_succ_cons, callsOf]
      cases dconfLine (text.take (bufferCut text + 1)) inComment with
      | none => rfl
      | some pair =>
        obtain ⟨inComment, _ | ⟨key, val⟩⟩ := pair
        · exact goesOn _ inComment dict
        · simp only
          cases dconfSet dict (some key) (some val) {} with
          | none => rfl
          | some pair => exact congrArg (_ :: ·) (goesOn _ inComment pair.2)

/-- One piece: the call for it, if there is one, and the calls behind it. -/
theorem callsOf_cons (inComment : Bool) (dict : Option Dictionary) (offset : ℕ) (buf : Text) (rest : List Text) :
    callsOf inComment dict offset (buf :: rest) =
      (settings inComment [buf]).map (fun pair =>
        ⟨offset, pair.1, pair.2, (dconfSet dict (some pair.1) (some pair.2) {}).isSome⟩) ++
      ((replay inComment dict [buf]).elim [] fun next => callsOf next.1 next.2 (offset + buf.length) rest) := by
  rw [callsOf, replay, dconfLine_eq, settings, settings]
  cases kind buf with
  | assignment key val =>
    cases inComment with
    | true => rfl
    | false =>
      simp only [Kind.line, Kind.setting, Bool.false_eq_true, if_false, Option.toList_some, List.append_nil,
        List.map_cons, List.map_nil]
      cases dconfSet dict (some key) (some val) {} <;> rfl
  | _ => cases inComment <;> rfl

theorem replay_append (inComment : Bool) (dict : Option Dictionary) (read later : List Text) :
    replay inComment dict (read ++ later) =
      (replay inComment dict read).bind fun next => replay next.1 next.2 later := by
  induction read generalizing inComment dict with
  | nil => rfl
  | cons buf rest ih =>
    rw [List.cons_append, replay_cons, replay_cons]
    split
    · rfl
    · cases (sets (settings inComment [buf])).foldlM ConfOp.run dict with
      | none => rfl
      | some dict => exact ih _ dict

theorem mem_settings_singleton {inComment : Bool} {buf : Text} {pair : Text × Text} :
    pair ∈ settings inComment [buf] ↔ inComment = false ∧ kind buf = .assignment pair.1 pair.2 := by
  rw [settings, settings, List.append_nil]
  cases inComment with
  | true => simp
  | false => cases kind buf <;> simp [Kind.setting, Prod.ext_iff, eq_comm]

/-- Where the calls come from. -/
theorem mem_callsOf {inComment : Bool} {dict : Option Dictionary} {offset : ℕ} {read : List Text} {call : SetCall} :
    call ∈ callsOf inComment dict offset read ↔ ∃ past buf future dict', read = past ++ buf :: future ∧
      replay inComment dict past = some (false, dict') ∧ kind buf = .assignment call.key call.val ∧
      call.offset = offset + past.flatten.length ∧
      call.returned = (dconfSet dict' (some call.key) (some call.val) {}).isSome := by
  induction read generalizing inComment dict offset with
  | nil => simp [callsOf]
  | cons buf rest ih =>
    rw [callsOf_cons, List.mem_append, List.mem_map]
    constructor
    · rintro (⟨pair, member, rfl⟩ | member)
      · obtain ⟨rfl, assigns⟩ := mem_settings_singleton.mp member
        exact ⟨[], buf, rest, dict, rfl, rfl, assigns, rfl, rfl⟩
      · cases replayed : replay inComment dict [buf] with
        | none =>
          rw [replayed] at member
          contradiction
        | some next =>
          rw [replayed] at member
          obtain ⟨past, buf', future, dict', rfl, reached, assigns, position, returned⟩ := ih.mp member
          refine ⟨buf :: past, buf', future, dict', rfl, ?_, assigns, ?_, returned⟩
          · rw [show buf :: past = [buf] ++ past from rfl, replay_append, replayed]
            exact reached
          · rw [position, List.flatten_cons, List.length_append]
            omega
    · rintro ⟨past, buf', future, dict', split, reached, assigns, position, returned⟩
      cases past with
      | nil =>
        obtain ⟨rfl, rfl⟩ := List.cons.inj split
        obtain ⟨rfl, rfl⟩ := Prod.mk.inj (Option.some.inj reached)
        refine .inl ⟨(call.key, call.val), mem_settings_singleton.mpr ⟨rfl, assigns⟩, ?_⟩
        cases call
        simp_all
      | cons first past =>
        obtain ⟨rfl, tail⟩ := List.cons.inj split
        rw [show buf :: past = [buf] ++ past from rfl, replay_append] at reached
        obtain ⟨next, replayed, reached⟩ := Option.bind_eq_some_iff.mp reached
        right
        rw [replayed]
        refine ih.mpr ⟨past, buf', future, dict', tail, reached, assigns, ?_, returned⟩
        rw [position, List.flatten_cons, List.length_append]
        omega

/-- The calls stand in the order of the file. -/
theorem callsOf_increasing {inComment : Bool} {dict : Option Dictionary} {offset : ℕ} {read : List Text}
    (some_ : ∀ buf ∈ read, buf ≠ []) :
    (callsOf inComment dict offset read).Pairwise fun call call' => call.offset < call'.offset := by
  induction read generalizing inComment dict offset with
  | nil => exact List.Pairwise.nil
  | cons buf rest ih =>
    have positive := List.length_pos_of_ne_nil (some_ buf List.mem_cons_self)
    have tail := fun buf member => some_ buf (List.mem_cons_of_mem _ member)
    rw [callsOf_cons, List.pairwise_append]
    refine ⟨?_, ?_, ?_⟩
    · rw [List.pairwise_map, settings, settings, List.append_nil]
      split
      · exact List.Pairwise.nil
      · cases (kind buf).setting with
        | none => exact List.Pairwise.nil
        | some pair => exact List.pairwise_singleton _ _
    · cases replay inComment dict [buf] with
      | none => exact List.Pairwise.nil
      | some next => exact ih tail
    · intro call here call' later
      obtain ⟨pair, -, rfl⟩ := List.mem_map.mp here
      cases replayed : replay inComment dict [buf] with
      | none =>
        rw [replayed] at later
        contradiction
      | some next =>
        rw [replayed] at later
        obtain ⟨_, _, _, _, _, _, _, position, _⟩ := mem_callsOf.mp later
        have before : offset < call'.offset := by
          rw [position]
          omega
        exact before

theorem passes_iff {read : List Text} : Passes read ↔ (replay false (some (dictionaryNew 0)) read).isSome = true := by
  constructor
  · intro passes
    obtain ⟨d, replayed, -⟩ := passes.replay
    rw [replayed]
    rfl
  · intro some_
    obtain ⟨⟨flag, dict⟩, replayed⟩ := Option.isSome_iff_exists.mp some_
    exact passes_of_replay replayed

/-- A call is made for every assignment outside of comments that is reached, and for nothing else; it returns if the
dictionary can take it. -/
theorem mem_dconfInitCalls_iff {text : Text} {fails : Bool} {call : SetCall} {iterations : ℕ} :
    call ∈ dconfInitCalls { rest := text, fails } iterations ↔ ∃ past buf future,
      (buffers text).take iterations = past ++ buf :: future ∧ Passes past ∧ flagAfter false past = false ∧
      kind buf = .assignment call.key call.val ∧ call.offset = past.flatten.length ∧
      (call.returned = true ↔ Passes (past ++ [buf])) := by
  rw [dconfInitCalls, dconfLoopCalls_eq, mem_callsOf]
  have returns {past : List Text} {buf : Text} {dict : Option Dictionary}
      (reached : replay false (some (dictionaryNew 0)) past = some (false, dict))
      (assigns : kind buf = .assignment call.key call.val) :
      Passes (past ++ [buf]) ↔ (dconfSet dict (some call.key) (some call.val) {}).isSome = true := by
    rw [passes_iff, replay_append, reached, Option.bind_some, replay, dconfLine_eq, assigns]
    simp only [Kind.line, Bool.false_eq_true, if_false]
    cases dconfSet dict (some call.key) (some call.val) {} <;> simp [replay]
  constructor
  · rintro ⟨past, buf, future, dict, split, reached, assigns, position, returned⟩
    obtain ⟨-, outside, -⟩ := replay_eq_some_iff.mp reached
    refine ⟨past, buf, future, split, passes_of_replay reached, outside.symm, assigns, ?_, ?_⟩
    · rw [position, Nat.zero_add]
    · rw [returns reached assigns, returned]
  · rintro ⟨past, buf, future, split, passes, outside, assigns, position, returned⟩
    obtain ⟨d, replayed, -⟩ := passes.replay
    rw [outside] at replayed
    refine ⟨past, buf, future, some d, split, replayed, assigns, ?_, ?_⟩
    · rw [position, Nat.zero_add]
    · rw [Bool.eq_iff_iff, returned, returns replayed assigns]

theorem dconfInitCalls_increasing (text : Text) (fails : Bool) (iterations : ℕ) :
    (dconfInitCalls { rest := text, fails } iterations).Pairwise fun call call' => call.offset < call'.offset := by
  rw [dconfInitCalls, dconfLoopCalls_eq]
  apply callsOf_increasing
  intro buf member
  exact ne_nil_of_mem_pieces (List.mem_of_mem_take member)

/-! ## Calls and lines -/

/-- The calls for what is read of one line. -/
def callsIn (start length : ℕ) (calls : List SetCall) : List SetCall :=
  calls.filter fun call => start ≤ call.offset ∧ call.offset < start + length

/-- Each line is set at most once, with blanks only in front of the key, and with what the whole line assigns. -/
def OneSetting (file : Stream) : Prop :=
  ∀ iterations before line after, physicalLines file.rest = before ++ line :: after →
    callsIn before.flatten.length line.length (dconfInitCalls file iterations) = [] ∨
    ∃ call, callsIn before.flatten.length line.length (dconfInitCalls file iterations) = [call] ∧
      Blanks (line.take (call.offset - before.flatten.length)) ∧
      dconfLine line false = some (false, some (call.key, call.val))

/-- Every piece of a line that is reached outside of comments and assigns something has only blanks before it in the
line, and what follows it there adds nothing to its value. -/
def Contained (text : Text) : Prop :=
  ∀ before line after past buf future, physicalLines text = before ++ line :: after →
    buffers line = past ++ buf :: future → Passes (before.flatMap buffers ++ past) →
    flagAfter false (before.flatMap buffers ++ past) = false → ∀ key val, kind buf = .assignment key val →
    Blanks past.flatten ∧ kind (buf ++ future.flatten) = .assignment key val

section Lines

variable {text : Text} {before after past future : List Text} {line buf : Text}

theorem flatten_flatMap_buffers (lines : List Text) : (lines.flatMap buffers).flatten = lines.flatten := by
  induction lines with
  | nil => rfl
  | cons line lines ih =>
    rw [List.flatMap_cons, List.flatten_append, ih, buffers, flatten_pieces, List.flatten_cons]

theorem line_eq_append (cut : buffers line = past ++ buf :: future) :
    line = past.flatten ++ (buf ++ future.flatten) := by
  have flat := flatten_pieces bufferCut line
  rw [show pieces bufferCut line = _ from cut, List.flatten_append, List.flatten_cons] at flat
  exact flat.symm

/-- The pieces of a line are not empty. -/
theorem length_past_lt (cut : buffers line = past ++ buf :: future) : past.flatten.length < line.length := by
  have member : buf ∈ pieces bufferCut line := by
    rw [show pieces bufferCut line = _ from cut]
    exact List.mem_append_right _ List.mem_cons_self
  have positive := List.length_pos_of_ne_nil (ne_nil_of_mem_pieces member)
  rw [line_eq_append cut, List.length_append, List.length_append]
  omega

theorem exists_take_eq_iff {α : Type} {l past : List α} {x : α} {count : ℕ} :
    (∃ future, l.take count = past ++ x :: future) ↔ past.length < count ∧ ∃ future, l = past ++ x :: future := by
  constructor
  · rintro ⟨future, taken⟩
    have short := List.length_take_le count l
    rw [taken, List.length_append, List.length_cons] at short
    refine ⟨by omega, future ++ l.drop count, ?_⟩
    rw [← List.cons_append, ← List.append_assoc, ← taken, List.take_append_drop]
  · rintro ⟨short, future, rfl⟩
    refine ⟨future.take (count - past.length - 1), ?_⟩
    obtain ⟨more, rfl⟩ := Nat.exists_eq_add_of_lt short
    have left : past.length + more + 1 - past.length = more + 1 := by omega
    rw [List.take_append, List.take_of_length_le (by omega), left, List.take_succ_cons]
    rfl

/-- A call for what is read of a line comes from one of its pieces. -/
theorem mem_callsIn_iff {fails : Bool} {iterations : ℕ} {call : SetCall}
    (split : physicalLines text = before ++ line :: after) :
    call ∈ callsIn before.flatten.length line.length (dconfInitCalls { rest := text, fails } iterations) ↔
      ∃ past buf future, buffers line = past ++ buf :: future ∧
        (before.flatMap buffers ++ past).length < iterations ∧
        Passes (before.flatMap buffers ++ past) ∧ flagAfter false (before.flatMap buffers ++ past) = false ∧
        kind buf = .assignment call.key call.val ∧ call.offset = before.flatten.length + past.flatten.length ∧
        (call.returned = true ↔ Passes (before.flatMap buffers ++ past ++ [buf])) := by
  rw [callsIn, List.mem_filter, mem_dconfInitCalls_iff, decide_eq_true_eq]
  constructor
  · rintro ⟨⟨read, buf, future, taken, passes, outside, assigns, position, returned⟩, low, high⟩
    obtain ⟨short, future, all⟩ := exists_take_eq_iff.mp ⟨future, taken⟩
    rw [buffers_eq_flatMap] at all
    obtain ⟨before', line', after', past, outer, split', cut, rfl, -⟩ := flatMap_eq_append_cons all
    rw [List.flatten_append, List.length_append, flatten_flatMap_buffers] at position
    have inside := length_past_lt cut
    obtain ⟨rfl, rfl, -⟩ := piece_unique (split.symm.trans split') low high
      (by omega) (by omega : call.offset < before'.flatten.length + line'.length)
    exact ⟨past, buf, outer, cut, short, passes, outside, assigns, position, returned⟩
  · rintro ⟨past, buf, future, cut, short, passes, outside, assigns, position, returned⟩
    have inside := length_past_lt cut
    have all : buffers text = before.flatMap buffers ++ past ++ buf :: (future ++ after.flatMap buffers) := by
      rw [buffers_eq_flatMap, split, List.flatMap_append, List.flatMap_cons, cut]
      simp only [List.append_assoc, List.cons_append]
    obtain ⟨future, taken⟩ := exists_take_eq_iff.mpr ⟨short, _, all⟩
    refine ⟨⟨_, buf, future, taken, passes, outside, assigns, ?_, returned⟩, by omega, by omega⟩
    rw [List.flatten_append, List.length_append, flatten_flatMap_buffers, position]

theorem stripped_of_blanks (blanks : Blanks buf) : stripped buf = [] := by
  have whole := stripped_indent blanks []
  rw [List.append_nil] at whole
  rw [whole]
  rfl

theorem kind_of_blanks (blanks : Blanks buf) : kind buf = .blank := by
  rw [kind, if_pos (stripped_of_blanks blanks)]

/-- Blanks in front change nothing. -/
theorem kind_indent {indent : Text} (blanks : Blanks indent) (tail : Text) : kind (indent ++ tail) = kind tail := by
  rw [kind, kind, stripped_indent blanks]

theorem dconfLine_eq_assignment_iff {key val : Text} :
    dconfLine buf false = some (false, some (key, val)) ↔ kind buf = .assignment key val := by
  rw [dconfLine_eq]
  cases kind buf <;> simp [Kind.line]

/-- What stands at most once, as its position says, stands once or not at all. -/
theorem eq_nil_or_singleton {calls : List SetCall}
    (increasing : calls.Pairwise fun call call' => call.offset < call'.offset)
    (same : ∀ call ∈ calls, ∀ call' ∈ calls, call.offset = call'.offset) : calls = [] ∨ ∃ call, calls = [call] := by
  rcases calls with _ | ⟨call, _ | ⟨call', rest⟩⟩
  · exact .inl rfl
  · exact .inr ⟨call, rfl⟩
  · have less := (List.pairwise_cons.mp increasing).1 call' List.mem_cons_self
    have equal := same call List.mem_cons_self call' (List.mem_cons_of_mem _ List.mem_cons_self)
    omega

/-- A piece in front of which there are only blanks, and that assigns something, is the only one in its line. -/
theorem past_unique {past' future' : List Text} {buf' key val : Text}
    (same : past ++ buf :: future = past' ++ buf' :: future') (assigns : kind buf = .assignment key val)
    (blanks : Blanks past'.flatten) : past' <+: past := by
  rcases List.append_eq_append_iff.mp same with ⟨between, rfl, behind⟩ | ⟨between, rfl, -⟩
  · cases between with
    | nil => rw [List.append_nil]
    | cons first between =>
      obtain ⟨rfl, -⟩ := List.cons.inj behind
      have inside : Blanks buf := by
        intro c member
        apply blanks
        rw [List.flatten_append, List.flatten_cons]
        exact List.mem_append_right _ (List.mem_append_left _ member)
      rw [kind_of_blanks inside] at assigns
      contradiction
  · exact List.prefix_append _ _

end Lines

/-- Lines that are longer than the buffer are where it goes wrong: all is well just if every piece is contained. -/
theorem dconfInit_one_setting_iff (text : Text) (fails : Bool) :
    OneSetting { rest := text, fails } ↔ Contained text := by
  constructor
  · intro one before line after past buf future split cut passes outside key val assigns
    obtain ⟨returned, returns⟩ : ∃ returned : Bool,
        returned = true ↔ Passes (before.flatMap buffers ++ past ++ [buf]) :=
      ⟨@decide _ (Classical.propDecidable _), @decide_eq_true_iff _ (Classical.propDecidable _)⟩
    have made : ⟨before.flatten.length + past.flatten.length, key, val, returned⟩ ∈
        callsIn before.flatten.length line.length
          (dconfInitCalls { rest := text, fails } ((before.flatMap buffers ++ past).length + 1)) :=
      (mem_callsIn_iff split).mpr ⟨past, buf, future, cut, Nat.lt_succ_self _, passes, outside, assigns, rfl, returns⟩
    rcases one _ before line after split with none | ⟨call, only, blanks, whole⟩
    · rw [none] at made
      contradiction
    · rw [only] at made
      obtain rfl := List.mem_singleton.mp made
      rw [Nat.add_sub_cancel_left, line_eq_append cut, List.take_left] at blanks
      rw [dconfLine_eq_assignment_iff, line_eq_append cut, kind_indent blanks] at whole
      exact ⟨blanks, whole⟩
  · intro contained iterations before line after split
    have each (call : SetCall)
        (member : call ∈ callsIn before.flatten.length line.length
          (dconfInitCalls { rest := text, fails } iterations)) :
        ∃ past buf future, buffers line = past ++ buf :: future ∧ kind buf = .assignment call.key call.val ∧
          call.offset = before.flatten.length + past.flatten.length ∧ Blanks past.flatten ∧
          kind (buf ++ future.flatten) = .assignment call.key call.val := by
      obtain ⟨past, buf, future, cut, -, passes, outside, assigns, position, -⟩ := (mem_callsIn_iff split).mp member
      obtain ⟨blanks, whole⟩ := contained before line after past buf future split cut passes outside _ _ assigns
      exact ⟨past, buf, future, cut, assigns, position, blanks, whole⟩
    have increasing := (dconfInitCalls_increasing text fails iterations).filter
      fun call => before.flatten.length ≤ call.offset ∧ call.offset < before.flatten.length + line.length
    have once := eq_nil_or_singleton increasing ?_
    · rcases once with none | ⟨call, only⟩
      · exact .inl none
      · have member : call ∈ callsIn before.flatten.length line.length
            (dconfInitCalls { rest := text, fails } iterations) := by
          rw [callsIn, only]
          exact List.mem_singleton_self _
        obtain ⟨past, buf, future, cut, -, position, blanks, whole⟩ := each call member
        refine .inr ⟨call, only, ?_, ?_⟩
        · rw [position, Nat.add_sub_cancel_left, line_eq_append cut, List.take_left]
          exact blanks
        · rw [dconfLine_eq_assignment_iff, line_eq_append cut, kind_indent blanks]
          exact whole
    · intro call member call' member'
      obtain ⟨past, buf, future, cut, assigns, position, blanks, -⟩ := each call member
      obtain ⟨past', buf', future', cut', assigns', position', blanks', -⟩ := each call' member'
      have split := cut.symm.trans cut'
      have shorter := (past_unique split.symm assigns' blanks).length_le
      obtain rfl := (past_unique split assigns blanks').eq_of_length_le shorter
      rw [position, position']

/-- One line with a value of 513 characters, the last three of which are `b=1`. -/
def longLine : Text :=
  'a' :: '=' :: List.replicate 509 'x' ++ ['b', '=', '1', '\n']

/-- The line is set twice: `a` to the first part of the value, and `b` to 1. -/
theorem dconfInit_long_line :
    physicalLines longLine = [longLine] ∧
      dconfInitCalls { rest := longLine } 2 =
        [⟨0, ['a'], List.replicate 509 'x', true⟩, ⟨511, ['b'], ['1'], true⟩] ∧
      ¬ OneSetting { rest := longLine } := by
  have lines : physicalLines longLine = [longLine] := by decide +kernel
  have calls : dconfInitCalls { rest := longLine } 2 =
      [⟨0, ['a'], List.replicate 509 'x', true⟩, ⟨511, ['b'], ['1'], true⟩] := by decide +kernel
  have both : (callsIn 0 longLine.length (dconfInitCalls { rest := longLine } 2)).length = 2 := by
    rw [calls]
    decide +kernel
  refine ⟨lines, calls, fun one => ?_⟩
  rcases one 2 [] longLine [] lines with none | ⟨call, only, -⟩
  · have two : 2 = 0 := both.symm.trans (congrArg List.length none)
    exact absurd two (by decide)
  · have two : 2 = 1 := both.symm.trans (congrArg List.length only)
    exact absurd two (by decide)

end FsPkg.Conf
