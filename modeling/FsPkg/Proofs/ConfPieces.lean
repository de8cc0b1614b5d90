import FsPkg.Machine.Pieces
import FsPkg.Proofs.ConfReads

/-! # What `dconf_init` reads of any file

The buffer is filled from the file again and again, each time with a line or, of a longer line, with the next 511
characters. What becomes of such a piece depends on its kind and on the comment flag, and the flag is set as the last
piece with a block marker in front says. So the calls that `dconf_init` makes on a file, and how it ends, can be told
from the pieces, whatever is in the file.
-/

namespace FsPkg.Conf

open Machine
open Pkg (Text)

/-! ## Lines and pieces -/

/-- The characters of the first line, but for its end. -/
def lineCut (text : Text) : ℕ :=
  (text.takeWhile (· ≠ '\n')).length

/-- The characters that `fgets` puts in the buffer behind the first one. -/
def bufferCut (text : Text) : ℕ :=
  min (sizeofBuf - 2) (lineCut text)

/-- The lines of a text, each with its newline; the last one may lack it. -/
def physicalLines (text : Text) : List Text :=
  pieces lineCut text

/-- What is read into the buffer, time after time. -/
def buffers (text : Text) : List Text :=
  pieces bufferCut text

/-- The text ends with a line. -/
def Ended (text : Text) : Prop :=
  ∀ c ∈ text.getLast?, c = '\n'

section Cuts

variable {text : Text}

theorem Ended.mem (ended : Ended text) (some_ : text ≠ []) : '\n' ∈ text := by
  obtain ⟨c, last⟩ : ∃ c, text.getLast? = some c := ⟨_, List.getLast?_eq_some_getLast some_⟩
  rw [← ended c last]
  exact List.mem_of_getLast? last

theorem Ended.drop (ended : Ended text) (n : ℕ) : Ended (text.drop n) := by
  intro c last
  rw [List.getLast?_drop] at last
  split at last
  · contradiction
  · exact ended c last

theorem lineCut_lt (newline : '\n' ∈ text) : lineCut text < text.length := by
  obtain ⟨before, behind, rfl⟩ := List.append_of_mem newline
  rw [lineCut, List.takeWhile_append]
  split
  · simp
  · rename_i short
    have bound := (List.takeWhile_prefix (· ≠ '\n') (l := before)).length_le
    simp only [List.length_append, List.length_cons]
    omega

theorem lineCut_append (newline : '\n' ∈ text) (behind : Text) : lineCut (text ++ behind) = lineCut text := by
  have shorter := lineCut_lt newline
  rw [lineCut] at shorter
  rw [lineCut, lineCut, List.takeWhile_append, if_neg (Nat.ne_of_lt shorter)]

theorem lineCut_of_notMem (none : '\n' ∉ text) : lineCut text = text.length := by
  rw [lineCut, List.takeWhile_eq_self_iff.mpr]
  intro c member
  exact decide_eq_true fun same => none (same ▸ member)

theorem closed_buffers : ClosedTexts bufferCut Ended where
  cut_append ended some_ behind := by rw [bufferCut, bufferCut, lineCut_append (ended.mem some_)]
  within ended some_ := Nat.lt_of_le_of_lt (Nat.min_le_right _ _) (lineCut_lt (ended.mem some_))
  drop ended _ := ended.drop _

theorem buffers_append (ended : Ended text) (behind : Text) :
    buffers (text ++ behind) = buffers text ++ buffers behind :=
  pieces_append closed_buffers ended behind

/-- Up to the first newline, or else up to the end. -/
theorem take_lineCut (text : Text) :
    (∃ line, '\n' ∉ line ∧ text.take (lineCut text + 1) = line ++ ['\n']) ∨
      '\n' ∉ text ∧ text.take (lineCut text + 1) = text := by
  by_cases newline : '\n' ∈ text
  · left
    obtain ⟨before, behind, rfl, none⟩ := List.eq_append_cons_of_mem newline
    have whole : List.takeWhile (· ≠ '\n') before = before :=
      List.takeWhile_eq_self_iff.mpr fun c member => decide_eq_true fun same => none (same ▸ member)
    have cut : lineCut (before ++ '\n' :: behind) = before.length := by
      rw [lineCut, List.takeWhile_append, if_pos (by rw [whole])]
      simp
    refine ⟨before, none, ?_⟩
    rw [cut, List.take_append]
    simp
  · right
    refine ⟨newline, List.take_of_length_le ?_⟩
    rw [lineCut_of_notMem newline]
    omega

/-- The pieces are those of the lines. -/
theorem buffers_eq_flatMap (text : Text) : buffers text = (physicalLines text).flatMap buffers := by
  induction text using pieces_induction lineCut with
  | nil => rfl
  | next text some_ ih =>
    rw [physicalLines, pieces_of_ne_nil some_, List.flatMap_cons]
    rcases take_lineCut text with ⟨line, none, first⟩ | ⟨none, first⟩
    · have ended : Ended (text.take (lineCut text + 1)) := by
        rw [first]
        intro c last
        simpa using last.symm
      conv_lhs => rw [← List.take_append_drop (lineCut text + 1) text]
      rw [buffers_append ended, ih]
      rfl
    · have nothing : text.drop (lineCut text + 1) = [] := by
        apply List.drop_of_length_le
        rw [lineCut_of_notMem none]
        omega
      rw [nothing, first, pieces_nil, List.flatMap_nil, List.append_nil]

end Cuts

/-! ## Kinds of pieces -/

/-- What the loop of `dconf_init` takes a piece for. -/
inductive Kind where
  | blank
  | closing
  | comment
  | opening
  | assignment (key val : Text)
  | malformed
deriving DecidableEq

def kind (buf : Text) : Kind :=
  if stripped buf = [] then .blank
  else if ['*', '/'] <+: stripped buf then .closing
  else if [';'] <+: stripped buf ∨ ['#'] <+: stripped buf ∨ ['/', '/'] <+: stripped buf then .comment
  else if ['/', '*'] <+: stripped buf then .opening
  else match strUnquote (splitAssignment (stripped buf)).2 with
    | some val => .assignment (splitAssignment (stripped buf)).1 val
    | none => .malformed

namespace Kind

/-- The comment flag behind a piece. -/
def flag (inComment : Bool) : Kind → Bool
  | .closing => false
  | .opening => true
  | _ => inComment

/-- What is assigned. -/
def setting : Kind → Option (Text × Text)
  | .assignment key val => some (key, val)
  | _ => none

/-- The body of the loop, by the kind of the piece. -/
def line (inComment : Bool) : Kind → Option (Bool × Option (Text × Text))
  | .malformed => if inComment then some (true, none) else none
  | .assignment key val => some (inComment, if inComment then none else some (key, val))
  | kind => some (kind.flag inComment, none)

end Kind

theorem dconfLine_eq (buf : Text) (inComment : Bool) : dconfLine buf inComment = (kind buf).line inComment := by
  rw [dconfLine, kind]
  split_ifs with blank closing comment opening
  · rfl
  · rfl
  · rfl
  · rfl
  · cases assigned : strUnquote (splitAssignment (stripped buf)).2 <;> cases inComment <;>
      simp [Kind.line, assigned]

/-- The comment flag behind some pieces: the last one that opens or closes a block comment decides. -/
def flagAfter (inComment : Bool) (read : List Text) : Bool :=
  read.foldl (fun inComment buf => (kind buf).flag inComment) inComment

/-- What is assigned outside of comments. -/
def settings (inComment : Bool) : List Text → List (Text × Text)
  | [] => []
  | buf :: rest => (if inComment then [] else (kind buf).setting.toList) ++ settings ((kind buf).flag inComment) rest

/-- No piece outside of comments is malformed. -/
def Formed (inComment : Bool) (read : List Text) : Prop :=
  ∀ past buf future, read = past ++ buf :: future → flagAfter inComment past = false → kind buf ≠ .malformed

section Pieces

theorem settings_append (inComment : Bool) (read later : List Text) :
    settings inComment (read ++ later) = settings inComment read ++ settings (flagAfter inComment read) later := by
  induction read generalizing inComment with
  | nil => rfl
  | cons buf rest ih =>
    rw [List.cons_append, settings, settings, ih, List.append_assoc]
    rfl

variable {inComment : Bool} {read later : List Text}

theorem formed_nil : Formed inComment [] := by
  intro past buf future none
  exact absurd none.symm (List.append_ne_nil_of_right_ne_nil past (List.cons_ne_nil _ _))

theorem formed_cons {buf : Text} {rest : List Text} : Formed inComment (buf :: rest) ↔
    (inComment = false → kind buf ≠ .malformed) ∧ Formed ((kind buf).flag inComment) rest := by
  constructor
  · intro formed
    refine ⟨formed [] buf rest rfl, fun past buf' future split => formed (buf :: past) buf' future ?_⟩
    rw [split, List.cons_append]
  · rintro ⟨here, formed⟩ past buf' future split outside
    cases past with
    | nil =>
      obtain ⟨rfl, -⟩ := List.cons.inj split
      exact here outside
    | cons first past =>
      obtain ⟨rfl, tail⟩ := List.cons.inj split
      exact formed past buf' future tail outside

theorem formed_append :
    Formed inComment (read ++ later) ↔ Formed inComment read ∧ Formed (flagAfter inComment read) later := by
  induction read generalizing inComment with
  | nil => exact ⟨fun formed => ⟨formed_nil, formed⟩, And.right⟩
  | cons buf rest ih =>
    rw [List.cons_append, formed_cons, formed_cons, ih, and_assoc]
    rfl

end Pieces

/-! ## Replaying the pieces -/

/-- The loop over the pieces: the comment flag and the dictionary behind them, if it gets there. -/
def replay (inComment : Bool) (dict : Option Dictionary) : List Text → Option (Bool × Option Dictionary)
  | [] => some (inComment, dict)
  | buf :: rest =>
    match dconfLine buf inComment with
    | none => none
    | some (inComment, none) => replay inComment dict rest
    | some (inComment, some (key, val)) =>
      match dconfSet dict (some key) (some val) {} with
      | none => none
      | some (_, dict) => replay inComment dict rest

theorem replay_cons (inComment : Bool) (dict : Option Dictionary) (buf : Text) (rest : List Text) :
    replay inComment dict (buf :: rest) =
      if inComment = false ∧ kind buf = .malformed then none
      else ((sets (settings inComment [buf])).foldlM ConfOp.run dict).bind fun dict =>
        replay ((kind buf).flag inComment) dict rest := by
  rw [replay, dconfLine_eq, settings, settings]
  cases kind buf with
  | assignment key val =>
    cases inComment with
    | true => rfl
    | false =>
      rw [if_neg fun both => Kind.noConfusion both.2]
      have call : (sets ((if false = true then [] else (Kind.assignment key val).setting.toList) ++ [])).foldlM
          ConfOp.run dict = (dconfSet dict (some key) (some val) {}).map Prod.snd := by
        rw [show sets _ = [ConfOp.dconfSet key (some val)] from rfl, List.foldlM_cons, ConfOp.run]
        cases dconfSet dict (some key) (some val) {} <;> rfl
      rw [call]
      simp only [Kind.line, Bool.false_eq_true, if_false]
      cases dconfSet dict (some key) (some val) {} <;> rfl
  | _ => cases inComment <;> rfl

theorem replay_eq_some_iff {inComment flag : Bool} {dict dict' : Option Dictionary} {read : List Text} :
    replay inComment dict read = some (flag, dict') ↔ Formed inComment read ∧ flag = flagAfter inComment read ∧
      (sets (settings inComment read)).foldlM ConfOp.run dict = some dict' := by
  induction read generalizing inComment dict with
  | nil =>
    rw [replay, Option.some.injEq, Prod.mk.injEq]
    exact ⟨fun same => ⟨formed_nil, same.1.symm, congrArg some same.2⟩,
      fun same => ⟨same.2.1.symm, Option.some.inj same.2.2⟩⟩
  | cons buf rest ih =>
    have calls : sets (settings inComment (buf :: rest)) =
        sets (settings inComment [buf]) ++ sets (settings ((kind buf).flag inComment) rest) := by
      rw [show buf :: rest = [buf] ++ rest from rfl, settings_append, sets, List.map_append]
      rfl
    rw [replay_cons, calls, List.foldlM_append, formed_cons]
    by_cases malformed : inComment = false ∧ kind buf = .malformed
    · rw [if_pos malformed]
      refine iff_of_false (Option.some_ne_none _).symm ?_
      rintro ⟨⟨formed, -⟩, -⟩
      exact formed malformed.1 malformed.2
    · rw [if_neg malformed]
      cases (sets (settings inComment [buf])).foldlM ConfOp.run dict with
      | none =>
        refine iff_of_false (Option.some_ne_none _).symm fun both => ?_
        exact Option.some_ne_none _ both.2.2.symm
      | some dict =>
        have formed : inComment = false → kind buf ≠ .malformed := fun outside same => malformed ⟨outside, same⟩
        rw [Option.bind_some, ih]
        exact ⟨fun both => ⟨⟨formed, both.1⟩, both.2⟩, fun both => ⟨both.1.2, both.2⟩⟩

/-- How `dconf_init` ends when it has come to the end of the pieces, or has not. -/
def Init.ofReplay : Option (Bool × Option Dictionary) → Init
  | none => .fault
  | some (_, dict) => .returned dict

theorem fgetsLoop_eq (room : ℕ) (text : Text) : fgetsLoop room text =
    (text.take (min room (lineCut text + 1)), text.drop (min room (lineCut text + 1)),
      decide (text.length < room ∧ '\n' ∉ text)) := by
  induction text generalizing room with
  | nil => cases room <;> simp [fgetsLoop]
  | cons c rest ih =>
    cases room with
    | zero => simp [fgetsLoop]
    | succ room =>
      by_cases newline : c = '\n'
      · simp [fgetsLoop, newline, lineCut]
      · have cut : lineCut (c :: rest) = lineCut rest + 1 := by
          simp [lineCut, newline]
        rw [fgetsLoop, if_neg newline, ih, cut, Nat.succ_min_succ]
        simp [Ne.symm newline]

/-- One call of `fgets` reads one piece. It comes to the end only when nothing is left. -/
theorem fgets_eq (text : Text) (fails : Bool) :
    ∃ eof, fgets sizeofBuf { rest := text, fails } =
      (text.take (bufferCut text + 1), { rest := text.drop (bufferCut text + 1), fails, eof }) ∧
        (eof = true → fails = false ∧ text.drop (bufferCut text + 1) = []) := by
  have room : min (sizeofBuf - 1) (lineCut text + 1) = bufferCut text + 1 :=
    Nat.succ_min_succ (sizeofBuf - 2) (lineCut text)
  refine ⟨decide (text.length < sizeofBuf - 1 ∧ '\n' ∉ text) && !fails, ?_, ?_⟩
  · rw [fgets, fgetsLoop_eq, room]
    rfl
  · intro ended
    rw [Bool.and_eq_true, decide_eq_true_eq, Bool.not_eq_true'] at ended
    obtain ⟨⟨short, none⟩, works⟩ := ended
    refine ⟨works, List.drop_of_length_le ?_⟩
    rw [← room, lineCut_of_notMem none]
    omega

/-- The loop comes to the end of every file that can be read to its end, or faults on the way there. -/
theorem dconfLoop_replay (text : Text) (inComment : Bool) (dict : Option Dictionary) {fuel : ℕ}
    (enough : (buffers text).length + 2 ≤ fuel) :
    dconfLoop fuel { rest := text } inComment dict = .ofReplay (replay inComment dict (buffers text)) := by
  induction text using pieces_induction bufferCut generalizing inComment dict fuel with
  | nil =>
    obtain ⟨fuel, rfl⟩ := Nat.exists_eq_add_of_le' enough
    exact dconfLoop_end fuel inComment dict
  | next text some_ ih =>
    obtain ⟨eof, read, ended⟩ := fgets_eq text false
    rw [buffers, pieces_of_ne_nil some_, List.length_cons] at enough
    obtain ⟨fuel, rfl⟩ := Nat.exists_eq_add_of_le' (Nat.le_trans (Nat.le_add_left 1 _) enough)
    have goesOn (inComment : Bool) (dict : Option Dictionary) :
        dconfLoop fuel { rest := text.drop (bufferCut text + 1), eof } inComment dict =
          .ofReplay (replay inComment dict (buffers (text.drop (bufferCut text + 1)))) := by
      cases eof with
      | false => exact ih inComment dict (by rw [buffers]; omega)
      | true =>
        obtain ⟨fuel, rfl⟩ := Nat.exists_eq_add_of_le' (show 1 ≤ fuel by omega)
        rw [(ended rfl).2]
        rfl
    rw [dconfLoop, if_neg Bool.false_ne_true, read, buffers, pieces_of_ne_nil some_, replay]
    simp only
    cases dconfLine (text.take (bufferCut text + 1)) inComment with
    | none => rfl
    | some pair =>
      obtain ⟨inComment, _ | ⟨key, val⟩⟩ := pair
      · exact goesOn inComment dict
      · simp only
        cases dconfSet dict (some key) (some val) {} with
        | none => rfl
        | some pair => exact goesOn inComment pair.2

/-- A read error is never an end. -/
theorem dconfLoop_fails (fuel : ℕ) (text : Text) (inComment : Bool) (dict dict' : Option Dictionary) :
    dconfLoop fuel { rest := text, fails := true } inComment dict ≠ .returned dict' := by
  induction fuel generalizing text inComment dict with
  | zero => exact Init.noConfusion
  | succ fuel ih =>
    obtain ⟨eof, read, ended⟩ := fgets_eq text true
    have goesOn : eof = false := Bool.eq_false_iff.mpr fun atEnd => Bool.false_ne_true (ended atEnd).1.symm
    rw [dconfLoop, if_neg Bool.false_ne_true, read, goesOn]
    simp only
    cases dconfLine (text.take (bufferCut text + 1)) inComment with
    | none => exact Init.noConfusion
    | some pair =>
      obtain ⟨inComment, _ | ⟨key, val⟩⟩ := pair
      · exact ih _ inComment dict
      · simp only
        cases dconfSet dict (some key) (some val) {} with
        | none => exact Init.noConfusion
        | some pair => exact ih _ inComment pair.2

/-! ## How `dconf_init` ends -/

/-- The pieces are read to the end: none of those outside of comments is malformed, and the dictionary can hold what
they assign. -/
structure Passes (read : List Text) : Prop where
  formed : Formed false read
  few : (keysListed (settings false read)).card ≤ 2 ^ 27

/-- What the dictionary answers if the pieces are read to the end. -/
theorem Passes.replay {read : List Text} (passes : Passes read) :
    ∃ d, Conf.replay false (some (dictionaryNew 0)) read = some (flagAfter false read, some d) ∧
      ∀ k defaultVal, dconfGetStr (some d) (some k) defaultVal =
        some ((lastListed (settings false read) k).or defaultVal) := by
  obtain ⟨d, ran, represents⟩ := represents_runs (roomy_sets passes.few)
  refine ⟨d, replay_eq_some_iff.mpr ⟨passes.formed, rfl, ran⟩, ?_⟩
  intro k defaultVal
  rw [dconfGetStr, represents.get, lookup_storeAfter, latest_sets]
  cases lastListed (settings false read) k <;> rfl

theorem passes_of_replay {read : List Text} {flag : Bool} {dict : Option Dictionary}
    (replayed : Conf.replay false (some (dictionaryNew 0)) read = some (flag, dict)) : Passes read := by
  obtain ⟨formed, -, ran⟩ := replay_eq_some_iff.mp replayed
  refine ⟨formed, not_lt.mp fun many => ?_⟩
  rw [sets_overflow many] at ran
  contradiction

/-- `dconf_init` returns. -/
def Survives (file : Stream) : Prop :=
  ∃ iterations dict, dconfInit file iterations = .returned dict

/-- Iterations that are left over change nothing. -/
theorem dconfLoop_mono {fuel fuel' : ℕ} {fp : Stream} {inComment : Bool} {dict dict' : Option Dictionary}
    (more : fuel ≤ fuel') (returned : dconfLoop fuel fp inComment dict = .returned dict') :
    dconfLoop fuel' fp inComment dict = .returned dict' := by
  induction fuel generalizing fuel' fp inComment dict with
  | zero => exact Init.noConfusion returned
  | succ fuel ih =>
    obtain ⟨fuel', rfl⟩ := Nat.exists_eq_add_of_le' (Nat.le_trans (Nat.le_add_left 1 fuel) more)
    have less : fuel ≤ fuel' := Nat.le_of_succ_le_succ more
    by_cases eof : fp.eof = true
    · rw [dconfLoop, if_pos eof] at returned ⊢
      exact returned
    · rw [dconfLoop, if_neg eof] at returned ⊢
      revert returned
      simp only
      cases dconfLine (fgets sizeofBuf fp).1 inComment with
      | none => exact id
      | some pair =>
        obtain ⟨inComment, _ | ⟨key, val⟩⟩ := pair
        · exact ih less
        · simp only
          cases dconfSet dict (some key) (some val) {} with
          | none => exact id
          | some pair => exact ih less

/-- What `dconf_init` returns is what the pieces leave. -/
theorem dconfInit_eq_returned_iff {text : Text} {dict : Option Dictionary} :
    (∃ iterations, dconfInit { rest := text } iterations = .returned dict) ↔
      ∃ flag, replay false (some (dictionaryNew 0)) (buffers text) = some (flag, dict) := by
  constructor
  · rintro ⟨iterations, returned⟩
    have later := dconfLoop_mono (Nat.le_add_right iterations ((buffers text).length + 2)) returned
    rw [dconfLoop_replay text _ _ (Nat.le_add_left _ _)] at later
    cases replayed : replay false (some (dictionaryNew 0)) (buffers text) with
    | none =>
      rw [replayed] at later
      exact Init.noConfusion later
    | some pair =>
      rw [replayed] at later
      exact ⟨pair.1, congrArg (fun dict => some (pair.1, dict)) (Init.returned.inj later)⟩
  · rintro ⟨flag, replayed⟩
    refine ⟨(buffers text).length + 2, ?_⟩
    rw [dconfInit, dconfLoop_replay text _ _ le_rfl, replayed]
    rfl

/-- `dconf_init` returns just if the file can be read to its end, no piece of it outside of comments is malformed, and
the keys are not too many. -/
theorem dconfInit_survives_iff (text : Text) (fails : Bool) :
    Survives { rest := text, fails } ↔ fails = false ∧ Passes (buffers text) := by
  cases fails with
  | true =>
    refine iff_of_false ?_ fun both => Bool.false_ne_true both.1.symm
    rintro ⟨iterations, dict, returned⟩
    exact dconfLoop_fails _ _ _ _ _ returned
  | false =>
    constructor
    · rintro ⟨iterations, dict, returned⟩
      obtain ⟨flag, replayed⟩ := dconfInit_eq_returned_iff.mp ⟨iterations, returned⟩
      exact ⟨rfl, passes_of_replay replayed⟩
    · rintro ⟨-, passes⟩
      obtain ⟨d, replayed, -⟩ := passes.replay
      obtain ⟨iterations, returned⟩ := dconfInit_eq_returned_iff.mpr ⟨_, replayed⟩
      exact ⟨iterations, some d, returned⟩

/-- A line without `=` is passed to `index` as `NULL`, and a file that cannot be read is read forever. -/
theorem dconfInit_not_survives :
    dconfInit { rest := ['a', '\n'] } 1 = .fault ∧ ¬ Survives { rest := ['a', '\n'] } ∧
      ¬ Survives { rest := [], fails := true } := by
  refine ⟨by decide, fun survives => ?_, fun survives => ?_⟩
  · obtain ⟨-, passes⟩ := (dconfInit_survives_iff _ _).mp survives
    exact passes.formed [] ['a', '\n'] [] (by decide) rfl (by decide)
  · exact Bool.false_ne_true ((dconfInit_survives_iff _ _).mp survives).1.symm

end FsPkg.Conf
