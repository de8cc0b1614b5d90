import FsPkg.Proofs.ConfCalls
import Mathlib.Data.List.Infix

/-! # Block comments

A block comment starts with a line whose first text is `/*`, and one expects it to end at the next `*/`. To `dconf_init`
it ends only with a line that starts with `*/`: a comment that is closed at the end of a line of text, or on the line it
started on, goes on. Both the assignments that are lost to such a comment and the comments that change nothing can be
told from the pieces of the file.
-/

namespace FsPkg.Conf

open Machine
open Pkg (Text)

/-! ## Comments as they are meant -/

/-- Whether a block comment is open behind a line, given whether one is in front of it. -/
def blockAfter (inBlock : Bool) (line : Text) : Bool :=
  if inBlock then ¬['*', '/'] <:+: line
  else ['/', '*'] <+: line.dropWhile isBlank ∧ ¬['*', '/'] <:+: (line.dropWhile isBlank).drop 2

/-- Every assignment outside of the block comments is stored. -/
def StoresOutside (file : Stream) : Prop :=
  ∀ before line after key val, physicalLines file.rest = before ++ line :: after →
    before.foldl blockAfter false = false → dconfLine line false = some (false, some (key, val)) →
    ∃ iterations, ∃ call ∈ callsIn before.flatten.length line.length (dconfInitCalls file iterations),
      call.key = key ∧ call.val = val ∧ call.returned = true

/-- Every assignment outside of the block comments stands in one piece, which is reached with the comment flag clear. -/
def ReachesOutside (text : Text) : Prop :=
  ∀ before line after key val, physicalLines text = before ++ line :: after →
    before.foldl blockAfter false = false → dconfLine line false = some (false, some (key, val)) →
    ∃ past buf future, buffers line = past ++ buf :: future ∧ kind buf = .assignment key val ∧
      flagAfter false (before.flatMap buffers ++ past) = false ∧ Passes (before.flatMap buffers ++ past ++ [buf])

theorem mem_keysListed {pairs : List (Text × Text)} {k : Text} :
    k ∈ keysListed pairs ↔ (lastListed pairs k).isSome = true := by
  rw [← present_sets, mem_present, latest_sets, Option.isSome_map]

theorem keysListed_append (first second : List (Text × Text)) :
    keysListed (first ++ second) = keysListed first ∪ keysListed second := by
  rw [keysListed, List.map_append, List.toFinset_append]
  rfl

theorem passes_append {read later : List Text} : Passes (read ++ later) ↔
    (Formed false read ∧ Formed (flagAfter false read) later) ∧
      (keysListed (settings false read) ∪ keysListed (settings (flagAfter false read) later)).card ≤ 2 ^ 27 := by
  rw [← formed_append, ← keysListed_append, ← settings_append]
  exact ⟨fun passes => ⟨passes.formed, passes.few⟩, fun both => ⟨both.1, both.2⟩⟩

theorem Passes.of_append {read later : List Text} (passes : Passes (read ++ later)) : Passes read := by
  obtain ⟨⟨formed, -⟩, few⟩ := passes_append.mp passes
  exact ⟨formed, le_trans (Finset.card_le_card Finset.subset_union_left) few⟩

theorem dconfInit_stores_outside_iff (text : Text) (fails : Bool) :
    StoresOutside { rest := text, fails } ↔ ReachesOutside text := by
  constructor
  · intro stores before line after key val split outside assigns
    obtain ⟨iterations, call, member, rfl, rfl, returned⟩ := stores before line after key val split outside assigns
    obtain ⟨past, buf, future, cut, -, -, clear, assigned, -, returns⟩ := (mem_callsIn_iff split).mp member
    exact ⟨past, buf, future, cut, assigned, clear, returns.mp returned⟩
  · intro reaches before line after key val split outside assigns
    obtain ⟨past, buf, future, cut, assigned, clear, passes⟩ := reaches before line after key val split outside assigns
    refine ⟨(before.flatMap buffers ++ past).length + 1,
      ⟨before.flatten.length + past.flatten.length, key, val, true⟩, ?_, rfl, rfl, rfl⟩
    exact (mem_callsIn_iff split).mpr ⟨past, buf, future, cut, Nat.lt_succ_self _, passes.of_append, clear, assigned,
      rfl, iff_of_true rfl passes⟩

/-! ## Comments that change nothing -/

/-- `dconf_init` reads the file to its end, and the dictionary then gives this answer. -/
def Answers (text k : Text) (defaultVal answer : Option Text) : Prop :=
  ∃ iterations d, dconfInit { rest := text } iterations = .returned (some d) ∧
    dconfGetStr (some d) (some k) defaultVal = some answer

/-- The two files make the same configuration, if they make one. -/
def SameConfiguration (text text' : Text) : Prop :=
  ∀ k defaultVal answer, Answers text k defaultVal answer ↔ Answers text' k defaultVal answer

/-- A block comment on lines of its own, from `/*` to the first `*/` behind it. -/
def IsBlockComment (comment : Text) : Prop :=
  ∃ indent body tail crlf, comment = indent ++ ['/', '*'] ++ body ++ ['*', '/'] ++ tail ++ lineEnd crlf ∧
    Blanks indent ∧ Blanks tail ∧ ¬['*', '/'] <:+: body ++ ['*']

/-- The last line is an assignment outside of the block comments. -/
def EndsWithAssignment (text : Text) : Prop :=
  Ended text ∧ ∃ before line key val, physicalLines text = before ++ [line] ∧ before.foldl blockAfter false = false ∧
    dconfLine line false = some (false, some (key, val))

/-- The first line is an assignment. -/
def StartsWithAssignment (text : Text) : Prop :=
  ∃ line after key val, physicalLines text = line :: after ∧ dconfLine line false = some (false, some (key, val))

/-- The comment may be put behind this text, whatever assignment follows. -/
def MayBeInserted (text comment : Text) : Prop :=
  ∀ behind, StartsWithAssignment behind → SameConfiguration (text ++ behind) (text ++ comment ++ behind)

/-- The text is not read to its end, or the comment is passed with the comment flag as it was and with no assignment but
of values that are set already. -/
def IsTransparent (text comment : Text) : Prop :=
  Passes (buffers text) →
    flagAfter false (buffers text ++ buffers comment) = flagAfter false (buffers text) ∧
    Passes (buffers text ++ buffers comment) ∧
    ∀ k, lastListed (settings false (buffers text ++ buffers comment)) k = lastListed (settings false (buffers text)) k

section Configuration

variable {text text' : Text}

theorem answers_iff {k : Text} {defaultVal answer : Option Text} : Answers text k defaultVal answer ↔
    Passes (buffers text) ∧ answer = (lastListed (settings false (buffers text)) k).or defaultVal := by
  constructor
  · rintro ⟨iterations, d, returned, answers⟩
    obtain ⟨flag, replayed⟩ := dconfInit_eq_returned_iff.mp ⟨iterations, returned⟩
    have passes := passes_of_replay replayed
    obtain ⟨d', replayed', get⟩ := passes.replay
    obtain ⟨-, same⟩ := Prod.mk.inj (Option.some.inj (replayed.symm.trans replayed'))
    obtain rfl := Option.some.inj same
    exact ⟨passes, Option.some.inj (answers.symm.trans (get k defaultVal))⟩
  · rintro ⟨passes, rfl⟩
    obtain ⟨d, replayed, get⟩ := passes.replay
    obtain ⟨iterations, returned⟩ := dconfInit_eq_returned_iff.mpr ⟨_, replayed⟩
    exact ⟨iterations, d, returned, get k defaultVal⟩

theorem sameConfiguration_iff : SameConfiguration text text' ↔ (Passes (buffers text) ↔ Passes (buffers text')) ∧
    (Passes (buffers text) → ∀ k,
      lastListed (settings false (buffers text')) k = lastListed (settings false (buffers text)) k) := by
  simp only [SameConfiguration, answers_iff]
  constructor
  · intro same
    have both : Passes (buffers text) ↔ Passes (buffers text') :=
      ⟨fun passes => ((same [] none _).mp ⟨passes, rfl⟩).1, fun passes => ((same [] none _).mpr ⟨passes, rfl⟩).1⟩
    refine ⟨both, fun passes k => ?_⟩
    have answer := ((same k none _).mp ⟨passes, rfl⟩).2
    rw [Option.or_none, Option.or_none] at answer
    exact answer.symm
  · rintro ⟨both, same⟩ k defaultVal answer
    constructor
    · rintro ⟨passes, rfl⟩
      exact ⟨both.mp passes, by rw [same passes]⟩
    · rintro ⟨passes, rfl⟩
      exact ⟨both.mpr passes, by rw [same (both.mpr passes)]⟩

theorem lastListed_append (first second : List (Text × Text)) (k : Text) :
    lastListed (first ++ second) k = (lastListed second k).or (lastListed first k) := by
  rw [lastListed, List.filter_append, List.getLast?_append, Option.map_or]
  rfl

end Configuration

/-! ## Lines to tell configurations apart -/

/-- An assignment of nothing. -/
def probe (key : Text) : Text :=
  key ++ ['=']

section Probe

variable {key : Text} {read : List Text}

theorem newline_notMem_probe (isKey : IsKey key) : '\n' ∉ probe key := by
  intro member
  rcases List.mem_append.mp member with inKey | behind
  · exact (isKey.clean _ inKey).2.2 rfl
  · exact absurd behind (by decide)

theorem pieces_eq_singleton {cut : Text → ℕ} {text : Text} (some_ : text ≠ []) (long : text.length ≤ cut text + 1) :
    pieces cut text = [text] := by
  rw [pieces_of_ne_nil some_, List.take_of_length_le long, List.drop_of_length_le long, pieces_nil]

theorem probe_ne_nil (key : Text) : probe key ≠ [] :=
  List.append_ne_nil_of_right_ne_nil _ (List.cons_ne_nil _ _)

theorem physicalLines_probe (isKey : IsKey key) : physicalLines (probe key) = [probe key] := by
  apply pieces_eq_singleton (probe_ne_nil key)
  rw [lineCut_of_notMem (newline_notMem_probe isKey)]
  exact Nat.le_succ _

theorem buffers_probe (isKey : IsKey key) (short : key.length ≤ 510) : buffers (probe key) = [probe key] := by
  apply pieces_eq_singleton (probe_ne_nil key)
  rw [bufferCut, lineCut_of_notMem (newline_notMem_probe isKey), probe, List.length_append, List.length_singleton,
    sizeofBuf]
  omega

theorem kind_probe (isKey : IsKey key) : kind (probe key) = .assignment key [] := by
  have isValue : IsValue [] := ⟨by simp [Clean], List.not_mem_nil⟩
  apply dconfLine_eq_assignment_iff.mp
  apply dconfLine_assignment isKey isValue false
  have clean : Clean (key ++ ['=']) := isKey.clean.append (by simp [Clean])
  obtain ⟨c, word, rfl⟩ := List.exists_cons_of_ne_nil isKey.nonempty
  have whole := stripped_append clean (isKey.notBlank c rfl) []
  rw [List.append_nil] at whole
  exact whole.trans (List.append_nil _)

theorem startsWithAssignment_probe (isKey : IsKey key) : StartsWithAssignment (probe key) :=
  ⟨probe key, [], key, [], physicalLines_probe isKey, dconfLine_eq_assignment_iff.mpr (kind_probe isKey)⟩

theorem settings_probe (isKey : IsKey key) (read : List Text) :
    settings false (read ++ [probe key]) =
      settings false read ++ if flagAfter false read then [] else [(key, [])] := by
  rw [settings_append, settings, settings, kind_probe isKey, List.append_nil]
  rfl

theorem Passes.probe (passes : Passes read) (isKey : IsKey key)
    (room : flagAfter false read = true ∨ (insert key (keysListed (settings false read))).card ≤ 2 ^ 27) :
    Passes (read ++ [probe key]) := by
  refine ⟨formed_append.mpr ⟨passes.formed, formed_cons.mpr ⟨fun _ => ?_, formed_nil⟩⟩, ?_⟩
  · rw [kind_probe isKey]
    exact Kind.noConfusion
  · rw [settings_probe isKey]
    cases flag : flagAfter false read with
    | true =>
      rw [if_pos rfl, List.append_nil]
      exact passes.few
    | false =>
      have keys : keysListed (settings false read ++ [(key, [])]) = insert key (keysListed (settings false read)) := by
        rw [keysListed_append, Finset.union_comm]
        rfl
      rw [if_neg Bool.false_ne_true, keys]
      exact room.resolve_left (by rw [flag]; exact Bool.false_ne_true)

theorem lastListed_probe_self (isKey : IsKey key) (fresh : key ∉ keysListed (settings false read)) :
    lastListed (settings false (read ++ [probe key])) key = if flagAfter false read then none else some [] := by
  rw [mem_keysListed, Bool.not_eq_true, Option.isSome_eq_false_iff, Option.isNone_iff_eq_none] at fresh
  rw [settings_probe isKey, lastListed_append, fresh, Option.or_none]
  split
  · rfl
  · simp [lastListed]

theorem lastListed_probe (isKey : IsKey key) {k : Text} (other : k ≠ key) :
    lastListed (settings false (read ++ [probe key])) k = lastListed (settings false read) k := by
  have nothing : lastListed (if flagAfter false read = true then [] else [(key, [])]) k = none := by
    split
    · rfl
    · simp [lastListed, Ne.symm other]
  rw [settings_probe isKey, lastListed_append, nothing, Option.none_or]

theorem lineCut_le (before behind : Text) : lineCut (before ++ '\n' :: behind) ≤ before.length := by
  rw [lineCut, List.takeWhile_append]
  split
  · simp
  · exact (List.takeWhile_prefix _).length_le

/-- A piece fits the buffer, and a newline ends it. -/
theorem mem_buffers {text buf : Text} (member : buf ∈ buffers text) :
    buf.length ≤ 511 ∧ ∀ before behind, buf = before ++ '\n' :: behind → behind = [] := by
  induction text using pieces_induction bufferCut with
  | nil => contradiction
  | next text some_ ih =>
    rw [buffers, pieces_of_ne_nil some_] at member
    rcases List.mem_cons.mp member with rfl | later
    · have short := List.length_take_le (bufferCut text + 1) text
      refine ⟨short.trans (Nat.succ_le_succ (Nat.min_le_left _ _)), ?_⟩
      intro before behind same
      have cut : lineCut text ≤ before.length := by
        rw [← List.take_append_drop (bufferCut text + 1) text, same, List.append_assoc]
        exact lineCut_le before _
      have bound : bufferCut text ≤ lineCut text := Nat.min_le_right _ _
      rw [same, List.length_append, List.length_cons] at short
      exact List.length_eq_zero_iff.mp (by omega)
    · exact ih later

/-- Nothing that ends a string or a line is left of a piece. -/
theorem clean_stripped {text buf : Text} (member : buf ∈ buffers text) : Clean (stripped buf) := by
  intro c inside
  have inside : c ∈ strStrip (cString buf) := (List.dropWhile_suffix _).subset inside
  have notNul : c ≠ '\x00' := by
    have inString : c ∈ cString buf := by
      rw [strStrip] at inside
      split at inside
      · exact (List.takeWhile_prefix _).subset inside
      · exact (List.takeWhile_prefix _).subset inside
    simpa using List.mem_takeWhile_imp inString
  refine ⟨notNul, ?_⟩
  rw [strStrip] at inside
  split at inside
  · rename_i returns
    refine ⟨by simpa using List.mem_takeWhile_imp inside, ?_⟩
    rintro rfl
    -- the newline would stand before the carriage return, and so not at the end
    obtain ⟨before, between, split⟩ := List.append_of_mem inside
    have whole : buf = before ++ '\n' :: (between ++ ((cString buf).dropWhile (· ≠ '\r') ++
        buf.dropWhile (· ≠ '\x00'))) := by
      rw [← List.cons_append, ← List.append_assoc, ← split, ← List.append_assoc, List.takeWhile_append_dropWhile]
      exact List.takeWhile_append_dropWhile.symm
    have nothing := (mem_buffers member).2 _ _ whole
    have ended : (cString buf).dropWhile (· ≠ '\r') = [] := by
      rw [List.append_eq_nil_iff, List.append_eq_nil_iff] at nothing
      exact nothing.2.1
    rw [← List.takeWhile_append_dropWhile (p := (· ≠ '\r')) (l := cString buf), ended, List.append_nil] at returns
    simpa using List.mem_takeWhile_imp returns
  · rename_i none
    refine ⟨?_, by simpa using List.mem_takeWhile_imp inside⟩
    rintro rfl
    exact none ((List.takeWhile_prefix _).subset inside)

theorem mem_settings {inComment : Bool} {key val : Text} {read : List Text}
    (member : (key, val) ∈ settings inComment read) : ∃ buf ∈ read, kind buf = .assignment key val := by
  induction read generalizing inComment with
  | nil => contradiction
  | cons buf rest ih =>
    rw [show buf :: rest = [buf] ++ rest from rfl, settings_append] at member
    rcases List.mem_append.mp member with here | later
    · exact ⟨buf, List.mem_cons_self, (mem_settings_singleton.mp here).2⟩
    · obtain ⟨buf', inside, assigns⟩ := ih later
      exact ⟨buf', List.mem_cons_of_mem _ inside, assigns⟩

/-- An assignment starts with no marker, and its key stands in front of the first `=`. -/
theorem kind_eq_assignment {buf val : Text} (assigns : kind buf = .assignment key val) :
    (∀ marker ∈ [[';'], ['#'], ['/', '/'], ['/', '*'], ['*', '/']], ¬marker <+: stripped buf) ∧
      '=' ∈ stripped buf ∧ key = (stripped buf).takeWhile (· ≠ '=') := by
  rw [kind] at assigns
  split at assigns
  · contradiction
  split at assigns
  · contradiction
  split at assigns
  · contradiction
  split at assigns
  · contradiction
  rename_i some_ notClosing notComment notOpening
  simp only [not_or] at notComment
  split at assigns
  · rename_i assigned
    refine ⟨?_, ?_, (Kind.assignment.inj assigns).1.symm⟩
    · simp only [List.forall_mem_cons, List.not_mem_nil]
      exact ⟨notComment.1, notComment.2.1, notComment.2.2, notOpening, notClosing, fun _ none => none.elim⟩
    · by_contra none
      rw [splitAssignment, if_neg none] at assigned
      contradiction
  · contradiction

/-- The key of an assignment can be written in another one. -/
theorem isKey_of_kind {text buf val : Text} (member : buf ∈ buffers text) (assigns : kind buf = .assignment key val)
    (nonempty : key ≠ []) : IsKey key ∧ key.length ≤ 510 := by
  obtain ⟨unmarked, equals, same⟩ := kind_eq_assignment assigns
  have before : key <+: stripped buf := by
    rw [same]
    exact List.takeWhile_prefix _
  have short : key.length < (stripped buf).length := by
    refine lt_of_le_of_ne before.length_le fun equal => ?_
    rw [← before.eq_of_length equal, same] at equals
    simpa using List.mem_takeWhile_imp equals
  have inside : (stripped buf).length ≤ buf.length :=
    (List.dropWhile_suffix _).length_le.trans (strip_prefix_self buf).length_le
  refine ⟨⟨fun c member' => clean_stripped member c (before.subset member'), nonempty, ?_, ?_, ?_⟩, ?_⟩
  · rw [same]
    intro equals'
    simpa using List.mem_takeWhile_imp equals'
  · intro c first
    have first' : (stripped buf).head? = some c := by
      obtain ⟨behind, split⟩ := before
      rw [← split, List.head?_append, first]
      rfl
    have shown := List.head?_dropWhile_not isBlank (strStrip (cString buf))
    rw [show List.head? (List.dropWhile _ _) = _ from first'] at shown
    exact shown
  · intro marker known starts
    exact unmarked marker known (starts.trans before)
  · have bound := (mem_buffers member).1
    omega

/-- There is always another key. -/
theorem exists_fresh {keys : Finset Text} (few : keys.card ≤ 2 ^ 27) :
    ∃ key, IsKey key ∧ key.length ≤ 510 ∧ key ∉ keys := by
  have many : keys.card < ((Finset.range (2 ^ 28)).image numbered).card := by
    rw [Finset.card_image_of_injOn, Finset.card_range]
    · omega
    · intro i low j low' same
      exact numbered_injOn (Finset.mem_range.mp low) (Finset.mem_range.mp low') same
  obtain ⟨key, member, fresh⟩ := Finset.exists_mem_notMem_of_card_lt_card many
  obtain ⟨i, -, rfl⟩ := Finset.mem_image.mp member
  exact ⟨_, isKey_numbered i, by simp [numbered], fresh⟩

/-- There is another key that the dictionary can take, even if it is full. -/
theorem exists_probe {text : Text} (passes : Passes (buffers text)) (k : Text) : ∃ key, IsKey key ∧ key.length ≤ 510 ∧
    k ≠ key ∧ (insert key (keysListed (settings false (buffers text)))).card ≤ 2 ^ 27 := by
  by_cases room : (keysListed (settings false (buffers text))).card < 2 ^ 27
  · obtain ⟨key, isKey, short, fresh⟩ := exists_fresh (show ({k} : Finset Text).card ≤ 2 ^ 27 by simp)
    refine ⟨key, isKey, short, fun same => fresh (Finset.mem_singleton.mpr same.symm), ?_⟩
    exact le_trans (Finset.card_insert_le _ _) room
  · have many : ({k, []} : Finset Text).card < (keysListed (settings false (buffers text))).card := by
      have two := Finset.card_le_two (a := k) (b := [])
      omega
    obtain ⟨key, member, other⟩ := Finset.exists_mem_notMem_of_card_lt_card many
    simp only [Finset.mem_insert, Finset.mem_singleton, not_or] at other
    obtain ⟨⟨_, val⟩, listed, rfl⟩ := List.mem_map.mp (List.mem_toFinset.mp member)
    obtain ⟨buf, inside, assigns⟩ := mem_settings listed
    obtain ⟨isKey, short⟩ := isKey_of_kind inside assigns other.2
    refine ⟨_, isKey, short, Ne.symm other.1, ?_⟩
    rw [Finset.insert_eq_of_mem member]
    exact passes.few

end Probe

/-! ## Inserting a comment -/

section Insert

variable {text comment : Text}

theorem IsBlockComment.ended (block : IsBlockComment comment) : Ended comment := by
  obtain ⟨indent, body, tail, crlf, rfl, -⟩ := block
  intro c last
  rw [List.getLast?_append] at last
  cases crlf with
  | true => simpa [lineEnd] using last.symm
  | false => simpa [lineEnd] using last.symm

theorem Ended.append (ended : Ended text) (ended' : Ended comment) : Ended (text ++ comment) := by
  intro c last
  rw [List.getLast?_append] at last
  rcases Option.or_eq_some_iff.mp last with last | ⟨-, last⟩
  · exact ended' c last
  · exact ended c last

theorem buffers_inserted (ended : Ended text) (ended' : Ended comment) (behind : Text) :
    buffers (text ++ comment ++ behind) = buffers text ++ buffers comment ++ buffers behind := by
  rw [buffers_append (ended.append ended'), buffers_append ended]

theorem mayBeInserted_of_isTransparent (ended : Ended text) (ended' : Ended comment)
    (transparent : IsTransparent text comment) : MayBeInserted text comment := by
  intro behind _
  rw [sameConfiguration_iff, buffers_inserted ended ended', buffers_append ended]
  by_cases passes : Passes (buffers text)
  · obtain ⟨flag, through, same⟩ := transparent passes
    have keys : keysListed (settings false (buffers text ++ buffers comment)) =
        keysListed (settings false (buffers text)) := by
      ext k
      rw [mem_keysListed, mem_keysListed, same]
    refine ⟨?_, fun _ k => ?_⟩
    · rw [passes_append, passes_append, flag, keys]
      simp only [passes.formed, through.formed]
    · rw [settings_append _ (buffers text ++ buffers comment), settings_append _ (buffers text) (buffers behind),
        lastListed_append, lastListed_append, flag, same]
  · refine ⟨iff_of_false (fun all => passes all.of_append) fun all => passes all.of_append.of_append, ?_⟩
    exact fun all => absurd all.of_append passes

theorem isTransparent_of_mayBeInserted (ended : Ended text) (ended' : Ended comment)
    (inserted : MayBeInserted text comment) : IsTransparent text comment := by
  intro passes
  have same {key : Text} (isKey : IsKey key) (short : key.length ≤ 510) :=
    sameConfiguration_iff.mp (inserted (probe key) (startsWithAssignment_probe isKey))
  have through : Passes (buffers text ++ buffers comment) := by
    obtain ⟨key, isKey, short, -, room⟩ := exists_probe passes []
    obtain ⟨both, -⟩ := same isKey short
    rw [buffers_inserted ended ended', buffers_append ended, buffers_probe isKey short] at both
    exact (both.mp (passes.probe isKey (.inr room))).of_append
  have listed (k : Text) : lastListed (settings false (buffers text ++ buffers comment)) k =
      lastListed (settings false (buffers text)) k := by
    obtain ⟨key, isKey, short, other, room⟩ := exists_probe passes k
    obtain ⟨-, answers⟩ := same isKey short
    rw [buffers_inserted ended ended', buffers_append ended, buffers_probe isKey short] at answers
    have answer := answers (passes.probe isKey (.inr room)) k
    rwa [lastListed_probe isKey other, lastListed_probe isKey other] at answer
  refine ⟨?_, through, listed⟩
  -- a key that is set by neither tells the flags apart
  obtain ⟨key, isKey, short, fresh⟩ := exists_fresh through.few
  have fresh' : key ∉ keysListed (settings false (buffers text)) := by
    rwa [mem_keysListed, listed, ← mem_keysListed] at fresh
  obtain ⟨both, answers⟩ := same isKey short
  rw [buffers_inserted ended ended', buffers_append ended, buffers_probe isKey short] at both answers
  by_contra different
  have all : Passes (buffers text ++ [probe key]) := by
    cases flag : flagAfter false (buffers text) with
    | true => exact passes.probe isKey (.inl flag)
    | false =>
      rw [flag, Bool.not_eq_false] at different
      exact both.mpr (through.probe isKey (.inl different))
  have answer := answers all key
  rw [lastListed_probe_self isKey fresh, lastListed_probe_self isKey fresh'] at answer
  revert different answer
  cases flagAfter false (buffers text ++ buffers comment) <;> cases flagAfter false (buffers text) <;> simp

end Insert

/-- When block comments end where they are closed. An assignment outside of them is stored just if a piece that carries
it is reached with the flag clear; and a closed comment may be inserted behind an assignment just if it is passed with
the flag and the settings as they were. -/
theorem block_comments_end_iff (text : Text) (fails : Bool) :
    (StoresOutside { rest := text, fails } ↔ ReachesOutside text) ∧
      ∀ comment, EndsWithAssignment text → IsBlockComment comment →
        (MayBeInserted text comment ↔ IsTransparent text comment) := by
  refine ⟨dconfInit_stores_outside_iff text fails, fun comment assignment block => ⟨?_, ?_⟩⟩
  · exact isTransparent_of_mayBeInserted assignment.1 block.ended
  · exact mayBeInserted_of_isTransparent assignment.1 block.ended

/-- An assignment, a comment that is closed on the line it starts on, and one that is closed on a line of its own. -/
def assignmentLine : Text := ['a', '=', '1', '\n']

def closedAtEnd : Text := ['/', '*', ' ', 'x', ' ', '*', '/', '\n']

def closedAtStart : Text := ['/', '*', '\n', '*', '/', '\n']

theorem endsWithAssignment_assignmentLine : EndsWithAssignment assignmentLine := by
  refine ⟨fun c last => ?_, [], assignmentLine, ['a'], ['1'], by decide, rfl, by decide⟩
  simpa [assignmentLine] using last.symm

theorem passes_assignmentLine : Passes (buffers assignmentLine) := by
  refine ⟨formed_cons.mpr ⟨fun _ => by decide, formed_nil⟩, ?_⟩
  exact (List.toFinset_card_le _).trans (by decide)

theorem isBlockComment_closedAtStart : IsBlockComment closedAtStart :=
  ⟨[], ['\n'], [], false, by decide, by simp [Blanks], by simp [Blanks], by decide⟩

theorem isBlockComment_closedAtEnd : IsBlockComment closedAtEnd :=
  ⟨[], [' ', 'x', ' '], [], false, by decide, by simp [Blanks], by simp [Blanks], by decide⟩

/-- The comment that is closed at the start of a line may stand between two assignments. -/
theorem block_comments_end_start : EndsWithAssignment assignmentLine ∧ IsBlockComment closedAtStart ∧
    MayBeInserted assignmentLine closedAtStart := by
  refine ⟨endsWithAssignment_assignmentLine, isBlockComment_closedAtStart, ?_⟩
  obtain ⟨-, inserts⟩ := block_comments_end_iff assignmentLine false
  apply (inserts closedAtStart endsWithAssignment_assignmentLine isBlockComment_closedAtStart).mpr
  intro _
  have assigned : settings false (buffers assignmentLine ++ buffers closedAtStart) =
      settings false (buffers assignmentLine) := by decide
  refine ⟨by decide, ⟨?_, ?_⟩, fun k => by rw [assigned]⟩
  · apply formed_append.mpr
    refine ⟨passes_assignmentLine.formed, formed_cons.mpr ⟨fun _ => by decide, ?_⟩⟩
    exact formed_cons.mpr ⟨fun _ => by decide, formed_nil⟩
  · rw [assigned]
    exact passes_assignmentLine.few

/-- The comment that is closed at the end of a line swallows the assignment behind it. -/
theorem block_comments_swallow :
    EndsWithAssignment assignmentLine ∧ IsBlockComment closedAtEnd ∧ blockAfter false closedAtEnd = false ∧
      dconfInitCalls { rest := closedAtEnd ++ assignmentLine } 3 = [] ∧
      ¬ StoresOutside { rest := closedAtEnd ++ assignmentLine } ∧ ¬ MayBeInserted assignmentLine closedAtEnd := by
  refine ⟨endsWithAssignment_assignmentLine, isBlockComment_closedAtEnd, by decide, by decide, fun stores => ?_,
    fun inserted => ?_⟩
  · obtain ⟨past, buf, future, cut, -, clear, -⟩ := (dconfInit_stores_outside_iff _ _).mp stores [closedAtEnd]
      assignmentLine [] ['a'] ['1'] (by decide) (by decide) (by decide)
    have alone : buffers assignmentLine = [] ++ assignmentLine :: [] := by decide
    have first : past = [] := by
      have lengths := congrArg List.length cut
      rw [alone, List.length_append, List.length_append, List.length_cons, List.length_cons, List.length_nil] at lengths
      exact List.length_eq_zero_iff.mp (by omega)
    rw [first] at clear
    exact absurd clear (by decide)
  · obtain ⟨flag, -⟩ := isTransparent_of_mayBeInserted endsWithAssignment_assignmentLine.1
      isBlockComment_closedAtEnd.ended inserted passes_assignmentLine
    exact absurd flag (by decide)

end FsPkg.Conf
