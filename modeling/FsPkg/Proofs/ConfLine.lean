import FsPkg.Model.Conf
import Mathlib.Data.List.TakeWhile

/-! # One line of the configuration file

What `dconf_init` makes of a line is decided by what `stripped` leaves of it. Each kind of line has its lemma: a
line comment and a blank line change nothing, the two block markers set the comment flag, a line inside a block
comment is passed over, and an assignment reaches `dconf_set` with the key and the value that stand in it.
-/

namespace FsPkg.Conf

open Pkg (Text)

/-- No character of the text ends a string or a line. -/
def Clean (text : Text) : Prop :=
  ∀ c ∈ text, c ≠ '\x00' ∧ c ≠ '\r' ∧ c ≠ '\n'

/-- Blanks and tabs only. -/
def Blanks (text : Text) : Prop :=
  ∀ c ∈ text, c = ' ' ∨ c = '\t'

/-- `LF`, or `CR` and `LF`. -/
def lineEnd (crlf : Bool) : Text :=
  if crlf then ['\r', '\n'] else ['\n']

theorem Blanks.clean {text : Text} (blanks : Blanks text) : Clean text := by
  intro c member
  rcases blanks c member with rfl | rfl <;> decide

theorem Clean.append {text tail : Text} (clean : Clean text) (cleanTail : Clean tail) : Clean (text ++ tail) := by
  intro c member
  rcases List.mem_append.mp member with here | there
  · exact clean c here
  · exact cleanTail c there

/-- Nothing is cut out of clean text. -/
theorem strip_append {text : Text} (clean : Clean text) (tail : Text) :
    strStrip (cString (text ++ tail)) = text ++ strStrip (cString tail) := by
  have noReturn : '\r' ∉ text := fun member => (clean _ member).2.1 rfl
  have whole : cString (text ++ tail) = text ++ cString tail :=
    List.takeWhile_append_of_pos fun c member => decide_eq_true (clean c member).1
  rw [whole, strStrip, strStrip]
  by_cases cr : '\r' ∈ cString tail
  · rw [if_pos (List.mem_append_right _ cr), if_pos cr]
    exact List.takeWhile_append_of_pos fun c member => decide_eq_true (clean c member).2.1
  · have neither : '\r' ∉ text ++ cString tail := by
      rw [List.mem_append]
      exact not_or.mpr ⟨noReturn, cr⟩
    rw [if_neg neither, if_neg cr]
    exact List.takeWhile_append_of_pos fun c member => decide_eq_true (clean c member).2.2

theorem strip_lineEnd (crlf : Bool) : strStrip (cString (lineEnd crlf)) = [] := by
  cases crlf <;> decide

theorem stripped_indent {indent : Text} (blanks : Blanks indent) (tail : Text) :
    stripped (indent ++ tail) = stripped tail := by
  rw [stripped, strip_append blanks.clean]
  apply List.dropWhile_append_of_pos
  intro c member
  rcases blanks c member with rfl | rfl <;> decide

/-- A line that starts with clean text other than a blank still does. -/
theorem stripped_append {c : Char} {text : Text} (clean : Clean (c :: text)) (shown : isBlank c = false) (tail : Text) :
    stripped (c :: text ++ tail) = c :: text ++ strStrip (cString tail) := by
  rw [stripped, strip_append clean, strWhitespaceSkip, List.cons_append]
  exact List.dropWhile_cons_of_neg (by simp [shown])

theorem stripped_blank {indent : Text} (blanks : Blanks indent) (crlf : Bool) :
    stripped (indent ++ lineEnd crlf) = [] := by
  rw [stripped_indent blanks, stripped, strip_lineEnd]
  rfl

/-! ## Prefixes -/

theorem prefix_dropWhile {first second : Text} (isPrefix : first <+: second) (skip : Char → Bool) :
    first.dropWhile skip <+: second.dropWhile skip := by
  obtain ⟨tail, rfl⟩ := isPrefix
  rw [List.dropWhile_append]
  split
  · rename_i nothing
    rw [List.isEmpty_iff.mp nothing]
    exact List.nil_prefix
  · exact List.prefix_append _ _

theorem strip_prefix_self (buf : Text) : strStrip (cString buf) <+: buf := by
  have string : cString buf <+: buf := List.takeWhile_prefix _
  rw [strStrip]
  split
  · exact (List.takeWhile_prefix _).trans string
  · exact (List.takeWhile_prefix _).trans string

/-- What is left of a line starts with `*/` only if the line does, behind its blanks. -/
theorem stripped_close {indent text : Text} {crlf : Bool} (blanks : Blanks indent)
    (closes : ['*', '/'] <+: stripped (indent ++ text ++ lineEnd crlf)) :
    ['*', '/'] <+: text.dropWhile isBlank := by
  rw [List.append_assoc, stripped_indent blanks] at closes
  have whole : ['*', '/'] <+: (text ++ lineEnd crlf).dropWhile isBlank :=
    closes.trans (prefix_dropWhile (strip_prefix_self _) _)
  rw [List.dropWhile_append] at whole
  split at whole
  · -- only the line end is left, and it does not start with `*`
    cases crlf <;> exact absurd whole (by decide)
  · cases left : text.dropWhile isBlank with
    | nil =>
      rename_i something
      rw [left] at something
      exact absurd rfl something
    | cons c rest =>
      rw [left, List.cons_append, List.cons_prefix_cons] at whole
      obtain ⟨rfl, whole⟩ := whole
      refine List.cons_prefix_cons.mpr ⟨rfl, ?_⟩
      cases rest with
      | nil => cases crlf <;> exact absurd whole (by decide)
      | cons c rest =>
        rw [List.cons_append, List.cons_prefix_cons] at whole
        exact List.cons_prefix_cons.mpr ⟨whole.1, List.nil_prefix⟩

/-! ## The kinds of lines -/

variable {buf : Text} {inComment : Bool}

theorem dconfLine_blank (blank : stripped buf = []) : dconfLine buf inComment = some (inComment, none) := by
  rw [dconfLine]
  simp only [blank, ↓reduceIte]

/-- A line comment, also inside a block comment. -/
theorem dconfLine_comment {rest : Text}
    (comment : stripped buf = ';' :: rest ∨ stripped buf = '#' :: rest ∨ stripped buf = '/' :: '/' :: rest) :
    dconfLine buf inComment = some (inComment, none) := by
  rw [dconfLine]
  rcases comment with comment | comment | comment <;> simp [comment, List.cons_prefix_cons]

theorem dconfLine_open {rest : Text} (opens : stripped buf = '/' :: '*' :: rest) :
    dconfLine buf inComment = some (true, none) := by
  rw [dconfLine]
  simp [opens, List.cons_prefix_cons]

theorem dconfLine_close {rest : Text} (closes : stripped buf = '*' :: '/' :: rest) :
    dconfLine buf inComment = some (false, none) := by
  rw [dconfLine]
  simp [closes, List.cons_prefix_cons]

/-- Inside a block comment only its end is looked for. -/
theorem dconfLine_inside (open_ : ¬['*', '/'] <+: stripped buf) : dconfLine buf true = some (true, none) := by
  rw [dconfLine]
  by_cases blank : stripped buf = []
  · rw [if_pos blank]
  · rw [if_neg blank, if_neg open_]
    split
    · rfl
    · simp only [ite_self, ↓reduceIte]

/-! ## Assignments -/

/-- The text may stand as a key. -/
structure IsKey (key : Text) : Prop where
  clean : Clean key
  nonempty : key ≠ []
  noEquals : '=' ∉ key
  notBlank : ∀ c ∈ key.head?, isBlank c = false
  notMarker : ∀ marker ∈ [[';'], ['#'], ['/', '/'], ['/', '*'], ['*', '/']], ¬marker <+: key

/-- The text may stand as a value. -/
structure IsValue (val : Text) : Prop where
  clean : Clean val
  noQuote : '"' ∉ val

/-- The value as it is written, between quotes or not. -/
def written (val : Text) (quoted : Bool) : Text :=
  if quoted then '"' :: val ++ ['"'] else val

/-- A marker of two characters that starts an assignment starts its key. -/
theorem IsKey.marker {key : Text} (isKey : IsKey key) {a : Char} {marker : Text} (short : marker.length ≤ 1)
    (noEquals : '=' ∉ marker) (tail : Text) : a :: marker <+: key ++ '=' :: tail ↔ a :: marker <+: key := by
  refine ⟨?_, fun starts => starts.trans (List.prefix_append _ _)⟩
  intro starts
  obtain ⟨c, rest, rfl⟩ := List.exists_cons_of_ne_nil isKey.nonempty
  rw [List.cons_append, List.cons_prefix_cons] at starts
  refine List.cons_prefix_cons.mpr ⟨starts.1, ?_⟩
  match marker, rest, starts.2 with
  | [], _, _ => exact List.nil_prefix
  | [b], [], starts =>
    rw [List.nil_append, List.cons_prefix_cons] at starts
    rw [starts.1] at noEquals
    exact absurd (List.mem_singleton_self _) noEquals
  | [b], _ :: _, starts =>
    rw [List.cons_append, List.cons_prefix_cons] at starts
    exact List.cons_prefix_cons.mpr ⟨starts.1, List.nil_prefix⟩

theorem splitAssignment_append {key : Text} (noEquals : '=' ∉ key) (tail : Text) :
    splitAssignment (key ++ '=' :: tail) = (key, some tail) := by
  have others : ∀ c ∈ key, decide (c ≠ '=') = true := by
    intro c member
    refine decide_eq_true fun same => noEquals ?_
    rw [← same]
    exact member
  rw [splitAssignment, if_pos (List.mem_append_right _ List.mem_cons_self), List.takeWhile_append_of_pos others,
    List.dropWhile_append_of_pos others]
  simp

theorem strUnquote_written {val : Text} (isValue : IsValue val) (quoted : Bool) :
    strUnquote (some (written val quoted)) = some val := by
  have others : ∀ c ∈ val, decide (c ≠ '"') = true := by
    intro c member
    refine decide_eq_true fun same => isValue.noQuote ?_
    rw [← same]
    exact member
  cases quoted with
  | true =>
    simp only [strUnquote, written, ↓reduceIte, List.cons_append, List.head?_cons, List.tail_cons, Option.some_inj]
    rw [List.takeWhile_append_of_pos others]
    simp
  | false =>
    have bare : val.head? ≠ some '"' := fun first => isValue.noQuote (List.mem_of_mem_head? first)
    simp only [strUnquote, written, Bool.false_eq_true, ↓reduceIte, bare, Option.some_inj]
    exact List.takeWhile_eq_self_iff.mpr others

theorem clean_written {val : Text} (isValue : IsValue val) (quoted : Bool) : Clean (written val quoted) := by
  cases quoted with
  | false => exact isValue.clean
  | true =>
    intro c member
    rw [written, if_pos rfl, List.mem_append, List.mem_cons, List.mem_singleton] at member
    rcases member with (rfl | inside) | rfl
    · decide
    · exact isValue.clean c inside
    · decide

theorem stripped_assignment {indent key val : Text} (blanks : Blanks indent) (isKey : IsKey key) (isValue : IsValue val)
    (quoted crlf : Bool) :
    stripped (indent ++ (key ++ '=' :: written val quoted) ++ lineEnd crlf) = key ++ '=' :: written val quoted := by
  have cleanRest : Clean ('=' :: written val quoted) :=
    List.forall_mem_cons.mpr ⟨by decide, clean_written isValue quoted⟩
  have clean := isKey.clean.append cleanRest
  obtain ⟨c, word, rfl⟩ := List.exists_cons_of_ne_nil isKey.nonempty
  rw [List.cons_append] at clean
  rw [List.append_assoc, stripped_indent blanks, List.cons_append, stripped_append clean (isKey.notBlank c rfl),
    strip_lineEnd, List.append_nil]

/-- An assignment outside of comments is stored as it is written. -/
theorem dconfLine_assignment {key val : Text} (isKey : IsKey key) (isValue : IsValue val) (quoted : Bool)
    (assigns : stripped buf = key ++ '=' :: written val quoted) :
    dconfLine buf false = some (false, some (key, val)) := by
  have absent : ∀ (a : Char) (marker : Text), a :: marker ∈ [[';'], ['#'], ['/', '/'], ['/', '*'], ['*', '/']] →
      marker.length ≤ 1 → '=' ∉ marker → ¬a :: marker <+: stripped buf := by
    intro a marker known short noEquals starts
    rw [assigns, isKey.marker short noEquals] at starts
    exact isKey.notMarker _ known starts
  have something : stripped buf ≠ [] := by
    rw [assigns]
    simp
  have noComment : ¬([';'] <+: stripped buf ∨ ['#'] <+: stripped buf ∨ ['/', '/'] <+: stripped buf) := by
    rintro (starts | starts | starts)
    · exact absent ';' [] (by decide) (by decide) (by decide) starts
    · exact absent '#' [] (by decide) (by decide) (by decide) starts
    · exact absent '/' ['/'] (by decide) (by decide) (by decide) starts
  rw [dconfLine]
  simp only [something, absent '*' ['/'] (by decide) (by decide) (by decide), noComment,
    absent '/' ['*'] (by decide) (by decide) (by decide), ↓reduceIte, Bool.false_eq_true]
  rw [assigns, splitAssignment_append isKey.noEquals]
  simp only [strUnquote_written isValue, Option.map_some]

end FsPkg.Conf
