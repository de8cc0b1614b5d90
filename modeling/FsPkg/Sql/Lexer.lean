import Mathlib.Data.List.Basic
import Mathlib.Data.Nat.Notation
import Mathlib.Tactic.SplitIfs

/-! # Tokens of an SQL text

The tokenizer reads one character at a time, so that a text assembled from pieces is read piece by
piece. A string literal runs from one quote to the next one that is not doubled, and a doubled quote
inside it stands for one. Words are case-insensitive and kept in lower case. Reading stops at the
first semicolon: `sqlite3_prepare_v2` compiles one statement and leaves the rest alone. Fractions,
exponents and hexadecimal numerals are not covered.
-/

namespace FsPkg.Sql

/-- `text` is a string literal with its quotes undone. -/
inductive Token where
  | word (name : List Char)
  | number (n : ℕ)
  | text (value : List Char)
  | sym (c : Char)
deriving DecidableEq, Repr

/-- Where the tokenizer is; collected characters are newest first. -/
inductive Mode where
  | blank
  | word (acc : List Char)
  | number (acc : List Char)
  | literal (acc : List Char)
  | quote (acc : List Char)
  | dash
  | comment
  | slash
  | block
  | star
  | ended
deriving DecidableEq, Repr

/-- The tokens read so far, newest first, and the current mode. -/
structure Lexer where
  tokens : List Token := []
  mode : Mode := .blank
deriving DecidableEq, Repr

namespace Lexer

def isSpace (c : Char) : Bool :=
  c = ' ' || c = '\t' || c = '\n' || c = '\r' || c = Char.ofNat 12

/-- `IdChar`, apart from digits: what a word may begin with. -/
def isWordStart (c : Char) : Bool :=
  c.isAlpha || c = '_' || 128 ≤ c.toNat

def isWordChar (c : Char) : Bool :=
  isWordStart c || c.isDigit || c = '$'

def wordToken (acc : List Char) : Token :=
  .word (acc.reverse.map Char.toLower)

def numberToken (acc : List Char) : Token :=
  .number (Nat.ofDigitChars 10 acc.reverse 0)

def textToken (acc : List Char) : Token :=
  .text acc.reverse

/-- A character that begins a token, or separates two. -/
def start (tokens : List Token) (c : Char) : Lexer :=
  if c.isDigit then ⟨tokens, .number [c]⟩
  else if isSpace c then ⟨tokens, .blank⟩
  else if isWordStart c then ⟨tokens, .word [c]⟩
  else if c = '\'' then ⟨tokens, .literal []⟩
  else if c = '-' then ⟨tokens, .dash⟩
  else if c = '/' then ⟨tokens, .slash⟩
  else if c = ';' then ⟨tokens, .ended⟩
  else ⟨.sym c :: tokens, .blank⟩

/-- One more character. A numeral that runs into a word or a fraction is refused. -/
def step (lexer : Lexer) (c : Char) : Option Lexer :=
  match lexer.mode with
  | .blank => some (start lexer.tokens c)
  | .word acc =>
    if isWordChar c then some { lexer with mode := .word (c :: acc) }
    else some (start (wordToken acc :: lexer.tokens) c)
  | .number acc =>
    if c.isDigit then some { lexer with mode := .number (c :: acc) }
    else if isWordChar c || c = '.' then none
    else some (start (numberToken acc :: lexer.tokens) c)
  | .literal acc =>
    if c = '\'' then some { lexer with mode := .quote acc }
    else some { lexer with mode := .literal (c :: acc) }
  | .quote acc =>
    if c = '\'' then some { lexer with mode := .literal (c :: acc) }
    else some (start (textToken acc :: lexer.tokens) c)
  | .dash =>
    if c = '-' then some { lexer with mode := .comment }
    else some (start (.sym '-' :: lexer.tokens) c)
  | .comment => some (if c = '\n' then { lexer with mode := .blank } else lexer)
  | .slash =>
    if c = '*' then some { lexer with mode := .block }
    else some (start (.sym '/' :: lexer.tokens) c)
  | .block => some (if c = '*' then { lexer with mode := .star } else lexer)
  | .star =>
    if c = '/' then some { lexer with mode := .blank }
    else some (if c = '*' then lexer else { lexer with mode := .block })
  | .ended => some lexer

/-- The end of the text. An open literal is an error, an open comment is not. -/
def finish (lexer : Lexer) : Option (List Token) :=
  match lexer.mode with
  | .word acc => some (wordToken acc :: lexer.tokens)
  | .number acc => some (numberToken acc :: lexer.tokens)
  | .literal _ => none
  | .quote acc => some (textToken acc :: lexer.tokens)
  | .dash => some (.sym '-' :: lexer.tokens)
  | .slash => some (.sym '/' :: lexer.tokens)
  | .blank | .comment | .block | .star | .ended => some lexer.tokens

/-- Reading a piece of text. -/
def run (lexer : Lexer) (text : List Char) : Option Lexer :=
  text.foldlM step lexer

end Lexer

/-- The tokens of the first statement of a text. -/
def lex (text : List Char) : Option (List Token) := do
  let lexer ← Lexer.run {} text
  let tokens ← lexer.finish
  some tokens.reverse

namespace Lexer

variable {tokens : List Token} {acc : List Char}

@[simp] theorem run_nil (lexer : Lexer) : lexer.run [] = some lexer := rfl

theorem run_cons (lexer : Lexer) (c : Char) (rest : List Char) :
    lexer.run (c :: rest) = (lexer.step c).bind fun next => next.run rest := rfl

theorem run_append (lexer : Lexer) (first second : List Char) :
    lexer.run (first ++ second) = (lexer.run first).bind fun middle => middle.run second :=
  List.foldlM_append

theorem step_blank (c : Char) : step ⟨tokens, .blank⟩ c = some (start tokens c) := rfl

theorem step_number (c : Char) : step ⟨tokens, .number acc⟩ c =
    if c.isDigit then some ⟨tokens, .number (c :: acc)⟩
    else if isWordChar c || c = '.' then none
    else some (start (numberToken acc :: tokens) c) := rfl

theorem step_literal (c : Char) : step ⟨tokens, .literal acc⟩ c =
    if c = '\'' then some ⟨tokens, .quote acc⟩ else some ⟨tokens, .literal (c :: acc)⟩ := rfl

theorem step_quote (c : Char) : step ⟨tokens, .quote acc⟩ c =
    if c = '\'' then some ⟨tokens, .literal (c :: acc)⟩
    else some (start (textToken acc :: tokens) c) := rfl

/-- Inside a literal, anything but a quote is taken as it stands. -/
theorem run_literal {text : List Char} (plain : '\'' ∉ text) :
    run ⟨tokens, .literal acc⟩ text = some ⟨tokens, .literal (text.reverse ++ acc)⟩ := by
  induction text generalizing acc with
  | nil => rfl
  | cons c rest ih =>
    obtain ⟨different, plain⟩ := not_or.mp (mt List.mem_cons.mpr plain)
    rw [run_cons, step_literal, if_neg (Ne.symm different), Option.bind_some, ih plain]
    simp

private theorem run_digits {text : List Char} (digits : ∀ c ∈ text, c.isDigit) :
    run ⟨tokens, .number acc⟩ text = some ⟨tokens, .number (text.reverse ++ acc)⟩ := by
  induction text generalizing acc with
  | nil => rfl
  | cons c rest ih =>
    obtain ⟨digit, digits⟩ := List.forall_mem_cons.mp digits
    rw [run_cons, step_number, if_pos digit, Option.bind_some, ih digits]
    simp

/-- A printed number is read back. -/
theorem run_toDigits (tokens : List Token) (n : ℕ) :
    ∃ acc, run ⟨tokens, .blank⟩ (Nat.toDigits 10 n) = some ⟨tokens, .number acc⟩ ∧
      numberToken acc = .number n := by
  have digits : ∀ c ∈ Nat.toDigits 10 n, c.isDigit := fun c member =>
    Nat.isDigit_of_mem_toDigits (by decide) (by decide) member
  have value : Nat.ofDigitChars 10 (Nat.toDigits 10 n) 0 = n := Nat.ofDigitChars_ten_toDigits
  cases printed : Nat.toDigits 10 n with
  | nil => exact absurd printed Nat.toDigits_ne_nil
  | cons c rest =>
    rw [printed] at digits value
    obtain ⟨digit, digits⟩ := List.forall_mem_cons.mp digits
    refine ⟨rest.reverse ++ [c], ?_, ?_⟩
    · rw [run_cons, step_blank, start, if_pos digit, Option.bind_some, run_digits digits]
    · rw [numberToken, List.reverse_append, List.reverse_reverse]
      exact congrArg Token.number value

private theorem start_keeps (tokens : List Token) (c : Char) :
    ∃ more, (start tokens c).tokens = more ++ tokens := by
  unfold start
  split_ifs
  case neg => exact ⟨[_], rfl⟩
  all_goals exact ⟨[], rfl⟩

private theorem step_keeps {lexer next : Lexer} {c : Char} (stepped : lexer.step c = some next) :
    ∃ more, next.tokens = more ++ lexer.tokens := by
  obtain ⟨tokens, mode⟩ := lexer
  have emitted (token : Token) : ∃ more, (start (token :: tokens) c).tokens = more ++ tokens := by
    obtain ⟨more, kept⟩ := start_keeps (token :: tokens) c
    exact ⟨more ++ [token], by rw [kept, List.append_assoc, List.singleton_append]⟩
  cases mode with
  | blank =>
    cases stepped
    exact start_keeps tokens c
  | ended =>
    cases stepped
    exact ⟨[], rfl⟩
  | comment | block =>
    cases stepped
    exact ⟨[], by split_ifs <;> rfl⟩
  | star =>
    simp only [step] at stepped
    split_ifs at stepped <;> cases stepped <;> exact ⟨[], rfl⟩
  | word | number | literal | quote | dash | slash =>
    simp only [step] at stepped
    split_ifs at stepped <;> cases stepped
    all_goals first | exact ⟨[], rfl⟩ | exact emitted _

/-- Reading on never changes the tokens already read. -/
theorem run_keeps {lexer final : Lexer} {text : List Char} (ran : lexer.run text = some final) :
    ∃ more, final.tokens = more ++ lexer.tokens := by
  induction text generalizing lexer with
  | nil =>
    cases ran
    exact ⟨[], rfl⟩
  | cons c rest ih =>
    rw [run_cons, Option.bind_eq_some_iff] at ran
    obtain ⟨next, stepped, ran⟩ := ran
    obtain ⟨more, grown⟩ := ih ran
    obtain ⟨some_, kept⟩ : ∃ some_, next.tokens = some_ ++ lexer.tokens := step_keeps stepped
    exact ⟨more ++ some_, by rw [grown, kept, List.append_assoc]⟩

private theorem finish_keeps {lexer : Lexer} {final : List Token} (finished : lexer.finish = some final) :
    ∃ more, final = more ++ lexer.tokens := by
  obtain ⟨tokens, mode⟩ := lexer
  cases mode with
  | literal => contradiction
  | blank | comment | block | star | ended =>
    cases finished
    exact ⟨[], rfl⟩
  | word | number | quote | dash | slash =>
    cases finished
    exact ⟨[_], rfl⟩

/-- Reading a piece of text to the end of the statement. -/
def complete (lexer : Lexer) (text : List Char) : Option (List Token) :=
  (lexer.run text).bind finish

theorem complete_keeps {lexer : Lexer} {text : List Char} {final : List Token}
    (completed : lexer.complete text = some final) : ∃ more, final = more ++ lexer.tokens := by
  obtain ⟨last, ran, finished⟩ := Option.bind_eq_some_iff.mp completed
  obtain ⟨more, kept⟩ := run_keeps ran
  obtain ⟨tail, rfl⟩ := finish_keeps finished
  exact ⟨tail ++ more, by rw [kept, List.append_assoc]⟩

theorem complete_cons (lexer : Lexer) (c : Char) (rest : List Char) :
    lexer.complete (c :: rest) = (lexer.step c).bind fun next => next.complete rest := by
  rw [complete, run_cons, Option.bind_assoc]
  rfl

/-- A quote that nothing doubles ends its literal. -/
private theorem complete_quote {text : List Char} (plain : '\'' ∉ text) {final : List Token}
    (completed : complete ⟨tokens, .quote acc⟩ text = some final) :
    ∃ more, final = more ++ textToken acc :: tokens := by
  cases text with
  | nil =>
    cases completed
    exact ⟨[], rfl⟩
  | cons c rest =>
    have different : c ≠ '\'' := fun same => plain (same ▸ List.mem_cons_self ..)
    rw [complete_cons, step_quote, if_neg different, Option.bind_some] at completed
    obtain ⟨more, rfl⟩ := complete_keeps completed
    obtain ⟨first, kept⟩ := start_keeps (textToken acc :: tokens) c
    exact ⟨more ++ first, by rw [kept, List.append_assoc]⟩

/-- A literal that never sees a quote is never ended. -/
private theorem complete_literal {text : List Char} (plain : '\'' ∉ text) :
    complete ⟨tokens, .literal acc⟩ text = none := by
  rw [complete, run_literal plain]
  rfl

/-- What becomes of a literal when `text`, a quote and a quote-free suffix follow: its value gains at
most `text.length` characters, and fewer when `text` has a quote, which either ends the literal or
takes two characters to stand for one. -/
private theorem literal_value {suffix : List Char} (plain : '\'' ∉ suffix) (text : List Char) :
    (∀ tokens acc final, complete ⟨tokens, .literal acc⟩ (text ++ '\'' :: suffix) = some final →
      ∃ value more, final = more ++ .text (acc.reverse ++ value) :: tokens ∧
        value.length ≤ text.length ∧ ('\'' ∈ text → value.length < text.length)) ∧
    ∀ tokens acc final, complete ⟨tokens, .quote acc⟩ (text ++ '\'' :: suffix) = some final →
      ∃ value more, final = more ++ .text (acc.reverse ++ value) :: tokens ∧
        value.length ≤ text.length := by
  induction text with
  | nil =>
    constructor
    · intro tokens acc final completed
      rw [List.nil_append, complete_cons, step_literal, if_pos rfl, Option.bind_some] at completed
      obtain ⟨more, rfl⟩ := complete_quote plain completed
      exact ⟨[], more, by rw [List.append_nil]; rfl, Nat.le_refl _, by simp⟩
    · intro tokens acc final completed
      rw [List.nil_append, complete_cons, step_quote, if_pos rfl, Option.bind_some,
        complete_literal plain] at completed
      contradiction
  | cons c rest ih =>
    obtain ⟨inLiteral, afterQuote⟩ := ih
    constructor
    · intro tokens acc final completed
      rw [List.cons_append, complete_cons, step_literal] at completed
      split at completed
      · next isQuote =>
        obtain ⟨value, more, rfl, bound⟩ := afterQuote _ _ _ completed
        refine ⟨value, more, rfl, ?_, fun _ => ?_⟩
        · exact Nat.le_succ_of_le bound
        · exact Nat.lt_succ_of_le bound
      · next other =>
        obtain ⟨value, more, rfl, bound, less⟩ := inLiteral _ _ _ completed
        refine ⟨c :: value, more, by simp, Nat.succ_le_succ bound, fun member => ?_⟩
        rcases List.mem_cons.mp member with same | member
        · exact absurd same.symm other
        · exact Nat.succ_lt_succ (less member)
    · intro tokens acc final completed
      rw [List.cons_append, complete_cons, step_quote] at completed
      split at completed
      · obtain ⟨value, more, rfl, bound, -⟩ := inLiteral _ _ _ completed
        exact ⟨c :: value, more, by simp, Nat.succ_le_succ bound⟩
      · obtain ⟨more, rfl⟩ := complete_keeps completed
        obtain ⟨first, kept⟩ := start_keeps (textToken acc :: tokens) c
        refine ⟨[], more ++ first, ?_, Nat.zero_le _⟩
        rw [kept, List.append_nil, List.append_assoc]
        rfl

end Lexer

/-- A text read up to its semicolon. -/
theorem lex_of_run {text : List Char} {tokens : List Token}
    (ran : Lexer.run {} text = some ⟨tokens, .ended⟩) : lex text = some tokens.reverse := by
  simp only [lex, ran, bind, Option.bind_some]
  rfl

/-- A statement begins with the word its text begins with. -/
theorem lex_head {before rest : List Char} {token : Token} {tokens : List Token}
    (reads : Lexer.run {} before = some ⟨[token], .blank⟩) (lexed : lex (before ++ rest) = some tokens) :
    ∃ more, tokens = token :: more := by
  simp only [lex, Lexer.run_append, reads, bind, Option.bind_some, Option.bind_eq_some_iff] at lexed
  obtain ⟨last, ran, final, finished, reversed⟩ := lexed
  have completed : Lexer.complete ⟨[token], .blank⟩ rest = some final :=
    Option.bind_eq_some_iff.mpr ⟨last, ran, finished⟩
  obtain ⟨more, rfl⟩ := Lexer.complete_keeps completed
  cases reversed
  exact ⟨more.reverse, by simp⟩

/-- Splicing a text without quotes between quotes yields the literal of that text. -/
theorem lex_splice {before path rest : List Char} {c : Char} {tokens final : List Token}
    (reads : Lexer.run {} before = some ⟨tokens, .literal []⟩) (plain : '\'' ∉ path) (next : c ≠ '\'')
    (ends : (Lexer.start (.text path :: tokens) c).run rest = some ⟨final.reverse, .ended⟩) :
    lex (before ++ (path ++ '\'' :: c :: rest)) = some final := by
  have ran : Lexer.run {} (before ++ (path ++ '\'' :: c :: rest)) = some ⟨final.reverse, .ended⟩ := by
    rw [Lexer.run_append, reads, Option.bind_some, Lexer.run_append, Lexer.run_literal plain,
      List.append_nil, Option.bind_some, Lexer.run_cons, Lexer.step_literal, if_pos rfl, Option.bind_some,
      Lexer.run_cons, Lexer.step_quote, if_neg next, Option.bind_some, Lexer.textToken,
      List.reverse_reverse, ends]
  rw [lex_of_run ran, List.reverse_reverse]

/-- The same at the end of the text. -/
theorem lex_splice_end {before path : List Char} {tokens : List Token}
    (reads : Lexer.run {} before = some ⟨tokens, .literal []⟩) (plain : '\'' ∉ path) :
    lex (before ++ (path ++ ['\''])) = some (tokens.reverse ++ [.text path]) := by
  have ran : Lexer.run {} (before ++ (path ++ ['\''])) = some ⟨tokens, .quote path.reverse⟩ := by
    rw [Lexer.run_append, reads, Option.bind_some, Lexer.run_append, Lexer.run_literal plain, List.append_nil,
      Option.bind_some]
    rfl
  simp only [lex, ran, bind, Option.bind_some, Lexer.finish, Lexer.textToken, List.reverse_reverse,
    List.reverse_cons]

/-- A text that is cut off inside a literal is refused. -/
theorem lex_cut {before path rest : List Char} {tokens : List Token} {room : ℕ}
    (reads : Lexer.run {} before = some ⟨tokens, .literal []⟩) (plain : '\'' ∉ path) (inside : before.length ≤ room)
    (cut : room ≤ before.length + path.length) : lex ((before ++ (path ++ rest)).take room) = none := by
  have kept : (before ++ (path ++ rest)).take room = before ++ path.take (room - before.length) := by
    rw [List.take_append, List.take_of_length_le inside, List.take_append_of_le_length (by omega)]
  have ran : Lexer.run {} (before ++ path.take (room - before.length)) =
      some ⟨tokens, .literal (path.take (room - before.length)).reverse⟩ := by
    rw [Lexer.run_append, reads, Option.bind_some, Lexer.run_literal fun member => plain (List.mem_of_mem_take member),
      List.append_nil]
  simp only [kept, lex, ran, bind, Option.bind_some, Lexer.finish, Option.bind_none]

/-- Splicing a text between quotes, with no quote after it, yields the literal of that text only if
the text has no quote itself. -/
theorem plain_of_lex {before path suffix : List Char} {tokens rest : List Token}
    (reads : Lexer.run {} before = some ⟨tokens, .literal []⟩) (plain : '\'' ∉ suffix)
    (lexed : lex (before ++ (path ++ '\'' :: suffix)) = some (tokens.reverse ++ .text path :: rest)) :
    '\'' ∉ path := by
  have completed : (Lexer.complete ⟨tokens, .literal []⟩ (path ++ '\'' :: suffix)).map List.reverse =
      some (tokens.reverse ++ .text path :: rest) := by
    rw [← lexed, lex, Lexer.run_append, reads]
    simp only [bind, Option.bind_some, Lexer.complete, Option.map_eq_bind, Option.bind_assoc]
    rfl
  obtain ⟨final, completed, reversed⟩ := Option.map_eq_some_iff.mp completed
  obtain ⟨value, more, rfl, -, less⟩ := (Lexer.literal_value plain path).1 _ _ _ completed
  have same : more.reverse = rest ∧ Token.text ([].reverse ++ value) = Token.text path := by
    have equal : tokens.reverse ++ (.text ([].reverse ++ value) :: more.reverse) =
        tokens.reverse ++ .text path :: rest := by simpa using reversed
    have parts := List.cons.inj (List.append_cancel_left equal)
    exact ⟨parts.2, parts.1⟩
  have value_eq : value = path := by simpa using same.2
  intro member
  have shorter := less member
  rw [value_eq] at shorter
  exact Nat.lt_irrefl _ shorter

end FsPkg.Sql
