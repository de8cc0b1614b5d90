import FsPkg.Sql.Lexer
import Mathlib.Algebra.Group.Nat.Defs
import Mathlib.Data.Int.Notation

/-! # Statements of a fragment of SQL

The statements a small application issues: creating and dropping tables, inserting literals,
deleting and selecting by a condition, and the three transaction commands. Conditions are built from
comparisons with `AND`, `OR` and `IN (SELECT ..)`, with the precedences SQLite documents; a sign may stand
before a numeral in them. Token lists outside the fragment are not parsed: SQLite refuses some of them
and knows others (other clauses, operators and functions), and what it does then is left to whoever
executes a text.
-/

namespace FsPkg.Sql

abbrev Name := List Char

/-- Storage classes. A `real` is an integral one: the only ones that arise are numerals that do not
fit an integer. -/
inductive Value where
  | null
  | int (n : ℤ)
  | real (n : ℕ)
  | text (s : List Char)
deriving DecidableEq, Repr

inductive Affinity where
  | integer
  | text
deriving DecidableEq, Repr

structure Column where
  name : Name
  affinity : Affinity
  autoincrement : Bool := false
deriving DecidableEq, Repr

inductive Expr where
  | value (v : Value)
  | column (name : Name)
  | eq (left right : Expr)
  | and (left right : Expr)
  | or (left right : Expr)
  | inSelect (left : Expr) (column table : Name) (cond : Expr)
deriving DecidableEq, Repr

inductive Statement where
  | begin
  | commit
  | rollback
  | createTable (table : Name) (columns : List Column)
  | dropTable (table : Name)
  | insert (table : Name) (columns : List Name) (values : List Value)
  | delete (table : Name) (cond : Expr)
  | select (columns : Option (List Name)) (table : Name) (cond : Expr)
deriving DecidableEq, Repr

/-- The nearest double to a number from `2 ^ 63` to `2 ^ 64`, where neighbours are 2048 apart. -/
def roundDouble (n : ℕ) : ℕ :=
  let low := n / 2048
  let rest := n % 2048
  if 1024 < rest || (rest = 1024 && low % 2 = 1) then (low + 1) * 2048 else low * 2048

/-- An integer if it fits 64 bits, else a real. -/
def numeral (n : ℕ) : Value :=
  if n < 2 ^ 63 then .int n else .real (roundDouble n)

namespace Parser

/-- A keyword, given in lower case. -/
def keyword (word : String) : List Token → Option (List Token)
  | .word name :: rest => if name = word.toList then some rest else none
  | _ => none

def keywords : List String → List Token → Option (List Token)
  | [], tokens => some tokens
  | word :: words, tokens => do
    let tokens ← keyword word tokens
    keywords words tokens

def symbol (c : Char) : List Token → Option (List Token)
  | .sym found :: rest => if found = c then some rest else none
  | _ => none

def reserved : List String :=
  ["select", "from", "where", "in", "and", "or", "not", "null", "insert", "into", "values", "delete",
    "create", "table", "drop", "exists", "begin", "commit", "rollback", "union", "order", "limit", "is",
    "like", "between", "case", "as", "set", "update"]

def name : List Token → Option (Name × List Token)
  | .word found :: rest => if reserved.any (fun word => found = word.toList) then none else some (found, rest)
  | _ => none

/-- Items separated by commas, up to and including a closing parenthesis. -/
def commaList {α : Type} (item : List Token → Option (α × List Token)) :
    ℕ → List Token → Option (List α × List Token)
  | 0, _ => none
  | fuel + 1, tokens => do
    let (first, tokens) ← item tokens
    match tokens with
    | .sym ',' :: rest => do
      let (others, tokens) ← commaList item fuel rest
      some (first :: others, tokens)
    | .sym ')' :: rest => some ([first], rest)
    | _ => none

/-- A left-associative chain of operands joined by one keyword. -/
def chain (operand : List Token → Option (Expr × List Token)) (word : String)
    (join : Expr → Expr → Expr) : ℕ → Expr → List Token → Option (Expr × List Token)
  | 0, left, tokens => some (left, tokens)
  | fuel + 1, left, tokens =>
    match keyword word tokens with
    | none => some (left, tokens)
    | some rest => do
      let (right, rest) ← operand rest
      chain operand word join fuel (join left right) rest

/-- Comparisons after a first operand; `expr` reads the condition of a subquery. -/
def comparisons (primary expr : List Token → Option (Expr × List Token)) :
    ℕ → Expr → List Token → Option (Expr × List Token)
  | 0, left, tokens => some (left, tokens)
  | fuel + 1, left, tokens =>
    match tokens with
    | .sym '=' :: rest => do
      let (right, rest) ← primary rest
      comparisons primary expr fuel (.eq left right) rest
    | .word ['i', 'n'] :: rest => do
      let rest ← symbol '(' rest
      let rest ← keyword "select" rest
      let (column, rest) ← name rest
      let rest ← keyword "from" rest
      let (table, rest) ← name rest
      let rest ← keyword "where" rest
      let (cond, rest) ← expr rest
      let rest ← symbol ')' rest
      comparisons primary expr fuel (.inSelect left column table cond) rest
    | _ => some (left, tokens)

/-- Expressions: `=` and `IN` bind tighter than `AND`, and that tighter than `OR`; all associate to the left. The fuel
bounds both nesting and the length of chains. -/
def expr : ℕ → List Token → Option (Expr × List Token)
  | 0, _ => none
  | fuel + 1, tokens =>
    let primary (tokens : List Token) : Option (Expr × List Token) :=
      match tokens with
      | .text s :: rest => some (.value (.text s), rest)
      | .number n :: rest => some (.value (numeral n), rest)
      | .sym '-' :: .number n :: rest => if n ≤ 2 ^ 63 then some (.value (.int (-n)), rest) else none
      | .sym '(' :: rest => do
        let (inner, rest) ← expr fuel rest
        let rest ← symbol ')' rest
        some (inner, rest)
      | _ => do
        let (column, rest) ← name tokens
        some (.column column, rest)
    let comparison (tokens : List Token) : Option (Expr × List Token) := do
      let (left, rest) ← primary tokens
      comparisons primary (expr fuel) fuel left rest
    let conjunction (tokens : List Token) : Option (Expr × List Token) := do
      let (left, rest) ← comparison tokens
      chain comparison "and" .and fuel left rest
    do
      let (left, rest) ← conjunction tokens
      chain conjunction "or" .or fuel left rest

/-- Expressions whose value is a truth value; others are not used as conditions here. -/
def isCondition : Expr → Bool
  | .eq _ _ => true
  | .inSelect _ _ _ cond => isCondition cond
  | .and left right => isCondition left && isCondition right
  | .or left right => isCondition left && isCondition right
  | _ => false

/-- An optional `WHERE` clause that ends the statement. -/
def whereClause (tokens : List Token) : Option Expr :=
  match tokens with
  | [] => some (.eq (.value (.int 1)) (.value (.int 1)))
  | _ => do
    let rest ← keyword "where" tokens
    let (cond, rest) ← expr (rest.length + 1) rest
    if rest = [] && isCondition cond then some cond else none

/-- A value to be inserted. -/
def literal : List Token → Option (Value × List Token)
  | .text s :: rest => some (.text s, rest)
  | .number n :: rest => some (numeral n, rest)
  | .word ['n', 'u', 'l', 'l'] :: rest => some (.null, rest)
  | _ => none

/-- The affinity that SQLite derives from a declared type, for the two types used here. -/
def columnType : List Token → Option (Affinity × List Token)
  | .word found :: rest =>
    if found = "integer".toList then some (.integer, rest)
    else if found = "text".toList then some (.text, rest)
    else none
  | _ => none

def columnDef (tokens : List Token) : Option (Column × List Token) := do
  let (column, rest) ← name tokens
  let (affinity, rest) ← columnType rest
  match keywords ["primary", "key", "autoincrement"] rest with
  | some rest => some ({ name := column, affinity, autoincrement := true }, rest)
  | none => some ({ name := column, affinity }, rest)

/-- Nothing may follow the statement. -/
def finished {α : Type} (result : α) : List Token → Option α
  | [] => some result
  | _ => none

def createTable (tokens : List Token) : Option Statement := do
  let rest ← keywords ["create", "table"] tokens
  let (table, rest) ← name rest
  let rest ← symbol '(' rest
  let (columns, rest) ← commaList columnDef rest.length rest
  finished (.createTable table columns) rest

def dropTable (tokens : List Token) : Option Statement := do
  let rest ← keywords ["drop", "table", "if", "exists"] tokens
  let (table, rest) ← name rest
  finished (.dropTable table) rest

def insert (tokens : List Token) : Option Statement := do
  let rest ← keywords ["insert", "into"] tokens
  let (table, rest) ← name rest
  let rest ← symbol '(' rest
  let (columns, rest) ← commaList name rest.length rest
  let rest ← keyword "values" rest
  let rest ← symbol '(' rest
  let (values, rest) ← commaList literal rest.length rest
  finished (.insert table columns values) rest

def delete (tokens : List Token) : Option Statement := do
  let rest ← keywords ["delete", "from"] tokens
  let (table, rest) ← name rest
  let cond ← whereClause rest
  some (.delete table cond)

def resultColumns : List Token → Option (Option (List Name) × List Token)
  | .sym '*' :: rest => some (none, rest)
  | tokens => do
    let (column, rest) ← name tokens
    some (some [column], rest)

def select (tokens : List Token) : Option Statement := do
  let rest ← keyword "select" tokens
  let (columns, rest) ← resultColumns rest
  let rest ← keyword "from" rest
  let (table, rest) ← name rest
  let cond ← whereClause rest
  some (.select columns table cond)

end Parser

/-- The statement a token list spells, told apart by its first word. -/
def parse (tokens : List Token) : Option Statement :=
  match tokens with
  | [.word first] =>
    if first = "begin".toList then some .begin
    else if first = "commit".toList then some .commit
    else if first = "rollback".toList then some .rollback
    else none
  | _ =>
    Parser.createTable tokens <|> Parser.dropTable tokens <|> Parser.insert tokens <|>
      Parser.delete tokens <|> Parser.select tokens

/-- `sqlite3_prepare_v2` on the fragment, before names are looked up. -/
def prepare (text : List Char) : Option Statement :=
  (lex text).bind parse

/-- The names of the columns a prepared statement returns. -/
def Statement.columnNames (columnsOf : Name → List Name) : Statement → List Name
  | .select columns table _ => columns.getD (columnsOf table)
  | _ => []

/-- Not a transaction command. -/
def Statement.isData : Statement → Bool
  | .begin | .commit | .rollback => false
  | _ => true

private theorem isData_of_finished {statement result : Statement} {tokens : List Token}
    (data : statement.isData) (ended : Parser.finished statement tokens = some result) : result.isData := by
  cases tokens with
  | nil =>
    cases ended
    exact data
  | cons => contradiction

/-- A statement that begins with another word is not a transaction command. -/
theorem isData_of_parse {first : Name} {rest : List Token} {statement : Statement}
    (other : first ≠ "begin".toList ∧ first ≠ "commit".toList ∧ first ≠ "rollback".toList)
    (parsed : parse (.word first :: rest) = some statement) : statement.isData := by
  cases rest with
  | nil =>
    rw [parse, if_neg other.1, if_neg other.2.1, if_neg other.2.2] at parsed
    contradiction
  | cons token rest =>
    simp only [parse, Option.orElse_eq_orElse, Option.orElse_eq_or, Option.or_eq_some_iff] at parsed
    rcases parsed with parsed | ⟨-, parsed | ⟨-, parsed | ⟨-, parsed | ⟨-, parsed⟩⟩⟩⟩
    · simp only [Parser.createTable, bind, Option.bind_eq_some_iff] at parsed
      obtain ⟨_, _, _, _, _, _, _, _, ended⟩ := parsed
      exact isData_of_finished rfl ended
    · simp only [Parser.dropTable, bind, Option.bind_eq_some_iff] at parsed
      obtain ⟨_, _, _, _, ended⟩ := parsed
      exact isData_of_finished rfl ended
    · simp only [Parser.insert, bind, Option.bind_eq_some_iff] at parsed
      obtain ⟨_, _, _, _, _, _, _, _, _, _, _, _, _, _, ended⟩ := parsed
      exact isData_of_finished rfl ended
    · simp only [Parser.delete, bind, Option.bind_eq_some_iff] at parsed
      obtain ⟨_, _, _, _, _, _, ended⟩ := parsed
      cases ended
      rfl
    · simp only [Parser.select, bind, Option.bind_eq_some_iff] at parsed
      obtain ⟨_, _, _, _, _, _, _, _, _, _, ended⟩ := parsed
      cases ended
      rfl

end FsPkg.Sql
