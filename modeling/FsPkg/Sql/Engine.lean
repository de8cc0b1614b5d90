import FsPkg.Sql.Parser
import Mathlib.Logic.Function.Basic

/-! # Executing statements

A row gives a value for every column name, a database a table for every table name. Statements do what
SQLite documents for them: a column's affinity is applied to what it stores, and to the other operand
of a comparison when that has none; `NULL` compares with nothing; `AND`, `OR` and `IN` have three truth
values; an `AUTOINCREMENT` key is one more than the largest key ever used in the table. A statement
that cannot be prepared (an unknown table or column, a wrong number of values) has no result and no
effect, and neither has an `INSERT` when the last key is used up; that one fails with `SQLITE_FULL`.
-/

namespace FsPkg.Sql

abbrev Row := Name → Value

/-- Rows in key order, and the largest key ever used. -/
structure Table where
  columns : List Column
  rows : List Row := []
  seq : ℕ := 0

abbrev Database := Name → Option Table

namespace Value

/-- Digits become a number; other texts stay (SQLite also reads a sign, a fraction and an exponent), and so does
every other value. -/
def applyNumeric : Value → Value
  | .text s => if s ≠ [] && s.all Char.isDigit then numeral (Nat.ofDigitChars 10 s 0) else .text s
  | v => v

/-- Integers become text. -/
def applyText : Value → Value
  | .int n => .text (toString n).toList
  | v => v

/-- What a column keeps of a value. -/
def stored (affinity : Affinity) (v : Value) : Value :=
  match affinity with
  | .integer => v.applyNumeric
  | .text => v.applyText

/-- Equality of values; `none` if one is `NULL`. -/
def compare : Value → Value → Option Bool
  | .null, _ => none
  | _, .null => none
  | .int n, .real m => some (n = m)
  | .real n, .int m => some (n = m)
  | left, right => some (left = right)

/-- The value of a condition. -/
def ofBool : Option Bool → Value
  | none => .null
  | some b => .int (if b then 1 else 0)

/-- A truth value; the conditions of the fragment yield nothing else. -/
def truth : Value → Option Bool
  | .int n => some (n ≠ 0)
  | _ => none

end Value

/-- The two operands of a comparison after their affinities have been applied: a numeric one to the other operand
unless that is numeric, else that of text to an operand that has none. -/
def coerce (left right : Option Affinity × Value) : Value × Value :=
  match left.1, right.1 with
  | some .integer, some .integer => (left.2, right.2)
  | some .integer, _ => (left.2, right.2.applyNumeric)
  | _, some .integer => (left.2.applyNumeric, right.2)
  | some .text, none => (left.2, right.2.applyText)
  | none, some .text => (left.2.applyText, right.2)
  | _, _ => (left.2, right.2)

def compareWith (left right : Option Affinity × Value) : Option Bool :=
  (coerce left right).1.compare (coerce left right).2

/-- `AND` of truth values, of which `NULL` is the unknown one. -/
def and3 : Option Bool → Option Bool → Option Bool
  | some false, _ => some false
  | _, some false => some false
  | some true, some true => some true
  | _, _ => none

/-- `OR` of truth values. -/
def or3 : Option Bool → Option Bool → Option Bool
  | some true, _ => some true
  | _, some true => some true
  | some false, some false => some false
  | _, _ => none

namespace Table

def column (t : Table) (name : Name) : Option Column :=
  t.columns.find? fun c => c.name = name

def affinity (t : Table) (name : Name) : Option Affinity :=
  (t.column name).map Column.affinity

def key (t : Table) : Option Name :=
  (t.columns.find? Column.autoincrement).map Column.name

/-- The key a row has, as a number. -/
def keyOf (name : Name) (row : Row) : ℕ :=
  match row name with
  | .int n => n.toNat
  | _ => 0

/-- The largest key in use or ever used, which `AUTOINCREMENT` goes on from. -/
def lastKey (t : Table) (name : Name) : ℕ :=
  t.rows.foldr (fun row last => max (keyOf name row) last) t.seq

end Table

namespace Expr

/-- The affinity an operand brings to a comparison. -/
def affinity (t : Table) : Expr → Option Affinity
  | .column name => t.affinity name
  | _ => none

/-- Every table and column of an expression exists. -/
def resolves (db : Database) (t : Table) : Expr → Bool
  | .value _ => true
  | .column name => (t.column name).isSome
  | .eq left right => left.resolves db t && right.resolves db t
  | .and left right => left.resolves db t && right.resolves db t
  | .or left right => left.resolves db t && right.resolves db t
  | .inSelect left picked table cond =>
    match db table with
    | none => false
    | some sub => left.resolves db t && (sub.column picked).isSome && cond.resolves db sub

/-- The value of an expression in a row of a table. -/
def eval (db : Database) (t : Table) (row : Row) : Expr → Value
  | .value v => v
  | .column name => row name
  | .eq left right => .ofBool (compareWith (left.affinity t, left.eval db t row)
      (right.affinity t, right.eval db t row))
  | .and left right => .ofBool (and3 (left.eval db t row).truth (right.eval db t row).truth)
  | .or left right => .ofBool (or3 (left.eval db t row).truth (right.eval db t row).truth)
  | .inSelect left picked table cond =>
    match db table with
    | none => .null
    | some sub =>
      let found := sub.rows.filter fun other => (cond.eval db sub other).truth = some true
      .ofBool (found.foldr (fun other rest =>
        or3 (compareWith (left.affinity t, left.eval db t row) (sub.affinity picked, other picked)) rest)
        (some false))

/-- The row is one a `WHERE` clause picks. -/
def holds (db : Database) (t : Table) (cond : Expr) (row : Row) : Bool :=
  (cond.eval db t row).truth = some true

end Expr

namespace Table

/-- The value given for a column, if any. -/
def given (columns : List Name) (values : List Value) (name : Name) : Option Value :=
  (columns.zip values).lookup name

/-- The row an `INSERT` adds. -/
def newRow (t : Table) (columns : List Name) (values : List Value) (key : Name) : Row := fun name =>
  if name = key then .int (t.lastKey key + 1)
  else match t.affinity name, given columns values name with
    | some affinity, some v => v.stored affinity
    | _, _ => .null

/-- The columns are there, without the key, and each has a value. -/
def accepts (t : Table) (columns : List Name) (values : List Value) (key : Name) : Bool :=
  columns.length = values.length && columns.all (fun name => (t.column name).isSome) && !columns.contains key

/-- An `INSERT` that leaves the key to `AUTOINCREMENT`; keys end at `2 ^ 63 - 1`. Without one the statement fails;
what that does to a transaction is told by `exhausts`. -/
def insert (t : Table) (columns : List Name) (values : List Value) : Option Table := do
  let key ← t.key
  if t.accepts columns values key && t.lastKey key + 1 < 2 ^ 63 then
    some { t with rows := t.rows ++ [t.newRow columns values key], seq := t.lastKey key + 1 }
  else none

end Table

/-- A statement other than the transaction commands: the new database and the rows returned. -/
def exec (db : Database) : Statement → Option (Database × List (List Value))
  | .begin | .commit | .rollback => none
  | .createTable table columns =>
    if (db table).isSome then none
    else some (Function.update db table (some { columns }), [])
  | .dropTable table => some (Function.update db table none, [])
  | .insert table columns values => do
    let t ← db table
    let t ← t.insert columns values
    some (Function.update db table (some t), [])
  | .delete table cond => do
    let t ← db table
    if cond.resolves db t then
      some (Function.update db table (some { t with rows := t.rows.filter fun row => !cond.holds db t row }), [])
    else none
  | .select columns table cond => do
    let t ← db table
    let columns := columns.getD (t.columns.map Column.name)
    if cond.resolves db t && columns.all (fun name => (t.column name).isSome) then
      some (db, (t.rows.filter fun row => cond.holds db t row).map fun row => columns.map row)
    else none

/-- The statement is an `INSERT` that fails with `SQLITE_FULL`, for want of a key. -/
def exhausts (db : Database) : Statement → Bool
  | .insert table columns values =>
    match db table with
    | none => false
    | some t => t.key.any fun key => t.accepts columns values key && 2 ^ 63 ≤ t.lastKey key + 1
  | _ => false

/-! ## Conditions -/

@[simp] theorem truth_ofBool (b : Option Bool) : (Value.ofBool b).truth = b := by
  match b with
  | none => rfl
  | some true => rfl
  | some false => rfl

theorem and3_eq_true {a b : Option Bool} : and3 a b = some true ↔ a = some true ∧ b = some true := by
  match a, b with
  | none, none | none, some true | none, some false => decide
  | some true, none | some true, some true | some true, some false => decide
  | some false, none | some false, some true | some false, some false => decide

theorem or3_eq_true {a b : Option Bool} : or3 a b = some true ↔ a = some true ∨ b = some true := by
  match a, b with
  | none, none | none, some true | none, some false => decide
  | some true, none | some true, some true | some true, some false => decide
  | some false, none | some false, some true | some false, some false => decide

/-- A disjunction over rows is true when one of them makes it true. -/
theorem foldr_or3_eq_true {α : Type} (f : α → Option Bool) (items : List α) :
    items.foldr (fun item rest => or3 (f item) rest) (some false) = some true ↔
      ∃ item ∈ items, f item = some true := by
  induction items with
  | nil => simp
  | cons item rest ih => rw [List.foldr_cons, or3_eq_true, ih, List.exists_mem_cons_iff]

theorem compare_text {v : Value} {s : List Char} : v.compare (.text s) = some true ↔ v = .text s := by
  cases v <;> simp [Value.compare]

@[simp] theorem applyNumeric_numeral (n : ℕ) : (numeral n).applyNumeric = numeral n := by
  unfold numeral
  split <;> rfl

/-- A printed number is a number again to a comparison with an integer column. -/
theorem applyNumeric_toDigits (n : ℕ) : (Value.text (Nat.toDigits 10 n)).applyNumeric = numeral n := by
  have digits : (Nat.toDigits 10 n).all Char.isDigit := by
    rw [List.all_eq_true]
    exact fun c member => Nat.isDigit_of_mem_toDigits (by decide) (by decide) member
  simp [Value.applyNumeric, Nat.toDigits_ne_nil, digits, Nat.ofDigitChars_ten_toDigits]

end FsPkg.Sql
