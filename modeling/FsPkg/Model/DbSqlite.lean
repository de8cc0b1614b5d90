import FsPkg.Sql.Engine
import Mathlib.Data.UInt

/-! # The database layer of `db_sqlite.c`

Statements are built by printing arguments into a format and handing the text to SQLite. Here the
text is really built, tokenized and parsed; the formats are those of the source. A query that fails
is only logged, and returns nothing. What becomes of a statement is an argument of each call, but that
an `INSERT` without a key left fails is seen from the table. A text outside the fragment that `prepare`
knows is refused, as one that is cut off in a literal is, unless the argument says that SQLite makes
another statement of it.

Transactions are those of one connection: changes made after `BEGIN` are kept aside until `COMMIT`.
SQLite may end one by itself: where it is out of memory or space, or cannot read or write, it rolls the
transaction back with the statement, and later statements are committed one by one. `db_mutex` is an
ordinary mutex, so a second `db_begin` by the thread that holds it never returns.
-/

namespace FsPkg.Db

open Sql

/-- The calls that open and close transactions. -/
inductive TxnCall where
  | begin
  | commit
  | rollback
deriving DecidableEq, Repr

/-- The connection: what is committed, the working copy of an open transaction, `db_mutex`, and the
transaction calls executed so far. -/
structure Conn where
  committed : Database
  txn : Option Database := none
  mutex : Bool := false
  calls : List TxnCall := []

/-- What statements see and change. -/
def Conn.view (c : Conn) : Database :=
  c.txn.getD c.committed

/-- Outside a transaction a change is committed at once. -/
def Conn.setView (c : Conn) (db : Database) : Conn :=
  match c.txn with
  | none => { c with committed := db }
  | some _ => { c with txn := some db }

/-- The transaction that is open, if any, is rolled back by SQLite. -/
def Conn.cancel (c : Conn) : Conn :=
  { c with txn := none }

/-- What becomes of a statement: it is carried out, as far as it can be; or it fails, because there is no memory for
its text or no way to prepare or execute it, and is undone; or it fails and the transaction is undone with it. Of a text
that `prepare` does not know, SQLite may make another statement, which returns some rows and leaves some database. -/
inductive Outcome where
  | done
  | failed
  | cancelled
  | foreign (rows : List (List Value)) (db : Database)

instance (outcome : Outcome) : Decidable (outcome = .done) :=
  match outcome with
  | .done => isTrue rfl
  | .failed | .cancelled | .foreign .. => isFalse nofun

instance (outcome : Outcome) : Decidable (outcome = .cancelled) :=
  match outcome with
  | .cancelled => isTrue rfl
  | .done | .failed | .foreign .. => isFalse nofun

/-- `sqlite3_step` on a prepared statement. -/
def Conn.exec (c : Conn) : Statement → Option (Conn × List (List Value))
  | .begin => if c.txn.isSome then none else some ({ c with txn := some c.committed }, [])
  | .commit => c.txn.map fun db => ({ c with committed := db, txn := none }, [])
  | .rollback => c.txn.map fun _ => ({ c with txn := none }, [])
  | statement => (Sql.exec c.view statement).map fun (db, rows) => (c.setView db, rows)

/-- An argument of `db_query`, for `%s`, `%lu` and `%d`. -/
inductive Arg where
  | str (s : List Char)
  | ulong (n : UInt64)
  | int (n : Int32)
deriving DecidableEq, Repr

/-- A number in decimal, with its sign if it is negative. -/
def printInt (n : Int32) : List Char :=
  if n < 0 then '-' :: Nat.toDigits 10 n.toInt.natAbs else Nat.toDigits 10 n.toInt.natAbs

/-- The text `vsnprintf` would write with room enough. -/
def vformat : List Char → List Arg → List Char
  | '%' :: 's' :: rest, .str s :: args => s ++ vformat rest args
  | '%' :: 'l' :: 'u' :: rest, .ulong n :: args => Nat.toDigits 10 n.toNat ++ vformat rest args
  | '%' :: 'd' :: rest, .int n :: args => printInt n ++ vformat rest args
  | c :: rest, args => c :: vformat rest args
  | [], _ => []

/-- `SQL_BUFSIZE`. -/
def sqlBufsize : ℕ := 8192

def vsnprintf (size : ℕ) (fmt : List Char) (args : List Arg) : List Char :=
  (vformat fmt args).take (size - 1)

/-- `db_query`: the rows the statement returned, and the connection. How a row becomes a result
depends on the kind of query (`queryInt`). -/
def dbQuery (fmt : String) (args : List Arg) (outcome : Outcome) (c : Conn) : List (List Value) × Conn :=
  let buf := vsnprintf sqlBufsize fmt.toList args
  match outcome with
  | .failed => ([], c)
  | .cancelled => ([], c.cancel)
  | .foreign rows db => if (prepare buf).isSome then ([], c) else (rows, c.setView db)
  | .done =>
    match prepare buf with
    | none => ([], c)
    | some statement =>
      match c.exec statement with
      | some (c, rows) => (rows, c)
      | none => ([], if exhausts c.view statement then c.cancel else c)

/-- The number a text begins with, behind blanks and a sign; the nearest one if it is out of range. -/
def textInt64 (s : List Char) : Int64 :=
  let digits (s : List Char) : ℤ := Nat.ofDigitChars 10 (s.takeWhile Char.isDigit) 0
  match s.dropWhile fun c => Lexer.isSpace c || c = Char.ofNat 11 with
  | '-' :: rest => Int64.ofInt (max (-2 ^ 63) (-digits rest))
  | '+' :: rest => Int64.ofInt (min (2 ^ 63 - 1) (digits rest))
  | rest => Int64.ofInt (min (2 ^ 63 - 1) (digits rest))

/-- `sqlite3_column_int64`; a real is one that fits no integer. -/
def columnInt64 : Value → Int64
  | .null => 0
  | .int n => Int64.ofInt n
  | .real _ => Int64.maxValue
  | .text s => textInt64 s

/-- `sqlite3_column_int`: the low 32 bits. -/
def columnInt (v : Value) : Int32 :=
  (columnInt64 v).toInt32

/-- The result of a `QUERY_INT`: the first column of the last row, `NULL` if there is none. -/
def queryInt (rows : List (List Value)) : Int32 :=
  match rows.getLast? with
  | some (v :: _) => columnInt v
  | _ => 0

/-- `db_begin`; it blocks if the mutex is taken. -/
def dbBegin (c : Conn) : Option Conn :=
  if c.mutex then none
  else some (dbQuery "BEGIN;" [] .done { c with mutex := true, calls := c.calls ++ [.begin] }).2

/-- `db_commit`. -/
def dbCommit (c : Conn) : Conn :=
  let c := (dbQuery "COMMIT;" [] .done { c with calls := c.calls ++ [.commit] }).2
  { c with mutex := false }

/-- `db_rollback`. -/
def dbRollback (c : Conn) : Conn :=
  let c := (dbQuery "ROLLBACK;" [] .done { c with calls := c.calls ++ [.rollback] }).2
  { c with mutex := false }

/-- The statements of `db_sqlite_initialize` between `db_begin` and `db_commit`. -/
def initializeStatements : List String :=
  ["DROP TABLE IF EXISTS packages",
    "DROP TABLE IF EXISTS files",
    "CREATE TABLE packages (path TEXT, version INTEGER, id INTEGER PRIMARY KEY AUTOINCREMENT);",
    "CREATE TABLE files (package INTEGER, path TEXT, type TEXT, owner INTEGER, grp INTEGER, size INTEGER, mode INTEGER, offset INTEGER, ctime INTEGER, target INTEGER, inode INTEGER PRIMARY KEY AUTOINCREMENT);",
    "INSERT INTO files (package, path, type, size, offset, owner, grp, mode) VALUES ('', '/', 'd', 0, 0, 0, 0, 16895);"]

/-- `db_sqlite_initialize`, every statement succeeding. -/
def dbSqliteInitialize (c : Conn) : Option Conn := do
  let c ← dbBegin c
  some (dbCommit (initializeStatements.foldl (fun c fmt => (dbQuery fmt [] .done c).2) c))

/-- The formats of `db_pkg_remove`. -/
def deleteFilesFmt : String :=
  "DELETE FROM files WHERE package IN (SELECT id FROM packages WHERE path = '%s');"

def deletePackagesFmt : String := "DELETE FROM packages WHERE path = '%s';"

/-- The formats of `db_pkg_add`. -/
def insertPackageFmt : String := "INSERT INTO packages (path, version) VALUES ('%s', %lu);"

def selectPackageFmt : String := "SELECT id FROM packages WHERE path = '%s' AND version = %lu;"

/-- The format of `db_file_remove`. -/
def deleteFileFmt : String := "DELETE FROM files WHERE package = '%lu' AND path = '%s';"

/-- What happens to the statements of `db_pkg_remove`. -/
structure RemoveEnv where
  files : Outcome := .done
  packages : Outcome := .done

/-- `db_pkg_remove`. -/
def dbPkgRemove (path : List Char) (env : RemoveEnv) (c : Conn) : Conn :=
  let c := (dbQuery deleteFilesFmt [.str path] env.files c).2
  (dbQuery deletePackagesFmt [.str path] env.packages c).2

/-- What happens to the calls of `db_pkg_add`: `stat` yields `errno` or the file's `st_mtime`. -/
structure AddEnv where
  stat : Except Int32 Int64
  insert : Outcome := .done
  select : Outcome := .done

/-- `db_pkg_add`. The time is printed with `%lu`; the key passes through an `int`. -/
def dbPkgAdd (path : List Char) (env : AddEnv) (c : Conn) : Int32 × Conn :=
  match env.stat with
  | .error errno => (-errno, c)
  | .ok mtime =>
    let c := (dbQuery insertPackageFmt [.str path, .ulong mtime.toUInt64] env.insert c).2
    let (rows, c) := dbQuery selectPackageFmt [.str path, .ulong mtime.toUInt64] env.select c
    (queryInt rows, c)

/-- `db_file_remove`. The package key is an unsigned number of 32 bits passed as an `int`. -/
def dbFileRemove (pkg : Int32) (path : List Char) (outcome : Outcome) (c : Conn) : Conn :=
  (dbQuery deleteFileFmt [.ulong pkg.toUInt32.toUInt64, .str path] outcome c).2

/-- The format of `db_file_add`: nine columns, and ten values. -/
def insertFileFmt : String :=
  "INSERT INTO files (package, path, type, owner, grp, offset, ctime, mode, target) VALUES (%lu, '%s', '%s', %lu, %lu, %lu, %lu, %lu, '%s', %lu);"

/-- What is printed by the conversions of `insertFileFmt` that have no argument of their kind. The third takes the
character for the address of a string, and the last two take what lies behind the arguments. A string that is not
there cannot be read. -/
structure Misread where
  third : Char → Option (List Char)
  ninth : Option (List Char)
  tenth : UInt64

/-- `db_file_add`; SQLite executes whatever statement it can prepare. -/
def dbFileAdd (pkg : Int32) (path : List Char) (type : Char) (owner grp : UInt32) (size : UInt64)
    (offset ctime : Int64) (misread : Misread) (c : Conn) : Option (Int32 × Conn) := do
  let c := dbFileRemove pkg path .done c
  let third ← misread.third type
  let ninth ← misread.ninth
  let args : List Arg :=
    [.ulong pkg.toUInt32.toUInt64, .str path, .str third, .ulong owner.toUInt64, .ulong grp.toUInt64, .ulong size,
      .ulong offset.toUInt64, .ulong ctime.toUInt64, .str ninth, .ulong misread.tenth]
  some (0, (dbQuery insertFileFmt args .done c).2)

end FsPkg.Db
