import FsPkg.Proofs.DbSqliteText

/-! # What the calls of the database layer do

On a database with the two tables of `db_sqlite_initialize`, each call on a path without quotes has
one lemma that says which rows it leaves and adds, statement by statement as they succeed or fail.
-/

namespace FsPkg.Db

open Sql

/-- The columns `db_sqlite_initialize` creates. -/
def packagesColumns : List Column :=
  [⟨"path".toList, .text, false⟩, ⟨"version".toList, .integer, false⟩, ⟨"id".toList, .integer, true⟩]

def filesColumns : List Column :=
  [⟨"package".toList, .integer, false⟩, ⟨"path".toList, .text, false⟩, ⟨"type".toList, .text, false⟩,
    ⟨"owner".toList, .integer, false⟩, ⟨"grp".toList, .integer, false⟩, ⟨"size".toList, .integer, false⟩,
    ⟨"mode".toList, .integer, false⟩, ⟨"offset".toList, .integer, false⟩, ⟨"ctime".toList, .integer, false⟩,
    ⟨"target".toList, .integer, false⟩, ⟨"inode".toList, .integer, true⟩]

/-- A database that has both tables. -/
structure Tables (db : Database) (p f : Table) : Prop where
  packages : db "packages".toList = some p
  files : db "files".toList = some f
  packagesColumns : p.columns = packagesColumns
  filesColumns : f.columns = filesColumns

/-- The database with both tables replaced. -/
def write (db : Database) (p f : Table) : Database :=
  Function.update (Function.update db "packages".toList (some p)) "files".toList (some f)

theorem packages_ne_files : "packages".toList ≠ "files".toList := by decide

section Write

variable {db : Database} {p f p' f' : Table}

theorem write_packages : write db p f "packages".toList = some p := by
  rw [write, Function.update_of_ne packages_ne_files, Function.update_self]

theorem write_files : write db p f "files".toList = some f :=
  Function.update_self ..

@[simp] theorem write_write : write (write db p f) p' f' = write db p' f' := by
  unfold write
  rw [Function.update_comm packages_ne_files, Function.update_idem, Function.update_comm packages_ne_files,
    Function.update_idem, Function.update_comm packages_ne_files]

theorem Tables.write_self (tables : Tables db p f) : write db p f = db := by
  unfold write
  rw [Function.update_comm packages_ne_files, ← tables.files, Function.update_eq_self, ← tables.packages,
    Function.update_eq_self]

theorem tables_write (db : Database) (one : p.columns = packagesColumns) (two : f.columns = filesColumns) :
    Tables (write db p f) p f :=
  ⟨write_packages, write_files, one, two⟩

theorem Tables.write (tables : Tables db p f) (one : p'.columns = p.columns)
    (two : f'.columns = f.columns) : Tables (Db.write db p' f') p' f' :=
  tables_write db (one.trans tables.packagesColumns) (two.trans tables.filesColumns)

theorem Tables.update_packages (tables : Tables db p f) :
    Function.update db "packages".toList (some p') = Db.write db p' f := by
  unfold Db.write
  rw [Function.update_comm packages_ne_files, ← tables.files, Function.update_eq_self]

theorem Tables.update_files (tables : Tables db p f) :
    Function.update db "files".toList (some f') = Db.write db p f' := by
  unfold Db.write
  rw [← tables.packages, Function.update_eq_self]

end Write

/-! ## Conditions on rows -/

/-- The row's path is this one. -/
def hasPath (path : List Char) (row : Row) : Bool :=
  row "path".toList = .text path

/-- The row's version equals this number. -/
def hasVersion (version : UInt64) (row : Row) : Bool :=
  (row "version".toList).compare (numeral version.toNat) = some true

/-- A files row that belongs to a packages row of this path. -/
def ownedBy (packages : List Row) (path : List Char) (row : Row) : Bool :=
  packages.any fun other => hasPath path other &&
    (row "package".toList).compare (other "id".toList) = some true

theorem ownedBy_iff {packages : List Row} {path : List Char} {row : Row} :
    ownedBy packages path row = true ↔ ∃ other ∈ packages, other "path".toList = .text path ∧
      (row "package".toList).compare (other "id".toList) = some true := by
  simp only [ownedBy, hasPath, List.any_eq_true, Bool.and_eq_true, decide_eq_true_iff]

/-- A files row of this package. -/
def inPackage (pkg : UInt64) (row : Row) : Bool :=
  (row "package".toList).compare (numeral pkg.toNat) = some true

section Conditions

variable {db : Database} {p f : Table} {path : List Char} {row : Row}

theorem affinity_path {t : Table} (columns : t.columns = packagesColumns ∨ t.columns = filesColumns) :
    t.affinity "path".toList = some .text := by
  unfold Table.affinity Table.column
  rcases columns with columns | columns
  · rw [columns]
    rfl
  · rw [columns]
    rfl

theorem holds_pathIs {t : Table} (columns : t.columns = packagesColumns ∨ t.columns = filesColumns) :
    (pathIs path).holds db t row = hasPath path row := by
  have evaluated : (pathIs path).eval db t row =
      .ofBool (compareWith (some .text, row "path".toList) (none, .text path)) := by
    rw [← affinity_path columns]
    rfl
  rw [Expr.holds, evaluated, truth_ofBool, hasPath, decide_eq_decide]
  exact compare_text

theorem holds_versionIs (columns : p.columns = packagesColumns) (version : UInt64) :
    (versionIs version).holds db p row = hasVersion version row := by
  have affinity : p.affinity "version".toList = some .integer := by
    rw [Table.affinity, Table.column, columns]
    rfl
  have evaluated : (versionIs version).eval db p row =
      .ofBool (compareWith (some .integer, row "version".toList) (none, numeral version.toNat)) := by
    rw [← affinity]
    rfl
  rw [Expr.holds, evaluated, truth_ofBool, hasVersion, compareWith, coerce, applyNumeric_numeral]

theorem holds_and {t : Table} (left right : Expr) :
    (Expr.and left right).holds db t row = (left.holds db t row && right.holds db t row) := by
  rw [Expr.holds, Expr.eval, truth_ofBool, Bool.eq_iff_iff, decide_eq_true_iff, and3_eq_true]
  simp [Expr.holds]

theorem holds_owned (tables : Tables db p f) :
    (Expr.inSelect (.column "package".toList) "id".toList "packages".toList (pathIs path)).holds db f row =
      ownedBy p.rows path row := by
  have package : f.affinity "package".toList = some .integer := by
    rw [Table.affinity, Table.column, tables.filesColumns]
    rfl
  have id : p.affinity "id".toList = some .integer := by
    rw [Table.affinity, Table.column, tables.packagesColumns]
    rfl
  rw [Expr.holds, Expr.eval, tables.packages]
  simp only [truth_ofBool, foldr_or3_eq_true]
  rw [ownedBy, Bool.eq_iff_iff, decide_eq_true_iff, List.any_eq_true]
  constructor
  · rintro ⟨other, member, same⟩
    obtain ⟨present, picked⟩ := List.mem_filter.mp member
    have named : hasPath path other = true := (holds_pathIs (.inl tables.packagesColumns)).symm.trans picked
    refine ⟨other, present, ?_⟩
    rw [named, Bool.true_and, decide_eq_true_iff]
    rw [Expr.affinity, package, id] at same
    exact same
  · rintro ⟨other, present, both⟩
    rw [Bool.and_eq_true, decide_eq_true_iff] at both
    refine ⟨other, List.mem_filter.mpr ⟨present, ?_⟩, ?_⟩
    · exact (holds_pathIs (.inl tables.packagesColumns)).trans both.1
    · rw [Expr.affinity, package, id]
      exact both.2

theorem holds_inPackage (columns : f.columns = filesColumns) (pkg : UInt64) :
    (Expr.eq (.column "package".toList) (.value (.text (Nat.toDigits 10 pkg.toNat)))).holds db f row =
      inPackage pkg row := by
  have affinity : f.affinity "package".toList = some .integer := by
    rw [Table.affinity, Table.column, columns]
    rfl
  rw [Expr.holds, Expr.eval, truth_ofBool, Expr.affinity, affinity, inPackage, compareWith]
  change decide ((Expr.eval db f row (.column "package".toList)).compare
    (Value.applyNumeric (.text (Nat.toDigits 10 pkg.toNat))) = some true) = _
  rw [applyNumeric_toDigits]
  rfl

end Conditions

/-! ## Statements -/

section Statements

variable {c : Conn} {p f : Table} {path : List Char}

@[simp] theorem view_setView (db : Database) : (c.setView db).view = db := by
  unfold Conn.setView Conn.view
  cases c.txn <;> rfl

@[simp] theorem setView_setView (db db' : Database) : (c.setView db).setView db' = c.setView db' := by
  unfold Conn.setView
  cases h : c.txn <;> rfl

theorem setView_self : c.setView c.view = c := by
  obtain ⟨committed, txn, mutex, calls⟩ := c
  cases txn <;> rfl

@[simp] theorem view_cancel : c.cancel.view = c.committed := rfl

/-- A change is committed at once if no transaction is open. -/
theorem committed_setView (db : Database) : (c.setView db).committed = if c.txn.isSome then c.committed else db := by
  obtain ⟨committed, txn, mutex, calls⟩ := c
  cases txn <;> rfl

/-- A prepared query is executed. -/
theorem dbQuery_prepared {fmt : String} {args : List Arg} {statement : Statement}
    (prepared : prepare (vsnprintf sqlBufsize fmt.toList args) = some statement) :
    dbQuery fmt args .done c = match c.exec statement with
      | none => ([], if exhausts c.view statement then c.cancel else c)
      | some (next, rows) => (rows, next) := by
  simp only [dbQuery, prepared]
  cases c.exec statement <;> rfl

/-- A failing query changes nothing. -/
theorem dbQuery_failed (fmt : String) (args : List Arg) : dbQuery fmt args .failed c = ([], c) := rfl

/-- A query that takes the transaction with it. -/
theorem dbQuery_cancelled (fmt : String) (args : List Arg) : dbQuery fmt args .cancelled c = ([], c.cancel) := rfl

/-- A statement that is known is not taken for another one. -/
theorem dbQuery_foreign {fmt : String} {args : List Arg} {statement : Statement}
    (prepared : prepare (vsnprintf sqlBufsize fmt.toList args) = some statement) (rows : List (List Value))
    (db : Database) : dbQuery fmt args (.foreign rows db) c = ([], c) := by
  simp only [dbQuery, prepared, Option.isSome_some, if_true]

/-- What a known statement leaves, if it leaves `next` where it is carried out. -/
def Outcome.leaves (c next : Conn) : Outcome → Conn
  | .done => next
  | .failed | .foreign .. => c
  | .cancelled => c.cancel

theorem dbQuery_leaves {fmt : String} {args : List Arg} {statement : Statement}
    (prepared : prepare (vsnprintf sqlBufsize fmt.toList args) = some statement) (outcome : Outcome) :
    (dbQuery fmt args outcome c).2 = outcome.leaves c (dbQuery fmt args .done c).2 := by
  cases outcome with
  | done | failed | cancelled => rfl
  | foreign rows db => rw [dbQuery_foreign prepared, Outcome.leaves]

/-- A statement that is not a transaction command works on the view. -/
theorem dbQuery_data {fmt : String} {args : List Arg} {statement : Statement} {db : Database}
    {rows : List (List Value)} (prepared : prepare (vsnprintf sqlBufsize fmt.toList args) = some statement)
    (ran : Sql.exec c.view statement = some (db, rows)) :
    dbQuery fmt args .done c = (rows, c.setView db) := by
  rw [dbQuery_prepared prepared]
  cases statement with
  | begin | commit | rollback => contradiction
  | createTable | dropTable | insert | delete | select => simp only [Conn.exec, ran, Option.map_some]

theorem dbQuery_delete {fmt : String} {args : List Arg} {table : Name} {cond : Expr} {t : Table}
    (prepared : prepare (vsnprintf sqlBufsize fmt.toList args) = some (.delete table cond))
    (found : c.view table = some t) (resolves : cond.resolves c.view t) :
    dbQuery fmt args .done c = ([], c.setView (Function.update c.view table
      (some { t with rows := t.rows.filter fun row => !cond.holds c.view t row }))) := by
  have ran : Sql.exec c.view (.delete table cond) = some (Function.update c.view table
      (some { t with rows := t.rows.filter fun row => !cond.holds c.view t row }), []) := by
    rw [Sql.exec, found]
    exact if_pos resolves
  exact dbQuery_data prepared ran

/-- The rows `db_pkg_remove` leaves in each table. -/
def dropFiles (path : List Char) (p f : Table) : Table :=
  { f with rows := f.rows.filter fun row => !ownedBy p.rows path row }

def dropPackages (path : List Char) (p : Table) : Table :=
  { p with rows := p.rows.filter fun row => !hasPath path row }

theorem deleteFiles_spec (tables : Tables c.view p f) (plain : '\'' ∉ path) (short : path.length < pathMax) :
    dbQuery deleteFilesFmt [.str path] .done c = ([], c.setView (write c.view p (dropFiles path p f))) := by
  have resolves : (Expr.inSelect (.column "package".toList) "id".toList "packages".toList
      (pathIs path)).resolves c.view f := by
    simp only [Expr.resolves, tables.packages, pathIs, Table.column, tables.packagesColumns,
      tables.filesColumns]
    rfl
  rw [dbQuery_delete (prepare_deleteFiles plain short) tables.files resolves, tables.update_files]
  simp only [holds_owned tables]
  rfl

theorem deletePackages_spec (tables : Tables c.view p f) (plain : '\'' ∉ path)
    (short : path.length < pathMax) :
    dbQuery deletePackagesFmt [.str path] .done c = ([], c.setView (write c.view (dropPackages path p) f)) := by
  have resolves : (pathIs path).resolves c.view p := by
    simp only [Expr.resolves, pathIs, Table.column, tables.packagesColumns]
    rfl
  rw [dbQuery_delete (prepare_deletePackages plain short) tables.packages resolves, tables.update_packages]
  simp only [holds_pathIs (.inl tables.packagesColumns)]
  rfl

/-- There is a key left for another row. -/
def hasRoom (p : Table) : Prop :=
  p.lastKey "id".toList + 1 < 2 ^ 63

instance (p : Table) : Decidable (hasRoom p) := inferInstanceAs (Decidable (_ < _))

/-- The row `db_pkg_add` inserts. -/
def packageRow (p : Table) (path : List Char) (version : UInt64) : Row :=
  p.newRow ["path".toList, "version".toList] [.text path, numeral version.toNat] "id".toList

def addPackage (path : List Char) (version : UInt64) (p : Table) : Table :=
  { p with rows := p.rows ++ [packageRow p path version], seq := p.lastKey "id".toList + 1 }

theorem packageRow_path (columns : p.columns = packagesColumns) (version : UInt64) :
    packageRow p path version "path".toList = .text path := by
  simp only [packageRow, Table.newRow, affinity_path (.inl columns)]
  rfl

theorem packageRow_version (columns : p.columns = packagesColumns) (version : UInt64) :
    packageRow p path version "version".toList = numeral version.toNat := by
  have affinity : p.affinity "version".toList = some .integer := by
    rw [Table.affinity, Table.column, columns]
    rfl
  simp only [packageRow, Table.newRow, affinity]
  exact applyNumeric_numeral _

theorem packageRow_id (version : UInt64) :
    packageRow p path version "id".toList = .int (p.lastKey "id".toList + 1 : ℕ) := by
  simp [packageRow, Table.newRow]

theorem accepts_package (columns : p.columns = packagesColumns) (version : UInt64) :
    p.accepts ["path".toList, "version".toList] [.text path, numeral version.toNat] "id".toList = true := by
  simp only [Table.accepts, Table.column, columns]
  rfl

/-- A new row; without a key for it the transaction is rolled back. -/
theorem insertPackage_spec (tables : Tables c.view p f) (plain : '\'' ∉ path)
    (short : path.length < pathMax) (version : UInt64) :
    dbQuery insertPackageFmt [.str path, .ulong version] .done c =
      ([], if hasRoom p then c.setView (write c.view (addPackage path version p) f) else c.cancel) := by
  have key : p.key = some "id".toList := by
    rw [Table.key, tables.packagesColumns]
    rfl
  have prepared := prepare_insertPackage plain short version
  by_cases room : hasRoom p
  · have inserted : p.insert ["path".toList, "version".toList] [.text path, numeral version.toNat] =
        some (addPackage path version p) := by
      simp only [Table.insert, key, bind, Option.bind_some, accepts_package tables.packagesColumns, Bool.true_and]
      exact if_pos (decide_eq_true room)
    have ran : Sql.exec c.view (.insert "packages".toList ["path".toList, "version".toList]
        [.text path, numeral version.toNat]) = some (write c.view (addPackage path version p) f, []) := by
      simp only [Sql.exec, tables.packages, bind, Option.bind_some, inserted, tables.update_packages]
    rw [dbQuery_data prepared ran, if_pos room]
  · have refused : p.insert ["path".toList, "version".toList] [.text path, numeral version.toNat] = none := by
      simp only [Table.insert, key, bind, Option.bind_some, accepts_package tables.packagesColumns, Bool.true_and]
      exact if_neg fun fits => room (of_decide_eq_true fits)
    have full : exhausts c.view (.insert "packages".toList ["path".toList, "version".toList]
        [.text path, numeral version.toNat]) = true := by
      simp only [exhausts, tables.packages, key, Option.any_some, accepts_package tables.packagesColumns,
        Bool.true_and]
      exact decide_eq_true (not_lt.mp room)
    rw [dbQuery_prepared prepared, if_neg room]
    simp only [Conn.exec, Sql.exec, tables.packages, bind, Option.bind_some, refused, Option.bind_none,
      Option.map_none, full, if_true]

theorem selectPackage_spec (tables : Tables c.view p f) (plain : '\'' ∉ path)
    (short : path.length < pathMax) (version : UInt64) :
    dbQuery selectPackageFmt [.str path, .ulong version] .done c =
      ((p.rows.filter fun row => hasPath path row && hasVersion version row).map
        fun row => [row "id".toList], c) := by
  have resolves : (Expr.and (pathIs path) (versionIs version)).resolves c.view p := by
    simp only [Expr.resolves, pathIs, versionIs, Table.column, tables.packagesColumns]
    rfl
  have known : ["id".toList].all (fun name => (p.column name).isSome) := by
    simp only [Table.column, tables.packagesColumns]
    rfl
  have ran : Sql.exec c.view (.select (some ["id".toList]) "packages".toList
      (.and (pathIs path) (versionIs version))) = some (c.view, (p.rows.filter fun row =>
        hasPath path row && hasVersion version row).map fun row => [row "id".toList]) := by
    rw [Sql.exec, tables.packages]
    refine (if_pos (Bool.and_eq_true_iff.mpr ⟨resolves, known⟩)).trans ?_
    simp only [holds_and, holds_pathIs (.inl tables.packagesColumns), holds_versionIs tables.packagesColumns]
    rfl
  rw [dbQuery_data (prepare_selectPackage plain short version) ran, setView_self]

def dropFile (pkg : UInt64) (path : List Char) (f : Table) : Table :=
  { f with rows := f.rows.filter fun row => !(inPackage pkg row && hasPath path row) }

theorem deleteFile_spec (tables : Tables c.view p f) (plain : '\'' ∉ path) (pkg : UInt64) (fits : Fits pkg path) :
    dbQuery deleteFileFmt [.ulong pkg, .str path] .done c =
      ([], c.setView (write c.view p (dropFile pkg path f))) := by
  have resolves : (Expr.and (.eq (.column "package".toList) (.value (.text (Nat.toDigits 10 pkg.toNat))))
      (pathIs path)).resolves c.view f := by
    simp only [Expr.resolves, pathIs, Table.column, tables.filesColumns]
    rfl
  rw [dbQuery_delete (prepare_deleteFile plain pkg fits) tables.files resolves, tables.update_files]
  simp only [holds_and, holds_inPackage tables.filesColumns, holds_pathIs (.inr tables.filesColumns)]
  rfl

/-! ## Calls -/

/-- `db_pkg_remove`, both statements being carried out. -/
theorem dbPkgRemove_spec (tables : Tables c.view p f) (plain : '\'' ∉ path) (short : path.length < pathMax) :
    dbPkgRemove path {} c = c.setView (write c.view (dropPackages path p) (dropFiles path p f)) := by
  have middle : Tables (c.setView (write c.view p (dropFiles path p f))).view p (dropFiles path p f) := by
    rw [view_setView]
    exact tables.write rfl rfl
  rw [dbPkgRemove, deleteFiles_spec tables plain short, deletePackages_spec middle plain short]
  simp

/-- `db_pkg_add` for a file that is there, with a key left for it. -/
theorem dbPkgAdd_spec (tables : Tables c.view p f) (plain : '\'' ∉ path) (short : path.length < pathMax)
    (room : hasRoom p) (mtime : Int64) : dbPkgAdd path { stat := .ok mtime } c =
      (queryInt (((addPackage path mtime.toUInt64 p).rows.filter fun row =>
          hasPath path row && hasVersion mtime.toUInt64 row).map fun row => [row "id".toList]),
        c.setView (write c.view (addPackage path mtime.toUInt64 p) f)) := by
  have middle : Tables (c.setView (write c.view (addPackage path mtime.toUInt64 p) f)).view
      (addPackage path mtime.toUInt64 p) f := by
    rw [view_setView]
    exact tables.write rfl rfl
  simp only [dbPkgAdd, insertPackage_spec tables plain short, if_pos room, selectPackage_spec middle plain short]

/-- `db_pkg_add` for a file that is gone. -/
theorem dbPkgAdd_gone {env : AddEnv} {errno : Int32} (stat : env.stat = .error errno) :
    dbPkgAdd path env c = (-errno, c) := by
  rw [dbPkgAdd, stat]

end Statements

end FsPkg.Db
