import FsPkg.Proofs.DbSqliteSpec

/-! # Paths in SQL texts

A path is printed between single quotes as it is. It reaches SQLite as the string literal of that
path exactly when it has no quote itself; any other path ends the literal early, or is read as a
shorter one, and what follows is taken for SQL.
-/

namespace FsPkg.Db

open Sql

variable {path : List Char}

/-- The texts built for this path spell the intended statements, with the path as one string literal,
and their effects on every database are those of operations on exactly this path. -/
structure PathIsData (path : List Char) : Prop where
  deleteFiles : lex (vsnprintf sqlBufsize deleteFilesFmt.toList [.str path]) = some (deleteFilesTokens path)
  deletePackages : lex (vsnprintf sqlBufsize deletePackagesFmt.toList [.str path]) =
    some (deletePackagesTokens path)
  insertPackage : ∀ mtime, lex (vsnprintf sqlBufsize insertPackageFmt.toList [.str path, .ulong mtime]) =
    some (insertPackageTokens path mtime)
  selectPackage : ∀ mtime, lex (vsnprintf sqlBufsize selectPackageFmt.toList [.str path, .ulong mtime]) =
    some (selectPackageTokens path mtime)
  deleteFile : ∀ pkg, lex (vsnprintf sqlBufsize deleteFileFmt.toList [.ulong pkg, .str path]) =
    some (deleteFileTokens pkg path)
  /-- `db_pkg_remove` takes out the packages rows of this path and the files rows of their keys. -/
  removes : ∀ (c : Conn) (p f : Table), Tables c.view p f → dbPkgRemove path {} c = c.setView (write c.view
    { p with rows := p.rows.filter fun row => row "path".toList ≠ .text path }
    { f with rows := f.rows.filter fun row => ¬ ∃ other ∈ p.rows, other "path".toList = .text path ∧
        (row "package".toList).compare (other "id".toList) = some true })
  /-- `db_pkg_add` adds one row, of this path. -/
  adds : ∀ (c : Conn) (p f : Table) (mtime : Int64), Tables c.view p f → hasRoom p → ∃ row seq,
    (dbPkgAdd path { stat := .ok mtime } c).2 =
      c.setView (write c.view { p with rows := p.rows ++ [row], seq } f) ∧ row "path".toList = .text path
  /-- `db_file_remove` takes out the files rows of this package and path. -/
  removesFile : ∀ (c : Conn) (p f : Table) (pkg : Int32), Tables c.view p f →
    dbFileRemove pkg path .done c = c.setView (write c.view p { f with rows := f.rows.filter fun row =>
      ¬ ((row "package".toList).compare (.int pkg.toUInt32.toNat) = some true ∧
        row "path".toList = .text path) })

theorem pathIsData_of_plain (plain : '\'' ∉ path) (short : path.length < pathMax) : PathIsData path where
  deleteFiles := lex_deleteFiles plain short
  deletePackages := lex_deletePackages plain short
  insertPackage := lex_insertPackage plain short
  selectPackage := lex_selectPackage plain short
  deleteFile pkg := lex_deleteFile plain pkg (fits_of_short short pkg)
  removes c p f tables := by
    have packages : dropPackages path p =
        { p with rows := p.rows.filter fun row => row "path".toList ≠ .text path } := by
      unfold dropPackages
      congr 2
      funext row
      rw [hasPath, decide_not]
    have files : dropFiles path p f = { f with
        rows := f.rows.filter fun row => ¬ ∃ other ∈ p.rows, other "path".toList = .text path ∧
          (row "package".toList).compare (other "id".toList) = some true } := by
      unfold dropFiles
      congr 2
      funext row
      rw [decide_not]
      congr 1
      rw [Bool.eq_iff_iff, ownedBy_iff, decide_eq_true_iff]
    rw [dbPkgRemove_spec tables plain short, packages, files]
  adds c p f mtime tables room := by
    refine ⟨packageRow p path mtime.toUInt64, p.lastKey "id".toList + 1, ?_,
      packageRow_path tables.packagesColumns _⟩
    rw [dbPkgAdd_spec tables plain short room]
    rfl
  removesFile c p f pkg tables := by
    have small : numeral pkg.toUInt32.toUInt64.toNat = .int pkg.toUInt32.toNat := by
      have bound := pkg.toUInt32.toNat_lt
      rw [UInt32.toNat_toUInt64, numeral, if_pos (by omega)]
    have files : dropFile pkg.toUInt32.toUInt64 path f = { f with rows := f.rows.filter fun row =>
        ¬ ((row "package".toList).compare (.int pkg.toUInt32.toNat) = some true ∧
          row "path".toList = .text path) } := by
      unfold dropFile
      congr 2
      funext row
      rw [inPackage, small, hasPath, decide_not, Bool.decide_and]
    rw [dbFileRemove, deleteFile_spec tables plain _ (fits_of_short short _), files]

/-- A path is only data exactly when it has no single quote. -/
theorem path_is_data_iff (short : path.length < pathMax) : PathIsData path ↔ '\'' ∉ path := by
  constructor
  · intro data
    have lexed := data.deletePackages
    have after : "';".toList = '\'' :: [';'] := String.toList_ofList
    rw [text_deletePackages short, after] at lexed
    exact plain_of_lex reads_deletePackages (by decide) lexed
  · exact fun plain => pathIsData_of_plain plain short

theorem path_is_data_iff_ab : "/a b".toList.length < pathMax ∧ PathIsData "/a b".toList :=
  ⟨by decide, (path_is_data_iff (by decide)).mpr (by decide)⟩

/-! ## A path that is not -/

/-- `' OR '1'='1`: it ends the literal and adds a condition that every row meets. -/
def allRows : List Char := ['\'', ' ', 'O', 'R', ' ', '\'', '1', '\'', '=', '\'', '1']

private theorem prepare_deleteFiles_allRows :
    prepare (vsnprintf sqlBufsize deleteFilesFmt.toList [.str allRows]) = some (.delete "files".toList
      (.inSelect (.column "package".toList) "id".toList "packages".toList
        (.or (pathIs []) (.eq (.value (.text ['1'])) (.value (.text ['1'])))))) := by
  rw [text_deleteFiles (by decide), String.toList_ofList, String.toList_ofList]
  decide +kernel

private theorem prepare_deletePackages_allRows :
    prepare (vsnprintf sqlBufsize deletePackagesFmt.toList [.str allRows]) = some (.delete "packages".toList
      (.or (pathIs []) (.eq (.value (.text ['1'])) (.value (.text ['1']))))) := by
  rw [text_deletePackages (by decide), String.toList_ofList, String.toList_ofList]
  decide +kernel

/-- On every database, removing the package of this name removes every package. -/
theorem dbPkgRemove_allRows {c : Conn} {p f : Table} (tables : Tables c.view p f) :
    (dbPkgRemove allRows {} c).view "packages".toList = some { p with rows := [] } := by
  have resolvesFiles : (Expr.inSelect (.column "package".toList) "id".toList "packages".toList
      (.or (pathIs []) (.eq (.value (.text ['1'])) (.value (.text ['1']))))).resolves c.view f := by
    simp only [Expr.resolves, tables.packages, pathIs, Table.column, tables.packagesColumns,
      tables.filesColumns]
    rfl
  obtain ⟨f', columns, first⟩ : ∃ f' : Table, f'.columns = f.columns ∧
      dbQuery deleteFilesFmt [.str allRows] .done c = ([], c.setView (write c.view p f')) := by
    rw [dbQuery_delete prepare_deleteFiles_allRows tables.files resolvesFiles, tables.update_files]
    exact ⟨_, by rfl, rfl⟩
  have middle : Tables (c.setView (write c.view p f')).view p f' := by
    rw [view_setView]
    exact tables.write rfl columns
  have resolves : (Expr.or (pathIs []) (.eq (.value (.text ['1'])) (.value (.text ['1'])))).resolves
      (c.setView (write c.view p f')).view p := by
    simp only [Expr.resolves, pathIs, Table.column, tables.packagesColumns]
    rfl
  have always (row : Row) : (Expr.or (pathIs []) (.eq (.value (.text ['1'])) (.value (.text ['1'])))).holds
      (c.setView (write c.view p f')).view p row = true := by
    rw [Expr.holds, Expr.eval, truth_ofBool, decide_eq_true_iff, or3_eq_true]
    exact .inr rfl
  rw [dbPkgRemove, first]
  dsimp only
  rw [dbQuery_delete prepare_deletePackages_allRows middle.packages resolves]
  simp only [always, Bool.not_true, List.filter_false]
  rw [view_setView, Function.update_self]

/-- A row of one package. -/
def keptRow : Row := Function.update (fun _ => .null) "path".toList (.text "/b.pkg".toList)

/-- Forgetting a package with this name loses an unrelated row. -/
theorem quoted_path_loses_row : ∃ (c : Conn) (p f : Table), Tables c.view p f ∧
    allRows.length < pathMax ∧ keptRow ∈ p.rows ∧ keptRow "path".toList ≠ .text allRows ∧
    ∃ p', (dbPkgRemove allRows {} c).view "packages".toList = some p' ∧ keptRow ∉ p'.rows := by
  let p : Table := { columns := packagesColumns, rows := [keptRow] }
  let f : Table := { columns := filesColumns }
  let c : Conn := { committed := write (fun _ => none) p f }
  have tables : Tables c.view p f := tables_write (fun _ => none) rfl rfl
  refine ⟨c, p, f, tables, by decide, List.mem_singleton.mpr rfl, ?_, _, dbPkgRemove_allRows tables, ?_⟩
  · rw [keptRow, Function.update_self]
    decide
  · exact List.not_mem_nil

end FsPkg.Db
