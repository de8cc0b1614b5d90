import FsPkg.Proofs.PkgImportSpec

/-! # The tables after `db_sqlite_initialize`

Whatever was in the database, initialization leaves an empty packages table and a files table with
the root directory as its only row, and no transaction open.
-/

namespace FsPkg.Db

open Sql

/-- The root directory belongs to the package `''`, which is no number. -/
def rootColumns : List Name :=
  ["package".toList, "path".toList, "type".toList, "size".toList, "offset".toList, "owner".toList,
    "grp".toList, "mode".toList]

def rootValues : List Value :=
  [.text [], .text ['/'], .text ['d'], .int 0, .int 0, .int 0, .int 0, .int 16895]

def rootRow : Row := Table.newRow { columns := filesColumns } rootColumns rootValues "inode".toList

theorem rootRow_package : rootRow "package".toList = .text [] := by decide

def initialPackages : Table := { columns := packagesColumns }

def initialFiles : Table := { columns := filesColumns, rows := [rootRow], seq := 1 }

section Prepare

private theorem prepare_dropPackages :
    prepare (vsnprintf sqlBufsize "DROP TABLE IF EXISTS packages".toList []) =
      some (.dropTable "packages".toList) := by
  rw [String.toList_ofList]
  decide +kernel

private theorem prepare_dropFiles :
    prepare (vsnprintf sqlBufsize "DROP TABLE IF EXISTS files".toList []) =
      some (.dropTable "files".toList) := by
  rw [String.toList_ofList]
  decide +kernel

private theorem prepare_createPackages :
    prepare (vsnprintf sqlBufsize "CREATE TABLE packages (path TEXT, version INTEGER, id INTEGER PRIMARY KEY AUTOINCREMENT);".toList []) =
      some (.createTable "packages".toList packagesColumns) := by
  rw [String.toList_ofList]
  decide +kernel

private theorem prepare_createFiles :
    prepare (vsnprintf sqlBufsize "CREATE TABLE files (package INTEGER, path TEXT, type TEXT, owner INTEGER, grp INTEGER, size INTEGER, mode INTEGER, offset INTEGER, ctime INTEGER, target INTEGER, inode INTEGER PRIMARY KEY AUTOINCREMENT);".toList []) =
      some (.createTable "files".toList filesColumns) := by
  rw [String.toList_ofList]
  decide +kernel

private theorem prepare_insertRoot :
    prepare (vsnprintf sqlBufsize "INSERT INTO files (package, path, type, size, offset, owner, grp, mode) VALUES ('', '/', 'd', 0, 0, 0, 0, 16895);".toList []) =
      some (.insert "files".toList rootColumns rootValues) := by
  rw [String.toList_ofList]
  decide +kernel

end Prepare

section Statements

variable {c : Conn}

private theorem created_packages (absent : c.view "packages".toList = none) :
    Sql.exec c.view (.createTable "packages".toList packagesColumns) =
      some (Function.update c.view "packages".toList (some initialPackages), []) := by
  rw [Sql.exec, absent]
  rfl

private theorem created_files (absent : c.view "files".toList = none) :
    Sql.exec c.view (.createTable "files".toList filesColumns) =
      some (Function.update c.view "files".toList (some { columns := filesColumns }), []) := by
  rw [Sql.exec, absent]
  rfl

private theorem inserted_root (created : c.view "files".toList = some { columns := filesColumns }) :
    Sql.exec c.view (.insert "files".toList rootColumns rootValues) =
      some (Function.update c.view "files".toList (some initialFiles), []) := by
  have inserted : Table.insert { columns := filesColumns } rootColumns rootValues = some initialFiles := rfl
  rw [Sql.exec, created]
  simp only [bind, Option.bind_some, inserted]

/-- The five statements, on any database. -/
theorem initializeStatements_spec (c : Conn) :
    initializeStatements.foldl (fun c fmt => (dbQuery fmt [] .done c).2) c =
      c.setView (write c.view initialPackages initialFiles) := by
  have dropPackages (c : Conn) := dbQuery_data (c := c) prepare_dropPackages rfl
  have dropFiles (c : Conn) := dbQuery_data (c := c) prepare_dropFiles rfl
  have createPackages (c : Conn) (absent : c.view "packages".toList = none) :=
    dbQuery_data prepare_createPackages (created_packages absent)
  have createFiles (c : Conn) (absent : c.view "files".toList = none) :=
    dbQuery_data prepare_createFiles (created_files absent)
  have insertRoot (c : Conn) (created : c.view "files".toList = some { columns := filesColumns }) :=
    dbQuery_data prepare_insertRoot (inserted_root created)
  rw [initializeStatements, List.foldl_cons, List.foldl_cons, List.foldl_cons, List.foldl_cons, List.foldl_cons,
    List.foldl_nil, dropPackages, dropFiles, createPackages, createFiles, insertRoot]
  · simp only [setView_setView, view_setView]
    unfold write
    rw [Function.update_idem, Function.update_comm packages_ne_files.symm, Function.update_idem,
      Function.update_idem]
  · simp only [view_setView]
    rw [Function.update_self]
  · simp only [view_setView]
    rw [Function.update_of_ne packages_ne_files.symm, Function.update_self]
  · simp only [view_setView]
    rw [Function.update_of_ne packages_ne_files, Function.update_self]

end Statements

theorem dbSqliteInitialize_spec {c : Conn} (closed : Closed c) :
    ∃ c', dbSqliteInitialize c = some c' ∧ Closed c' ∧
      Tables c'.committed initialPackages initialFiles := by
  refine ⟨⟨write c.committed initialPackages initialFiles, none, false, c.begun.calls ++ [.commit]⟩, ?_,
    ⟨rfl, rfl⟩, tables_write c.committed rfl rfl⟩
  rw [dbSqliteInitialize, dbBegin_spec closed]
  change some (dbCommit (initializeStatements.foldl _ c.begun)) = _
  rw [initializeStatements_spec, dbCommit_spec]
  rfl

end FsPkg.Db
