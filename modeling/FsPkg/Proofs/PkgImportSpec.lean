import FsPkg.Model.PkgImport
import FsPkg.Proofs.DbSqliteSpec

/-! # What one import does

`pkg_import` of a path that is not cached has four ends: it blocks in `db_begin`, it leaves the
transaction open (when the TOC cannot be extracted), it rolls back, or it commits what
`pkg_toc_process` stored. SQLite may have ended the transaction before that: then `COMMIT` fails, and what
was stored since then is committed already.
-/

namespace FsPkg.Db

open Sql

variable {c : Conn}

/-- The connection after `db_begin`. -/
def Conn.begun (c : Conn) : Conn :=
  { c with txn := some c.committed, mutex := true, calls := c.calls ++ [.begin] }

/-- No transaction is open and nobody holds the mutex. -/
structure Closed (c : Conn) : Prop where
  mutex : c.mutex = false
  txn : c.txn = none

theorem Closed.view (closed : Closed c) : c.view = c.committed := by
  rw [Conn.view, closed.txn]
  rfl

theorem prepare_begin : prepare (vsnprintf sqlBufsize "BEGIN;".toList []) = some .begin := by
  decide +kernel

theorem prepare_commit : prepare (vsnprintf sqlBufsize "COMMIT;".toList []) = some .commit := by
  decide +kernel

theorem prepare_rollback : prepare (vsnprintf sqlBufsize "ROLLBACK;".toList []) = some .rollback := by
  decide +kernel

theorem dbBegin_spec (closed : Closed c) : dbBegin c = some c.begun := by
  rw [dbBegin, closed.mutex, if_neg Bool.false_ne_true, dbQuery_prepared prepare_begin]
  simp only [Conn.exec, closed.txn, Option.isSome_none, Bool.false_eq_true, if_false, Conn.begun]

theorem dbBegin_blocks (held : c.mutex = true) : dbBegin c = none := by
  rw [dbBegin, held]
  rfl

/-- What the connection sees is committed in the end, be it by `COMMIT` or, without a transaction, before. -/
theorem dbCommit_spec (c : Conn) : dbCommit c = ⟨c.view, none, false, c.calls ++ [.commit]⟩ := by
  obtain ⟨committed, txn, mutex, calls⟩ := c
  rw [dbCommit, dbQuery_prepared prepare_commit]
  cases txn <;> rfl

theorem dbRollback_spec {db : Database} (opened : c.txn = some db) :
    dbRollback c = ⟨c.committed, none, false, c.calls ++ [.rollback]⟩ := by
  rw [dbRollback, dbQuery_prepared prepare_rollback]
  simp only [Conn.exec, opened, Option.map_some]

theorem view_begun : c.begun.view = c.committed := rfl

/-! ## In the middle of an import -/

/-- The connection as an import has it when it sees these tables: in its transaction, or, once SQLite has ended that,
without one. -/
def Conn.during (c : Conn) (opened : Bool) (p f : Table) : Conn :=
  if opened then c.begun.setView (write c.committed p f)
  else { c.begun with committed := write c.committed p f, txn := none }

section During

variable {opened : Bool} {p f p' f' : Table}

theorem view_during : (c.during opened p f).view = write c.committed p f := by
  unfold Conn.during
  split <;> rfl

theorem begun_eq_during (tables : Tables c.committed p f) : c.begun = c.during true p f := by
  rw [Conn.during, if_pos rfl, tables.write_self]
  rfl

theorem setView_during : (c.during opened p f).setView (write c.committed p' f') = c.during opened p' f' := by
  unfold Conn.during
  split <;> rfl

/-- A rollback by SQLite leaves what was committed before. -/
theorem cancel_during (tables : Tables c.committed p f) :
    (c.during opened p' f').cancel = if opened then c.during false p f else c.during opened p' f' := by
  cases opened with
  | true =>
    simp only [Conn.during, if_true, Bool.false_eq_true, if_false, tables.write_self]
    rfl
  | false => rfl

theorem calls_during : (c.during opened p f).calls = c.calls ++ [.begin] := by
  unfold Conn.during
  split <;> rfl

end During

end FsPkg.Db

namespace FsPkg.Pkg

open Db Sql

/-- The checks of `pkg_toc_process` pass. -/
def TocEnv.accepted (toc : TocEnv) : TocVariant → Bool
  | .libxar => toc.xarOpen && toc.xarIterNew
  | .libxml2 => toc.xmlReadFile && toc.xmlRoot && toc.rootIsXar && toc.childIsToc

/-- The early return of `pkg_import`: there is no TOC to process. -/
def TocEnv.Abandoned (toc : TocEnv) (variant : TocVariant) : Prop :=
  variant = .libxml2 ∧ toc.extract = false

instance (toc : TocEnv) (variant : TocVariant) : Decidable (toc.Abandoned variant) :=
  inferInstanceAs (Decidable (_ ∧ _))

section Import

variable {variant : TocVariant} {path : Text} {env : ImportEnv} {files : FilesLoop} {st : State} {c : Conn}

theorem pkgTocProcess_spec : pkgTocProcess variant path env files c =
    if env.toc.accepted variant then (exitSuccess, tocStore path env files c) else (exitFailure, c) := by
  obtain ⟨⟨xarOpen, xarIterNew, extract, xmlReadFile, xmlRoot, rootIsXar, childIsToc⟩, remove, add⟩ := env
  cases variant with
  | libxar => cases xarOpen <;> cases xarIterNew <;> rfl
  | libxml2 => cases xmlReadFile <;> cases xmlRoot <;> cases rootIsXar <;> cases childIsToc <;> rfl

/-- A cached package is left alone. -/
theorem pkgImport_cached {pkg : Balloc.MemBlock}
    (cached : pkgHandleByname st path st.pkgList.nodes = some (some pkg)) :
    pkgImport variant path env files st c = some (exitSuccess, c) := by
  simp only [pkgImport, bind, cached, Option.bind_some]

section Uncached

variable (uncached : pkgHandleByname st path st.pkgList.nodes = some none)
include uncached

theorem pkgImport_blocks (held : c.mutex = true) : pkgImport variant path env files st c = none := by
  simp only [pkgImport, bind, uncached, Option.bind_some, dbBegin_blocks held, Option.bind_none]

theorem pkgImport_abandoned (closed : Closed c) (abandoned : env.toc.Abandoned variant) :
    pkgImport variant path env files st c = some (exitFailure, c.begun) := by
  have early : variant = .libxml2 ∧ (!env.toc.extract) = true := ⟨abandoned.1, by rw [abandoned.2]; rfl⟩
  simp only [pkgImport, bind, uncached, Option.bind_some, dbBegin_spec closed]
  exact if_pos early

private theorem pkgImport_processed (closed : Closed c) (processed : ¬ env.toc.Abandoned variant) :
    pkgImport variant path env files st c =
      if env.toc.accepted variant then some (exitSuccess, dbCommit (tocStore path env files c.begun))
      else some (exitSuccess, dbRollback c.begun) := by
  have late : ¬ (variant = .libxml2 ∧ (!env.toc.extract) = true) := by
    rintro ⟨build, missing⟩
    exact processed ⟨build, by simpa using missing⟩
  simp only [pkgImport, bind, uncached, Option.bind_some, dbBegin_spec closed]
  rw [if_neg late, pkgTocProcess_spec]
  split <;> rfl

theorem pkgImport_rejected (closed : Closed c) (processed : ¬ env.toc.Abandoned variant)
    (rejected : env.toc.accepted variant = false) : pkgImport variant path env files st c =
      some (exitSuccess, { c with calls := c.calls ++ [.begin, .rollback] }) := by
  rw [pkgImport_processed uncached closed processed, rejected, if_neg Bool.false_ne_true,
    dbRollback_spec (c := c.begun) rfl, Conn.begun, List.append_assoc, closed.mutex, closed.txn]
  rfl

theorem pkgImport_accepted (closed : Closed c) (processed : ¬ env.toc.Abandoned variant)
    (accepted : env.toc.accepted variant = true) : pkgImport variant path env files st c =
      some (exitSuccess, dbCommit (tocStore path env files c.begun)) := by
  rw [pkgImport_processed uncached closed processed, accepted, if_pos rfl]

end Uncached

/-! ## The tables -/

/-- The transaction is still open after `db_pkg_remove`. -/
def OpenAfter (env : RemoveEnv) : Prop :=
  env.files ≠ .cancelled ∧ env.packages ≠ .cancelled

instance (env : RemoveEnv) : Decidable (OpenAfter env) := inferInstanceAs (Decidable (_ ∧ _))

/-- The packages table after the `DELETE` of `db_pkg_remove`. -/
def removed (path : Text) (env : RemoveEnv) (p : Table) : Table :=
  if env.packages = .done then dropPackages path p else p

/-- The files table after `db_pkg_remove`. -/
def removedFiles (path : Text) (env : RemoveEnv) (p f : Table) : Table :=
  if env.files = .done ∧ env.packages ≠ .cancelled then dropFiles path p f else f

/-- A row is added: there is a key for it. -/
def Inserts (env : AddEnv) (p : Table) : Prop :=
  env.insert = .done ∧ hasRoom p

/-- A statement of `db_pkg_add` ends the transaction, if one is open. -/
def Cancels (env : AddEnv) (p : Table) : Prop :=
  env.insert = .cancelled ∨ (env.insert = .done ∧ ¬ hasRoom p) ∨ env.select = .cancelled

/-- `db_pkg_add` finds the file, and ends a transaction that was open: all of it is undone. -/
def Undone (path : Text) (env : ImportEnv) (p : Table) : Prop :=
  env.add.stat.isOk = true ∧ OpenAfter env.remove ∧ Cancels env.add (removed path env.remove p)

instance (env : AddEnv) (p : Table) : Decidable (Inserts env p) := inferInstanceAs (Decidable (_ ∧ _))

instance (env : AddEnv) (p : Table) : Decidable (Cancels env p) := inferInstanceAs (Decidable (_ ∨ _ ∨ _))

instance (path : Text) (env : ImportEnv) (p : Table) : Decidable (Undone path env p) :=
  inferInstanceAs (Decidable (_ ∧ _ ∧ _))

/-- The packages table `pkg_toc_process` stores. -/
def stored (path : Text) (env : ImportEnv) (p : Table) : Table :=
  if Undone path env p then p
  else
    match env.add.stat with
    | .error _ => removed path env.remove p
    | .ok mtime =>
      if Inserts env.add (removed path env.remove p) then
        addPackage path mtime.toUInt64 (removed path env.remove p)
      else removed path env.remove p

/-- The files table `pkg_toc_process` stores, before the files of the package are visited. -/
def storedFiles (path : Text) (env : ImportEnv) (p f : Table) : Table :=
  if Undone path env p then f else removedFiles path env.remove p f

/-- The transaction is still open when the files of the package are visited. -/
def storedOpen (path : Text) (env : ImportEnv) (p : Table) : Bool :=
  OpenAfter env.remove ∧ ¬ Undone path env p

@[simp] theorem removed_columns (p : Table) (env : RemoveEnv) : (removed path env p).columns = p.columns := by
  unfold removed
  split <;> rfl

@[simp] theorem removedFiles_columns (p f : Table) (env : RemoveEnv) :
    (removedFiles path env p f).columns = f.columns := by
  unfold removedFiles
  split <;> rfl

@[simp] theorem stored_columns (p : Table) : (stored path env p).columns = p.columns := by
  unfold stored
  split
  · rfl
  · split
    · exact removed_columns ..
    · split
      · exact removed_columns ..
      · exact removed_columns ..

@[simp] theorem storedFiles_columns (p f : Table) : (storedFiles path env p f).columns = f.columns := by
  unfold storedFiles
  split
  · rfl
  · exact removedFiles_columns ..

/-- Where every statement is carried out that can be, only a missing key ends the transaction. -/
theorem undone_iff {toc : TocEnv} {stat : Except Int32 Int64} {p : Table} :
    Undone path { toc, add := { stat } } p ↔ stat.isOk = true ∧ ¬ hasRoom (dropPackages path p) := by
  simp [Undone, OpenAfter, Cancels, removed]

theorem stored_of_room {toc : TocEnv} {mtime : Int64} {p : Table} (room : hasRoom (dropPackages path p)) :
    stored path { toc, add := { stat := .ok mtime } } p = addPackage path mtime.toUInt64 (dropPackages path p) := by
  rw [stored, if_neg fun undone => (undone_iff.mp undone).2 room]
  exact if_pos ⟨rfl, room⟩

/-- The key `db_pkg_add` reports for the stored table. -/
def storedId (path : Text) (env : ImportEnv) (p : Table) : Int32 :=
  match env.add.stat with
  | .error errno => -errno
  | .ok mtime =>
    if env.add.select = .done then queryInt (((stored path env p).rows.filter fun row =>
      hasPath path row && hasVersion mtime.toUInt64 row).map fun row => [row "id".toList])
    else 0

section Store

variable {p f : Table} (tables : Tables c.committed p f) (plain : '\'' ∉ path) (short : path.length < pathMax)
include tables plain short

/-- The removal within an import. -/
theorem dbPkgRemove_during (env : RemoveEnv) : dbPkgRemove path env c.begun =
    c.during (OpenAfter env) (removed path env p) (removedFiles path env p f) := by
  have sees {opened : Bool} {g : Table} (columns : g.columns = f.columns) :
      Tables (c.during opened p g).view p g := by
    rw [view_during]
    exact tables.write rfl columns
  have first (outcome : Outcome) : (dbQuery deleteFilesFmt [.str path] outcome c.begun).2 =
      outcome.leaves (c.during true p f) (c.during true p (dropFiles path p f)) := by
    rw [dbQuery_leaves (prepare_deleteFiles plain short), begun_eq_during tables,
      deleteFiles_spec (sees rfl) plain short, view_during, write_write, setView_during]
  have second (opened : Bool) (g : Table) (columns : g.columns = f.columns) (outcome : Outcome) :
      (dbQuery deletePackagesFmt [.str path] outcome (c.during opened p g)).2 =
        outcome.leaves (c.during opened p g) (c.during opened (dropPackages path p) g) := by
    rw [dbQuery_leaves (prepare_deletePackages plain short), deletePackages_spec (sees columns) plain short,
      view_during, write_write, setView_during]
  obtain ⟨files, packages⟩ := env
  rw [dbPkgRemove, first]
  cases files with
  | done =>
    simp only [Outcome.leaves]
    rw [second true (dropFiles path p f) rfl]
    cases packages <;> simp [Outcome.leaves, cancel_during tables, OpenAfter, removed, removedFiles]
  | failed | foreign =>
    simp only [Outcome.leaves]
    rw [second true f rfl]
    cases packages <;> simp [Outcome.leaves, cancel_during tables, OpenAfter, removed, removedFiles]
  | cancelled =>
    simp only [Outcome.leaves, cancel_during tables, if_true]
    rw [second false f rfl]
    cases packages <;> simp [Outcome.leaves, cancel_during tables, OpenAfter, removed, removedFiles]

/-- The addition within an import. -/
theorem dbPkgAdd_during {env : AddEnv} {mtime : Int64} (stat : env.stat = .ok mtime) {opened : Bool} {q g : Table}
    (one : q.columns = p.columns) (two : g.columns = f.columns) : dbPkgAdd path env (c.during opened q g) =
      (if env.select = .done then queryInt (((if opened = true ∧ Cancels env q then p
          else if Inserts env q then addPackage path mtime.toUInt64 q else q).rows.filter fun row =>
            hasPath path row && hasVersion mtime.toUInt64 row).map fun row => [row "id".toList]) else 0,
        if opened = true ∧ Cancels env q then c.during false p f
        else c.during opened (if Inserts env q then addPackage path mtime.toUInt64 q else q) g) := by
  have sees {opened : Bool} {q g : Table} (one : q.columns = p.columns) (two : g.columns = f.columns) :
      Tables (c.during opened q g).view q g := by
    rw [view_during]
    exact tables.write one two
  have first (outcome : Outcome) : (dbQuery insertPackageFmt [.str path, .ulong mtime.toUInt64] outcome
      (c.during opened q g)).2 = outcome.leaves (c.during opened q g) (if hasRoom q then
        c.during opened (addPackage path mtime.toUInt64 q) g
      else if opened then c.during false p f else c.during opened q g) := by
    rw [dbQuery_leaves (prepare_insertPackage plain short _), insertPackage_spec (sees one two) plain short,
      view_during, write_write, setView_during, cancel_during tables]
  have second (outcome : Outcome) (opened : Bool) (q g : Table) (one : q.columns = p.columns)
      (two : g.columns = f.columns) :
      dbQuery selectPackageFmt [.str path, .ulong mtime.toUInt64] outcome (c.during opened q g) =
        (if outcome = .done then (q.rows.filter fun row => hasPath path row && hasVersion mtime.toUInt64 row).map
            fun row => [row "id".toList] else [],
          if opened = true ∧ outcome = .cancelled then c.during false p f else c.during opened q g) := by
    cases outcome with
    | done => simp [selectPackage_spec (sees one two) plain short]
    | failed => simp [dbQuery_failed]
    | cancelled => simp [dbQuery_cancelled, cancel_during tables]
    | foreign rows db => simp [dbQuery_foreign (prepare_selectPackage plain short _)]
  have base := second env.select false p f rfl rfl
  have kept := second env.select opened q g one two
  have added := second env.select opened (addPackage path mtime.toUInt64 q) g one two
  have nothing : queryInt [] = 0 := rfl
  obtain ⟨answer, insert, select⟩ := env
  cases stat
  simp only [dbPkgAdd, first]
  by_cases room : hasRoom q
  · cases insert <;> cases opened <;> cases select <;>
      simp [Outcome.leaves, room, base, kept, added, Cancels, Inserts, nothing, cancel_during tables]
  · cases insert <;> cases opened <;> cases select <;>
      simp [Outcome.leaves, room, base, kept, Cancels, Inserts, nothing, cancel_during tables]

end Store

theorem tocStore_spec {p f : Table} (tables : Tables c.committed p f) (plain : '\'' ∉ path)
    (short : path.length < pathMax) : tocStore path env files c.begun = files (storedId path env p).toUInt32
      (c.during (storedOpen path env p) (stored path env p) (storedFiles path env p f)) := by
  rw [tocStore, dbPkgRemove_during tables plain short]
  cases stat : env.add.stat with
  | error errno =>
    have kept : ¬ Undone path env p := fun undone => by simpa [stat, Except.isOk, Except.toBool] using undone.1
    rw [dbPkgAdd_gone stat]
    simp only [storedId, stored, storedFiles, storedOpen, stat, kept, not_false_eq_true, and_true, if_false]
  | ok mtime =>
    rw [dbPkgAdd_during tables plain short stat (removed_columns ..) (removedFiles_columns ..)]
    have found : env.add.stat.isOk = true := by rw [stat]; rfl
    have whole : Undone path env p ↔ OpenAfter env.remove ∧ Cancels env.add (removed path env.remove p) :=
      and_iff_right found
    simp only [decide_eq_true_iff, storedId, stored, storedFiles, storedOpen, stat, ← whole]
    by_cases undone : Undone path env p
    · simp only [undone, if_true, not_true_eq_false, and_false, decide_false]
    · simp only [undone, if_false, not_false_eq_true, and_true]

end Import

end FsPkg.Pkg
