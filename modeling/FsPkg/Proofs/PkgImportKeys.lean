import FsPkg.Machine.Run
import FsPkg.Proofs.DbSqliteInitialize
import FsPkg.Proofs.PkgImportTruth

/-! # Keys and references between the tables

Imports and forgets in any order from a fresh database, every statement succeeding, with the files
of a package inserted under the key its import obtained. The invariant is about the tables as
statements see them: one row per path, distinct keys that the counter bounds, and every file but the
root in a package that exists. The last part rests on the key that `db_pkg_add` reports, and that
key is a number of 32 bits while the table counts to `2 ^ 63`.
-/

namespace FsPkg.Pkg

open Db Sql Machine

/-- A file of a package: its columns besides the package, with their values. -/
abbrev FileRow := List (Name × Value)

/-- One `INSERT INTO files` with the key of the package; it is not made where it could not be carried out. -/
def insertFile (pkgid : UInt32) (c : Conn) (row : FileRow) : Conn :=
  match c.exec (.insert "files".toList ("package".toList :: row.map Prod.fst)
      (.int pkgid.toNat :: row.map Prod.snd)) with
  | none => c
  | some (c, _) => c

/-- The loop over the archived files with its insertion: files are inserted if there is a key. -/
def insertFiles (stat : Except Int32 Int64) (rows : List FileRow) : FilesLoop := fun pkgid c =>
  match stat with
  | .error _ => c
  | .ok _ => rows.foldl (insertFile pkgid) c

/-- One call, with what it meets. -/
inductive KeyEvent where
  | pkgImport (path : Text) (toc : TocEnv) (stat : Except Int32 Int64) (files : List FileRow) (cache : State)
  | pkgForget (path : Text)

/-- A call on a path without quotes that returns. -/
inductive KeyStep (variant : TocVariant) : Conn → KeyEvent → Conn → Prop
  | pkgImport {c c' : Conn} {path : Text} {toc : TocEnv} {stat : Except Int32 Int64} {files : List FileRow}
      {cache : State} {code : Int32} (plain : '\'' ∉ path) (short : path.length < pathMax)
      (ran : pkgImport variant path { toc, add := { stat } } (insertFiles stat files) cache c = some (code, c')) :
      KeyStep variant c (.pkgImport path toc stat files cache) c'
  | pkgForget {c : Conn} {path : Text} (plain : '\'' ∉ path) (short : path.length < pathMax) :
      KeyStep variant c (.pkgForget path) (pkgForget path {} c).2

/-! ## Rows of the tables -/

section Rows

variable {p f : Table} {path : Text}

/-- The counter bounds every key, so it is the last key. -/
theorem lastKey_eq_seq (keys : ∀ row ∈ p.rows, ∃ n : ℕ, row "id".toList = .int n ∧ n ≤ p.seq) :
    p.lastKey "id".toList = p.seq := by
  have bounded (rows : List Row) (keys : ∀ row ∈ rows, ∃ n : ℕ, row "id".toList = .int n ∧ n ≤ p.seq) :
      rows.foldr (fun row last => max (Table.keyOf "id".toList row) last) p.seq = p.seq := by
    induction rows with
    | nil => rfl
    | cons row rest ih =>
      obtain ⟨n, key, bound⟩ := keys row List.mem_cons_self
      rw [List.foldr_cons, ih fun other member => keys other (List.mem_cons_of_mem _ member), Table.keyOf, key]
      exact max_eq_right bound
  exact bounded p.rows keys

/-- Every file but the root belongs to a package. -/
def Owned (p f : Table) : Prop :=
  ∃ rest, f.rows = rootRow :: rest ∧
    ∀ row ∈ rest, ∃ other ∈ p.rows, row "package".toList = other "id".toList

/-- The invariant of the two tables. -/
structure Keyed (p f : Table) : Prop where
  paths : (p.rows.map fun row => row "path".toList).Nodup
  ids : (p.rows.map fun row => row "id".toList).Nodup
  keys : ∀ row ∈ p.rows, ∃ n : ℕ, row "id".toList = .int n ∧ n ≤ p.seq
  files : p.seq < 2 ^ 32 → Owned p f

theorem keyed_initial : Keyed initialPackages initialFiles :=
  ⟨List.nodup_nil, List.nodup_nil, by simp [initialPackages], fun _ => ⟨[], rfl, by simp⟩⟩

theorem mem_dropPackages {row : Row} :
    row ∈ (dropPackages path p).rows ↔ row ∈ p.rows ∧ row "path".toList ≠ .text path := by
  simp [dropPackages, hasPath]

/-- Removing a package removes its files and no others. -/
theorem Keyed.drop (keyed : Keyed p f) (path : Text) : Keyed (dropPackages path p) (dropFiles path p f) where
  paths := keyed.paths.sublist (List.filter_sublist.map _)
  ids := keyed.ids.sublist (List.filter_sublist.map _)
  keys row member := keyed.keys row (mem_dropPackages.mp member).1
  files bound := by
    obtain ⟨rest, split, owned⟩ := keyed.files bound
    have root : ownedBy p.rows path rootRow = false := by
      rw [Bool.eq_false_iff]
      intro owner
      obtain ⟨other, member, -, same⟩ := ownedBy_iff.mp owner
      obtain ⟨n, key, -⟩ := keyed.keys other member
      rw [rootRow_package, key] at same
      simp [Value.compare] at same
    refine ⟨rest.filter fun row => !ownedBy p.rows path row, ?_, ?_⟩
    · rw [dropFiles, split, List.filter_cons_of_pos (by rw [root]; rfl)]
    · intro row member
      obtain ⟨present, kept⟩ := List.mem_filter.mp member
      obtain ⟨other, found, same⟩ := owned row present
      refine ⟨other, mem_dropPackages.mpr ⟨found, ?_⟩, same⟩
      -- otherwise the file would have gone with its package
      intro named
      obtain ⟨n, key, -⟩ := keyed.keys other found
      have owner : ownedBy p.rows path row = true :=
        ownedBy_iff.mpr ⟨other, found, named, by rw [same, key]; simp [Value.compare]⟩
      rw [owner] at kept
      contradiction

/-- A new package with its files, under a key that fits in 32 bits or else makes no promise. -/
theorem Keyed.add (keyed : Keyed p f) (columns : p.columns = packagesColumns)
    (absent : ∀ row ∈ p.rows, row "path".toList ≠ .text path) (version : UInt64) {f' : Table} {new : List Row}
    (rows : f'.rows = f.rows ++ new)
    (package : ∀ row ∈ new, row "package".toList = .int ((p.seq + 1) % 2 ^ 32 : ℕ)) :
    Keyed (addPackage path version p) f' := by
  have last := lastKey_eq_seq keyed.keys
  have id : packageRow p path version "id".toList = .int (p.seq + 1 : ℕ) := by
    rw [packageRow_id, last]
  refine ⟨?_, ?_, ?_, ?_⟩
  · simp only [addPackage, List.map_append, List.map_singleton, packageRow_path columns]
    refine List.nodup_append.mpr ⟨keyed.paths, by simp, ?_⟩
    intro value member other single same
    obtain ⟨row, present, rfl⟩ := List.mem_map.mp member
    exact absent row present (same.trans (List.mem_singleton.mp single))
  · simp only [addPackage, List.map_append, List.map_singleton, id]
    refine List.nodup_append.mpr ⟨keyed.ids, by simp, ?_⟩
    intro value member other single same
    obtain ⟨row, present, rfl⟩ := List.mem_map.mp member
    obtain ⟨n, key, bound⟩ := keyed.keys row present
    rw [List.mem_singleton.mp single, key] at same
    have equal := Value.int.inj same
    omega
  · intro row member
    simp only [addPackage, last]
    rcases List.mem_append.mp member with old | new
    · obtain ⟨n, key, bound⟩ := keyed.keys row old
      exact ⟨n, key, by omega⟩
    · rw [List.mem_singleton.mp new]
      exact ⟨_, id, le_rfl⟩
  · intro bound
    simp only [addPackage, last] at bound
    obtain ⟨rest, split, owned⟩ := keyed.files (by omega)
    refine ⟨rest ++ new, by rw [rows, split]; rfl, ?_⟩
    intro row member
    rcases List.mem_append.mp member with old | fresh
    · obtain ⟨other, found, same⟩ := owned row old
      exact ⟨other, List.mem_append_left _ found, same⟩
    · refine ⟨_, List.mem_append_right _ (List.mem_singleton.mpr rfl), ?_⟩
      rw [package row fresh, id, Nat.mod_eq_of_lt bound]

end Rows

/-! ## The key an import obtains -/

section Key

variable {c : Conn} {p f : Table} {path : Text}

theorem hasVersion_packageRow (columns : p.columns = packagesColumns) (version : UInt64) :
    hasVersion version (packageRow p path version) = true := by
  rw [hasVersion, packageRow_version columns, decide_eq_true_iff]
  unfold numeral
  split <;> simp [Value.compare]

theorem filter_addPackage (columns : p.columns = packagesColumns)
    (absent : ∀ row ∈ p.rows, row "path".toList ≠ .text path) (version : UInt64) :
    (addPackage path version p).rows.filter (hasPath path) = [packageRow p path version] := by
  have others : p.rows.filter (hasPath path) = [] := by
    rw [List.filter_eq_nil_iff]
    intro row member named
    exact absent row member (of_decide_eq_true named)
  have named : hasPath path (packageRow p path version) = true :=
    decide_eq_true (packageRow_path columns version)
  rw [addPackage, List.filter_append, others, List.nil_append, List.filter_cons_of_pos named, List.filter_nil]

/-- The lookup finds the row just inserted, and returns the low 32 bits of its key. -/
theorem queryInt_addPackage (columns : p.columns = packagesColumns)
    (absent : ∀ row ∈ p.rows, row "path".toList ≠ .text path) (version : UInt64) :
    queryInt (((addPackage path version p).rows.filter fun row =>
      hasPath path row && hasVersion version row).map fun row => [row "id".toList]) =
        Int32.ofInt (p.lastKey "id".toList + 1 : ℕ) := by
  have found : (addPackage path version p).rows.filter (fun row => hasPath path row && hasVersion version row) =
      [packageRow p path version] := by
    simp only [Bool.and_comm (hasPath path _)]
    rw [← List.filter_filter, filter_addPackage columns absent,
      List.filter_cons_of_pos (hasVersion_packageRow columns version), List.filter_nil]
  rw [found, List.map_singleton, packageRow_id]
  exact Int64.toInt32_ofInt

theorem toNat_ofInt (n : ℕ) : (Int32.ofInt n).toUInt32.toNat = n % 2 ^ 32 := by
  rw [Int32.ofInt_eq_ofNat, Int32.toUInt32_ofNat', UInt32.toNat_ofNat']

end Key

/-! ## The files of a package -/

section Files

variable {c : Conn} {p f : Table}

/-- One file, inserted or not. -/
theorem insertFile_spec (tables : Tables c.view p f) (pkgid : UInt32) (row : FileRow) :
    ∃ f' new, insertFile pkgid c row = c.setView (write c.view p f') ∧ f'.columns = f.columns ∧
      f'.rows = f.rows ++ new ∧ ∀ r ∈ new, r "package".toList = .int pkgid.toNat := by
  cases ran : f.insert ("package".toList :: row.map Prod.fst) (.int pkgid.toNat :: row.map Prod.snd) with
  | none =>
    refine ⟨f, [], ?_, rfl, by simp, by simp⟩
    rw [tables.write_self, setView_self]
    simp only [insertFile, Conn.exec, Sql.exec, tables.files, bind, Option.bind_some, ran, Option.bind_none,
      Option.map_none]
  | some f' =>
    have affinity : f.affinity "package".toList = some .integer := by
      rw [Table.affinity, Table.column, tables.filesColumns]
      rfl
    have key : f.key = some "inode".toList := by
      rw [Table.key, tables.filesColumns]
      rfl
    have changed : insertFile pkgid c row = c.setView (write c.view p f') := by
      rw [← tables.update_files]
      simp only [insertFile, Conn.exec, Sql.exec, tables.files, bind, Option.bind_some, ran, Option.map_some]
    simp only [Table.insert, key, bind, Option.bind_some] at ran
    split at ran
    · cases ran
      refine ⟨_, _, changed, rfl, rfl, ?_⟩
      intro r member
      rw [List.mem_singleton.mp member]
      have other : "package".toList ≠ "inode".toList := by decide
      simp only [Table.newRow, if_neg other, affinity, Table.given, List.zip_cons_cons,
        List.lookup_cons_self]
      rfl
    · contradiction

/-- All of them. -/
theorem foldl_insertFile_spec (tables : Tables c.view p f) (pkgid : UInt32) (rows : List FileRow) :
    ∃ f' new, rows.foldl (insertFile pkgid) c = c.setView (write c.view p f') ∧ f'.columns = f.columns ∧
      f'.rows = f.rows ++ new ∧ ∀ r ∈ new, r "package".toList = .int pkgid.toNat := by
  induction rows generalizing c f with
  | nil =>
    refine ⟨f, [], ?_, rfl, by simp, by simp⟩
    rw [tables.write_self, setView_self]
    rfl
  | cons row rest ih =>
    obtain ⟨f', new, first, columns, grown, package⟩ := insertFile_spec tables pkgid row
    have middle : Tables (insertFile pkgid c row).view p f' := by
      rw [first, view_setView]
      exact tables.write rfl columns
    obtain ⟨f'', more, others, columns', grown', package'⟩ := ih middle
    refine ⟨f'', new ++ more, ?_, columns'.trans columns, ?_, ?_⟩
    · rw [List.foldl_cons, others, first, setView_setView, view_setView, write_write]
    · rw [grown', grown, List.append_assoc]
    · intro r member
      rcases List.mem_append.mp member with old | later
      · exact package r old
      · exact package' r later

end Files

/-! ## What one call does to the tables -/

/-- Nothing; a package removed with its files; a package replaced; or, as no key is left for the new row, a
transaction that SQLite ended, and files that were inserted after that. -/
inductive Change (p f : Table) : Table → Table → Prop
  | kept : Change p f p f
  | dropped {path : Text} : Change p f (dropPackages path p) (dropFiles path p f)
  | added {path : Text} {version : UInt64} {f' : Table} {new : List Row}
      (rows : f'.rows = (dropFiles path p f).rows ++ new)
      (package : ∀ r ∈ new, r "package".toList =
        .int (((dropPackages path p).lastKey "id".toList + 1) % 2 ^ 32 : ℕ)) :
      Change p f (addPackage path version (dropPackages path p)) f'
  | full {path : Text} {f' : Table} (full : ¬ hasRoom (dropPackages path p)) : Change p f p f'

/-- The invariant survives, and the counter never goes back. -/
theorem Change.keyed {p f p' f' : Table} (change : Change p f p' f') (keyed : Keyed p f)
    (columns : p.columns = packagesColumns) : Keyed p' f' ∧ p.seq ≤ p'.seq := by
  cases change with
  | kept => exact ⟨keyed, le_rfl⟩
  | dropped => exact ⟨keyed.drop _, le_rfl⟩
  | @added path version _ new rows package =>
    have last := lastKey_eq_seq (keyed.drop path).keys
    rw [last] at package
    refine ⟨(keyed.drop path).add columns (fun row member => (mem_dropPackages.mp member).2) version rows package, ?_⟩
    exact (Nat.le_succ p.seq).trans_eq (congrArg Nat.succ last.symm)
  | @full path _ full =>
    have seq : (dropPackages path p).seq = p.seq := rfl
    rw [hasRoom, lastKey_eq_seq (keyed.drop path).keys, seq] at full
    exact ⟨⟨keyed.paths, keyed.ids, keyed.keys, fun bound => absurd bound (by omega)⟩, le_rfl⟩

/-- A transaction is open exactly while the mutex is held. -/
def Proper (c : Conn) : Prop :=
  c.mutex = c.txn.isSome

theorem Proper.setView {c : Conn} (proper : Proper c) (db : Database) : Proper (c.setView db) := by
  obtain ⟨committed, txn, mutex, calls⟩ := c
  cases txn <;> exact proper

theorem Proper.closed {c : Conn} (proper : Proper c) (free : c.mutex = false) : Closed c :=
  ⟨free, Option.isSome_eq_false_iff.mp (proper.symm.trans free) |> Option.isNone_iff_eq_none.mp⟩

section Step

variable {variant : TocVariant} {c c' : Conn} {p f : Table} {path : Text}

/-- The tables `pkg_toc_process` stores. -/
theorem tocStore_change (tables : Tables c.committed p f) (plain : '\'' ∉ path) (short : path.length < pathMax)
    (toc : TocEnv) (stat : Except Int32 Int64) (files : List FileRow) :
    ∃ opened p' f', tocStore path { toc, add := { stat } } (insertFiles stat files) c.begun = c.during opened p' f' ∧
      p'.columns = p.columns ∧ f'.columns = f.columns ∧ Change p f p' f' := by
  let env : ImportEnv := { toc, add := { stat } }
  have sees : Tables (c.during (storedOpen path env p) (stored path env p) (storedFiles path env p f)).view
      (stored path env p) (storedFiles path env p f) := by
    rw [view_during]
    exact tables.write (stored_columns p) (storedFiles_columns p f)
  have removedAll : removed path env.remove p = dropPackages path p := rfl
  have removedTheirs : removedFiles path env.remove p f = dropFiles path p f := rfl
  rw [tocStore_spec tables plain short]
  cases stat with
  | error errno =>
    exact ⟨_, _, _, rfl, stored_columns p, storedFiles_columns p f, .dropped⟩
  | ok mtime =>
    obtain ⟨f', new, ran, columns, rows, package⟩ :=
      foldl_insertFile_spec sees (storedId path env p).toUInt32 files
    rw [view_during, write_write, setView_during] at ran
    refine ⟨storedOpen path env p, stored path env p, f', ran, stored_columns p,
      columns.trans (storedFiles_columns p f), ?_⟩
    by_cases room : hasRoom (dropPackages path p)
    · have kept : ¬ Undone path env p := fun undone => (undone_iff.mp undone).2 room
      have table : stored path env p = addPackage path mtime.toUInt64 (dropPackages path p) := stored_of_room room
      have key : storedId path env p = Int32.ofInt ((dropPackages path p).lastKey "id".toList + 1 : ℕ) := by
        rw [← queryInt_addPackage (p := dropPackages path p) tables.packagesColumns
          (fun row member => (mem_dropPackages.mp member).2) mtime.toUInt64, ← table]
        rfl
      rw [key, toNat_ofInt] at package
      rw [storedFiles, if_neg kept, removedTheirs] at rows
      rw [table]
      exact .added rows package
    · rw [stored, if_pos (undone_iff.mpr ⟨rfl, room⟩)]
      exact .full room

/-- The inversion of a step. -/
theorem KeyStep.change {event : KeyEvent} (step : KeyStep variant c event c') (proper : Proper c)
    (tables : Tables c.view p f) :
    Proper c' ∧ ∃ p' f', Tables c'.view p' f' ∧ Change p f p' f' := by
  cases step with
  | @pkgForget path plain short =>
    rw [Pkg.pkgForget, dbPkgRemove_spec tables plain short]
    refine ⟨proper.setView _, dropPackages path p, dropFiles path p f, ?_, .dropped⟩
    rw [view_setView]
    exact tables.write rfl rfl
  | @pkgImport _ path toc stat files cache code plain short ran =>
    cases found : pkgHandleByname cache path cache.pkgList.nodes with
    | none => simp only [Pkg.pkgImport, bind, found, Option.bind_none, reduceCtorEq] at ran
    | some cached =>
      cases cached with
      | some pkg =>
        rw [pkgImport_cached found] at ran
        cases ran
        exact ⟨proper, p, f, tables, .kept⟩
      | none =>
        cases free : c.mutex with
        | true =>
          rw [pkgImport_blocks found free] at ran
          contradiction
        | false =>
          have closed := proper.closed free
          by_cases abandoned : toc.Abandoned variant
          · rw [pkgImport_abandoned found closed abandoned] at ran
            cases ran
            rw [closed.view] at tables
            exact ⟨rfl, p, f, tables, .kept⟩
          · cases accepted : toc.accepted variant with
            | false =>
              rw [pkgImport_rejected found closed abandoned accepted] at ran
              cases ran
              exact ⟨proper, p, f, tables, .kept⟩
            | true =>
              rw [closed.view] at tables
              obtain ⟨opened, p', f', stored, columns, columns', change⟩ :=
                tocStore_change tables plain short toc stat files
              rw [pkgImport_accepted found closed abandoned accepted, stored, dbCommit_spec, view_during] at ran
              cases ran
              exact ⟨rfl, p', f', tables.write columns columns', change⟩

end Step

/-! ## Runs -/

/-- The connection between calls: the tables are there and keep their invariant. -/
structure Sane (c : Conn) (p f : Table) : Prop where
  proper : Proper c
  tables : Tables c.view p f
  keyed : Keyed p f

theorem KeyStep.sane {variant : TocVariant} {event : KeyEvent} {c c' : Conn} {p f : Table}
    (step : KeyStep variant c event c') (sane : Sane c p f) : ∃ p' f', Sane c' p' f' ∧ p.seq ≤ p'.seq := by
  obtain ⟨proper, p', f', tables, change⟩ := step.change sane.proper sane.tables
  obtain ⟨keyed, grown⟩ := change.keyed sane.keyed sane.tables.packagesColumns
  exact ⟨p', f', ⟨proper, tables, keyed⟩, grown⟩

theorem Run.sane {variant : TocVariant} {events : List KeyEvent} {c c' : Conn} {p f : Table}
    (run : Run (KeyStep variant) c events c') (sane : Sane c p f) : ∃ p' f', Sane c' p' f' ∧ p.seq ≤ p'.seq := by
  apply run.invariant (I := fun s => ∃ p' f', Sane s p' f' ∧ p.seq ≤ p'.seq) ⟨p, f, sane, le_rfl⟩
  rintro source event target ⟨p', f', before, grown⟩ step
  obtain ⟨p'', f'', after, more⟩ := step.sane before
  exact ⟨p'', f'', after, grown.trans more⟩

theorem sane_initial {c start : Conn} (closed : Closed c) (initialized : dbSqliteInitialize c = some start) :
    Sane start initialPackages initialFiles := by
  obtain ⟨c', ran, closed', tables⟩ := dbSqliteInitialize_spec closed
  rw [ran] at initialized
  cases initialized
  refine ⟨closed'.mutex.trans (by rw [closed'.txn]; rfl), ?_, keyed_initial⟩
  rw [closed'.view]
  exact tables

/-- `db_pkg_add` as an import calls it, in a transaction and after `db_pkg_remove`: the key it
returns and the connection. -/
def AddsInImport (path : Text) (mtime : Int64) (c : Conn) (pkgid : Int32) (c' : Conn) : Prop :=
  ∃ begun, dbBegin c = some begun ∧
    dbPkgAdd path { stat := .ok mtime } (dbPkgRemove path {} begun) = (pkgid, c')

/-- The row that an import adds. -/
theorem Sane.adds {c c' : Conn} {p f : Table} (sane : Sane c p f) {path : Text} (plain : '\'' ∉ path)
    (short : path.length < pathMax) {mtime : Int64} {pkgid : Int32} (adds : AddsInImport path mtime c pkgid c')
    (room : p.seq + 1 < 2 ^ 63) : ∃ p' f' row, Tables c'.view p' f' ∧
      p'.rows.filter (hasPath path) = [row] ∧ row "id".toList = .int (p.seq + 1 : ℕ) ∧
      pkgid.toUInt32.toNat = (p.seq + 1) % 2 ^ 32 := by
  obtain ⟨begun, opens, added⟩ := adds
  have free : c.mutex = false := by
    rw [Bool.eq_false_iff]
    intro held
    rw [dbBegin_blocks held] at opens
    contradiction
  have closed := sane.proper.closed free
  rw [dbBegin_spec closed] at opens
  cases opens
  have tables : Tables c.begun.view p f := by
    rw [view_begun, ← closed.view]
    exact sane.tables
  have middle : Tables (c.begun.setView (write c.begun.view (dropPackages path p) (dropFiles path p f))).view
      (dropPackages path p) (dropFiles path p f) := by
    rw [view_setView]
    exact tables.write rfl rfl
  have last : (dropPackages path p).lastKey "id".toList = p.seq := lastKey_eq_seq (sane.keyed.drop path).keys
  have room : hasRoom (dropPackages path p) := by
    rw [hasRoom, last]
    exact room
  have absent : ∀ row ∈ (dropPackages path p).rows, row "path".toList ≠ .text path :=
    fun row member => (mem_dropPackages.mp member).2
  have columns : (dropPackages path p).columns = packagesColumns := sane.tables.packagesColumns
  rw [dbPkgRemove_spec tables plain short, dbPkgAdd_spec middle plain short room] at added
  cases added
  refine ⟨addPackage path mtime.toUInt64 (dropPackages path p), dropFiles path p f, _, ?_,
    filter_addPackage columns absent _, ?_, ?_⟩
  · rw [view_setView]
    exact middle.write rfl rfl
  · rw [packageRow_id, last]
  · rw [queryInt_addPackage columns absent, toNat_ofInt, last]

/-- From a fresh database, at any later time: paths and keys are distinct; a key an import adds was
not in use at any time before; and while the counter fits in 32 bits every file but the root has its
package and an import obtains the key of the only row of its path. -/
theorem database_keys {variant : TocVariant} {c start earlier now : Conn} {past rest : List KeyEvent}
    (closed : Closed c) (initialized : dbSqliteInitialize c = some start)
    (before : Run (KeyStep variant) start past earlier) (after : Run (KeyStep variant) earlier rest now) :
    ∃ old oldFiles p f, Tables earlier.view old oldFiles ∧ Tables now.view p f ∧
      (p.rows.map fun row => row "path".toList).Nodup ∧ (p.rows.map fun row => row "id".toList).Nodup ∧
      (p.seq < 2 ^ 32 → Owned p f) ∧
      ∀ path mtime pkgid c', '\'' ∉ path → path.length < pathMax → AddsInImport path mtime now pkgid c' →
        p.seq + 1 < 2 ^ 63 → ∃ p' f' row, Tables c'.view p' f' ∧ p'.rows.filter (hasPath path) = [row] ∧
          (∀ other ∈ old.rows, other "id".toList ≠ row "id".toList) ∧
          (p.seq + 1 < 2 ^ 32 → row "id".toList = .int pkgid.toUInt32.toNat) := by
  obtain ⟨old, oldFiles, sane, -⟩ := Run.sane before (sane_initial closed initialized)
  obtain ⟨p, f, saneNow, grown⟩ := Run.sane after sane
  refine ⟨old, oldFiles, p, f, sane.tables, saneNow.tables, saneNow.keyed.paths, saneNow.keyed.ids,
    saneNow.keyed.files, ?_⟩
  intro path mtime pkgid c' plain short adds room
  obtain ⟨p', f', row, tables, only, id, reported⟩ := saneNow.adds plain short adds room
  refine ⟨p', f', row, tables, only, ?_, ?_⟩
  · intro other member same
    obtain ⟨n, key, bound⟩ := sane.keyed.keys other member
    rw [key, id] at same
    have equal := Value.int.inj same
    omega
  · intro bound
    rw [id, reported, Nat.mod_eq_of_lt bound]

/-! ## One package, again and again -/

/-- A connection to a database without tables. -/
def emptyConn : Conn := { committed := fun _ => none }

/-- The same file, touched and imported. -/
def touched : KeyEvent := .pkgImport ['/', 'a'] {} (.ok 7) [] smallCache

/-- Each import takes the next key. -/
theorem touched_step {c : Conn} {p f : Table} (sane : Sane c p f) (closed : Closed c)
    (room : p.seq + 1 < 2 ^ 63) :
    ∃ c' p' f', KeyStep .libxar c touched c' ∧ Closed c' ∧ Sane c' p' f' ∧ p'.seq = p.seq + 1 := by
  let env : ImportEnv := { add := { stat := .ok 7 } }
  have seen : Tables c.committed p f := by
    rw [← closed.view]
    exact sane.tables
  let c' : Conn := ⟨write c.committed (stored ['/', 'a'] env p) (storedFiles ['/', 'a'] env p f), none, false,
    c.calls ++ [.begin] ++ [.commit]⟩
  have ran : pkgImport .libxar ['/', 'a'] env (insertFiles (.ok 7) []) smallCache c = _ :=
    pkgImport_accepted (smallCache_uncached ['/', 'a']) closed (by decide) rfl
  rw [tocStore_spec seen (by decide) (by decide), insertFiles, List.foldl_nil, dbCommit_spec, view_during,
    calls_during] at ran
  have closed' : Closed c' := ⟨rfl, rfl⟩
  have step : KeyStep .libxar c touched c' := .pkgImport (by decide) (by decide) ran
  obtain ⟨p', f', sane', -⟩ := step.sane sane
  refine ⟨c', p', f', step, closed', sane', ?_⟩
  have table : p' = stored ['/', 'a'] env p := by
    have found := sane'.tables.packages
    have there : c'.committed "packages".toList = some (stored ['/', 'a'] env p) := by
      rw [show c'.committed = write c.committed (stored ['/', 'a'] env p) (storedFiles ['/', 'a'] env p f) from rfl,
        write_packages]
    rw [closed'.view] at found
    exact Option.some.inj (found.symm.trans there)
  have last : (dropPackages ['/', 'a'] p).lastKey "id".toList = p.seq :=
    lastKey_eq_seq (sane.keyed.drop _).keys
  have fits : hasRoom (dropPackages ['/', 'a'] p) := by
    rw [hasRoom, last]
    exact room
  have replaced : stored ['/', 'a'] env p = addPackage ['/', 'a'] (Int64.toUInt64 7) (dropPackages ['/', 'a'] p) :=
    stored_of_room fits
  rw [table, replaced, addPackage, last]

theorem touched_run {start : Conn} (initialized : dbSqliteInitialize emptyConn = some start) (n : ℕ)
    (bound : n < 2 ^ 63) : ∃ now p f, Run (KeyStep .libxar) start (List.replicate n touched) now ∧
      Closed now ∧ Sane now p f ∧ p.seq = n := by
  induction n with
  | zero =>
    have sane := sane_initial ⟨rfl, rfl⟩ initialized
    obtain ⟨c', ran, closed, -⟩ := dbSqliteInitialize_spec (c := emptyConn) ⟨rfl, rfl⟩
    rw [ran] at initialized
    cases initialized
    exact ⟨_, _, _, .start, closed, sane, rfl⟩
  | succ n ih =>
    obtain ⟨now, p, f, run, closed, sane, count⟩ := ih (by omega)
    obtain ⟨c', p', f', step, closed', sane', next⟩ := touched_step sane closed (by omega)
    refine ⟨c', p', f', ?_, closed', sane', by rw [next, count]⟩
    rw [List.replicate_succ']
    exact run.snoc step

/-- Three imports, then a fourth in progress. -/
theorem database_keys_three : ∃ start now p f, dbSqliteInitialize emptyConn = some start ∧
    Run (KeyStep .libxar) start (List.replicate 3 touched) now ∧ Tables now.view p f ∧
    (p.rows.map fun row => row "path".toList).Nodup ∧ Owned p f := by
  obtain ⟨start, initialized, -⟩ := dbSqliteInitialize_spec (c := emptyConn) ⟨rfl, rfl⟩
  obtain ⟨now, p, f, run, -, sane, count⟩ := touched_run initialized 3 (by decide)
  obtain ⟨-, -, q, g, -, tables, paths, -, owned, -⟩ := database_keys ⟨rfl, rfl⟩ initialized run .start
  have same : p = q := Option.some.inj (sane.tables.packages.symm.trans tables.packages)
  refine ⟨start, now, q, g, initialized, run, tables, paths, owned ?_⟩
  rw [← same, count]
  decide

/-- After `2 ^ 32 - 1` imports the next one adds a row with the key `2 ^ 32` and obtains the key 0. -/
theorem import_key_wraps : ∃ start events now c' p f row, dbSqliteInitialize emptyConn = some start ∧
    Run (KeyStep .libxar) start events now ∧ AddsInImport ['/', 'a'] 7 now 0 c' ∧ Tables c'.view p f ∧
    p.rows.filter (hasPath ['/', 'a']) = [row] ∧ row "id".toList = .int (2 ^ 32 : ℕ) := by
  obtain ⟨start, initialized, -⟩ := dbSqliteInitialize_spec (c := emptyConn) ⟨rfl, rfl⟩
  obtain ⟨now, p, f, run, closed, sane, count⟩ := touched_run initialized (2 ^ 32 - 1) (by decide)
  obtain ⟨⟨pkgid, c'⟩, added⟩ :
      ∃ result, dbPkgAdd ['/', 'a'] { stat := .ok 7 } (dbPkgRemove ['/', 'a'] {} now.begun) = result := ⟨_, rfl⟩
  have adds : AddsInImport ['/', 'a'] 7 now pkgid c' := ⟨_, dbBegin_spec closed, added⟩
  obtain ⟨p', f', row, tables, only, id, reported⟩ := sane.adds (by decide) (by decide) adds (by omega)
  rw [count] at id reported
  have zero : pkgid.toUInt32 = 0 := UInt32.toNat_inj.mp reported
  rw [← Int32.toInt32_toUInt32 pkgid, zero] at adds
  exact ⟨start, _, now, c', p', f', row, initialized, run, adds, tables, only, id⟩

end FsPkg.Pkg
