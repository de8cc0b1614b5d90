import FsPkg.Proofs.PkgCacheRuns
import FsPkg.Proofs.PkgImportSpec

/-! # All or nothing, and telling which

An import should either succeed and leave one row with the file's time, or fail and leave both
tables alone. It returns success after a rollback, its own or one by SQLite, and it ignores every failing
statement and a failing `stat` between its `DELETE` and its `INSERT`, so this holds only in the cases that
`Truthful` lists.
-/

namespace FsPkg.Pkg

open Db Sql

/-- Success with exactly one row of the path, carrying the file's time, and the other packages as
before; or failure with both tables as before. -/
def AllOrNothing (path : Text) (env : ImportEnv) (p f : Table) (code : Int32) (db : Database) : Prop :=
  (code = exitSuccess ∧ ∃ mtime p', env.add.stat = .ok mtime ∧ db "packages".toList = some p' ∧
    (∃ row, p'.rows.filter (hasPath path) = [row] ∧ row "version".toList = .int mtime.toInt) ∧
    p'.rows.filter (fun row => !hasPath path row) = p.rows.filter (fun row => !hasPath path row)) ∨
  (code ≠ exitSuccess ∧ db "packages".toList = some p ∧ db "files".toList = some f)

/-- The old rows of the path that an import leaves: all of them, unless the TOC is accepted, the
`DELETE` is carried out, and no later statement takes it back. -/
def survivors (variant : TocVariant) (path : Text) (env : ImportEnv) (p : Table) : List Row :=
  if env.toc.accepted variant = true ∧ env.remove.packages = .done ∧ ¬ Undone path env p then []
  else p.rows.filter (hasPath path)

/-- A new row is committed. -/
def Adds (variant : TocVariant) (path : Text) (env : ImportEnv) (p : Table) : Prop :=
  env.toc.accepted variant = true ∧ env.add.stat.isOk = true ∧ Inserts env.add (removed path env.remove p) ∧
    ¬ Undone path env p

instance (variant : TocVariant) (path : Text) (env : ImportEnv) (p : Table) : Decidable (Adds variant path env p) :=
  inferInstanceAs (Decidable (_ ∧ _ ∧ _ ∧ _))

/-- The TOC cannot be extracted (where that is tried); or the file is there and either a row with a
time since the epoch is added where no old one survives, or nothing is added and the one old row that
survives already carries the time. -/
def Truthful (variant : TocVariant) (path : Text) (env : ImportEnv) (p : Table) : Prop :=
  env.toc.Abandoned variant ∨ ∃ mtime, env.add.stat = .ok mtime ∧
    ((Adds variant path env p ∧ survivors variant path env p = [] ∧ 0 ≤ mtime) ∨
      (¬ Adds variant path env p ∧
        ∃ row, survivors variant path env p = [row] ∧ row "version".toList = .int mtime.toInt))

/-- A time is printed as an unsigned number: read back, it is the time if that is not negative. -/
theorem numeral_mtime (mtime : Int64) : numeral mtime.toUInt64.toNat = .int mtime.toInt ↔ 0 ≤ mtime := by
  have bound := mtime.toUInt64.toNat_lt
  constructor
  · intro same
    unfold numeral at same
    split at same
    · rw [Int64.le_iff_toInt_le]
      have value := Value.int.inj same
      exact value ▸ Int.natCast_nonneg _
    · contradiction
  · intro nonneg
    have value : (mtime.toUInt64.toNat : ℤ) = mtime.toInt := by
      rw [Int64.toNat_toUInt64_of_le nonneg, Int64.toNatClampNeg]
      exact Int.toNat_of_nonneg (Int64.le_iff_toInt_le.mp nonneg)
    have high := Int64.toInt_lt mtime
    rw [numeral, if_pos (by omega), value]

section Rows

variable {variant : TocVariant} {path : Text} {env : ImportEnv} {p : Table}

private theorem filter_removed :
    (removed path env.remove p).rows.filter (hasPath path) =
      if env.remove.packages = .done then [] else p.rows.filter (hasPath path) := by
  unfold removed
  split
  · simp [dropPackages, List.filter_filter]
  · rfl

private theorem filter_not_removed :
    (removed path env.remove p).rows.filter (fun row => !hasPath path row) =
      p.rows.filter (fun row => !hasPath path row) := by
  unfold removed
  split
  · simp [dropPackages, List.filter_filter]
  · rfl

/-- The packages table an import commits, rows of the path and the others. -/
def committedTable (variant : TocVariant) (path : Text) (env : ImportEnv) (p : Table) : Table :=
  if env.toc.accepted variant then stored path env p else p

/-- Without a new row the old ones are left. -/
theorem filter_committed_of_not_adds (variant : TocVariant) (path : Text) (none_ : ¬ Adds variant path env p) :
    (committedTable variant path env p).rows.filter (hasPath path) = survivors variant path env p := by
  unfold committedTable survivors
  cases accepted : env.toc.accepted variant with
  | false => rfl
  | true =>
    by_cases undone : Undone path env p
    · simp [stored, undone]
    · have kept : stored path env p = removed path env.remove p := by
        rw [stored, if_neg undone]
        cases stat : env.add.stat with
        | error errno => rfl
        | ok mtime => exact if_neg fun inserts => none_ ⟨accepted, by rw [stat]; rfl, inserts, undone⟩
      simp only [if_true, kept, filter_removed, undone, not_false_eq_true, and_true, true_and]

theorem filter_committed (variant : TocVariant) (path : Text) (columns : p.columns = packagesColumns)
    {mtime : Int64} (stat : env.add.stat = .ok mtime) (adds : Adds variant path env p) :
    (committedTable variant path env p).rows.filter (hasPath path) =
      survivors variant path env p ++ [packageRow (removed path env.remove p) path mtime.toUInt64] := by
  have named : hasPath path (packageRow (removed path env.remove p) path mtime.toUInt64) = true :=
    decide_eq_true (packageRow_path ((removed_columns ..).trans columns) _)
  obtain ⟨accepted, -, inserts, undone⟩ := adds
  have added : stored path env p = addPackage path mtime.toUInt64 (removed path env.remove p) := by
    simp only [stored, if_neg undone, stat, if_pos inserts]
  rw [committedTable, accepted, if_pos rfl, added, addPackage, List.filter_append, filter_removed,
    List.filter_cons_of_pos named, List.filter_nil, survivors]
  simp only [accepted, undone, not_false_eq_true, and_true, true_and]

theorem filter_not_committed (columns : p.columns = packagesColumns) :
    (committedTable variant path env p).rows.filter (fun row => !hasPath path row) =
      p.rows.filter (fun row => !hasPath path row) := by
  unfold committedTable stored
  split
  · split
    · rfl
    · split
      · exact filter_not_removed
      · split
        · have named (version : UInt64) : hasPath path (packageRow (removed path env.remove p) path version) = true :=
            decide_eq_true (packageRow_path ((removed_columns ..).trans columns) _)
          rw [addPackage, List.filter_append, filter_not_removed]
          simp [named]
        · exact filter_not_removed
  · rfl

end Rows

section Import

variable {variant : TocVariant} {path : Text} {env : ImportEnv} {st : State} {c : Conn} {p f : Table}

/-- An import that gets past the extraction of the TOC commits `committedTable` and returns success. -/
theorem pkgImport_commits (variant : TocVariant) (env : ImportEnv) (tables : Tables c.committed p f)
    (closed : Closed c) (plain : '\'' ∉ path) (short : path.length < pathMax)
    (uncached : pkgHandleByname st path st.pkgList.nodes = some none) (processed : ¬ env.toc.Abandoned variant) :
    ∃ c', pkgImport variant path env noFiles st c = some (exitSuccess, c') ∧ Closed c' ∧
      c'.committed = write c.committed (committedTable variant path env p)
        (if env.toc.accepted variant then storedFiles path env p f else f) := by
  cases accepted : env.toc.accepted variant with
  | false =>
    refine ⟨_, pkgImport_rejected uncached closed processed accepted, ⟨closed.mutex, closed.txn⟩, ?_⟩
    rw [committedTable, accepted]
    exact tables.write_self.symm
  | true =>
    have ran : pkgImport variant path env noFiles st c = _ := pkgImport_accepted uncached closed processed accepted
    rw [tocStore_spec tables plain short, noFiles, dbCommit_spec, view_during] at ran
    refine ⟨_, ran, ⟨rfl, rfl⟩, ?_⟩
    rw [committedTable, accepted]
    rfl

/-- Where everything goes well the row of the package is replaced. -/
theorem pkgImport_replaces (variant : TocVariant) {mtime : Int64} (tables : Tables c.committed p f)
    (closed : Closed c) (plain : '\'' ∉ path) (short : path.length < pathMax)
    (uncached : pkgHandleByname st path st.pkgList.nodes = some none) (room : hasRoom (dropPackages path p)) :
    ∃ c', pkgImport variant path { add := { stat := .ok mtime } } noFiles st c = some (exitSuccess, c') ∧ Closed c' ∧
      c'.committed =
        write c.committed (addPackage path mtime.toUInt64 (dropPackages path p)) (dropFiles path p f) := by
  let env : ImportEnv := { add := { stat := .ok mtime } }
  have accepted : env.toc.accepted variant = true := by cases variant <;> rfl
  have kept : ¬Undone path env p := fun undone => (undone_iff.mp undone).2 room
  obtain ⟨c', ran, closed', committed⟩ := pkgImport_commits variant env tables closed plain short uncached
    fun abandoned => Bool.noConfusion abandoned.2
  have packages : committedTable variant path env p = addPackage path mtime.toUInt64 (dropPackages path p) :=
    (if_pos accepted).trans (stored_of_room room)
  have files : storedFiles path env p f = dropFiles path p f := (if_neg kept).trans (if_pos ⟨rfl, nofun⟩)
  rw [accepted, if_pos rfl, packages, files] at committed
  exact ⟨c', ran, closed', committed⟩

/-- An import of a path without quotes keeps its promise exactly in the cases of `Truthful`. -/
theorem pkg_import_truth_iff (variant : TocVariant) (env : ImportEnv) (tables : Tables c.committed p f)
    (closed : Closed c) (plain : '\'' ∉ path) (short : path.length < pathMax)
    (uncached : pkgHandleByname st path st.pkgList.nodes = some none) :
    ∃ code c', pkgImport variant path env noFiles st c = some (code, c') ∧
      (AllOrNothing path env p f code c'.committed ↔ Truthful variant path env p) := by
  by_cases abandoned : env.toc.Abandoned variant
  · refine ⟨_, _, pkgImport_abandoned uncached closed abandoned, ?_⟩
    exact iff_of_true (.inr ⟨by decide, tables.packages, tables.files⟩) (.inl abandoned)
  · obtain ⟨c', ran, -, committed⟩ := pkgImport_commits variant env tables closed plain short uncached abandoned
    refine ⟨_, c', ran, ?_⟩
    have table : c'.committed "packages".toList = some (committedTable variant path env p) := by
      rw [committed, write_packages]
    have others : (committedTable variant path env p).rows.filter (fun row => !hasPath path row) =
        p.rows.filter (fun row => !hasPath path row) := filter_not_committed tables.packagesColumns
    have newVersion (mtime : Int64) :
        packageRow (removed path env.remove p) path mtime.toUInt64 "version".toList =
          numeral mtime.toUInt64.toNat :=
      packageRow_version ((removed_columns ..).trans tables.packagesColumns) _
    constructor
    · rintro (⟨-, mtime, p', stat, found, ⟨row, only, version⟩, -⟩ | ⟨failed, -⟩)
      · rw [table] at found
        cases found
        refine .inr ⟨mtime, stat, ?_⟩
        by_cases adds : Adds variant path env p
        · rw [filter_committed variant path tables.packagesColumns stat adds] at only
          obtain ⟨old, same⟩ := List.append_eq_singleton_iff.mp only |>.resolve_right (by simp)
          rw [← List.singleton_inj.mp same, newVersion] at version
          exact .inl ⟨adds, old, (numeral_mtime mtime).mp version⟩
        · rw [filter_committed_of_not_adds variant path adds] at only
          exact .inr ⟨adds, row, only, version⟩
      · exact absurd rfl failed
    · rintro (early | ⟨mtime, stat, ⟨adds, old, nonneg⟩ | ⟨adds, row, old, version⟩⟩)
      · exact absurd early abandoned
      · have only := filter_committed variant path tables.packagesColumns stat adds
        rw [old, List.nil_append] at only
        exact .inl ⟨rfl, mtime, _, stat, table,
          ⟨_, only, (newVersion mtime).trans ((numeral_mtime mtime).mpr nonneg)⟩, others⟩
      · have only := filter_committed_of_not_adds variant path adds
        exact .inl ⟨rfl, mtime, _, stat, table, ⟨row, only.trans old, version⟩, others⟩

end Import

/-! ## A concrete database -/

/-- `/a`, imported at time 5. -/
def oldRow : Row := fun name =>
  if name = "path".toList then .text ['/', 'a']
  else if name = "version".toList then .int 5
  else .int 1

def oneRow : Table := { columns := packagesColumns, rows := [oldRow], seq := 1 }

def noRows : Table := { columns := filesColumns }

def oneConn : Conn := { committed := write (fun _ => none) oneRow noRows }

theorem oneConn_tables : Tables oneConn.committed oneRow noRows := tables_write _ rfl rfl

theorem oneConn_closed : Closed oneConn := ⟨rfl, rfl⟩

theorem smallCache_uncached (path : Text) :
    pkgHandleByname smallCache path smallCache.pkgList.nodes = some none := rfl

theorem pkg_import_truth_upgrade : ∃ code c',
    pkgImport .libxar ['/', 'a'] { add := { stat := .ok 7 } } noFiles smallCache oneConn = some (code, c') ∧
    AllOrNothing ['/', 'a'] { add := { stat := .ok 7 } } oneRow noRows code c'.committed := by
  obtain ⟨code, c', ran, iff⟩ := pkg_import_truth_iff .libxar { add := { stat := .ok 7 } }
    oneConn_tables oneConn_closed (by decide) (by decide) (smallCache_uncached ['/', 'a'])
  refine ⟨code, c', ran, iff.mpr (.inr ⟨7, rfl, .inl ⟨?_, ?_, by decide⟩⟩)⟩
  · decide +kernel
  · decide +kernel

/-- The file goes away after its TOC was read: the old row is gone, nothing replaces it, and success
is reported. -/
theorem pkg_import_loses_package : ∃ c' p', pkgImport .libxar ['/', 'a'] { add := { stat := .error 2 } }
    noFiles smallCache oneConn = some (exitSuccess, c') ∧
    c'.committed "packages".toList = some p' ∧ p'.rows.filter (hasPath ['/', 'a']) = [] ∧
    ¬ AllOrNothing ['/', 'a'] { add := { stat := .error 2 } } oneRow noRows exitSuccess c'.committed := by
  obtain ⟨c', ran, -, committed⟩ := pkgImport_commits .libxar { add := { stat := .error 2 } }
    oneConn_tables oneConn_closed (by decide) (by decide) (smallCache_uncached ['/', 'a']) (by decide)
  refine ⟨c', _, ran, by rw [committed, write_packages], ?_, ?_⟩
  · rw [filter_committed_of_not_adds _ _ fun adds => Bool.noConfusion adds.2.1]
    decide +kernel
  · rintro (⟨-, mtime, p', stat, -⟩ | ⟨failed, -⟩)
    · contradiction
    · exact failed rfl

end FsPkg.Pkg
