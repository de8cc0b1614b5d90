import FsPkg.Proofs.PkgImportTruth

/-! # Transactions of imports

Sequences of imports and forgets, for any paths, any answers of the system and any states of the
cache. An import that begins a transaction closes it with exactly one commit or rollback, except
where the TOC cannot be extracted: there it returns with the transaction open and the mutex held, and
the next import waits for ever. A path with a quote can turn a `DELETE` or an `INSERT` into something
else; whatever that does to the tables, it begins no transaction. That `COMMIT` succeeds where a
transaction is open is taken for granted: a spliced `RETURNING` clause would leave a statement
unfinished, for which SQLite refuses to commit.
-/

namespace FsPkg.Db

open Sql

variable {c : Conn}

/-- What statements other than the transaction commands do not touch. A transaction may end, but none begins. -/
structure Conn.Within (c c' : Conn) : Prop where
  mutex : c'.mutex = c.mutex
  calls : c'.calls = c.calls
  txn : c.txn = none → c'.txn = none

theorem Conn.Within.refl (c : Conn) : Conn.Within c c := ⟨rfl, rfl, id⟩

theorem Conn.Within.trans {c c' c'' : Conn} (first : Conn.Within c c') (second : Conn.Within c' c'') :
    Conn.Within c c'' :=
  ⟨second.mutex.trans first.mutex, second.calls.trans first.calls, fun closed => second.txn (first.txn closed)⟩

theorem within_setView (c : Conn) (db : Database) : Conn.Within c (c.setView db) := by
  obtain ⟨committed, txn, mutex, calls⟩ := c
  cases txn with
  | none => exact ⟨rfl, rfl, id⟩
  | some db => exact ⟨rfl, rfl, nofun⟩

theorem within_cancel (c : Conn) : Conn.Within c c.cancel := ⟨rfl, rfl, fun _ => rfl⟩

/-- A query whose text begins with another word than a transaction command, whatever is printed into it and whatever
SQLite makes of that. -/
theorem dbQuery_within {fmt : String} {before rest : List Char} {first : Name}
    (split : fmt.toList = before ++ rest) (plain : '%' ∉ before) (short : before.length < sqlBufsize)
    (reads : Lexer.run {} before = some ⟨[.word first], .blank⟩)
    (other : first ≠ "begin".toList ∧ first ≠ "commit".toList ∧ first ≠ "rollback".toList)
    (args : List Arg) (outcome : Outcome) : Conn.Within c (dbQuery fmt args outcome c).2 := by
  cases outcome with
  | failed => exact .refl c
  | cancelled => exact within_cancel c
  | foreign rows db =>
    simp only [dbQuery]
    split
    · exact .refl c
    · exact within_setView c db
  | done =>
    cases prepared : prepare (vsnprintf sqlBufsize fmt.toList args) with
    | none =>
      simp only [dbQuery, prepared]
      exact .refl c
    | some statement =>
      have data : statement.isData := by
        obtain ⟨tokens, lexed, parsed⟩ := Option.bind_eq_some_iff.mp prepared
        rw [vsnprintf, split, vformat_plain plain, List.take_append,
          List.take_of_length_le (Nat.le_sub_one_of_lt short)] at lexed
        obtain ⟨more, rfl⟩ := lex_head reads lexed
        exact isData_of_parse other parsed
      cases ran : Sql.exec c.view statement with
      | none =>
        have refused : c.exec statement = none := by
          cases statement with
          | begin | commit | rollback => contradiction
          | createTable | dropTable | insert | delete | select => simp only [Conn.exec, ran, Option.map_none]
        rw [dbQuery_prepared prepared, refused]
        dsimp only
        split
        · exact within_cancel c
        · exact .refl c
      | some result =>
        rw [dbQuery_data prepared ran]
        exact within_setView c _

private theorem reads_delete : Lexer.run {} "DELETE ".toList = some ⟨[.word "delete".toList], .blank⟩ := by
  decide +kernel

private theorem reads_insert : Lexer.run {} "INSERT ".toList = some ⟨[.word "insert".toList], .blank⟩ := by
  decide +kernel

private theorem reads_select : Lexer.run {} "SELECT ".toList = some ⟨[.word "select".toList], .blank⟩ := by
  decide +kernel

theorem dbPkgRemove_within (path : List Char) (env : RemoveEnv) (c : Conn) :
    Conn.Within c (dbPkgRemove path env c) := by
  have splitFiles : deleteFilesFmt.toList = "DELETE ".toList ++
      "FROM files WHERE package IN (SELECT id FROM packages WHERE path = '%s');".toList := by
    unfold deleteFilesFmt
    rw [String.toList_ofList, String.toList_ofList, String.toList_ofList]
    rfl
  have splitPackages : deletePackagesFmt.toList = "DELETE ".toList ++
      "FROM packages WHERE path = '%s';".toList := by
    unfold deletePackagesFmt
    rw [String.toList_ofList, String.toList_ofList, String.toList_ofList]
    rfl
  exact (dbQuery_within splitFiles (by decide) (by decide) reads_delete (by decide) [.str path] env.files).trans
    (dbQuery_within splitPackages (by decide) (by decide) reads_delete (by decide) [.str path] env.packages)

theorem dbPkgAdd_within (path : List Char) (env : AddEnv) (c : Conn) : Conn.Within c (dbPkgAdd path env c).2 := by
  have splitInsert : insertPackageFmt.toList = "INSERT ".toList ++
      "INTO packages (path, version) VALUES ('%s', %lu);".toList := by
    unfold insertPackageFmt
    rw [String.toList_ofList, String.toList_ofList, String.toList_ofList]
    rfl
  have splitSelect : selectPackageFmt.toList = "SELECT ".toList ++
      "id FROM packages WHERE path = '%s' AND version = %lu;".toList := by
    unfold selectPackageFmt
    rw [String.toList_ofList, String.toList_ofList, String.toList_ofList]
    rfl
  unfold dbPkgAdd
  cases env.stat with
  | error errno => exact .refl c
  | ok mtime =>
    exact (dbQuery_within splitInsert (by decide) (by decide) reads_insert (by decide)
      [.str path, .ulong mtime.toUInt64] env.insert).trans
      (dbQuery_within splitSelect (by decide) (by decide) reads_select (by decide)
        [.str path, .ulong mtime.toUInt64] env.select)

end FsPkg.Db

namespace FsPkg.Pkg

open Db Sql

theorem tocStore_within (path : Text) (env : ImportEnv) (c : Conn) :
    Conn.Within c (tocStore path env noFiles c) :=
  (dbPkgRemove_within path env.remove c).trans (dbPkgAdd_within path env.add _)

/-- A state of the cache, in its invariant. -/
def CacheState := { st : State // ∃ es, Represents st es }

/-- One call, with what it meets. -/
inductive ImportCall where
  | pkgImport (path : Text) (env : ImportEnv) (cache : CacheState)
  | pkgForget (path : Text) (env : RemoveEnv)

namespace ImportCall

/-- The connection after a call; `none` if it never returns. -/
def run (variant : TocVariant) (c : Conn) : ImportCall → Option Conn
  | .pkgImport path env cache => (Pkg.pkgImport variant path env noFiles cache.val c).map Prod.snd
  | .pkgForget path env => some (Pkg.pkgForget path env c).2

/-- An import that gets to `db_begin`. -/
def begins : ImportCall → Bool
  | .pkgImport path _ cache => pkgHandleByname cache.val path cache.val.pkgList.nodes = some none
  | .pkgForget _ _ => false

/-- An import that gets to `db_begin` and then finds no TOC. -/
def Abandons (variant : TocVariant) : ImportCall → Prop
  | .pkgImport path env cache =>
    pkgHandleByname cache.val path cache.val.pkgList.nodes = some none ∧ env.toc.Abandoned variant
  | .pkgForget _ _ => False

/-- One call between closed transactions. -/
theorem run_closed {variant : TocVariant} {c : Conn} (closed : Closed c) {call : ImportCall}
    (completes : ¬ call.Abandons variant) : ∃ c', call.run variant c = some c' ∧ Closed c' ∧
      ((call.begins = false ∧ c'.calls = c.calls) ∨
        ∃ closer, closer ≠ .begin ∧ call.begins = true ∧ c'.calls = c.calls ++ [.begin, closer]) := by
  cases call with
  | pkgForget path env =>
    have within := dbPkgRemove_within path env c
    exact ⟨_, rfl, ⟨within.mutex.trans closed.mutex, within.txn closed.txn⟩, .inl ⟨rfl, within.calls⟩⟩
  | pkgImport path env cache =>
    obtain ⟨es, rep⟩ := cache.property
    have found := rep.pkgHandleByname_spec path
    cases hit : es.find? (fun e => e.handle.name = some path) with
    | some e =>
      rw [hit] at found
      have ran : Pkg.pkgImport variant path env noFiles cache.val c = some (exitSuccess, c) :=
        pkgImport_cached found
      exact ⟨c, by rw [run, ran]; rfl, closed, .inl ⟨by simp [begins, found], rfl⟩⟩
    | none =>
      rw [hit] at found
      have starts : begins (.pkgImport path env cache) = true := decide_eq_true found
      have processed : ¬ env.toc.Abandoned variant := fun abandoned => completes ⟨found, abandoned⟩
      cases accepted : env.toc.accepted variant with
      | false =>
        have ran : Pkg.pkgImport variant path env noFiles cache.val c = _ :=
          pkgImport_rejected found closed processed accepted
        exact ⟨{ c with calls := c.calls ++ [.begin, .rollback] }, by rw [run, ran]; rfl,
          ⟨closed.mutex, closed.txn⟩, .inr ⟨.rollback, by decide, starts, rfl⟩⟩
      | true =>
        have within := tocStore_within path env c.begun
        have ran : Pkg.pkgImport variant path env noFiles cache.val c = _ :=
          pkgImport_accepted found closed processed accepted
        rw [dbCommit_spec, within.calls, Conn.begun, List.append_assoc] at ran
        exact ⟨_, by rw [run, ran]; rfl, ⟨rfl, rfl⟩, .inr ⟨.commit, by decide, starts, rfl⟩⟩

/-- The call that goes wrong. -/
theorem run_abandons {variant : TocVariant} {c : Conn} (closed : Closed c) {call : ImportCall}
    (abandons : call.Abandons variant) : call.run variant c = some c.begun := by
  cases call with
  | pkgForget => exact abandons.elim
  | pkgImport path env cache =>
    rw [run, pkgImport_abandoned abandons.1 closed abandons.2]
    rfl

end ImportCall

/-- A whole sequence of calls; `none` if one of them never returns. -/
def runCalls (variant : TocVariant) (c : Conn) (calls : List ImportCall) : Option Conn :=
  calls.foldlM (ImportCall.run variant) c

theorem runCalls_snoc (variant : TocVariant) (c : Conn) (calls : List ImportCall) (call : ImportCall) :
    runCalls variant c (calls ++ [call]) = (runCalls variant c calls).bind fun c' => call.run variant c' := by
  unfold runCalls
  rw [List.foldlM_append]
  congr 1
  funext c'
  exact bind_pure _

/-- After every prefix of the calls: all have returned, the mutex is free, no transaction is open,
and each import that began a transaction closed it with exactly one commit or rollback. -/
def TransactionsClosed (variant : TocVariant) (start : Conn) (calls : List ImportCall) : Prop :=
  ∀ past, past <+: calls → ∃ (c : Conn) (closers : List TxnCall), runCalls variant start past = some c ∧ Closed c ∧
    (∀ closer ∈ closers, closer ≠ TxnCall.begin) ∧ closers.length = past.countP ImportCall.begins ∧
    c.calls = start.calls ++ closers.flatMap fun closer => [.begin, closer]

private theorem transactions_of_completes {variant : TocVariant} {start : Conn} (closed : Closed start)
    (past : List ImportCall) (completes : ∀ call ∈ past, ¬ call.Abandons variant) :
    ∃ (c : Conn) (closers : List TxnCall), runCalls variant start past = some c ∧ Closed c ∧
      (∀ closer ∈ closers, closer ≠ TxnCall.begin) ∧ closers.length = past.countP ImportCall.begins ∧
      c.calls = start.calls ++ closers.flatMap fun closer => [.begin, closer] := by
  induction past using List.reverseRecOn with
  | nil => exact ⟨start, [], rfl, closed, by simp, rfl, by simp⟩
  | append_singleton past call ih =>
    obtain ⟨c, closers, ran, closedNow, proper, count, trace⟩ :=
      ih fun other member => completes other (List.mem_append_left _ member)
    obtain ⟨c', next, closedNext, effect⟩ :=
      ImportCall.run_closed closedNow (completes call (List.mem_append_right _ (List.mem_singleton.mpr rfl)))
    have whole : runCalls variant start (past ++ [call]) = some c' := by
      rw [runCalls_snoc, ran]
      exact next
    rcases effect with ⟨quiet, same⟩ | ⟨closer, closes, starts, grown⟩
    · refine ⟨c', closers, whole, closedNext, proper, ?_, same.trans trace⟩
      simp [List.countP_append, quiet, count]
    · refine ⟨c', closers ++ [closer], whole, closedNext, ?_, ?_, ?_⟩
      · intro other member
        rcases List.mem_append.mp member with old | new
        · exact proper other old
        · rw [List.mem_singleton.mp new]
          exact closes
      · simp [List.countP_append, starts, count]
      · rw [grown, trace]
        simp

/-- An import that meets an empty cache. -/
def freshImport (path : Text) (toc : TocEnv) : ImportCall :=
  .pkgImport path { toc, add := { stat := .ok 1 } } ⟨smallCache, [], smallCache_initial.represents⟩

end FsPkg.Pkg
