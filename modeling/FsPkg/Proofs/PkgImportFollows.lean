import FsPkg.Proofs.PkgImportKeys

/-! # The package table and the events

Imports and forgets of paths that nobody has open, among opens, closes and collections, every
statement and system call succeeding. The table should hold what the last event of each path says.
An import looks into the cache first, and leaves the table alone if it finds a handle there; a
handle stays in the cache after its last close, until a collection removes it.
-/

namespace FsPkg.Pkg

open Db Sql Machine

/-- One event. Imported files are valid packages, with this `st_mtime`. -/
inductive WorldEvent where
  | pkgImport (path : Text) (mtime : Int64)
  | pkgForget (path : Text)
  | cache (event : CacheEvent)

/-- The cache, the connection, and the events so far. -/
structure World where
  cache : Session
  conn : Conn
  events : List WorldEvent := []

/-- Every open of the path has been matched by a close. -/
def Idle (path : Text) (s : Session) : Prop :=
  ∀ pkg ∈ s.state.listed, s.state.name pkg = some path → outstanding pkg s.calls = 0

/-- An `INSERT` that replaces the package can be carried out: there is a key for it. -/
def Insertable (path : Text) (c : Conn) : Prop :=
  ∀ p, c.view "packages".toList = some p → hasRoom (dropPackages path p)

inductive WorldStep (variant : TocVariant) : World → WorldEvent → World → Prop
  | pkgImport {w : World} {path : Text} {mtime : Int64} {code : Int32} {conn : Conn} (plain : '\'' ∉ path)
      (short : path.length < pathMax) (idle : Idle path w.cache) (insertable : Insertable path w.conn)
      (ran : pkgImport variant path { add := { stat := .ok mtime } } noFiles w.cache.state w.conn =
        some (code, conn)) :
      WorldStep variant w (.pkgImport path mtime) ⟨w.cache, conn, w.events ++ [.pkgImport path mtime]⟩
  | pkgForget {w : World} {path : Text} (plain : '\'' ∉ path) (short : path.length < pathMax)
      (idle : Idle path w.cache) :
      WorldStep variant w (.pkgForget path)
        ⟨w.cache, (pkgForget path {} w.conn).2, w.events ++ [.pkgForget path]⟩
  | cache {w : World} {event : CacheEvent} {s : Session} (step : CacheStep w.cache event s) :
      WorldStep variant w (.cache event) ⟨s, w.conn, w.events ++ [.cache event]⟩

/-- What an event says about a path: imported at a time, or forgotten. -/
def WorldEvent.about (path : Text) : WorldEvent → Option (Option Int64)
  | .pkgImport other mtime => if other = path then some (some mtime) else none
  | .pkgForget other => if other = path then some none else none
  | .cache _ => none

def lastEvent (path : Text) (events : List WorldEvent) : Option (Option Int64) :=
  (events.filterMap (WorldEvent.about path)).getLast?

/-- The rows of a path after its last event: one row with the time of the import, else none. -/
def Reflects (p : Table) (path : Text) : Option (Option Int64) → Prop
  | some (some mtime) =>
    ∃ row, p.rows.filter (hasPath path) = [row] ∧ row "version".toList = .int mtime.toInt
  | _ => p.rows.filter (hasPath path) = []

/-- The table reflects the last event of every path. -/
def Follows (events : List WorldEvent) (p : Table) : Prop :=
  ∀ path, Reflects p path (lastEvent path events)

/-- An import that finds no handle, of a file with a time since the epoch; or an import that finds
one and has nothing to change. -/
def Unhampered (w : World) : WorldEvent → Prop
  | .pkgImport path mtime =>
    if pkgHandleByname w.cache.state path w.cache.state.pkgList.nodes = some none then 0 ≤ mtime
    else lastEvent path w.events = some (some mtime)
  | _ => True

theorem lastEvent_snoc (path : Text) (events : List WorldEvent) (event : WorldEvent) :
    lastEvent path (events ++ [event]) = (event.about path).or (lastEvent path events) := by
  unfold lastEvent
  rw [List.filterMap_append, List.filterMap_cons, List.filterMap_nil]
  cases event.about path with
  | none => simp
  | some said => simp

section Tables

variable {p p' : Table} {events : List WorldEvent}

/-- Only rows of the path change: what is left to check is the path itself. -/
theorem follows_snoc (path : Text) {event : WorldEvent} (follows : Follows events p)
    (about : ∀ other, other ≠ path → event.about other = none)
    (others : p'.rows.filter (fun row => !hasPath path row) = p.rows.filter fun row => !hasPath path row) :
    Follows (events ++ [event]) p' ↔ Reflects p' path ((event.about path).or (lastEvent path events)) := by
  have elsewhere {other : Text} (different : other ≠ path) (rows : List Row) : rows.filter (hasPath other) =
      (rows.filter fun row => !hasPath path row).filter (hasPath other) := by
    rw [List.filter_filter]
    apply List.filter_congr
    intro row _
    by_cases named : hasPath other row = true
    · have not : hasPath path row = false := by
        rw [Bool.eq_false_iff]
        intro both
        have same := (of_decide_eq_true named).symm.trans (of_decide_eq_true both)
        exact different (Value.text.inj same)
      rw [named, not]
      rfl
    · rw [Bool.eq_false_iff.mpr named]
      rfl
  constructor
  · intro all
    have here := all path
    rw [lastEvent_snoc] at here
    exact here
  · intro here other
    by_cases same : other = path
    · rw [same, lastEvent_snoc]
      exact here
    · have before := follows other
      have unchanged : p'.rows.filter (hasPath other) = p.rows.filter (hasPath other) := by
        rw [elsewhere same, others, ← elsewhere same]
      rw [lastEvent_snoc, about other same, Option.none_or]
      unfold Reflects at before ⊢
      rw [unchanged]
      exact before

/-- A table that reflects one import reflects another only if it was at the same time. -/
theorem Reflects.same_time {path : Text} {said : Option (Option Int64)} {mtime : Int64} (one : Reflects p path said)
    (two : Reflects p path (some (some mtime))) : said = some (some mtime) := by
  obtain ⟨row, only, version⟩ := two
  match said, one with
  | none, empty => exact absurd (only.symm.trans empty) (List.cons_ne_nil _ _)
  | some none, empty => exact absurd (only.symm.trans empty) (List.cons_ne_nil _ _)
  | some (some time), ⟨row', only', version'⟩ =>
    rw [only] at only'
    cases only'
    rw [version] at version'
    rw [Int64.toInt_inj.mp (Value.int.inj version')]

end Tables

/-! ## Steps and runs -/

/-- The connection is between transactions, and the table follows the events. -/
structure Settled (w : World) (p f : Table) : Prop where
  closed : Closed w.conn
  tables : Tables w.conn.committed p f
  follows : Follows w.events p

/-- A forgotten path has no row; all other rows stay. -/
theorem Settled.forget {w : World} {p f : Table} (settled : Settled w p f) {path : Text} (plain : '\'' ∉ path)
    (short : path.length < pathMax) : Closed (pkgForget path {} w.conn).2 ∧
      Tables (pkgForget path {} w.conn).2.committed (dropPackages path p) (dropFiles path p f) ∧
      Follows (w.events ++ [.pkgForget path]) (dropPackages path p) := by
  have view : Tables w.conn.view p f := by
    rw [settled.closed.view]
    exact settled.tables
  have removed : (pkgForget path {} w.conn).2 =
      w.conn.setView (write w.conn.view (dropPackages path p) (dropFiles path p f)) :=
    dbPkgRemove_spec view plain short
  have commits (db : Database) : w.conn.setView db = ⟨db, none, w.conn.mutex, w.conn.calls⟩ := by
    rw [Conn.setView, settled.closed.txn]
  rw [removed, commits]
  refine ⟨⟨settled.closed.mutex, rfl⟩, view.write rfl rfl, ?_⟩
  have about (other : Text) (different : other ≠ path) : (WorldEvent.pkgForget path).about other = none :=
    if_neg different.symm
  refine (follows_snoc path settled.follows about ?_).mpr ?_
  · simp [dropPackages, List.filter_filter]
  · rw [WorldEvent.about, if_pos rfl]
    change (dropPackages path p).rows.filter (hasPath path) = []
    simp [dropPackages, List.filter_filter]

/-- An import that finds no handle replaces the row; the time is right if it is since the epoch. -/
theorem Settled.import_uncached {variant : TocVariant} {w : World} {p f : Table} (settled : Settled w p f)
    {path : Text} {mtime : Int64} {code : Int32} {conn : Conn} (plain : '\'' ∉ path)
    (short : path.length < pathMax) (insertable : Insertable path w.conn)
    (ran : pkgImport variant path { add := { stat := .ok mtime } } noFiles w.cache.state w.conn = some (code, conn))
    (uncached : pkgHandleByname w.cache.state path w.cache.state.pkgList.nodes = some none) :
    ∃ p' f', Closed conn ∧ Tables conn.committed p' f' ∧
      (Follows (w.events ++ [.pkgImport path mtime]) p' ↔ 0 ≤ mtime) := by
  have room : hasRoom (dropPackages path p) := by
    apply insertable p
    rw [settled.closed.view]
    exact settled.tables.packages
  obtain ⟨conn', ran', closed', committed⟩ :=
    pkgImport_replaces variant settled.tables settled.closed plain short uncached room
  cases ran'.symm.trans ran
  have columns : (dropPackages path p).columns = packagesColumns := settled.tables.packagesColumns
  have named : hasPath path (packageRow (dropPackages path p) path mtime.toUInt64) = true :=
    decide_eq_true (packageRow_path columns _)
  have version : packageRow (dropPackages path p) path mtime.toUInt64 "version".toList =
      numeral mtime.toUInt64.toNat := packageRow_version columns _
  have gone : (dropPackages path p).rows.filter (hasPath path) = [] := by
    simp [dropPackages, List.filter_filter]
  have only : (addPackage path mtime.toUInt64 (dropPackages path p)).rows.filter (hasPath path) =
      [packageRow (dropPackages path p) path mtime.toUInt64] := by
    rw [addPackage, List.filter_append, gone, List.filter_singleton, named]
    rfl
  have others : (addPackage path mtime.toUInt64 (dropPackages path p)).rows.filter (fun row => !hasPath path row) =
      p.rows.filter fun row => !hasPath path row := by
    rw [addPackage, List.filter_append, List.filter_singleton, named, Bool.not_true, cond_false, List.append_nil]
    simp [dropPackages, List.filter_filter]
  have about (other : Text) (different : other ≠ path) : (WorldEvent.pkgImport path mtime).about other = none :=
    if_neg different.symm
  have tables : Tables conn.committed (addPackage path mtime.toUInt64 (dropPackages path p)) (dropFiles path p f) := by
    rw [committed]
    exact settled.tables.write rfl rfl
  refine ⟨_, _, closed', tables, ?_⟩
  rw [follows_snoc path settled.follows about others, WorldEvent.about, if_pos rfl, ← numeral_mtime, ← version]
  constructor
  · rintro ⟨row, same, time⟩
    rw [only] at same
    cases same
    exact time
  · intro time
    exact ⟨_, only, time⟩

/-- An import that finds a handle does nothing: right only if nothing was to be done. -/
theorem Settled.import_cached {variant : TocVariant} {w : World} {p f : Table} (settled : Settled w p f)
    {path : Text} {mtime : Int64} {code : Int32} {conn : Conn}
    (ran : pkgImport variant path { add := { stat := .ok mtime } } noFiles w.cache.state w.conn = some (code, conn))
    (cached : pkgHandleByname w.cache.state path w.cache.state.pkgList.nodes ≠ some none) :
    conn = w.conn ∧
      (Follows (w.events ++ [.pkgImport path mtime]) p ↔ lastEvent path w.events = some (some mtime)) := by
  have ignored : conn = w.conn := by
    cases found : pkgHandleByname w.cache.state path w.cache.state.pkgList.nodes with
    | none => simp only [pkgImport, bind, found, Option.bind_none, reduceCtorEq] at ran
    | some result =>
      cases result with
      | none => exact absurd found cached
      | some pkg =>
        rw [pkgImport_cached found] at ran
        cases ran
        rfl
  have about (other : Text) (different : other ≠ path) : (WorldEvent.pkgImport path mtime).about other = none :=
    if_neg different.symm
  refine ⟨ignored, ?_⟩
  rw [follows_snoc path settled.follows about rfl, WorldEvent.about, if_pos rfl]
  constructor
  · intro reflects
    exact (settled.follows path).same_time reflects
  · intro last
    have before := settled.follows path
    rw [last] at before
    exact before

/-- One event keeps the table in step exactly when it is not hampered. -/
theorem WorldStep.settled {variant : TocVariant} {w w' : World} {event : WorldEvent} {p f : Table}
    (step : WorldStep variant w event w') (settled : Settled w p f) :
    w'.events = w.events ++ [event] ∧ ∃ p' f', Closed w'.conn ∧ Tables w'.conn.committed p' f' ∧
      (Follows w'.events p' ↔ Unhampered w event) := by
  cases step with
  | cache step =>
    refine ⟨rfl, p, f, settled.closed, settled.tables, iff_of_true ?_ trivial⟩
    intro path
    rw [lastEvent_snoc]
    exact settled.follows path
  | pkgForget plain short idle =>
    obtain ⟨closed, tables, follows⟩ := settled.forget plain short
    exact ⟨rfl, _, _, closed, tables, iff_of_true follows trivial⟩
  | @pkgImport path mtime code conn plain short idle insertable ran =>
    refine ⟨rfl, ?_⟩
    by_cases uncached : pkgHandleByname w.cache.state path w.cache.state.pkgList.nodes = some none
    · rw [Unhampered, if_pos uncached]
      exact settled.import_uncached plain short insertable ran uncached
    · rw [Unhampered, if_neg uncached]
      obtain ⟨rfl, iff⟩ := settled.import_cached ran uncached
      exact ⟨p, f, settled.closed, settled.tables, iff⟩

/-- In every run of unhampered events the table follows the events, and it goes on to do so exactly
if the next event is unhampered too. -/
theorem package_table_follows {variant : TocVariant} {c start : Conn} {cache : Session}
    {events : List WorldEvent} {w : World} (closed : Closed c) (initialized : dbSqliteInitialize c = some start)
    (run : Run (fun s event t => WorldStep variant s event t ∧ Unhampered s event) ⟨cache, start, []⟩ events w) :
    ∃ p f, Closed w.conn ∧ Tables w.conn.committed p f ∧ Follows events p ∧
      ∀ event w', WorldStep variant w event w' → ∃ p' f', Tables w'.conn.committed p' f' ∧
        (Follows (events ++ [event]) p' ↔ Unhampered w event) := by
  have reached : w.events = events ∧ ∃ p f, Settled w p f := by
    refine run.history (I := fun past s => s.events = past ∧ ∃ p f, Settled s p f) ⟨rfl, ?_⟩ ?_
    · obtain ⟨c', ran, closed', tables⟩ := dbSqliteInitialize_spec closed
      rw [ran] at initialized
      cases initialized
      exact ⟨_, _, closed', tables, fun path => rfl⟩
    · rintro past source event target - ⟨history, p, f, settled⟩ ⟨step, unhampered⟩
      obtain ⟨grown, p', f', closed', tables, iff⟩ := step.settled settled
      exact ⟨by rw [grown, history], p', f', closed', tables, iff.mpr unhampered⟩
  obtain ⟨rfl, p, f, settled⟩ := reached
  refine ⟨p, f, settled.closed, settled.tables, settled.follows, ?_⟩
  intro event w' step
  obtain ⟨grown, p', f', -, tables, iff⟩ := step.settled settled
  rw [grown] at iff
  exact ⟨p', f', tables, iff⟩

/-! ## A handle left in the cache -/

/-- Calls of the cache alone are a run that leaves the connection as it is. -/
theorem run_cache (variant : TocVariant) {s t : Session} {calls : List CacheEvent} (conn : Conn)
    (run : Run CacheStep s calls t) : t.calls = s.calls ++ calls ∧
      Run (WorldStep variant) ⟨s, conn, []⟩ (calls.map .cache) ⟨t, conn, calls.map .cache⟩ := by
  induction run with
  | start => exact ⟨by simp, .start⟩
  | snoc run last ih =>
    obtain ⟨history, ran⟩ := ih
    refine ⟨?_, ?_⟩
    · rw [← List.append_assoc, ← history]
      cases last <;> rfl
    · rw [List.map_append]
      exact ran.snoc (.cache last)

/-- Every path can be inserted into a fresh database. -/
theorem insertable_initial {conn : Conn} {f : Table} (closed : Closed conn)
    (tables : Tables conn.committed initialPackages f) (path : Text) : Insertable path conn := by
  intro p found
  rw [closed.view, tables.packages] at found
  cases found
  exact (by decide : 0 + 1 < 2 ^ 63)

instance (path : Text) (s : Session) : Decidable (Idle path s) :=
  inferInstanceAs (Decidable (∀ pkg ∈ s.state.listed, _ → _))

/-- What an unhampered event leaves of the cache and of both tables, where a run can have it. -/
def WorldEvent.leaves (cache : Session) (p f : Table) : WorldEvent → Option (Session × Table × Table)
  | .pkgImport path mtime =>
    if '\'' ∉ path ∧ path.length < pathMax ∧ Idle path cache ∧ hasRoom (dropPackages path p) ∧
        pkgHandleByname cache.state path cache.state.pkgList.nodes = some none ∧ 0 ≤ mtime then
      some (cache, addPackage path mtime.toUInt64 (dropPackages path p), dropFiles path p f)
    else none
  | .pkgForget path =>
    if '\'' ∉ path ∧ path.length < pathMax ∧ Idle path cache then
      some (cache, dropPackages path p, dropFiles path p f)
    else none
  | .cache event => (cache.exec event).map fun s => (s, p, f)

def leavesAll (events : List WorldEvent) (start : Session × Table × Table) : Option (Session × Table × Table) :=
  events.foldlM (fun (s, p, f) event => event.leaves s p f) start

section Leaves

variable {variant : TocVariant} {w w' : World} {p f p' f' : Table} {event : WorldEvent} {s : Session}

theorem WorldStep.keeps_settled (step : WorldStep variant w event w') (settled : Settled w p f)
    (unhampered : Unhampered w event) (tables : Tables w'.conn.committed p' f') : Settled w' p' f' := by
  obtain ⟨-, p₁, f₁, closed, tables₁, iff⟩ := step.settled settled
  obtain rfl : p₁ = p' := Option.some.inj (tables₁.packages.symm.trans tables.packages)
  exact ⟨closed, tables, iff.mpr unhampered⟩

theorem Settled.leaves (settled : Settled w p f) (left : event.leaves w.cache p f = some (s, p', f')) :
    ∃ w', WorldStep variant w event w' ∧ Unhampered w event ∧ w'.cache = s ∧ Settled w' p' f' := by
  cases event with
  | pkgImport path mtime =>
    rw [WorldEvent.leaves] at left
    split_ifs at left with fit
    obtain ⟨plain, short, idle, room, uncached, since⟩ := fit
    cases left
    obtain ⟨conn, ran, -, committed⟩ :=
      pkgImport_replaces variant settled.tables settled.closed plain short uncached room
    have insertable : Insertable path w.conn := by
      intro q found
      rw [settled.closed.view, settled.tables.packages] at found
      cases found
      exact room
    have step : WorldStep variant w (.pkgImport path mtime) _ := .pkgImport plain short idle insertable ran
    have unhampered : Unhampered w (.pkgImport path mtime) := by
      rw [Unhampered, if_pos uncached]
      exact since
    refine ⟨_, step, unhampered, rfl, step.keeps_settled settled unhampered ?_⟩
    rw [committed]
    exact settled.tables.write rfl rfl
  | pkgForget path =>
    rw [WorldEvent.leaves] at left
    split_ifs at left with fit
    obtain ⟨plain, short, idle⟩ := fit
    cases left
    have step : WorldStep variant w (.pkgForget path) _ := .pkgForget plain short idle
    exact ⟨_, step, trivial, rfl, step.keeps_settled settled trivial (settled.forget plain short).2.1⟩
  | cache event =>
    obtain ⟨s, called, same⟩ := Option.map_eq_some_iff.mp left
    cases same
    have step : WorldStep variant w (.cache event) _ := .cache (Session.step_of_exec called)
    exact ⟨_, step, trivial, rfl, step.keeps_settled settled trivial settled.tables⟩

/-- Events that leave something make a run. -/
theorem Settled.exists_run {events : List WorldEvent} (settled : Settled w p f)
    (left : leavesAll events (w.cache, p, f) = some (s, p', f')) :
    ∃ w', Run (fun s event t => WorldStep variant s event t ∧ Unhampered s event) w events w' ∧ Settled w' p' f' := by
  induction events generalizing w p f with
  | nil =>
    cases left
    exact ⟨w, .start, settled⟩
  | cons event events ih =>
    rw [leavesAll, List.foldlM_cons] at left
    obtain ⟨⟨cache, q, g⟩, first, rest⟩ := Option.bind_eq_some_iff.mp left
    obtain ⟨next, step, unhampered, rfl, settled'⟩ := settled.leaves first
    obtain ⟨w', run, last⟩ := ih settled' rest
    exact ⟨w', .cons ⟨step, unhampered⟩ run, last⟩

end Leaves

/-- Two packages are imported, one again when it has changed, and the other is opened, closed, collected and forgotten. -/
def smallEvents : List WorldEvent :=
  [.pkgImport ['/', 'a'] 7, .pkgImport ['/', 'b'] 5, .cache (.pkgOpen ['/', 'b'] smallEnv (some ⟨4096, 1⟩)),
    .pkgImport ['/', 'a'] 9, .cache (.pkgClose ⟨4096, 1⟩), .cache (.pkgGc 31), .pkgForget ['/', 'b']]

theorem package_table_follows_import : ∃ start w p f, dbSqliteInitialize emptyConn = some start ∧
    Run (fun s event t => WorldStep .libxar s event t ∧ Unhampered s event) ⟨⟨smallCache, []⟩, start, []⟩
      smallEvents w ∧ Tables w.conn.committed p f ∧
    (∃ row, p.rows.filter (hasPath ['/', 'a']) = [row] ∧ row "version".toList = .int 9) ∧
    p.rows.filter (hasPath ['/', 'b']) = [] ∧
    ∀ event w', WorldStep .libxar w event w' → ∃ p' f', Tables w'.conn.committed p' f' ∧
      (Follows (smallEvents ++ [event]) p' ↔ Unhampered w event) := by
  obtain ⟨start, initialized, closed, tables⟩ := dbSqliteInitialize_spec (c := emptyConn) ⟨rfl, rfl⟩
  have fresh : Settled ⟨⟨smallCache, []⟩, start, []⟩ initialPackages initialFiles := ⟨closed, tables, fun path => rfl⟩
  have left : (leavesAll smallEvents (⟨smallCache, []⟩, initialPackages, initialFiles)).isSome := by decide +kernel
  obtain ⟨⟨s, q, g⟩, left⟩ := Option.isSome_iff_exists.mp left
  obtain ⟨w, run, -⟩ := fresh.exists_run left
  obtain ⟨p, f, -, tables, follows, next⟩ := package_table_follows ⟨rfl, rfl⟩ initialized run
  exact ⟨start, w, p, f, initialized, run, tables, follows ['/', 'a'], follows ['/', 'b'], next⟩

/-- After an open and a close the handle is idle but cached, and an import does nothing. -/
theorem idle_handle_hides_import : ∃ start events w p f, dbSqliteInitialize emptyConn = some start ∧
    Run (WorldStep .libxar) ⟨⟨smallCache, []⟩, start, []⟩ events w ∧
    lastEvent ['/', 'a'] events = some (some 7) ∧ Tables w.conn.committed p f ∧
    p.rows.filter (hasPath ['/', 'a']) = [] := by
  obtain ⟨start, initialized, closed, tables⟩ := dbSqliteInitialize_spec (c := emptyConn) ⟨rfl, rfl⟩
  obtain ⟨pkg, opens⟩ := smallCache_opens ['/', 'a']
  obtain ⟨s, node, handle, run, rep, named, -⟩ := opens 0
  have whole : Represents s.state ([] ++ ⟨node, pkg, handle⟩ :: []) := rep
  obtain ⟨heap, ran, rep'⟩ := whole.pkgClose_spec
  have opened := (run_cache .libxar start run).1
  have held : 0 < outstanding pkg s.calls := by
    rw [opened]
    simp [outstanding, CacheEvent.opens, CacheEvent.closes]
  obtain ⟨-, world⟩ := run_cache .libxar start (run.snoc (.pkgClose held ran))
  have idle : Idle ['/', 'a'] ⟨{ s.state with pkgHeap := heap }, s.calls ++ [.pkgClose pkg]⟩ := by
    intro other member _
    rw [rep'.listed_eq] at member
    rw [show other = pkg from List.mem_singleton.mp member, opened]
    simp [outstanding, CacheEvent.opens, CacheEvent.closes]
  have cached : pkgHandleByname { s.state with pkgHeap := heap } ['/', 'a'] s.state.pkgList.nodes =
      some (some pkg) := by
    apply (rep'.pkgHandleByname_spec _).trans
    simp [PkgHandle.closed, named]
  have ignored : pkgImport .libxar ['/', 'a'] { add := { stat := .ok 7 } } noFiles
      { s.state with pkgHeap := heap } start = some (exitSuccess, start) := pkgImport_cached cached
  exact ⟨start, _, _, initialPackages, initialFiles, initialized,
    world.snoc (.pkgImport (by decide) (by decide) idle (insertable_initial closed tables _) ignored), by
      rw [lastEvent_snoc]
      rfl, tables, rfl⟩

end FsPkg.Pkg
