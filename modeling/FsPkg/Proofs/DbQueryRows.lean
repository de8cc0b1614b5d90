import FsPkg.Model.DbQuery
import FsPkg.Proofs.VfsFuseRuns

/-! # What `db_query` leaves behind, for result sets of any length

`QUERY_NULL` leaves its statement and its buffer as soon as there is a row. `QUERY_INODE` takes an element for every
row and returns the last of them, and since `i` is not set back, only the first is filled in. A single row is handled,
and more than one only when there is no memory for any but the last, and no column to decode.
-/

namespace FsPkg.Vfs

open Balloc Sql Db

/-! ## The loop and the loops of the other models -/

section Agreement

variable {names : List Name} {blocks : ℕ → BlockEnv}

/-- With `QUERY_INT` it returns the number that `queryInt` reads. -/
theorem queryRows_int (rows : List (List Value)) (s : QueryState) :
    queryRows .int names blocks rows s =
      some (true, { s with ret := if rows = [] then s.ret else .int (queryInt rows) }) := by
  induction rows generalizing s with
  | nil => rfl
  | cons values rows ih =>
    rw [queryRows, ih]
    cases rows with
    | nil => cases values <;> rfl
    | cons next rows => rfl

/-- With `QUERY_INODE` it is the loop of `queryInode`. -/
theorem queryRows_inode (rows : List (List Value)) (i : ℕ) (ret : Option MemBlock) (heap : BlockHeap PkgInode) :
    (queryRows .inode names blocks rows ⟨i, ret.elim .null .inode, heap⟩).map (fun left => (left.2.ret, left.2.heap)) =
      (queryInode names blocks rows i ret heap).map fun left => (left.1.elim .null .inode, left.2) := by
  induction rows generalizing i ret heap with
  | nil => rfl
  | cons values rows ih =>
    rw [queryRows, queryInode]
    simp only [fetchInode, bind]
    cases blockheapAlloc heap (blocks rows.length) with
    | none => rfl
    | some result =>
      obtain ⟨ptr, next, dying⟩ := result
      simp only [Option.bind_some]
      cases ptr with
      | none =>
        simp only
        split
        · rfl
        · exact ih (max i names.length) none next
      | some ptr =>
        simp only
        cases next.read ptr with
        | none => rfl
        | some inode =>
          simp only [Option.bind_some]
          cases next.write ptr (storeColumns inode ((names.zip values).drop i)) with
          | none => rfl
          | some filled => exact ih (max i names.length) (some ptr) filled

end Agreement

/-! ## One row of `QUERY_INODE` -/

section Row

variable {names : List Name} {values : List Value} {os : BlockEnv} {s : QueryState}

/-- An element is filled in from column `i` on, or there is none. -/
theorem fetchInode_spec (names : List Name) (values : List Value) (inv : Invariant s.heap)
    (lawful : os.Lawful s.heap) :
    (¬Provides os s.heap ∧ fetchInode names os values s =
      if (names.drop s.i).any decodes then none else some ⟨max s.i names.length, .null, s.heap⟩) ∨
    (Provides os s.heap ∧ ∃ ptr heap, s.heap.live ptr = none ∧ Invariant heap ∧
      heap.live = Function.update s.heap.live ptr (some (storeColumns {} ((names.zip values).drop s.i))) ∧
      fetchInode names os values s = some ⟨max s.i names.length, .inode ptr, heap⟩) := by
  rcases inv.alloc_spec lawful with
    ⟨full, refused, alloc⟩ | ⟨ptr, heap, provides, alloc, inv', -, -, fresh, live, -⟩
  · refine .inl ⟨not_or.mpr ⟨not_not.mpr full, refused⟩, ?_⟩
    simp only [fetchInode, bind, alloc, Option.bind_some]
  · have zeroed : heap.read ptr = some {} := by
      apply inv'.read_of_live
      rw [live, Function.update_self]
      rfl
    obtain ⟨filled, wrote, inv'', live'⟩ := inv'.store_spec live (storeColumns {} ((names.zip values).drop s.i))
    refine .inr ⟨provides, ptr, filled, fresh, inv'', live', ?_⟩
    simp only [fetchInode, bind, alloc, Option.bind_some, zeroed, wrote]

/-- A row takes an element exactly if it returns one. -/
theorem fetchInode_allocated (inv : Invariant s.heap) (lawful : os.Lawful s.heap) {s' : QueryState}
    (fetched : fetchInode names os values s = some s') :
    Invariant s'.heap ∧
      ((¬Provides os s.heap ∧ (names.drop s.i).any decodes = false ∧ s'.ret = .null ∧ s'.heap = s.heap) ∨
        (Provides os s.heap ∧ (∃ ptr, s'.ret = .inode ptr) ∧
          s'.heap.allocated.length = s.heap.allocated.length + 1)) := by
  rcases fetchInode_spec names values inv lawful with
    ⟨refused, ran⟩ | ⟨provides, ptr, heap, fresh, inv', live, ran⟩
  · rw [ran] at fetched
    split at fetched
    · contradiction
    · cases fetched
      exact ⟨inv, .inl ⟨refused, Bool.not_eq_true _ ▸ ‹_›, rfl, rfl⟩⟩
  · rw [ran] at fetched
    cases fetched
    exact ⟨inv', .inr ⟨provides, ⟨ptr, rfl⟩, inv.length_allocated_add inv' fresh live⟩⟩

end Row

/-! ## All rows of `QUERY_INODE` -/

/-- The system answers lawfully, row after row. -/
def LawfulRows (names : List Name) (blocks : ℕ → BlockEnv) : List (List Value) → QueryState → Prop
  | [], _ => True
  | values :: rows, s => (blocks rows.length).Lawful s.heap ∧
    ∀ s', fetchInode names (blocks rows.length) values s = some s' → LawfulRows names blocks rows s'

section Rows

variable {names : List Name} {blocks : ℕ → BlockEnv} {rows : List (List Value)} {s : QueryState}

/-- The loop takes no element back, and has taken one if it returns one. -/
theorem queryRows_allocated (inv : Invariant s.heap) (lawful : LawfulRows names blocks rows s) {ended : Bool}
    {s' : QueryState} (ran : queryRows .inode names blocks rows s = some (ended, s')) :
    s.heap.allocated.length ≤ s'.heap.allocated.length ∧
      (rows ≠ [] → (∃ ptr, s'.ret = .inode ptr) → s.heap.allocated.length < s'.heap.allocated.length) := by
  induction rows generalizing s with
  | nil =>
    cases ran
    exact ⟨le_rfl, fun nonempty => absurd rfl nonempty⟩
  | cons values rows ih =>
    rw [queryRows] at ran
    obtain ⟨next, fetched, ran⟩ := Option.bind_eq_some_iff.mp ran
    obtain ⟨inv', taken⟩ := fetchInode_allocated inv lawful.1 fetched
    obtain ⟨more, last⟩ := ih inv' (lawful.2 next fetched) ran
    have grown : s.heap.allocated.length ≤ next.heap.allocated.length := by
      rcases taken with ⟨-, -, -, same⟩ | ⟨-, -, length⟩
      · rw [same]
      · omega
    refine ⟨by omega, ?_⟩
    intro _ returned
    by_cases rest : rows = []
    · subst rest
      cases ran
      rcases taken with ⟨-, -, null, -⟩ | ⟨-, -, length⟩
      · obtain ⟨ptr, some⟩ := returned
        rw [null] at some
        contradiction
      · omega
    · have later := last rest returned
      omega

/-- The loop comes to its end, and keeps the invariant of the heap. -/
theorem queryRows_kept (inv : Invariant s.heap) (lawful : LawfulRows names blocks rows s) {ended : Bool}
    {s' : QueryState} (ran : queryRows .inode names blocks rows s = some (ended, s')) :
    Invariant s'.heap ∧ ended = true := by
  induction rows generalizing s with
  | nil =>
    cases ran
    exact ⟨inv, rfl⟩
  | cons values rows ih =>
    rw [queryRows] at ran
    obtain ⟨next, fetched, ran⟩ := Option.bind_eq_some_iff.mp ran
    exact ih (fetchInode_allocated inv lawful.1 fetched).1 (lawful.2 next fetched) ran

/-- There is memory for the last row, and for no other row; and if there is another row, no column is known by name. -/
def OnlyLast (names : List Name) (blocks : ℕ → BlockEnv) (rows : List (List Value)) (s : QueryState) : Prop :=
  Provides (blocks 0) s.heap ∧
    (rows.length = 1 ∨
      ((names.drop s.i).any decodes = false ∧ ∀ j, 0 < j → j < rows.length → ¬Provides (blocks j) s.heap))

/-- If the loop returns an element and has taken only one, then it was for the last row. -/
theorem onlyLast_of_returned (inv : Invariant s.heap) (lawful : LawfulRows names blocks rows s) {ended : Bool}
    {s' : QueryState} (ran : queryRows .inode names blocks rows s = some (ended, s')) (nonempty : rows ≠ [])
    (returned : ∃ ptr, s'.ret = .inode ptr)
    (one : s'.heap.allocated.length = s.heap.allocated.length + 1) : OnlyLast names blocks rows s := by
  induction rows generalizing s with
  | nil => exact absurd rfl nonempty
  | cons values rows ih =>
    rw [queryRows] at ran
    obtain ⟨next, fetched, ran⟩ := Option.bind_eq_some_iff.mp ran
    obtain ⟨inv', taken⟩ := fetchInode_allocated inv lawful.1 fetched
    have lawful' := lawful.2 next fetched
    by_cases rest : rows = []
    · subst rest
      cases ran
      rcases taken with ⟨-, -, null, -⟩ | ⟨provides, -, -⟩
      · obtain ⟨ptr, some⟩ := returned
        rw [null] at some
        contradiction
      · exact ⟨provides, .inl rfl⟩
    · rcases taken with ⟨refused, unknown, -, same⟩ | ⟨-, -, length⟩
      · obtain ⟨provides, alone⟩ := ih inv' lawful' ran rest (by rw [same]; exact one)
        rw [same] at provides alone
        refine ⟨provides, .inr ⟨unknown, ?_⟩⟩
        intro j positive bound
        rw [List.length_cons] at bound
        by_cases here : j = rows.length
        · rw [here]
          exact refused
        · rcases alone with single | ⟨-, others⟩
          · omega
          · exact others j positive (by omega)
      · have later := (queryRows_allocated inv' lawful' ran).2 rest returned
        omega

/-- Columns that are not known by name change nothing. -/
theorem storeColumns_unknown {values : List Value} {i : ℕ} (unknown : (names.drop i).any decodes = false) :
    storeColumns {} ((names.zip values).drop i) = {} := by
  have columns : ∀ column ∈ (names.zip values).drop i, ∀ inode, storeColumn inode column.1 column.2 = inode := by
    intro column member inode
    rw [List.zip, List.drop_zipWith] at member
    have known := List.any_eq_false.mp unknown column.1 (List.of_mem_zip member).1
    simp only [decodes, Bool.or_eq_true, decide_eq_true_eq, not_or] at known
    obtain ⟨⟨⟨⟨⟨gid, ino⟩, mode⟩, size⟩, time⟩, uid⟩ := known
    simp only [storeColumn, gid, ino, mode, size, time, uid, if_false]
  rw [storeColumns]
  generalize (names.zip values).drop i = pairs at columns
  induction pairs with
  | nil => rfl
  | cons column rest ih =>
    rw [List.foldl_cons, columns column List.mem_cons_self]
    exact ih fun other member => columns other (List.mem_cons_of_mem _ member)

/-- If there is memory for the last row only, then what is decoded of it is returned. -/
theorem queryRows_of_onlyLast (inv : Invariant s.heap) (lawful : LawfulRows names blocks rows s)
    (only : OnlyLast names blocks rows s) {last : List Value} (ends : rows.getLast? = some last) :
    ∃ i ptr heap, queryRows .inode names blocks rows s = some (true, ⟨i, .inode ptr, heap⟩) ∧
      s.heap.live ptr = none ∧
      heap.live = Function.update s.heap.live ptr (some (storeColumns {} ((names.zip last).drop s.i))) := by
  induction rows generalizing s with
  | nil => contradiction
  | cons values rows ih =>
    obtain ⟨provides, alone⟩ := only
    rw [queryRows]
    cases rows with
    | nil =>
      cases ends
      rcases fetchInode_spec names values inv lawful.1 with ⟨refused, -⟩ | ⟨-, ptr, heap, fresh, -, live, ran⟩
      · exact absurd provides refused
      · exact ⟨_, ptr, heap, by rw [ran]; rfl, fresh, live⟩
    | cons next rows =>
      rcases alone with single | ⟨unknown, others⟩
      · simp at single
      · have refused := others (next :: rows).length (by simp) (by simp)
        rcases fetchInode_spec names values inv lawful.1 with ⟨-, ran⟩ | ⟨granted, -⟩
        · rw [unknown, if_neg Bool.false_ne_true] at ran
          have rest : names.drop (max s.i names.length) = [] := List.drop_eq_nil_of_le (le_max_right ..)
          have only : OnlyLast names blocks (next :: rows) ⟨max s.i names.length, .null, s.heap⟩ := by
            refine ⟨provides, .inr ⟨by rw [rest]; rfl, ?_⟩⟩
            intro j positive bound
            exact others j positive (Nat.lt_succ_of_lt bound)
          rw [List.getLast?_cons_cons] at ends
          obtain ⟨i, ptr, heap, ran', fresh, live⟩ :=
            ih (s := ⟨max s.i names.length, .null, s.heap⟩) inv (lawful.2 _ ran) only ends
          refine ⟨i, ptr, heap, by rw [ran]; exact ran', fresh, ?_⟩
          have later : (names.drop (max s.i names.length)).any decodes = false := by
            rw [rest]
            rfl
          rw [live, storeColumns_unknown unknown, storeColumns_unknown later]
        · exact absurd granted refused

end Rows

/-! ## The whole call -/

/-- The statement and the buffer are given back. `QUERY_INODE` leaves one new element, which it returns and which
decodes the last row; without a row it leaves nothing and returns `NULL`. -/
structure QueryOutcome.Handles (outcome : QueryOutcome) (kind : QueryKind) (names : List Name)
    (rows : List (List Value)) (heap : BlockHeap PkgInode) : Prop where
  finalized : outcome.statement = false
  freed : outcome.buffer = false
  record : kind = .inode → ∀ last, rows.getLast? = some last → ∃ ptr, outcome.ret = .inode ptr ∧
    heap.live ptr = none ∧
    outcome.heap.live = Function.update heap.live ptr (some (storeColumns {} (names.zip last)))
  nothing : kind = .inode → rows = [] → outcome.ret = .null ∧ outcome.heap = heap

/-- The call returns, and handles its rows. -/
def HandlesRows (kind : QueryKind) (names : List Name) (rows : List (List Value)) (blocks : ℕ → BlockEnv)
    (heap : BlockHeap PkgInode) : Prop :=
  ∃ outcome, dbQueryAs kind (some (names, rows)) blocks heap = some outcome ∧ outcome.Handles kind names rows heap

section Call

variable {names : List Name} {blocks : ℕ → BlockEnv} {heap : BlockHeap PkgInode}

theorem handlesRows_null (rows : List (List Value)) : HandlesRows .null names rows blocks heap ↔ rows = [] := by
  cases rows with
  | nil => exact iff_of_true ⟨_, rfl, rfl, rfl, nofun, nofun⟩ rfl
  | cons values rows =>
    refine iff_of_false ?_ nofun
    rintro ⟨_, ran, finalized, -⟩
    cases ran
    contradiction

theorem queryRows_char (names : List Name) (blocks : ℕ → BlockEnv) (rows : List (List Value)) (s : QueryState) :
    ∃ ret, queryRows .char names blocks rows s = some (true, { s with ret }) := by
  induction rows generalizing s with
  | nil => exact ⟨s.ret, rfl⟩
  | cons values rows ih => exact ih { s with ret := .char (values.headD .null) }

theorem handlesRows_int (rows : List (List Value)) : HandlesRows .int names rows blocks heap := by
  refine ⟨⟨if rows = [] then .null else .int (queryInt rows), false, false, heap⟩, ?_, rfl, rfl, nofun, nofun⟩
  rw [dbQueryAs, queryRows_int]
  rfl

theorem handlesRows_char (rows : List (List Value)) : HandlesRows .char names rows blocks heap := by
  obtain ⟨ret, ran⟩ := queryRows_char names blocks rows { heap }
  refine ⟨⟨ret, false, false, heap⟩, ?_, rfl, rfl, nofun, nofun⟩
  rw [dbQueryAs, ran]
  rfl

theorem handlesRows_inode (inv : Invariant heap) {rows : List (List Value)}
    (lawful : LawfulRows names blocks rows { heap }) :
    HandlesRows .inode names rows blocks heap ↔ (rows ≠ [] → OnlyLast names blocks rows { heap }) := by
  cases ends : rows.getLast? with
  | none =>
    rw [List.getLast?_eq_none_iff] at ends
    subst ends
    exact iff_of_true ⟨_, rfl, rfl, rfl, nofun, fun _ _ => ⟨rfl, rfl⟩⟩ fun nonempty => absurd rfl nonempty
  | some last =>
    have nonempty : rows ≠ [] := by
      rintro rfl
      contradiction
    rw [imp_iff_right nonempty]
    constructor
    · rintro ⟨outcome, ran, handles⟩
      obtain ⟨⟨ended, s'⟩, loop, left⟩ := Option.bind_eq_some_iff.mp ran
      obtain ⟨ptr, returned, fresh, live⟩ := handles.record rfl last ends
      obtain ⟨inv', same⟩ := queryRows_kept inv lawful loop
      subst same
      cases left
      exact onlyLast_of_returned inv lawful loop nonempty ⟨ptr, returned⟩
        (inv.length_allocated_add inv' fresh live)
    · intro only
      obtain ⟨i, ptr, after, ran, fresh, live⟩ := queryRows_of_onlyLast inv lawful only ends
      refine ⟨⟨.inode ptr, false, false, after⟩, ?_, rfl, rfl, ?_, fun _ empty => absurd empty nonempty⟩
      · rw [dbQueryAs, ran]
        rfl
      · rintro - other same
        cases ends.symm.trans same
        exact ⟨ptr, rfl, fresh, live⟩

/-- Which result sets each kind of query handles: `QUERY_NULL` the empty one; `QUERY_INT` and `QUERY_CHAR` all;
`QUERY_INODE` the empty one and those with memory for the last row alone. -/
theorem handlesRows_iff (inv : Invariant heap) {rows : List (List Value)}
    (lawful : LawfulRows names blocks rows { heap }) (kind : QueryKind) :
    HandlesRows kind names rows blocks heap ↔
      (kind = .null → rows = []) ∧ (kind = .inode → rows ≠ [] → OnlyLast names blocks rows { heap }) := by
  cases kind with
  | null => simp [handlesRows_null]
  | int => simp [handlesRows_int]
  | char => simp [handlesRows_char]
  | inode => simp [handlesRows_inode inv lawful]

end Call

/-- The row of the root directory, as `SELECT * FROM files` returns it. -/
def rootValuesRow : List Value := filesNames.map rootRow

/-- Without a block there is nothing to be unlawful. -/
theorem lawfulRows_small (names : List Name) (rows : List (List Value)) (s : QueryState) :
    LawfulRows names smallFuseEnv.inodeBlock rows s := by
  induction rows generalizing s with
  | nil => trivial
  | cons values rows ih => exact ⟨by simp [BlockEnv.Lawful, smallFuseEnv], fun next _ => ih next⟩

theorem handlesRows_root :
    HandlesRows .inode filesNames [rootValuesRow] smallFuseEnv.inodeBlock smallSession.state.inodeHeap := by
  refine (handlesRows_iff smallSession_sound.1.mounted.inodes (lawfulRows_small ..) .inode).mpr ⟨nofun, ?_⟩
  intro _ _
  exact ⟨.inl (by decide), .inl rfl⟩

/-- One row is too much for `QUERY_NULL`, and two are for `QUERY_INODE`. -/
theorem handlesRows_not :
    ¬HandlesRows .null filesNames [rootValuesRow] smallFuseEnv.inodeBlock smallSession.state.inodeHeap ∧
      ¬HandlesRows .inode filesNames [rootValuesRow, rootValuesRow] smallFuseEnv.inodeBlock
        smallSession.state.inodeHeap := by
  constructor
  · rw [handlesRows_null]
    nofun
  · rw [handlesRows_inode smallSession_sound.1.mounted.inodes (lawfulRows_small ..)]
    intro handles
    obtain ⟨-, single | ⟨unknown, -⟩⟩ := handles (List.cons_ne_nil _ _)
    · contradiction
    · exact absurd unknown (by decide)

end FsPkg.Vfs
