import FsPkg.Model.VfsFuse
import FsPkg.Proofs.BallocSpec
import FsPkg.Proofs.DbSqliteSpec

/-! # The lookup of an inode, and the handlers that make it

The text of the query reads as a selection by key, whatever the number and its sign. A key has at most one row, so
`db_query` allocates at most one record; each handler gives it back before it returns.
-/

namespace FsPkg.Vfs

open Sql Db Balloc

/-! ## The text of the query -/

theorem text_selectInode (n : Int32) : vsnprintf sqlBufsize selectInodeFmt.toList [.int n] =
    "SELECT * FROM files WHERE inode = ".toList ++ printInt n := by
  have split : selectInodeFmt.toList = "SELECT * FROM files WHERE inode = ".toList ++ ['%', 'd'] := by
    unfold selectInodeFmt
    rw [String.toList_ofList, String.toList_ofList]
    rfl
  have printed : vformat selectInodeFmt.toList [.int n] =
      "SELECT * FROM files WHERE inode = ".toList ++ printInt n := by
    rw [split, vformat_plain (by rw [String.toList_ofList]; decide), vformat_int, vformat, List.append_nil]
  have short := length_printInt_le n
  rw [vsnprintf_fits, printed]
  rw [printed, List.length_append, String.toList_ofList]
  simp only [List.length_cons, List.length_nil, sqlBufsize]
  omega

/-- The tokens in front of the number. -/
def selectInodeTokens : List Token :=
  [.word "select".toList, .sym '*', .word "from".toList, .word "files".toList, .word "where".toList,
    .word "inode".toList, .sym '=']

theorem reads_selectInode : Lexer.run {} "SELECT * FROM files WHERE inode = ".toList =
    some ⟨selectInodeTokens.reverse, .blank⟩ := by
  rw [String.toList_ofList]
  decide +kernel

/-- A minus sign in front of digits is a token of its own. -/
theorem run_dash (tokens : List Token) (n : ℕ) : Lexer.run ⟨tokens, .dash⟩ (Nat.toDigits 10 n) =
    Lexer.run ⟨.sym '-' :: tokens, .blank⟩ (Nat.toDigits 10 n) := by
  cases printed : Nat.toDigits 10 n with
  | nil => exact absurd printed Nat.toDigits_ne_nil
  | cons c rest =>
    have digit : c.isDigit = true := by
      apply Nat.isDigit_of_mem_toDigits (n := n) (b := 10) (by decide) (by decide)
      rw [printed]
      exact List.mem_cons_self
    have other : c ≠ '-' := by
      rintro rfl
      exact absurd digit (by decide)
    rw [Lexer.run_cons, Lexer.run_cons, Lexer.step_blank, Lexer.step, if_neg other]

/-- A number of any width in decimal. -/
def printNumber (n : ℤ) : List Char :=
  if n < 0 then '-' :: Nat.toDigits 10 n.natAbs else Nat.toDigits 10 n.natAbs

theorem printInt_eq (n : Int32) : printInt n = printNumber n.toInt := by
  have sign : n < 0 ↔ n.toInt < 0 := Int32.lt_iff_toInt_lt
  unfold printInt printNumber
  by_cases negative : n < 0
  · rw [if_pos negative, if_pos (sign.mp negative)]
  · rw [if_neg negative, if_neg (mt sign.mpr negative)]

theorem lex_selectKey (n : ℤ) : lex ("SELECT * FROM files WHERE inode = ".toList ++ printNumber n) =
    some (selectInodeTokens ++ if n < 0 then [.sym '-', .number n.natAbs] else [.number n.natAbs]) := by
  rw [lex, Lexer.run_append, reads_selectInode]
  unfold printNumber
  split
  · obtain ⟨acc, digits, value⟩ := Lexer.run_toDigits (.sym '-' :: selectInodeTokens.reverse) n.natAbs
    have dash : Lexer.run ⟨selectInodeTokens.reverse, .blank⟩ ('-' :: Nat.toDigits 10 n.natAbs) =
        some ⟨.sym '-' :: selectInodeTokens.reverse, .number acc⟩ := by
      rw [← digits, ← run_dash]
      rfl
    simp only [bind, Option.bind_some, dash, Lexer.finish, value]
    simp
  · obtain ⟨acc, digits, value⟩ := Lexer.run_toDigits selectInodeTokens.reverse n.natAbs
    simp only [bind, Option.bind_some, digits, Lexer.finish, value]
    simp

/-- The key is this number. -/
def inodeIs (n : ℤ) : Expr :=
  .eq (.column "inode".toList) (.value (.int n))

/-- What has a sign is read as one number, if it fits. -/
theorem expr_negative {m : ℕ} (small : m ≤ 2 ^ 63) :
    Parser.expr 5 [.word "inode".toList, .sym '=', .sym '-', .number m] = some (inodeIs (-m), []) := by
  change (((if m ≤ 2 ^ 63 then some (Expr.value (.int (-m)), ([] : List Token)) else none).bind _).bind _).bind _ = _
  rw [if_pos small]
  rfl

theorem parse_negative {m : ℕ} (small : m ≤ 2 ^ 63) :
    parse (selectInodeTokens ++ [.sym '-', .number m]) = some (.select none "files".toList (inodeIs (-m))) := by
  have clause : parse (selectInodeTokens ++ [.sym '-', .number m]) =
      ((Parser.expr 5 [.word "inode".toList, .sym '=', .sym '-', .number m]).bind fun read =>
        if read.2 = [] && Parser.isCondition read.1 then some read.1 else none).bind fun cond =>
          some (.select none "files".toList cond) := rfl
  rw [clause, expr_negative small]
  rfl

/-- Every number of 64 bits is read back from its text. -/
theorem prepare_selectKey (n : Int64) :
    prepare ("SELECT * FROM files WHERE inode = ".toList ++ printNumber n.toInt) =
      some (.select none "files".toList (inodeIs n.toInt)) := by
  have low := n.le_toInt
  have high := n.toInt_lt
  rw [prepare, lex_selectKey, Option.bind_some]
  by_cases negative : n.toInt < 0
  · have value : n.toInt = -(n.toInt.natAbs : ℤ) := by omega
    have small : n.toInt.natAbs ≤ 2 ^ 63 := by omega
    rw [if_pos negative, parse_negative small, ← value]
  · have value : n.toInt = (n.toInt.natAbs : ℤ) := by omega
    have fits : numeral n.toInt.natAbs = .int n.toInt.natAbs := if_pos (by omega)
    rw [if_neg negative, inodeIs, value, ← fits]
    rfl

theorem prepare_selectInode (n : Int32) : prepare (vsnprintf sqlBufsize selectInodeFmt.toList [.int n]) =
    some (.select none "files".toList (inodeIs n.toInt)) := by
  rw [text_selectInode, printInt_eq, ← Int32.toInt_toInt64]
  exact prepare_selectKey n.toInt64

/-! ## The row of an inode -/

/-- The `files` table. Its key is an integer in every row, and no two rows share it. -/
structure FilesTable (db : Database) (f : Table) : Prop where
  files : db "files".toList = some f
  columns : f.columns = filesColumns
  keys : ∀ row ∈ f.rows, ∃ n : ℤ, row "inode".toList = .int n
  distinct : (f.rows.map fun row => row "inode".toList).Nodup

/-- The row with this key. -/
def inodeRow (f : Table) (n : ℤ) : Option Row :=
  f.rows.find? fun row => row "inode".toList = .int n

section Row

variable {db : Database} {f : Table} {c : Conn}

theorem holds_inodeIs (columns : f.columns = filesColumns) {row : Row} {m : ℤ} (key : row "inode".toList = .int m)
    (n : ℤ) : (inodeIs n).holds db f row = decide (row "inode".toList = .int n) := by
  have affinity : f.affinity "inode".toList = some .integer := by
    rw [Table.affinity, Table.column, columns]
    rfl
  have evaluated : (inodeIs n).eval db f row =
      .ofBool (compareWith (some .integer, row "inode".toList) (none, .int n)) := by
    rw [← affinity]
    rfl
  have compared : compareWith (some .integer, .int m) (none, .int n) =
      some (decide ((.int m : Value) = .int n)) := rfl
  rw [Expr.holds, evaluated, truth_ofBool, key, compared, decide_eq_decide, Option.some_inj, decide_eq_true_iff]

/-- With distinct keys, a selection by key is a search. -/
theorem filter_key {α κ : Type} [DecidableEq κ] {key : α → κ} {rows : List α} (distinct : (rows.map key).Nodup)
    (k : κ) : rows.filter (fun row => key row = k) = (rows.find? fun row => key row = k).toList := by
  induction rows with
  | nil => rfl
  | cons row rest ih =>
    obtain ⟨fresh, tail⟩ := List.nodup_cons.mp distinct
    by_cases here : key row = k
    · have others : rest.filter (fun other => key other = k) = [] := by
        rw [List.filter_eq_nil_iff]
        intro other member
        rw [decide_eq_true_iff]
        intro same
        exact fresh (here.trans same.symm ▸ List.mem_map_of_mem member)
      rw [List.filter_cons_of_pos (by simpa using here), List.find?_cons_of_pos (by simpa using here), others]
      rfl
    · rw [List.filter_cons_of_neg (by simpa using here), List.find?_cons_of_neg (by simpa using here), ih tail]

/-- The names of the columns of `files`. -/
def filesNames : List Name :=
  filesColumns.map Column.name

/-- A selection by key finds at most one row. -/
theorem selectKey_spec (table : FilesTable c.view f) {fmt : String} {args : List Arg} {n : ℤ}
    (prepared : prepare (vsnprintf sqlBufsize fmt.toList args) = some (.select none "files".toList (inodeIs n))) :
    dbQuery fmt args .done c = ((inodeRow f n).toList.map fun row => filesNames.map row, c) := by
  have resolves : (inodeIs n).resolves c.view f := by
    simp only [inodeIs, Expr.resolves, Table.column, table.columns]
    rfl
  have known : filesNames.all fun name => (f.column name).isSome := by
    simp only [Table.column, table.columns]
    decide
  have picked : f.rows.filter (fun row => (inodeIs n).holds c.view f row) = (inodeRow f n).toList := by
    rw [inodeRow, ← filter_key table.distinct]
    apply List.filter_congr
    intro row member
    obtain ⟨m, key⟩ := table.keys row member
    exact holds_inodeIs table.columns key n
  have ran : Sql.exec c.view (.select none "files".toList (inodeIs n)) =
      some (c.view, (inodeRow f n).toList.map fun row => filesNames.map row) := by
    rw [Sql.exec, table.files, ← picked, filesNames, ← table.columns]
    rw [filesNames, ← table.columns] at known
    exact if_pos (Bool.and_eq_true_iff.mpr ⟨resolves, known⟩)
  rw [dbQuery_data prepared ran, setView_self]

end Row

/-! ## The record of an inode -/

/-- An element is free, or a block for more of them can be had. -/
def Provides (os : BlockEnv) {β : Type} (bh : BlockHeap β) : Prop :=
  bh.freeElems ≠ 0 ∨ os.Succeeds

instance (os : BlockEnv) {β : Type} (bh : BlockHeap β) : Decidable (Provides os bh) :=
  inferInstanceAs (Decidable (_ ∨ _))

/-- The system answers lawfully. -/
structure FuseEnv.Lawful (env : FuseEnv) (st : State) : Prop where
  inode : (env.inodeBlock 0).Lawful st.inodeHeap
  handle : env.handleBlock.Lawful st.handleHeap

/-- What the handlers find. -/
structure Mounted (st : State) (f : Table) : Prop where
  table : FilesTable st.conn.view f
  inodes : Invariant st.inodeHeap
  handles : Invariant st.handleHeap

/-- The row with this key, if the query can be carried out. -/
def selected (ok : Bool) (f : Table) (n : ℤ) : Option Row :=
  if ok then inodeRow f n else none

/-- The row a handler finds for a number. -/
def lookup (env : FuseEnv) (f : Table) (ino : Ino) : Option Row :=
  if env.query then inodeRow f (printedIno ino).toInt else none

/-- The record `db_query` makes of a row. -/
def recordOf (row : Row) : PkgInode :=
  storeColumns {} (filesNames.zip (filesNames.map row))

section Record

variable {env : FuseEnv} {st : State} {f : Table}

section Selection

variable {fmt : String} {args : List Arg} {n : ℤ}

/-- The loop runs over the row that was found, if any. -/
theorem dbQueryInode_eq (ok : Bool) (blocks : ℕ → BlockEnv) (st : State) (table : FilesTable st.conn.view f)
    (prepared : prepare (vsnprintf sqlBufsize fmt.toList args) = some (.select none "files".toList (inodeIs n))) :
    dbQueryInode fmt args ok blocks st =
      (queryInode filesNames blocks ((selected ok f n).toList.map fun row => filesNames.map row) 0 none
        st.inodeHeap).map fun found => (found.1, { st with inodeHeap := found.2 }) := by
  have names : ((prepare (vsnprintf sqlBufsize fmt.toList args)).map
      (·.columnNames fun table => ((st.conn.view table).map fun t => t.columns.map Column.name).getD [])).getD [] =
        filesNames := by
    rw [prepared, Option.map_some, Option.getD_some, Statement.columnNames, Option.getD_none,
      table.files, Option.map_some, Option.getD_some, table.columns, filesNames]
  have queried : dbQuery fmt args (if ok then .done else .failed) st.conn =
      ((selected ok f n).toList.map fun row => filesNames.map row, st.conn) := by
    cases ok with
    | true => rw [if_pos rfl, selectKey_spec table prepared, selected, if_pos rfl]
    | false => exact dbQuery_failed fmt args
  simp only [dbQueryInode, names, queried]
  cases queryInode filesNames blocks ((selected ok f n).toList.map fun row => filesNames.map row) 0 none
    st.inodeHeap <;> rfl

/-- The three outcomes of the query: nothing, a store through `NULL`, or a new record. -/
theorem dbQueryInode_spec (ok : Bool) {blocks : ℕ → BlockEnv} (st : State) (table : FilesTable st.conn.view f)
    (inodes : Invariant st.inodeHeap) (lawful : (blocks 0).Lawful st.inodeHeap)
    (prepared : prepare (vsnprintf sqlBufsize fmt.toList args) = some (.select none "files".toList (inodeIs n))) :
    (selected ok f n = none ∧ dbQueryInode fmt args ok blocks st = some (none, st)) ∨
    (∃ row, selected ok f n = some row ∧ ¬Provides (blocks 0) st.inodeHeap ∧
      dbQueryInode fmt args ok blocks st = none) ∨
    ∃ row ptr heap, selected ok f n = some row ∧ Provides (blocks 0) st.inodeHeap ∧
      dbQueryInode fmt args ok blocks st = some (some ptr, { st with inodeHeap := heap }) ∧
      Invariant heap ∧ st.inodeHeap.live ptr = none ∧
      heap.live = Function.update st.inodeHeap.live ptr (some (recordOf row)) := by
  rw [dbQueryInode_eq ok blocks st table prepared]
  cases selected ok f n with
  | none => exact .inl ⟨rfl, rfl⟩
  | some row =>
    refine .inr ?_
    rcases inodes.alloc_spec lawful with
      ⟨full, refused, alloc⟩ | ⟨ptr, heap, provides, alloc, inv, -, -, fresh, live, -⟩
    · refine .inl ⟨row, rfl, not_or.mpr ⟨not_not.mpr full, refused⟩, ?_⟩
      have decoded : filesNames.any decodes = true := by decide
      simp only [Option.toList_some, List.map_cons, List.map_nil, queryInode, bind, List.length_nil, alloc,
        Option.bind_some, List.drop_zero, decoded, if_true, Option.map_none]
    · have zeroed : heap.read ptr = some {} := by
        apply inv.read_of_live
        rw [live, Function.update_self]
        rfl
      obtain ⟨filled, wrote, inv', live'⟩ := inv.store_spec live (recordOf row)
      refine .inr ⟨row, ptr, filled, rfl, provides, ?_, inv', fresh, live'⟩
      simp only [Option.toList_some, List.map_cons, List.map_nil, queryInode, bind, List.length_nil, alloc,
        Option.bind_some, zeroed, List.drop_zero]
      rw [← recordOf, wrote]
      rfl

end Selection

/-- The query of the handlers. -/
theorem lookup_spec (st : State) (table : FilesTable st.conn.view f) (inodes : Invariant st.inodeHeap)
    (lawful : (env.inodeBlock 0).Lawful st.inodeHeap) (ino : Ino) :
    (lookup env f ino = none ∧
      dbQueryInode selectInodeFmt [.int (printedIno ino)] env.query env.inodeBlock st = some (none, st)) ∨
    (∃ row, lookup env f ino = some row ∧ ¬Provides (env.inodeBlock 0) st.inodeHeap ∧
      dbQueryInode selectInodeFmt [.int (printedIno ino)] env.query env.inodeBlock st = none) ∨
    ∃ row ptr heap, lookup env f ino = some row ∧ Provides (env.inodeBlock 0) st.inodeHeap ∧
      dbQueryInode selectInodeFmt [.int (printedIno ino)] env.query env.inodeBlock st =
        some (some ptr, { st with inodeHeap := heap }) ∧
      Invariant heap ∧ st.inodeHeap.live ptr = none ∧
      heap.live = Function.update st.inodeHeap.live ptr (some (recordOf row)) :=
  dbQueryInode_spec env.query st table inodes lawful (prepare_selectInode (printedIno ino))

/-- What `vfs_fuse_getattr` fills in, over what was on the stack. -/
def attrOf (stack : Stat) (ino : Ino) (inode : PkgInode) : Stat :=
  { stack with
    stIno := ino, stMode := inode.stMode, stSize := inode.stSize, stUid := inode.stUid, stGid := inode.stGid }

/-- `vfs_fuse_getattr` replies once, if it returns at all. -/
theorem vfsFuseGetattr_spec (mounted : Mounted st f) (lawful : env.Lawful st) (ino : Ino) (fi : Option FileInfo) :
    (lookup env f ino = none ∧ vfsFuseGetattr ino fi env st =
      some ([if env.stack.stIno ≠ 0 then fuseReplyAttr env.stack else .err enoent], st)) ∨
    (∃ row, lookup env f ino = some row ∧ ¬Provides (env.inodeBlock 0) st.inodeHeap ∧
      vfsFuseGetattr ino fi env st = none) ∨
    ∃ row heap, lookup env f ino = some row ∧ Provides (env.inodeBlock 0) st.inodeHeap ∧
      vfsFuseGetattr ino fi env st =
        some ([if ino ≠ 0 then fuseReplyAttr (attrOf env.stack ino (recordOf row)) else .err enoent],
          { st with inodeHeap := heap }) ∧
      Invariant heap ∧ heap.live = st.inodeHeap.live := by
  rcases lookup_spec st mounted.table mounted.inodes lawful.inode ino with
    ⟨absent, ran⟩ | ⟨row, present, refused, ran⟩ | ⟨row, ptr, filled, present, provides, ran, inv, fresh, live⟩
  · refine .inl ⟨absent, ?_⟩
    rw [vfsFuseGetattr, ran]
    rfl
  · refine .inr (.inl ⟨row, present, refused, ?_⟩)
    rw [vfsFuseGetattr, ran]
    rfl
  · obtain ⟨heap, freed, inv', live'⟩ := inv.give_back fresh live
    have read : filled.read ptr = some (recordOf row) := inv.read_of_live (by rw [live, Function.update_self])
    refine .inr (.inr ⟨row, heap, present, provides, ?_, inv', live'⟩)
    simp only [vfsFuseGetattr, ran, bind, Option.bind_some, read, freed, attrOf]

theorem logicalNot_and_oCreat (flags : Int32) : logicalNot flags &&& oCreat = 0 := by
  unfold logicalNot
  split
  · decide
  · decide

/-- What is left of a heap that was asked for one element. -/
structure Taken {β : Type} (os : BlockEnv) (bh heap : BlockHeap β) : Prop where
  invariant : Invariant heap
  length : heap.allocated.length = bh.allocated.length + if Provides os bh then 1 else 0

theorem blockheapAlloc_taken {β : Type} [Zeros β] {os : BlockEnv} {bh : BlockHeap β} (inv : Invariant bh)
    (lawful : os.Lawful bh) :
    ∃ result, blockheapAlloc bh os = some result ∧ Taken os bh result.heap := by
  rcases inv.alloc_spec lawful with
    ⟨full, refused, alloc⟩ | ⟨ptr, heap, provides, alloc, inv', -, -, fresh, live, -⟩
  · have cannot : ¬Provides os bh := not_or.mpr ⟨not_not.mpr full, refused⟩
    refine ⟨_, alloc, inv, ?_⟩
    rw [if_neg cannot, add_zero]
  · refine ⟨_, alloc, inv', ?_⟩
    rw [if_pos (show Provides os bh from provides)]
    exact inv.length_allocated_add inv' fresh live

/-- `vfs_fuse_open` takes a handle in any case. If there is no row it replies twice. -/
theorem vfsFuseOpen_spec (mounted : Mounted st f) (lawful : env.Lawful st) (ino : Ino) (fi : FileInfo) :
    ∃ fh handles, Taken env.handleBlock st.handleHeap handles ∧
      ((lookup env f ino = none ∧ vfsFuseOpen ino fi env st =
        some ([.err erofs, .open_ { fi with fh }], { st with handleHeap := handles })) ∨
      (∃ row, lookup env f ino = some row ∧ ¬Provides (env.inodeBlock 0) st.inodeHeap ∧
        vfsFuseOpen ino fi env st = none) ∨
      ∃ row heap, lookup env f ino = some row ∧ Provides (env.inodeBlock 0) st.inodeHeap ∧
        vfsFuseOpen ino fi env st =
          some ([.open_ { fi with fh }], { st with inodeHeap := heap, handleHeap := handles }) ∧
        Invariant heap ∧ heap.live = st.inodeHeap.live) := by
  obtain ⟨result, alloc, taken⟩ := blockheapAlloc_taken mounted.handles lawful.handle
  refine ⟨result.ptr, result.heap, taken, ?_⟩
  rcases lookup_spec { st with handleHeap := result.heap } mounted.table mounted.inodes lawful.inode ino with
    ⟨absent, ran⟩ | ⟨row, present, refused, ran⟩ | ⟨row, ptr, filled, present, provides, ran, inv, fresh, live⟩
  · refine .inl ⟨absent, ?_⟩
    simp only [vfsFuseOpen, bind, alloc, Option.bind_some, ran, logicalNot_and_oCreat]
    rfl
  · refine .inr (.inl ⟨row, present, refused, ?_⟩)
    simp only [vfsFuseOpen, bind, alloc, Option.bind_some, ran, Option.bind_none]
  · obtain ⟨heap, freed, inv', live'⟩ := inv.give_back fresh live
    refine .inr (.inr ⟨row, heap, present, provides, ?_, inv', live'⟩)
    simp only [vfsFuseOpen, bind, alloc, Option.bind_some, ran, freed]
    rfl

end Record

end FsPkg.Vfs
