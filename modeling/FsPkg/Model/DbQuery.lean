import FsPkg.Model.VfsFuse

/-! # `db_query` over the rows of a result set

What the statement returns is given as the names of its columns and its rows. Beside the result, the model keeps what
the call has taken and not given back: the prepared statement, the text buffer and the elements of `inode_heap`. The
buffer is taken to be there; `mem_alloc` does not survive if it is not.
-/

namespace FsPkg.Vfs

open Balloc Sql Db

/-- `enum db_query_res_type`. -/
inductive QueryKind where
  | null
  | int
  | char
  | inode
deriving DecidableEq, Repr

/-- What is returned; `char` is the text of a cell. -/
inductive QueryRet where
  | null
  | int (n : Int32)
  | char (cell : Value)
  | inode (ptr : MemBlock)
deriving DecidableEq, Repr

/-- `i`, `ret` and `inode_heap` in the loop over the rows. -/
structure QueryState where
  i : ℕ := 0
  ret : QueryRet := .null
  heap : BlockHeap PkgInode

/-- The case `QUERY_INODE` of the switch. -/
def fetchInode (names : List Name) (os : BlockEnv) (values : List Value) (s : QueryState) : Option QueryState := do
  let result ← blockheapAlloc s.heap os
  match result.ptr with
  | none =>
    -- a column that is known by name is stored through `NULL`
    if (names.drop s.i).any decodes then none
    else some { i := max s.i names.length, ret := .null, heap := result.heap }
  | some ptr => do
    let inode ← result.heap.read ptr
    let heap ← result.heap.write ptr (storeColumns inode ((names.zip values).drop s.i))
    some { i := max s.i names.length, ret := .inode ptr, heap }

/-- The loop over the rows, and whether it came to its end: `QUERY_NULL` returns at the first row. -/
def queryRows (kind : QueryKind) (names : List Name) (blocks : ℕ → BlockEnv) :
    List (List Value) → QueryState → Option (Bool × QueryState)
  | [], s => some (true, s)
  | values :: rows, s =>
    match kind with
    | .null => some (false, s)
    | .int => queryRows kind names blocks rows { s with ret := .int (columnInt (values.headD .null)) }
    | .char => queryRows kind names blocks rows { s with ret := .char (values.headD .null) }
    | .inode => do
      let s ← fetchInode names (blocks rows.length) values s
      queryRows kind names blocks rows s

/-- What `db_query` returns, whether it leaves the statement and the buffer behind, and `inode_heap`. -/
structure QueryOutcome where
  ret : QueryRet
  statement : Bool
  buffer : Bool
  heap : BlockHeap PkgInode

/-- `db_query` behind `sqlite3_prepare_v2`, which sets `i` to zero when it succeeds. -/
def dbQueryAs (kind : QueryKind) (prepared : Option (List Name × List (List Value))) (blocks : ℕ → BlockEnv)
    (heap : BlockHeap PkgInode) : Option QueryOutcome :=
  match prepared with
  | none => some { ret := .null, statement := false, buffer := false, heap }
  | some (names, rows) => do
    let (ended, s) ← queryRows kind names blocks rows { heap }
    if ended then some { ret := s.ret, statement := false, buffer := false, heap := s.heap }
    else some { ret := .null, statement := true, buffer := true, heap := s.heap }

end FsPkg.Vfs
