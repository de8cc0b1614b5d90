import FsPkg.Proofs.VfsFuseRuns

/-! # What `QUERY_INODE` decodes of a row of `files`

The decoder goes by the names of the columns. Three of the names that it knows, `uid`, `gid` and `time`, are not in
the schema, where the columns are called `owner`, `grp` and `ctime`; their fields keep the zero that the element was
handed out with.
-/

namespace FsPkg.Vfs

open Sql Db Balloc

/-- The low 32 bits of the number in a cell. -/
def lowWord (v : Value) : UInt32 :=
  (columnInt64 v).toUInt64.toUInt32

/-- Every field has the value of its column, cut off at the width of the field. -/
structure PkgInode.Decodes (inode : PkgInode) (row : Row) : Prop where
  ino : inode.stIno = lowWord (row "inode".toList)
  mode : inode.stMode = lowWord (row "mode".toList)
  size : inode.stSize = columnInt64 (row "size".toList)
  uid : inode.stUid = lowWord (row "owner".toList)
  gid : inode.stGid = lowWord (row "grp".toList)
  time : inode.stTime = columnInt64 (row "ctime".toList)

/-- `SELECT * FROM files WHERE inode = n`. -/
def selectKeyText (n : Int64) : String :=
  String.ofList ("SELECT * FROM files WHERE inode = ".toList ++ printNumber n.toInt)

/-- The query for a row's own inode returns a record that decodes the row. -/
def ReturnsDecoded (ok : Bool) (blocks : ℕ → BlockEnv) (st : State) (n : Int64) (row : Row) : Prop :=
  ∃ ptr st' inode, dbQueryInode (selectKeyText n) [] ok blocks st = some (some ptr, st') ∧
    st'.inodeHeap.live ptr = some inode ∧ inode.Decodes row

theorem columnInt_toUInt32 (v : Value) : (columnInt v).toUInt32 = lowWord v := by
  rw [columnInt, lowWord, ← UInt32.toBitVec_inj]
  exact BitVec.signExtend_eq_setWidth_of_le _ (by decide)

/-- The three fields that no column is decoded into. -/
theorem recordOf_eq (row : Row) : recordOf row =
    { stIno := lowWord (row "inode".toList), stMode := lowWord (row "mode".toList)
      stSize := columnInt64 (row "size".toList) } := by
  rw [← columnInt_toUInt32, ← columnInt_toUInt32]
  rfl

theorem recordOf_decodes_iff (row : Row) : (recordOf row).Decodes row ↔
    lowWord (row "owner".toList) = 0 ∧ lowWord (row "grp".toList) = 0 ∧ columnInt64 (row "ctime".toList) = 0 := by
  rw [recordOf_eq]
  constructor
  · rintro ⟨-, -, -, uid, gid, time⟩
    exact ⟨uid.symm, gid.symm, time.symm⟩
  · rintro ⟨uid, gid, time⟩
    exact ⟨rfl, rfl, rfl, uid.symm, gid.symm, time.symm⟩

theorem length_printNumber_le (n : Int64) : (printNumber n.toInt).length ≤ 20 := by
  have low := n.le_toInt
  have high := n.toInt_lt
  have digits : (Nat.toDigits 10 n.toInt.natAbs).length ≤ 19 := by
    rw [Nat.length_toDigits_le_iff (by decide) (by decide)]
    omega
  unfold printNumber
  split
  · rw [List.length_cons]
    omega
  · omega

theorem percent_not_mem_printNumber (n : ℤ) : '%' ∉ printNumber n := by
  have digits : '%' ∉ Nat.toDigits 10 n.natAbs := by
    intro member
    have digit := Nat.isDigit_of_mem_toDigits (by decide) (by decide) member
    exact absurd digit (by decide)
  unfold printNumber
  split
  · rw [List.mem_cons, not_or]
    exact ⟨by decide, digits⟩
  · exact digits

theorem text_selectKeyText (n : Int64) : vsnprintf sqlBufsize (selectKeyText n).toList [] =
    "SELECT * FROM files WHERE inode = ".toList ++ printNumber n.toInt := by
  have digits := length_printNumber_le n
  have short : ("SELECT * FROM files WHERE inode = ".toList).length = 34 := by
    rw [String.toList_ofList]
    rfl
  have plain : '%' ∉ "SELECT * FROM files WHERE inode = ".toList := by
    rw [String.toList_ofList]
    decide
  have text : vformat (selectKeyText n).toList [] =
      "SELECT * FROM files WHERE inode = ".toList ++ printNumber n.toInt := by
    have whole : (selectKeyText n).toList = "SELECT * FROM files WHERE inode = ".toList ++ printNumber n.toInt :=
      String.toList_ofList
    rw [whole]
    apply vformat_end
    rw [List.mem_append, not_or]
    exact ⟨plain, percent_not_mem_printNumber n.toInt⟩
  rw [vsnprintf_fits, text]
  rw [text, List.length_append, short, sqlBufsize]
  omega

theorem prepare_selectKeyText (n : Int64) : prepare (vsnprintf sqlBufsize (selectKeyText n).toList []) =
    some (.select none "files".toList (inodeIs n.toInt)) := by
  rw [text_selectKeyText]
  exact prepare_selectKey n

theorem inodeRow_of_mem {st : State} {f : Table} (table : FilesTable st.conn.view f) {row : Row} (member : row ∈ f.rows)
    {n : ℤ} (key : row "inode".toList = .int n) : inodeRow f n = some row := by
  have found : row ∈ f.rows.filter fun other => other "inode".toList = .int n :=
    List.mem_filter.mpr ⟨member, decide_eq_true key⟩
  rw [filter_key table.distinct] at found
  exact Option.mem_toList.mp found

section Decode

variable {st : State} {f : Table} {row : Row} {n : Int64} {blocks : ℕ → BlockEnv}

/-- The query for a row's own inode returns the record of that row. -/
theorem returnsDecoded_iff_record (table : FilesTable st.conn.view f) (inodes : Invariant st.inodeHeap)
    (lawful : (blocks 0).Lawful st.inodeHeap) (member : row ∈ f.rows) (key : row "inode".toList = .int n.toInt)
    (ok : Bool) :
    ReturnsDecoded ok blocks st n row ↔
      (recordOf row).Decodes row ∧ ok = true ∧ Provides (blocks 0) st.inodeHeap := by
  have found := inodeRow_of_mem table member key
  rcases dbQueryInode_spec ok st table inodes lawful (prepare_selectKeyText n) with
    ⟨missing, ran⟩ | ⟨_, -, refused, ran⟩ | ⟨other, ptr, heap, present, provides, ran, inv, -, live⟩
  · apply iff_of_false
    · rintro ⟨ptr, st', inode, returned, -⟩
      rw [ran] at returned
      cases returned
    · rintro ⟨-, rfl, -⟩
      exact absurd (found.symm.trans missing) nofun
  · refine iff_of_false ?_ fun condition => refused condition.2.2
    rintro ⟨ptr, st', inode, returned, -⟩
    rw [ran] at returned
    contradiction
  · cases ok with
    | false => exact absurd present nofun
    | true =>
      cases found.symm.trans present
      have record : heap.live ptr = some (recordOf row) := by rw [live, Function.update_self]
      constructor
      · rintro ⟨_, _, inode, returned, read, decodes⟩
        rw [ran] at returned
        cases returned
        cases record.symm.trans read
        exact ⟨decodes, rfl, provides⟩
      · rintro ⟨decodes, -, -⟩
        exact ⟨ptr, _, _, ran, record, decodes⟩

/-- A row is decoded exactly if its owner, its group and its time are zero in the width of their fields, the query can
be carried out and there is memory for the record. -/
theorem returnsDecoded_iff (table : FilesTable st.conn.view f) (inodes : Invariant st.inodeHeap)
    (lawful : (blocks 0).Lawful st.inodeHeap) (member : row ∈ f.rows) (key : row "inode".toList = .int n.toInt)
    (ok : Bool) :
    ReturnsDecoded ok blocks st n row ↔
      (lowWord (row "owner".toList) = 0 ∧ lowWord (row "grp".toList) = 0 ∧ columnInt64 (row "ctime".toList) = 0) ∧
        ok = true ∧ Provides (blocks 0) st.inodeHeap := by
  rw [returnsDecoded_iff_record table inodes lawful member key, recordOf_decodes_iff]

end Decode

/-- The root directory belongs to root, and has no time. -/
theorem returnsDecoded_root : ReturnsDecoded true smallFuseEnv.inodeBlock smallSession.state 1 rootRow := by
  have mounted := smallSession_sound.1.mounted
  refine (returnsDecoded_iff mounted.table mounted.inodes (smallFuseEnv_lawful _).inode (f := initialFiles)
    List.mem_cons_self (by decide) true).mpr ?_
  exact ⟨⟨by decide, by decide, by decide⟩, rfl, .inl (by decide)⟩

/-- A directory like the root, but of user 1000. -/
def ownedRow : Row := Function.update rootRow "owner".toList (.int 1000)

def ownedFiles : Table := { columns := filesColumns, rows := [ownedRow], seq := 1 }

/-- The session with that directory in the place of the root. -/
def ownedState : State :=
  { smallSession.state with conn := { committed := write (fun _ => none) initialPackages ownedFiles } }

theorem ownedState_table : FilesTable ownedState.conn.view ownedFiles where
  files := rfl
  columns := rfl
  keys row member := by
    rw [List.mem_singleton.mp member]
    exact ⟨1, by decide⟩
  distinct := List.nodup_singleton _

/-- The owner is lost. -/
theorem returnsDecoded_not_owned : ¬ReturnsDecoded true smallFuseEnv.inodeBlock ownedState 1 ownedRow := by
  rw [returnsDecoded_iff_record ownedState_table smallSession_sound.1.mounted.inodes (smallFuseEnv_lawful _).inode
    List.mem_cons_self (by decide), recordOf_decodes_iff]
  rintro ⟨⟨uid, -⟩, -⟩
  exact absurd uid (by decide)

end FsPkg.Vfs
