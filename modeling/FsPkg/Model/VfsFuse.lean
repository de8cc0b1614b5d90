import FsPkg.Model.Balloc
import FsPkg.Model.DbSqlite
import FsPkg.Model.VfsPath

/-! # The FUSE handlers of `vfs_pkg.h` and `vfs_spill.h`

A handler gets a request and answers it through the `fuse_reply_*` functions; here it returns the replies it makes,
in their order. `vfs_fuse_ops` is the table of the handlers, one request for each. Only `vfs_fuse_open` and
`vfs_fuse_getattr` look into the database. They get the row as a record from `inode_heap`, filled in by `db_query`
column by column.
-/

namespace FsPkg.Vfs

open Balloc Sql Db
open Pkg (Text)

/-- `fuse_ino_t`. -/
abbrev Ino := UInt64

/-- `pkg_inode_t`. -/
structure PkgInode where
  stIno : UInt32 := 0
  stMode : UInt32 := 0
  stSize : Int64 := 0
  stOff : Int64 := 0
  stUid : UInt32 := 0
  stGid : UInt32 := 0
  stTime : Int64 := 0
deriving DecidableEq, Repr

instance : Zeros PkgInode where
  zeros _ := {}

/-- `struct timespec`. -/
structure Timespec where
  tvSec : Int64 := 0
  tvNsec : Int64 := 0
deriving DecidableEq, Repr

/-- `struct stat`. -/
structure Stat where
  stDev : UInt64 := 0
  stIno : Ino := 0
  stMode : UInt32 := 0
  stNlink : UInt64 := 0
  stUid : UInt32 := 0
  stGid : UInt32 := 0
  stRdev : UInt64 := 0
  stSize : Int64 := 0
  stBlksize : Int64 := 0
  stBlocks : Int64 := 0
  stAtim : Timespec := {}
  stMtim : Timespec := {}
  stCtim : Timespec := {}
deriving DecidableEq, Repr

/-- `struct fuse_attr`. -/
structure FuseAttr where
  ino : UInt64
  size : UInt64
  blocks : UInt64
  atime : UInt64
  mtime : UInt64
  ctime : UInt64
  atimensec : UInt32
  mtimensec : UInt32
  ctimensec : UInt32
  mode : UInt32
  nlink : UInt32
  uid : UInt32
  gid : UInt32
  rdev : UInt32
  blksize : UInt32
deriving DecidableEq, Repr

/-- `convert_stat`. -/
def convertStat (sb : Stat) : FuseAttr where
  ino := sb.stIno
  mode := sb.stMode
  nlink := sb.stNlink.toUInt32
  uid := sb.stUid
  gid := sb.stGid
  rdev := sb.stRdev.toUInt32
  size := sb.stSize.toUInt64
  blksize := sb.stBlksize.toUInt64.toUInt32
  blocks := sb.stBlocks.toUInt64
  atime := sb.stAtim.tvSec.toUInt64
  mtime := sb.stMtim.tvSec.toUInt64
  ctime := sb.stCtim.tvSec.toUInt64
  atimensec := sb.stAtim.tvNsec.toUInt64.toUInt32
  mtimensec := sb.stMtim.tvNsec.toUInt64.toUInt32
  ctimensec := sb.stCtim.tvNsec.toUInt64.toUInt32

/-- `struct fuse_file_info`: the flags of the open and the handle. -/
structure FileInfo where
  flags : Int32
  fh : Option MemBlock := none
deriving DecidableEq, Repr

/-- `fuse_reply_err`, `fuse_reply_attr` and `fuse_reply_open`, with what is sent; the timeout of attributes is zero. -/
inductive Reply where
  | err (errno : Int32)
  | attr (attr : FuseAttr)
  | open_ (fi : FileInfo)
deriving DecidableEq, Repr

def enoent : Int32 := 2

def ebadf : Int32 := 9

def erofs : Int32 := 30

def enosys : Int32 := 38

def enotsup : Int32 := 95

/-- `O_CREAT`. -/
def oCreat : Int32 := 0o100

/-- The database connection, `inode_heap` and `vfs_handle_heap`. Nothing is ever stored in a handle. -/
structure State where
  conn : Conn
  inodeHeap : BlockHeap PkgInode
  handleHeap : BlockHeap (List UInt8)

/-! ## `QUERY_INODE` -/

/-- The fields that `db_query` knows by name. -/
def decodes (colname : Name) : Bool :=
  colname = "gid".toList || colname = "inode".toList || colname = "mode".toList || colname = "size".toList ||
    colname = "time".toList || colname = "uid".toList

/-- One column of the row. -/
def storeColumn (inode : PkgInode) (colname : Name) (v : Value) : PkgInode :=
  if colname = "gid".toList then { inode with stGid := (columnInt64 v).toUInt64.toUInt32 }
  else if colname = "inode".toList then { inode with stIno := (columnInt v).toUInt32 }
  else if colname = "mode".toList then { inode with stMode := (columnInt v).toUInt32 }
  else if colname = "size".toList then { inode with stSize := columnInt64 v }
  else if colname = "time".toList then { inode with stTime := columnInt64 v }
  else if colname = "uid".toList then { inode with stUid := (columnInt64 v).toUInt64.toUInt32 }
  else inode

def storeColumns (inode : PkgInode) (columns : List (Name × Value)) : PkgInode :=
  columns.foldl (fun inode column => storeColumn inode column.1 column.2) inode

/-- The loop over the rows. Every row gets a record of its own; `i` is not set back, so only the columns of the first
row are stored. A column that is known by name is stored through `NULL` if there is no record. -/
def queryInode (names : List Name) (blocks : ℕ → BlockEnv) : List (List Value) → ℕ → Option MemBlock →
    BlockHeap PkgInode → Option (Option MemBlock × BlockHeap PkgInode)
  | [], _, ret, heap => some (ret, heap)
  | values :: rows, i, _, heap => do
    let result ← blockheapAlloc heap (blocks rows.length)
    match result.ptr with
    | none =>
      if (names.drop i).any decodes then none
      else queryInode names blocks rows (max i names.length) none result.heap
    | some ptr => do
      let inode ← result.heap.read ptr
      let heap ← result.heap.write ptr (storeColumns inode ((names.zip values).drop i))
      queryInode names blocks rows (max i names.length) (some ptr) heap

/-- `db_query` with `QUERY_INODE`. -/
def dbQueryInode (fmt : String) (args : List Arg) (ok : Bool) (blocks : ℕ → BlockEnv) (st : State) :
    Option (Option MemBlock × State) := do
  let columnsOf (table : Name) : List Name := ((st.conn.view table).map fun t => t.columns.map Column.name).getD []
  let names := ((prepare (vsnprintf sqlBufsize fmt.toList args)).map (·.columnNames columnsOf)).getD []
  let (rows, conn) := dbQuery fmt args (if ok then .done else .failed) st.conn
  let (ret, inodeHeap) ← queryInode names blocks rows 0 none st.inodeHeap
  some (ret, { st with conn, inodeHeap })

/-- The query of both handlers. -/
def selectInodeFmt : String := "SELECT * FROM files WHERE inode = %d"

/-! ## The handlers that look something up -/

/-- What a handler meets: whether the query can be carried out (where no transaction is open, it makes no difference
how it fails), the memory for records and for a handle, and what is on the stack where `vfs_fuse_getattr` has its
`struct stat`. -/
structure FuseEnv where
  query : Bool := true
  inodeBlock : ℕ → BlockEnv
  handleBlock : BlockEnv
  stack : Stat

/-- `(u_int32_t) ino`, as `%d` prints it. -/
def printedIno (ino : Ino) : Int32 :=
  ino.toUInt32.toInt32

/-- `fuse_reply_attr`. -/
def fuseReplyAttr (sb : Stat) : Reply :=
  .attr (convertStat sb)

/-- `vfs_fuse_getattr`; what a record does not fill in of `sb` is what was on the stack. -/
def vfsFuseGetattr (ino : Ino) (_fi : Option FileInfo) (env : FuseEnv) (st : State) : Option (List Reply × State) := do
  let (i, st) ← dbQueryInode selectInodeFmt [.int (printedIno ino)] env.query env.inodeBlock st
  match i with
  | none => some ([if env.stack.stIno ≠ 0 then fuseReplyAttr env.stack else .err enoent], st)
  | some i => do
    let inode ← st.inodeHeap.read i
    let sb : Stat :=
      { env.stack with
        stIno := ino, stMode := inode.stMode, stSize := inode.stSize, stUid := inode.stUid, stGid := inode.stGid }
    let (_, inodeHeap) ← blockheapFree st.inodeHeap (some i)
    some ([if sb.stIno ≠ 0 then fuseReplyAttr sb else .err enoent], { st with inodeHeap })

/-- `!flags`. -/
def logicalNot (flags : Int32) : Int32 :=
  if flags = 0 then 1 else 0

/-- `vfs_fuse_open`. The negation binds tighter than the conjunction. -/
def vfsFuseOpen (ino : Ino) (fi : FileInfo) (env : FuseEnv) (st : State) : Option (List Reply × State) := do
  let fh ← blockheapAlloc st.handleHeap env.handleBlock
  let fi := { fi with fh := fh.ptr }
  let (i, st) ← dbQueryInode selectInodeFmt [.int (printedIno ino)] env.query env.inodeBlock
    { st with handleHeap := fh.heap }
  let refusals : List Reply :=
    if i = none then
      if logicalNot fi.flags &&& oCreat ≠ 0 then [.err enoent] else [.err erofs]
    else []
  let (_, inodeHeap) ← blockheapFree st.inodeHeap i
  some (refusals ++ [.open_ fi], { st with inodeHeap })

/-! ## The handlers that answer at once -/

/-- A handler that makes one `fuse_reply_err`. -/
def replyErr (errno : Int32) (st : State) : Option (List Reply × State) :=
  some ([.err errno], st)

def vfsFuseAccess (_ino : Ino) (_mask : Int32) := replyErr 0

def vfsFuseReadlink (_ino : Ino) := replyErr enosys

def vfsFuseOpendir (_ino : Ino) (_fi : FileInfo) := replyErr enoent

def vfsFuseReaddir (_ino : Ino) (_size : UInt64) (_off : Int64) (_fi : FileInfo) := replyErr enoent

def vfsFuseReleasedir (_ino : Ino) (_fi : FileInfo) := replyErr enoent

def vfsFuseRelease (_ino : Ino) (_fi : FileInfo) := replyErr 0

def vfsFuseRead (_ino : Ino) (_size : UInt64) (_off : Int64) (_fi : FileInfo) := replyErr ebadf

def vfsFuseStatfs (_ino : Ino) := replyErr enosys

def vfsFuseGetxattr (_ino : Ino) (_name : Text) (_size : UInt64) := replyErr enotsup

def vfsFuseListxattr (_ino : Ino) (_size : UInt64) := replyErr enotsup

def vfsFuseLookup (_parent : Ino) (_name : Text) := replyErr enoent

def vfsFuseMknod (_ino : Ino) (_name : Text) (_mode : UInt32) (_rdev : UInt64) := replyErr erofs

def vfsFuseMkdir (_ino : Ino) (_name : Text) (_mode : UInt32) := replyErr erofs

def vfsFuseSymlink (_link : Text) (_parent : Ino) (_name : Text) := replyErr erofs

def vfsFuseUnlink (_ino : Ino) (_name : Text) := replyErr erofs

def vfsFuseRmdir (_ino : Ino) (_name : Text) := replyErr erofs

def vfsFuseRename (_parent : Ino) (_name : Text) (_newparent : Ino) (_newname : Text) := replyErr erofs

def vfsFuseLink (_ino _newparent : Ino) (_newname : Text) := replyErr erofs

def vfsFuseWrite (_ino : Ino) (_buf : List UInt8) (_size : UInt64) (_off : Int64) (_fi : FileInfo) := replyErr erofs

def vfsFuseSetxattr (_ino : Ino) (_name : Text) (_value : List UInt8) (_size : UInt64) (_flags : Int32) :=
  replyErr enotsup

def vfsFuseRemovexattr (_ino : Ino) (_name : Text) := replyErr enotsup

def vfsFuseCreate (_ino : Ino) (_name : Text) (_mode : UInt32) (_fi : FileInfo) := replyErr erofs

/-! ## `vfs_fuse_ops` -/

/-- The requests for which a handler is registered. -/
inductive FuseRequest where
  | lookup (parent : Ino) (name : Text)
  | readlink (ino : Ino)
  | open_ (ino : Ino) (fi : FileInfo)
  | release (ino : Ino) (fi : FileInfo)
  | read (ino : Ino) (size : UInt64) (off : Int64) (fi : FileInfo)
  | getattr (ino : Ino) (fi : Option FileInfo)
  | access (ino : Ino) (mask : Int32)
  | statfs (ino : Ino)
  | getxattr (ino : Ino) (name : Text) (size : UInt64)
  | listxattr (ino : Ino) (size : UInt64)
  | opendir (ino : Ino) (fi : FileInfo)
  | readdir (ino : Ino) (size : UInt64) (off : Int64) (fi : FileInfo)
  | releasedir (ino : Ino) (fi : FileInfo)
  | create (ino : Ino) (name : Text) (mode : UInt32) (fi : FileInfo)
  | mknod (ino : Ino) (name : Text) (mode : UInt32) (rdev : UInt64)
  | mkdir (ino : Ino) (name : Text) (mode : UInt32)
  | symlink (link : Text) (parent : Ino) (name : Text)
  | unlink (ino : Ino) (name : Text)
  | rmdir (ino : Ino) (name : Text)
  | rename (parent : Ino) (name : Text) (newparent : Ino) (newname : Text)
  | link (ino newparent : Ino) (newname : Text)
  | write (ino : Ino) (buf : List UInt8) (size : UInt64) (off : Int64) (fi : FileInfo)
  | setxattr (ino : Ino) (name : Text) (value : List UInt8) (size : UInt64) (flags : Int32)
  | removexattr (ino : Ino) (name : Text)
deriving DecidableEq

/-- `vfs_fuse_ops`. -/
def vfsFuseOps (env : FuseEnv) : FuseRequest → State → Option (List Reply × State)
  | .lookup parent name => vfsFuseLookup parent name
  | .readlink ino => vfsFuseReadlink ino
  | .open_ ino fi => vfsFuseOpen ino fi env
  | .release ino fi => vfsFuseRelease ino fi
  | .read ino size off fi => vfsFuseRead ino size off fi
  | .getattr ino fi => vfsFuseGetattr ino fi env
  | .access ino mask => vfsFuseAccess ino mask
  | .statfs ino => vfsFuseStatfs ino
  | .getxattr ino name size => vfsFuseGetxattr ino name size
  | .listxattr ino size => vfsFuseListxattr ino size
  | .opendir ino fi => vfsFuseOpendir ino fi
  | .readdir ino size off fi => vfsFuseReaddir ino size off fi
  | .releasedir ino fi => vfsFuseReleasedir ino fi
  | .create ino name mode fi => vfsFuseCreate ino name mode fi
  | .mknod ino name mode rdev => vfsFuseMknod ino name mode rdev
  | .mkdir ino name mode => vfsFuseMkdir ino name mode
  | .symlink link parent name => vfsFuseSymlink link parent name
  | .unlink ino name => vfsFuseUnlink ino name
  | .rmdir ino name => vfsFuseRmdir ino name
  | .rename parent name newparent newname => vfsFuseRename parent name newparent newname
  | .link ino newparent newname => vfsFuseLink ino newparent newname
  | .write ino buf size off fi => vfsFuseWrite ino buf size off fi
  | .setxattr ino name value size flags => vfsFuseSetxattr ino name value size flags
  | .removexattr ino name => vfsFuseRemovexattr ino name

end FsPkg.Vfs
