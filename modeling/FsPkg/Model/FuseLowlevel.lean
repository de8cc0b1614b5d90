import FsPkg.Machine.Ring
import FsPkg.Model.VfsFuse

/-! # Requests of a session: `fuse/fuse_lowlevel.c`

The records of the requests are in a memory where a record that was freed is not there any more; what would touch one
has no result. Those that wait for an answer of the file system are in one ring, and INTERRUPT messages for requests
that have not come yet in another. The search through a ring takes fuel.

What is inside `f->lock` is one function here, and what is outside of it concerns a record that no other thread has.
The function that a file system may set for an interruption is left out, since none is ever set.
-/

namespace FsPkg.Fuse

open Machine Vfs

/-! ## Records and rings -/

/-- Where a `struct fuse_req` may be: in `struct fuse_ll` for the heads of the two rings, or allocated. -/
inductive ReqPtr where
  | list
  | interrupts
  | req (address : ℕ)
deriving DecidableEq, Repr

/-- `struct fuse_req`; `intr` is `u.i.unique`, the request that an INTERRUPT is about. -/
structure FuseReq where
  unique : UInt64 := 0
  ctr : ℤ := 0
  interrupted : Bool := false
  intr : UInt64 := 0
  next : ReqPtr
  prev : ReqPtr
deriving DecidableEq, Repr

abbrev Mem := ReqPtr → Option FuseReq

namespace Mem

/-- Change a record that is there. -/
def modify (mem : Mem) (req : ReqPtr) (change : FuseReq → FuseReq) : Option Mem :=
  (mem req).map fun r => Function.update mem req (some (change r))

def setNext (mem : Mem) (req next : ReqPtr) : Option Mem := mem.modify req fun r => { r with next }

def setPrev (mem : Mem) (req prev : ReqPtr) : Option Mem := mem.modify req fun r => { r with prev }

/-- The links of the rings. -/
def links (mem : Mem) : Links ReqPtr := fun p => (mem p).map fun r => ⟨some r.next, some r.prev⟩

end Mem

/-- `list_init_req`. -/
def listInitReq (mem : Mem) (req : ReqPtr) : Option Mem := do
  (← mem.setNext req req).setPrev req req

/-- `list_del_req`. -/
def listDelReq (mem : Mem) (req : ReqPtr) : Option Mem := do
  let r ← mem req
  (← mem.setNext r.prev r.next).setPrev r.next r.prev

/-- `list_add_req`. -/
def listAddReq (mem : Mem) (req next : ReqPtr) : Option Mem := do
  let prev := (← mem next).prev
  let mem ← mem.setNext req next
  let mem ← mem.setPrev req prev
  let mem ← mem.setNext prev req
  mem.setPrev next req

/-- `destroy_req`, and `free`. -/
def destroyReq (mem : Mem) (req : ReqPtr) : Option Mem :=
  (mem req).map fun _ => Function.update mem req none

/-- `--req->ctr`, and what follows if that is zero. -/
def releaseReq (mem : Mem) (req : ReqPtr) : Option Mem := do
  let mem ← mem.modify req fun r => { r with ctr := r.ctr - 1 }
  let r ← mem req
  if r.ctr = 0 then destroyReq mem req else some mem

/-- `free_req`; what it sets in the union is where `intr` is. -/
def freeReq (mem : Mem) (req : ReqPtr) : Option Mem := do
  let mem ← mem.modify req fun r => { r with intr := 0 }
  releaseReq (← listDelReq mem req) req

/-- The first record of a ring from `curr` on that is looked for. -/
def search (mem : Mem) (head : ReqPtr) (wanted : FuseReq → Bool) : ℕ → ReqPtr → Option (Option ReqPtr)
  | 0, _ => none
  | fuel + 1, curr =>
    if curr = head then some none
    else do
      let r ← mem curr
      if wanted r then some (some curr) else search mem head wanted fuel r.next

/-- The loops over `f->list` and `f->interrupts`. -/
def searchRing (fuel : ℕ) (mem : Mem) (head : ReqPtr) (wanted : FuseReq → Bool) : Option (Option ReqPtr) := do
  search mem head wanted fuel (← mem head).next

/-! ## Interruptions -/

/-- What `find_interrupted` finds: a request, which is held and still to be marked; an INTERRUPT for it; or nothing. -/
inductive Found where
  | request (curr : ReqPtr)
  | waiting
  | nothing
deriving DecidableEq, Repr

/-- `find_interrupted`, up to where it gives up the lock. -/
def findInterrupted (fuel : ℕ) (mem : Mem) (req : ReqPtr) : Option (Mem × Found) := do
  let intr := (← mem req).intr
  match ← searchRing fuel mem .list fun curr => curr.unique == intr with
  | some curr => some (← mem.modify curr fun r => { r with ctr := r.ctr + 1 }, .request curr)
  | none =>
    match ← searchRing fuel mem .interrupts fun curr => curr.intr == intr with
    | some _ => some (mem, .waiting)
    | none => some (mem, .nothing)

/-- `find_interrupted`, where it has both locks. -/
def markInterrupted (mem : Mem) (curr : ReqPtr) : Option Mem :=
  mem.modify curr fun r => { r with interrupted := true }

/-- The end of `find_interrupted`, and of `do_interrupt` after it. -/
def releaseInterrupted (mem : Mem) (req curr : ReqPtr) : Option Mem := do
  destroyReq (← releaseReq mem curr) req

/-- `do_interrupt`, up to where `find_interrupted` gives up the lock: the request it has found, if any. -/
def doInterrupt (fuel : ℕ) (mem : Mem) (req : ReqPtr) (unique : UInt64) : Option (Mem × Option ReqPtr) := do
  let mem ← mem.modify req fun r => { r with intr := unique }
  match ← findInterrupted fuel mem req with
  | (mem, .request curr) => some (mem, some curr)
  | (mem, .waiting) => some (← destroyReq mem req, none)
  | (mem, .nothing) => some (← listAddReq mem req .interrupts, none)

/-- `check_interrupt`: the INTERRUPT for the request is used up; if there is none, the first that waits is taken off. -/
def checkInterrupt (fuel : ℕ) (mem : Mem) (req : ReqPtr) : Option (Mem × Option ReqPtr) := do
  let unique := (← mem req).unique
  match ← searchRing fuel mem .interrupts fun curr => curr.intr == unique with
  | some curr =>
    let mem ← mem.modify req fun r => { r with interrupted := true }
    let mem ← listDelReq mem curr
    some (← destroyReq mem curr, none)
  | none =>
    let curr := (← mem .interrupts).next
    if curr = .interrupts then some (mem, none)
    else do
      let mem ← listDelReq mem curr
      some (← listInitReq mem curr, some curr)

/-! ## Messages -/

/-- `struct fuse_init_in`. -/
structure InitIn where
  major : UInt32
  minor : UInt32
  maxReadahead : UInt32
  flags : UInt32
deriving DecidableEq, Repr

/-- The operations for which `vfs_fuse_ops` has no handler and `fuse_ll_ops` has a function. -/
inductive Absent where
  | setattr
  | fsync
  | flush
  | fsyncdir
  | getlk
  | setlk
  | setlkw
  | bmap
  | ioctl
  | poll
deriving DecidableEq, Repr

/-- A message by its opcode, with what its function hands on. -/
inductive Body where
  | init (arg : InitIn)
  | forget (nlookup : UInt64)
  | interrupt (unique : UInt64)
  | destroy
  | request (request : FuseRequest)
  | absent (operation : Absent)
  | unknown (opcode : UInt32)
deriving DecidableEq

/-- `struct fuse_in_header`, with what follows it. -/
structure FuseIn where
  unique : UInt64
  uid : UInt32
  body : Body
deriving DecidableEq

/-- The operations that any user may ask for, although `allow_root` is set. -/
def Body.exempt : Body → Bool
  | .init _ | .absent .fsync | .absent .fsyncdir => true
  | .request (.read ..) | .request (.write ..) | .request (.release ..) | .request (.readdir ..)
  | .request (.releasedir ..) => true
  | _ => false

/-! ## Sessions -/

/-- `struct fuse_init_out`. -/
structure InitOut where
  major : UInt32
  minor : UInt32
  maxReadahead : UInt32
  flags : UInt32
  maxWrite : UInt32
deriving DecidableEq, Repr

/-- What follows the header of an answer. -/
inductive Payload where
  | empty
  | attr (attr : FuseAttr) (size : ℕ)
  | open_ (fi : FileInfo)
  | init (arg : InitOut) (size : ℕ)
deriving DecidableEq, Repr

/-- An answer, as it is given to `writev`. -/
structure Out where
  unique : UInt64
  error : Int32
  payload : Payload
deriving DecidableEq, Repr

/-- `struct fuse_conn_info`. -/
structure ConnInfo where
  protoMajor : UInt32 := 0
  protoMinor : UInt32 := 0
  asyncRead : UInt32 := 1
  maxWrite : UInt32 := UInt32.ofNat (2 ^ 32 - 1)
  maxReadahead : UInt32 := UInt32.ofNat (2 ^ 32 - 1)
  capable : UInt32 := 0
  want : UInt32 := 0
deriving DecidableEq, Repr

/-- `struct fuse_ll`, but for its rings. -/
structure LlInfo where
  allowRoot : Bool := false
  atomicOTrunc : Bool := false
  bigWrites : Bool := false
  owner : UInt32 := 0
  bufsize : ℕ
  gotInit : Bool := false
  gotDestroy : Bool := false
  conn : ConnInfo := {}
deriving DecidableEq, Repr

/-- `struct fuse_ll`, with the memory of its rings and of the requests, and the answers so far. -/
structure Ll extends LlInfo where
  mem : Mem
  sent : List Out := []

def eio : Int32 := 5

def eagain : Int32 := 11

def eacces : Int32 := 13

def erange : Int32 := 34

def eproto : Int32 := 71

/-- The error that `send_reply_iov` puts into the header. -/
def outError (error : Int32) : Int32 := if error ≤ -1000 ∨ error > 0 then -erange else error

/-- `send_reply_iov` up to `writev`. -/
def writeReply (req : ReqPtr) (error : Int32) (payload : Payload) (f : Ll) : Option Ll := do
  let unique := (← f.mem req).unique
  some { f with sent := f.sent ++ [⟨unique, outError error, payload⟩] }

/-- `free_req`, on the session. -/
def Ll.free (req : ReqPtr) (f : Ll) : Option Ll := do
  some { f with mem := ← freeReq f.mem req }

/-- `send_reply_iov`. -/
def sendReply (req : ReqPtr) (error : Int32) (payload : Payload) (f : Ll) : Option Ll := do
  (← writeReply req error payload f).free req

/-- `fuse_reply_err`. -/
def fuseReplyErr (req : ReqPtr) (err : Int32) : Ll → Option Ll := sendReply req (-err) .empty

/-- What the replies of the handlers hand to `send_reply_ok` or `send_reply`; an old kernel gets less of the
attributes. -/
def fuseReply (f : LlInfo) : Reply → Int32 × Payload
  | .err errno => (-errno, .empty)
  | .attr attr => (0, .attr attr (if f.conn.protoMinor < 9 then 96 else 104))
  | .open_ fi => (0, .open_ fi)

def fuseAsyncRead : UInt32 := 1

def fusePosixLocks : UInt32 := 2

def fuseAtomicOTrunc : UInt32 := 8

def fuseBigWrites : UInt32 := 32

/-- The flags among these that are set; the capabilities have the bits of the flags. -/
def flagsOf (flags : UInt32) : List UInt32 → UInt32
  | [] => 0
  | flag :: rest => (if flags &&& flag ≠ 0 then flag else 0) ||| flagsOf flags rest

/-- What `do_init` makes of `f->conn` if the kernel is not too old. -/
def negotiate (arg : InitIn) (f : LlInfo) : ConnInfo :=
  let conn := { f.conn with protoMajor := arg.major, protoMinor := arg.minor, capable := 0, want := 0 }
  let conn :=
    if arg.major > 7 ∨ (arg.major = 7 ∧ arg.minor ≥ 6) then
      { conn with
        asyncRead := if conn.asyncRead ≠ 0 then arg.flags &&& fuseAsyncRead else conn.asyncRead
        maxReadahead := if arg.maxReadahead < conn.maxReadahead then arg.maxReadahead else conn.maxReadahead
        capable := flagsOf arg.flags [fuseAsyncRead, fusePosixLocks, fuseAtomicOTrunc, fuseBigWrites] }
    else { conn with asyncRead := 0, maxReadahead := 0 }
  let want := (if f.atomicOTrunc then fuseAtomicOTrunc else 0) ||| (if f.bigWrites then fuseBigWrites else 0)
  let bufsize := max f.bufsize 8192 - 4096
  { conn with want, maxWrite := if bufsize < conn.maxWrite.toNat then UInt32.ofNat bufsize else conn.maxWrite }

/-- What `do_init` answers. -/
def initOut (conn : ConnInfo) : InitOut where
  major := 7
  minor := 11
  maxReadahead := conn.maxReadahead
  flags :=
    (if conn.asyncRead ≠ 0 ∨ conn.want &&& fuseAsyncRead ≠ 0 then fuseAsyncRead else 0) |||
      flagsOf conn.want [fusePosixLocks, fuseAtomicOTrunc, fuseBigWrites]
  maxWrite := conn.maxWrite

/-- `do_init` up to `writev`; `vfs_fuse_ops` has no handlers for locks. -/
def doInit (req : ReqPtr) (arg : InitIn) (f : Ll) : Option Ll :=
  if arg.major < 7 then
    let conn := { f.conn with protoMajor := arg.major, protoMinor := arg.minor, capable := 0, want := 0 }
    writeReply req (-eproto) .empty { f with conn }
  else
    let conn := negotiate arg f.toLlInfo
    writeReply req 0 (.init (initOut conn) (if arg.minor < 5 then 8 else 24)) { f with conn, gotInit := true }

/-- `do_destroy` up to `writev`. -/
def doDestroy (req : ReqPtr) (f : Ll) : Option Ll := writeReply req 0 .empty { f with gotDestroy := true }

/-- The answers that `fuse_ll_process` gives itself. -/
def refusal (f : LlInfo) (in_ : FuseIn) : Option Int32 :=
  match in_.body with
  | .init _ => none
  | body =>
    if !f.gotInit then some eio
    else if f.allowRoot && in_.uid ≠ f.owner && in_.uid ≠ 0 && !body.exempt then some eacces
    else
      match body with
      | .unknown _ => some enosys
      | _ => none

/-- The record that `fuse_ll_process` makes of a message. -/
def newReq (address : ℕ) (in_ : FuseIn) (f : Ll) : Ll :=
  let req := ReqPtr.req address
  { f with mem := Function.update f.mem req (some { unique := in_.unique, ctr := 1, next := req, prev := req }) }

/-- A request takes its place among those that wait for an answer: the INTERRUPT that is to be sent back, if any. -/
def enlist (fuel : ℕ) (req : ReqPtr) (mem : Mem) : Option (Mem × Option ReqPtr) := do
  let (mem, intr) ← checkInterrupt fuel mem req
  some (← listAddReq mem req .list, intr)

end FsPkg.Fuse
