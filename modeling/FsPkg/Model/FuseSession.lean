import FsPkg.Machine.Run
import FsPkg.Model.FuseLowlevel

/-! # Threads of a session

Several threads may take messages from the kernel, and the file system may answer in any of them, so what each does under
the lock comes in any order. A thread knows which records it has: of a request to be answered, of one that was answered
and is to be freed, of an INTERRUPT to be sent back, and of an INTERRUPT together with the request it is about.
-/

namespace FsPkg.Fuse

open Machine Vfs

/-- What a thread does next; a message comes with the address that `calloc` gives, if there is memory. -/
inductive Action where
  | receive (address : Option ℕ) (in_ : FuseIn)
  | own (req : ReqPtr) (in_ : FuseIn)
  | reply (req : ReqPtr) (in_ : FuseIn) (error : Int32) (payload : Payload)
  | free (req : ReqPtr)
  | bounce (intr : ReqPtr)
  | mark (intr curr : ReqPtr)
  | release (intr curr : ReqPtr)

/-- The session, and the records that threads have: requests that wait for an answer, with their messages; requests that
were answered; INTERRUPT messages to be sent back; and those with the request they are about, before and after it is
marked. -/
structure Session where
  ll : Ll
  inFlight : List (ReqPtr × FuseIn) := []
  answered : List ReqPtr := []
  bouncing : List ReqPtr := []
  marking : List (ReqPtr × ReqPtr) := []
  releasing : List (ReqPtr × ReqPtr) := []

/-- Whether a message is answered by its function in `fuse_ll_ops` and not by the file system. -/
def Body.isOwn : Body → Bool
  | .request _ => false
  | _ => true

namespace Session

/-- `calloc` gives what is not in use; a record is used by the thread that has it. -/
def Enabled (s : Session) : Action → Prop
  | .receive address _ => ∀ a ∈ address, s.ll.mem (.req a) = none
  | .own req in_ => (req, in_) ∈ s.inFlight ∧ in_.body.isOwn
  | .reply req in_ _ _ => (req, in_) ∈ s.inFlight ∧ !in_.body.isOwn
  | .free req => req ∈ s.answered
  | .bounce intr => intr ∈ s.bouncing
  | .mark intr curr => (intr, curr) ∈ s.marking
  | .release intr curr => (intr, curr) ∈ s.releasing

/-- `fuse_ll_process` with a record, up to where a request is handed to its function in `fuse_ll_ops`. -/
def process (fuel address : ℕ) (in_ : FuseIn) (s : Session) : Option Session :=
  let req := ReqPtr.req address
  let f := newReq address in_ s.ll
  match refusal f.toLlInfo in_ with
  | some err => do some { s with ll := ← fuseReplyErr req err f }
  | none =>
    match in_.body with
    | .interrupt unique => do
      let (mem, curr) ← doInterrupt fuel f.mem req unique
      some { s with ll := { f with mem }, marking := s.marking ++ curr.toList.map fun curr => (req, curr) }
    | _ => do
      let (mem, intr) ← enlist fuel req f.mem
      some { s with
        ll := { f with mem }, inFlight := s.inFlight ++ [(req, in_)], bouncing := s.bouncing ++ intr.toList }

/-- `fuse_ll_process`; without memory for a record the message is only reported. -/
def receive (fuel : ℕ) (address : Option ℕ) (in_ : FuseIn) (s : Session) : Option Session :=
  match address with
  | none => some s
  | some address => s.process fuel address in_

/-- What the session is after an answer was written. -/
def wrote (s : Session) (req : ReqPtr) (in_ : FuseIn) (ll : Ll) : Session :=
  { s with ll, inFlight := s.inFlight.erase (req, in_), answered := s.answered ++ [req] }

/-- The functions of `fuse_ll_ops` for messages that are not for the file system, up to `free_req`; a FORGET is not
answered, as `vfs_fuse_ops` has no handler for it. -/
def own (req : ReqPtr) (in_ : FuseIn) (s : Session) : Option Session := do
  match in_.body with
  | .init arg => some (s.wrote req in_ (← doInit req arg s.ll))
  | .destroy => some (s.wrote req in_ (← doDestroy req s.ll))
  | .forget _ => some (s.wrote req in_ s.ll)
  | _ => some (s.wrote req in_ (← writeReply req (-enosys) .empty s.ll))

def step (fuel : ℕ) (s : Session) : Action → Option Session
  | .receive address in_ => s.receive fuel address in_
  | .own req in_ => s.own req in_
  | .reply req in_ error payload => do some (s.wrote req in_ (← writeReply req error payload s.ll))
  | .free req => do some { s with ll := ← s.ll.free req, answered := s.answered.erase req }
  | .bounce intr => do some { s with ll := ← fuseReplyErr intr eagain s.ll, bouncing := s.bouncing.erase intr }
  | .mark intr curr => do
    let mem ← markInterrupted s.ll.mem curr
    some { s with
      ll := { s.ll with mem }, marking := s.marking.erase (intr, curr), releasing := s.releasing ++ [(intr, curr)] }
  | .release intr curr => do
    let mem ← releaseInterrupted s.ll.mem intr curr
    some { s with ll := { s.ll with mem }, releasing := s.releasing.erase (intr, curr) }

/-- A session that was just made by `fuse_lowlevel_new`. -/
structure Fresh (s : Session) : Prop where
  list : s.ll.mem.links .list = some ⟨some .list, some .list⟩
  interrupts : s.ll.mem.links .interrupts = some ⟨some .interrupts, some .interrupts⟩
  nothing : ∀ address, s.ll.mem (.req address) = none
  idle : s.inFlight = [] ∧ s.answered = [] ∧ s.bouncing = [] ∧ s.marking = [] ∧ s.releasing = []
  silent : s.ll.sent = []

/-- A step that a thread may take. -/
def Step (fuel : ℕ) (s : Session) (a : Action) (s' : Session) : Prop := s.Enabled a ∧ s.step fuel a = some s'

end Session

/-- A request is handed to its handler in `vfs_fuse_ops`, and what that replies is sent. -/
def serve (env : FuseEnv) (request : FuseRequest) (req : ReqPtr) (st : Vfs.State) (f : Ll) :
    Option (Ll × Vfs.State) := do
  let (replies, st) ← vfsFuseOps env request st
  let f ← replies.foldlM (fun f reply => sendReply req (fuseReply f.toLlInfo reply).1 (fuseReply f.toLlInfo reply).2 f) f
  some (f, st)

end FsPkg.Fuse
