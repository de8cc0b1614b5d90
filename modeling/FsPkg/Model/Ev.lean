import FsPkg.Model.EvHeap
import Mathlib.Algebra.Group.Defs

/-! # The event loop of `ev.c`

The loop state of `ev.c` as far as the program uses it: descriptors, timers and the queues of pending events.
`I` and `J` are the addresses of the `ev_io` and of the `ev_timer` watchers, whose fields are kept beside the
arrays that use them. An array that grows is kept with its allocated size. A failed `assert` gives no state.
-/

namespace FsPkg.Ev

/-! ## Arrays -/

/-- `MALLOC_ROUND`. -/
def mallocRound : ℕ := 4096

/-- `sizeof(void *)`. -/
def sizeofPointer : ℕ := 8

/-- The `do` loop of `array_nextsize`. -/
def arrayDouble (cnt ncur : ℕ) : ℕ :=
  if cnt > 2 * ncur ∧ 0 < ncur then arrayDouble cnt (2 * ncur) else 2 * ncur
termination_by cnt - ncur

/-- `array_nextsize`. -/
def arrayNextsize (elem cur cnt : ℕ) : ℕ :=
  let ncur := arrayDouble cnt (cur + 1)
  if elem * ncur > mallocRound - sizeofPointer * 4 then
    -- `& ~(MALLOC_ROUND - 1)` rounds down to a multiple of `MALLOC_ROUND`
    let bytes := (ncur * elem + elem + (mallocRound - 1) + sizeofPointer * 4) / mallocRound * mallocRound
    (bytes - sizeofPointer * 4) / elem
  else ncur

/-- The size `array_needsize` leaves: `cur` elements of `elem` bytes are there, `cnt` are needed. -/
def arrayNeedsize (elem cur cnt : ℕ) : ℕ :=
  if cnt > cur then arrayNextsize elem cur cnt else cur

/-! ## The state -/

def evRead : UInt32 := 0x01

def evWrite : UInt32 := 0x02

def evIofdset : UInt32 := 0x80

def evTimeout : UInt32 := 0x100

def evMinpri : ℤ := -2

def evMaxpri : ℤ := 2

/-- `NUMPRI`. -/
def numpri : ℕ := 5

/-- `ANPENDING`: the watcher is a null pointer after it was cleared. -/
structure Anpending (W : Type*) where
  w : Option W
  events : UInt32
deriving DecidableEq, Repr

/-- The queues of pending events, oldest first, and the fields `pending` and `priority` of the watchers. -/
structure Pendings (W : Type*) where
  pendings : ℕ → List (Anpending W)
  pendingmax : ℕ → ℕ
  pending : W → ℕ
  priority : W → ℤ

/-- The timers, and the fields of `ev_timer`. -/
structure Timers (J T : Type*) where
  heap : Heap J T
  timercnt : ℕ
  timermax : ℕ
  at_ : J → T
  repeat_ : J → T

/-- `ANFD`: the watchers of a descriptor, from the head on. -/
structure Anfd (I : Type*) where
  head : List I
  events : UInt8
  reify : UInt8

/-- The descriptors, and the fields of `ev_io`. `modified` is the interest that `backend_modify` was last told
for a descriptor. -/
structure Fds (I : Type*) where
  anfds : ℕ → Anfd I
  anfdmax : ℕ
  fdchanges : List ℕ
  fdchangemax : ℕ
  modified : ℕ → UInt8
  active : I → ℕ
  fd : I → ℕ
  events : I → UInt32

/-- `struct ev_loop`. -/
structure Loop (I J T : Type*) where
  mnNow : T
  activecnt : ℤ
  timers : Timers J T
  pendings : Pendings (I ⊕ J)
  fds : Fds I

/-! ## Pending events -/

section Pending

variable {W : Type*} [DecidableEq W]

/-- `ABSPRI`. -/
def Pendings.abspri (p : Pendings W) (w : W) : ℕ := (p.priority w - evMinpri).toNat

/-- `ev_feed_event`. -/
def evFeedEvent (w : W) (revents : UInt32) (p : Pendings W) : Pendings W :=
  let pri := p.abspri w
  if p.pending w ≠ 0 then
    let merge (entry : Anpending W) : Anpending W := { entry with events := entry.events ||| revents }
    { p with pendings := Function.update p.pendings pri ((p.pendings pri).modify (p.pending w - 1) merge) }
  else
    { p with
      pendings := Function.update p.pendings pri (p.pendings pri ++ [⟨some w, revents⟩])
      pendingmax := Function.update p.pendingmax pri (arrayNeedsize 16 (p.pendingmax pri) ((p.pendings pri).length + 1))
      pending := Function.update p.pending w ((p.pendings pri).length + 1) }

/-- `clear_pending`. -/
def clearPending (w : W) (p : Pendings W) : Pendings W :=
  if p.pending w ≠ 0 then
    let pri := p.abspri w
    let clear (entry : Anpending W) : Anpending W := { entry with w := none }
    { p with
      pendings := Function.update p.pendings pri ((p.pendings pri).modify (p.pending w - 1) clear)
      pending := Function.update p.pending w 0 }
  else p

/-- One turn of the inner loop of `call_pending`: the last entry of a queue is taken off, and its callback is
called with the watcher and the events unless the watcher was cleared. -/
def callPending (pri : ℕ) (p : Pendings W) : Option (Option (W × UInt32) × Pendings W) :=
  match (p.pendings pri).getLast? with
  | none => none
  | some entry =>
    let taken := { p with pendings := Function.update p.pendings pri (p.pendings pri).dropLast }
    match entry.w with
    | none => some (none, taken)
    | some w => some (some (w, entry.events), { taken with pending := Function.update p.pending w 0 })

/-- `pri_adjust`. -/
def priAdjust (w : W) (p : Pendings W) : Pendings W :=
  { p with priority := Function.update p.priority w (min evMaxpri (max evMinpri (p.priority w))) }

end Pending

/-! ## Descriptors -/

section Descriptors

variable {I J T : Type*} [DecidableEq I]

/-- `fd_change`. -/
def fdChange (fd : ℕ) (flags : UInt8) (s : Fds I) : Fds I :=
  let anfd := s.anfds fd
  let changed := { s with anfds := Function.update s.anfds fd { anfd with reify := anfd.reify ||| flags } }
  if anfd.reify = 0 then
    { changed with
      fdchanges := s.fdchanges ++ [fd]
      fdchangemax := arrayNeedsize 4 s.fdchangemax (s.fdchanges.length + 1) }
  else changed

/-- `array_needsize(ANFD, anfds, anfdmax, fd + 1, array_init_zero)`. -/
def anfdsNeedsize (fd : ℕ) (s : Fds I) : Fds I :=
  let grown := arrayNeedsize 16 s.anfdmax (fd + 1)
  { s with
    anfds := fun i => if s.anfdmax ≤ i ∧ i < grown then ⟨[], 0, 0⟩ else s.anfds i
    anfdmax := grown }

/-- The interest that the watchers of a descriptor sum up to, in `fd_reify`. -/
def Fds.wanted (s : Fds I) (fd : ℕ) : UInt8 :=
  (s.anfds fd).head.foldl (fun events w => events ||| (s.events w).toUInt8) 0

/-- One turn of the loop of `fd_reify`. -/
def fdReifyOne (s : Fds I) (fd : ℕ) : Fds I :=
  let anfd := s.anfds fd
  let events := s.wanted fd
  let reified := { s with anfds := Function.update s.anfds fd { anfd with events, reify := 0 } }
  if anfd.events ≠ events ∨ anfd.reify &&& evIofdset.toUInt8 ≠ 0 then
    { reified with modified := Function.update s.modified fd events }
  else reified

/-- `fd_reify`. -/
def fdReify (s : Fds I) : Fds I :=
  { s.fdchanges.foldl fdReifyOne s with fdchanges := [] }

variable [DecidableEq J]

/-- `fd_event`. -/
def fdEvent (s : Fds I) (fd : ℕ) (revents : UInt32) (p : Pendings (I ⊕ J)) : Pendings (I ⊕ J) :=
  (s.anfds fd).head.foldl
    (fun p w => if s.events w &&& revents ≠ 0 then evFeedEvent (.inl w) (s.events w &&& revents) p else p) p

/-- `ev_feed_fd_event`. -/
def evFeedFdEvent (s : Fds I) (fd : ℕ) (revents : UInt32) (p : Pendings (I ⊕ J)) : Pendings (I ⊕ J) :=
  if fd < s.anfdmax then fdEvent s fd revents p else p

/-- `ev_io_set`. -/
def evIoSet (w : I) (fd : ℕ) (events : UInt32) (s : Fds I) : Fds I :=
  { s with fd := Function.update s.fd w fd, events := Function.update s.events w (events ||| evIofdset) }

/-- `ev_io_start`. -/
def evIoStart (w : I) (s : Loop I J T) : Option (Loop I J T) :=
  if s.fds.active w ≠ 0 then some s
  else if s.fds.events w &&& ~~~(evIofdset ||| evRead ||| evWrite) = 0 then
    let fd := s.fds.fd w
    let grown := anfdsNeedsize fd { s.fds with active := Function.update s.fds.active w 1 }
    let anfd := grown.anfds fd
    let listed := { grown with anfds := Function.update grown.anfds fd { anfd with head := w :: anfd.head } }
    let changed := fdChange fd (s.fds.events w &&& (evIofdset ||| 1)).toUInt8 listed
    some { s with
      activecnt := s.activecnt + 1
      pendings := priAdjust (.inl w) s.pendings
      fds := { changed with events := Function.update s.fds.events w (s.fds.events w &&& ~~~evIofdset) } }
  else none

/-- `ev_io_stop`. -/
def evIoStop (w : I) (s : Loop I J T) : Option (Loop I J T) :=
  let cleared := { s with pendings := clearPending (.inl w) s.pendings }
  if s.fds.active w = 0 then some cleared
  else
    let fd := s.fds.fd w
    if fd < s.fds.anfdmax then
      let anfd := s.fds.anfds fd
      some { cleared with
        activecnt := s.activecnt - 1
        fds := fdChange fd 1 { s.fds with
          anfds := Function.update s.fds.anfds fd { anfd with head := anfd.head.erase w }
          active := Function.update s.fds.active w 0 } }
    else none

end Descriptors

/-! ## Timers -/

section Timer

variable {I J T : Type*} [DecidableEq I] [DecidableEq J] [LinearOrder T] [Add T] [Sub T] [Zero T]

/-- `ev_timer_set`. -/
def evTimerSet (w : J) (after repeat_ : T) (t : Timers J T) : Timers J T :=
  { t with at_ := Function.update t.at_ w after, repeat_ := Function.update t.repeat_ w repeat_ }

/-- `ANHE_at_cache`. -/
def Timers.cache (t : Timers J T) (k : ℕ) : Heap J T :=
  let w := (t.heap.cell k).w
  { t.heap with cell := Function.update t.heap.cell k ⟨t.at_ w, w⟩ }

/-- `ev_timer_start`. -/
def evTimerStart (w : J) (s : Loop I J T) : Option (Loop I J T) :=
  let t := s.timers
  if t.heap.active w ≠ 0 then some s
  else if 0 ≤ t.repeat_ w then
    let at_ := t.at_ w + s.mnNow
    let timercnt := t.timercnt + 1
    let k := timercnt + heap0 - 1
    some { s with
      activecnt := s.activecnt + 1
      pendings := priAdjust (.inr w) s.pendings
      timers := { t with
        at_ := Function.update t.at_ w at_
        timercnt
        timermax := arrayNeedsize 16 t.timermax (k + 1)
        heap := upheap ⟨Function.update t.heap.cell k ⟨at_, w⟩, Function.update t.heap.active w k⟩ k } }
  else none

/-- What `ev_timer_stop` does to the heap. -/
def timersDelete (t : Timers J T) (k : ℕ) : Timers J T :=
  let timercnt := t.timercnt - 1
  if k < timercnt + heap0 then
    let moved := { t.heap with cell := Function.update t.heap.cell k (t.heap.cell (timercnt + heap0)) }
    { t with timercnt, heap := adjustheap moved timercnt k }
  else { t with timercnt }

/-- `ev_timer_stop`. -/
def evTimerStop (w : J) (s : Loop I J T) : Option (Loop I J T) :=
  let cleared := { s with pendings := clearPending (.inr w) s.pendings }
  let k := s.timers.heap.active w
  if k = 0 then some cleared
  else if (s.timers.heap.cell k).w = w then
    let t := timersDelete s.timers k
    some { cleared with
      activecnt := s.activecnt - 1
      timers := { t with
        at_ := Function.update t.at_ w (t.at_ w - s.mnNow)
        heap := { t.heap with active := Function.update t.heap.active w 0 } } }
  else none

/-- `ev_timer_again`. -/
def evTimerAgain (w : J) (s : Loop I J T) : Option (Loop I J T) :=
  let t := s.timers
  let k := t.heap.active w
  if k ≠ 0 then
    if t.repeat_ w ≠ 0 then
      let t := { t with at_ := Function.update t.at_ w (s.mnNow + t.repeat_ w) }
      some { s with timers := { t with heap := adjustheap (t.cache k) t.timercnt k } }
    else evTimerStop w s
  else if t.repeat_ w ≠ 0 then
    evTimerStart w { s with timers := { t with at_ := Function.update t.at_ w (t.repeat_ w) } }
  else some s

/-- One turn of the loop of `timers_reify`. -/
def timersReifyOne (s : Loop I J T) : Option (Loop I J T) :=
  let t := s.timers
  let w := (t.heap.cell heap0).w
  if t.repeat_ w ≠ 0 then
    let next := t.at_ w + t.repeat_ w
    let next := if next < s.mnNow then s.mnNow else next
    if 0 < t.repeat_ w then
      let t := { t with at_ := Function.update t.at_ w next }
      some { s with
        timers := { t with heap := downheap (t.cache heap0) t.timercnt heap0 }
        pendings := evFeedEvent (.inr w) evTimeout s.pendings }
    else none
  else
    (evTimerStop w s).map fun s => { s with pendings := evFeedEvent (.inr w) evTimeout s.pendings }

/-- `timers_reify`, run for a number of turns; a run that is cut off gives no state. -/
def timersReify : ℕ → Loop I J T → Option (Loop I J T)
  | turns, s =>
    if s.timers.timercnt ≠ 0 ∧ (s.timers.heap.cell heap0).at_ < s.mnNow then
      match turns with
      | 0 => none
      | turns + 1 => timersReifyOne s >>= timersReify turns
    else some s

/-- The adjustment of the timers in `time_update`: the loop is at index `i`. -/
def timersAdjust (delta : T) (i : ℕ) (t : Timers J T) : Timers J T :=
  let w := (t.heap.cell (i + heap0)).w
  let t := { t with at_ := Function.update t.at_ w (t.at_ w + delta) }
  { t with heap := t.cache (i + heap0) }

/-- `time_update`, as far as the timers go: `clock` is what the clock gives. Without a monotonic clock a jump of
the time moves all timers along. -/
def timeUpdate (haveMonotonic : Bool) (clock maxBlock minTimejump : T) (s : Loop I J T) : Loop I J T :=
  if haveMonotonic then { s with mnNow := clock }
  else if s.mnNow > clock ∨ clock > s.mnNow + maxBlock + minTimejump then
    { s with
      timers := (List.range s.timers.timercnt).foldl (fun t i => timersAdjust (clock - s.mnNow) i t) s.timers
      mnNow := clock }
  else { s with mnNow := clock }

end Timer

/-! ## Checks -/

section Verify

variable {I J T W : Type*} [DecidableEq I] [DecidableEq J] [DecidableEq W] [LinearOrder T]

/-- `verify_watcher`. -/
def verifyWatcher (p : Pendings W) (w : W) : Bool :=
  decide (0 ≤ p.priority w - evMinpri) && decide (p.priority w - evMinpri < numpri) &&
    (p.pending w == 0 || (p.pendings (p.abspri w))[p.pending w - 1]?.map Anpending.w == some (some w))

/-- `verify_heap` for the timers. -/
def verifyHeap (s : Loop I J T) : Bool :=
  (List.range s.timers.timercnt).all fun n =>
    let i := n + heap0
    let he := s.timers.heap.cell i
    s.timers.heap.active he.w == i && (i == heap0 || decide ((s.timers.heap.cell (hparent i)).at_ ≤ he.at_)) &&
      decide (he.at_ = s.timers.at_ he.w) && verifyWatcher s.pendings (.inr he.w)

/-- `ev_loop_verify`. -/
def evLoopVerify (s : Loop I J T) : Bool :=
  decide (s.activecnt ≥ -1) && decide (s.fds.fdchangemax ≥ s.fds.fdchanges.length) &&
    ((List.range s.fds.anfdmax).all fun i => (s.fds.anfds i).head.all fun w =>
      verifyWatcher s.pendings (.inl w) && s.fds.active w == 1 && s.fds.fd w == i) &&
    decide (s.timers.timermax ≥ s.timers.timercnt) && verifyHeap s &&
    (List.range numpri).all fun i => decide (s.pendings.pendingmax i ≥ (s.pendings.pendings i).length)

end Verify

/-! ## Runs -/

section Runs

/-- What the program and `ev_loop` do to a loop. A callback is what follows its `callPending`. -/
inductive Op (I J T : Type*) where
  | timerSet (w : J) (after repeat_ : T)
  | timerStart (w : J)
  | timerStop (w : J)
  | timerAgain (w : J)
  | ioSet (w : I) (fd : ℕ) (events : UInt32)
  | ioStart (w : I)
  | ioStop (w : I)
  | setPriority (w : I ⊕ J) (pri : ℤ)
  | feedEvent (w : I ⊕ J) (revents : UInt32)
  | clearPending (w : I ⊕ J)
  | feedFdEvent (fd : ℕ) (revents : UInt32)
  | fdReify
  | timeUpdate (haveMonotonic : Bool) (clock maxBlock minTimejump : T)
  | timersReify
  | callPending (pri : ℕ) (called : Option ((I ⊕ J) × UInt32))

variable {I J T : Type*} [DecidableEq I] [DecidableEq J] [LinearOrder T] [Add T] [Sub T] [Zero T]

/-- What an operation does; `timers_reify` is given one turn for each timer. -/
def Op.exec (s : Loop I J T) : Op I J T → Option (Loop I J T)
  | .timerSet w after repeat_ => some { s with timers := evTimerSet w after repeat_ s.timers }
  | .timerStart w => evTimerStart w s
  | .timerStop w => evTimerStop w s
  | .timerAgain w => evTimerAgain w s
  | .ioSet w fd events => some { s with fds := evIoSet w fd events s.fds }
  | .ioStart w => evIoStart w s
  | .ioStop w => evIoStop w s
  | .setPriority w pri =>
    some { s with pendings := { s.pendings with priority := Function.update s.pendings.priority w pri } }
  | .feedEvent w revents => some { s with pendings := evFeedEvent w revents s.pendings }
  | .clearPending w => some { s with pendings := Ev.clearPending w s.pendings }
  | .feedFdEvent fd revents => some { s with pendings := evFeedFdEvent s.fds fd revents s.pendings }
  | .fdReify => some { s with fds := Ev.fdReify s.fds }
  | .timeUpdate haveMonotonic clock maxBlock minTimejump =>
    some (Ev.timeUpdate haveMonotonic clock maxBlock minTimejump s)
  | .timersReify => Ev.timersReify s.timers.timercnt s
  | .callPending pri called =>
    match Ev.callPending pri s.pendings with
    | none => none
    | some (found, p) => if found = called then some { s with pendings := p } else none

/-- The watcher is not started. -/
def Loop.Idle (s : Loop I J T) : I ⊕ J → Prop
  | .inl w => s.fds.active w = 0
  | .inr w => s.timers.heap.active w = 0

/-- What the callers of the library keep to: a watcher is not set anew while it is started, its priority does not
change while it is started or waits, and events are fed by hand only to a watcher with a priority in range. -/
def Op.Allowed (s : Loop I J T) : Op I J T → Prop
  | .timerSet w _ _ => s.Idle (.inr w)
  | .ioSet w _ _ => s.Idle (.inl w)
  | .setPriority w _ => s.Idle w ∧ s.pendings.pending w = 0
  | .feedEvent w _ => evMinpri ≤ s.pendings.priority w ∧ s.pendings.priority w ≤ evMaxpri
  | _ => True

instance Loop.decidableIdle (s : Loop I J T) : (w : I ⊕ J) → Decidable (s.Idle w)
  | .inl w => inferInstanceAs (Decidable (s.fds.active w = 0))
  | .inr w => inferInstanceAs (Decidable (s.timers.heap.active w = 0))

instance Op.decidableAllowed (s : Loop I J T) : (op : Op I J T) → Decidable (op.Allowed s)
  | .timerSet w _ _ => inferInstanceAs (Decidable (s.Idle (.inr w)))
  | .ioSet w _ _ => inferInstanceAs (Decidable (s.Idle (.inl w)))
  | .setPriority w _ => inferInstanceAs (Decidable (s.Idle w ∧ s.pendings.pending w = 0))
  | .feedEvent w _ => inferInstanceAs (Decidable (evMinpri ≤ s.pendings.priority w ∧ s.pendings.priority w ≤ evMaxpri))
  | .timerStart _ | .timerStop _ | .timerAgain _ | .ioStart _ | .ioStop _ | .clearPending _
  | .feedFdEvent _ _ | .fdReify
  | .timeUpdate _ _ _ _ | .timersReify | .callPending _ _ => isTrue trivial

/-- An allowed operation that does not abort the program. -/
def Step (s : Loop I J T) (op : Op I J T) (s' : Loop I J T) : Prop :=
  op.Allowed s ∧ op.exec s = some s'

/-- A loop that was just made: what lies in its arrays behind their sizes may be anything. -/
structure Loop.Fresh (s : Loop I J T) : Prop where
  activecnt : s.activecnt = 0
  timercnt : s.timers.timercnt = 0
  idle : ∀ w, s.Idle w
  pending : ∀ w, s.pendings.pending w = 0
  pendings : ∀ pri, s.pendings.pendings pri = []
  anfdmax : s.fds.anfdmax = 0
  fdchanges : s.fds.fdchanges = []
  modified : ∀ fd, s.fds.modified fd = 0

end Runs

end FsPkg.Ev
