import FsPkg.Model.Ev

/-! # What an event loop is for

The plain account of an event loop: timers that run until a time, watchers of descriptors, and for each watcher the
events it waits to be called with. There are no heaps, indices or queues. All timers that are due expire at once.
-/

namespace FsPkg.Ev

/-- A schedule: `time` is when a running timer expires, and after how long one that is not running will when it is
started. -/
@[ext]
structure Schedule (I J T : Type*) where
  now : T
  time : J → T
  repeat_ : J → T
  running : J → Bool
  watching : I → Bool
  fd : I → ℕ
  events : I → UInt32
  priority : I ⊕ J → ℤ
  waiting : I ⊕ J → Option UInt32

/-- The events a watcher waits for after some were fed to it. -/
def merged (before : Option UInt32) (revents : UInt32) : UInt32 :=
  before.elim revents (· ||| revents)

namespace Schedule

variable {I J T : Type*} [DecidableEq I] [DecidableEq J] [LinearOrder T] [Add T] [Sub T] [Zero T]

def feed (w : I ⊕ J) (revents : UInt32) (a : Schedule I J T) : Schedule I J T :=
  { a with waiting := Function.update a.waiting w (some (merged (a.waiting w) revents)) }

def clear (w : I ⊕ J) (a : Schedule I J T) : Schedule I J T :=
  { a with waiting := Function.update a.waiting w none }

/-- The priority of a watcher that is started is brought into range. -/
def clamp (w : I ⊕ J) (a : Schedule I J T) : Schedule I J T :=
  { a with priority := Function.update a.priority w (min evMaxpri (max evMinpri (a.priority w))) }

def start (w : J) (a : Schedule I J T) : Schedule I J T :=
  if a.running w then a
  else clamp (.inr w) { a with
    time := Function.update a.time w (a.time w + a.now)
    running := Function.update a.running w true }

def stop (w : J) (a : Schedule I J T) : Schedule I J T :=
  if a.running w then clear (.inr w) { a with
    time := Function.update a.time w (a.time w - a.now)
    running := Function.update a.running w false }
  else clear (.inr w) a

def again (w : J) (a : Schedule I J T) : Schedule I J T :=
  if a.repeat_ w = 0 then if a.running w then stop w a else a
  else if a.running w then { a with time := Function.update a.time w (a.now + a.repeat_ w) }
  else start w { a with time := Function.update a.time w (a.repeat_ w) }

/-- The timer has expired. -/
def due (a : Schedule I J T) (w : J) : Bool :=
  a.running w && decide (a.time w < a.now)

/-- Every timer that is due is started anew, but not for a time that has passed, or stopped, and is to be called. -/
def expire (a : Schedule I J T) : Schedule I J T :=
  { a with
    time := fun w =>
      if a.due w then if a.repeat_ w = 0 then a.time w - a.now else max a.now (a.time w + a.repeat_ w) else a.time w
    running := fun w => a.running w && !(a.due w && decide (a.repeat_ w = 0))
    waiting := Sum.elim (fun w => a.waiting (.inl w)) fun w =>
      if a.due w then some (merged (if a.repeat_ w = 0 then none else a.waiting (.inr w)) evTimeout)
      else a.waiting (.inr w) }

def watch (w : I) (a : Schedule I J T) : Schedule I J T :=
  if a.watching w then a
  else clamp (.inl w) { a with
    watching := Function.update a.watching w true
    events := Function.update a.events w (a.events w &&& ~~~evIofdset) }

def unwatch (w : I) (a : Schedule I J T) : Schedule I J T :=
  clear (.inl w) { a with watching := Function.update a.watching w false }

/-- Every watcher of the descriptor gets those of the events it is interested in. -/
def ready (fd : ℕ) (revents : UInt32) (a : Schedule I J T) : Schedule I J T :=
  { a with
    waiting := Sum.elim
      (fun w => if a.watching w ∧ a.fd w = fd ∧ a.events w &&& revents ≠ 0 then
        some (merged (a.waiting (.inl w)) (a.events w &&& revents)) else a.waiting (.inl w))
      fun w => a.waiting (.inr w) }

/-- The clock goes on. A jump of a clock that is not monotonic moves the running timers along. -/
def tick (haveMonotonic : Bool) (clock maxBlock minTimejump : T) (a : Schedule I J T) : Schedule I J T :=
  if !haveMonotonic ∧ (clock < a.now ∨ a.now + maxBlock + minTimejump < clock) then
    { a with now := clock, time := fun w => if a.running w then a.time w + (clock - a.now) else a.time w }
  else { a with now := clock }

/-- The steps of a schedule. Which of the waiting watchers is called is left open, but for its priority. -/
def Step (a : Schedule I J T) : Op I J T → Schedule I J T → Prop
  | .timerSet w after repeat_, a' => a' = { a with
      time := Function.update a.time w after, repeat_ := Function.update a.repeat_ w repeat_ }
  | .timerStart w, a' => a' = a.start w
  | .timerStop w, a' => a' = a.stop w
  | .timerAgain w, a' => a' = a.again w
  | .ioSet w fd events, a' => a' = { a with
      fd := Function.update a.fd w fd, events := Function.update a.events w (events ||| evIofdset) }
  | .ioStart w, a' => a' = a.watch w
  | .ioStop w, a' => a' = a.unwatch w
  | .setPriority w pri, a' => a' = { a with priority := Function.update a.priority w pri }
  | .feedEvent w revents, a' => a' = a.feed w revents
  | .clearPending w, a' => a' = a.clear w
  | .feedFdEvent fd revents, a' => a' = a.ready fd revents
  | .fdReify, a' => a' = a
  | .timeUpdate haveMonotonic clock maxBlock minTimejump, a' => a' = a.tick haveMonotonic clock maxBlock minTimejump
  | .timersReify, a' => a' = a.expire
  | .callPending _ none, a' => a' = a
  | .callPending pri (some (w, events)), a' =>
    (a.priority w - evMinpri).toNat = pri ∧ a.waiting w = some events ∧ a' = a.clear w

end Schedule

end FsPkg.Ev
