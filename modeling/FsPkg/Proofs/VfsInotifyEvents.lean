import FsPkg.Model.VfsInotify
import FsPkg.ToMathlib.StoppingScan

/-! # Events and the calls they lead to

A buffer holds complete events, one behind the other. The loop passes an event only if it has a name
that is not hidden, belongs to a registered watch, and gives a path that looks like a package; at any
other event it spins, returns or faults, and the events behind are lost.
-/

namespace FsPkg.Vfs

open Machine Scan
open Pkg (Text)

/-- An event as `inotify(7)` describes it: a name is terminated within its field, and an event about
the watched directory itself has none. -/
structure InotifyEvent where
  wd : Int32
  mask : UInt32
  cookie : UInt32 := 0
  name : List UInt8
  terminated : name ≠ [] → 0 ∈ name := by decide
  short : name.length < 2 ^ 32 := by decide
  aboutSelf : mask &&& inDeleteSelf ≠ 0 → name = [] := by decide

namespace InotifyEvent

def bytes (e : InotifyEvent) : List UInt8 :=
  bytes32 e.wd.toUInt32 ++ (bytes32 e.mask ++ (bytes32 e.cookie ++ (bytes32 (UInt32.ofNat e.name.length) ++ e.name)))

/-- The name as a string. -/
def text (e : InotifyEvent) : Text :=
  (e.name.takeWhile (· ≠ 0)).map fun byte => Char.ofNat byte.toNat

def hidden (e : InotifyEvent) : Bool :=
  e.name.head? = some 46

theorem length_bytes (e : InotifyEvent) : e.bytes.length = sizeofEvent + e.name.length := by
  simp only [bytes, List.length_append, length_bytes32, sizeofEvent]
  omega

end InotifyEvent

/-- The call for a mask, if there is one. -/
def dispatch (mask : UInt32) (path : Text) : Option PkgCall :=
  if mask &&& inCloseWrite ≠ 0 ∨ mask &&& inMovedTo ≠ 0 then some (.pkgImport path)
  else if mask &&& inDelete ≠ 0 ∨ mask &&& inMovedFrom ≠ 0 then some (.pkgForget path)
  else none

/-- The loop goes on to the next event. -/
def passes (watches : List Watch) (e : InotifyEvent) : Bool :=
  e.name ≠ [] && !e.hidden && match vfsWatchFindnodeByfd watches e.wd with
    | none => false
    | some watch => isPackage (joinPath watch.path e.text) = some true

/-- The call the loop makes for an event it passes. -/
def yields (watches : List Watch) (e : InotifyEvent) : Option PkgCall :=
  match vfsWatchFindnodeByfd watches e.wd with
  | none => none
  | some watch => dispatch e.mask (joinPath watch.path e.text)

/-- The call there should be: for a registered watch and a package name that is not hidden. -/
def wants (watches : List Watch) (e : InotifyEvent) : Option PkgCall :=
  match vfsWatchFindnodeByfd watches e.wd with
  | none => none
  | some watch =>
    if !e.hidden && packageName e.text then dispatch e.mask (watch.path ++ '/' :: e.text) else none

/-! ## One event in the buffer -/

section Event

variable {mem : Memory} {len : ℤ} {i : ℕ} {e : InotifyEvent} {watches : List Watch}

/-- What the loop reads at the offset of an event. -/
structure At (mem : Memory) (i : ℕ) (e : InotifyEvent) : Prop where
  wd : (load32 mem i).toInt32 = e.wd
  mask : load32 mem (i + 4) = e.mask
  len : load32 mem (i + 12) = UInt32.ofNat e.name.length
  name : Holds mem (i + sizeofEvent) e.name

theorem at_of_holds (holds : Holds mem i e.bytes) : At mem i e := by
  simp only [InotifyEvent.bytes, holds_append, length_bytes32] at holds
  obtain ⟨wd, mask, -, len, name⟩ := holds
  refine ⟨?_, load32_of_holds mask, load32_of_holds len, name⟩
  rw [load32_of_holds wd]
  exact Int32.toInt32_toUInt32 _

theorem At.elen (here : At mem i e) : (load32 mem (i + 12)).toNat = e.name.length := by
  rw [here.len, UInt32.toNat_ofNat']
  exact Nat.mod_eq_of_lt e.short

theorem At.elen_eq_zero (here : At mem i e) : load32 mem (i + 12) = 0 ↔ e.name = [] := by
  rw [← UInt32.toNat_inj, here.elen]
  exact List.length_eq_zero_iff

theorem At.first (here : At mem i e) (named : e.name ≠ []) : mem (i + sizeofEvent) = 46 ↔ e.hidden = true := by
  obtain ⟨byte, rest, split⟩ := List.exists_cons_of_ne_nil named
  have holds := here.name
  rw [split] at holds
  rw [(holds_cons.mp holds).1, InotifyEvent.hidden, split]
  simp

theorem At.eventName (here : At mem i e) (named : e.name ≠ []) (room : e.name.length ≤ inotifyBufsize) :
    eventName mem i = e.text := by
  rw [Vfs.eventName, loadString_of_holds here.name (e.terminated named) room]
  rfl

/-- What stops the loop at a visible name in a watched directory is that the file is no package. -/
theorem At.not_package (here : At mem i e) (dot : mem (i + sizeofEvent) ≠ 46) (named : e.name ≠ []) {watch : Watch}
    (found : vfsWatchFindnodeByfd watches e.wd = some watch) (stuck : passes watches e = false) :
    isPackage (joinPath watch.path e.text) ≠ some true := by
  have visible : e.hidden = false := by
    rw [Bool.eq_false_iff]
    exact fun dotted => dot ((here.first named).mpr dotted)
  simpa [passes, named, visible, found] using stuck

/-- At an event it cannot pass, the loop makes no further call, however long it runs. -/
theorem evtGetLoop_stuck (here : At mem i e) (room : e.name.length ≤ inotifyBufsize)
    (stuck : passes watches e = false) (fuel : ℕ) : (evtGetLoop mem len fuel i watches).calls = [] := by
  induction fuel with
  | zero => rfl
  | succ fuel ih =>
    rw [evtGetLoop]
    by_cases inside : i < len
    · rw [if_pos inside]
      by_cases dot : mem (i + sizeofEvent) = 46
      · -- the offset stays where it is, and so does everything else
        simp only [if_pos dot]
        exact ih
      · simp only [if_neg dot, here.wd]
        cases found : vfsWatchFindnodeByfd watches e.wd with
        | none => rfl
        | some watch =>
          by_cases nameless : e.name = []
          · simp only [if_pos (here.elen_eq_zero.mpr nameless)]
          · have other := here.not_package dot nameless found stuck
            simp only [if_neg (mt here.elen_eq_zero.mp nameless), here.eventName nameless room]
            match verdict : isPackage (joinPath watch.path e.text) with
            | none => rfl
            | some false => rfl
            | some true => exact absurd verdict other
    · rw [if_neg inside]

/-- An event it passes costs one iteration, and leads to the call it yields. -/
theorem evtGetLoop_pass (here : At mem i e) (room : e.name.length ≤ inotifyBufsize) (inside : i < len)
    (passed : passes watches e = true) (fuel : ℕ) : evtGetLoop mem len (fuel + 1) i watches =
      match yields watches e with
      | none => evtGetLoop mem len fuel (i + (sizeofEvent + e.name.length)) watches
      | some call => (evtGetLoop mem len fuel (i + (sizeofEvent + e.name.length)) watches).after i call := by
  unfold passes at passed
  cases found : vfsWatchFindnodeByfd watches e.wd with
  | none => simp [found] at passed
  | some watch =>
    simp only [found, Bool.and_eq_true, decide_eq_true_iff, Bool.not_eq_true'] at passed
    obtain ⟨⟨named, visible⟩, package⟩ := passed
    have dot : mem (i + sizeofEvent) ≠ 46 := by
      intro dot
      rw [(here.first named).mp dot] at visible
      contradiction
    have notSelf : ¬ e.mask &&& inDeleteSelf ≠ 0 := fun self => named (e.aboutSelf self)
    rw [evtGetLoop, if_pos inside]
    simp only [if_neg dot, here.wd, found, if_neg (mt here.elen_eq_zero.mp named), here.eventName named room,
      package, here.mask, here.elen, yields, dispatch, if_neg notSelf, Nat.add_assoc]
    split_ifs <;> rfl

end Event

/-! ## The buffer -/

/-- Events with their offsets. -/
def layout : ℕ → List InotifyEvent → List (ℕ × InotifyEvent)
  | _, [] => []
  | i, e :: rest => (i, e) :: layout (i + (sizeofEvent + e.name.length)) rest

theorem map_snd_layout (i : ℕ) (events : List InotifyEvent) : (layout i events).map Prod.snd = events := by
  induction events generalizing i with
  | nil => rfl
  | cons e rest ih => rw [layout, List.map_cons, ih]

theorem layout_ge {i : ℕ} {events : List InotifyEvent} {item : ℕ × InotifyEvent}
    (member : item ∈ layout i events) : i ≤ item.1 := by
  induction events generalizing i with
  | nil => contradiction
  | cons e rest ih =>
    rcases List.mem_cons.mp member with rfl | later
    · exact le_rfl
    · exact (Nat.le_add_right _ _).trans (ih later)

/-- No two events have the same offset. -/
theorem nodup_layout (i : ℕ) (events : List InotifyEvent) : ((layout i events).map Prod.fst).Nodup := by
  induction events generalizing i with
  | nil => exact List.nodup_nil
  | cons e rest ih =>
    refine List.nodup_cons.mpr ⟨?_, ih _⟩
    intro member
    obtain ⟨item, present, same⟩ := List.mem_map.mp member
    have later := layout_ge present
    simp only [sizeofEvent] at later
    omega

/-- All calls the loop ever makes: those of the events before the first one it cannot pass. -/
theorem evtGetLoop_calls {mem : Memory} {len : ℤ} {i : ℕ} {events : List InotifyEvent} {watches : List Watch}
    (holds : Holds mem i (events.flatMap InotifyEvent.bytes))
    (whole : len = i + (events.flatMap InotifyEvent.bytes).length)
    (room : (events.flatMap InotifyEvent.bytes).length ≤ inotifyBufsize) {fuel : ℕ} (enough : events.length ≤ fuel) :
    (evtGetLoop mem len fuel i watches).calls =
      tagged (yields watches) ((layout i events).takeWhile fun item => passes watches item.2) := by
  induction events generalizing i fuel with
  | nil =>
    cases fuel with
    | zero => rfl
    | succ fuel =>
      rw [evtGetLoop, if_neg (by simp [whole])]
      rfl
  | cons e rest ih =>
    rw [List.flatMap_cons, holds_append] at holds
    obtain ⟨first, later⟩ := holds
    rw [List.flatMap_cons, List.length_append, e.length_bytes] at whole room
    have here := at_of_holds first
    have small : e.name.length ≤ inotifyBufsize := by omega
    cases passed : passes watches e with
    | false =>
      rw [evtGetLoop_stuck here small passed, layout, List.takeWhile_cons_of_neg (by simp [passed])]
      rfl
    | true =>
      obtain ⟨fuel, rfl⟩ : ∃ smaller, fuel = smaller + 1 := ⟨fuel - 1, by simp at enough; omega⟩
      have inside : (i : ℤ) < len := by
        simp only [sizeofEvent] at whole
        omega
      rw [e.length_bytes] at later
      have others := ih later (by omega) (by omega) (by simpa using enough)
      rw [evtGetLoop_pass here small inside passed, layout, List.takeWhile_cons_of_pos (by simp [passed])]
      cases yielded : yields watches e with
      | none =>
        exact others.trans (tagged_none yielded _).symm
      | some call =>
        exact (congrArg (List.cons (i, call)) others).trans (tagged_some yielded _).symm

/-! ## Nothing lost -/

/-- From some iteration on, the calls for wanted events are exactly the wanted calls, in order. -/
def NothingLost (watches : List Watch) (events : List InotifyEvent) (run : ℕ → EvtGet) : Prop :=
  ∃ n, ∀ iterations ≥ n,
    ((run iterations).calls.filter fun call => call.1 ∈ (tagged (wants watches) (layout 0 events)).map Prod.fst) =
      tagged (wants watches) (layout 0 events)

/-- The path of the event fits into the buffer of the loop. -/
def Fits (watches : List Watch) (e : InotifyEvent) : Prop :=
  ∀ watch, vfsWatchFindnodeByfd watches e.wd = some watch →
    watch.path.length + 1 + e.text.length ≤ pathMax - 2

/-- A mask that leads to a call leads to different calls for different paths. -/
theorem dispatch_inj {mask : UInt32} {path other : Text} (some_ : (dispatch mask path).isSome) :
    dispatch mask other = dispatch mask path ↔ other = path := by
  unfold dispatch at some_ ⊢
  split_ifs at some_ ⊢ <;> simp_all

/-- A wanted event is handled as wanted exactly if its path fits. -/
theorem wanted_iff_fits {watches : List Watch} {e : InotifyEvent} (wanted : (wants watches e).isSome) :
    passes watches e = true ∧ yields watches e = wants watches e ↔ Fits watches e := by
  cases found : vfsWatchFindnodeByfd watches e.wd with
  | none => simp [wants, found] at wanted
  | some watch =>
    have named : (!e.hidden && packageName e.text) = true := by
      by_contra other
      simp [wants, found, other] at wanted
    have call : wants watches e = dispatch e.mask (watch.path ++ '/' :: e.text) := by
      simp only [wants, found, if_pos named]
    rw [call] at wanted
    obtain ⟨visible, package⟩ := Bool.and_eq_true_iff.mp named
    have nonempty : e.name ≠ [] := by
      intro empty
      have text : e.text = [] := by simp [InotifyEvent.text, empty]
      rw [text] at package
      contradiction
    have fits : Fits watches e ↔ joinPath watch.path e.text = watch.path ++ '/' :: e.text := by
      rw [joinPath_eq_iff, Fits, found]
      simp
    rw [fits, call]
    simp only [passes, yields, found]
    constructor
    · rintro ⟨-, same⟩
      exact (dispatch_inj wanted).mp same
    · intro whole
      rw [whole, isPackage_of_packageName package]
      simp [nonempty, visible]

/-- No wanted event is lost exactly if every one fits and the loop passes all events before it. -/
theorem inotify_nothing_lost_iff {mem : Memory} {watches : List Watch} {events : List InotifyEvent}
    (holds : Holds mem 0 (events.flatMap InotifyEvent.bytes))
    (room : (events.flatMap InotifyEvent.bytes).length ≤ inotifyBufsize) :
    NothingLost watches events (vfsInotifyEvtGet mem (events.flatMap InotifyEvent.bytes).length watches) ↔
      ∀ before e after, events = before ++ e :: after → (wants watches e).isSome →
        (∀ other ∈ before, passes watches other = true) ∧ Fits watches e := by
  have calls {iterations : ℕ} (enough : events.length ≤ iterations) :
      (vfsInotifyEvtGet mem (events.flatMap InotifyEvent.bytes).length watches iterations).calls =
        tagged (yields watches) ((layout 0 events).takeWhile fun item => passes watches item.2) :=
    evtGetLoop_calls holds (by push_cast; omega) room enough
  have scan : kept (passes watches) (yields watches) (wants watches) (layout 0 events) =
      tagged (wants watches) (layout 0 events) ↔
        Unhindered (passes watches) (yields watches) (wants watches) events := by
    rw [kept_eq_iff (nodup_layout 0 events), map_snd_layout]
  have limit : NothingLost watches events
      (vfsInotifyEvtGet mem (events.flatMap InotifyEvent.bytes).length watches) ↔
        kept (passes watches) (yields watches) (wants watches) (layout 0 events) =
          tagged (wants watches) (layout 0 events) := by
    constructor
    · rintro ⟨n, all⟩
      have late := all (max n events.length) (le_max_left ..)
      rw [calls (le_max_right ..)] at late
      exact late
    · intro same
      refine ⟨events.length, fun iterations enough => ?_⟩
      rw [calls enough]
      exact same
  rw [limit, scan]
  refine forall_congr' fun before => forall_congr' fun e => forall_congr' fun after => ?_
  refine imp_congr_right fun _ => imp_congr_right fun wanted => ?_
  rw [wanted_iff_fits wanted]

/-- The directory `/p`, watched. -/
def watchP : Watch := { mask := 0x6c8, fd := 1, path := ['/', 'p'] }

/-- `a.pkg` was written. -/
def wroteA : InotifyEvent := { wd := 1, mask := inCloseWrite, name := [97, 46, 112, 107, 103, 0] }

/-- `b.xar` was deleted. -/
def deletedB : InotifyEvent := { wd := 1, mask := inDelete, name := [98, 46, 120, 97, 114, 0] }

/-- `c.txt` was written. -/
def wroteC : InotifyEvent := { wd := 1, mask := inCloseWrite, name := [99, 46, 116, 120, 116, 0] }

theorem inotify_nothing_lost_two : NothingLost [watchP] [wroteA, deletedB]
    (vfsInotifyEvtGet (image ([wroteA, deletedB].flatMap InotifyEvent.bytes)) 44 [watchP]) := by
  apply (inotify_nothing_lost_iff (holds_image _) (by decide)).mpr
  have passed : ∀ e ∈ [wroteA, deletedB], passes [watchP] e = true := by decide
  have fits : ∀ e ∈ [wroteA, deletedB], ['/', 'p'].length + 1 + e.text.length ≤ pathMax - 2 := by decide
  intro before e after split _
  refine ⟨fun other member => passed other (split ▸ List.mem_append_left _ member), ?_⟩
  intro watch found
  have only : watch = watchP := List.mem_singleton.mp (List.mem_of_find?_eq_some found)
  rw [only]
  exact fits e (split ▸ List.mem_append_right _ List.mem_cons_self)

/-- A text file in front of a package: the loop returns, and the package is never imported. -/
theorem inotify_loses_package :
    wants [watchP] wroteA = some (.pkgImport ['/', 'p', '/', 'a', '.', 'p', 'k', 'g']) ∧
    (∀ iterations, (vfsInotifyEvtGet (image ([wroteC, wroteA].flatMap InotifyEvent.bytes)) 44 [watchP]
      iterations).calls = []) ∧
    ¬ NothingLost [watchP] [wroteC, wroteA]
      (vfsInotifyEvtGet (image ([wroteC, wroteA].flatMap InotifyEvent.bytes)) 44 [watchP]) := by
  have stuck : passes [watchP] wroteC = false := by decide
  have wanted : wants [watchP] wroteA = some (.pkgImport ['/', 'p', '/', 'a', '.', 'p', 'k', 'g']) := by decide
  refine ⟨wanted, fun iterations => ?_, ?_⟩
  · have holds := holds_image ([wroteC, wroteA].flatMap InotifyEvent.bytes)
    rw [List.flatMap_cons, holds_append] at holds
    exact evtGetLoop_stuck (at_of_holds holds.1) (by decide) stuck iterations
  · intro all
    have reached := (inotify_nothing_lost_iff (holds_image _) (by decide)).mp all [wroteC] wroteA [] rfl
      (by rw [wanted]; rfl)
    rw [reached.1 wroteC (List.mem_singleton.mpr rfl)] at stuck
    contradiction

end FsPkg.Vfs
