import FsPkg.Proofs.VfsInotifyEnds
import FsPkg.Proofs.VfsWalkSpec

/-! # What counts as a package

The walker and the watcher share one test, made on the whole path and on four characters. A name with
a longer extension passes it, a name without a dot is judged by a dot in the directory, and if the
directory has none either there is nothing to compare.
-/

namespace FsPkg.Vfs

open Machine
open Pkg (Text)

/-- The four characters that are compared. -/
def beginsLikePackage (ext : Text) : Bool :=
  strncmpEq ext ['.', 'p', 'k', 'g'] 4 || strncmpEq ext ['.', 'x', 'a', 'r'] 4

section Text

variable {c : Char} {s t ext : Text}

theorem isPackage_eq (path : Text) : isPackage path = (strrchr path '.').map beginsLikePackage := rfl

theorem strrchr_append_of_none (absent : strrchr t c = none) :
    strrchr (s ++ t) c = (strrchr s c).map (· ++ t) := by
  induction s with
  | nil => exact absent
  | cons x rest ih =>
    rw [List.cons_append, strrchr, strrchr, ih]
    cases strrchr rest c with
    | some found => rfl
    | none =>
      by_cases same : x = c
      · simp [same]
      · simp [same]

theorem beginsLikePackage_iff : beginsLikePackage ext = true ↔
    ext.take 4 = ['.', 'p', 'k', 'g'] ∨ ext.take 4 = ['.', 'x', 'a', 'r'] := by
  simp [beginsLikePackage, strncmpEq]

/-- A slash behind the extension changes nothing: it is in neither of the two. -/
theorem beginsLikePackage_slash (ext name : Text) :
    beginsLikePackage (ext ++ '/' :: name) = beginsLikePackage ext := by
  rw [Bool.eq_iff_iff, beginsLikePackage_iff, beginsLikePackage_iff]
  by_cases long : 4 ≤ ext.length
  · rw [List.take_append_of_le_length long]
  · have slash : '/' ∈ (ext ++ '/' :: name).take 4 := by
      rw [List.take_append]
      obtain ⟨n, room⟩ : ∃ n, 4 - ext.length = n + 1 := ⟨4 - ext.length - 1, by omega⟩
      rw [room, List.take_succ_cons]
      simp
    have short : (ext.take 4).length ≠ 4 := by
      rw [List.length_take]
      omega
    constructor
    · rintro (pkg | xar)
      · rw [pkg] at slash
        exact absurd slash (by decide)
      · rw [xar] at slash
        exact absurd slash (by decide)
    · rintro (pkg | xar)
      · exact absurd (congrArg List.length pkg) short
      · exact absurd (congrArg List.length xar) short

/-- A package name: four characters of an extension, and no more. -/
theorem packageName_of_some (found : strrchr t '.' = some ext) :
    packageName t = true ↔ beginsLikePackage ext = true ∧ ext.length = 4 := by
  rw [beginsLikePackage_iff, packageName, decide_eq_true_iff, found, Option.some.injEq, Option.some.injEq]
  constructor
  · rintro (rfl | rfl) <;> simp
  · rintro ⟨begins, length⟩
    rwa [List.take_of_length_le length.le] at begins

theorem packageName_of_none (absent : strrchr t '.' = none) : packageName t = false := by
  simp [packageName, absent]

end Text

/-! ## The two decisions -/

/-- What a walk of one entry decides: nothing if it faults, otherwise whether to import. -/
def Walk.decision (walk : Walk) : Option Bool :=
  if walk.ending = .fault then none else some (walk.imports ≠ [])

/-- What the watcher decides on one event. -/
def EvtGet.decision (result : EvtGet) : Option Bool :=
  if result.ending = .fault then none else some (result.calls ≠ [])

/-- A file of that name, as the walk meets it. -/
def walkDecision (fs : FileSystem) (dir : Text) (depth : ℕ) (name : Text) : Option Bool :=
  (walkEntries fs (vfsDirWalkRecurse fs maxRecurse) dir depth [name]).decision

/-- An event in a watched directory, alone in the buffer. -/
def watchDecision (watch : Watch) (e : InotifyEvent) : Option Bool :=
  (vfsInotifyEvtGet (image e.bytes) e.bytes.length [watch] 2).decision

/-- An event about a visible name, of a kind that leads to a call. -/
structure Tells (watch : Watch) (e : InotifyEvent) (dir name : Text) : Prop where
  path : watch.path = dir
  fd : watch.fd = e.wd
  text : e.text = name
  call : (dispatch e.mask dir).isSome
  room : e.bytes.length ≤ inotifyBufsize

section Decisions

variable {dir name : Text}

theorem walkDecision_eq {fs : FileSystem} (shown : visible name = true) (isFile : fs.isDir (joinPath dir name) = false)
    (depth : ℕ) : walkDecision fs dir depth name = isPackage (joinPath dir name) := by
  have dot : name.head? ≠ some '.' := of_decide_eq_true shown
  rw [walkDecision, walkEntries, if_neg dot]
  simp only [isFile]
  cases isPackage (joinPath dir name) with
  | none => rfl
  | some package =>
    cases package with
    | false => rfl
    | true => rfl

theorem dispatch_isSome (mask : UInt32) (path other : Text) :
    (dispatch mask path).isSome = (dispatch mask other).isSome := by
  unfold dispatch
  split_ifs <;> rfl

theorem watchDecision_eq {watch : Watch} {e : InotifyEvent} (tells : Tells watch e dir name)
    (shown : visible name = true) (nonempty : name ≠ []) :
    watchDecision watch e = isPackage (joinPath dir name) := by
  obtain ⟨rfl, fd, rfl, call, room⟩ := tells
  have found : vfsWatchFindnodeByfd [watch] e.wd = some watch := by simp [vfsWatchFindnodeByfd, fd]
  have named : e.name ≠ [] := by
    intro empty
    simp [InotifyEvent.text, empty] at nonempty
  have visible : e.hidden = false := by
    rw [Bool.eq_false_iff]
    intro hidden
    obtain ⟨rest, split⟩ := List.head?_eq_some_iff.mp (of_decide_eq_true hidden)
    have dot : e.text.head? = some '.' := by simp [InotifyEvent.text, split]
    exact of_decide_eq_true shown dot
  have one : [e].flatMap InotifyEvent.bytes = e.bytes := List.flatMap_singleton ..
  have holds : Holds (image e.bytes) 0 ([e].flatMap InotifyEvent.bytes) := one ▸ holds_image e.bytes
  have length : (e.bytes.length : ℤ) = (0 : ℕ) + ([e].flatMap InotifyEvent.bytes).length := by rw [one]; simp
  have fits : ([e].flatMap InotifyEvent.bytes).length ≤ inotifyBufsize := one ▸ room
  have calls : (vfsInotifyEvtGet (image e.bytes) e.bytes.length [watch] 2).calls = _ :=
    evtGetLoop_calls holds length fits (by simp)
  have ending : (vfsInotifyEvtGet (image e.bytes) e.bytes.length [watch] 2).ending = _ :=
    evtGetLoop_ending holds length fits (by simp)
  obtain ⟨byte, bytes, split⟩ := List.exists_cons_of_ne_nil named
  have first (behind : UInt8) : firstByte e [] behind ≠ 46 := by
    simpa [InotifyEvent.hidden, firstByte, split] using visible
  rw [watchDecision, EvtGet.decision, calls, ending, layout, layout, evtGetEnding, if_neg (first _)]
  cases verdict : isPackage (joinPath watch.path e.text) with
  | none =>
    have stuck : passes [watch] e = false := by simp [passes, found, verdict]
    have faulty : faults [watch] e = true := by simp [faults, named, found, verdict]
    simp [stuck, faulty]
  | some package =>
    cases package with
    | false =>
      have stuck : passes [watch] e = false := by simp [passes, found, verdict]
      have sound : faults [watch] e = false := by simp [faults, found, verdict]
      simp [stuck, sound, Scan.tagged]
    | true =>
      have passed : passes [watch] e = true := by simp [passes, found, verdict, named, visible]
      have yielded : (yields [watch] e).isSome := by
        rw [dispatch_isSome _ _ (joinPath watch.path e.text)] at call
        simpa [yields, found] using call
      obtain ⟨made, some_⟩ := Option.isSome_iff_exists.mp yielded
      simp [passed, evtGetEnding, Scan.tagged, some_]

/-- Both decide that the entry is a package exactly if its name is that of a package. -/
structure Recognized (dir name : Text) : Prop where
  walker : ∀ fs depth, fs.isDir (joinPath dir name) = false → walkDecision fs dir depth name = some (packageName name)
  watcher : ∀ watch e, Tells watch e dir name → watchDecision watch e = some (packageName name)

/-- No longer extension, and a name without a dot in a directory with another extension. -/
def Distinctive (dir name : Text) : Prop :=
  match strrchr name '.' with
  | some ext => beginsLikePackage ext = true → ext.length = 4
  | none => ∃ ext, strrchr dir '.' = some ext ∧ beginsLikePackage ext = false

/-- What is left of a path that is too long has a dot, and is judged as the name should be. -/
def CutAlike (dir name : Text) : Prop :=
  ∃ ext, strrchr ((dir ++ '/' :: name).take (pathMax - 2)) '.' = some ext ∧ beginsLikePackage ext = packageName name

/-- An empty file system. -/
def nothingThere : FileSystem where
  readdir _ := none
  isDir _ := false
  distinct listed := by contradiction
  plain listed := by contradiction

theorem recognized_iff (shown : visible name = true) (nonempty : name ≠ []) :
    Recognized dir name ↔ isPackage (joinPath dir name) = some (packageName name) := by
  constructor
  · intro recognized
    have judged : walkDecision nothingThere dir 1 name = isPackage (joinPath dir name) := walkDecision_eq shown rfl 1
    rw [← judged]
    exact recognized.walker nothingThere 1 rfl
  · intro exact_
    refine ⟨fun fs depth isFile => ?_, fun watch e tells => ?_⟩
    · rw [walkDecision_eq shown isFile, exact_]
    · rw [watchDecision_eq tells shown nonempty, exact_]

/-- A path that fits is judged by the name exactly if the name is distinctive. -/
theorem isPackage_child_iff : isPackage (dir ++ '/' :: name) = some (packageName name) ↔ Distinctive dir name := by
  have split : dir ++ '/' :: name = (dir ++ ['/']) ++ name := by simp
  unfold Distinctive
  cases found : strrchr name '.' with
  | some ext =>
    rw [isPackage_eq, split, strrchr_append_of_some found, Option.map_some, Option.some.injEq, Bool.eq_iff_iff,
      packageName_of_some found]
    simp
  | none =>
    have absent : strrchr ('/' :: name) '.' = none := by rw [strrchr, found]; rfl
    rw [isPackage_eq, strrchr_append_of_none absent, packageName_of_none found, Option.map_map]
    cases strrchr dir '.' with
    | none => simp
    | some ext => simp [beginsLikePackage_slash]

/-- The walker and the watcher always decide alike; they recognize packages by their names exactly if
the name is distinctive, or, for a path that is too long, if what is left of it is judged alike. -/
theorem package_recognition_iff (shown : visible name = true) (nonempty : name ≠ []) :
    (∀ fs depth watch e, fs.isDir (joinPath dir name) = false → Tells watch e dir name →
      walkDecision fs dir depth name = watchDecision watch e) ∧
    (Recognized dir name ↔
      if dir.length + 1 + name.length ≤ pathMax - 2 then Distinctive dir name else CutAlike dir name) := by
  refine ⟨fun fs depth watch e isFile tells => ?_, ?_⟩
  · rw [walkDecision_eq shown isFile, watchDecision_eq tells shown nonempty]
  · rw [recognized_iff shown nonempty]
    split_ifs with fits
    · rw [joinPath_fits fits]
      exact isPackage_child_iff
    · rw [joinPath_eq, isPackage_eq, Option.map_eq_some_iff]
      rfl

theorem package_recognition_a : Tells watchP wroteA ['/', 'p'] ['a', '.', 'p', 'k', 'g'] ∧
    Recognized ['/', 'p'] ['a', '.', 'p', 'k', 'g'] := by
  refine ⟨⟨rfl, rfl, by decide, by decide, by decide⟩, ?_⟩
  apply (package_recognition_iff (by decide) (by decide)).2.mpr
  rw [if_pos (by decide)]
  exact fun _ => rfl

/-- `a.pkgx` is taken for a package, and the test of `README` reads through `NULL`. -/
theorem package_recognition_inexact :
    ¬ Recognized ['/', 'p'] ['a', '.', 'p', 'k', 'g', 'x'] ∧
    walkDecision nothingThere ['/', 'p'] 1 ['a', '.', 'p', 'k', 'g', 'x'] = some true ∧
    ¬ Recognized ['/', 'p'] ['R', 'E', 'A', 'D', 'M', 'E'] ∧
    walkDecision nothingThere ['/', 'p'] 1 ['R', 'E', 'A', 'D', 'M', 'E'] = none := by
  have longer : walkDecision nothingThere ['/', 'p'] 1 ['a', '.', 'p', 'k', 'g', 'x'] = some true := by decide +kernel
  have null : walkDecision nothingThere ['/', 'p'] 1 ['R', 'E', 'A', 'D', 'M', 'E'] = none := by decide +kernel
  refine ⟨fun recognized => ?_, longer, fun recognized => ?_, null⟩
  · have same := recognized.walker nothingThere 1 rfl
    rw [longer] at same
    exact absurd same (by decide)
  · have same := recognized.walker nothingThere 1 rfl
    rw [null] at same
    contradiction

end Decisions

end FsPkg.Vfs
