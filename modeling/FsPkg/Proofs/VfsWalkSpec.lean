import FsPkg.Model.Vfs
import Mathlib.Data.List.Basic
import Mathlib.Data.List.Nodup

/-! # What a walk imports

Visible entries are those the walk looks at: the names that do not begin with a dot, in the
directories it can reach through such names. Lemmas about the loop over one directory come first,
for any function in the place of the recursive call; the walk of a whole directory follows by
induction on the levels.
-/

namespace FsPkg.Vfs

open Pkg (Text)

def child (dir name : Text) : Text := dir ++ '/' :: name

def visible (name : Text) : Bool := name.head? ≠ some '.'

/-- The visible names in a directory, in the order of `readdir`. -/
def FileSystem.entries (fs : FileSystem) (path : Text) : List Text :=
  ((fs.readdir path).getD []).filter visible

theorem FileSystem.nodup_entries (fs : FileSystem) (path : Text) : (fs.entries path).Nodup := by
  unfold FileSystem.entries
  cases listed : fs.readdir path with
  | none => exact List.nodup_nil
  | some names => exact (fs.distinct listed).filter _

theorem FileSystem.plain_entries {fs : FileSystem} {path name : Text} (member : name ∈ fs.entries path) :
    '/' ∉ name := by
  unfold FileSystem.entries at member
  cases listed : fs.readdir path with
  | none => simp [listed] at member
  | some names =>
    rw [listed] at member
    exact fs.plain listed name (List.mem_filter.mp member).1

theorem FileSystem.visible_entries {fs : FileSystem} {path name : Text} (member : name ∈ fs.entries path) :
    visible name = true :=
  (List.mem_filter.mp member).2

/-! ## The loop over one directory -/

/-- The names are visible, and joined with the directory they fit into the buffer. -/
def Joined (path : Text) (names : List Text) : Prop :=
  ∀ name ∈ names, visible name = true ∧ joinPath path name = child path name

section Entries

variable {fs : FileSystem} {recurse : Text → ℕ → Walk} {path : Text}

theorem walkEntries_filter (depth : ℕ) (names : List Text) :
    walkEntries fs recurse path depth names = walkEntries fs recurse path depth (names.filter visible) := by
  induction names generalizing depth with
  | nil => rfl
  | cons name rest ih =>
    by_cases dot : name.head? = some '.'
    · rw [List.filter_cons_of_neg (by simp [visible, dot]), ← ih, walkEntries, if_pos dot]
    · rw [List.filter_cons_of_pos (by simp [visible, dot]), walkEntries, walkEntries, if_neg dot, if_neg dot]
      simp only [ih]

theorem vfsDirWalkRecurse_entries (levels depth : ℕ) :
    vfsDirWalkRecurse fs (levels + 1) path depth =
      walkEntries fs (vfsDirWalkRecurse fs levels) path depth (fs.entries path) := by
  rw [vfsDirWalkRecurse, FileSystem.entries]
  cases fs.readdir path with
  | none => rfl
  | some names => exact walkEntries_filter depth names

/-- The first entry decides: a directory, a package, another file, or a file without a dot. -/
theorem walkEntries_cons {name : Text} (shown : visible name = true) (depth : ℕ) (rest : List Text) :
    walkEntries fs recurse path depth (name :: rest) =
      if fs.isDir (joinPath path name) then
        if depth + 1 < maxRecurse then
          (recurse (joinPath path name) (depth + 1)).andThen (walkEntries fs recurse path (depth + 1) rest)
        else walkEntries fs recurse path (depth + 1) rest
      else match isPackage (joinPath path name) with
        | none => { ending := .fault }
        | some false => { ending := .returned }
        | some true => Walk.andThen ⟨[joinPath path name], .returned⟩ (walkEntries fs recurse path depth rest) := by
  have plain : name.head? ≠ some '.' := of_decide_eq_true shown
  rw [walkEntries]
  exact if_neg plain

theorem walkEntries_cons_hidden {name : Text} (hidden : visible name = false) (depth : ℕ) (rest : List Text) :
    walkEntries fs recurse path depth (name :: rest) = walkEntries fs recurse path depth rest := by
  have dot : name.head? = some '.' := by simpa [visible] using hidden
  rw [walkEntries, if_pos dot]

theorem mem_andThen {first second : Walk} {p : Text} (member : p ∈ (first.andThen second).imports) :
    p ∈ first.imports ∨ p ∈ second.imports := by
  unfold Walk.andThen at member
  split at member
  · exact List.mem_append.mp member
  · exact .inl member

theorem mem_andThen_left {first second : Walk} {p : Text} (member : p ∈ first.imports) :
    p ∈ (first.andThen second).imports := by
  unfold Walk.andThen
  split
  · exact List.mem_append_left _ member
  · exact member

theorem mem_andThen_right {first second : Walk} {p : Text} (returned : first.ending = .returned)
    (member : p ∈ second.imports) : p ∈ (first.andThen second).imports := by
  rw [Walk.andThen, returned]
  exact List.mem_append_right _ member

/-- What an entry can lead to: itself, or what its walk imports. -/
inductive Leads (fs : FileSystem) (recurse : Text → ℕ → Walk) (path : Text) (depth : ℕ) (p name : Text) : Prop
  | file (isFile : fs.isDir (joinPath path name) = false) (package : isPackage (joinPath path name) = some true)
      (same : p = joinPath path name)
  | dir (isDir : fs.isDir (joinPath path name) = true) {deeper : ℕ} (low : depth < deeper) (high : deeper < maxRecurse)
      (imported : p ∈ (recurse (joinPath path name) deeper).imports)

theorem Leads.mono {depth less : ℕ} {p name : Text} (leads : Leads fs recurse path depth p name) (smaller : less ≤ depth) :
    Leads fs recurse path less p name := by
  cases leads with
  | file isFile package same => exact .file isFile package same
  | dir isDir low high imported => exact .dir isDir (by omega) high imported

/-- Every import comes from some visible entry. -/
theorem walkEntries_sound {names : List Text} {depth : ℕ} {p : Text}
    (member : p ∈ (walkEntries fs recurse path depth names).imports) :
    ∃ name ∈ names, visible name = true ∧ Leads fs recurse path depth p name := by
  induction names generalizing depth with
  | nil => contradiction
  | cons name rest ih =>
    have later {level : ℕ} (deeper : depth ≤ level) (member : p ∈ (walkEntries fs recurse path level rest).imports) :
        ∃ other ∈ name :: rest, visible other = true ∧ Leads fs recurse path depth p other := by
      obtain ⟨other, present, shown, leads⟩ := ih member
      exact ⟨other, List.mem_cons_of_mem _ present, shown, leads.mono deeper⟩
    cases shown : visible name with
    | false =>
      rw [walkEntries_cons_hidden shown] at member
      exact later le_rfl member
    | true =>
      rw [walkEntries_cons shown] at member
      cases isDir : fs.isDir (joinPath path name) with
      | true =>
        rw [isDir, if_pos rfl] at member
        split_ifs at member with high
        · rcases mem_andThen member with here | there
          · exact ⟨name, List.mem_cons_self, shown, .dir isDir (Nat.lt_succ_self depth) high here⟩
          · exact later (Nat.le_succ depth) there
        · exact later (Nat.le_succ depth) member
      | false =>
        rw [isDir, if_neg Bool.false_ne_true] at member
        match verdict : isPackage (joinPath path name) with
        | none => simp [verdict] at member
        | some false => simp [verdict] at member
        | some true =>
          simp only [verdict] at member
          rcases mem_andThen member with here | there
          · exact ⟨name, List.mem_cons_self, shown, .file isDir verdict (List.mem_singleton.mp here)⟩
          · exact later le_rfl there

/-- With paths that fit, an import is an entry, or comes from the walk of one. -/
theorem Leads.joined {depth : ℕ} {p name : Text} (leads : Leads fs recurse path depth p name)
    (whole : joinPath path name = child path name) :
    (fs.isDir (child path name) = false ∧ isPackage (child path name) = some true ∧ p = child path name) ∨
      fs.isDir (child path name) = true ∧ ∃ deeper, p ∈ (recurse (child path name) deeper).imports := by
  cases leads with
  | file isFile package same =>
    rw [whole] at isFile package same
    exact .inl ⟨isFile, package, same⟩
  | dir isDir _ _ imported =>
    rw [whole] at isDir imported
    exact .inr ⟨isDir, _, imported⟩

/-- No file in a directory makes `strncmp` read through `NULL`. -/
def Dotted (fs : FileSystem) (path : Text) (names : List Text) : Prop :=
  ∀ name ∈ names, fs.isDir (child path name) = false → isPackage (child path name) ≠ none

/-- Every file in a directory is taken for a package. -/
def Packages (fs : FileSystem) (path : Text) (names : List Text) : Prop :=
  ∀ name ∈ names, fs.isDir (child path name) = false → isPackage (child path name) = some true

/-- The walks of subdirectories return, from some depth on. -/
def Returning (fs : FileSystem) (recurse : Text → ℕ → Walk) (path : Text) (names : List Text) (depth : ℕ) : Prop :=
  ∀ name ∈ names, fs.isDir (child path name) = true →
    ∀ deeper, depth < deeper → deeper < maxRecurse → (recurse (child path name) deeper).ending = .returned

private theorem Returning.tail {name : Text} {rest : List Text} {depth later : ℕ}
    (returning : Returning fs recurse path (name :: rest) depth) (deeper : depth ≤ later) :
    Returning fs recurse path rest later :=
  fun other member isDir level below bound =>
    returning other (List.mem_cons_of_mem _ member) isDir level (by omega) bound

private theorem andThen_ending {first second : Walk} (returned : first.ending = .returned) :
    (first.andThen second).ending = second.ending := by
  rw [Walk.andThen, returned]

theorem walkEntries_returns {names : List Text} {depth : ℕ} (joined : Joined path names)
    (dotted : Dotted fs path names) (returning : Returning fs recurse path names depth) :
    (walkEntries fs recurse path depth names).ending = .returned := by
  induction names generalizing depth with
  | nil => rfl
  | cons name rest ih =>
    have later (level : ℕ) (deeper : depth ≤ level) :
        (walkEntries fs recurse path level rest).ending = .returned :=
      ih (fun other member => joined other (List.mem_cons_of_mem _ member))
        (fun other member => dotted other (List.mem_cons_of_mem _ member)) (returning.tail deeper)
    rw [walkEntries_cons (joined name List.mem_cons_self).1, (joined name List.mem_cons_self).2]
    cases isDir : fs.isDir (child path name) with
    | true =>
      rw [if_pos rfl]
      split_ifs with bound
      · rw [andThen_ending (returning name List.mem_cons_self isDir _ (Nat.lt_succ_self _) bound)]
        exact later _ (Nat.le_succ _)
      · exact later _ (Nat.le_succ _)
    | false =>
      rw [if_neg Bool.false_ne_true]
      match verdict : isPackage (child path name) with
      | none => exact absurd verdict (dotted name List.mem_cons_self isDir)
      | some false => rfl
      | some true => exact later _ le_rfl

/-- The subdirectories among the names. -/
def countDirs (fs : FileSystem) (path : Text) (names : List Text) : ℕ :=
  names.countP fun name => fs.isDir (child path name)

/-- Without other files, every package is imported, and a subdirectory is walked with a depth that counts
the subdirectories in front of it, unless that is too deep. -/
theorem walkEntries_complete {names : List Text} {depth : ℕ} (joined : Joined path names)
    (packages : Packages fs path names) (returning : Returning fs recurse path names depth) :
    ∀ name ∈ names, (fs.isDir (child path name) = false →
        child path name ∈ (walkEntries fs recurse path depth names).imports) ∧
      (fs.isDir (child path name) = true → ∃ deeper, depth < deeper ∧ deeper ≤ depth + countDirs fs path names ∧
        (deeper < maxRecurse → ∀ p ∈ (recurse (child path name) deeper).imports,
          p ∈ (walkEntries fs recurse path depth names).imports)) := by
  induction names generalizing depth with
  | nil => simp
  | cons name rest ih =>
    have joined' : Joined path rest := fun other member => joined other (List.mem_cons_of_mem _ member)
    have packages' : Packages fs path rest := fun other member => packages other (List.mem_cons_of_mem _ member)
    rw [walkEntries_cons (joined name List.mem_cons_self).1, (joined name List.mem_cons_self).2]
    cases isDir : fs.isDir (child path name) with
    | true =>
      have count : countDirs fs path (name :: rest) = countDirs fs path rest + 1 := List.countP_cons_of_pos isDir
      have notFile : fs.isDir (child path name) ≠ false := by simp [isDir]
      rw [count, if_pos rfl]
      have others := ih joined' packages' (returning.tail (Nat.le_succ depth))
      intro other member
      by_cases deep : depth + 1 < maxRecurse
      · have returned := returning name List.mem_cons_self isDir _ (Nat.lt_succ_self _) deep
        rw [if_pos deep]
        rcases List.mem_cons.mp member with rfl | member
        · refine ⟨fun isFile => absurd isFile notFile, fun _ => ?_⟩
          exact ⟨depth + 1, by omega, by omega, fun _ p => mem_andThen_left⟩
        · obtain ⟨file, dir⟩ := others other member
          refine ⟨fun isFile => mem_andThen_right returned (file isFile), fun isDir' => ?_⟩
          obtain ⟨deeper, low, high, included⟩ := dir isDir'
          exact ⟨deeper, by omega, by omega, fun bound p imported =>
            mem_andThen_right returned (included bound p imported)⟩
      · rw [if_neg deep]
        rcases List.mem_cons.mp member with rfl | member
        · refine ⟨fun isFile => absurd isFile notFile, fun _ => ?_⟩
          exact ⟨depth + 1, by omega, by omega, fun bound => absurd bound deep⟩
        · obtain ⟨file, dir⟩ := others other member
          refine ⟨file, fun isDir' => ?_⟩
          obtain ⟨deeper, low, high, included⟩ := dir isDir'
          exact ⟨deeper, by omega, by omega, included⟩
    | false =>
      have count : countDirs fs path (name :: rest) = countDirs fs path rest :=
        List.countP_cons_of_neg (by simp [isDir])
      rw [count, if_neg Bool.false_ne_true, packages name List.mem_cons_self isDir]
      intro other member
      rcases List.mem_cons.mp member with rfl | member
      · refine ⟨fun _ => mem_andThen_left (List.mem_singleton.mpr rfl), fun isDir' => ?_⟩
        exact absurd (isDir.symm.trans isDir') Bool.false_ne_true
      · obtain ⟨file, dir⟩ := ih joined' packages' (returning.tail le_rfl) other member
        refine ⟨fun isFile => mem_andThen_right rfl (file isFile), fun isDir' => ?_⟩
        obtain ⟨deeper, low, high, included⟩ := dir isDir'
        exact ⟨deeper, low, high, fun bound p imported => mem_andThen_right rfl (included bound p imported)⟩

/-! ## Paths below a directory -/

/-- The entry of a directory through which a path leads. -/
def component (path p : Text) : Text :=
  (p.drop (path.length + 1)).takeWhile (· ≠ '/')

/-- A path below a directory. -/
def Below (path p : Text) : Prop :=
  ∃ s, p = path ++ '/' :: s

theorem component_below {name : Text} (plain : '/' ∉ name) {p : Text}
    (below : p = child path name ∨ Below (child path name) p) : component path p = name := by
  have shape : ∃ s, p = path ++ '/' :: (name ++ s) ∧ (s = [] ∨ s.head? = some '/') := by
    rcases below with rfl | ⟨s, rfl⟩
    · exact ⟨[], by simp [child], .inl rfl⟩
    · exact ⟨'/' :: s, by simp [child], .inr rfl⟩
  obtain ⟨s, rfl, stops⟩ := shape
  have drop : (path ++ '/' :: (name ++ s)).drop (path.length + 1) = name ++ s := by
    rw [List.drop_append]
    simp
  have stop : s.takeWhile (· ≠ '/') = [] := by
    rcases stops with rfl | slash
    · rfl
    · obtain ⟨rest, rfl⟩ := List.head?_eq_some_iff.mp slash
      exact List.takeWhile_cons_of_neg (by simp)
  have passed : ∀ c ∈ name, decide (c ≠ '/') = true :=
    fun c member => decide_eq_true fun slash => plain (slash ▸ member)
  rw [component, drop, List.takeWhile_append_of_pos passed, stop, List.append_nil]

theorem below_child (path name : Text) : Below path (child path name) := ⟨name, rfl⟩

theorem Below.of_child {name p : Text} (below : Below (child path name) p) : Below path p := by
  obtain ⟨s, rfl⟩ := below
  exact ⟨name ++ '/' :: s, by simp [child]⟩

/-- Paths that lead through different entries are different, so no path is imported twice. -/
theorem walkEntries_nodup {names : List Text} {depth : ℕ} (joined : Joined path names) (distinct : names.Nodup)
    (plain : ∀ name ∈ names, '/' ∉ name)
    (nodup : ∀ name ∈ names, fs.isDir (child path name) = true →
      ∀ deeper, (recurse (child path name) deeper).imports.Nodup)
    (below : ∀ name ∈ names, fs.isDir (child path name) = true →
      ∀ deeper, ∀ p ∈ (recurse (child path name) deeper).imports, Below (child path name) p) :
    (walkEntries fs recurse path depth names).imports.Nodup := by
  induction names generalizing depth with
  | nil => exact List.nodup_nil
  | cons name rest ih =>
    obtain ⟨fresh, distinct'⟩ := List.nodup_cons.mp distinct
    have joined' : Joined path rest := fun other member => joined other (List.mem_cons_of_mem _ member)
    have later (level : ℕ) : (walkEntries fs recurse path level rest).imports.Nodup :=
      ih joined' distinct' (fun other member => plain other (List.mem_cons_of_mem _ member))
        (fun other member => nodup other (List.mem_cons_of_mem _ member))
        (fun other member => below other (List.mem_cons_of_mem _ member))
    have elsewhere (level : ℕ) (p : Text) (member : p ∈ (walkEntries fs recurse path level rest).imports) :
        component path p ≠ name := by
      obtain ⟨other, present, -, leads⟩ := walkEntries_sound member
      have inside : component path p = other := by
        apply component_below (plain other (List.mem_cons_of_mem _ present))
        rcases leads.joined (joined' other present).2 with ⟨-, -, same⟩ | ⟨isDir, deeper, imported⟩
        · exact .inl same
        · exact .inr (below other (List.mem_cons_of_mem _ present) isDir deeper p imported)
      rw [inside]
      exact fun same => fresh (same ▸ present)
    have both {first : Walk} {level : ℕ} (nodup : first.imports.Nodup)
        (here : ∀ p ∈ first.imports, component path p = name) :
        (first.andThen (walkEntries fs recurse path level rest)).imports.Nodup := by
      unfold Walk.andThen
      split
      · refine List.nodup_append.mpr ⟨nodup, later level, ?_⟩
        intro p left q right same
        exact elsewhere level q right (same ▸ here p left)
      · exact nodup
    rw [walkEntries_cons (joined name List.mem_cons_self).1, (joined name List.mem_cons_self).2]
    split_ifs with isDir
    · apply both (nodup name List.mem_cons_self isDir _)
      intro p imported
      exact component_below (plain name List.mem_cons_self) (.inr (below name List.mem_cons_self isDir _ p imported))
    · exact later _
    · split
      · exact List.nodup_nil
      · exact List.nodup_nil
      · apply both (by simp)
        intro p only
        exact component_below (plain name List.mem_cons_self) (.inl (List.mem_singleton.mp only))

end Entries

/-! ## The whole walk -/

/-- The directories that can be reached from one through visible names. -/
inductive Dir (fs : FileSystem) : Text → Text → Prop
  | here {path : Text} : Dir fs path path
  | sub {path name dir : Text} (member : name ∈ fs.entries path) (isDir : fs.isDir (child path name) = true)
      (rest : Dir fs (child path name) dir) : Dir fs path dir

/-- A visible file that the walk takes for a package. -/
def Importable (fs : FileSystem) (path p : Text) : Prop :=
  ∃ dir name, Dir fs path dir ∧ name ∈ fs.entries dir ∧ fs.isDir (child dir name) = false ∧
    isPackage (child dir name) = some true ∧ p = child dir name

/-- All visible paths fit into the buffer. -/
def PathsFit (fs : FileSystem) (path : Text) : Prop :=
  ∀ dir, Dir fs path dir → ∀ name ∈ fs.entries dir, dir.length + 1 + name.length ≤ pathMax - 2

/-- A directory so many levels down, and the number of subdirectories in all those passed on the way. -/
inductive Nested (fs : FileSystem) : Text → ℕ → ℕ → Text → Prop
  | here {path : Text} : Nested fs path 0 0 path
  | sub {path name dir : Text} {n s : ℕ} (member : name ∈ fs.entries path)
      (isDir : fs.isDir (child path name) = true) (rest : Nested fs (child path name) n s dir) :
      Nested fs path (n + 1) (countDirs fs path (fs.entries path) + s) dir

/-- The visible paths fit into the buffer, for so many levels of directories. -/
def FitUpTo (fs : FileSystem) (levels : ℕ) (path : Text) : Prop :=
  ∀ n s dir, Nested fs path n s dir → n < levels → ∀ name ∈ fs.entries dir, dir.length + 1 + name.length ≤ pathMax - 2

/-- In whatever order the subdirectories come, none is too deep: even the last one, whose depth
counts all its siblings, is not, nor is anything below it. -/
inductive Shallow (fs : FileSystem) : ℕ → Text → Prop
  | mk {depth : ℕ} {path : Text}
      (bound : countDirs fs path (fs.entries path) ≠ 0 → depth + countDirs fs path (fs.entries path) < maxRecurse)
      (below : ∀ name ∈ fs.entries path, fs.isDir (child path name) = true →
        Shallow fs (depth + countDirs fs path (fs.entries path)) (child path name)) : Shallow fs depth path

section Whole

variable {fs : FileSystem} {path : Text}

theorem Shallow.mono {depth less : ℕ} (shallow : Shallow fs depth path) (smaller : less ≤ depth) :
    Shallow fs less path := by
  induction shallow generalizing less with
  | mk bound below ih =>
    refine .mk (fun some_ => ?_) fun name member isDir => ih name member isDir (by omega)
    have := bound some_
    omega

theorem PathsFit.joined (fit : PathsFit fs path) : Joined path (fs.entries path) :=
  fun name member => ⟨FileSystem.visible_entries member, joinPath_fits (fit path .here name member)⟩

theorem Nested.dir {dir : Text} {n s : ℕ} (nested : Nested fs path n s dir) : Dir fs path dir := by
  induction nested with
  | here => exact .here
  | sub member isDir rest ih => exact .sub member isDir ih

theorem PathsFit.upTo (fit : PathsFit fs path) (levels : ℕ) : FitUpTo fs levels path :=
  fun _ _ dir nested _ => fit dir nested.dir

theorem FitUpTo.joined {levels : ℕ} (fit : FitUpTo fs (levels + 1) path) : Joined path (fs.entries path) :=
  fun name member =>
    ⟨FileSystem.visible_entries member, joinPath_fits (fit 0 0 path .here (Nat.succ_pos levels) name member)⟩

theorem FitUpTo.below {levels : ℕ} (fit : FitUpTo fs (levels + 1) path) {name : Text}
    (member : name ∈ fs.entries path) (isDir : fs.isDir (child path name) = true) :
    FitUpTo fs levels (child path name) :=
  fun _ _ dir nested bound => fit _ _ dir (.sub member isDir nested) (Nat.succ_lt_succ bound)

theorem PathsFit.below (fit : PathsFit fs path) {name : Text} (member : name ∈ fs.entries path)
    (isDir : fs.isDir (child path name) = true) : PathsFit fs (child path name) :=
  fun dir reached => fit dir (.sub member isDir reached)

theorem Importable.below {name p : Text} (importable : Importable fs (child path name) p)
    (member : name ∈ fs.entries path) (isDir : fs.isDir (child path name) = true) : Importable fs path p := by
  obtain ⟨dir, file, reached, rest⟩ := importable
  exact ⟨dir, file, .sub member isDir reached, rest⟩

/-- Only packages are imported, each below the directory and none twice. -/
theorem walk_sound {levels : ℕ} (fit : FitUpTo fs levels path) (depth : ℕ) :
    (vfsDirWalkRecurse fs levels path depth).imports.Nodup ∧
      ∀ p ∈ (vfsDirWalkRecurse fs levels path depth).imports, Importable fs path p ∧ Below path p := by
  induction levels generalizing path depth with
  | zero => exact ⟨List.nodup_nil, by simp [vfsDirWalkRecurse]⟩
  | succ levels ih =>
    rw [vfsDirWalkRecurse_entries]
    have nested {name : Text} (member : name ∈ fs.entries path) (isDir : fs.isDir (child path name) = true)
        (deeper : ℕ) := ih (fit.below member isDir) deeper
    constructor
    · apply walkEntries_nodup fit.joined (fs.nodup_entries path) (fun name => FileSystem.plain_entries)
      · exact fun name member isDir deeper => (nested member isDir deeper).1
      · exact fun name member isDir deeper p imported => ((nested member isDir deeper).2 p imported).2
    · intro p imported
      obtain ⟨name, member, -, leads⟩ := walkEntries_sound imported
      rcases leads.joined (fit.joined name member).2 with ⟨isFile, package, same⟩ | ⟨isDir, deeper, imported⟩
      · refine ⟨⟨path, name, .here, member, isFile, package, same⟩, ?_⟩
        rw [same]
        exact below_child path name
      · obtain ⟨importable, below⟩ := (nested member isDir deeper).2 p imported
        exact ⟨importable.below member isDir, below.of_child⟩

/-- No visible file makes the walk fault. -/
def AllDotted (fs : FileSystem) (path : Text) : Prop :=
  ∀ dir, Dir fs path dir → Dotted fs dir (fs.entries dir)

/-- A directory with a file that is not taken for a package has no packages, also not further below. -/
def Unmixed (fs : FileSystem) (path : Text) : Prop :=
  ∀ dir, Dir fs path dir → ¬ Packages fs dir (fs.entries dir) → ∀ p, ¬ Importable fs dir p

theorem walk_returns {levels : ℕ} (fit : FitUpTo fs levels path) (dotted : AllDotted fs path) {depth : ℕ}
    (bound : depth < maxRecurse) (enough : maxRecurse ≤ depth + levels) :
    (vfsDirWalkRecurse fs levels path depth).ending = .returned := by
  induction levels generalizing path depth with
  | zero => omega
  | succ levels ih =>
    rw [vfsDirWalkRecurse_entries]
    apply walkEntries_returns fit.joined (dotted path .here)
    intro name member isDir deeper low high
    exact ih (fit.below member isDir) (fun dir reached => dotted dir (.sub member isDir reached)) high (by omega)

theorem walk_complete (fit : PathsFit fs path) (dotted : AllDotted fs path) (unmixed : Unmixed fs path)
    {levels depth : ℕ} (shallow : Shallow fs depth path) (bound : depth < maxRecurse)
    (enough : maxRecurse ≤ depth + levels) {p : Text} (importable : Importable fs path p) :
    p ∈ (vfsDirWalkRecurse fs levels path depth).imports := by
  induction levels generalizing path depth with
  | zero => omega
  | succ levels ih =>
    obtain ⟨narrow, below⟩ := shallow
    have packages : Packages fs path (fs.entries path) := by
      by_contra other
      exact unmixed path .here other p importable
    have nested {name : Text} (member : name ∈ fs.entries path) (isDir : fs.isDir (child path name) = true) :
        AllDotted fs (child path name) := fun dir reached => dotted dir (.sub member isDir reached)
    have returning : Returning fs (vfsDirWalkRecurse fs levels) path (fs.entries path) depth :=
      fun name member isDir deeper low high =>
        walk_returns ((fit.below member isDir).upTo levels) (nested member isDir) high (by omega)
    have all := walkEntries_complete fit.joined packages returning
    rw [vfsDirWalkRecurse_entries]
    obtain ⟨dir, file, reached, member, isFile, package, rfl⟩ := importable
    cases reached with
    | here => exact (all file member).1 isFile
    | @sub _ name _ present isDir rest =>
      obtain ⟨deeper, low, high, included⟩ := (all name present).2 isDir
      have bound' : deeper < maxRecurse := by
        have := narrow (by omega)
        omega
      refine included bound' _ (ih (fit.below present isDir) (nested present isDir) ?_
        ((below name present isDir).mono high) bound' (by omega) ⟨dir, file, rest, member, isFile, package, rfl⟩)
      exact fun other reached => unmixed other (.sub present isDir reached)

end Whole

end FsPkg.Vfs
