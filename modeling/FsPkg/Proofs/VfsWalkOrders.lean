import FsPkg.Proofs.VfsWalkSpec

/-! # The order of `readdir`

Two file systems that differ in nothing but the order of their directories. A walk finds the same
packages in both only if no directory with packages in it or below it has a file of another kind,
since the loop stops at that file, wherever it comes.
-/

namespace FsPkg.Vfs

open Pkg (Text)

/-- The same file system, with its directories listed in another order. -/
structure Reorders (fs fs' : FileSystem) : Prop where
  isDir : fs'.isDir = fs.isDir
  readdir : ∀ path, Option.Rel List.Perm (fs.readdir path) (fs'.readdir path)

namespace Reorders

variable {fs fs' : FileSystem} {path : Text}

theorem entries (reorders : Reorders fs fs') (path : Text) : (fs.entries path).Perm (fs'.entries path) := by
  have rel := reorders.readdir path
  unfold FileSystem.entries
  generalize fs.readdir path = names at rel ⊢
  generalize fs'.readdir path = names' at rel ⊢
  cases rel with
  | some perm => exact perm.filter _
  | none => exact .refl _

theorem refl (fs : FileSystem) : Reorders fs fs where
  isDir := rfl
  readdir path := by
    cases fs.readdir path with
    | some names => exact .some (.refl names)
    | none => exact .none

theorem symm (reorders : Reorders fs fs') : Reorders fs' fs where
  isDir := reorders.isDir.symm
  readdir path := by
    have rel := reorders.readdir path
    generalize fs.readdir path = names at rel ⊢
    generalize fs'.readdir path = names' at rel ⊢
    cases rel with
    | some perm => exact .some perm.symm
    | none => exact .none

theorem mem_entries (reorders : Reorders fs fs') {name : Text} :
    name ∈ fs.entries path ↔ name ∈ fs'.entries path :=
  (reorders.entries path).mem_iff

theorem dir (reorders : Reorders fs fs') {dir : Text} (reached : Dir fs path dir) : Dir fs' path dir := by
  induction reached with
  | here => exact .here
  | sub member isDir rest ih =>
    exact .sub (reorders.mem_entries.mp member) (by rw [reorders.isDir]; exact isDir) ih

theorem importable (reorders : Reorders fs fs') {p : Text} (importable : Importable fs path p) :
    Importable fs' path p := by
  obtain ⟨dir, name, reached, member, isFile, rest⟩ := importable
  exact ⟨dir, name, reorders.dir reached, reorders.mem_entries.mp member, by rw [reorders.isDir]; exact isFile, rest⟩

theorem pathsFit (reorders : Reorders fs fs') (fit : PathsFit fs path) : PathsFit fs' path :=
  fun dir reached name member => fit dir (reorders.symm.dir reached) name (reorders.mem_entries.mpr member)

theorem allDotted (reorders : Reorders fs fs') (dotted : AllDotted fs path) : AllDotted fs' path := by
  intro dir reached name member isFile
  rw [reorders.isDir] at isFile
  exact dotted dir (reorders.symm.dir reached) name (reorders.mem_entries.mpr member) isFile

theorem unmixed (reorders : Reorders fs fs') (unmixed : Unmixed fs path) : Unmixed fs' path := by
  intro dir reached other p importable
  refine unmixed dir (reorders.symm.dir reached) (fun packages => other ?_) p (reorders.symm.importable importable)
  intro name member isFile
  rw [reorders.isDir] at isFile
  exact packages name (reorders.mem_entries.mpr member) isFile

theorem countDirs (reorders : Reorders fs fs') (path : Text) :
    countDirs fs' path (fs'.entries path) = countDirs fs path (fs.entries path) := by
  unfold Vfs.countDirs
  rw [reorders.isDir, (reorders.entries path).countP_eq]

theorem shallow (reorders : Reorders fs fs') {depth : ℕ} (shallow : Shallow fs depth path) :
    Shallow fs' depth path := by
  induction shallow with
  | @mk depth path bound below ih =>
    have count := reorders.countDirs path
    refine .mk (by rw [count]; exact bound) ?_
    intro name member isDir
    rw [count]
    rw [reorders.isDir] at isDir
    exact ih name (reorders.mem_entries.mpr member) isDir

theorem nested (reorders : Reorders fs fs') {n s : ℕ} {dir : Text} (nested : Nested fs path n s dir) :
    Nested fs' path n s dir := by
  induction nested with
  | here => exact .here
  | @sub path name dir n s member isDir rest ih =>
    rw [← reorders.countDirs path]
    exact .sub (reorders.mem_entries.mp member) (by rw [reorders.isDir]; exact isDir) ih

theorem fitUpTo (reorders : Reorders fs fs') {levels : ℕ} (fit : FitUpTo fs levels path) : FitUpTo fs' levels path :=
  fun n s dir nested bound name member =>
    fit n s dir (reorders.symm.nested nested) bound name (reorders.mem_entries.mpr member)

end Reorders

/-! ## One path first -/

/-- In each directory, the entries that satisfy a condition come first. -/
def FileSystem.arrange (fs : FileSystem) (front : Text → Text → Bool) : FileSystem where
  readdir path := (fs.readdir path).map fun names => names.filter (front path) ++ names.filter fun name => !front path name
  isDir := fs.isDir
  distinct {path names} listed := by
    obtain ⟨all, found, rfl⟩ := Option.map_eq_some_iff.mp listed
    exact (List.filter_append_perm _ all).nodup_iff.mpr (fs.distinct found)
  plain {path names} listed name member := by
    obtain ⟨all, found, rfl⟩ := Option.map_eq_some_iff.mp listed
    exact fs.plain found name ((List.filter_append_perm _ all).mem_iff.mp member)

/-- The entries on the way to a path come first. -/
def FileSystem.lead (fs : FileSystem) (target : Text) : FileSystem :=
  fs.arrange fun path name => name = component path target

section Lead

variable {fs : FileSystem} {path dir file : Text}

theorem reorders_arrange (fs : FileSystem) (front : Text → Text → Bool) : Reorders fs (fs.arrange front) where
  isDir := rfl
  readdir path := by
    change Option.Rel _ (fs.readdir path) ((fs.readdir path).map _)
    cases fs.readdir path with
    | none => exact .none
    | some names => exact .some (List.filter_append_perm _ names).symm

theorem entries_arrange (fs : FileSystem) (front : Text → Text → Bool) (path : Text) :
    (fs.arrange front).entries path =
      (fs.entries path).filter (front path) ++ (fs.entries path).filter fun name => !front path name := by
  have readdir : (fs.arrange front).readdir path = (fs.readdir path).map fun names =>
      names.filter (front path) ++ names.filter fun name => !front path name := rfl
  rw [FileSystem.entries, FileSystem.entries, readdir]
  cases fs.readdir path with
  | none => rfl
  | some names =>
    simp only [Option.map_some, Option.getD_some, List.filter_append, List.filter_filter, Bool.and_comm]

theorem reorders_lead (fs : FileSystem) (target : Text) : Reorders fs (fs.lead target) :=
  reorders_arrange fs _

/-- The one entry of a name. -/
theorem filter_entries {name : Text} (member : name ∈ fs.entries path) :
    (fs.entries path).filter (fun other => decide (other = name)) = [name] := by
  rw [List.filter_eq, List.count_eq_one_of_mem (fs.nodup_entries path) member, List.replicate_one]

theorem entries_lead {target name : Text} (member : name ∈ fs.entries path)
    (first : component path target = name) : ∃ rest, (fs.lead target).entries path = name :: rest := by
  subst first
  rw [FileSystem.lead, entries_arrange, filter_entries member]
  exact ⟨_, rfl⟩

theorem Dir.trans {middle : Text} (first : Dir fs path middle) (second : Dir fs middle dir) : Dir fs path dir := by
  induction first with
  | here => exact second
  | sub member isDir rest ih => exact .sub member isDir (ih second)

/-- Whatever lies in a reachable directory lies below the one it is reached from. -/
theorem Dir.child_below (reached : Dir fs path dir) (name : Text) : Below path (child dir name) := by
  induction reached with
  | here => exact below_child _ _
  | sub member isDir rest ih => exact ih.of_child

theorem Importable.trans {p : Text} (reached : Dir fs path dir) (importable : Importable fs dir p) :
    Importable fs path p := by
  obtain ⟨deeper, name, rest, file⟩ := importable
  exact ⟨deeper, name, reached.trans rest, file⟩

theorem Importable.path_below {p : Text} (importable : Importable fs path p) : Below path p := by
  obtain ⟨dir, name, reached, -, -, -, rfl⟩ := importable
  exact reached.child_below name

/-- What the walk does if the way to a file comes first: it faults, or imports the file, or leaves out
whatever else could be imported from its directory. -/
structure Led (fs : FileSystem) (dir file : Text) (walk : Walk) : Prop where
  faults : isPackage (child dir file) = none → walk.ending = .fault
  imports : isPackage (child dir file) = some true → child dir file ∈ walk.imports
  skips : isPackage (child dir file) = some false → ∀ p, Importable fs dir p → p ∉ walk.imports

/-- What comes behind the first entry is reached through another one. -/
theorem Led.andThen {fs' : FileSystem} {name : Text} {first : Walk} {rest : List Text} {recurse : Text → ℕ → Walk}
    {depth : ℕ} (led : Led fs dir file first) (joined : Joined path (name :: rest)) (distinct : (name :: rest).Nodup)
    (plain : ∀ other ∈ name :: rest, '/' ∉ other)
    (below : ∀ other ∈ rest, fs'.isDir (child path other) = true →
      ∀ deeper, ∀ p ∈ (recurse (child path other) deeper).imports, Below (child path other) p)
    (reached : Dir fs (child path name) dir) :
    Led fs dir file (first.andThen (walkEntries fs' recurse path depth rest)) := by
  refine ⟨fun fault => ?_, fun package => mem_andThen_left (led.imports package), fun other p importable member => ?_⟩
  · rw [Walk.andThen, led.faults fault]
    exact led.faults fault
  · rcases mem_andThen member with here | there
    · exact led.skips other p importable here
    · obtain ⟨next, present, -, leads⟩ := walkEntries_sound there
      have through : component path p = name :=
        component_below (plain name List.mem_cons_self) (.inr (importable.trans reached).path_below)
      have instead : component path p = next := by
        apply component_below (plain next (List.mem_cons_of_mem _ present))
        rcases leads.joined (joined next (List.mem_cons_of_mem _ present)).2 with ⟨-, -, same⟩ | ⟨isDir, deeper, imported⟩
        · exact .inl same
        · exact .inr (below next present isDir deeper p imported)
      have same : name = next := through.symm.trans instead
      exact (List.nodup_cons.mp distinct).1 (same ▸ present)

theorem walk_lead (fit : PathsFit fs path) (reached : Dir fs path dir) (member : file ∈ fs.entries dir)
    (isFile : fs.isDir (child dir file) = false) {levels depth : ℕ} (shallow : Shallow fs depth path)
    (bound : depth < maxRecurse) (enough : maxRecurse ≤ depth + levels) :
    Led fs dir file (vfsDirWalkRecurse (fs.lead (child dir file)) levels path depth) := by
  have reorders := reorders_lead fs (child dir file)
  induction levels generalizing path depth with
  | zero => omega
  | succ levels ih =>
    have joined := (reorders.pathsFit fit).joined
    have distinct := (fs.lead (child dir file)).nodup_entries path
    rw [vfsDirWalkRecurse_entries]
    cases reached with
    | here =>
      obtain ⟨rest, entries⟩ := entries_lead member
        (component_below (FileSystem.plain_entries member) (.inl rfl))
      rw [entries] at joined ⊢
      rw [walkEntries_cons (joined file List.mem_cons_self).1, (joined file List.mem_cons_self).2, reorders.isDir,
        isFile, if_neg Bool.false_ne_true]
      constructor
      · intro fault
        rw [fault]
      · intro package
        rw [package]
        exact mem_andThen_left (List.mem_singleton.mpr rfl)
      · intro other p _
        rw [other]
        exact List.not_mem_nil
    | @sub _ name _ present isDir rest =>
      obtain ⟨others, entries⟩ := entries_lead present
        (component_below (FileSystem.plain_entries present) (.inr (rest.child_below file)))
      have plain : ∀ other ∈ (fs.lead (child dir file)).entries path, '/' ∉ other :=
        fun other => FileSystem.plain_entries
      rw [entries] at joined distinct plain ⊢
      obtain ⟨narrow, deeper⟩ := shallow
      have dirs : countDirs fs path (fs.entries path) ≠ 0 :=
        (List.countP_pos_iff.mpr ⟨name, present, isDir⟩).ne'
      have deep : depth + 1 < maxRecurse := by
        have := narrow dirs
        omega
      rw [walkEntries_cons (joined name List.mem_cons_self).1, (joined name List.mem_cons_self).2, reorders.isDir,
        isDir, if_pos rfl, if_pos deep]
      have led := ih (fit.below present isDir) rest ((deeper name present isDir).mono (by omega)) deep (by omega)
      refine led.andThen joined distinct plain ?_ rest
      intro other later isDir' level p imported
      have known : other ∈ fs.entries path := by
        rw [reorders.mem_entries, entries]
        exact List.mem_cons_of_mem _ later
      exact ((walk_sound ((reorders.pathsFit (fit.below known isDir')).upTo levels) level).2 p imported).2

end Lead

/-! ## All roots -/

/-- The walk of one configured root. -/
def rootWalk (fs : FileSystem) (root : Text) : Walk :=
  vfsDirWalkRecurse fs maxRecurse root 1

theorem walkRoots_returns {fs : FileSystem} {roots : List Text}
    (returns : ∀ root ∈ roots, (rootWalk fs root).ending = .returned) :
    walkRoots fs roots = ⟨roots.map fun root => (rootWalk fs root).imports, .returned⟩ := by
  induction roots with
  | nil => rfl
  | cons root rest ih =>
    have here : (vfsDirWalkRecurse fs maxRecurse root 1).ending = .returned := returns root List.mem_cons_self
    rw [walkRoots, ih fun other member => returns other (List.mem_cons_of_mem _ member)]
    simp only [here]
    rfl

theorem walkRoots_returned {fs : FileSystem} {roots : List Text} (returned : (walkRoots fs roots).ending = .returned) :
    ∀ root ∈ roots, (rootWalk fs root).ending = .returned := by
  induction roots with
  | nil => simp
  | cons root rest ih =>
    rw [walkRoots] at returned
    cases ending : (vfsDirWalkRecurse fs maxRecurse root 1).ending with
    | returned =>
      simp only [ending] at returned
      exact List.forall_mem_cons.mpr ⟨ending, ih returned⟩
    | fault => simp [ending] at returned
    | running => simp [ending] at returned

/-- The directories `vfs_dir_walk` starts from. -/
def packageRoots (conf : Option Text) : List Text :=
  configuredRoots (conf.getD ['/', 'p', 'k', 'g'])

/-- A visible file with the name of a package. -/
def Wanted (fs : FileSystem) (root p : Text) : Prop :=
  ∃ dir name, Dir fs root dir ∧ name ∈ fs.entries dir ∧ fs.isDir (child dir name) = false ∧
    packageName name = true ∧ p = child dir name

/-- In every order the walk returns, imports every package below each root once, and imports the
same paths. -/
def FindsEveryPackage (fs : FileSystem) (conf : Option Text) : Prop :=
  ∀ fs', Reorders fs fs' → (vfsDirWalk fs' conf).ending = .returned ∧
    ∀ k root, (packageRoots conf)[k]? = some root →
      (∀ p, Wanted fs root p → ((vfsDirWalk fs' conf).imports.getD k []).count p = 1) ∧
      ∀ p, p ∈ (vfsDirWalk fs' conf).imports.getD k [] ↔ p ∈ (vfsDirWalk fs conf).imports.getD k []

section Roots

variable {fs fs' : FileSystem} {conf : Option Text} {root p : Text}

theorem Wanted.importable (wanted : Wanted fs root p) : Importable fs root p := by
  obtain ⟨dir, name, reached, member, isFile, named, rfl⟩ := wanted
  exact ⟨dir, name, reached, member, isFile, isPackage_of_packageName named dir, rfl⟩

/-- A walk that returns imports for each root what the walk of that root imports. -/
theorem imports_getD (returned : (vfsDirWalk fs conf).ending = .returned) {k : ℕ}
    (listed : (packageRoots conf)[k]? = some root) :
    (vfsDirWalk fs conf).imports.getD k [] = (rootWalk fs root).imports := by
  have all : vfsDirWalk fs conf = _ := walkRoots_returns (walkRoots_returned returned)
  have at_ : (configuredRoots (conf.getD ['/', 'p', 'k', 'g']))[k]? = some root := listed
  rw [all, List.getD_eq_getElem?_getD, List.getElem?_map, at_]
  rfl

/-- No imported path is longer than the buffer allows. -/
theorem length_walk {levels depth : ℕ} {path : Text} :
    ∀ p ∈ (vfsDirWalkRecurse fs levels path depth).imports, p.length ≤ pathMax - 2 := by
  induction levels generalizing path depth with
  | zero => simp [vfsDirWalkRecurse]
  | succ levels ih =>
    intro p imported
    rw [vfsDirWalkRecurse_entries] at imported
    obtain ⟨name, -, -, leads⟩ := walkEntries_sound imported
    cases leads with
    | file _ _ same =>
      rw [same, joinPath_eq, List.length_take]
      exact Nat.min_le_left ..
    | dir _ _ _ imported => exact ih p imported

/-- In each order, a root below which nothing goes wrong is imported whole. -/
theorem mem_rootWalk (reorders : Reorders fs fs') (shallow : Shallow fs 1 root) (fit : PathsFit fs root)
    (dotted : AllDotted fs root) (unmixed : Unmixed fs root) :
    p ∈ (rootWalk fs' root).imports ↔ Importable fs root p := by
  constructor
  · intro member
    exact reorders.symm.importable ((walk_sound ((reorders.pathsFit fit).upTo _) _).2 p member).1
  · intro importable
    exact walk_complete (reorders.pathsFit fit) (reorders.allDotted dotted) (reorders.unmixed unmixed)
      (reorders.shallow shallow) (by decide) (by decide) (reorders.importable importable)

/-- A root with a file without a dot, or with other files among packages, is not walked alike in every
order. -/
theorem FindsEveryPackage.clean (finds : FindsEveryPackage fs conf) (member : root ∈ packageRoots conf)
    (shallow : Shallow fs 1 root) (fit : PathsFit fs root) : AllDotted fs root ∧ Unmixed fs root := by
  obtain ⟨k, listed⟩ := List.getElem?_of_mem member
  have returned {fs' : FileSystem} (reorders : Reorders fs fs') : (rootWalk fs' root).ending = .returned :=
    walkRoots_returned (finds fs' reorders).1 root member
  have same {fs' : FileSystem} (reorders : Reorders fs fs') (p : Text) :
      p ∈ (rootWalk fs' root).imports ↔ p ∈ (vfsDirWalk fs conf).imports.getD k [] := by
    obtain ⟨ending, all⟩ := finds fs' reorders
    rw [← (all k root listed).2 p, imports_getD ending listed]
  have led {dir file : Text} (reached : Dir fs root dir) (present : file ∈ fs.entries dir)
      (isFile : fs.isDir (child dir file) = false) :
      Led fs dir file (rootWalk (fs.lead (child dir file)) root) :=
    walk_lead fit reached present isFile shallow (by decide) (by decide)
  have dotted : AllDotted fs root := by
    intro dir reached file present isFile fault
    have faults := (led reached present isFile).faults fault
    rw [returned (reorders_lead fs (child dir file))] at faults
    contradiction
  refine ⟨dotted, ?_⟩
  intro dir reached other p importable
  obtain ⟨file, present, isFile, verdict⟩ : ∃ file ∈ fs.entries dir, fs.isDir (child dir file) = false ∧
      isPackage (child dir file) ≠ some true := by
    simpa [Packages] using other
  -- one order puts the other file first, another one the package
  have skipped : p ∉ (rootWalk (fs.lead (child dir file)) root).imports := by
    refine (led reached present isFile).skips ?_ p importable
    match known : isPackage (child dir file) with
    | none => exact absurd known (dotted dir reached file present isFile)
    | some false => rfl
    | some true => exact absurd known verdict
  obtain ⟨deeper, name, rest, present', isFile', package, rfl⟩ := importable
  have imported := (led (reached.trans rest) present' isFile').imports package
  rw [same (reorders_lead fs _)] at skipped imported
  exact skipped imported

/-- The walk finds every package exactly if no root has a file without a dot below it, nor a directory
with packages and other files; and it never does if the path of a package is too long. -/
theorem walk_finds_every_package_iff (shallow : ∀ root ∈ packageRoots conf, Shallow fs 1 root) :
    ((∀ root ∈ packageRoots conf, PathsFit fs root) →
      (FindsEveryPackage fs conf ↔ ∀ root ∈ packageRoots conf, AllDotted fs root ∧ Unmixed fs root)) ∧
    (FindsEveryPackage fs conf → ∀ root ∈ packageRoots conf, ∀ p, Wanted fs root p → p.length ≤ pathMax - 2) := by
  refine ⟨fun fit => ⟨fun finds root member => ?_, fun clean fs' reorders => ?_⟩, fun finds root member p wanted => ?_⟩
  · exact finds.clean member (shallow root member) (fit root member)
  · have returned {fs' : FileSystem} (reorders : Reorders fs fs') : (vfsDirWalk fs' conf).ending = .returned := by
      have all : vfsDirWalk fs' conf = _ := walkRoots_returns fun root member =>
        walk_returns ((reorders.pathsFit (fit root member)).upTo _) (reorders.allDotted (clean root member).1)
          (by decide) (by decide)
      rw [all]
    have self := Reorders.refl fs
    refine ⟨returned reorders, fun k root listed => ?_⟩
    have member := List.mem_of_getElem? listed
    obtain ⟨dotted, unmixed⟩ := clean root member
    have imported {fs' : FileSystem} (reorders : Reorders fs fs') {p : Text} :
        p ∈ (rootWalk fs' root).imports ↔ Importable fs root p :=
      mem_rootWalk reorders (shallow root member) (fit root member) dotted unmixed
    rw [imports_getD (returned reorders) listed, imports_getD (returned self) listed]
    refine ⟨fun p wanted => ?_, fun p => (imported reorders).trans (imported self).symm⟩
    exact List.count_eq_one_of_mem (walk_sound ((reorders.pathsFit (fit root member)).upTo _) _).1
      ((imported reorders).mpr wanted.importable)
  · obtain ⟨k, listed⟩ := List.getElem?_of_mem member
    obtain ⟨ending, all⟩ := finds fs (.refl fs)
    have once := (all k root listed).1 p wanted
    rw [imports_getD ending listed] at once
    exact length_walk p (List.count_pos_iff.mp (once.symm ▸ Nat.one_pos))

/-- The directory `/p` with `a.pkg` and a subdirectory `d`, in which there is `b.xar`. -/
def packagesOnly : FileSystem where
  readdir path :=
    if path = ['/', 'p'] then some [['d'], ['a', '.', 'p', 'k', 'g']]
    else if path = ['/', 'p', '/', 'd'] then some [['b', '.', 'x', 'a', 'r']]
    else none
  isDir path := path = ['/', 'p'] ∨ path = ['/', 'p', '/', 'd']
  distinct {path names} listed := by
    split_ifs at listed <;> cases listed <;> decide
  plain {path names} listed := by
    split_ifs at listed <;> cases listed <;> decide

theorem subdirs_packagesOnly :
    (∀ name ∈ packagesOnly.entries ['/', 'p'], packagesOnly.isDir (child ['/', 'p'] name) = true → name = ['d']) ∧
    ∀ name ∈ packagesOnly.entries ['/', 'p', '/', 'd'],
      packagesOnly.isDir (child ['/', 'p', '/', 'd'] name) = false := by
  decide

theorem dir_packagesOnly {dir : Text} (reached : Dir packagesOnly ['/', 'p'] dir) :
    dir = ['/', 'p'] ∨ dir = ['/', 'p', '/', 'd'] := by
  cases reached with
  | here => exact .inl rfl
  | @sub _ name _ member isDir rest =>
    obtain rfl := subdirs_packagesOnly.1 name member isDir
    cases rest with
    | here => exact .inr rfl
    | @sub _ name _ member isDir =>
      have isFile := subdirs_packagesOnly.2 name member
      exact absurd (isFile.symm.trans isDir) Bool.false_ne_true

theorem forall_packagesOnly {P : Text → Prop} (top : P ['/', 'p']) (sub : P ['/', 'p', '/', 'd']) :
    ∀ dir, Dir packagesOnly ['/', 'p'] dir → P dir := by
  intro dir reached
  rcases dir_packagesOnly reached with rfl | rfl
  · exact top
  · exact sub

theorem walk_finds_every_package_two : FindsEveryPackage packagesOnly (some ['/', 'p']) := by
  have roots : packageRoots (some ['/', 'p']) = [['/', 'p']] := by decide
  have only {P : Text → Prop} (here : P ['/', 'p']) : ∀ root ∈ packageRoots (some ['/', 'p']), P root := by
    rw [roots]
    exact List.forall_mem_singleton.mpr here
  have shallow : Shallow packagesOnly 1 ['/', 'p'] := by
    refine .mk (by decide) fun name member isDir => ?_
    obtain rfl := subdirs_packagesOnly.1 name member isDir
    refine .mk (by decide) fun name member isDir => ?_
    exact absurd ((subdirs_packagesOnly.2 name member).symm.trans isDir) Bool.false_ne_true
  have fit : PathsFit packagesOnly ['/', 'p'] := forall_packagesOnly (by decide) (by decide)
  have packages : ∀ dir, Dir packagesOnly ['/', 'p'] dir → Packages packagesOnly dir (packagesOnly.entries dir) := by
    unfold Packages
    exact forall_packagesOnly (by decide) (by decide)
  refine ((walk_finds_every_package_iff (only shallow)).1 (only fit)).mpr (only ⟨?_, ?_⟩)
  · intro dir reached name member isFile
    rw [packages dir reached name member isFile]
    exact Option.some_ne_none _
  · exact fun dir reached other => absurd (packages dir reached) other

/-- The directory `/p` with a text file in front of a package. -/
def textFirst : FileSystem where
  readdir path := if path = ['/', 'p'] then some [['c', '.', 't', 'x', 't'], ['a', '.', 'p', 'k', 'g']] else none
  isDir path := path = ['/', 'p']
  distinct {path names} listed := by
    split_ifs at listed
    cases listed
    decide
  plain {path names} listed := by
    split_ifs at listed
    cases listed
    decide

/-- The loop returns at the text file, and the package is not imported. -/
theorem text_file_hides_package :
    (∀ root ∈ packageRoots (some ['/', 'p']), Shallow textFirst 1 root) ∧
    Wanted textFirst ['/', 'p'] ['/', 'p', '/', 'a', '.', 'p', 'k', 'g'] ∧
    (vfsDirWalk textFirst (some ['/', 'p'])).imports = [[]] ∧
    ¬ FindsEveryPackage textFirst (some ['/', 'p']) := by
  have roots : packageRoots (some ['/', 'p']) = [['/', 'p']] := by decide
  have noDirs : ∀ name ∈ textFirst.entries ['/', 'p'], textFirst.isDir (child ['/', 'p'] name) = false := by decide
  have wanted : Wanted textFirst ['/', 'p'] ['/', 'p', '/', 'a', '.', 'p', 'k', 'g'] :=
    ⟨['/', 'p'], ['a', '.', 'p', 'k', 'g'], .here, by decide, by decide, by decide, rfl⟩
  have nothing : (vfsDirWalk textFirst (some ['/', 'p'])).imports = [[]] := by decide +kernel
  refine ⟨?_, wanted, nothing, fun finds => ?_⟩
  · rw [roots]
    refine List.forall_mem_singleton.mpr (.mk (by decide) fun name member isDir => ?_)
    exact absurd ((noDirs name member).symm.trans isDir) Bool.false_ne_true
  · have once := ((finds textFirst (.refl _)).2 0 ['/', 'p'] (by rw [roots]; rfl)).1 _ wanted
    rw [nothing] at once
    contradiction

end Roots

end FsPkg.Vfs
