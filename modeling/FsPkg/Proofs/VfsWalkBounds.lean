import FsPkg.Proofs.VfsWalkOrders

/-! # How deep a walk goes

The depth grows along every chain of calls, so the walk ends on every file system, also where
directories lead back to themselves. But it grows with every subdirectory the loop comes to, so a
directory is skipped for the siblings of its ancestors and not only for how deep it lies.
-/

namespace FsPkg.Vfs

open Pkg (Text)

/-! ## Bounded on every file system -/

section Bounded

variable {fs : FileSystem} {recurse recurse' : Text → ℕ → Walk} {path : Text} {depth : ℕ} {names : List Text}

/-- The loop calls only with a greater depth that is below the limit. -/
theorem walkEntries_congr
    (same : ∀ path deeper, depth < deeper → deeper < maxRecurse → recurse path deeper = recurse' path deeper) :
    walkEntries fs recurse path depth names = walkEntries fs recurse' path depth names := by
  induction names generalizing depth with
  | nil => rfl
  | cons name rest ih =>
    have later := ih same
    have deeper := ih fun path level low high => same path level (Nat.lt_of_succ_lt low) high
    cases shown : visible name with
    | false => rw [walkEntries_cons_hidden shown, walkEntries_cons_hidden shown, later]
    | true =>
      rw [walkEntries_cons shown, walkEntries_cons shown, later, deeper]
      by_cases high : depth + 1 < maxRecurse
      · rw [same _ _ (Nat.lt_succ_self depth) high]
      · simp only [if_neg high]

theorem andThen_ne_running {first second : Walk} (left : first.ending ≠ .running) (right : second.ending ≠ .running) :
    (first.andThen second).ending ≠ .running := by
  unfold Walk.andThen
  split
  · exact right
  · exact left

theorem walkEntries_ends
    (ends : ∀ path deeper, depth < deeper → deeper < maxRecurse → (recurse path deeper).ending ≠ .running) :
    (walkEntries fs recurse path depth names).ending ≠ .running := by
  induction names generalizing depth with
  | nil => simp [walkEntries]
  | cons name rest ih =>
    have later := ih ends
    have deeper := ih fun path level low high => ends path level (Nat.lt_of_succ_lt low) high
    cases shown : visible name with
    | false =>
      rw [walkEntries_cons_hidden shown]
      exact later
    | true =>
      rw [walkEntries_cons shown]
      split_ifs with isDir high
      · exact andThen_ne_running (ends _ _ (Nat.lt_succ_self depth) high) deeper
      · exact deeper
      · split
        · simp
        · simp
        · exact andThen_ne_running (by simp) later

/-- More levels than the depth leaves are never used. -/
theorem walk_levels {levels more : ℕ} (bound : depth < maxRecurse) (enough : maxRecurse ≤ depth + levels)
    (enough' : maxRecurse ≤ depth + more) :
    vfsDirWalkRecurse fs levels path depth = vfsDirWalkRecurse fs more path depth := by
  induction levels generalizing path depth more with
  | zero => omega
  | succ levels ih =>
    obtain ⟨more, rfl⟩ : ∃ fewer, more = fewer + 1 := ⟨more - 1, by omega⟩
    rw [vfsDirWalkRecurse_entries, vfsDirWalkRecurse_entries]
    exact walkEntries_congr fun path deeper low high => ih high (by omega) (by omega)

theorem walk_ends {levels : ℕ} (bound : depth < maxRecurse) (enough : maxRecurse ≤ depth + levels) :
    (vfsDirWalkRecurse fs levels path depth).ending ≠ .running := by
  induction levels generalizing path depth with
  | zero => omega
  | succ levels ih =>
    rw [vfsDirWalkRecurse_entries]
    exact walkEntries_ends fun path deeper low high => ih high (by omega)

/-- The path behind a list of entries, as the buffers hold it. -/
def joinAll (path : Text) (names : List Text) : Text :=
  names.foldl joinPath path

/-- The path behind a list of entries. -/
def childAll (path : Text) (names : List Text) : Text :=
  names.foldl child path

theorem length_childAll (path : Text) (names : List Text) : path.length ≤ (childAll path names).length := by
  induction names generalizing path with
  | nil => exact le_rfl
  | cons name rest ih =>
    have longer : path.length ≤ (child path name).length := by simp [child]
    exact longer.trans (ih (child path name))

/-- Nothing is cut off on the way to a path that fits. -/
theorem joinAll_eq (fits : (childAll path names).length ≤ pathMax - 2) : joinAll path names = childAll path names := by
  induction names generalizing path with
  | nil => rfl
  | cons name rest ih =>
    have first : (child path name).length ≤ pathMax - 2 := (length_childAll (child path name) rest).trans fits
    have whole : joinPath path name = child path name := by
      apply joinPath_fits
      simp only [child, List.length_append, List.length_cons] at first
      omega
    rw [joinAll, List.foldl_cons, whole]
    exact ih fits

/-- Entries on a way that the walk can take. -/
def Components (names : List Text) : Prop :=
  ∀ name ∈ names, visible name = true ∧ '/' ∉ name

/-- Every import is a file behind at most as many visible entries as the depth leaves. -/
theorem walk_imports {levels : ℕ} (bound : depth < maxRecurse) {p : Text}
    (imported : p ∈ (vfsDirWalkRecurse fs levels path depth).imports) :
    ∃ names, names ≠ [] ∧ names.length ≤ maxRecurse - depth ∧ Components names ∧ p = joinAll path names ∧
      fs.isDir p = false := by
  induction levels generalizing path depth with
  | zero => contradiction
  | succ levels ih =>
    rw [vfsDirWalkRecurse_entries] at imported
    obtain ⟨name, member, shown, leads⟩ := walkEntries_sound imported
    have component : visible name = true ∧ '/' ∉ name := ⟨shown, FileSystem.plain_entries member⟩
    cases leads with
    | file isFile _ same =>
      refine ⟨[name], by simp, ?_, List.forall_mem_singleton.mpr component, same, same ▸ isFile⟩
      rw [List.length_singleton]
      omega
    | dir _ low high imported =>
      obtain ⟨names, -, count, components, same, isFile⟩ := ih high imported
      refine ⟨name :: names, by simp, ?_, List.forall_mem_cons.mpr ⟨component, components⟩, same, isFile⟩
      rw [List.length_cons]
      omega

theorem andThen_fault {first second : Walk} (fault : (first.andThen second).ending = .fault) :
    first.ending = .fault ∨ second.ending = .fault := by
  unfold Walk.andThen at fault
  split at fault
  · exact .inr fault
  · exact .inl fault

/-- A file without a dot, or a subdirectory whose walk faults. -/
def Faulty (fs : FileSystem) (recurse : Text → ℕ → Walk) (path name : Text) : Prop :=
  (fs.isDir (joinPath path name) = false ∧ '.' ∉ joinPath path name) ∨
    ∃ deeper, (recurse (joinPath path name) deeper).ending = .fault

theorem walkEntries_fault (fault : (walkEntries fs recurse path depth names).ending = .fault) :
    ∃ name ∈ names, visible name = true ∧ Faulty fs recurse path name := by
  induction names generalizing depth with
  | nil => contradiction
  | cons name rest ih =>
    have later {level : ℕ} (fault : (walkEntries fs recurse path level rest).ending = .fault) :
        ∃ other ∈ name :: rest, visible other = true ∧ Faulty fs recurse path other := by
      obtain ⟨other, present, faulty⟩ := ih fault
      exact ⟨other, List.mem_cons_of_mem name present, faulty⟩
    cases shown : visible name with
    | false =>
      rw [walkEntries_cons_hidden shown] at fault
      exact later fault
    | true =>
      rw [walkEntries_cons shown] at fault
      split_ifs at fault with isDir
      · rcases andThen_fault fault with here | there
        · exact ⟨name, List.mem_cons_self, shown, .inr ⟨_, here⟩⟩
        · exact later there
      · exact later fault
      · split at fault
        · next verdict =>
          rw [isPackage, Option.map_eq_none_iff] at verdict
          exact ⟨name, List.mem_cons_self, shown, .inl ⟨by simpa using isDir, strrchr_eq_none.mp verdict⟩⟩
        · contradiction
        · exact later ((andThen_fault fault).resolve_left (by simp))

theorem walk_fault {levels : ℕ} (fault : (vfsDirWalkRecurse fs levels path depth).ending = .fault) :
    ∃ names, Components names ∧ fs.isDir (joinAll path names) = false ∧ '.' ∉ joinAll path names := by
  induction levels generalizing path depth with
  | zero => contradiction
  | succ levels ih =>
    rw [vfsDirWalkRecurse_entries] at fault
    obtain ⟨name, member, shown, ⟨isFile, noDot⟩ | ⟨deeper, fault⟩⟩ := walkEntries_fault fault
    · exact ⟨[name], List.forall_mem_singleton.mpr ⟨shown, FileSystem.plain_entries member⟩, isFile, noDot⟩
    · obtain ⟨names, components, rest⟩ := ih fault
      exact ⟨name :: names, List.forall_mem_cons.mpr ⟨⟨shown, FileSystem.plain_entries member⟩, components⟩, rest⟩

/-- The walk ends on every file system, by returning unless some visible file has no dot in its path; it is
never active on more than `MAX_RECURSE - 1` levels, and imports only files behind visible entries, at
most so many; unless a path was cut off, it is the root with these entries. -/
theorem walk_bounded_and_sound (fs : FileSystem) (root : Text) :
    ((vfsDirWalkRecurse fs (maxRecurse - 1) root 1).ending = .returned ∨
      (vfsDirWalkRecurse fs (maxRecurse - 1) root 1).ending = .fault ∧
        ∃ names, Components names ∧ fs.isDir (joinAll root names) = false ∧ '.' ∉ joinAll root names) ∧
    (∀ levels, maxRecurse - 1 ≤ levels →
      vfsDirWalkRecurse fs levels root 1 = vfsDirWalkRecurse fs (maxRecurse - 1) root 1) ∧
    ∀ levels, ∀ p ∈ (vfsDirWalkRecurse fs levels root 1).imports, ∃ names, names ≠ [] ∧
      names.length ≤ maxRecurse - 1 ∧ Components names ∧ fs.isDir p = false ∧ p = joinAll root names ∧
      ((childAll root names).length < pathMax - 1 → p = childAll root names) := by
  refine ⟨?_, fun levels enough => ?_, fun levels p imported => ?_⟩
  · cases ending : (vfsDirWalkRecurse fs (maxRecurse - 1) root 1).ending with
    | returned => exact .inl rfl
    | fault => exact .inr ⟨rfl, walk_fault ending⟩
    | running => exact absurd ending (walk_ends (by decide) (by decide))
  · have more : maxRecurse ≤ 1 + levels := by
      simp only [maxRecurse] at enough ⊢
      omega
    exact walk_levels (by decide) more (by decide)
  · obtain ⟨names, nonempty, count, components, same, isFile⟩ := walk_imports (by decide) imported
    refine ⟨names, nonempty, count, components, isFile, same, fun fits => ?_⟩
    rw [same]
    exact joinAll_eq (by simp only [pathMax] at fits ⊢; omega)

end Bounded

/-! ## Siblings -/

/-- Every visible file is taken for a package. -/
def AllPackages (fs : FileSystem) (root : Text) : Prop :=
  ∀ dir, Dir fs root dir → Packages fs dir (fs.entries dir)

/-- The entries on the way to a path come last. -/
def FileSystem.trail (fs : FileSystem) (target : Text) : FileSystem :=
  fs.arrange fun path name => name ≠ component path target

section Siblings

variable {fs : FileSystem} {path dir file : Text} {n s depth : ℕ}

theorem AllPackages.below (packages : AllPackages fs path) {name : Text} (member : name ∈ fs.entries path)
    (isDir : fs.isDir (child path name) = true) : AllPackages fs (child path name) :=
  fun dir reached => packages dir (.sub member isDir reached)

theorem AllPackages.dotted (packages : AllPackages fs path) : AllDotted fs path := by
  intro dir reached name member isFile
  rw [packages dir reached name member isFile]
  exact Option.some_ne_none true

theorem Reorders.allPackages {fs' : FileSystem} (reorders : Reorders fs fs') (packages : AllPackages fs path) :
    AllPackages fs' path := by
  intro dir reached name member isFile
  rw [reorders.isDir] at isFile
  exact packages dir (reorders.symm.dir reached) name (reorders.mem_entries.mpr member) isFile

/-- A package is imported in every order if its depth is below the limit even with all the
subdirectories on the way counted. -/
theorem walk_nested {levels : ℕ} (fit : FitUpTo fs levels path) (packages : AllPackages fs path)
    (nested : Nested fs path n s dir) (near : depth + s < maxRecurse) (enough : maxRecurse ≤ depth + levels)
    (member : file ∈ fs.entries dir) (isFile : fs.isDir (child dir file) = false) :
    child dir file ∈ (vfsDirWalkRecurse fs levels path depth).imports := by
  induction levels generalizing path depth n s with
  | zero => omega
  | succ levels ih =>
    have returning : Returning fs (vfsDirWalkRecurse fs levels) path (fs.entries path) depth :=
      fun name present isDir deeper low high =>
        walk_returns (fit.below present isDir) (packages.below present isDir).dotted high (by omega)
    have all := walkEntries_complete fit.joined (packages path .here) returning
    rw [vfsDirWalkRecurse_entries]
    cases nested with
    | here => exact (all file member).1 isFile
    | @sub _ name _ n s present isDir rest =>
      obtain ⟨deeper, low, high, included⟩ := (all name present).2 isDir
      exact included (by omega) _ (ih (fit.below present isDir) (packages.below present isDir) rest (by omega) (by omega))

theorem entries_trail {target name : Text} (member : name ∈ fs.entries path)
    (last : component path target = name) : ∃ rest, (fs.trail target).entries path = rest ++ [name] := by
  subst last
  have only : (fs.entries path).filter (fun other => !decide (other ≠ component path target)) =
      [component path target] := by
    simp only [ne_eq, decide_not, Bool.not_not]
    exact filter_entries member
  rw [FileSystem.trail, entries_arrange, only]
  exact ⟨_, rfl⟩

/-- What only the last entry leads to is imported only if its depth, with all subdirectories counted,
is below the limit. -/
theorem walkEntries_last {recurse : Text → ℕ → Walk} {rest : List Text} {name p : Text}
    (joined : Joined path (rest ++ [name])) (isDir : fs.isDir (child path name) = true)
    (elsewhere : ∀ other ∈ rest, p ≠ child path other ∧
      (fs.isDir (child path other) = true → ∀ deeper, p ∉ (recurse (child path other) deeper).imports))
    (member : p ∈ (walkEntries fs recurse path depth (rest ++ [name])).imports) :
    depth + countDirs fs path (rest ++ [name]) < maxRecurse ∧
      p ∈ (recurse (child path name) (depth + countDirs fs path (rest ++ [name]))).imports := by
  induction rest generalizing depth with
  | nil =>
    obtain ⟨shown, whole⟩ := joined name List.mem_cons_self
    have count : countDirs fs path ([] ++ [name]) = 1 := List.countP_eq_length.mpr (List.forall_mem_singleton.mpr isDir)
    rw [List.nil_append, walkEntries_cons shown, whole, isDir, if_pos rfl] at member
    rw [count]
    split_ifs at member with high
    · refine ⟨high, ?_⟩
      rcases mem_andThen member with here | there
      · exact here
      · contradiction
    · contradiction
  | cons other more ih =>
    obtain ⟨shown, whole⟩ := joined other List.mem_cons_self
    obtain ⟨⟨different, outside⟩, elsewhere'⟩ := List.forall_mem_cons.mp elsewhere
    have later {level : ℕ} (member : p ∈ (walkEntries fs recurse path level (more ++ [name])).imports) :=
      ih (fun next present => joined next (List.mem_cons_of_mem _ present)) elsewhere' member
    rw [List.cons_append, walkEntries_cons shown, whole] at member
    cases otherDir : fs.isDir (child path other) with
    | true =>
      have count : countDirs fs path (other :: more ++ [name]) = countDirs fs path (more ++ [name]) + 1 :=
        List.countP_cons_of_pos otherDir
      rw [otherDir, if_pos rfl] at member
      rw [count, ← Nat.add_assoc, Nat.add_right_comm]
      split_ifs at member with high
      · rcases mem_andThen member with here | there
        · exact absurd here (outside otherDir _)
        · exact later there
      · exact later member
    | false =>
      have count : countDirs fs path (other :: more ++ [name]) = countDirs fs path (more ++ [name]) :=
        List.countP_cons_of_neg (by simp [otherDir])
      rw [otherDir, if_neg Bool.false_ne_true] at member
      rw [count]
      split at member
      · contradiction
      · contradiction
      · rcases mem_andThen member with here | there
        · exact absurd (List.mem_singleton.mp here) different
        · exact later there

/-- With the way to a package last in every directory, it is skipped if the subdirectories on the way
are too many. -/
theorem walk_trail {levels : ℕ} (fit : FitUpTo fs levels path) (nested : Nested fs path n s dir)
    (far : maxRecurse ≤ depth + s) (bound : depth < maxRecurse) :
    child dir file ∉ (vfsDirWalkRecurse (fs.trail (child dir file)) levels path depth).imports := by
  have reorders : Reorders fs (fs.trail (child dir file)) := reorders_arrange fs _
  induction levels generalizing path depth n s with
  | zero => simp [vfsDirWalkRecurse]
  | succ levels ih =>
    cases nested with
    | here => omega
    | @sub _ name _ n s present isDir rest =>
      have below : Below (child path name) (child dir file) := rest.dir.child_below file
      have through : component path (child dir file) = name :=
        component_below (FileSystem.plain_entries present) (.inr below)
      obtain ⟨others, entries⟩ := entries_trail present through
      have joined := (reorders.fitUpTo fit).joined
      have distinct := (fs.trail (child dir file)).nodup_entries path
      have count := reorders.countDirs path
      intro imported
      rw [vfsDirWalkRecurse_entries, entries] at imported
      rw [entries] at joined distinct count
      have fresh : name ∉ others := fun member => (List.nodup_append.mp distinct).2.2 name member name (by simp) rfl
      have elsewhere : ∀ other ∈ others, child dir file ≠ child path other ∧
          ((fs.trail (child dir file)).isDir (child path other) = true → ∀ deeper, child dir file ∉
            (vfsDirWalkRecurse (fs.trail (child dir file)) levels (child path other) deeper).imports) := by
        intro other member
        have known : other ∈ fs.entries path := by
          rw [reorders.mem_entries, entries]
          exact List.mem_append_left _ member
        have apart : ¬ (child dir file = child path other ∨ Below (child path other) (child dir file)) := by
          intro way
          have instead := component_below (FileSystem.plain_entries known) way
          exact fresh (through.symm.trans instead ▸ member)
        refine ⟨fun same => apart (.inl same), fun isDir' deeper inside => apart (.inr ?_)⟩
        exact ((walk_sound (reorders.fitUpTo (fit.below known isDir')) deeper).2 _ inside).2
      have stillDir : (fs.trail (child dir file)).isDir (child path name) = true := isDir
      obtain ⟨high, inside⟩ := walkEntries_last joined stillDir elsewhere imported
      rw [count] at high inside
      exact ih (fit.below present isDir) rest (by omega) high inside

/-- In every order, every package less than `MAX_RECURSE - 1` levels down is imported. -/
def WalksNested (fs : FileSystem) (root : Text) : Prop :=
  ∀ fs', Reorders fs fs' → ∀ n s dir file, Nested fs root n s dir → n < maxRecurse - 1 → file ∈ fs.entries dir →
    fs.isDir (child dir file) = false → child dir file ∈ (rootWalk fs' root).imports

/-- The directories on the way to such a package have fewer than `MAX_RECURSE - 1` subdirectories in all. -/
def NarrowAbove (fs : FileSystem) (root : Text) : Prop :=
  ∀ n s dir file, Nested fs root n s dir → n < maxRecurse - 1 → file ∈ fs.entries dir →
    fs.isDir (child dir file) = false → s < maxRecurse - 1

theorem rootWalk_eq (fs : FileSystem) (root : Text) : rootWalk fs root = vfsDirWalkRecurse fs (maxRecurse - 1) root 1 :=
  walk_levels (by decide) (by decide) (by decide)

/-- The limit is one on nesting exactly if the directories above each package have few enough
subdirectories; and not if the path of a package is too long. -/
theorem walk_depth_counts_nesting_iff {root : Text} (packages : AllPackages fs root) :
    (FitUpTo fs (maxRecurse - 1) root → (WalksNested fs root ↔ NarrowAbove fs root)) ∧
    (WalksNested fs root → ∀ n s dir file, Nested fs root n s dir → n < maxRecurse - 1 → file ∈ fs.entries dir →
      fs.isDir (child dir file) = false → (child dir file).length ≤ pathMax - 2) := by
  refine ⟨fun fit => ⟨fun walks n s dir file nested level member isFile => ?_,
    fun narrow fs' reorders n s dir file nested level member isFile => ?_⟩,
    fun walks n s dir file nested level member isFile => ?_⟩
  · by_contra wide
    have imported := walks (fs.trail (child dir file)) (reorders_arrange fs _) n s dir file nested level member isFile
    rw [rootWalk_eq] at imported
    refine walk_trail fit nested ?_ (by decide) imported
    simp only [maxRecurse] at wide ⊢
    omega
  · have few := narrow n s dir file nested level member isFile
    rw [rootWalk_eq]
    refine walk_nested (reorders.fitUpTo fit) (reorders.allPackages packages) (reorders.nested nested) ?_ (by decide)
      (reorders.mem_entries.mp member) (by rw [reorders.isDir]; exact isFile)
    simp only [maxRecurse] at few ⊢
    omega
  · exact length_walk _ (walks fs (.refl fs) n s dir file nested level member isFile)

end Siblings

theorem walk_depth_counts_nesting_two : WalksNested packagesOnly ['/', 'p'] := by
  have packages : AllPackages packagesOnly ['/', 'p'] := by
    unfold AllPackages Packages
    exact forall_packagesOnly (by decide) (by decide)
  have fit : FitUpTo packagesOnly (maxRecurse - 1) ['/', 'p'] := by
    intro n s dir nested _
    exact forall_packagesOnly
      (P := fun dir => ∀ name ∈ packagesOnly.entries dir, dir.length + 1 + name.length ≤ pathMax - 2)
      (by decide) (by decide) dir nested.dir
  apply ((walk_depth_counts_nesting_iff packages).1 fit).mpr
  intro n s dir file nested _ _ _
  have one : countDirs packagesOnly ['/', 'p'] (packagesOnly.entries ['/', 'p']) = 1 := by decide
  cases nested with
  | here => decide
  | @sub _ name _ _ s member isDir rest =>
    obtain rfl := subdirs_packagesOnly.1 name member isDir
    cases rest with
    | here =>
      rw [one]
      decide
    | @sub _ name _ _ _ member isDir =>
      exact absurd ((subdirs_packagesOnly.2 name member).symm.trans isDir) Bool.false_ne_true

/-- The directory `/p` with fifteen subdirectories, and a package in the last one. -/
def fifteenDirs : FileSystem where
  readdir path :=
    if path = ['/', 'p'] then some ("abcdefghijklmno".toList.map fun c => [c])
    else if path = ['/', 'p', '/', 'o'] then some [['a', '.', 'p', 'k', 'g']]
    else none
  isDir path := path.length = 4
  distinct {path names} listed := by
    split_ifs at listed <;> cases listed <;> decide
  plain {path names} listed := by
    split_ifs at listed <;> cases listed <;> decide

/-- The package is one level down, and it is not imported. -/
theorem siblings_hide_package : AllPackages fifteenDirs ['/', 'p'] ∧
    Nested fifteenDirs ['/', 'p'] 1 15 ['/', 'p', '/', 'o'] ∧
    ['/', 'p', '/', 'o', '/', 'a', '.', 'p', 'k', 'g'] ∉ (rootWalk fifteenDirs ['/', 'p']).imports ∧
    ¬ WalksNested fifteenDirs ['/', 'p'] := by
  have dirs : ∀ name ∈ fifteenDirs.entries ['/', 'p'], fifteenDirs.isDir (child ['/', 'p'] name) = true := by decide
  have files : ∀ name ∈ fifteenDirs.entries ['/', 'p'], ∀ file ∈ fifteenDirs.entries (child ['/', 'p'] name),
      fifteenDirs.isDir (child (child ['/', 'p'] name) file) = false ∧
        isPackage (child (child ['/', 'p'] name) file) = some true := by decide
  have nested : Nested fifteenDirs ['/', 'p'] 1 15 ['/', 'p', '/', 'o'] := by
    have count : countDirs fifteenDirs ['/', 'p'] (fifteenDirs.entries ['/', 'p']) + 0 = 15 := by decide
    rw [← count]
    exact .sub (by decide) (by decide) .here
  have skipped : ['/', 'p', '/', 'o', '/', 'a', '.', 'p', 'k', 'g'] ∉ (rootWalk fifteenDirs ['/', 'p']).imports := by
    decide +kernel
  refine ⟨?_, nested, skipped, fun walks => ?_⟩
  · intro dir reached
    cases reached with
    | here =>
      intro name member isFile
      exact absurd ((dirs name member).symm.trans isFile) (by decide)
    | @sub _ name _ member isDir rest =>
      cases rest with
      | here => exact fun file present _ => (files name member file present).2
      | @sub _ file _ present isDir' =>
        exact absurd ((files name member file present).1.symm.trans isDir') (by decide)
  · exact skipped (walks fifteenDirs (.refl _) 1 15 ['/', 'p', '/', 'o'] ['a', '.', 'p', 'k', 'g'] nested (by decide)
      (by decide) (by decide))

end FsPkg.Vfs
