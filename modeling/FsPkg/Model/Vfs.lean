import FsPkg.Model.VfsPath

/-! # The startup walk of `vfs.c`

`vfs_dir_walk` imports the packages it finds below each configured directory. What `opendir`,
`readdir` and `stat` answer is a file system, which also fixes the order of the entries. The depth is
a local variable that every subdirectory increments, also for its siblings; the recursion is given
more levels than it can use. `pkg_import` is taken to return, and `opendir` to answer the same at every
call: that a directory left at a non-package is not closed costs a descriptor, and they are taken not to
run out.
-/

namespace FsPkg.Vfs

open Pkg (Text)

/-- What the walk can see: the names in a directory that can be opened, each once and without a
slash, and whether a path is a directory. -/
structure FileSystem where
  readdir : Text → Option (List Text)
  isDir : Text → Bool
  distinct : ∀ {path names}, readdir path = some names → names.Nodup
  plain : ∀ {path names}, readdir path = some names → ∀ name ∈ names, '/' ∉ name

/-- The paths handed to `pkg_import`, and how the walk ends. -/
structure Walk where
  imports : List Text := []
  ending : Ending

/-- One walk and then another, unless the first one does not return. -/
def Walk.andThen (first second : Walk) : Walk :=
  match first.ending with
  | .returned => ⟨first.imports ++ second.imports, second.ending⟩
  | _ => first

/-- `MAX_RECURSE`. -/
def maxRecurse : ℕ := 16

/-- The loop over the entries of a directory. -/
def walkEntries (fs : FileSystem) (recurse : Text → ℕ → Walk) (path : Text) : ℕ → List Text → Walk
  | _, [] => { ending := .returned }
  | depth, name :: rest =>
    if name.head? = some '.' then walkEntries fs recurse path depth rest
    else
      let buf := joinPath path name
      if fs.isDir buf then
        if depth + 1 < maxRecurse then
          (recurse buf (depth + 1)).andThen (walkEntries fs recurse path (depth + 1) rest)
        else walkEntries fs recurse path (depth + 1) rest
      else match isPackage buf with
        | none => { ending := .fault }
        | some false => { ending := .returned }
        | some true => Walk.andThen ⟨[buf], .returned⟩ (walkEntries fs recurse path depth rest)

/-- `vfs_dir_walk_recurse`, for at most so many levels. -/
def vfsDirWalkRecurse (fs : FileSystem) : ℕ → Text → ℕ → Walk
  | 0, _, _ => { ending := .running }
  | levels + 1, path, depth =>
    match fs.readdir path with
    | none => { ending := .returned }
    | some names => walkEntries fs (vfsDirWalkRecurse fs levels) path depth names

/-- The tokens of `strtok(buf, ":\n")`. -/
def configuredRoots (conf : Text) : List Text :=
  (conf.splitOnP fun c => c = ':' ∨ c = '\n').filter (· ≠ [])

/-- The paths imported below each root, and how the whole walk ends. -/
structure RootWalk where
  imports : List (List Text) := []
  ending : Ending

/-- The loop of `vfs_dir_walk`. -/
def walkRoots (fs : FileSystem) : List Text → RootWalk
  | [] => { ending := .returned }
  | root :: rest =>
    let walk := vfsDirWalkRecurse fs maxRecurse root 1
    match walk.ending with
    | .returned =>
      let others := walkRoots fs rest
      ⟨walk.imports :: others.imports, others.ending⟩
    | ending => ⟨[walk.imports], ending⟩

/-- `vfs_dir_walk`, for the value of `path.pkg`. -/
def vfsDirWalk (fs : FileSystem) (conf : Option Text) : RootWalk :=
  walkRoots fs (configuredRoots (conf.getD ['/', 'p', 'k', 'g']))

end FsPkg.Vfs
