import FsPkg.Model.DbSqlite
import FsPkg.Model.PkgCache

/-! # Paths and package names

The few lines that the startup walk and the watcher have in common: a directory and a name are
joined in a buffer of `PATH_MAX` bytes, and the path is a package if the text from its last dot
begins like an extension.
-/

namespace FsPkg.Vfs

open Pkg (Text)

/-- `PATH_MAX`. -/
def pathMax : ℕ := 4096

/-- `snprintf(path, PATH_MAX - 1, "%s/%s", dir, name)`. -/
def joinPath (dir name : Text) : Text :=
  Db.vsnprintf (pathMax - 1) "%s/%s".toList [.str dir, .str name]

/-- `strrchr`: the text from the last occurrence on. -/
def strrchr : Text → Char → Option Text
  | [], _ => none
  | x :: rest, c =>
    match strrchr rest c with
    | some found => some found
    | none => if x = c then some (x :: rest) else none

/-- `strncmp` finds no difference. -/
def strncmpEq (a b : Text) (n : ℕ) : Bool :=
  a.take n = b.take n

/-- The test for packages; `none` if `strncmp` is handed the `NULL` of a path without a dot. -/
def isPackage (path : Text) : Option Bool :=
  (strrchr path '.').map fun ext => strncmpEq ext ['.', 'p', 'k', 'g'] 4 || strncmpEq ext ['.', 'x', 'a', 'r'] 4

/-- How a function ends: it returns, `strncmp` is handed `NULL`, or it is still running after the
given number of iterations or levels. -/
inductive Ending where
  | returned
  | fault
  | running
deriving DecidableEq, Repr

/-! ## The last dot -/

section Strrchr

variable {c : Char} {s t : Text}

theorem strrchr_eq_none : strrchr s c = none ↔ c ∉ s := by
  induction s with
  | nil => simp [strrchr]
  | cons x rest ih =>
    rw [strrchr]
    cases found : strrchr rest c with
    | some ext =>
      have member : c ∈ rest := by
        by_contra absent
        rw [ih.mpr absent] at found
        contradiction
      simp [member]
    | none =>
      have absent := ih.mp found
      by_cases same : x = c
      · simp [same]
      · simp [same, absent, Ne.symm same]

/-- The last occurrence in the second part is the last one. -/
theorem strrchr_append_of_some {ext : Text} (found : strrchr t c = some ext) : strrchr (s ++ t) c = some ext := by
  induction s with
  | nil => exact found
  | cons x rest ih => rw [List.cons_append, strrchr, ih]

end Strrchr

/-- The extension is exactly that of a package. -/
def packageName (name : Text) : Bool :=
  strrchr name '.' = some ['.', 'p', 'k', 'g'] ∨ strrchr name '.' = some ['.', 'x', 'a', 'r']

/-- A package name makes a package path. -/
theorem isPackage_of_packageName {name : Text} (named : packageName name = true) (dir : Text) :
    isPackage (dir ++ '/' :: name) = some true := by
  have split : dir ++ '/' :: name = (dir ++ ['/']) ++ name := by simp
  rw [isPackage, split]
  rcases of_decide_eq_true named with pkg | xar
  · rw [strrchr_append_of_some pkg]
    rfl
  · rw [strrchr_append_of_some xar]
    rfl

/-- With room enough nothing is cut off. -/
theorem joinPath_eq (dir name : Text) : joinPath dir name = (dir ++ '/' :: name).take (pathMax - 2) := by
  have format : "%s/%s".toList = ['%', 's', '/', '%', 's'] := String.toList_ofList
  have printed : Db.vformat ['%', 's', '/', '%', 's'] [.str dir, .str name] = dir ++ '/' :: name := by
    simp [Db.vformat]
  rw [joinPath, Db.vsnprintf, format, printed]
  rfl

theorem joinPath_fits {dir name : Text} (fits : dir.length + 1 + name.length ≤ pathMax - 2) :
    joinPath dir name = dir ++ '/' :: name := by
  rw [joinPath_eq, List.take_of_length_le]
  simp only [List.length_append, List.length_cons]
  omega

/-- The joined path is the whole one exactly if it fits. -/
theorem joinPath_eq_iff {dir name : Text} :
    joinPath dir name = dir ++ '/' :: name ↔ dir.length + 1 + name.length ≤ pathMax - 2 := by
  refine ⟨fun whole => ?_, joinPath_fits⟩
  have length := congrArg List.length whole
  rw [joinPath_eq, List.length_take, List.length_append, List.length_cons] at length
  omega

end FsPkg.Vfs
