import FsPkg.Model.DbSqlite
import FsPkg.Model.PkgCache

/-! # Importing and forgetting packages

`pkg_import` and `pkg_forget` of `pkg.c` with `pkg_toc_process` of `pkg_toc.c`, in both builds. What
libxar, libxml2, zlib and the file system answer is an argument, one field per check the source
makes. The loop over the archived files touches no table in the source, where its `INSERT` is
disabled; it is an argument here, so that runs with and without it can be considered.
-/

namespace FsPkg.Pkg

open Db

def exitSuccess : Int32 := 0

def exitFailure : Int32 := 1

/-- `CONFIG_TOC_LIBXAR` or `CONFIG_TOC_LIBXML2`. -/
inductive TocVariant where
  | libxar
  | libxml2
deriving DecidableEq, Repr

/-- The checks in front of the database calls: `xar_open` and `xar_iter_new`, or `pkg_toc_extract`,
`xmlReadFile`, the root element with a name, its name `xar`, and the name `toc` below it. -/
structure TocEnv where
  xarOpen : Bool := true
  xarIterNew : Bool := true
  extract : Bool := true
  xmlReadFile : Bool := true
  xmlRoot : Bool := true
  rootIsXar : Bool := true
  childIsToc : Bool := true
deriving DecidableEq, Repr

/-- Everything one import meets. -/
structure ImportEnv where
  toc : TocEnv := {}
  remove : RemoveEnv := {}
  add : AddEnv

/-- The loop over the archived files, given the package key. -/
abbrev FilesLoop := UInt32 → Conn → Conn

/-- The loop of the source, which writes nothing. -/
def noFiles : FilesLoop := fun _ c => c

/-- The common end of both `pkg_toc_process`: replace the package's row, then visit its files. -/
def tocStore (path : Text) (env : ImportEnv) (files : FilesLoop) (c : Conn) : Conn :=
  let c := dbPkgRemove path env.remove c
  let (pkgid, c) := dbPkgAdd path env.add c
  files pkgid.toUInt32 c

/-- `pkg_toc_process`: 0 after storing, or failure before any database call. -/
def pkgTocProcess (variant : TocVariant) (path : Text) (env : ImportEnv) (files : FilesLoop) (c : Conn) :
    Int32 × Conn :=
  match variant with
  | .libxar =>
    if !env.toc.xarOpen then (exitFailure, c)
    else if !env.toc.xarIterNew then (exitFailure, c)
    else (exitSuccess, tocStore path env files c)
  | .libxml2 =>
    if !env.toc.xmlReadFile then (exitFailure, c)
    else if !env.toc.xmlRoot then (exitFailure, c)
    else if !env.toc.rootIsXar then (exitFailure, c)
    else if !env.toc.childIsToc then (exitFailure, c)
    else (exitSuccess, tocStore path env files c)

/-- `pkg_import`: `none` if it blocks in `db_begin` (or the cache cannot be read). -/
def pkgImport (variant : TocVariant) (path : Text) (env : ImportEnv) (files : FilesLoop) (st : State)
    (c : Conn) : Option (Int32 × Conn) := do
  match ← pkgHandleByname st path st.pkgList.nodes with
  | some _ => some (exitSuccess, c)
  | none => do
    let c ← dbBegin c
    if variant = .libxml2 ∧ !env.toc.extract then some (exitFailure, c)
    else
      let (code, c) := pkgTocProcess variant path env files c
      if code = exitSuccess then some (exitSuccess, dbCommit c)
      else some (exitSuccess, dbRollback c)

/-- `pkg_forget`. -/
def pkgForget (path : Text) (env : RemoveEnv) (c : Conn) : Int32 × Conn :=
  (exitSuccess, dbPkgRemove path env c)

end FsPkg.Pkg
