import FsPkg.Model.PkgImport
import FsPkg.Model.PkgToc

/-! # What an import takes and gives back

`pkg_import` and the functions it calls, in both builds, with what they take from the system and from libxar: descriptors,
files made by `mkstemp`, archives and iterators. What a process holds is a list; taking something puts it in front, and
`close` and `unlink` take it out. Memory, and what libxml2 takes inside `xmlReadFile`, are left out.
-/

namespace FsPkg.Pkg

open Db PkgToc

/-- What has to be given back. -/
inductive ImportResource where
  | descriptor (fd : Int32)
  | temporary (name : Text)
  | archive (x : ℕ)
  | iterator (i : ℕ)
deriving DecidableEq, Repr

/-- What one import meets beside the checks of `ImportEnv`: the answers to `pkg_toc_extract`, the header on its stack and
the package; the descriptors, the archive and the iterator that are handed out; and whether `unlink` succeeds. -/
structure ResourceEnv where
  toc : PkgToc.TocEnv
  zbufsize : Int32
  header : List UInt8
  file : List UInt8
  infd : Int32
  outfd : Int32
  archive : ℕ
  iterator : ℕ
  unlink : Bool

/-- `pkg_toc_extract`: `FAIL` frees memory and nothing else. -/
def pkgTocExtractHeld {σ : Type} (zlib : Zlib σ) (env : ResourceEnv) (fuel : ℕ) (held : List ImportResource) :
    Option (Option Text × List ImportResource) :=
  if !env.toc.open_ then some (none, held)
  else
    let held := .descriptor env.infd :: held
    match env.toc.mkstemp with
    | none => some (none, held)
    | some tmp => do
      let held := .temporary tmp :: .descriptor env.outfd :: held
      let (name, _) ← pkgTocExtractSized zlib env.toc env.zbufsize env.header env.file fuel
      match name with
      | none => some (none, held)
      | some name => some (some name, (held.erase (.descriptor env.infd)).erase (.descriptor env.outfd))

/-- `pkg_toc_process` with libxar. There is no call that closes an archive or frees an iterator. -/
def pkgTocProcessHeld (toc : TocEnv) (env : ResourceEnv) (held : List ImportResource) : List ImportResource :=
  if !toc.xarOpen then held
  else
    let held := .archive env.archive :: held
    if !toc.xarIterNew then held
    else .iterator env.iterator :: held

/-- The transaction of `pkg_import` after `db_begin`, once there is a table of contents to process. -/
def tocTransaction (variant : TocVariant) (path : Text) (imp : ImportEnv) (files : FilesLoop) (c : Conn) : Conn :=
  let (code, c) := pkgTocProcess variant path imp files c
  if code = exitSuccess then dbCommit c else dbRollback c

/-- `pkg_import`: the result, the database and what is held afterwards; `none` if it does not return. -/
def pkgImportHeld {σ : Type} (variant : TocVariant) (zlib : Zlib σ) (path : Text) (imp : ImportEnv) (env : ResourceEnv)
    (files : FilesLoop) (fuel : ℕ) (st : State) (c : Conn) (held : List ImportResource) :
    Option (Int32 × Conn × List ImportResource) := do
  match ← pkgHandleByname st path st.pkgList.nodes with
  | some _ => some (exitSuccess, c, held)
  | none => do
    let c ← dbBegin c
    match variant with
    | .libxar => some (exitSuccess, tocTransaction .libxar path imp files c, pkgTocProcessHeld imp.toc env held)
    | .libxml2 => do
      let (tmp, held) ← pkgTocExtractHeld zlib env fuel held
      match tmp with
      | none => some (exitFailure, c, held)
      | some tmp =>
        let c := tocTransaction .libxml2 path imp files c
        some (exitSuccess, c, if env.unlink then held.erase (.temporary tmp) else held)

end FsPkg.Pkg
