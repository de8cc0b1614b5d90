import FsPkg.Machine.Bytes
import FsPkg.Model.VfsPath

/-! # The watcher of `vfs_inotify.c`

`vfs_inotify_evt_get` reads a buffer of variable-length records and walks it. The loop is modelled on
the bytes of the buffer, so that what it reads behind a record without a name is what lies there.
A `continue` does not advance, so the loop is run for a number of iterations, and a run that is cut
off says so. The calls of `pkg_import` and `pkg_forget` are what is observed, and are taken to return.
-/

namespace FsPkg.Vfs

open Machine
open Pkg (Text)

/-- `struct vfs_watch`. -/
structure Watch where
  mask : UInt32
  fd : Int32
  path : Text
deriving DecidableEq, Repr

def inCloseWrite : UInt32 := 0x8

def inMovedFrom : UInt32 := 0x40

def inMovedTo : UInt32 := 0x80

def inDelete : UInt32 := 0x200

def inDeleteSelf : UInt32 := 0x400

/-- `sizeof(struct inotify_event)`. -/
def sizeofEvent : ℕ := 16

/-- `INOTIFY_BUFSIZE`, with `FILENAME_MAX` 4096. -/
def inotifyBufsize : ℕ := (sizeofEvent + 4096) * 1024

/-- The calls the loop makes. -/
inductive PkgCall where
  | pkgImport (path : Text)
  | pkgForget (path : Text)
deriving DecidableEq, Repr

/-- `vfs_watch_findnode_byfd`. -/
def vfsWatchFindnodeByfd (watches : List Watch) (fd : Int32) : Option Watch :=
  watches.find? fun watch => watch.fd = fd

/-- What `vfs_watch_remove` does to the list. -/
def vfsWatchRemove (watches : List Watch) (watch : Watch) : List Watch :=
  watches.erase watch

/-- The calls, each with the offset of the event it is for; the watches; and how the loop ends. -/
structure EvtGet where
  calls : List (ℕ × PkgCall) := []
  watches : List Watch
  ending : Ending

/-- A call made before the others. -/
def EvtGet.after (offset : ℕ) (call : PkgCall) (rest : EvtGet) : EvtGet :=
  { rest with calls := (offset, call) :: rest.calls }

/-- `e->name` as a string. -/
def eventName (mem : Memory) (i : ℕ) : Text :=
  (loadString mem (i + sizeofEvent) inotifyBufsize).map fun byte => Char.ofNat byte.toNat

/-- The `while` loop of `vfs_inotify_evt_get`, at offset `i` of a buffer with `len` bytes read. -/
def evtGetLoop (mem : Memory) (len : ℤ) : ℕ → ℕ → List Watch → EvtGet
  | 0, _, watches => { watches, ending := .running }
  | fuel + 1, i, watches =>
    if i < len then
      let wd := (load32 mem i).toInt32
      let mask := load32 mem (i + 4)
      let elen := load32 mem (i + 12)
      -- hidden names are skipped, but `i` stays where it is
      if mem (i + sizeofEvent) = 46 then evtGetLoop mem len fuel i watches
      else match vfsWatchFindnodeByfd watches wd with
        | none => { watches, ending := .returned }
        | some watch =>
          if elen = 0 then { watches, ending := .returned }
          else
            let path := joinPath watch.path (eventName mem i)
            match isPackage path with
            | none => { watches, ending := .fault }
            | some false => { watches, ending := .returned }
            | some true =>
              let next := i + sizeofEvent + elen.toNat
              if mask &&& inCloseWrite ≠ 0 ∨ mask &&& inMovedTo ≠ 0 then
                (evtGetLoop mem len fuel next watches).after i (.pkgImport path)
              else if mask &&& inDelete ≠ 0 ∨ mask &&& inMovedFrom ≠ 0 then
                (evtGetLoop mem len fuel next watches).after i (.pkgForget path)
              else if mask &&& inDeleteSelf ≠ 0 then
                evtGetLoop mem len fuel next (vfsWatchRemove watches watch)
              else evtGetLoop mem len fuel next watches
    else { watches, ending := .returned }

/-- `vfs_inotify_evt_get`: `len` is what `read` returned. -/
def vfsInotifyEvtGet (mem : Memory) (len : ℤ) (watches : List Watch) (iterations : ℕ) : EvtGet :=
  evtGetLoop mem len iterations 0 watches

end FsPkg.Vfs
