import FsPkg.Model.Balloc
import FsPkg.Model.VfsFuse

/-! # Mapped package files: `pkg_map_file` and `pkg_unmap_file`

The records are elements of `pkg_file_mapping_heap`, a static pointer that its initializer sets to `NULL` and that
nothing else assigns. What a process holds beside them is a list: the descriptors it has open, the copies of names
it has on the C heap, and its mappings. A result `none` is undefined behaviour.
-/

namespace FsPkg.PkgMap

open Balloc
open Pkg (Text)
open Vfs (logicalNot)

/-- The address in a record, as `mmap` returns it. -/
inductive Addr where
  | null
  | mapFailed
  | mapped (addr : ℕ)
deriving DecidableEq, Repr

/-- `struct pkg_file_mapping`; a pointer to a copy of the name is that name. -/
structure FileMapping where
  pkg : Option Text := none
  len : UInt64 := 0
  offset : Int64 := 0
  fd : Int32 := 0
  addr : Addr := .null
deriving DecidableEq, Repr

instance : Zeros FileMapping where
  zeros _ := {}

/-- What a process has to give back. -/
inductive Resource where
  | name (copy : Text)
  | descriptor (fd : Int32)
  | mapping (addr : ℕ) (len : UInt64)
deriving DecidableEq, Repr

/-- `pkg_file_mapping_heap` and what the process holds. -/
structure Process where
  heap : Option (BlockHeap FileMapping) := none
  held : List Resource := []

/-- The answers of the system: to `blockheap_alloc`, `strdup`, `open` and `mmap`. -/
structure MapEnv where
  block : BlockEnv
  strdup : Bool
  open_ : Int32
  mmap : Addr
deriving DecidableEq, Repr

/-- A store through the pointer to a record. -/
def Process.store (st : Process) (p : MemBlock) (record : FileMapping) : Option Process := do
  let bh ← st.heap
  let bh ← bh.write p record
  some { st with heap := some bh }

/-- `free`; what is not held is not freed a second time. -/
def Process.free (st : Process) (copy : Text) : Option Process :=
  if .name copy ∈ st.held then some { st with held := st.held.erase (.name copy) } else none

/-- `close`, or `munmap`: without an effect on what is not held. -/
def Process.release (st : Process) (resource : Resource) : Process :=
  { st with held := st.held.erase resource }

def Process.acquire (st : Process) (resources : List Resource) : Process :=
  { st with held := resources ++ st.held }

/-- The mapping of so many bytes at an address. -/
def Addr.mapping (addr : Addr) (len : UInt64) : List Resource :=
  match addr with
  | .mapped addr => [.mapping addr len]
  | _ => []

/-- `pkg_unmap_file`. -/
def pkgUnmapFile (p : MemBlock) (st : Process) : Option Process := do
  let bh ← st.heap
  let record ← bh.read p
  let st := (record.addr.mapping record.len).foldl Process.release st
  let st ← match record.pkg with
    | some copy => st.free copy
    | none => some st
  let st := if 0 < record.fd then st.release (.descriptor record.fd) else st
  let (_, bh) ← blockheapFree bh (some p)
  some { st with heap := some bh }

/-- `pkg_map_file`. -/
def pkgMapFile (path : Text) (len : UInt64) (offset : Int64) (env : MapEnv) (st : Process) :
    Option (Option MemBlock × Process) := do
  -- `blockheap_alloc` complains about a `NULL` heap and then reads its counter
  let bh ← st.heap
  let result ← blockheapAlloc bh env.block
  let st := { st with heap := some result.heap }
  let p ← result.ptr
  let record : FileMapping := { pkg := if env.strdup then some path else none, len, offset }
  let st := st.acquire (if env.strdup then [.name path] else [])
  let record := { record with fd := env.open_ }
  let st := st.acquire (if env.open_ ≠ -1 then [.descriptor env.open_] else [])
  -- the negation binds tighter than the comparison
  if logicalNot env.open_ = -1 then
    let st ← st.store p record
    let st ← pkgUnmapFile p st
    some (none, st)
  else
    let record := { record with addr := env.mmap }
    let st := st.acquire (env.mmap.mapping len)
    let st ← st.store p record
    if env.mmap = .mapFailed then
      let st ← pkgUnmapFile p st
      some (some p, st)
    else some (some p, st)

end FsPkg.PkgMap
