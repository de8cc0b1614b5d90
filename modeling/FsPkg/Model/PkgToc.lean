import FsPkg.Machine.StreamDecoder
import FsPkg.Model.PkgCache

/-! # Extracting the table of contents: `pkg_toc_extract` of `pkg_toc.c`

The header of a package names the length of its compressed table of contents, which follows it. The table is read in
pieces of at most `pkg_toc_zbufsize` bytes; each piece goes through `inflate` until that leaves room in the output
buffer, which is written out after every call.

zlib is an argument, and so are the answers of the system: each `read` returns at most what it is told here, and fewer
bytes at the end of the file; each `write` takes so many of the bytes it is given. Both loops take fuel, and a result
`none` stands for fuel that ran out or for a read that runs over the end of the header. Log messages, and the fields of
the header that nothing reads, are left out.
-/

namespace FsPkg.PkgToc

open Machine Pkg

/-- The return codes of `inflate`. -/
inductive InflateCode where
  | ok
  | streamEnd
  | needDict
  | dataError
  | memError
  | bufError
  | streamError
deriving DecidableEq, Repr

/-- What the program uses of zlib: the stream after `inflateInit`, if that succeeds, and `inflate` with the bytes at
`next_in` and the room at `next_out`. -/
structure Zlib (σ : Type) where
  inflateInit : Option σ
  code : σ → List UInt8 → ℕ → InflateCode
  inflate : StreamDecoder σ UInt8 UInt8

/-- An answer of `read`. -/
inductive ReadAnswer where
  | error
  | upTo (count : ℕ)
deriving DecidableEq, Repr

/-- The tuning parameter `pkg_toc_zbufsize`, and the answers of the system: whether the package can be opened, the name
that `mkstemp` makes, and what each `read` and `write` does, by the number of the call. -/
structure TocEnv where
  zbufsize : UInt64
  open_ : Bool
  mkstemp : Option Text
  read : ℕ → ReadAnswer
  write : ℕ → ℕ → ℕ

/-- The position in the package, the calls made so far, and what the output file holds. -/
structure Io where
  offset : ℕ := 0
  reads : ℕ := 0
  writes : ℕ := 0
  out : List UInt8 := []
deriving DecidableEq, Repr

/-- `read` from the package: the bytes, or `none` for -1. -/
def readFile (env : TocEnv) (file : List UInt8) (count : ℕ) (io : Io) : Option (List UInt8) × Io :=
  match env.read io.reads with
  | .error => (none, { io with reads := io.reads + 1 })
  | .upTo limit =>
    let data := (file.drop io.offset).take (min limit count)
    (some data, { io with reads := io.reads + 1, offset := io.offset + data.length })

/-- `write` to the output file, whose result nobody looks at. -/
def writeFile (env : TocEnv) (bytes : List UInt8) (io : Io) : Io :=
  { io with writes := io.writes + 1, out := io.out ++ bytes.take (env.write io.writes bytes.length) }

/-- A `size_t` stored in an `int` and passed on as a `size_t`. -/
def viaInt (size : UInt64) : ℕ :=
  size.toInt64.toInt32.toInt64.toUInt64.toNat

/-- The inner loop: `inflate` into the output buffer and write it out, while no room is left in it. Three of the codes
end the extraction; the result is then `none`. -/
def inflateLoop {σ : Type} (zlib : Zlib σ) (env : TocEnv) :
    ℕ → σ → List UInt8 → List UInt8 → Io → Option (Option (σ × List UInt8) × Io)
  | 0, _, _, _, _ => none
  | fuel + 1, zs, input, bufuncomp, io =>
    let availOut : UInt32 := env.zbufsize.toUInt32
    let step := zlib.inflate zs input availOut.toNat
    let bufuncomp := step.output ++ bufuncomp.drop step.output.length
    match zlib.code zs input availOut.toNat with
    | .needDict | .dataError | .memError => some (none, io)
    | _ =>
      let availOut := availOut - UInt32.ofNat step.output.length
      let len := viaInt (env.zbufsize - availOut.toUInt64)
      let io := writeFile env (bufuncomp.take len) io
      if availOut = 0 then inflateLoop zlib env fuel step.state (input.drop step.used) bufuncomp io
      else some (some (step.state, bufuncomp), io)

/-- The outer loop. `sread` is compared with an unsigned number and becomes one. -/
def tocLoop {σ : Type} (zlib : Zlib σ) (env : TocEnv) (file : List UInt8) (tocLengthCompressed : UInt64) :
    ℕ → UInt64 → σ → List UInt8 → Io → Option (Option σ × Io)
  | 0, _, _, _, _ => none
  | fuel + 1, sread, zs, bufuncomp, io =>
    if sread < tocLengthCompressed then
      let sz := if tocLengthCompressed - sread < env.zbufsize then tocLengthCompressed - sread else env.zbufsize
      match readFile env file (viaInt sz) io with
      | (none, io) => some (none, io)
      | (some data, io) => do
        match ← inflateLoop zlib env fuel zs data bufuncomp io with
        | (none, io) => some (none, io)
        | (some (zs, bufuncomp), io) =>
          tocLoop zlib env file tocLengthCompressed fuel (sread + UInt64.ofNat data.length) zs bufuncomp io
    else some (some zs, io)

/-- Bytes stored over a piece of memory. -/
def store (memory : List UInt8) (position : ℕ) (bytes : List UInt8) : List UInt8 :=
  memory.take position ++ bytes ++ memory.drop (position + bytes.length)

/-- A field of the header after `ntohs` or `xar_ntoh64`: its bytes, high byte first. -/
def field (memory : List UInt8) (position size : ℕ) : ℕ :=
  ((memory.drop position).take size).foldl (fun n byte => n * 256 + byte.toNat) 0

/-- `sizeof(struct xar_header)`, which is packed. -/
def sizeofXarHeader : ℕ := 28

/-- `pkg_toc_extract`: the name of the output file, or `none` for `NULL`. The header `h` is not initialized, and the
number of bytes that complete it is what its own `size` field says, less the 8 that were read. -/
def pkgTocExtract {σ : Type} (zlib : Zlib σ) (env : TocEnv) (h file : List UInt8) (fuel : ℕ) :
    Option (Option Text × Io) :=
  if !env.open_ then some (none, {})
  else match env.mkstemp with
    | none => some (none, {})
    | some tmp =>
      match readFile env file 8 {} with
      | (none, io) => some (none, io)
      | (some first, io) =>
        let h := store h 0 first
        let count := ((field h 4 2 : ℤ) - 8) % 2 ^ 64
        match readFile env file count.toNat io with
        | (none, io) => some (none, io)
        | (some second, io) =>
          if sizeofXarHeader < 8 + second.length then none
          else
            let h := store h 8 second
            let tocLengthCompressed := UInt64.ofNat (field h 8 8)
            match zlib.inflateInit with
            | none => some (none, io)
            | some zs => do
              let bufuncomp := List.replicate env.zbufsize.toNat 0
              match ← tocLoop zlib env file tocLengthCompressed fuel 0 zs bufuncomp io with
              | (none, io) => some (none, io)
              | (some _, io) => some (some tmp, io)

/-- What the two reads of the header did: the bytes of the first, what the second was asked for, and its bytes, or `none`
if it failed. -/
structure HeaderReads where
  first : List UInt8
  request : ℕ
  second : Option (List UInt8)
deriving DecidableEq, Repr

/-- The reads of the header by `pkg_toc_extract`, if it gets to the second, and the position after them. -/
def headerReads (env : TocEnv) (h file : List UInt8) : Option (HeaderReads × Io) :=
  if !env.open_ || env.mkstemp.isNone then none
  else match readFile env file 8 {} with
    | (none, _) => none
    | (some first, io) =>
      let request := (((field (store h 0 first) 4 2 : ℤ) - 8) % 2 ^ 64).toNat
      let answer := readFile env file request io
      some (⟨first, request, answer.1⟩, answer.2)

/-- `pkg_toc_extract` with the size that `pkg_init` configures, which is an `int`. No `malloc` grants what a negative one
becomes as a `size_t`, and `mem_alloc` clears the buffer without looking. -/
def pkgTocExtractSized {σ : Type} (zlib : Zlib σ) (env : TocEnv) (size : Int32) (h file : List UInt8) (fuel : ℕ) :
    Option (Option Text × Io) :=
  let env := { env with zbufsize := size.toInt64.toUInt64 }
  match headerReads env h file with
  | some (⟨_, _, some _⟩, _) => if size < 0 then none else pkgTocExtract zlib env h file fuel
  | _ => pkgTocExtract zlib env h file fuel

end FsPkg.PkgToc
