import FsPkg.Proofs.PkgTocHeader

/-! # What the extraction returns

`pkg_toc_extract` as one big step, for the size of the buffers that `pkg_init` configures: it returns before its loops,
or what its turns come to. Fuel and machine integers are gone; the calls that return are exactly these.
-/

namespace FsPkg.PkgToc

open Machine Pkg

/-- The size of the buffers as `pkg_init` sets it. -/
abbrev TocEnv.sized (env : TocEnv) (size : Int32) : TocEnv :=
  { env with zbufsize := size.toInt64.toUInt64 }

/-- The call returns this, and leaves this in the output file. -/
inductive Returns {σ : Type} (zlib : Zlib σ) (env : TocEnv) (size : Int32) (h file : List UInt8) :
    Option Text → List UInt8 → Prop
  | early (early : ∀ reads io, headerReads env h file = some (reads, io) → reads.second = none) :
      Returns zlib env size h file none []
  | unstarted {reads : HeaderReads} {io : Io} {second : List UInt8} (some_ : headerReads env h file = some (reads, io))
      (read : reads.second = some second) (inside : 8 + second.length ≤ sizeofXarHeader) (granted : 0 ≤ size)
      (refused : zlib.inflateInit = none) : Returns zlib env size h file none []
  | looped {reads : HeaderReads} {io : Io} {second : List UInt8} {init : σ} {tmp : Text} {chunks : List (List UInt8)}
      {last : Option σ} (some_ : headerReads env h file = some (reads, io)) (read : reads.second = some second)
      (inside : 8 + second.length ≤ sizeofXarHeader) (granted : 0 ≤ size) (made : env.mkstemp = some tmp)
      (started : zlib.inflateInit = some init)
      (extracts : Extracts zlib (env.sized size) file (field (reads.header h) 8 8) init 2 io.offset chunks last) :
      Returns zlib env size h file (last.map fun _ => tmp) (written env 0 chunks)

section Sized

variable {env : TocEnv} {size : Int32}

theorem toNat_sized (granted : 0 ≤ size) : (env.sized size).zbufsize.toNat = size.toNatClampNeg := by
  have positive : 0 ≤ size.toInt64 := by
    rw [Int64.le_iff_toInt_le, Int32.toInt_toInt64]
    exact Int32.le_iff_toInt_le.mp granted
  rw [Int64.toNat_toUInt64_of_le positive, Int64.toNatClampNeg, Int32.toInt_toInt64]
  rfl

theorem sized_lt (granted : 0 ≤ size) : (env.sized size).zbufsize.toNat < 2 ^ 31 := by
  have bound := Int32.toInt_lt size
  rw [toNat_sized granted, Int32.toNatClampNeg]
  omega

/-- A size that is not negative is zero, or gives the buffers some room. -/
theorem sized_cases (env : TocEnv) (granted : 0 ≤ size) : 0 < size ∧ 0 < (env.sized size).zbufsize.toNat ∨
    size = 0 ∧ (env.sized size).zbufsize.toNat = 0 := by
  have zero : (0 : Int32).toInt = 0 := rfl
  rcases Int32.lt_or_eq_of_le granted with positive | rfl
  · have above := Int32.lt_iff_toInt_lt.mp positive
    rw [toNat_sized granted, Int32.toNatClampNeg]
    exact .inl ⟨positive, by omega⟩
  · exact .inr ⟨rfl, toNat_sized granted⟩

theorem written_sized (env : TocEnv) (size : Int32) (call : ℕ) (chunks : List (List UInt8)) :
    written (env.sized size) call chunks = written env call chunks := by
  induction chunks generalizing call with
  | nil => rfl
  | cons chunk chunks ih => rw [written, written, ih]

/-- The announced length, in memory and as a number. -/
theorem toNat_announced (header : List UInt8) : (UInt64.ofNat (field header 8 8)).toNat = field header 8 8 := by
  have bound := field_lt header 8 8
  rw [UInt64.toNat_ofNat']
  exact Nat.mod_eq_of_lt bound

end Sized

section Call

variable {σ : Type} {zlib : Zlib σ} {env : TocEnv} {size : Int32} {h file second : List UInt8} {reads : HeaderReads}
variable {io : Io} {init : σ}

/-- Before the buffers are needed their size does not matter. -/
theorem pkgTocExtractSized_of_early (early : ∀ reads io, headerReads env h file = some (reads, io) → reads.second = none)
    (fuel : ℕ) : pkgTocExtractSized zlib env size h file fuel = pkgTocExtract zlib (env.sized size) h file fuel := by
  have same : headerReads (env.sized size) h file = headerReads env h file := rfl
  unfold pkgTocExtractSized
  dsimp only
  split
  · next first request second io some_ =>
    rw [same] at some_
    exact absurd (early _ _ some_) nofun
  · rfl

theorem pkgTocExtractSized_of_read (some_ : headerReads env h file = some (reads, io))
    (read : reads.second = some second) (fuel : ℕ) :
    pkgTocExtractSized zlib env size h file fuel =
      if size < 0 then none else pkgTocExtract zlib (env.sized size) h file fuel := by
  have same : headerReads (env.sized size) h file = some (reads, io) := some_
  obtain ⟨first, request, answer⟩ := reads
  obtain rfl : answer = some second := read
  simp only [pkgTocExtractSized, same]

/-- A call that does not get to its loops returns no name, whatever the fuel. -/
theorem pkgTocExtractSized_early (zlib : Zlib σ) (size : Int32)
    (early : ∀ reads io, headerReads env h file = some (reads, io) → reads.second = none) :
    ∃ io, io.out = [] ∧ ∀ fuel, pkgTocExtractSized zlib env size h file fuel = some (none, io) := by
  simp only [pkgTocExtractSized_of_early early]
  cases some_ : headerReads env h file with
  | none =>
    have sized : headerReads (env.sized size) h file = none := some_
    exact pkgTocExtract_of_none zlib sized
  | some result =>
    have sized : headerReads (env.sized size) h file = some (result.1, result.2) := some_
    obtain ⟨place, -⟩ := headerReads_spec sized
    exact ⟨result.2, by rw [place], pkgTocExtract_of_failed zlib sized (early _ _ some_)⟩

/-- What the loops start with. -/
private theorem start_counted (header : List UInt8) :
    (0 : UInt64).toNat + field header 8 8 = (UInt64.ofNat (field header 8 8)).toNat := by
  rw [toNat_announced]
  exact Nat.zero_add _

theorem early_or_read (env : TocEnv) (h file : List UInt8) :
    (∀ reads io, headerReads env h file = some (reads, io) → reads.second = none) ∨
      ∃ reads io second, headerReads env h file = some (reads, io) ∧ reads.second = some second := by
  by_cases early : ∀ reads io, headerReads env h file = some (reads, io) → reads.second = none
  · exact .inl early
  · simp only [not_forall] at early
    obtain ⟨reads, io, some_, read⟩ := early
    obtain ⟨second, read⟩ := Option.ne_none_iff_exists'.mp read
    exact .inr ⟨reads, io, second, some_, read⟩

/-- A result is one of these. -/
theorem returns_of_ran (fits : zlib.Fits) {fuel : ℕ} {name : Option Text} {after : Io}
    (ran : pkgTocExtractSized zlib env size h file fuel = some (name, after)) :
    Returns zlib env size h file name after.out := by
  rcases early_or_read env h file with early | ⟨reads, io, second, some_, read⟩
  · obtain ⟨io, empty, returned⟩ := pkgTocExtractSized_early zlib size early
    rw [returned] at ran
    cases ran
    rw [empty]
    exact .early early
  · have sized : headerReads (env.sized size) h file = some (reads, io) := some_
    obtain ⟨place, -⟩ := headerReads_spec some_
    rw [pkgTocExtractSized_of_read some_ read] at ran
    by_cases negative : size < 0
    · rw [if_pos negative] at ran
      contradiction
    · rw [if_neg negative] at ran
      have granted := Int32.not_lt.mp negative
      by_cases inside : 8 + second.length ≤ sizeofXarHeader
      · cases started : zlib.inflateInit with
        | none =>
          rw [pkgTocExtract_of_unstarted sized read inside started] at ran
          cases ran
          rw [place]
          exact .unstarted some_ read inside granted started
        | some init =>
          obtain ⟨tmp, -, -, made, -⟩ := headerReads_eq_some some_
          rw [pkgTocExtract_of_started sized made read inside started] at ran
          obtain ⟨⟨last, io'⟩, loop, result⟩ := Option.bind_eq_some_iff.mp ran
          cases result
          obtain ⟨chunks, extracts, out⟩ := tocLoop_sound fits (sized_lt granted) fuel (start_counted _) loop
          rw [written_sized, place] at out
          have whole : io'.out = written env 0 chunks := out
          rw [whole]
          apply Returns.looped some_ read inside granted made started
          rw [place] at extracts ⊢
          exact extracts
      · rw [pkgTocExtract_of_overrun zlib sized read (Nat.not_le.mp inside)] at ran
        contradiction

/-- A name is that of the temporary file. -/
theorem mkstemp_of_ran (fits : zlib.Fits) {fuel : ℕ} {name : Text} {after : Io}
    (ran : pkgTocExtractSized zlib env size h file fuel = some (some name, after)) : env.mkstemp = some name := by
  have returns := returns_of_ran fits ran
  generalize after.out = out at returns
  generalize outcome : some name = result at returns
  cases returns with
  | early => contradiction
  | unstarted => contradiction
  | looped some_ read inside granted made =>
    rw [← outcome]
    obtain ⟨zs, -, rfl⟩ := Option.map_eq_some_iff.mp outcome.symm
    exact made

/-- And each of these is a result, with enough fuel. -/
theorem ran_of_returns (fits : zlib.Fits) {name : Option Text} {out : List UInt8}
    (returns : Returns zlib env size h file name out) :
    ∃ fuel after, pkgTocExtractSized zlib env size h file fuel = some (name, after) ∧ after.out = out := by
  cases returns with
  | early early =>
    obtain ⟨io, empty, returned⟩ := pkgTocExtractSized_early zlib size early
    exact ⟨0, io, returned 0, empty⟩
  | @unstarted reads io second some_ read inside granted refused =>
    have sized : headerReads (env.sized size) h file = some (reads, io) := some_
    obtain ⟨place, -⟩ := headerReads_spec some_
    refine ⟨0, io, ?_, by rw [place]⟩
    rw [pkgTocExtractSized_of_read some_ read, if_neg (Int32.not_lt.mpr granted)]
    exact pkgTocExtract_of_unstarted sized read inside refused 0
  | @looped reads io second init tmp chunks last some_ read inside granted made started extracts =>
    have sized : headerReads (env.sized size) h file = some (reads, io) := some_
    obtain ⟨place, -⟩ := headerReads_spec some_
    obtain ⟨enough, complete⟩ :=
      tocLoop_complete fits (sized_lt granted) (UInt64.ofNat (field (reads.header h) 8 8)) extracts
    obtain ⟨io', ran, out⟩ := complete enough (Nat.le_refl _) 0
      (List.replicate (env.sized size).zbufsize.toNat 0) io (start_counted _) (by rw [place]) rfl
    rw [written_sized, place] at out
    refine ⟨enough, io', ?_, out⟩
    rw [pkgTocExtractSized_of_read some_ read, if_neg (Int32.not_lt.mpr granted),
      pkgTocExtract_of_started sized made read inside started, ran]
    rfl

end Call

end FsPkg.PkgToc
