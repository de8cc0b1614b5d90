import FsPkg.Proofs.PkgTocExtract

/-! # The header of a package

`pkg_toc_extract` reads eight bytes into a header that nobody cleared, takes the `size` in it for the length of the
header, and reads what that leaves. Neither read is checked for its length. The request stays inside the header, and
the fields are those of the file, only if the file and both reads happen to be as they should be.
-/

namespace FsPkg.PkgToc

open Machine Pkg

/-! ## What becomes of the header -/

/-- The header in memory after its reads. -/
def HeaderReads.header (reads : HeaderReads) (h : List UInt8) : List UInt8 :=
  store (store h 0 reads.first) 8 (reads.second.getD [])

/-- What the second read is asked for. -/
def secondRequest (h first : List UInt8) : ℕ :=
  (((field (store h 0 first) 4 2 : ℤ) - 8) % 2 ^ 64).toNat

section Extraction

variable {σ : Type} {zlib : Zlib σ} {env : TocEnv} {h file second : List UInt8} {reads : HeaderReads} {io : Io}

/-- The two reads, one after the other. -/
theorem headerReads_eq_some (some_ : headerReads env h file = some (reads, io)) :
    ∃ tmp io', env.open_ = true ∧ env.mkstemp = some tmp ∧ readFile env file 8 {} = (some reads.first, io') ∧
      reads.request = secondRequest h reads.first ∧ readFile env file reads.request io' = (reads.second, io) := by
  unfold headerReads at some_
  cases opened : env.open_ with
  | false => simp [opened] at some_
  | true =>
    cases made : env.mkstemp with
    | none => simp [made] at some_
    | some tmp =>
      simp only [opened, made, Bool.not_true, Option.isNone_some, Bool.or_self, Bool.false_eq_true, if_false] at some_
      split at some_
      · contradiction
      · next first io' read =>
        cases some_
        exact ⟨tmp, io', rfl, rfl, read, rfl, rfl⟩

theorem readFile_error {count : ℕ} {io : Io} (answer : env.read io.reads = .error) :
    readFile env file count io = (none, { io with reads := io.reads + 1 }) := by
  simp only [readFile, answer]

theorem readFile_data {count limit : ℕ} {io : Io} (answer : env.read io.reads = .upTo limit) :
    readFile env file count io = (some ((file.drop io.offset).take (min limit count)),
      { io with
        reads := io.reads + 1, offset := io.offset + ((file.drop io.offset).take (min limit count)).length }) := by
  simp only [readFile, answer]

/-- What the reads bring, by the answers of the system. -/
theorem headerReads_spec (some_ : headerReads env h file = some (reads, io)) :
    io = { offset := reads.first.length + (reads.second.getD []).length, reads := 2 } ∧
      reads.request = secondRequest h reads.first ∧
      ∃ limit, env.read 0 = .upTo limit ∧ reads.first = file.take (min limit 8) ∧
        ((env.read 1 = .error ∧ reads.second = none) ∨ ∃ limit', env.read 1 = .upTo limit' ∧
          reads.second = some ((file.drop reads.first.length).take (min limit' reads.request))) := by
  obtain ⟨tmp, io', -, -, first, request, second⟩ := headerReads_eq_some some_
  cases answer : env.read 0 with
  | error =>
    rw [readFile_error answer] at first
    cases first
  | upTo limit =>
    rw [readFile_data answer] at first
    obtain ⟨bytes, rfl⟩ := Prod.ext_iff.mp first
    have bytes : file.take (min limit 8) = reads.first := Option.some.inj bytes
    simp only [List.drop_zero, Nat.zero_add, bytes] at second
    cases answer' : env.read 1 with
    | error =>
      rw [readFile_error answer'] at second
      obtain ⟨none_, rfl⟩ := Prod.ext_iff.mp second
      have none_ : reads.second = none := none_.symm
      refine ⟨?_, request, limit, rfl, bytes.symm, .inl ⟨rfl, none_⟩⟩
      rw [none_]
      rfl
    | upTo limit' =>
      rw [readFile_data answer'] at second
      obtain ⟨data, rfl⟩ := Prod.ext_iff.mp second
      have data : reads.second = some ((file.drop reads.first.length).take (min limit' reads.request)) := data.symm
      refine ⟨?_, request, limit, rfl, bytes.symm, .inr ⟨limit', rfl, data⟩⟩
      rw [data]
      rfl

/-- Without a second read there is no name. -/
theorem pkgTocExtract_of_none (zlib : Zlib σ) (early : headerReads env h file = none) :
    ∃ io, io.out = [] ∧ ∀ fuel, pkgTocExtract zlib env h file fuel = some (none, io) := by
  unfold headerReads at early
  unfold pkgTocExtract
  cases opened : env.open_ with
  | false => exact ⟨{}, rfl, fun _ => rfl⟩
  | true =>
    cases made : env.mkstemp with
    | none => exact ⟨{}, rfl, fun _ => rfl⟩
    | some tmp =>
      simp only [opened, made, Bool.not_true, Option.isNone_some, Bool.or_self, Bool.false_eq_true, if_false] at early ⊢
      cases answer : env.read 0 with
      | error => exact ⟨{ reads := 1 }, rfl, fun _ => by rw [readFile_error answer]⟩
      | upTo limit =>
        rw [readFile_data answer] at early
        contradiction

/-- Nor is there one if the second read fails. -/
theorem pkgTocExtract_of_failed (zlib : Zlib σ) (some_ : headerReads env h file = some (reads, io))
    (failed : reads.second = none) (fuel : ℕ) : pkgTocExtract zlib env h file fuel = some (none, io) := by
  obtain ⟨tmp, io', opened, made, first, request, answer⟩ := headerReads_eq_some some_
  rw [request, secondRequest, failed] at answer
  simp only [pkgTocExtract, opened, made, first, answer]
  rfl

/-- A second read that brings more than the rest of the header is stored over the end of it. -/
theorem pkgTocExtract_of_overrun (zlib : Zlib σ) (some_ : headerReads env h file = some (reads, io))
    (read : reads.second = some second) (overrun : sizeofXarHeader < 8 + second.length) (fuel : ℕ) :
    pkgTocExtract zlib env h file fuel = none := by
  obtain ⟨tmp, io', opened, made, first, request, answer⟩ := headerReads_eq_some some_
  rw [request, secondRequest, read] at answer
  simp only [pkgTocExtract, opened, made, first, answer, if_pos overrun]
  rfl

theorem pkgTocExtract_of_unstarted (some_ : headerReads env h file = some (reads, io))
    (read : reads.second = some second) (inside : 8 + second.length ≤ sizeofXarHeader)
    (refused : zlib.inflateInit = none) (fuel : ℕ) : pkgTocExtract zlib env h file fuel = some (none, io) := by
  obtain ⟨tmp, io', opened, made, first, request, answer⟩ := headerReads_eq_some some_
  rw [request, secondRequest, read] at answer
  simp only [pkgTocExtract, opened, made, first, answer, if_neg (Nat.not_lt.mpr inside), refused]
  rfl

/-- The call gets to its loops. -/
theorem pkgTocExtract_of_started {init : σ} {tmp : Text} (some_ : headerReads env h file = some (reads, io))
    (made : env.mkstemp = some tmp) (read : reads.second = some second) (inside : 8 + second.length ≤ sizeofXarHeader)
    (started : zlib.inflateInit = some init) (fuel : ℕ) :
    pkgTocExtract zlib env h file fuel =
      (tocLoop zlib env file (UInt64.ofNat (field (reads.header h) 8 8)) fuel 0 init
        (List.replicate env.zbufsize.toNat 0) io).bind fun result => some (result.1.map fun _ => tmp, result.2) := by
  obtain ⟨_, io', opened, -, first, request, answer⟩ := headerReads_eq_some some_
  rw [request, secondRequest, read] at answer
  have header : reads.header h = store (store h 0 reads.first) 8 second := by rw [HeaderReads.header, read]; rfl
  simp only [pkgTocExtract, opened, made, first, answer, if_neg (Nat.not_lt.mpr inside), started, header]
  rw [if_neg (by decide)]
  apply congrArg (Option.bind _)
  funext result
  obtain ⟨stream, io⟩ := result
  cases stream <;> rfl

end Extraction

/-! ## What was read -/

/-- The fields of `struct xar_header`. -/
inductive HeaderField where
  | magic
  | size
  | version
  | tocLengthCompressed
  | tocLengthUncompressed
  | cksumAlg
deriving DecidableEq, Repr

namespace HeaderField

def position : HeaderField → ℕ
  | magic => 0
  | size => 4
  | version => 6
  | tocLengthCompressed => 8
  | tocLengthUncompressed => 16
  | cksumAlg => 24

def width : HeaderField → ℕ
  | magic => 4
  | size => 2
  | version => 2
  | tocLengthCompressed => 8
  | tocLengthUncompressed => 8
  | cksumAlg => 4

theorem width_pos (field : HeaderField) : 0 < field.width := by
  cases field <;> decide

/-- All of them are converted from network order after they were read. -/
def all : List HeaderField := [magic, size, version, tocLengthCompressed, tocLengthUncompressed, cksumAlg]

/-- These two decide what the call does. -/
def deciding : List HeaderField := [size, tocLengthCompressed]

end HeaderField

/-- Every byte of the field was stored by one of the reads. -/
def HeaderReads.Covers (reads : HeaderReads) (field : HeaderField) : Prop :=
  ∀ i, field.position ≤ i → i < field.position + field.width →
    i < reads.first.length ∨ ∃ second, reads.second = some second ∧ 8 ≤ i ∧ i < 8 + second.length

/-- The fields at the start are used before the second read, the others only if it does not fail. -/
def HeaderReads.Uses (reads : HeaderReads) (field : HeaderField) : Prop :=
  field.position < 8 ∨ reads.second.isSome

/-- The second read asks for no more than the header has room for, and of these fields none is used that was not
read. -/
def StaysInside (fields : List HeaderField) (env : TocEnv) (h file : List UInt8) : Prop :=
  ∀ reads io, headerReads env h file = some (reads, io) →
    reads.request ≤ sizeofXarHeader - 8 ∧ ∀ field ∈ fields, reads.Uses field → reads.Covers field

/-- The call returns before the second read. -/
def FailsBefore (env : TocEnv) : Prop :=
  env.open_ = false ∨ env.mkstemp = none ∨ env.read 0 = .error

/-- Among the fields, those that the first read is for end at `early` at the latest, those of the second at `late`. -/
structure Spans (fields : List HeaderField) (early late : ℕ) : Prop where
  first : ∃ field ∈ fields, field.position + field.width = early
  second : ∃ field ∈ fields, 8 ≤ field.position ∧ field.position + field.width = late
  inside : ∀ field ∈ fields, field.position + field.width ≤ early ∨
    8 ≤ field.position ∧ field.position + field.width ≤ late
  size : 6 ≤ early
  eight : early ≤ 8

/-- The file and the first read give the header up to `early`, and a size that is not beyond the header; then the second
read fails, or that size, the file and the read reach up to `late`. -/
def ReadsUpTo (early late : ℕ) (env : TocEnv) (file : List UInt8) : Prop :=
  ∃ limit, env.read 0 = .upTo limit ∧ early ≤ limit ∧ early ≤ file.length ∧
    8 ≤ field file 4 2 ∧ field file 4 2 ≤ sizeofXarHeader ∧
    (env.read 1 = .error ∨ ∃ limit', env.read 1 = .upTo limit' ∧ late ≤ 8 + limit' ∧ late ≤ field file 4 2 ∧
      min limit 8 + late ≤ 8 + file.length)

section Inside

variable {env : TocEnv} {h file : List UInt8} {reads : HeaderReads} {limit : ℕ}

/-- Only the first read stores into the first eight bytes. -/
theorem covers_first {field : HeaderField} (early : field.position + field.width ≤ 8) :
    reads.Covers field ↔ field.position + field.width ≤ reads.first.length := by
  constructor
  · intro covers
    have positive := field.width_pos
    rcases covers (field.position + field.width - 1) (by omega) (by omega) with inside | ⟨_, -, late, -⟩ <;> omega
  · intro inside i _ upper
    exact .inl (by omega)

theorem covers_second {field : HeaderField} (late : 8 ≤ field.position) (short : reads.first.length ≤ 8) :
    reads.Covers field ↔
      ∃ second, reads.second = some second ∧ field.position + field.width ≤ 8 + second.length := by
  constructor
  · intro covers
    have positive := field.width_pos
    rcases covers (field.position + field.width - 1) (by omega) (by omega) with inside | ⟨second, read, -, upper⟩
    · omega
    · exact ⟨second, read, by omega⟩
  · rintro ⟨second, read, inside⟩ i lower upper
    exact .inr ⟨second, read, by omega, by omega⟩

/-- The number of bytes that is asked for, as a `size_t`. -/
theorem secondRequest_le_iff (first : List UInt8) :
    secondRequest h first ≤ 20 ↔ 8 ≤ field (store h 0 first) 4 2 ∧ field (store h 0 first) 4 2 ≤ 28 := by
  have bound := field_lt (store h 0 first) 4 2
  unfold secondRequest
  omega

theorem secondRequest_eq {first : List UInt8} (lower : 8 ≤ field (store h 0 first) 4 2) :
    secondRequest h first = field (store h 0 first) 4 2 - 8 := by
  have bound := field_lt (store h 0 first) 4 2
  unfold secondRequest
  omega

/-- The size is that of the file if the first read brings it. -/
theorem field_store_take {count : ℕ} (enough : 6 ≤ count) (long : 6 ≤ file.length) :
    field (store h 0 (file.take count)) 4 2 = field file 4 2 := by
  unfold field store
  rw [List.take_zero, List.nil_append, List.drop_append_of_le_length, List.take_append_of_le_length, List.drop_take,
    List.take_take, Nat.min_eq_left (by omega)]
  · rw [List.length_drop, List.length_take]
    omega
  · rw [List.length_take]
    omega

theorem headerReads_eq_none : headerReads env h file = none ↔ FailsBefore env := by
  unfold headerReads FailsBefore
  cases opened : env.open_ with
  | false => simp
  | true =>
    cases made : env.mkstemp with
    | none => simp
    | some tmp =>
      cases answer : env.read 0 with
      | error => simp [readFile, answer]
      | upTo limit => simp [readFile, answer]

/-- The call gets to the second read, or returns before it. -/
theorem staysInside_of_reads {fields : List HeaderField} {io : Io} (some_ : headerReads env h file = some (reads, io)) :
    StaysInside fields env h file ↔
      reads.request ≤ sizeofXarHeader - 8 ∧ ∀ field ∈ fields, reads.Uses field → reads.Covers field := by
  constructor
  · intro stays
    exact stays reads io some_
  · intro stays reads' io' same
    cases some_.symm.trans same
    exact stays

/-- The fields come from the file. -/
theorem readsUpTo_iff {fields : List HeaderField} {early late : ℕ} (spans : Spans fields early late) {io : Io}
    (some_ : headerReads env h file = some (reads, io)) :
    (reads.request ≤ sizeofXarHeader - 8 ∧ ∀ field ∈ fields, reads.Uses field → reads.Covers field) ↔
      ReadsUpTo early late env file := by
  obtain ⟨-, request, limit, answer, first, second⟩ := headerReads_spec some_
  have length : reads.first.length = min (min limit 8) file.length := by rw [first, List.length_take]
  have short : reads.first.length ≤ 8 := by omega
  have six := spans.size
  have eight := spans.eight
  have header : sizeofXarHeader = 28 := rfl
  have size (enough : 6 ≤ reads.first.length) : field (store h 0 reads.first) 4 2 = field file 4 2 := by
    rw [first]
    exact field_store_take (by omega) (by omega)
  constructor
  · rintro ⟨small, covers⟩
    obtain ⟨last, member, ends⟩ := spans.first
    have positive := last.width_pos
    have whole := (covers_first (by omega)).mp (covers last member (.inl (by omega)))
    rw [request] at small
    have bounds := (secondRequest_le_iff _).mp small
    rw [size (by omega)] at bounds
    refine ⟨limit, answer, by omega, by omega, bounds.1, bounds.2, ?_⟩
    rcases second with ⟨failed, -⟩ | ⟨limit', answer', read⟩
    · exact .inl failed
    · obtain ⟨last, member, late, ends⟩ := spans.second
      have positive := last.width_pos
      have used : reads.Uses last := .inr (by rw [read]; rfl)
      obtain ⟨second, same, long⟩ := (covers_second late short).mp (covers last member used)
      cases read.symm.trans same
      rw [List.length_take, List.length_drop, request, secondRequest_eq (by rw [size (by omega)]; omega),
        size (by omega)] at long
      exact .inr ⟨limit', answer', by omega, by omega, by omega⟩
  · rintro ⟨limit₀, answer₀, enough, long, lower, upper, rest⟩
    cases answer.symm.trans answer₀
    have same := size (by omega)
    constructor
    · rw [request]
      apply (secondRequest_le_iff _).mpr
      rw [same]
      exact ⟨lower, upper⟩
    · intro field member uses
      rcases spans.inside field member with inside | ⟨late, inside⟩
      · exact (covers_first (by omega)).mpr (by omega)
      · apply (covers_second late short).mpr
        have present := uses.resolve_left (by omega)
        rcases second with ⟨-, failed⟩ | ⟨limit', answer', read⟩
        · rw [failed] at present
          contradiction
        · refine ⟨_, read, ?_⟩
          rcases rest with failed | ⟨limit₁, answer₁, reach, sized, whole⟩
          · cases failed.symm.trans answer'
          · cases answer'.symm.trans answer₁
            rw [List.length_take, List.length_drop, request, secondRequest_eq (by omega), same]
            omega

theorem staysInside_iff {fields : List HeaderField} {early late : ℕ} (spans : Spans fields early late) :
    StaysInside fields env h file ↔ FailsBefore env ∨ ReadsUpTo early late env file := by
  cases some_ : headerReads env h file with
  | none =>
    refine iff_of_true ?_ (.inl (headerReads_eq_none.mp some_))
    intro reads io read
    rw [some_] at read
    contradiction
  | some result =>
    have through : ¬FailsBefore env := by
      intro fails
      rw [headerReads_eq_none.mpr fails] at some_
      contradiction
    rw [staysInside_of_reads some_, readsUpTo_iff spans some_]
    exact (or_iff_right through).symm

end Inside

theorem spans_all : Spans HeaderField.all 8 28 where
  first := ⟨.version, by decide, by decide⟩
  second := ⟨.cksumAlg, by decide, by decide, by decide⟩
  inside := by decide
  size := by decide
  eight := by decide

theorem spans_deciding : Spans HeaderField.deciding 6 16 where
  first := ⟨.size, by decide, by decide⟩
  second := ⟨.tocLengthCompressed, by decide, by decide, by decide⟩
  inside := by decide
  size := by decide
  eight := by decide

/-- When the second read stays inside the header and every field comes from the file; and when those fields do that
decide what the call does. -/
theorem pkgTocExtract_staysInside_iff (env : TocEnv) (h file : List UInt8) :
    (StaysInside HeaderField.all env h file ↔ FailsBefore env ∨ ReadsUpTo 8 28 env file) ∧
      (StaysInside HeaderField.deciding env h file ↔ FailsBefore env ∨ ReadsUpTo 6 16 env file) :=
  ⟨staysInside_iff spans_all, staysInside_iff spans_deciding⟩

/-- Every call of the system succeeds, and does all it is asked for. -/
def willing : TocEnv where
  zbufsize := 1310720
  open_ := true
  mkstemp := some ['t']
  read := fun _ => .upTo 1310720
  write := fun _ count => count

/-- With a size of 7 in the file, the second read asks for 2^64 - 1 bytes; with one of 100, for 92; and a file of four
bytes leaves the size to chance. -/
theorem pkgTocExtract_not_staysInside :
    ¬StaysInside HeaderField.deciding willing (List.replicate 28 0) [0x78, 0x61, 0x72, 0x21, 0, 7, 0, 1] ∧
      ¬StaysInside HeaderField.deciding willing (List.replicate 28 0) [0x78, 0x61, 0x72, 0x21, 0, 100, 0, 1] ∧
      ¬StaysInside HeaderField.deciding willing (List.replicate 28 0) [0x78, 0x61, 0x72, 0x21] := by
  have through : ¬FailsBefore willing := by
    rintro (closed | unnamed | failed)
    · contradiction
    · contradiction
    · contradiction
  refine ⟨?_, ?_, ?_⟩
  · rw [staysInside_iff spans_deciding, or_iff_right through]
    rintro ⟨_, -, -, -, lower, -⟩
    exact absurd lower (by decide)
  · rw [staysInside_iff spans_deciding, or_iff_right through]
    rintro ⟨_, -, -, -, -, upper, -⟩
    exact absurd upper (by decide)
  · rw [staysInside_iff spans_deciding, or_iff_right through]
    rintro ⟨_, -, -, long, -⟩
    exact absurd long (by decide)

end FsPkg.PkgToc
