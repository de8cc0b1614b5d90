import FsPkg.Proofs.PkgTocEnds

/-! # What the extraction succeeds on

`pkg_toc_extract` returns the name of its output file once it has read as many bytes as the header announces and
`inflate` has refused none of them. It does not look at the magic number, at the length that is to come out, at the
end of the stream, or at what `write` returns. So a name stands for a whole table of contents only if all these are
as they should be on their own.
-/

namespace FsPkg.PkgToc

open Machine Pkg

/-- `XAR_HEADER_MAGIC`. -/
def xarHeaderMagic : ℕ := 0x78617221

/-- The documented behaviour of zlib on a stream with something after it; and no stream is empty. -/
structure Zlib.Streams {σ : Type} (zlib : Zlib σ) (Decodes : σ → List UInt8 → List UInt8 → Prop) (Ended : σ → Prop) :
    Prop where
  stream : StreamDecoder.Halts zlib.inflate Decodes Ended
  header : ∀ init output, zlib.inflateInit = some init → ¬Decodes init [] output

/-- From this call of `write` on, each takes all of the chunk it is given. -/
def TakesAll (write : ℕ → ℕ → ℕ) : ℕ → List (List UInt8) → Prop
  | _, [] => True
  | call, chunk :: chunks => chunk.length ≤ write call chunk.length ∧ TakesAll write (call + 1) chunks

/-- From this call on, no `read` fails before so many bytes were read. -/
inductive Gathers (read : ℕ → ReadAnswer) (size : ℕ) : ℕ → ℕ → Prop
  | done {call : ℕ} : Gathers read size call 0
  | piece {call left limit : ℕ} (more : 0 < left) (answer : read call = .upTo limit)
      (rest : Gathers read size (call + 1) (left - min limit (min size left))) : Gathers read size call left

/-! ## Chunks -/

section Chunks

variable {env : TocEnv}

theorem length_written_le (env : TocEnv) (call : ℕ) (chunks : List (List UInt8)) :
    (written env call chunks).length ≤ chunks.flatten.length := by
  induction chunks generalizing call with
  | nil => exact Nat.le_refl _
  | cons chunk chunks ih =>
    have rest := ih (call + 1)
    rw [written, List.flatten_cons, List.length_append, List.length_append, List.length_take]
    omega

/-- The output file has all of the chunks exactly if no `write` was short. -/
theorem written_eq_flatten_iff (call : ℕ) (chunks : List (List UInt8)) :
    written env call chunks = chunks.flatten ↔ TakesAll env.write call chunks := by
  induction chunks generalizing call with
  | nil => exact iff_of_true rfl trivial
  | cons chunk chunks ih =>
    rw [written, List.flatten_cons, TakesAll, ← ih]
    constructor
    · intro same
      have lengths := congrArg List.length same
      have rest := length_written_le env (call + 1) chunks
      rw [List.length_append, List.length_append, List.length_take] at lengths
      have all : chunk.length ≤ env.write call chunk.length := by omega
      rw [List.take_of_length_le all] at same
      exact ⟨all, List.append_cancel_left same⟩
    · rintro ⟨all, rest⟩
      rw [List.take_of_length_le all, rest]

end Chunks

/-! ## Turns that succeed -/

section Turns

variable {σ : Type} {zlib : Zlib σ} {Decodes : σ → List UInt8 → List UInt8 → Prop} {Ended : σ → Prop}
variable {Refuses : σ → List UInt8 → Prop} {pending : σ → List UInt8 → ℕ}
variable {env : TocEnv} {file : List UInt8} {left : ℕ} {zs zs' : σ} {reads offset : ℕ} {chunks : List (List UInt8)}

/-- A piece, and what is left of the table after it. -/
theorem table_append {limit : ℕ} {data : List UInt8}
    (read : data = (file.drop offset).take (min limit (min env.zbufsize.toNat left))) :
    (file.drop offset).take left = data ++ (file.drop (offset + data.length)).take (left - data.length) := by
  have short := length_piece_le read
  rw [← piece_append file offset _ read, List.take_append, List.take_of_length_le short]

/-- Turns that succeed write what the table contains. -/
theorem flatten_of_extracts (streams : zlib.Streams Decodes Ended) {output : List UInt8}
    (extracts : Extracts zlib env file left zs reads offset chunks (some zs'))
    (contains : StreamDecoder.Contains Decodes zs ((file.drop offset).take left) output)
    (last : left = 0 → output = []) : chunks.flatten = output := by
  generalize outcome : some zs' = last_ at extracts
  induction extracts generalizing output with
  | done => exact (last rfl).symm
  | error more answer => contradiction
  | refused more answer read feeds => contradiction
  | piece more answer read feeds rest ih =>
    rw [table_append read] at contains
    obtain ⟨later, whole, after, ends⟩ := streams.stream.contains_of_feeds feeds contains
    rw [whole, List.flatten_append, ih after _ outcome]
    intro none_
    rw [none_, List.take_zero] at ends
    exact ends rfl

/-- Turns that succeed have read the table, and none of it was refused. -/
theorem gathers_of_extracts (judged : zlib.Judged Ended Refuses pending)
    (extracts : Extracts zlib env file left zs reads offset chunks (some zs')) (accepts : ¬Refuses zs []) :
    left ≤ file.length - offset ∧ Gathers env.read env.zbufsize.toNat reads left ∧
      ¬Refuses zs ((file.drop offset).take left) := by
  generalize outcome : some zs' = last_ at extracts
  induction extracts with
  | done => exact ⟨Nat.zero_le _, .done, accepts⟩
  | error more answer => contradiction
  | refused more answer read feeds => contradiction
  | @piece left zs zs₁ reads offset limit data chunks later last more answer read feeds rest ih =>
    obtain ⟨kept, carries⟩ := judged.stream.carries_of_feeds feeds
    have fresh : ¬Refuses zs₁ [] := by
      rw [← carries, List.append_nil]
      exact kept
    obtain ⟨whole, gathers, none_⟩ := ih fresh outcome
    have short := length_piece_le read
    have length : data.length = min (min limit (min env.zbufsize.toNat left)) (file.length - offset) := by
      rw [read, List.length_take, List.length_drop]
    have full : data.length = min limit (min env.zbufsize.toNat left) := by omega
    rw [full] at gathers
    refine ⟨by omega, .piece more answer gathers, ?_⟩
    rw [table_append read, carries]
    exact none_

/-- And under these conditions they do. -/
theorem extracts_of_gathers (judged : zlib.Judged Ended Refuses pending) (positive : 0 < env.zbufsize.toNat)
    (gathers : Gathers env.read env.zbufsize.toNat reads left) (whole : left ≤ file.length - offset)
    (accepts : ¬Refuses zs ((file.drop offset).take left)) :
    ∃ chunks zs', Extracts zlib env file left zs reads offset chunks (some zs') := by
  generalize size : env.zbufsize.toNat = z at gathers
  induction gathers generalizing zs offset with
  | done => exact ⟨[], zs, .done⟩
  | @piece call left limit more answer rest ih =>
    rw [← size] at ih
    obtain ⟨data, read⟩ : ∃ data, data = (file.drop offset).take (min limit (min env.zbufsize.toNat left)) := ⟨_, rfl⟩
    have length : data.length = min limit (min env.zbufsize.toNat left) := by
      rw [read, List.length_take, List.length_drop]
      omega
    rw [table_append read] at accepts
    obtain ⟨chunks, last, feeds⟩ := judged.stream.feeds_total positive zs data
    cases last with
    | none => exact (accepts (judged.stream.append _ _ _ (judged.stream.refuses_of_feeds feeds))).elim
    | some zs₁ =>
      rw [(judged.stream.carries_of_feeds feeds).2, length] at accepts
      obtain ⟨later, zs', extracts⟩ := ih (by omega) accepts
      rw [← length] at extracts
      exact ⟨chunks ++ later, zs', .piece more answer read feeds extracts⟩

end Turns

/-! ## The call -/

/-- The two reads brought the 28 bytes of a header, which has the magic number. -/
structure HeaderWhole (reads : HeaderReads) (file : List UInt8) : Prop where
  first : reads.first.length = 8
  second : ∃ bytes, reads.second = some bytes ∧ bytes.length = 20
  magic : field file 0 4 = xarHeaderMagic

/-- What a name should stand for: a whole header, a stream that ends within the announced length, and its decompression
in the output file, of the announced length. -/
structure WholeToc {σ : Type} (Decodes : σ → List UInt8 → List UInt8 → Prop) (init : σ) (reads : HeaderReads)
    (file out : List UInt8) : Prop where
  header : HeaderWhole reads file
  stream : StreamDecoder.Contains Decodes init ((file.drop sizeofXarHeader).take (field file 8 8)) out
  length : out.length = field file 16 8

/-- `pkg_toc_extract` succeeds only on a whole table of contents, and does not run over its header, after which nothing
is known. -/
def OnlyWhole {σ : Type} (zlib : Zlib σ) (Decodes : σ → List UInt8 → List UInt8 → Prop) (env : TocEnv) (size : Int32)
    (h file : List UInt8) : Prop :=
  (∀ reads io second, headerReads env h file = some (reads, io) → reads.second = some second →
    8 + second.length ≤ sizeofXarHeader) ∧
  ∀ fuel tmp io, pkgTocExtractSized zlib env size h file fuel = some (some tmp, io) →
    ∃ reads place init, headerReads env h file = some (reads, place) ∧ zlib.inflateInit = some init ∧
      WholeToc Decodes init reads file io.out

/-- The announced length is 0; or the file has so many bytes, no read fails before they were read, and none of them is
refused. -/
def TableGathered {σ : Type} (Refuses : σ → List UInt8 → Prop) (env : TocEnv) (size : Int32) (file : List UInt8)
    (init : σ) (length offset : ℕ) : Prop :=
  length = 0 ∨ (0 < size ∧ length ≤ file.length - offset ∧ Gathers env.read size.toNatClampNeg 2 length ∧
    ¬Refuses init ((file.drop offset).take length))

/-- The header is whole, the table contains a stream of the announced length, and every `write` takes all it is given. -/
structure WholeInput {σ : Type} (zlib : Zlib σ) (Decodes : σ → List UInt8 → List UInt8 → Prop) (env : TocEnv)
    (size : Int32) (init : σ) (reads : HeaderReads) (file : List UInt8) : Prop where
  header : HeaderWhole reads file
  stream : ∃ output, StreamDecoder.Contains Decodes init ((file.drop sizeofXarHeader).take (field file 8 8)) output ∧
    output.length = field file 16 8
  writes : ∀ chunks zs, Extracts zlib (env.sized size) file (field file 8 8) init 2 sizeofXarHeader chunks (some zs) →
    TakesAll env.write 0 chunks

section Call

variable {σ : Type} {zlib : Zlib σ} {Decodes : σ → List UInt8 → List UInt8 → Prop} {Ended : σ → Prop}
variable {Refuses : σ → List UInt8 → Prop} {pending : σ → List UInt8 → ℕ}
variable {env : TocEnv} {size : Int32} {h file second : List UInt8} {reads : HeaderReads} {io : Io} {init : σ}

/-- The position after a whole header, and the length in it. -/
theorem HeaderWhole.place (whole : HeaderWhole reads file) (some_ : headerReads env h file = some (reads, io)) :
    io.offset = sizeofXarHeader ∧ field (reads.header h) 8 8 = field file 8 8 := by
  obtain ⟨bytes, read, twenty⟩ := whole.second
  obtain ⟨place, -, limit, -, first, ⟨-, failed⟩ | ⟨limit', -, second⟩⟩ := headerReads_spec some_
  · rw [read] at failed
    contradiction
  · have eight := whole.first
    have bytes_eq : bytes = (file.drop 8).take 20 := by
      rw [eight] at second
      have same := Option.some.inj (read.symm.trans second)
      have length := congrArg List.length same
      rw [twenty, List.length_take, List.length_drop] at length
      rw [same]
      apply List.take_eq_take_iff.mpr
      rw [List.length_drop]
      omega
    have first_eq : reads.first = file.take 8 := by
      rw [first, List.length_take] at eight
      rw [first]
      apply List.take_eq_take_iff.mpr
      omega
    constructor
    · rw [place, read, eight, Option.getD_some, twenty]
      rfl
    · have header : reads.header h = (file.take 28) ++ (reads.first ++ h.drop 8).drop 28 := by
        have front : (reads.first ++ h.drop 8).take 8 = reads.first := by
          rw [← eight]
          exact List.take_left
        rw [HeaderReads.header, read, Option.getD_some, store, store, List.take_zero, List.nil_append, twenty, eight,
          Nat.zero_add, front, first_eq, bytes_eq]
        congr 1
        rw [← List.take_add]
      have long : 28 ≤ file.length := by
        have length := congrArg List.length bytes_eq
        rw [twenty, List.length_take, List.length_drop] at length
        omega
      rw [header, field_append (by rw [List.length_take]; omega),
        ← field_append (by rw [List.length_take]; omega) (file.drop 28), List.take_append_drop]

/-- What the call writes when it succeeds. -/
theorem succeeds_iff (fits : zlib.Fits) (granted : 0 ≤ size) (some_ : headerReads env h file = some (reads, io))
    (read : reads.second = some second) (inside : 8 + second.length ≤ sizeofXarHeader)
    (started : zlib.inflateInit = some init) (P : List UInt8 → Prop) :
    (∀ fuel tmp io', pkgTocExtractSized zlib env size h file fuel = some (some tmp, io') → P io'.out) ↔
      ∀ chunks zs, Extracts zlib (env.sized size) file (field (reads.header h) 8 8) init 2 io.offset chunks (some zs) →
        P (written env 0 chunks) := by
  constructor
  · intro succeeds chunks zs extracts
    obtain ⟨tmp, -, -, made, -⟩ := headerReads_eq_some some_
    obtain ⟨fuel, after, ran, out⟩ := ran_of_returns fits (.looped some_ read inside granted made started extracts)
    rw [← out]
    exact succeeds fuel tmp after ran
  · intro succeeds fuel tmp io' ran
    have returns := returns_of_ran fits ran
    generalize io'.out = out at returns
    generalize outcome : some tmp = name at returns
    cases returns with
    | early => contradiction
    | unstarted => contradiction
    | @looped reads' _ _ _ _ chunks last same _ _ _ _ started' extracts =>
      cases some_.symm.trans same
      cases started.symm.trans started'
      obtain ⟨zs, rfl, -⟩ := Option.map_eq_some_iff.mp outcome.symm
      exact succeeds chunks zs extracts

/-- The turns succeed exactly if the table is gathered. -/
theorem tableGathered_iff (judged : zlib.Judged Ended Refuses pending) (granted : 0 ≤ size)
    (started : zlib.inflateInit = some init) (length offset : ℕ) :
    (∃ chunks zs, Extracts zlib (env.sized size) file length init 2 offset chunks (some zs)) ↔
      TableGathered Refuses env size file init length offset := by
  have bytes : (env.sized size).zbufsize.toNat = size.toNatClampNeg := toNat_sized granted
  have fresh := judged.fresh init started
  unfold TableGathered
  rcases sized_cases env granted with ⟨positive, room⟩ | ⟨rfl, room⟩
  · constructor
    · rintro ⟨chunks, zs, extracts⟩
      obtain ⟨whole, gathers, accepts⟩ := gathers_of_extracts judged extracts fresh
      rw [bytes] at gathers
      exact .inr ⟨positive, whole, gathers, accepts⟩
    · rintro (rfl | ⟨-, whole, gathers, accepts⟩)
      · exact ⟨[], init, .done⟩
      · rw [← bytes] at gathers
        exact extracts_of_gathers judged room gathers whole accepts
  · constructor
    · rintro ⟨chunks, zs, extracts⟩
      rcases (terminates_zero_iff judged room fresh).mp ⟨chunks, _, extracts⟩ with none_ | failed
      · exact .inl none_
      · cases extracts with
        | done => exact .inl rfl
        | piece more answer read feeds rest => exact absurd (failed.symm.trans answer) nofun
    · rintro (rfl | ⟨positive, -⟩)
      · exact ⟨[], init, .done⟩
      · exact absurd positive (by decide)

/-- The header can be read, and the bytes it announces are there and are not refused. -/
def Extractable (Refuses : σ → List UInt8 → Prop) (zlib : Zlib σ) (env : TocEnv) (size : Int32) (h file : List UInt8) :
    Prop :=
  ∃ reads io second init, headerReads env h file = some (reads, io) ∧ reads.second = some second ∧
    zlib.inflateInit = some init ∧
    TableGathered Refuses env size file init (field (reads.header h) 8 8) io.offset

/-- A call that returns, returns a name exactly if this is so. -/
theorem named_iff (judged : zlib.Judged Ended Refuses pending) {fuel : ℕ} {name : Option Text} {after : Io}
    (ran : pkgTocExtractSized zlib env size h file fuel = some (name, after)) :
    name.isSome ↔ Extractable Refuses zlib env size h file := by
  have returns := returns_of_ran judged.stream.output_le ran
  generalize after.out = out at returns
  cases returns with
  | early early =>
    refine iff_of_false nofun ?_
    rintro ⟨reads, io, second, init, some_, read, -⟩
    exact absurd ((early reads io some_).symm.trans read) nofun
  | unstarted some_ read inside granted refused =>
    refine iff_of_false nofun ?_
    rintro ⟨-, -, -, init, -, -, started, -⟩
    exact absurd (refused.symm.trans started) nofun
  | @looped reads io second init tmp chunks last some_ read inside granted made started extracts =>
    rw [Option.isSome_map]
    constructor
    · intro named
      obtain ⟨zs, rfl⟩ := Option.isSome_iff_exists.mp named
      exact ⟨reads, io, second, init, some_, read, started,
        (tableGathered_iff judged granted started _ _).mp ⟨chunks, zs, extracts⟩⟩
    · rintro ⟨reads', io', second', init', same, -, started', gathered⟩
      cases some_.symm.trans same
      cases started.symm.trans started'
      obtain ⟨chunks', zs, extracts'⟩ := (tableGathered_iff judged granted started _ _).mpr gathered
      rw [extracts.deterministic extracts']
      rfl

/-- A stream inside the table is what the turns write, if `write` takes it. -/
theorem written_iff (streams : zlib.Streams Decodes Ended) (started : zlib.inflateInit = some init) {length offset : ℕ}
    {chunks : List (List UInt8)} {zs : σ} {output : List UInt8}
    (extracts : Extracts zlib (env.sized size) file length init 2 offset chunks (some zs))
    (contains : StreamDecoder.Contains Decodes init ((file.drop offset).take length) output) :
    written env 0 chunks = output ↔ TakesAll env.write 0 chunks := by
  have whole := flatten_of_extracts streams extracts contains (by
    rintro rfl
    obtain ⟨stream, trailing, split, decodes⟩ := contains
    rw [List.take_zero] at split
    obtain ⟨rfl, -⟩ := List.append_eq_nil_iff.mp split.symm
    exact (streams.header init output started decodes).elim)
  rw [← whole, written_eq_flatten_iff]

/-- Once the header is in memory. -/
theorem onlyWhole_of_started (judged : zlib.Judged Ended Refuses pending) (streams : zlib.Streams Decodes Ended)
    (granted : 0 ≤ size) (some_ : headerReads env h file = some (reads, io)) (read : reads.second = some second)
    (inside : 8 + second.length ≤ sizeofXarHeader) (started : zlib.inflateInit = some init) :
    (∀ fuel tmp io', pkgTocExtractSized zlib env size h file fuel = some (some tmp, io') →
      WholeToc Decodes init reads file io'.out) ↔
      (TableGathered Refuses env size file init (field (reads.header h) 8 8) io.offset →
        WholeInput zlib Decodes env size init reads file) := by
  rw [succeeds_iff judged.stream.output_le granted some_ read inside started fun out => WholeToc Decodes init reads file out,
    ← tableGathered_iff judged granted started]
  constructor
  · rintro only ⟨chunks, zs, extracts⟩
    have whole := only chunks zs extracts
    obtain ⟨offset, length⟩ := whole.header.place some_
    rw [offset, length] at only
    refine ⟨whole.header, ⟨_, whole.stream, whole.length⟩, ?_⟩
    intro chunks' zs' extracts'
    have whole' := only chunks' zs' extracts'
    exact (written_iff streams started extracts' whole'.stream).mp rfl
  · intro input chunks zs extracts
    obtain ⟨header, ⟨output, contains, announced⟩, writes⟩ := input ⟨chunks, zs, extracts⟩
    obtain ⟨offset, length⟩ := header.place some_
    rw [offset, length] at extracts
    have out := (written_iff streams started extracts contains).mpr (writes chunks zs extracts)
    rw [out]
    exact ⟨header, contains, announced⟩

/-- A call that does not get to its loops returns no name. -/
theorem onlyWhole_of_early (early : ∀ reads io, headerReads env h file = some (reads, io) → reads.second = none) :
    OnlyWhole zlib Decodes env size h file := by
  constructor
  · intro reads io second some_ read
    exact absurd ((early reads io some_).symm.trans read) nofun
  · intro fuel tmp io ran
    obtain ⟨io', -, failed⟩ := pkgTocExtractSized_early zlib size early
    rw [failed] at ran
    cases ran

/-- The promise, once the header is in memory, is about the loops. -/
theorem onlyWhole_of_read (judged : zlib.Judged Ended Refuses pending) (streams : zlib.Streams Decodes Ended)
    (some_ : headerReads env h file = some (reads, io)) (read : reads.second = some second) :
    OnlyWhole zlib Decodes env size h file ↔
      8 + second.length ≤ sizeofXarHeader ∧ (0 ≤ size → ∀ init, zlib.inflateInit = some init →
        TableGathered Refuses env size file init (field (reads.header h) 8 8) io.offset →
          WholeInput zlib Decodes env size init reads file) := by
  constructor
  · rintro ⟨stays, only⟩
    have inside := stays reads io second some_ read
    refine ⟨inside, ?_⟩
    intro granted init started
    apply (onlyWhole_of_started judged streams granted some_ read inside started).mp
    intro fuel tmp io' ran
    obtain ⟨reads', place, init', same, started', whole⟩ := only fuel tmp io' ran
    cases some_.symm.trans same
    cases started.symm.trans started'
    exact whole
  · rintro ⟨inside, only⟩
    constructor
    · intro reads' io' second' same read'
      cases some_.symm.trans same
      cases read.symm.trans read'
      exact inside
    · intro fuel tmp io' ran
      -- a name is returned after the loops only
      obtain ⟨reads', place, second', init, same, -, started, -⟩ := (named_iff judged ran).mp rfl
      cases some_.symm.trans same
      have granted : 0 ≤ size := by
        rw [← Int32.not_lt]
        intro negative
        rw [pkgTocExtractSized_of_read some_ read, if_pos negative] at ran
        contradiction
      refine ⟨reads, io, init, some_, started, ?_⟩
      exact (onlyWhole_of_started judged streams granted some_ read inside started).mpr (only granted init started)
        fuel tmp io' ran

end Call

theorem storedZlib_streams (count : ℕ) :
    (storedZlib count).Streams (storedBlock count).Decodes (storedBlock count).Ended where
  stream := (storedBlock count).halts
  header := by
    rintro init output ⟨⟩ ⟨later, -, ends, -⟩
    have position : 0 = count + 11 := of_decide_eq_true ends
    omega

/-- Every `write` takes all. -/
theorem takesAll_willing (call : ℕ) (chunks : List (List UInt8)) : TakesAll willing.write call chunks := by
  induction chunks generalizing call with
  | nil => trivial
  | cons chunk chunks ih => exact ⟨Nat.le_refl _, ih _⟩

/-- The small package with another magic number, and one whose header announces a byte less than its stream has. -/
def wrongMagic : List UInt8 := 0 :: (smallHeader ++ smallToc).tail

def oneByteShort : List UInt8 := smallHeader.take 15 ++ 12 :: (smallHeader.drop 16 ++ smallToc)

theorem headerReads_wrong : ∀ file ∈ [wrongMagic, oneByteShort],
    headerReads willing (List.replicate 28 0) file =
      some (⟨file.take 8, 20, some ((file.drop 8).take 20)⟩, { offset := 28, reads := 2 }) := by
  decide +kernel

/-- A stream of the stored block ends at a fixed position. -/
theorem storedBlock_position {count position : ℕ} {rest output : List UInt8}
    (completes : (storedBlock count).Completes position rest output) : position + rest.length = count + 11 := by
  induction rest generalizing position output with
  | nil => exact of_decide_eq_true completes.1
  | cons byte rest ih =>
    obtain ⟨-, later, -, completes⟩ := completes
    have tail := ih completes
    rw [List.length_cons]
    change position + 1 + rest.length = _ at tail
    omega

end FsPkg.PkgToc
