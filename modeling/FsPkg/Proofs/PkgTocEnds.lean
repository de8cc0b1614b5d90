import FsPkg.Proofs.PkgTocReturns

/-! # When the extraction comes to an end

At the end of the file `read` returns 0, which `pkg_toc_extract` takes for a piece without bytes: it feeds nothing to
`inflate` and reads again. So the loops end only if the file has all the bytes that the header announces, or if a
read fails or `inflate` refuses what there is. With buffers of no size not even the first piece is ever done.
-/

namespace FsPkg.PkgToc

open Machine Pkg

/-- The documented behaviour of zlib: what is refused is a matter of the bytes of the stream, a finite input gives a
finite output, and a new stream has nothing to refuse. -/
structure Zlib.Judged {σ : Type} (zlib : Zlib σ) (Ended : σ → Prop) (Refuses : σ → List UInt8 → Prop)
    (pending : σ → List UInt8 → ℕ) : Prop where
  stream : StreamDecoder.Judged zlib.inflate zlib.Fatal Ended Refuses pending
  fresh : ∀ init, zlib.inflateInit = some init → ¬Refuses init []

/-- `read` returns 0 only at the end of the file. -/
def TocEnv.Reads (env : TocEnv) : Prop :=
  ∀ call limit, env.read call = .upTo limit → 0 < limit

/-! ## The turns -/

section Turns

variable {σ : Type} {zlib : Zlib σ} {Ended : σ → Prop} {Refuses : σ → List UInt8 → Prop} {pending : σ → List UInt8 → ℕ}
variable {env : TocEnv} {file : List UInt8} {left : ℕ} {zs : σ} {reads offset : ℕ}

/-- The turns come to an end. -/
def Terminates (zlib : Zlib σ) (env : TocEnv) (file : List UInt8) (left : ℕ) (zs : σ) (reads offset : ℕ) : Prop :=
  ∃ chunks last, Extracts zlib env file left zs reads offset chunks last

/-- Either this turn is the last, or it reads a piece that is not refused and leaves the rest to the next. -/
theorem terminates_or_turn (judged : zlib.Judged Ended Refuses pending) (positive : 0 < env.zbufsize.toNat) (left : ℕ)
    (zs : σ) (reads offset : ℕ) :
    Terminates zlib env file left zs reads offset ∨ ∃ limit data zs', 0 < left ∧ env.read reads = .upTo limit ∧
      data = (file.drop offset).take (min limit (min env.zbufsize.toNat left)) ∧
      (¬Refuses zs data ∧ ∀ more, Refuses zs (data ++ more) ↔ Refuses zs' more) ∧
      (Terminates zlib env file (left - data.length) zs' (reads + 1) (offset + data.length) →
        Terminates zlib env file left zs reads offset) := by
  rcases Nat.eq_zero_or_pos left with rfl | more
  · exact .inl ⟨[], some zs, .done⟩
  · cases answer : env.read reads with
    | error => exact .inl ⟨[], none, .error more answer⟩
    | upTo limit =>
      obtain ⟨chunks, last, feeds⟩ := judged.stream.feeds_total positive zs
        ((file.drop offset).take (min limit (min env.zbufsize.toNat left)))
      cases last with
      | none => exact .inl ⟨chunks, none, .refused more answer rfl feeds⟩
      | some zs' =>
        refine .inr ⟨limit, _, zs', more, rfl, rfl, judged.stream.carries_of_feeds feeds, ?_⟩
        rintro ⟨later, last, rest⟩
        exact ⟨chunks ++ later, last, .piece more answer rfl feeds rest⟩

/-- What follows a piece in the file. -/
theorem piece_append (file : List UInt8) (offset count : ℕ) {data : List UInt8}
    (read : data = (file.drop offset).take count) :
    data ++ file.drop (offset + data.length) = file.drop offset := by
  rw [← List.drop_drop, read]
  rcases Nat.le_total count (file.drop offset).length with short | long
  · rw [List.length_take_of_le short, List.take_append_drop]
  · rw [List.take_of_length_le long, List.drop_length, List.append_nil]

theorem terminates_of_error (judged : zlib.Judged Ended Refuses pending) (positive : 0 < env.zbufsize.toNat) {call : ℕ}
    (later : reads ≤ call) (failed : env.read call = .error) : Terminates zlib env file left zs reads offset := by
  -- every turn makes one more read
  induction distance : call - reads generalizing left zs reads offset with
  | zero =>
    obtain rfl : reads = call := by omega
    rcases terminates_or_turn judged positive left zs reads offset with ends | ⟨limit, _, _, -, answer, -⟩
    · exact ends
    · rw [failed] at answer
      contradiction
  | succ distance ih =>
    rcases terminates_or_turn judged positive left zs reads offset with ends | ⟨_, data, zs', -, -, -, -, turn⟩
    · exact ends
    · exact turn (ih (by omega) (by omega))

theorem terminates_of_whole (judged : zlib.Judged Ended Refuses pending) (reading : env.Reads)
    (positive : 0 < env.zbufsize.toNat) (whole : left ≤ file.length - offset) :
    Terminates zlib env file left zs reads offset := by
  -- every turn reads at least one byte of the table
  induction size : left using Nat.strongRecOn generalizing left zs reads offset with
  | ind count ih =>
    rcases terminates_or_turn judged positive left zs reads offset with
      ends | ⟨limit, data, zs', more, answer, read, -, turn⟩
    · rw [← size]
      exact ends
    · have some_ := reading _ _ answer
      have length : data.length = min (min limit (min env.zbufsize.toNat left)) (file.length - offset) := by
        rw [read, List.length_take, List.length_drop]
      rw [← size]
      exact turn (ih (left - data.length) (by omega) (by omega) rfl)

theorem terminates_of_refuses (judged : zlib.Judged Ended Refuses pending) (reading : env.Reads)
    (positive : 0 < env.zbufsize.toNat) (refuses : Refuses zs (file.drop offset)) :
    Terminates zlib env file left zs reads offset := by
  -- every turn reads at least one byte of the file, or there is none and nothing else to be refused
  induction size : file.length - offset using Nat.strongRecOn generalizing left zs reads offset with
  | ind count ih =>
    rcases terminates_or_turn judged positive left zs reads offset with
      ends | ⟨limit, data, zs', more, answer, read, ⟨accepts, carries⟩, turn⟩
    · exact ends
    · have some_ := reading _ _ answer
      have length : data.length = min (min limit (min env.zbufsize.toNat left)) (file.length - offset) := by
        rw [read, List.length_take, List.length_drop]
      rw [← piece_append file offset _ read] at refuses
      rcases Nat.eq_zero_or_pos (file.length - offset) with none_ | more
      · have nothing : file.drop (offset + data.length) = [] := List.drop_eq_nil_of_le (by omega)
        rw [nothing, List.append_nil] at refuses
        exact (accepts refuses).elim
      · exact turn (ih _ (by omega) ((carries _).mp refuses) rfl)

/-- The turns end exactly if a read fails, the file has what is left of the table, or what it has is refused. -/
theorem terminates_iff (judged : zlib.Judged Ended Refuses pending) (reading : env.Reads)
    (positive : 0 < env.zbufsize.toNat) :
    Terminates zlib env file left zs reads offset ↔
      (∃ call, reads ≤ call ∧ env.read call = .error) ∨ left ≤ file.length - offset ∨
        Refuses zs (file.drop offset) := by
  constructor
  · rintro ⟨chunks, last, extracts⟩
    induction extracts with
    | done => exact .inr (.inl (Nat.zero_le _))
    | error more answer => exact .inl ⟨_, Nat.le_refl _, answer⟩
    | refused more answer read feeds =>
      refine .inr (.inr ?_)
      rw [← piece_append _ _ _ read]
      exact judged.stream.append _ _ _ (judged.stream.refuses_of_feeds feeds)
    | @piece left zs zs' reads offset limit data chunks later last more answer read feeds rest ih =>
      have length : data.length ≤ file.length - offset := by
        rw [read, List.length_take, List.length_drop]
        omega
      have short := length_piece_le read
      rcases ih with ⟨call, after, failed⟩ | whole | refuses
      · exact .inl ⟨call, by omega, failed⟩
      · exact .inr (.inl (by omega))
      · refine .inr (.inr ?_)
        rw [← piece_append _ _ _ read]
        exact ((judged.stream.carries_of_feeds feeds).2 _).mpr refuses
  · rintro (⟨call, later, failed⟩ | whole | refuses)
    · exact terminates_of_error judged positive later failed
    · exact terminates_of_whole judged reading positive whole
    · exact terminates_of_refuses judged reading positive refuses

/-- Without room in the buffers, no piece is ever done. -/
theorem terminates_zero_iff (judged : zlib.Judged Ended Refuses pending) (zero : env.zbufsize.toNat = 0)
    (accepts : ¬Refuses zs []) :
    Terminates zlib env file left zs reads offset ↔ left = 0 ∨ env.read reads = .error := by
  have stuck {limit : ℕ} {data : List UInt8} {chunks : List (List UInt8)} {last : Option σ}
      (read : data = (file.drop offset).take (min limit (min env.zbufsize.toNat left)))
      (feeds : StreamDecoder.Feeds zlib.inflate zlib.Fatal env.zbufsize.toNat zs data chunks last) : False := by
    rw [zero, Nat.zero_min, Nat.min_zero, List.take_zero] at read
    rw [zero, read] at feeds
    exact judged.stream.not_feeds accepts feeds
  constructor
  · rintro ⟨chunks, last, extracts⟩
    cases extracts with
    | done => exact .inl rfl
    | error more answer => exact .inr answer
    | refused more answer read feeds => exact (stuck read feeds).elim
    | piece more answer read feeds rest => exact (stuck read feeds).elim
  · rintro (rfl | failed)
    · exact ⟨[], some zs, .done⟩
    · rcases Nat.eq_zero_or_pos left with rfl | more
      · exact ⟨[], some zs, .done⟩
      · exact ⟨[], none, .error more failed⟩

end Turns

/-! ## The call -/

section Call

variable {σ : Type} {zlib : Zlib σ} {env : TocEnv} {size : Int32} {h file second : List UInt8} {reads : HeaderReads}
variable {io : Io} {init : σ}

/-- `pkg_toc_extract` returns. -/
def Ends (zlib : Zlib σ) (env : TocEnv) (size : Int32) (h file : List UInt8) : Prop :=
  ∃ fuel result, pkgTocExtractSized zlib env size h file fuel = some result

/-- The announced length is 0; or the buffers have no size and the first read fails; or they have one, and a read fails,
the file goes on for the announced length, or what it has is refused. -/
def LoopsEnd (Refuses : σ → List UInt8 → Prop) (env : TocEnv) (size : Int32) (file : List UInt8) (init : σ)
    (length offset : ℕ) : Prop :=
  length = 0 ∨ (size = 0 ∧ env.read 2 = .error) ∨
    (0 < size ∧ ((∃ call, 2 ≤ call ∧ env.read call = .error) ∨ length ≤ file.length - offset ∨
      Refuses init (file.drop offset)))

variable {Ended : σ → Prop} {Refuses : σ → List UInt8 → Prop} {pending : σ → List UInt8 → ℕ}

/-- The turns end under this condition, whatever the size. -/
theorem terminates_sized_iff (judged : zlib.Judged Ended Refuses pending) (reading : env.Reads) (granted : 0 ≤ size)
    (started : zlib.inflateInit = some init) (length offset : ℕ) :
    Terminates zlib (env.sized size) file length init 2 offset ↔
      LoopsEnd Refuses env size file init length offset := by
  have reading : (env.sized size).Reads := reading
  unfold LoopsEnd
  rcases sized_cases env granted with ⟨positive, room⟩ | ⟨rfl, room⟩
  · rw [terminates_iff judged reading room]
    constructor
    · exact fun ends => .inr (.inr ⟨positive, ends⟩)
    · rintro (rfl | ⟨rfl, -⟩ | ⟨-, ends⟩)
      · exact .inr (.inl (Nat.zero_le _))
      · exact absurd positive (by decide)
      · exact ends
  · rw [terminates_zero_iff judged room (judged.fresh init started)]
    constructor
    · rintro (rfl | failed)
      · exact .inl rfl
      · exact .inr (.inl ⟨rfl, failed⟩)
    · rintro (rfl | ⟨-, failed⟩ | ⟨positive, -⟩)
      · exact .inl rfl
      · exact .inr failed
      · exact absurd positive (by decide)

/-- Once the header is in memory, the call returns exactly if its loops end. -/
theorem ends_of_read (judged : zlib.Judged Ended Refuses pending) (reading : env.Reads)
    (some_ : headerReads env h file = some (reads, io)) (read : reads.second = some second) :
    Ends zlib env size h file ↔ 8 + second.length ≤ sizeofXarHeader ∧ 0 ≤ size ∧
      ∀ init, zlib.inflateInit = some init →
        LoopsEnd Refuses env size file init (field (reads.header h) 8 8) io.offset := by
  have fits : zlib.Fits := judged.stream.output_le
  constructor
  · rintro ⟨fuel, ⟨name, after⟩, ran⟩
    have returns := returns_of_ran fits ran
    generalize after.out = out at returns
    cases returns with
    | early early => exact absurd ((early reads io some_).symm.trans read) nofun
    | unstarted same read' inside granted refused =>
      cases some_.symm.trans same
      cases read.symm.trans read'
      refine ⟨inside, granted, ?_⟩
      intro init started
      exact absurd (refused.symm.trans started) nofun
    | looped same read' inside granted made started extracts =>
      cases some_.symm.trans same
      cases read.symm.trans read'
      refine ⟨inside, granted, ?_⟩
      intro init started'
      cases started.symm.trans started'
      exact (terminates_sized_iff judged reading granted started _ _).mp ⟨_, _, extracts⟩
  · rintro ⟨inside, granted, loops⟩
    cases started : zlib.inflateInit with
    | none =>
      obtain ⟨fuel, after, ran, -⟩ := ran_of_returns fits (.unstarted some_ read inside granted started)
      exact ⟨fuel, _, ran⟩
    | some init =>
      obtain ⟨tmp, -, -, made, -⟩ := headerReads_eq_some some_
      obtain ⟨chunks, last, extracts⟩ :=
        (terminates_sized_iff judged reading granted started _ _).mpr (loops init started)
      obtain ⟨fuel, after, ran, -⟩ := ran_of_returns fits (.looped some_ read inside granted made started extracts)
      exact ⟨fuel, _, ran⟩

/-- For every file, every size and every answer of the system, `pkg_toc_extract` returns exactly if it does so before
its loops, or its header stays inside, the buffers can be had and the loops end. -/
theorem pkgTocExtract_ends_iff (judged : zlib.Judged Ended Refuses pending) (reading : env.Reads) (size : Int32)
    (h file : List UInt8) :
    Ends zlib env size h file ↔
      ∀ reads io second, headerReads env h file = some (reads, io) → reads.second = some second →
        8 + second.length ≤ sizeofXarHeader ∧ 0 ≤ size ∧ ∀ init, zlib.inflateInit = some init →
          LoopsEnd Refuses env size file init (field (reads.header h) 8 8) io.offset := by
  constructor
  · intro ends reads io second some_ read
    exact (ends_of_read judged reading some_ read).mp ends
  · intro condition
    rcases early_or_read env h file with early | ⟨reads, io, second, some_, read⟩
    · obtain ⟨io, -, returned⟩ := pkgTocExtractSized_early zlib size early
      exact ⟨0, _, returned 0⟩
    · exact (ends_of_read judged reading some_ read).mpr (condition reads io second some_ read)

end Call

theorem storedZlib_judged (count : ℕ) : (storedZlib count).Judged (storedBlock count).Ended (fun _ _ => False)
    (fun s input => s.2.length + 1 * input.length) where
  stream := by
    have never : (storedZlib count).Fatal = fun _ _ _ => False := by
      funext s input room
      simp only [Zlib.Fatal, storedZlib]
      split
      · simp [InflateCode.fatal]
      · split <;> simp [InflateCode.fatal]
    rw [never]
    apply ItemMachine.judged
    intro position byte
    simp only [storedBlock]
    split <;> simp
  fresh := fun _ _ => id

/-- A package with the table of contents `ab`: its header, and the table as one stored block. -/
def smallHeader : List UInt8 :=
  [0x78, 0x61, 0x72, 0x21, 0, 28, 0, 1, 0, 0, 0, 0, 0, 0, 0, 13, 0, 0, 0, 0, 0, 0, 0, 2, 0, 0, 0, 1]

def smallToc : List UInt8 := [0x78, 1, 1, 2, 0, 0xFD, 0xFF, 0x61, 0x62, 1, 0x26, 0, 0xC4]

theorem willing_reads : willing.Reads := by
  intro call limit answer
  cases answer
  decide

/-- The header of the small package is read in full, whether or not the table follows it. -/
theorem headerReads_small : ∀ file ∈ [smallHeader, smallHeader ++ smallToc],
    headerReads willing (List.replicate 28 0) file =
      some (⟨smallHeader.take 8, 20, some (smallHeader.drop 8)⟩, { offset := 28, reads := 2 }) := by
  decide +kernel

theorem pkgTocExtract_ends_small :
    Ends (storedZlib 2) willing 1310720 (List.replicate 28 0) (smallHeader ++ smallToc) := by
  apply (pkgTocExtract_ends_iff (storedZlib_judged 2) willing_reads _ _ _).mpr
  intro reads io second some_ read
  cases (headerReads_small (smallHeader ++ smallToc) (by simp)).symm.trans some_
  cases read
  refine ⟨by decide, by decide, ?_⟩
  intro init _
  exact .inr (.inr ⟨by decide, .inr (.inl (by decide))⟩)

/-- A package that is cut off after its header keeps the daemon busy for ever, and so do buffers without a size. -/
theorem pkgTocExtract_ends_not :
    ¬Ends (storedZlib 2) willing 1310720 (List.replicate 28 0) smallHeader ∧
      ¬Ends (storedZlib 2) willing 0 (List.replicate 28 0) (smallHeader ++ smallToc) := by
  constructor
  · rw [ends_of_read (storedZlib_judged 2) willing_reads (headerReads_small smallHeader (by simp)) rfl]
    rintro ⟨-, -, loops⟩
    rcases loops _ rfl with none_ | ⟨zero, -⟩ | ⟨-, ⟨_, -, failed⟩ | whole | refuses⟩
    · exact absurd none_ (by decide)
    · exact absurd zero (by decide)
    · cases failed
    · exact absurd whole (by decide)
    · exact refuses
  · rw [ends_of_read (storedZlib_judged 2) willing_reads (headerReads_small (smallHeader ++ smallToc) (by simp)) rfl]
    rintro ⟨-, -, loops⟩
    rcases loops _ rfl with none_ | ⟨-, failed⟩ | ⟨positive, -⟩
    · exact absurd none_ (by decide)
    · cases failed
    · exact absurd positive (by decide)

end FsPkg.PkgToc
