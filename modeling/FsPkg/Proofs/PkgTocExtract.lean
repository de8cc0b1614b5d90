import FsPkg.Proofs.PkgTocLoops

/-! # The table of contents does not depend on the buffers

`pkg_toc_extract` cuts its input where `read` and the buffer size say, and its output where the buffer is full. What
carries both loops is the account of the streaming decoder: what was written, and what the stream still has to give,
make up the decompressed table. The inner loop ends with spare room, so all of its piece was used; after the last piece
nothing is left to come.
-/

namespace FsPkg.PkgToc

open Machine Pkg

/-! ## What the code relies on -/

/-- The documented behaviour of zlib. `Decodes s rest output` reads: on the stream `s`, the bytes `rest` complete the
zlib stream and `output` is what they still give. Such bytes are never refused, and no stream is empty, as each starts
with a header. -/
structure Zlib.Lawful {σ : Type} (zlib : Zlib σ) (Decodes : σ → List UInt8 → List UInt8 → Prop)
    (Ended : σ → Prop) : Prop where
  stream : StreamDecoder.Lawful zlib.inflate Decodes Ended
  accepted : ∀ s input more output room, Decodes s (input ++ more) output →
    zlib.code s input room ≠ .needDict ∧ zlib.code s input room ≠ .dataError ∧ zlib.code s input room ≠ .memError
  header : ∀ init output, zlib.inflateInit = some init → ¬ Decodes init [] output

/-- The two reads of the header are answered in full, those of the table in pieces of any size, and `write` takes
everything. -/
structure TocEnv.Serves (env : TocEnv) (tmp : Text) : Prop where
  opens : env.open_ = true
  makes : env.mkstemp = some tmp
  header : ∃ limit, env.read 0 = .upTo limit ∧ 8 ≤ limit
  lengths : ∃ limit, env.read 1 = .upTo limit ∧ 20 ≤ limit
  pieces : ∀ call, 2 ≤ call → ∃ limit, env.read call = .upTo limit ∧ 1 ≤ limit
  writes : ∀ call count, count ≤ env.write call count

/-! ## The inner loop -/

section Loops

variable {σ : Type} {zlib : Zlib σ} {Decodes : σ → List UInt8 → List UInt8 → Prop} {Ended : σ → Prop}
variable {env : TocEnv} {tmp : Text}

private theorem writeFile_all (serves : env.Serves tmp) (bytes : List UInt8) (io : Io) :
    writeFile env bytes io = { io with writes := io.writes + 1, out := io.out ++ bytes } := by
  rw [writeFile, List.take_of_length_le (serves.writes _ _)]

/-- A stream that is in order is not refused. -/
private theorem accepted_of_decodes (lawful : zlib.Lawful Decodes Ended) {zs : σ} {input more output : List UInt8}
    (decodes : Decodes zs (input ++ more) output) (room : ℕ) : ¬zlib.Fatal zs input room := by
  obtain ⟨noDict, noData, noMem⟩ := lawful.accepted zs input more output room decodes
  intro fatal
  unfold Zlib.Fatal at fatal
  cases code : zlib.code zs input room with
  | needDict => exact noDict code
  | dataError => exact noData code
  | memError => exact noMem code
  | _ =>
    rw [code] at fatal
    contradiction

/-- The inner loop uses the piece it is given up, and writes what the piece gives. -/
theorem inflateLoop_spec (lawful : zlib.Lawful Decodes Ended) (serves : env.Serves tmp)
    (positive : 1 ≤ env.zbufsize.toNat) (bounded : env.zbufsize.toNat < 2 ^ 31) (fuel : ℕ) {zs : σ}
    {input more output : List UInt8} (bufuncomp : List UInt8) (io : Io) (decodes : Decodes zs (input ++ more) output)
    (enough : output.length < fuel) : ∃ zs' bufuncomp' io' written rest,
      inflateLoop zlib env fuel zs input bufuncomp io = some (some (zs', bufuncomp'), io') ∧
      io'.out = io.out ++ written ∧ io'.offset = io.offset ∧ io'.reads = io.reads ∧
      output = written ++ rest ∧ Decodes zs' more rest ∧ (more = [] → rest = []) := by
  -- Each turn but the last fills the buffer, which holds at least one byte, so the output still to come gets shorter.
  induction fuel generalizing zs input output bufuncomp io with
  | zero => omega
  | succ fuel ih =>
    obtain ⟨rest, whole, after, spare⟩ := lawful.stream.call decodes env.zbufsize.toNat
    rw [inflateLoop_turn lawful.stream.output_le bounded (accepted_of_decodes lawful decodes _), writeFile_all serves]
    split
    · next full =>
      have shorter : rest.length < fuel := by
        have lengths := congrArg List.length whole
        rw [List.length_append] at lengths
        omega
      obtain ⟨zs', bufuncomp', io', written, left, run, out, offset, reads, split, decodes', last⟩ :=
        ih _ _ after shorter
      refine ⟨zs', bufuncomp', io', (zlib.inflate zs input env.zbufsize.toNat).output ++ written, left, run, ?_, offset,
        reads, ?_, decodes', last⟩
      · rw [out, List.append_assoc]
      · rw [whole, split, List.append_assoc]
    · next room =>
      obtain ⟨used, last⟩ := spare room
      rw [used] at after
      exact ⟨_, _, _, _, rest, rfl, rfl, rfl, rfl, whole, after, last⟩

/-! ## The outer loop -/

/-- A read that does not reach the end of what lies ahead. -/
private theorem readFile_upTo {file ahead behind : List UInt8} {count limit : ℕ} {io : Io}
    (answer : env.read io.reads = .upTo limit) (at_ : file.drop io.offset = ahead ++ behind)
    (inside : count ≤ ahead.length) :
    readFile env file count io = (some (ahead.take (min limit count)),
      { io with reads := io.reads + 1, offset := io.offset + min limit count }) := by
  have piece : (file.drop io.offset).take (min limit count) = ahead.take (min limit count) := by
    rw [at_, List.take_append_of_le_length (by omega)]
  have length : (ahead.take (min limit count)).length = min limit count := List.length_take_of_le (by omega)
  simp only [readFile, answer, piece, length]

/-- The outer loop reads what is left of the table, whatever the pieces, and writes what the table still gives. -/
theorem tocLoop_spec (lawful : zlib.Lawful Decodes Ended) (serves : env.Serves tmp)
    (positive : 1 ≤ env.zbufsize.toNat) (bounded : env.zbufsize.toNat < 2 ^ 31) {file heap : List UInt8}
    {tocLengthCompressed : UInt64} (fuel : ℕ) {sread : UInt64} {zs : σ} {rest output : List UInt8}
    (bufuncomp : List UInt8) (io : Io) (at_ : file.drop io.offset = rest ++ heap)
    (left : sread.toNat + rest.length = tocLengthCompressed.toNat) (decodes : Decodes zs rest output)
    (last : rest = [] → output = []) (later : 2 ≤ io.reads) (enough : rest.length + output.length < fuel) :
    ∃ zs' io', tocLoop zlib env file tocLengthCompressed fuel sread zs bufuncomp io = some (some zs', io') ∧
      io'.out = io.out ++ output ∧ io'.offset = io.offset + rest.length := by
  -- Each turn reads at least one byte, so what is left of the table gets shorter.
  induction fuel generalizing sread zs rest output bufuncomp io with
  | zero => omega
  | succ fuel ih =>
    rw [tocLoop]
    split
    · next more =>
      rw [UInt64.lt_iff_toNat_lt] at more
      have ahead : (tocLengthCompressed - sread).toNat = rest.length := by
        rw [UInt64.toNat_sub_of_le _ _ (UInt64.le_iff_toNat_le.mpr (by omega))]
        omega
      obtain ⟨sz, size⟩ : ∃ sz, sz = if tocLengthCompressed - sread < env.zbufsize then
        tocLengthCompressed - sread else env.zbufsize := ⟨_, rfl⟩
      have count : 1 ≤ sz.toNat ∧ sz.toNat ≤ rest.length ∧ sz.toNat < 2 ^ 31 := by
        rw [size, ← ahead]
        exact requested_bounds positive bounded (by omega)
      obtain ⟨limit, answer, some_⟩ := serves.pieces io.reads later
      have read := readFile_upTo answer at_ count.2.1
      obtain ⟨piece, whole⟩ : ∃ piece, piece = min limit sz.toNat := ⟨_, rfl⟩
      rw [← whole] at read
      have length : (rest.take piece).length = piece := List.length_take_of_le (by omega)
      have remaining : (rest.drop piece).length = rest.length - piece := List.length_drop
      rw [← List.take_append_drop piece rest] at decodes
      obtain ⟨zs', bufuncomp', io', written, output', run, out, offset, reads, parts, decodes', last'⟩ :=
        inflateLoop_spec lawful serves positive bounded fuel bufuncomp
          { io with reads := io.reads + 1, offset := io.offset + piece } decodes (by omega)
      dsimp only at offset reads
      have lengths := congrArg List.length parts
      rw [List.length_append] at lengths
      have at' : file.drop io'.offset = rest.drop piece ++ heap := by
        rw [offset, ← List.drop_drop, at_, List.drop_append_of_le_length (by omega)]
      have left' : (sread + UInt64.ofNat piece).toNat + (rest.drop piece).length = tocLengthCompressed.toNat := by
        rw [count_piece (show sread.toNat + piece ≤ tocLengthCompressed.toNat by omega)]
        omega
      obtain ⟨zs'', io'', run', out', offset'⟩ :=
        ih bufuncomp' io' at' left' decodes' last' (by omega) (by omega)
      refine ⟨zs'', io'', ?_, ?_, ?_⟩
      · simp only [← size, viaInt_eq count.2.2, read, length, run, Option.bind_eq_bind, Option.bind_some, run']
      · rw [out', out, parts, List.append_assoc]
      · rw [offset', offset, remaining]
        omega
    · next done =>
      rw [UInt64.lt_iff_toNat_lt] at done
      obtain rfl : rest = [] := List.eq_nil_of_length_eq_zero (by omega)
      rw [last rfl]
      exact ⟨zs, io, rfl, (List.append_nil _).symm, rfl⟩

end Loops

/-! ## The header -/

private theorem foldl_bytes_lt (bytes : List UInt8) (high : ℕ) :
    bytes.foldl (fun n byte => n * 256 + byte.toNat) high < (high + 1) * 256 ^ bytes.length := by
  induction bytes generalizing high with
  | nil => simp
  | cons byte bytes ih =>
    have small := UInt8.toNat_lt byte
    calc (byte :: bytes).foldl (fun n byte => n * 256 + byte.toNat) high
        < (high * 256 + byte.toNat + 1) * 256 ^ bytes.length := ih _
      _ ≤ ((high + 1) * 256) * 256 ^ bytes.length := Nat.mul_le_mul_right _ (by omega)
      _ = (high + 1) * 256 ^ (byte :: bytes).length := by
        rw [List.length_cons, Nat.pow_succ, Nat.mul_assoc, Nat.mul_comm 256]

/-- A field of `size` bytes is a number of `size` bytes. -/
theorem field_lt (memory : List UInt8) (position size : ℕ) : field memory position size < 256 ^ size := by
  have bound := foldl_bytes_lt ((memory.drop position).take size) 0
  rw [Nat.zero_add, Nat.one_mul] at bound
  exact Nat.lt_of_lt_of_le bound (Nat.pow_le_pow_right (by omega) (List.length_take_le ..))

/-- The field of a part is the field of the whole. -/
theorem field_append {part : List UInt8} {position size : ℕ} (inside : position + size ≤ part.length)
    (rest : List UInt8) : field (part ++ rest) position size = field part position size := by
  rw [field, field, List.drop_append_of_le_length (by omega),
    List.take_append_of_le_length (by rw [List.length_drop]; omega)]

/-- The header in memory after its two reads. -/
private theorem store_store {h header : List UInt8} (memory : h.length = sizeofXarHeader)
    (complete : header.length = sizeofXarHeader) :
    store (store h 0 (header.take 8)) 8 (header.drop 8) = header := by
  have first : (header.take 8).length = 8 := by
    rw [List.length_take, complete]
    rfl
  have second : 8 + (header.drop 8).length = 28 := by
    rw [List.length_drop, complete]
    rfl
  have none_ : (header.take 8 ++ h.drop 8).drop 28 = [] := by
    apply List.drop_eq_nil_of_le
    rw [List.length_append, first, List.length_drop, memory]
    decide
  simp only [store, List.take_zero, List.nil_append, first, Nat.zero_add]
  rw [second, none_, List.append_nil, List.take_append_of_le_length (Nat.le_of_eq first.symm),
    List.take_of_length_le (Nat.le_of_eq first), List.take_append_drop]

/-! ## The extraction -/

section Extraction

variable {σ : Type} {zlib : Zlib σ} {Decodes : σ → List UInt8 → List UInt8 → Prop} {Ended : σ → Prop}
variable {env : TocEnv} {tmp : Text} {h header toc heap output : List UInt8} {init : σ}

/-- The two reads of a complete header bring the extraction to its outer loop. -/
private theorem pkgTocExtract_header (serves : env.Serves tmp) (started : zlib.inflateInit = some init)
    (memory : h.length = sizeofXarHeader) (complete : header.length = sizeofXarHeader)
    (size : field header 4 2 = sizeofXarHeader) (length : field header 8 8 = toc.length) (fuel : ℕ) :
    pkgTocExtract zlib env h (header ++ toc ++ heap) fuel =
      (tocLoop zlib env (header ++ toc ++ heap) (UInt64.ofNat toc.length) fuel 0 init
        (List.replicate env.zbufsize.toNat 0) { offset := 28, reads := 2 }).bind
          fun result => some (result.1.map fun _ => tmp, result.2) := by
  obtain ⟨limit, answer, full⟩ := serves.header
  obtain ⟨limit', answer', full'⟩ := serves.lengths
  rw [sizeofXarHeader] at complete size
  have taken : (header.take 8).length = 8 := List.length_take_of_le (by omega)
  have dropped : (header.drop 8).length = 20 := by rw [List.length_drop, complete]
  have first : readFile env (header ++ toc ++ heap) 8 {} = (some (header.take 8), { offset := 8, reads := 1 }) := by
    have start : (header ++ toc ++ heap).drop 0 = header ++ (toc ++ heap) := List.append_assoc ..
    rw [readFile_upTo answer start (by omega), Nat.min_eq_right full]
  have second : readFile env (header ++ toc ++ heap) 20 { offset := 8, reads := 1 } =
      (some (header.drop 8), { offset := 28, reads := 2 }) := by
    have after : (header ++ toc ++ heap).drop 8 = header.drop 8 ++ (toc ++ heap) := by
      rw [List.append_assoc, List.drop_append_of_le_length (by omega)]
    rw [readFile_upTo answer' after (by omega), Nat.min_eq_right full', List.take_of_length_le (by omega)]
  have count : (((field (store h 0 (header.take 8)) 4 2 : ℤ) - 8) % 2 ^ 64).toNat = 20 := by
    rw [store, List.take_zero, List.nil_append, field_append (by omega),
      ← field_append (by omega) (header.drop 8), List.take_append_drop, size]
    rfl
  have whole := store_store memory complete
  simp only [pkgTocExtract, serves.opens, serves.makes, first, count, second, started, dropped, whole, length]
  rw [if_neg (by decide), if_neg (by decide)]
  apply congrArg (Option.bind _)
  funext result
  obtain ⟨stream, io⟩ := result
  cases stream <;> rfl

/-- The table of contents is written out as it was before it was compressed, for every size of the buffers and however
the reads split it, and no byte after it is read. Each turn of a loop takes a byte of the table or gives one. -/
theorem pkg_toc_extract_decompresses (lawful : zlib.Lawful Decodes Ended) (serves : env.Serves tmp)
    (started : zlib.inflateInit = some init) (positive : 1 ≤ env.zbufsize.toNat)
    (bounded : env.zbufsize.toNat ≤ 2 ^ 31 - 1) (memory : h.length = sizeofXarHeader)
    (complete : header.length = sizeofXarHeader) (size : field header 4 2 = sizeofXarHeader)
    (length : field header 8 8 = toc.length) (stream : Decodes init toc output) (fuel : ℕ)
    (enough : toc.length + output.length < fuel) :
    ∃ io, pkgTocExtract zlib env h (header ++ toc ++ heap) fuel = some (some tmp, io) ∧
      io.out = output ∧ io.offset = sizeofXarHeader + toc.length := by
  have fits : (UInt64.ofNat toc.length).toNat = toc.length := by
    have bound := field_lt header 8 8
    rw [UInt64.toNat_ofNat', ← length]
    exact Nat.mod_eq_of_lt bound
  have ahead : (header ++ toc ++ heap).drop 28 = toc ++ heap := by
    rw [List.append_assoc]
    exact List.drop_left' complete
  have nonempty : toc = [] → output = [] := by
    rintro rfl
    exact (lawful.header init output started stream).elim
  have left : (0 : UInt64).toNat + toc.length = (UInt64.ofNat toc.length).toNat := by
    rw [fits]
    exact Nat.zero_add _
  obtain ⟨zs, io, run, out, offset⟩ := tocLoop_spec lawful serves positive (by omega) fuel
    (List.replicate env.zbufsize.toNat 0) { offset := 28, reads := 2 } ahead left stream nonempty (Nat.le_refl 2) enough
  refine ⟨io, ?_, out, offset⟩
  rw [pkgTocExtract_header serves started memory complete size length, run]
  rfl

end Extraction

/-- Streams of one stored block of `count` bytes: a header of two bytes, five more before the block, and a checksum of
four after it. The state is the position. -/
def storedBlock (count : ℕ) : ItemMachine ℕ UInt8 UInt8 where
  next := fun position _ => position + 1
  emit := fun position byte => if 7 ≤ position ∧ position < 7 + count then [byte] else []
  final := fun position => decide (position = count + 11)

/-- What zlib does with such a stream. -/
def storedZlib (count : ℕ) : Zlib (ItemMachine.Queued ℕ UInt8) where
  inflateInit := some (0, [])
  code := fun s input room =>
    let step := (storedBlock count).decoder s input room
    if step.state = (count + 11, []) then .streamEnd
    else if step.used = 0 ∧ step.output = [] then .bufError else .ok
  inflate := (storedBlock count).decoder

private theorem storedZlib_lawful (count : ℕ) :
    (storedZlib count).Lawful (storedBlock count).Decodes (storedBlock count).Ended where
  stream := (storedBlock count).lawful
  accepted := by
    intro s input more output room _
    simp only [storedZlib]
    split
    · simp
    · split <;> simp
  header := by
    rintro init output ⟨⟩ ⟨later, -, ends, -⟩
    have position : 0 = count + 11 := of_decide_eq_true ends
    omega

/-- A package whose table of contents is `ab`, read three bytes at a time into buffers of one byte. -/
private def smallEnv : TocEnv where
  zbufsize := 1
  open_ := true
  mkstemp := some ['t']
  read := fun call => if call < 2 then .upTo 20 else .upTo 3
  write := fun _ count => count

private theorem smallEnv_serves : smallEnv.Serves ['t'] where
  opens := rfl
  makes := rfl
  header := ⟨20, rfl, by decide⟩
  lengths := ⟨20, rfl, by decide⟩
  pieces := fun call later => ⟨3, if_neg (by omega), by decide⟩
  writes := fun _ _ => Nat.le_refl _

theorem pkg_toc_extract_decompresses_small : ∃ io,
    pkgTocExtract (storedZlib 2) smallEnv (List.replicate 28 0)
      ([0x78, 0x61, 0x72, 0x21, 0, 28, 0, 1, 0, 0, 0, 0, 0, 0, 0, 13, 0, 0, 0, 0, 0, 0, 0, 2, 0, 0, 0, 1] ++
        [0x78, 1, 1, 2, 0, 0xFD, 0xFF, 0x61, 0x62, 1, 0x26, 0, 0xC4] ++ [0xFF]) 16 = some (some ['t'], io) ∧
      io.out = [0x61, 0x62] ∧ io.offset = 41 :=
  pkg_toc_extract_decompresses (storedZlib_lawful 2) smallEnv_serves rfl (by decide) (by decide) rfl rfl rfl rfl
    ⟨[0x61, 0x62], rfl, by simp [ItemMachine.Completes, storedBlock]⟩ 16 (by decide)

end FsPkg.PkgToc
