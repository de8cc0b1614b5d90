import Mathlib.Algebra.Group.Nat.Defs
import FsPkg.Machine.StreamFeeding
import FsPkg.Model.PkgToc

/-! # The loops of the extraction

What `pkg_toc_extract` does after the header, without fuel and without machine integers: every turn of the outer loop
reads a piece and feeds it to `inflate`, until the announced number of bytes was read, a read fails or a call refuses.
With enough fuel the loops do exactly this, and they end with some fuel only if this ends.
-/

namespace FsPkg.PkgToc

open Machine Pkg

/-! ## Machine integers -/

theorem viaInt_eq {size : UInt64} (bounded : size.toNat < 2 ^ 31) : viaInt size = size.toNat := by
  have wide : size.toInt64.toInt = size.toNat := by
    apply BitVec.toInt_eq_toNat_of_lt
    rw [UInt64.toBitVec_toInt64, UInt64.toNat_toBitVec]
    omega
  have narrow : size.toInt64.toInt32.toInt64.toInt = size.toNat := by
    rw [Int32.toInt_toInt64, Int64.toInt_toInt32, wide]
    exact Int.bmod_eq_of_le (by omega) (by omega)
  have positive : 0 ≤ size.toInt64.toInt32.toInt64 := by
    rw [Int64.le_iff_toInt_le, narrow]
    exact Int.natCast_nonneg _
  rw [viaInt, Int64.toNat_toUInt64_of_le positive, Int64.toNatClampNeg, narrow, Int.toNat_natCast]

section Room

variable {size : UInt64} {count : ℕ}

/-- The room that `inflate` leaves. -/
theorem availOut_toNat (bounded : size.toNat < 2 ^ 31) (fits : count ≤ size.toNat) :
    (size.toUInt32 - UInt32.ofNat count).toNat = size.toNat - count := by
  have whole : size.toUInt32.toNat = size.toNat := by
    rw [UInt64.toNat_toUInt32]
    omega
  have part : (UInt32.ofNat count).toNat = count := by
    rw [UInt32.toNat_ofNat']
    omega
  rw [UInt32.toNat_sub_of_le _ _ (UInt32.le_iff_toNat_le.mpr (by omega)), whole, part]

theorem availOut_eq_zero (bounded : size.toNat < 2 ^ 31) (fits : count ≤ size.toNat) :
    size.toUInt32 - UInt32.ofNat count = 0 ↔ count = size.toNat := by
  rw [← UInt32.toNat_inj, availOut_toNat bounded fits, UInt32.toNat_zero]
  omega

/-- The length that is written is that of the output. -/
theorem viaInt_written (bounded : size.toNat < 2 ^ 31) (fits : count ≤ size.toNat) :
    viaInt (size - (size.toUInt32 - UInt32.ofNat count).toUInt64) = count := by
  have left : (size.toUInt32 - UInt32.ofNat count).toUInt64.toNat = size.toNat - count := by
    rw [UInt32.toNat_toUInt64, availOut_toNat bounded fits]
  have written : (size - (size.toUInt32 - UInt32.ofNat count).toUInt64).toNat = count := by
    rw [UInt64.toNat_sub_of_le _ _ (UInt64.le_iff_toNat_le.mpr (by omega)), left]
    omega
  rw [viaInt_eq (by omega), written]

/-- What a turn of the outer loop asks for: at least a byte, and no more than is left. -/
theorem requested_bounds {left : UInt64} (positive : 1 ≤ size.toNat) (bounded : size.toNat < 2 ^ 31)
    (some_ : 1 ≤ left.toNat) :
    1 ≤ (if left < size then left else size).toNat ∧ (if left < size then left else size).toNat ≤ left.toNat ∧
      (if left < size then left else size).toNat < 2 ^ 31 := by
  split
  · next short =>
    rw [UInt64.lt_iff_toNat_lt] at short
    omega
  · next long =>
    rw [UInt64.lt_iff_toNat_lt] at long
    omega

/-- Counting the bytes of a piece does not wrap. -/
theorem count_piece {sread total : UInt64} {piece : ℕ} (inside : sread.toNat + piece ≤ total.toNat) :
    (sread + UInt64.ofNat piece).toNat = sread.toNat + piece := by
  have bound := UInt64.toNat_lt total
  rw [UInt64.toNat_add, UInt64.toNat_ofNat', Nat.mod_eq_of_lt (a := piece) (by omega)]
  omega

end Room

/-! ## The inner loop -/

/-- The codes that end the extraction. -/
def InflateCode.fatal : InflateCode → Bool
  | .needDict | .dataError | .memError => true
  | _ => false

def Zlib.Fatal {σ : Type} (zlib : Zlib σ) (zs : σ) (input : List UInt8) (room : ℕ) : Prop :=
  (zlib.code zs input room).fatal = true

/-- `inflate` puts out no more than it has room for. -/
def Zlib.Fits {σ : Type} (zlib : Zlib σ) : Prop :=
  ∀ zs input room, (zlib.inflate zs input room).output.length ≤ room

section Inner

variable {σ : Type} {zlib : Zlib σ} {env : TocEnv} {zs : σ} {input : List UInt8}

theorem inflateLoop_fatal (bounded : env.zbufsize.toNat < 2 ^ 31) (fatal : zlib.Fatal zs input env.zbufsize.toNat)
    (fuel : ℕ) (bufuncomp : List UInt8) (io : Io) :
    inflateLoop zlib env (fuel + 1) zs input bufuncomp io = some (none, io) := by
  have room : env.zbufsize.toUInt32.toNat = env.zbufsize.toNat := by
    rw [UInt64.toNat_toUInt32]
    omega
  unfold Zlib.Fatal at fatal
  simp only [inflateLoop, room]
  cases code : zlib.code zs input env.zbufsize.toNat <;> rw [code] at fatal <;> first | rfl | contradiction

/-- One turn of the inner loop that is not refused. -/
theorem inflateLoop_turn (fits : zlib.Fits) (bounded : env.zbufsize.toNat < 2 ^ 31)
    (accepted : ¬zlib.Fatal zs input env.zbufsize.toNat) (fuel : ℕ) (bufuncomp : List UInt8) (io : Io) :
    let step := zlib.inflate zs input env.zbufsize.toNat
    let bufuncomp' := step.output ++ bufuncomp.drop step.output.length
    inflateLoop zlib env (fuel + 1) zs input bufuncomp io =
      if step.output.length = env.zbufsize.toNat then
        inflateLoop zlib env fuel step.state (input.drop step.used) bufuncomp' (writeFile env step.output io)
      else some (some (step.state, bufuncomp'), writeFile env step.output io) := by
  intro step bufuncomp'
  have room : env.zbufsize.toUInt32.toNat = env.zbufsize.toNat := by
    rw [UInt64.toNat_toUInt32]
    omega
  have short : step.output.length ≤ env.zbufsize.toNat := fits zs input _
  have taken : bufuncomp'.take step.output.length = step.output := List.take_left
  unfold Zlib.Fatal at accepted
  rw [inflateLoop]
  simp only [room]
  rw [viaInt_written bounded short, taken]
  cases code : zlib.code zs input env.zbufsize.toNat <;> rw [code] at accepted <;>
    first | exact if_congr (availOut_eq_zero bounded short) rfl rfl | exact absurd rfl accepted

/-- What the output file gets of these chunks, the first of them in the given call of `write`. -/
def written (env : TocEnv) : ℕ → List (List UInt8) → List UInt8
  | _, [] => []
  | call, chunk :: chunks => chunk.take (env.write call chunk.length) ++ written env (call + 1) chunks

theorem written_append (env : TocEnv) (call : ℕ) (chunks later : List (List UInt8)) :
    written env call (chunks ++ later) = written env call chunks ++ written env (call + chunks.length) later := by
  induction chunks generalizing call with
  | nil => rfl
  | cons chunk chunks ih =>
    rw [List.cons_append, written, written, ih, List.append_assoc, List.length_cons, Nat.add_right_comm, Nat.add_assoc]

/-- The state after these chunks were written. -/
def Io.wrote (io : Io) (env : TocEnv) (chunks : List (List UInt8)) : Io :=
  { io with writes := io.writes + chunks.length, out := io.out ++ written env io.writes chunks }

theorem wrote_nil (io : Io) : io.wrote env [] = io := by
  simp [Io.wrote, written]

theorem wrote_cons (io : Io) (chunk : List UInt8) (chunks : List (List UInt8)) :
    io.wrote env (chunk :: chunks) = (writeFile env chunk io).wrote env chunks := by
  simp [Io.wrote, writeFile, written, Nat.add_comm, Nat.add_left_comm]

/-- The inner loop feeds its piece to `inflate` and writes what that puts out. -/
theorem inflateLoop_sound (fits : zlib.Fits) (bounded : env.zbufsize.toNat < 2 ^ 31) (fuel : ℕ)
    {bufuncomp : List UInt8} {io io' : Io} {result : Option (σ × List UInt8)}
    (ran : inflateLoop zlib env fuel zs input bufuncomp io = some (result, io')) :
    ∃ chunks, StreamDecoder.Feeds zlib.inflate zlib.Fatal env.zbufsize.toNat zs input chunks (result.map Prod.fst) ∧
      io' = io.wrote env chunks := by
  induction fuel generalizing zs input bufuncomp io with
  | zero => contradiction
  | succ fuel ih =>
    by_cases fatal : zlib.Fatal zs input env.zbufsize.toNat
    · rw [inflateLoop_fatal bounded fatal] at ran
      cases ran
      exact ⟨[], .fatal fatal, (wrote_nil _).symm⟩
    · rw [inflateLoop_turn fits bounded fatal] at ran
      split at ran
      · next full =>
        obtain ⟨chunks, rest, wrote⟩ := ih ran
        refine ⟨_, .full fatal full rest, ?_⟩
        rw [wrote, wrote_cons]
      · next spare =>
        cases ran
        refine ⟨_, .spare fatal spare, ?_⟩
        rw [wrote_cons, wrote_nil]

/-- With more fuel than there are chunks it comes to its end. -/
theorem inflateLoop_complete (fits : zlib.Fits) (bounded : env.zbufsize.toNat < 2 ^ 31) {chunks : List (List UInt8)}
    {last : Option σ}
    (feeds : StreamDecoder.Feeds zlib.inflate zlib.Fatal env.zbufsize.toNat zs input chunks last) (fuel : ℕ)
    (enough : chunks.length < fuel) (bufuncomp : List UInt8) (io : Io) :
    ∃ result, inflateLoop zlib env fuel zs input bufuncomp io = some (result, io.wrote env chunks) ∧
      result.map Prod.fst = last := by
  induction feeds generalizing fuel bufuncomp io with
  | fatal refused =>
    obtain ⟨fuel, rfl⟩ := Nat.exists_eq_succ_of_ne_zero (by omega : fuel ≠ 0)
    refine ⟨none, ?_, rfl⟩
    rw [inflateLoop_fatal bounded refused, wrote_nil]
  | spare accepted spare =>
    obtain ⟨fuel, rfl⟩ := Nat.exists_eq_succ_of_ne_zero (by omega : fuel ≠ 0)
    rw [inflateLoop_turn fits bounded accepted, if_neg spare, wrote_cons, wrote_nil]
    exact ⟨_, rfl, rfl⟩
  | full accepted full rest ih =>
    obtain ⟨fuel, rfl⟩ := Nat.exists_eq_succ_of_ne_zero (by omega : fuel ≠ 0)
    rw [List.length_cons] at enough
    rw [inflateLoop_turn fits bounded accepted, if_pos full, wrote_cons]
    exact ih fuel (by omega) _ _

end Inner

/-! ## The outer loop -/

/-- The turns of the outer loop while `left` bytes of the table are to be read: the chunks that are written, and the last
state, or `none` if a read fails or a piece is refused. -/
inductive Extracts {σ : Type} (zlib : Zlib σ) (env : TocEnv) (file : List UInt8) :
    ℕ → σ → ℕ → ℕ → List (List UInt8) → Option σ → Prop
  | done {zs : σ} {reads offset : ℕ} : Extracts zlib env file 0 zs reads offset [] (some zs)
  | error {left : ℕ} {zs : σ} {reads offset : ℕ} (more : 0 < left) (answer : env.read reads = .error) :
      Extracts zlib env file left zs reads offset [] none
  | refused {left : ℕ} {zs : σ} {reads offset limit : ℕ} {data : List UInt8} {chunks : List (List UInt8)}
      (more : 0 < left) (answer : env.read reads = .upTo limit)
      (read : data = (file.drop offset).take (min limit (min env.zbufsize.toNat left)))
      (feeds : StreamDecoder.Feeds zlib.inflate zlib.Fatal env.zbufsize.toNat zs data chunks none) :
      Extracts zlib env file left zs reads offset chunks none
  | piece {left : ℕ} {zs zs' : σ} {reads offset limit : ℕ} {data : List UInt8} {chunks later : List (List UInt8)}
      {last : Option σ} (more : 0 < left) (answer : env.read reads = .upTo limit)
      (read : data = (file.drop offset).take (min limit (min env.zbufsize.toNat left)))
      (feeds : StreamDecoder.Feeds zlib.inflate zlib.Fatal env.zbufsize.toNat zs data chunks (some zs'))
      (rest : Extracts zlib env file (left - data.length) zs' (reads + 1) (offset + data.length) later last) :
      Extracts zlib env file left zs reads offset (chunks ++ later) last

/-- The turns go in one way only. -/
theorem Extracts.deterministic {σ : Type} {zlib : Zlib σ} {env : TocEnv} {file : List UInt8} {left : ℕ} {zs : σ}
    {reads offset : ℕ} {chunks chunks' : List (List UInt8)} {last last' : Option σ}
    (one : Extracts zlib env file left zs reads offset chunks last)
    (other : Extracts zlib env file left zs reads offset chunks' last') : last = last' := by
  induction one generalizing chunks' with
  | done =>
    cases other with
    | done => rfl
    | error more => exact absurd more (Nat.lt_irrefl 0)
    | refused more => exact absurd more (Nat.lt_irrefl 0)
    | piece more => exact absurd more (Nat.lt_irrefl 0)
  | error more answer =>
    cases other with
    | done => exact absurd more (Nat.lt_irrefl 0)
    | error => rfl
    | refused _ answer' => exact absurd (answer.symm.trans answer') nofun
    | piece _ answer' => exact absurd (answer.symm.trans answer') nofun
  | refused more answer read feeds =>
    cases other with
    | done => exact absurd more (Nat.lt_irrefl 0)
    | error _ answer' => exact absurd (answer.symm.trans answer') nofun
    | refused => rfl
    | piece _ answer' read' feeds' =>
      cases answer.symm.trans answer'
      cases read.trans read'.symm
      exact absurd (feeds.deterministic feeds').2 nofun
  | piece more answer read feeds rest ih =>
    cases other with
    | done => exact absurd more (Nat.lt_irrefl 0)
    | error _ answer' => exact absurd (answer.symm.trans answer') nofun
    | refused _ answer' read' feeds' =>
      cases answer.symm.trans answer'
      cases read.trans read'.symm
      exact absurd (feeds.deterministic feeds').2 nofun
    | piece _ answer' read' feeds' rest' =>
      cases answer.symm.trans answer'
      cases read.trans read'.symm
      cases (feeds.deterministic feeds').2
      exact ih rest'

section Outer

variable {σ : Type} {zlib : Zlib σ} {env : TocEnv} {file : List UInt8} {total sread : UInt64} {left : ℕ} {zs : σ}

/-- Nothing is left to be read. -/
theorem tocLoop_done (counted : sread.toNat + left = total.toNat) (none_ : left = 0) (fuel : ℕ) (bufuncomp : List UInt8)
    (io : Io) : tocLoop zlib env file total (fuel + 1) sread zs bufuncomp io = some (some zs, io) := by
  rw [tocLoop, if_neg]
  rw [UInt64.lt_iff_toNat_lt]
  omega

/-- What a turn asks for, in bytes. -/
theorem requested_eq (bounded : env.zbufsize.toNat < 2 ^ 31) (counted : sread.toNat + left = total.toNat) :
    viaInt (if total - sread < env.zbufsize then total - sread else env.zbufsize) = min env.zbufsize.toNat left := by
  have ahead : (total - sread).toNat = left := by
    rw [UInt64.toNat_sub_of_le _ _ (UInt64.le_iff_toNat_le.mpr (by omega))]
    omega
  split
  · next short =>
    rw [UInt64.lt_iff_toNat_lt] at short
    rw [viaInt_eq (by omega), ahead]
    omega
  · next long =>
    rw [UInt64.lt_iff_toNat_lt] at long
    rw [viaInt_eq bounded]
    omega

/-- A turn whose read fails. -/
theorem tocLoop_error (counted : sread.toNat + left = total.toNat) (more : 0 < left) (fuel : ℕ) (bufuncomp : List UInt8)
    {io : Io} (answer : env.read io.reads = .error) :
    tocLoop zlib env file total (fuel + 1) sread zs bufuncomp io = some (none, { io with reads := io.reads + 1 }) := by
  rw [tocLoop, if_pos (by rw [UInt64.lt_iff_toNat_lt]; omega)]
  simp only [readFile, answer]

/-- A turn that reads a piece. -/
theorem tocLoop_piece (bounded : env.zbufsize.toNat < 2 ^ 31) (counted : sread.toNat + left = total.toNat)
    (more : 0 < left) (fuel : ℕ) (bufuncomp : List UInt8) {io : Io} {limit : ℕ} {data : List UInt8}
    (answer : env.read io.reads = .upTo limit)
    (read : data = (file.drop io.offset).take (min limit (min env.zbufsize.toNat left))) :
    tocLoop zlib env file total (fuel + 1) sread zs bufuncomp io =
      (inflateLoop zlib env fuel zs data bufuncomp
        { io with reads := io.reads + 1, offset := io.offset + data.length }).bind fun result =>
          result.1.elim (some (none, result.2)) fun next =>
            tocLoop zlib env file total fuel (sread + UInt64.ofNat data.length) next.1 next.2 result.2 := by
  rw [tocLoop, if_pos (by rw [UInt64.lt_iff_toNat_lt]; omega)]
  simp only [requested_eq bounded counted, readFile, answer, ← read]
  apply congrArg (Option.bind _)
  funext result
  obtain ⟨next, io⟩ := result
  cases next <;> rfl

/-- A piece is not longer than what is left. -/
theorem length_piece_le {limit offset : ℕ} {data : List UInt8}
    (read : data = (file.drop offset).take (min limit (min env.zbufsize.toNat left))) : data.length ≤ left := by
  rw [read, List.length_take]
  omega

/-- What the outer loop does is a sequence of turns. -/
theorem tocLoop_sound (fits : zlib.Fits) (bounded : env.zbufsize.toNat < 2 ^ 31) (fuel : ℕ)
    (counted : sread.toNat + left = total.toNat) {bufuncomp : List UInt8} {io io' : Io} {last : Option σ}
    (ran : tocLoop zlib env file total fuel sread zs bufuncomp io = some (last, io')) :
    ∃ chunks, Extracts zlib env file left zs io.reads io.offset chunks last ∧
      io'.out = io.out ++ written env io.writes chunks := by
  induction fuel generalizing sread left zs bufuncomp io with
  | zero => contradiction
  | succ fuel ih =>
    rcases Nat.eq_zero_or_pos left with none_ | more
    · rw [tocLoop_done counted none_] at ran
      cases ran
      rw [none_]
      exact ⟨[], .done, (List.append_nil _).symm⟩
    · cases answer : env.read io.reads with
      | error =>
        rw [tocLoop_error counted more fuel bufuncomp answer] at ran
        cases ran
        exact ⟨[], .error more answer, (List.append_nil _).symm⟩
      | upTo limit =>
        obtain ⟨data, read⟩ : ∃ data, data = (file.drop io.offset).take (min limit (min env.zbufsize.toNat left)) :=
          ⟨_, rfl⟩
        rw [tocLoop_piece bounded counted more fuel bufuncomp answer read] at ran
        obtain ⟨⟨next, io₁⟩, inner, ran⟩ := Option.bind_eq_some_iff.mp ran
        obtain ⟨chunks, feeds, rfl⟩ := inflateLoop_sound fits bounded fuel inner
        cases next with
        | none =>
          cases ran
          exact ⟨chunks, .refused more answer read feeds, rfl⟩
        | some next =>
          have short := length_piece_le read
          have counted' : (sread + UInt64.ofNat data.length).toNat + (left - data.length) = total.toNat := by
            rw [count_piece (show sread.toNat + data.length ≤ total.toNat by omega)]
            omega
          obtain ⟨later, rest, out⟩ := ih counted' ran
          refine ⟨chunks ++ later, .piece more answer read feeds rest, ?_⟩
          rw [out, written_append, ← List.append_assoc]
          rfl

/-- With enough fuel the turns are what the outer loop does. -/
theorem tocLoop_complete (fits : zlib.Fits) (bounded : env.zbufsize.toNat < 2 ^ 31) (total : UInt64)
    {reads offset : ℕ} {chunks : List (List UInt8)} {last : Option σ}
    (extracts : Extracts zlib env file left zs reads offset chunks last) :
    ∃ enough, ∀ fuel, enough ≤ fuel → ∀ (sread : UInt64) (bufuncomp : List UInt8) (io : Io),
      sread.toNat + left = total.toNat → io.reads = reads → io.offset = offset →
      ∃ io', tocLoop zlib env file total fuel sread zs bufuncomp io = some (last, io') ∧
        io'.out = io.out ++ written env io.writes chunks := by
  induction extracts with
  | done =>
    refine ⟨1, ?_⟩
    intro fuel enough sread bufuncomp io counted _ _
    obtain ⟨fuel, rfl⟩ := Nat.exists_eq_succ_of_ne_zero (by omega : fuel ≠ 0)
    exact ⟨io, tocLoop_done counted rfl fuel bufuncomp io, (List.append_nil _).symm⟩
  | error more answer =>
    refine ⟨1, ?_⟩
    intro fuel enough sread bufuncomp io counted reads _
    obtain ⟨fuel, rfl⟩ := Nat.exists_eq_succ_of_ne_zero (by omega : fuel ≠ 0)
    rw [← reads] at answer
    exact ⟨_, tocLoop_error counted more fuel bufuncomp answer, (List.append_nil _).symm⟩
  | @refused _ _ _ _ _ _ chunks more answer read feeds =>
    refine ⟨chunks.length + 2, ?_⟩
    intro fuel enough sread bufuncomp io counted reads offset
    obtain ⟨fuel, rfl⟩ := Nat.exists_eq_succ_of_ne_zero (by omega : fuel ≠ 0)
    rw [← reads] at answer
    rw [← offset] at read
    rw [tocLoop_piece bounded counted more fuel bufuncomp answer read]
    obtain ⟨result, inner, none_⟩ := inflateLoop_complete fits bounded feeds fuel (by omega) bufuncomp
      { io with reads := io.reads + 1, offset := io.offset + _ }
    rw [inner, Option.map_eq_none_iff.mp none_]
    exact ⟨_, rfl, rfl⟩
  | @piece left zs zs' reads offset limit data chunks later last more answer read feeds rest ih =>
    obtain ⟨needed, ih⟩ := ih
    refine ⟨max needed (chunks.length + 1) + 1, ?_⟩
    intro fuel enough sread bufuncomp io counted atRead atOffset
    obtain ⟨fuel, rfl⟩ := Nat.exists_eq_succ_of_ne_zero (by omega : fuel ≠ 0)
    rw [← atRead] at answer
    rw [← atOffset] at read
    rw [tocLoop_piece bounded counted more fuel bufuncomp answer read]
    obtain ⟨result, inner, some_⟩ := inflateLoop_complete fits bounded feeds fuel (by omega) bufuncomp
      { io with reads := io.reads + 1, offset := io.offset + data.length }
    obtain ⟨⟨zs₁, bufuncomp'⟩, rfl, rfl⟩ := Option.map_eq_some_iff.mp some_
    have short := length_piece_le read
    have counted' : (sread + UInt64.ofNat data.length).toNat + (left - data.length) = total.toNat := by
      rw [count_piece (show sread.toNat + data.length ≤ total.toNat by omega)]
      omega
    obtain ⟨io', run, out⟩ := ih fuel (by omega) (sread + UInt64.ofNat data.length) bufuncomp'
      (({ io with reads := io.reads + 1, offset := io.offset + data.length } : Io).wrote env chunks) counted'
      (by rw [← atRead]; rfl) (by rw [← atOffset]; rfl)
    rw [inner]
    refine ⟨io', run, ?_⟩
    rw [out, written_append, ← List.append_assoc]
    rfl

end Outer

end FsPkg.PkgToc
