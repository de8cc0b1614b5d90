import FsPkg.Model.XarB64

/-! # What `raw_base64_decode` reads and writes

On any text it stops at the end of the text and writes no more than `xar_from_base64` allocates. On an encoding, with
characters in between that it ignores, it writes the bytes back, and after a last group of one byte a zero; only there
does the text it gives end where the bytes do.
-/

namespace FsPkg.Xar

open Pkg (Text)

/-! ## Within the bounds -/

namespace B64

/-- The characters that count, so far. -/
def counted (s : B64) : ℕ := s.i - s.ignr

theorem counted_eq (s : B64) : s.i + 1 - s.ignr - 1 = s.counted := by
  unfold counted
  omega

/-- Before each round: no more than three bytes are written for every four characters that count, and after a first
padding character another one follows. -/
structure Bounded (s : B64) (rest : Text) : Prop where
  ignored : s.ignr ≤ s.i
  output : s.output.length ≤ s.counted / 4 * 3
  pad : s.pad = 2 → rest.head? = some '='
  small : s.pad ≤ 2

theorem length_write (s : B64) : s.write.output.length ≤ s.output.length + (3 - s.pad) := by
  rw [write, List.length_append]
  exact Nat.add_le_add_left (List.length_take_le _ _) _

theorem digit_fields (s : B64) (k x : ℕ) :
    (s.digit k x).i = s.i ∧ (s.digit k x).ignr = s.ignr ∧ (s.digit k x).pad = s.pad := by
  match k with
  | 0 | 1 | 2 => exact ⟨rfl, rfl, rfl⟩
  | _ + 3 => exact ⟨rfl, rfl, rfl⟩

theorem length_digit (s : B64) {k : ℕ} (group : k < 4) (x : ℕ) :
    (s.digit k x).output.length ≤ s.output.length + if k = 3 then 3 else 0 := by
  match k, group with
  | 0, _ | 1, _ | 2, _ => exact Nat.le_refl _
  | 3, _ => exact Nat.le_trans (length_write _) (Nat.add_le_add_left (Nat.sub_le _ _) _)

/-- A character that counts keeps the bounds, if what it writes is no more than three bytes at the end of four. -/
theorem Bounded.count {s t : B64} {rest later : Text} (bounded : s.Bounded rest) (i : t.i = s.i + 1)
    (ignr : t.ignr = s.ignr) (output : t.output.length ≤ s.output.length + if s.counted % 4 = 3 then 3 else 0)
    (pad : t.pad = 2 → later.head? = some '=') (small : t.pad ≤ 2) : t.Bounded later := by
  have before := bounded.output
  have ignored := bounded.ignored
  refine ⟨by omega, ?_, pad, small⟩
  unfold counted at *
  rw [i, ignr]
  split_ifs at output <;> omega

end B64

section Rounds

variable {len : ℕ} {s : B64} (more : s.more len = true) {c : Char} (rest : Text)
include more

theorem rawBase64Decode_ignored (ignored : b64revtb c = -1) :
    rawBase64Decode len s (c :: rest) = rawBase64Decode len { s with i := s.i + 1, ignr := s.ignr + 1 } rest := by
  rw [rawBase64Decode]
  simp [more, ignored]

theorem rawBase64Decode_digit (value : 0 ≤ b64revtb c) :
    rawBase64Decode len s (c :: rest) =
      rawBase64Decode len ({ s with i := s.i + 1 }.digit ((s.i + 1 - s.ignr - 1) % 4) (b64revtb c).toNat) rest := by
  rw [rawBase64Decode]
  have nul : b64revtb c ≠ -3 := by omega
  have pad : b64revtb c ≠ -2 := by omega
  have ignored : b64revtb c ≠ -1 := by omega
  simp [more, nul, pad, ignored]

theorem rawBase64Decode_pad_early (early : (s.i + 1 - s.ignr - 1) % 4 < 2) :
    rawBase64Decode len s ('=' :: rest) = some (1, s.output) := by
  rw [rawBase64Decode]
  simp [more, b64revtb, early]

theorem rawBase64Decode_pad_alone (third : (s.i + 1 - s.ignr - 1) % 4 = 2) (other : rest.head? ≠ some '=')
    (bounded : rest ≠ []) : rawBase64Decode len s ('=' :: rest) = some (1, s.output) := by
  cases rest with
  | nil => exact absurd rfl bounded
  | cons next rest =>
    rw [rawBase64Decode]
    have differs : next ≠ '=' := fun same => other (by rw [same]; rfl)
    simp [more, b64revtb, third, differs]

theorem rawBase64Decode_pad_pair (third : (s.i + 1 - s.ignr - 1) % 4 = 2) :
    rawBase64Decode len s ('=' :: '=' :: rest) =
      rawBase64Decode len { s with i := s.i + 1, buf2 := 0, pad := 2 } ('=' :: rest) := by
  rw [rawBase64Decode]
  simp [more, b64revtb, third]

theorem rawBase64Decode_pad_last (fourth : (s.i + 1 - s.ignr - 1) % 4 = 3) :
    rawBase64Decode len s ('=' :: rest) = rawBase64Decode len { s with i := s.i + 1, pad := 1 } rest := by
  rw [rawBase64Decode]
  simp [more, b64revtb, fourth]

end Rounds

theorem b64revtb_cases (c : Char) : c = '\x00' ∨ c = '=' ∨ b64revtb c = -1 ∨ 0 ≤ b64revtb c := by
  unfold b64revtb
  split_ifs <;> simp_all
  all_goals omega

/-- The decoder stops on a text whatever stands behind its end, and writes no more than this. -/
def Stops (len : ℕ) (s : B64) (t : Text) : Prop :=
  ∃ err output, (∀ beyond, rawBase64Decode len s (t ++ '\x00' :: beyond) = some (err, output)) ∧
    err ≤ 1 ∧ output.length ≤ len / 4 * 3 + 2

section Stops

variable {len : ℕ} {s : B64} {t : Text}

theorem Stops.round {c : Char} {next : B64}
    (same : ∀ rest, rawBase64Decode len s (c :: (t ++ rest)) = rawBase64Decode len next (t ++ rest))
    (later : Stops len next t) : Stops len s (c :: t) := by
  obtain ⟨err, output, stops, small⟩ := later
  exact ⟨err, output, fun beyond => (same _).trans (stops beyond), small⟩

theorem Stops.error (fails : ∀ beyond, rawBase64Decode len s (t ++ '\x00' :: beyond) = some (1, s.output))
    (short : s.output.length ≤ len / 4 * 3 + 2) : Stops len s t :=
  ⟨1, s.output, fails, Nat.le_refl _, short⟩

/-- At the end of the text. -/
theorem stops_nil (last : s.i = len) (bounded : s.Bounded []) : Stops len s [] := by
  have short : s.output.length ≤ len / 4 * 3 := by
    have counted : s.counted ≤ len := by unfold B64.counted; omega
    exact Nat.le_trans bounded.output (Nat.mul_le_mul_right 3 (Nat.div_le_div_right counted))
  by_cases padded : s.pad = 0
  · refine ⟨if (s.i + 1 - s.ignr - 1) % 4 = 0 then 0 else 1, s.output, ?_, by split_ifs <;> simp, by omega⟩
    intro beyond
    rw [List.nil_append, rawBase64Decode]
    simp [B64.more, padded, b64revtb]
  · have one : s.pad = 1 := by
      have small := bounded.small
      have : s.pad ≠ 2 := fun two => by cases bounded.pad two
      omega
    refine ⟨0, s.write.output, ?_, by simp, ?_⟩
    · intro beyond
      rw [List.nil_append, rawBase64Decode]
      simp [B64.more, B64.finish, padded, last]
    · have written := s.length_write
      omega

/-- On padding. -/
theorem stops_pad (more : s.more len = true) (bounded : s.Bounded ('=' :: t))
    (short : s.output.length ≤ len / 4 * 3 + 2)
    (later : ∀ next : B64, next.i = s.i + 1 → next.Bounded t → Stops len next t) : Stops len s ('=' :: t) := by
  have ignored := bounded.ignored
  have group : (s.i + 1 - s.ignr - 1) % 4 = s.counted % 4 := by rw [B64.counted_eq]
  obtain early | third | fourth : s.counted % 4 < 2 ∨ s.counted % 4 = 2 ∨ s.counted % 4 = 3 := by omega
  · exact Stops.error (fun _ => rawBase64Decode_pad_early more _ (group ▸ early)) short
  · by_cases pair : t.head? = some '='
    · cases t with
      | nil => cases pair
      | cons d t =>
        obtain rfl := Option.some.inj pair
        apply Stops.round fun rest => rawBase64Decode_pad_pair more _ (group ▸ third)
        apply later _ rfl
        exact bounded.count rfl rfl (Nat.le_add_right _ _) (fun _ => rfl) (Nat.le_refl _)
    · apply Stops.error _ short
      intro beyond
      apply rawBase64Decode_pad_alone more _ (group ▸ third) _ (by simp)
      cases t with
      | nil => simp
      | cons d t => exact pair
  · apply Stops.round fun rest => rawBase64Decode_pad_last more _ (group ▸ fourth)
    apply later _ rfl
    exact bounded.count rfl rfl (Nat.le_add_right _ _) (by simp) (by simp)

/-- On a character that is ignored. -/
theorem B64.Bounded.ignore {c : Char} (bounded : s.Bounded (c :: t)) (ignored : b64revtb c = -1) :
    ({ s with i := s.i + 1, ignr := s.ignr + 1 } : B64).Bounded t := by
  refine ⟨Nat.succ_le_succ bounded.ignored, ?_, ?_, bounded.small⟩
  · have same : ({ s with i := s.i + 1, ignr := s.ignr + 1 } : B64).counted = s.counted := by simp [B64.counted]
    rw [same]
    exact bounded.output
  · intro two
    obtain rfl := Option.some.inj (bounded.pad two)
    cases ignored

/-- On a digit. -/
theorem B64.Bounded.digit {c : Char} (bounded : s.Bounded (c :: t)) (value : 0 ≤ b64revtb c) :
    ({ s with i := s.i + 1 }.digit ((s.i + 1 - s.ignr - 1) % 4) (b64revtb c).toNat).Bounded t := by
  have ignored := bounded.ignored
  have group : (s.i + 1 - s.ignr - 1) % 4 = s.counted % 4 := by rw [B64.counted_eq]
  obtain ⟨i, ignr, pad⟩ := B64.digit_fields { s with i := s.i + 1 } ((s.i + 1 - s.ignr - 1) % 4) (b64revtb c).toNat
  apply bounded.count i ignr
  · rw [← group]
    exact B64.length_digit { s with i := s.i + 1 } (Nat.mod_lt _ (by simp)) _
  · intro two
    rw [pad] at two
    obtain rfl := Option.some.inj (bounded.pad two)
    exact absurd value (by decide)
  · rw [pad]
    exact bounded.small

end Stops

/-- Whatever text is decoded, nothing behind its end is read, and what is written fits into what is allocated. -/
theorem rawBase64Decode_stops (len : ℕ) {t : Text} (clean : '\x00' ∉ t) {s : B64} (place : s.i + t.length = len)
    (bounded : s.Bounded t) : Stops len s t := by
  induction t generalizing s with
  | nil => exact stops_nil place bounded
  | cons c t rest =>
    rw [List.length_cons] at place
    have more : s.more len = true := by simp [B64.more]; omega
    have clean' : '\x00' ∉ t := fun member => clean (List.mem_cons_of_mem _ member)
    have short : s.output.length ≤ len / 4 * 3 + 2 := by
      have written := bounded.output
      have : s.counted ≤ len := by unfold B64.counted; omega
      omega
    obtain rfl | rfl | ignored | value := b64revtb_cases c
    · exact absurd List.mem_cons_self clean
    · exact stops_pad more bounded short fun next place' kept => rest clean' (by omega) kept
    · apply Stops.round fun _ => rawBase64Decode_ignored more _ ignored
      exact rest clean' (by simp; omega) (bounded.ignore ignored)
    · apply Stops.round fun _ => rawBase64Decode_digit more _ value
      apply rest clean' _ (bounded.digit value)
      rw [(B64.digit_fields _ _ _).1]
      simp
      omega

/-! ## Encodings -/

/-- The character that stands for six bits. -/
def b64Char (x : ℕ) : Char :=
  if x < 26 then Char.ofNat (x + 65)
  else if x < 52 then Char.ofNat (x - 26 + 97)
  else if x < 62 then Char.ofNat (x - 52 + 48)
  else if x = 62 then '+' else '/'

theorem b64revtb_b64Char {x : ℕ} (small : x < 64) : b64revtb (b64Char x) = x := by
  revert x
  decide

/-- The groups of six bits, without padding. -/
def b64Digits : List ℕ → List ℕ
  | a :: b :: c :: rest => a / 4 :: (a % 4 * 16 + b / 16) :: (b % 16 * 4 + c / 64) :: c % 64 :: b64Digits rest
  | [a, b] => [a / 4, a % 4 * 16 + b / 16, b % 16 * 4]
  | [a] => [a / 4, a % 4 * 16]
  | [] => []

/-- The padding. -/
def b64Padding (bytes : List ℕ) : Text := List.replicate ((3 - bytes.length % 3) % 3) '='

/-- A text is base64 for bytes, broken into lines or otherwise mixed with characters that are ignored, anywhere but
between two padding characters. -/
def Encodes (bytes : List ℕ) (t : Text) : Prop :=
  ∃ body tail, t = body ++ (b64Padding bytes ++ tail) ∧
    body.filter (b64revtb · ≠ -1) = (b64Digits bytes).map b64Char ∧ ∀ c ∈ tail, b64revtb c = -1

theorem b64Digits_small {bytes : List ℕ} (small : ∀ b ∈ bytes, b < 256) : ∀ x ∈ b64Digits bytes, x < 64 := by
  induction bytes using b64Digits.induct with
  | case1 a b c rest ih =>
    simp only [List.forall_mem_cons] at small
    simp only [b64Digits, List.forall_mem_cons]
    exact ⟨by omega, by omega, by omega, by omega, ih small.2.2.2⟩
  | case2 a b =>
    simp only [List.forall_mem_cons] at small
    simp only [b64Digits, List.forall_mem_cons]
    exact ⟨by omega, by omega, by omega, by simp⟩
  | case3 a =>
    simp only [List.forall_mem_cons] at small
    simp only [b64Digits, List.forall_mem_cons]
    exact ⟨by omega, by omega, by simp⟩
  | case4 => simp [b64Digits]

theorem or_low {high low : ℕ} (k : ℕ) (small : low < 2 ^ k) : high * 2 ^ k ||| low = high * 2 ^ k + low := by
  rw [Nat.mul_comm]
  exact (Nat.two_pow_add_eq_or_of_lt small high).symm

namespace B64

/-- A character without effect. -/
def skip (s : B64) (n : ℕ) : B64 := { s with i := s.i + n, ignr := s.ignr + n }

/-- A round of the loop on a digit, or on a character without effect. -/
def read (s : B64) (c : Char) : B64 :=
  if b64revtb c = -1 then s.skip 1 else { s with i := s.i + 1 }.digit (s.counted % 4) (b64revtb c).toNat

theorem counted_skip (s : B64) (n : ℕ) : (s.skip n).counted = s.counted := Nat.add_sub_add_right _ _ _

theorem skip_skip (s : B64) (m n : ℕ) : (s.skip m).skip n = s.skip (m + n) := by
  simp [skip, Nat.add_assoc]

theorem digit_skip (s : B64) (n k x : ℕ) : (s.skip n).digit k x = (s.digit k x).skip n := by
  match k with
  | 0 | 1 | 2 | _ + 3 => rfl

theorem read_skip (s : B64) (n : ℕ) (c : Char) : (s.skip n).read c = (s.read c).skip n := by
  unfold read
  split_ifs
  · rw [skip_skip, skip_skip, Nat.add_comm]
  · rw [counted_skip, ← digit_skip]
    simp [skip, Nat.add_right_comm]

theorem foldl_read_skip (t : Text) (s : B64) (n : ℕ) : t.foldl read (s.skip n) = (t.foldl read s).skip n := by
  induction t generalizing s with
  | nil => rfl
  | cons c t ih => rw [List.foldl_cons, List.foldl_cons, read_skip, ih]

/-- The characters without effect only move the place. -/
theorem foldl_read_filter (t : Text) (s : B64) :
    ∃ n, t.foldl read s = ((t.filter (b64revtb · ≠ -1)).foldl read s).skip n := by
  induction t generalizing s with
  | nil => exact ⟨0, rfl⟩
  | cons c t ih =>
    obtain ⟨n, same⟩ := ih (s.read c)
    by_cases ignored : b64revtb c = -1
    · refine ⟨n + 1, ?_⟩
      rw [List.filter_cons_of_neg (by simpa using ignored), List.foldl_cons, same, read, if_pos ignored,
        foldl_read_skip, skip_skip, Nat.add_comm]
    · refine ⟨n, ?_⟩
      rw [List.filter_cons_of_pos (by simpa using ignored), List.foldl_cons, List.foldl_cons, same]

theorem read_digit (s : B64) {x : ℕ} (small : x < 64) :
    s.read (b64Char x) = { s with i := s.i + 1 }.digit (s.counted % 4) x := by
  have value := b64revtb_b64Char small
  rw [read, if_neg (by omega), value]
  rfl

section Digits

variable {s : B64} {x : ℕ} (small : x < 64)
include small

theorem read_first (place : s.counted % 4 = 0) :
    s.read (b64Char x) = { s with i := s.i + 1, buf0 := x * 4 % 256 } := by
  rw [read_digit s small, place]
  rfl

theorem read_second (place : s.counted % 4 = 1) :
    s.read (b64Char x) = { s with i := s.i + 1, buf0 := s.buf0 ||| x / 16, buf1 := x * 16 % 256 } := by
  rw [read_digit s small, place]
  rfl

theorem read_third (place : s.counted % 4 = 2) :
    s.read (b64Char x) = { s with i := s.i + 1, buf1 := s.buf1 ||| x / 4, buf2 := x * 64 % 256 } := by
  rw [read_digit s small, place]
  rfl

theorem read_fourth (place : s.counted % 4 = 3) :
    s.read (b64Char x) = { s with i := s.i + 1, buf2 := s.buf2 ||| x }.write := by
  rw [read_digit s small, place]
  rfl

end Digits

section Group

variable {s : B64} (ignored : s.ignr ≤ s.i) (start : s.counted % 4 = 0) {a b c : ℕ}
include ignored start

/-- One byte is in place after two digits. -/
theorem read_one (high : ℕ) (byte : a < 256) (next : high < 16) :
    [b64Char (a / 4), b64Char (a % 4 * 16 + high)].foldl read s =
      { s with i := s.i + 2, buf0 := a, buf1 := high * 16 } := by
  rw [List.foldl_cons, List.foldl_cons, read_first (by omega) start, read_second (by omega) (by
    simp only [counted] at *
    omega)]
  have low : (a % 4 * 16 + high) / 16 = a % 4 := by omega
  have whole : a / 4 * 4 % 256 = a / 4 * 2 ^ 2 := by omega
  have buf0 : a / 4 * 4 % 256 ||| (a % 4 * 16 + high) / 16 = a := by
    rw [low, whole, or_low 2 (by omega)]
    omega
  have buf1 : (a % 4 * 16 + high) * 16 % 256 = high * 16 := by omega
  simp only [List.foldl_nil, buf0, buf1]

/-- Two bytes are in place after three. -/
theorem read_two (high : ℕ) (bytes : a < 256 ∧ b < 256) (next : high < 4) :
    [b64Char (a / 4), b64Char (a % 4 * 16 + b / 16), b64Char (b % 16 * 4 + high)].foldl read s =
      { s with i := s.i + 3, buf0 := a, buf1 := b, buf2 := high * 64 } := by
  have split : [b64Char (a / 4), b64Char (a % 4 * 16 + b / 16), b64Char (b % 16 * 4 + high)] =
      [b64Char (a / 4), b64Char (a % 4 * 16 + b / 16)] ++ [b64Char (b % 16 * 4 + high)] := rfl
  rw [split, List.foldl_append, read_one ignored start _ bytes.1 (by omega), List.foldl_cons, read_third (by omega) (by
    simp only [counted] at *
    omega)]
  have low : (b % 16 * 4 + high) / 4 = b % 16 := by omega
  have buf1 : b / 16 * 16 ||| (b % 16 * 4 + high) / 4 = b := by
    rw [low, show b / 16 * 16 = b / 16 * 2 ^ 4 by rfl, or_low 4 (by omega)]
    omega
  have buf2 : (b % 16 * 4 + high) * 64 % 256 = high * 64 := by omega
  simp only [List.foldl_nil, buf1, buf2]

/-- Three bytes are written after four. -/
theorem read_three (bytes : a < 256 ∧ b < 256 ∧ c < 256) (pad : s.pad = 0) :
    [b64Char (a / 4), b64Char (a % 4 * 16 + b / 16), b64Char (b % 16 * 4 + c / 64), b64Char (c % 64)].foldl read s =
      { s with i := s.i + 4, buf0 := a, buf1 := b, buf2 := c, output := s.output ++ [a, b, c] } := by
  have split : [b64Char (a / 4), b64Char (a % 4 * 16 + b / 16), b64Char (b % 16 * 4 + c / 64), b64Char (c % 64)] =
      [b64Char (a / 4), b64Char (a % 4 * 16 + b / 16), b64Char (b % 16 * 4 + c / 64)] ++ [b64Char (c % 64)] := rfl
  rw [split, List.foldl_append, read_two ignored start _ ⟨bytes.1, bytes.2.1⟩ (by omega), List.foldl_cons,
    read_fourth (by omega) (by
      simp only [counted] at *
      omega)]
  have buf2 : c / 64 * 64 ||| c % 64 = c := by
    rw [show c / 64 * 64 = c / 64 * 2 ^ 6 by rfl, or_low 6 (by omega)]
    omega
  simp only [List.foldl_nil, write, buf2, pad]
  rfl

end Group

/-- What is in place after the digits of an encoding: the bytes of the last group, if it is short, are in the buffer
still, with a zero behind one of them. -/
structure Holds (t s : B64) (bytes : List ℕ) : Prop where
  pad : t.pad = 0
  ignr : t.ignr = s.ignr
  i : t.i = s.i + (b64Digits bytes).length
  whole : t.output ++ [t.buf0, t.buf1].take (bytes.length % 3) = s.output ++ bytes
  zero : bytes.length % 3 = 1 → t.buf1 = 0

/-- The digits of an encoding put its bytes in place. -/
theorem holds_digits {s : B64} {bytes : List ℕ} (small : ∀ b ∈ bytes, b < 256) (ignored : s.ignr ≤ s.i)
    (start : s.counted % 4 = 0) (pad : s.pad = 0) :
    (((b64Digits bytes).map b64Char).foldl read s).Holds s bytes := by
  induction bytes using b64Digits.induct generalizing s with
  | case1 a b c rest ih =>
    simp only [List.forall_mem_cons] at small
    obtain ⟨first, second, third, small⟩ := small
    have group := read_three ignored start ⟨first, second, third⟩ pad
    simp only [List.foldl_cons, List.foldl_nil] at group
    simp only [b64Digits, List.map_cons, List.foldl_cons, group]
    have later := ih (s := { s with i := s.i + 4, buf0 := a, buf1 := b, buf2 := c, output := s.output ++ [a, b, c] })
      small (by simp; omega) (by simp only [counted] at *; omega) pad
    have thirds : (a :: b :: c :: rest).length % 3 = rest.length % 3 := Nat.add_mod_right rest.length 3
    refine ⟨later.pad, later.ignr, ?_, ?_, ?_⟩
    · rw [later.i]
      simp [b64Digits]
      omega
    · rw [thirds, later.whole, List.append_assoc]
      rfl
    · rw [thirds]
      exact later.zero
  | case2 a b =>
    simp only [List.forall_mem_cons] at small
    have group := read_two ignored start 0 ⟨small.1, small.2.1⟩ (by simp)
    simp only [Nat.add_zero] at group
    simp only [b64Digits, List.map_cons, List.map_nil, group]
    refine ⟨pad, rfl, rfl, by simp, by simp⟩
  | case3 a =>
    simp only [List.forall_mem_cons] at small
    have group := read_one ignored start 0 small.1 (by simp)
    simp only [Nat.add_zero] at group
    simp only [b64Digits, List.map_cons, List.map_nil, group]
    refine ⟨pad, rfl, rfl, by simp, by simp⟩
  | case4 =>
    exact ⟨pad, rfl, rfl, by simp [b64Digits], by simp⟩

end B64

/-! ## Decoding an encoding -/

section Decoding

variable {len : ℕ} {s : B64}

/-- Digits and characters without effect, before any padding. -/
theorem rawBase64Decode_body {body : Text} (value : ∀ c ∈ body, -1 ≤ b64revtb c) (ignored : s.ignr ≤ s.i)
    (pad : s.pad = 0) (rest : Text) :
    rawBase64Decode len s (body ++ rest) = rawBase64Decode len (body.foldl B64.read s) rest := by
  induction body generalizing s with
  | nil => rfl
  | cons c body ih =>
    have more : s.more len = true := by simp [B64.more, pad]
    rw [List.forall_mem_cons] at value
    rw [List.cons_append, List.foldl_cons]
    by_cases other : b64revtb c = -1
    · have same : s.read c = s.skip 1 := if_pos other
      rw [rawBase64Decode_ignored more _ other, same]
      exact ih value.2 (Nat.succ_le_succ ignored) pad
    · have place : (s.i + 1 - s.ignr - 1) % 4 = s.counted % 4 := by rw [B64.counted_eq]
      have same : s.read c = { s with i := s.i + 1 }.digit (s.counted % 4) (b64revtb c).toNat := if_neg other
      obtain ⟨i, ignr, kept⟩ := B64.digit_fields { s with i := s.i + 1 } (s.counted % 4) (b64revtb c).toNat
      rw [rawBase64Decode_digit more _ (by omega), same, place]
      apply ih value.2
      · rw [i, ignr]
        exact Nat.le_succ_of_le ignored
      · exact kept.trans pad

/-- The characters after the digits, up to the end of the text. -/
theorem rawBase64Decode_tail {tail : Text} (other : ∀ c ∈ tail, b64revtb c = -1) (place : s.i + tail.length = len)
    (rest : Text) : rawBase64Decode len s (tail ++ rest) = rawBase64Decode len (s.skip tail.length) rest := by
  induction tail generalizing s with
  | nil => rfl
  | cons c tail ih =>
    rw [List.forall_mem_cons] at other
    rw [List.length_cons] at place
    have more : s.more len = true := by simp [B64.more]; omega
    have round : rawBase64Decode len s (c :: (tail ++ rest)) = rawBase64Decode len (s.skip 1) (tail ++ rest) :=
      rawBase64Decode_ignored more _ other.1
    rw [List.cons_append, round, List.length_cons, Nat.add_comm, ← B64.skip_skip]
    have later : (s.skip 1).i + tail.length = len := by
      change s.i + 1 + tail.length = len
      omega
    exact ih other.2 later

/-- At the end of the text after whole groups. -/
theorem rawBase64Decode_end (pad : s.pad = 0) (whole : (s.i + 1 - s.ignr - 1) % 4 = 0) (beyond : Text) :
    rawBase64Decode len s ('\x00' :: beyond) = some (0, s.output) := by
  rw [rawBase64Decode]
  simp [B64.more, pad, b64revtb, whole]

/-- At the end of the text after padding. -/
theorem rawBase64Decode_padded (pad : s.pad = 1) (place : s.i = len) (beyond : Text) :
    rawBase64Decode len s ('\x00' :: beyond) = some (0, s.output ++ [s.buf0, s.buf1]) := by
  rw [rawBase64Decode]
  simp [B64.more, B64.finish, B64.write, pad, place]

end Decoding

theorem length_b64Digits (bytes : List ℕ) :
    (b64Digits bytes).length % 4 = if bytes.length % 3 = 0 then 0 else bytes.length % 3 + 1 := by
  induction bytes using b64Digits.induct with
  | case1 a b c rest ih =>
    have thirds : (a :: b :: c :: rest).length % 3 = rest.length % 3 := Nat.add_mod_right rest.length 3
    rw [thirds, ← ih]
    exact Nat.add_mod_right (b64Digits rest).length 4
  | case2 | case3 | case4 => rfl

theorem B64.foldl_read_i (t : Text) (s : B64) : (t.foldl B64.read s).i = s.i + t.length := by
  induction t generalizing s with
  | nil => rfl
  | cons c t ih =>
    have one : (s.read c).i = s.i + 1 := by
      unfold B64.read
      split_ifs
      · rfl
      · exact (B64.digit_fields _ _ _).1
    rw [List.foldl_cons, ih, one, List.length_cons]
    omega

/-- What the decoder makes of an encoding: after a last group of one byte a zero that was not encoded. -/
def decoded (bytes : List ℕ) : List ℕ := if bytes.length % 3 = 1 then bytes ++ [0] else bytes

/-- At the padding, if any, of an encoding. -/
theorem rawBase64Decode_padding {len : ℕ} {s : B64} {bytes : List ℕ} {tail : Text} (other : ∀ c ∈ tail, b64revtb c = -1)
    (place : s.i + (b64Padding bytes ++ tail).length = len) (ignored : s.ignr ≤ s.i) (pad : s.pad = 0)
    (counted : s.counted = (b64Digits bytes).length)
    (whole : s.output ++ [s.buf0, s.buf1].take (bytes.length % 3) = bytes) (zero : bytes.length % 3 = 1 → s.buf1 = 0)
    (beyond : Text) :
    rawBase64Decode len s (b64Padding bytes ++ tail ++ '\x00' :: beyond) = some (0, decoded bytes) := by
  have digits := length_b64Digits bytes
  obtain none | one | two : bytes.length % 3 = 0 ∨ bytes.length % 3 = 1 ∨ bytes.length % 3 = 2 := by omega
  · have padding : b64Padding bytes = [] := by rw [b64Padding, none]; rfl
    have aligned : (s.skip tail.length).counted % 4 = 0 := by rw [B64.counted_skip, counted, digits, none]; rfl
    rw [padding, List.nil_append] at place ⊢
    rw [none, List.take_zero, List.append_nil] at whole
    rw [rawBase64Decode_tail other place, decoded, if_neg (by omega),
      rawBase64Decode_end (s := s.skip tail.length) pad (by rwa [B64.counted_eq])]
    exact congrArg (fun output => some (0, output)) whole
  · have padding : b64Padding bytes = ['=', '='] := by rw [b64Padding, one]; rfl
    have third : s.counted % 4 = 2 := by rw [counted, digits, one]; rfl
    rw [padding] at place ⊢
    rw [List.length_append] at place
    change s.i + (2 + tail.length) = len at place
    change rawBase64Decode len s ('=' :: '=' :: (tail ++ '\x00' :: beyond)) = _
    have fourth : (s.i + 1 + 1 - s.ignr - 1) % 4 = 3 := by
      have same := s.counted_eq
      omega
    rw [rawBase64Decode_pad_pair (by simp [B64.more, pad]) _ (by rwa [B64.counted_eq]),
      rawBase64Decode_pad_last (by simp [B64.more]; omega) _ fourth,
      rawBase64Decode_tail other (by simp; omega), rawBase64Decode_padded rfl (by simp [B64.skip]; omega)]
    rw [one] at whole
    rw [decoded, if_pos one, ← whole, List.append_assoc]
    simp [B64.skip, zero one]
  · have padding : b64Padding bytes = ['='] := by rw [b64Padding, two]; rfl
    have fourth : s.counted % 4 = 3 := by rw [counted, digits, two]; rfl
    rw [padding] at place ⊢
    rw [List.length_append] at place
    change s.i + (1 + tail.length) = len at place
    change rawBase64Decode len s ('=' :: (tail ++ '\x00' :: beyond)) = _
    rw [rawBase64Decode_pad_last (by simp [B64.more]; omega) _ (by rwa [B64.counted_eq]),
      rawBase64Decode_tail other (by simp; omega), rawBase64Decode_padded rfl (by simp [B64.skip]; omega)]
    rw [two] at whole
    rw [decoded, if_neg (by omega)]
    exact congrArg (fun output => some (0, output)) whole

theorem Encodes.value {bytes : List ℕ} (small : ∀ b ∈ bytes, b < 256) {body : Text}
    (digits : body.filter (b64revtb · ≠ -1) = (b64Digits bytes).map b64Char) : ∀ c ∈ body, -1 ≤ b64revtb c := by
  intro c member
  by_cases ignored : b64revtb c = -1
  · omega
  · have kept : c ∈ body.filter (b64revtb · ≠ -1) := List.mem_filter.mpr ⟨member, by simpa using ignored⟩
    rw [digits] at kept
    obtain ⟨x, listed, rfl⟩ := List.mem_map.mp kept
    rw [b64revtb_b64Char (b64Digits_small small x listed)]
    omega

theorem Encodes.clean {bytes : List ℕ} (small : ∀ b ∈ bytes, b < 256) {t : Text} (encodes : Encodes bytes t) :
    '\x00' ∉ t := by
  obtain ⟨body, tail, rfl, digits, other⟩ := encodes
  intro member
  have nul : b64revtb '\x00' = -3 := rfl
  rcases List.mem_append.mp member with inside | member
  · have value := Encodes.value small digits _ inside
    omega
  · rcases List.mem_append.mp member with padding | behind
    · cases (List.mem_replicate.mp padding).2
    · have value := other _ behind
      omega

/-- The state `raw_base64_decode` starts in, where its buffer holds what it holds. -/
def B64.start (buf : ℕ × ℕ × ℕ) : B64 := { buf0 := buf.1, buf1 := buf.2.1, buf2 := buf.2.2 }

/-- Decoding an encoding gives its bytes, wherever lines are broken, but after a last group of one byte a zero too. -/
theorem rawBase64Decode_encodes {bytes : List ℕ} (small : ∀ b ∈ bytes, b < 256) {t : Text} (encodes : Encodes bytes t)
    (buf : ℕ × ℕ × ℕ) (beyond : Text) :
    rawBase64Decode t.length (B64.start buf) (t ++ '\x00' :: beyond) = some (0, decoded bytes) := by
  obtain ⟨body, tail, rfl, digits, other⟩ := encodes
  have value := Encodes.value small digits
  obtain ⟨n, same⟩ := B64.foldl_read_filter body (B64.start buf)
  have holds := B64.holds_digits (s := B64.start buf) small (Nat.le_refl 0) rfl rfl
  rw [digits] at same
  rw [List.append_assoc, rawBase64Decode_body value (Nat.le_refl 0) rfl]
  have i : (body.foldl B64.read (B64.start buf)).i = body.length := by
    rw [B64.foldl_read_i]
    exact Nat.zero_add _
  apply rawBase64Decode_padding other
  · rw [i]
    simp
  · rw [same]
    simp only [B64.skip, holds.ignr]
    simp [B64.start]
  · rw [same]
    exact holds.pad
  · rw [same, B64.counted_skip, B64.counted, holds.ignr, holds.i]
    exact Nat.zero_add _
  · rw [same]
    exact holds.whole
  · rw [same]
    exact holds.zero

theorem stops_start {t : Text} (clean : '\x00' ∉ t) (buf : ℕ × ℕ × ℕ) : Stops t.length (B64.start buf) t := by
  apply rawBase64Decode_stops t.length clean (Nat.zero_add _)
  refine ⟨Nat.le_refl _, Nat.zero_le _, ?_, Nat.zero_le _⟩
  intro two
  cases two

/-- Whatever text `xar_from_base64` is given, it reads nothing behind the end of the text and writes into what it has
allocated only, and not all of it. -/
theorem xarFromBase64_within {t : Text} (clean : '\x00' ∉ t) (buf : ℕ × ℕ × ℕ) :
    ∃ err output, (∀ beyond, rawBase64Decode t.length (B64.start buf) (t ++ '\x00' :: beyond) = some (err, output)) ∧
      err ≤ 1 ∧ output.length < 3 * (t.length / 4 + 1) := by
  obtain ⟨err, output, stops, small, short⟩ := stops_start clean buf
  exact ⟨err, output, stops, small, by omega⟩

/-- A single padding character where two belong. -/
theorem xarFromBase64_within_alone : ∃ err output,
    (∀ beyond, rawBase64Decode 4 (B64.start (0, 0, 0)) ("YQ=Z".toList ++ '\x00' :: beyond) = some (err, output)) ∧
      err ≤ 1 ∧ output.length < 6 :=
  xarFromBase64_within (t := "YQ=Z".toList) (by decide) (0, 0, 0)

section Encoded

variable {bytes : List ℕ} (small : ∀ b ∈ bytes, 0 < b ∧ b < 256) {t : Text} (encodes : Encodes bytes t)
include small encodes

theorem xarFromBase64_decoded (buf : ℕ × ℕ × ℕ) (memory : List ℕ) :
    xarFromBase64 buf memory t =
      some (((decoded bytes ++ memory.drop (decoded bytes).length).takeWhile (· ≠ 0)).map Char.ofNat) := by
  have decodes := rawBase64Decode_encodes (fun b member => (small b member).2) encodes buf []
  unfold xarFromBase64
  unfold B64.start at decodes
  simp only [decodes]

omit encodes in
theorem takeWhile_bytes (rest : List ℕ) : (bytes ++ rest).takeWhile (· ≠ 0) = bytes ++ rest.takeWhile (· ≠ 0) := by
  apply List.takeWhile_append_of_pos
  intro b member
  have positive := (small b member).1
  simpa using Nat.ne_of_gt positive

/-- After a last group of one byte the result ends where the text does, whatever was in the memory. -/
theorem xarFromBase64_ends (one : bytes.length % 3 = 1) (buf : ℕ × ℕ × ℕ) (memory : List ℕ) :
    xarFromBase64 buf memory t = some (bytes.map Char.ofNat) := by
  rw [xarFromBase64_decoded small encodes, decoded, if_pos one, List.append_assoc, takeWhile_bytes small]
  simp

end Encoded

/-- The result of decoding the encoding of a text ends where the text does, whatever was in the memory it was written
to, only if the text leaves one byte for the last group of three. -/
theorem xarFromBase64_encodes {bytes : List ℕ} (small : ∀ b ∈ bytes, 0 < b ∧ b < 256) {t : Text}
    (encodes : Encodes bytes t) :
    (∀ buf memory, memory.length = 3 * (t.length / 4 + 1) →
      xarFromBase64 buf memory t = some (bytes.map Char.ofNat)) ↔ bytes.length % 3 = 1 := by
  have small' : ∀ b ∈ bytes, b < 256 := fun b member => (small b member).2
  constructor
  · intro ends
    by_contra other
    have short : bytes.length < 3 * (t.length / 4 + 1) := by
      obtain ⟨err, output, stops, _, short⟩ := stops_start (encodes.clean small') (0, 0, 0)
      have same := (stops []).symm.trans (rawBase64Decode_encodes small' encodes (0, 0, 0) [])
      rw [decoded, if_neg other] at same
      obtain rfl : output = bytes := congrArg Prod.snd (Option.some.inj same)
      omega
    have differs := ends (0, 0, 0) (List.replicate (3 * (t.length / 4 + 1)) 1) List.length_replicate
    rw [xarFromBase64_decoded small encodes, decoded, if_neg other, takeWhile_bytes small, List.drop_replicate]
      at differs
    have lengths := congrArg List.length (Option.some.inj differs)
    rw [List.takeWhile_replicate] at lengths
    simp at lengths
    omega
  · intro one buf memory _
    exact xarFromBase64_ends small encodes one buf memory

/-- Four bytes on two lines. -/
theorem xarFromBase64_encodes_lines :
    xarFromBase64 (0, 0, 0) (List.replicate 9 1) "YWJj\r\nZA==".toList = some "abcd".toList := by
  have encodes : Encodes [97, 98, 99, 100] "YWJj\r\nZA==".toList :=
    ⟨"YWJj\r\nZA".toList, [], by decide, by decide, by simp⟩
  exact (xarFromBase64_encodes (by decide) encodes).mpr rfl (0, 0, 0) _ List.length_replicate

end FsPkg.Xar
