import FsPkg.Model.Timestr
import FsPkg.Proofs.DbSqliteText
import Mathlib.Data.List.TakeWhile
import Mathlib.Tactic.IntervalCases

/-! # Time strings are read back as the time they were made of

The text is a row of components, each a number with its unit and each left out when its number is zero. The
printer appends one component at a time, and the parser takes them off again in the same order: the letter it
looks for stands nowhere behind its own component, and the number in front of it is not zero, so that it has
no leading zero and is read as decimal.
-/

namespace FsPkg.Timestr

open Pkg (Text)
open Conf (cString)
open Db (printInt length_printInt_le)

/-! ## Numbers -/

theorem head_toDigits_ne_zero {n : ℕ} (positive : 0 < n) : (Nat.toDigits 10 n).head? ≠ some '0' := by
  induction n using Nat.strong_induction_on with
  | h n ih =>
    by_cases small : n < 10
    · rw [Nat.toDigits_of_lt_base small]
      interval_cases n <;> decide
    · rw [Nat.toDigits_of_base_le (by decide) (by omega), List.head?_append_of_ne_nil _ Nat.toDigits_ne_nil]
      exact ih (n / 10) (by omega) (by omega)

theorem digitValue_of_isDigit {c : Char} (digit : c.isDigit) : digitValue c = c.toNat - '0'.toNat :=
  if_pos digit

theorem digitValue_lt_ten {c : Char} (digit : c.isDigit) : digitValue c < 10 := by
  rw [digitValue_of_isDigit digit]
  rw [Char.isDigit_iff_toNat] at digit
  have zero : '0'.toNat = 48 := rfl
  have nine : '9'.toNat = 57 := rfl
  omega

/-- The text does not go on with a digit. -/
def Ends (tail : Text) : Prop :=
  ∀ c ∈ tail.head?, 10 ≤ digitValue c

theorem takeWhile_ends {base : ℕ} (low : base ≤ 10) {tail : Text} (ends : Ends tail) :
    tail.takeWhile (digitValue · < base) = [] := by
  cases tail with
  | nil => rfl
  | cons c tail =>
    have large : 10 ≤ digitValue c := ends c rfl
    rw [List.takeWhile_cons_of_neg]
    simp only [decide_eq_true_eq]
    omega

theorem magnitude_decimal {digits : Text} (decimal : ∀ c ∈ digits, c.isDigit) {tail : Text} (ends : Ends tail) :
    magnitude 10 (digits ++ tail) = Nat.ofDigitChars 10 digits 0 := by
  have taken : (digits ++ tail).takeWhile (digitValue · < 10) = digits := by
    rw [List.takeWhile_append_of_pos, takeWhile_ends le_rfl ends, List.append_nil]
    intro c member
    exact decide_eq_true (digitValue_lt_ten (decimal c member))
  calc magnitude 10 (digits ++ tail)
      = digits.foldl (fun acc c => acc * 10 + digitValue c) 0 := by rw [magnitude, taken]
    _ = digits.foldl (fun acc c => 10 * acc + (c.toNat - '0'.toNat)) 0 := by
        apply List.foldl_ext
        intro acc c member
        rw [digitValue_of_isDigit (decimal c member), Nat.mul_comm]
    _ = Nat.ofDigitChars 10 digits 0 := Nat.ofDigitChars_eq_foldl.symm

theorem magnitude_toDigits (n : ℕ) {tail : Text} (ends : Ends tail) :
    magnitude 10 (Nat.toDigits 10 n ++ tail) = n := by
  rw [magnitude_decimal (fun c member => Nat.isDigit_of_mem_toDigits (by decide) (by decide) member) ends]
  exact Nat.ofDigitChars_ten_toDigits

theorem detectBase_decimal {text : Text} (head : text.head? ≠ some '0') : detectBase text = (10, text) := by
  cases text with
  | nil => rfl
  | cons c rest =>
    have other : c ≠ '0' := fun zero => head (by rw [zero]; rfl)
    unfold detectBase
    split
    · exact absurd (List.cons.inj ‹_›).1 other
    · exact absurd (List.cons.inj ‹_›).1 other
    · rfl

theorem natAbs_pos_of_ne_zero {n : Int32} (nonzero : n ≠ 0) : 0 < n.toInt.natAbs := by
  have value : n.toInt ≠ 0 := fun zero => nonzero (Int32.toInt_inj.mp zero)
  omega

theorem ne_of_isDigit {c other : Char} (digit : c.isDigit) (letter : other.isDigit = false) : c ≠ other := by
  rintro rfl
  rw [digit] at letter
  contradiction

theorem isSpace_of_isDigit {c : Char} (digit : c.isDigit) : isSpace c = false := by
  rw [Char.isDigit_iff_toNat] at digit
  have zero : '0'.toNat = 48 := rfl
  have behind : ¬c ≤ '\r' := by
    intro least
    have bound : c.toNat ≤ 13 := least
    omega
  have blank : c ≠ ' ' := by
    rintro rfl
    have code : ' '.toNat = 32 := rfl
    omega
  simp only [isSpace, blank, behind, decide_false, Bool.and_false, Bool.or_self]

theorem toDigits_eq_cons (n : ℕ) : ∃ first rest, Nat.toDigits 10 n = first :: rest ∧ first.isDigit := by
  cases printed : Nat.toDigits 10 n with
  | nil => exact absurd printed Nat.toDigits_ne_nil
  | cons first rest =>
    refine ⟨first, rest, rfl, ?_⟩
    apply Nat.isDigit_of_mem_toDigits (b := 10) (n := n) (by decide) (by decide)
    rw [printed]
    exact List.mem_cons_self

/-- A text that starts with a digit has no sign and no blanks in front. -/
theorem strtol_unsigned {first : Char} {rest : Text} (digit : first.isDigit) {base : ℕ} {digits : Text}
    (detected : detectBase (first :: rest) = (base, digits)) :
    strtol (first :: rest) = max Int64.minValue.toInt (min (magnitude base digits) Int64.maxValue.toInt) := by
  have skipped : (first :: rest).dropWhile isSpace = first :: rest := by
    rw [List.dropWhile_cons_of_neg]
    rw [isSpace_of_isDigit digit]
    exact Bool.false_ne_true
  have minus : ¬some first = some '-' := fun same => ne_of_isDigit digit rfl (Option.some.inj same)
  have plus : ¬some first = some '+' := fun same => ne_of_isDigit digit rfl (Option.some.inj same)
  simp only [strtol, skipped, List.head?_cons, minus, plus, or_self, if_false, detected]

/-- What `%d` prints of a number other than zero, `strtol` reads. -/
theorem strtol_printInt {n : Int32} (nonzero : n ≠ 0) {tail : Text} (ends : Ends tail) :
    strtol (printInt n ++ tail) = n.toInt := by
  have positive := natAbs_pos_of_ne_zero nonzero
  have head : (Nat.toDigits 10 n.toInt.natAbs ++ tail).head? ≠ some '0' := by
    rw [List.head?_append_of_ne_nil _ Nat.toDigits_ne_nil]
    exact head_toDigits_ne_zero positive
  have read := magnitude_toDigits n.toInt.natAbs ends
  have lower := n.le_toInt
  have upper := n.toInt_lt
  have clamp : max Int64.minValue.toInt (min n.toInt Int64.maxValue.toInt) = n.toInt := by
    have least : Int64.minValue.toInt = -9223372036854775808 := rfl
    have most : Int64.maxValue.toInt = 9223372036854775807 := rfl
    omega
  rw [printInt]
  split
  · have negative : n.toInt < 0 := Int32.lt_iff_toInt_lt.mp ‹n < 0›
    have value : -(n.toInt.natAbs : ℤ) = n.toInt := by omega
    have skipped : ('-' :: Nat.toDigits 10 n.toInt.natAbs ++ tail).dropWhile isSpace =
        '-' :: (Nat.toDigits 10 n.toInt.natAbs ++ tail) := rfl
    simp only [strtol, skipped, List.head?_cons, List.tail_cons, true_or, if_true, detectBase_decimal head,
      read, value, clamp]
  · have nonnegative : 0 ≤ n.toInt := Int.not_lt.mp fun negative => ‹¬n < 0› (Int32.lt_iff_toInt_lt.mpr negative)
    have value : (n.toInt.natAbs : ℤ) = n.toInt := by omega
    have detected := detectBase_decimal head
    obtain ⟨first, rest, printed, digit⟩ := toDigits_eq_cons n.toInt.natAbs
    rw [printed, List.cons_append] at detected read ⊢
    rw [strtol_unsigned digit detected, read, value, clamp]

/-! ## One component -/

/-- A digit or the sign. -/
def Numeral (c : Char) : Prop := c = '-' ∨ c.isDigit

theorem numeral_of_mem_printInt {n : Int32} {c : Char} (member : c ∈ printInt n) : Numeral c := by
  have digits : ∀ c ∈ Nat.toDigits 10 n.toInt.natAbs, Numeral c := fun c member =>
    Or.inr (Nat.isDigit_of_mem_toDigits (by decide) (by decide) member)
  rw [printInt] at member
  split at member
  · rcases List.mem_cons.mp member with rfl | behind
    · exact Or.inl rfl
    · exact digits c behind
  · exact digits c member

theorem Numeral.toLower {c : Char} (numeral : Numeral c) : c.toLower = c := by
  rcases numeral with rfl | digit
  · rfl
  · rw [Char.isDigit_iff_toNat] at digit
    have nine : '9'.toNat = 57 := rfl
    apply dif_neg
    rintro ⟨capital, -⟩
    have bound : 65 ≤ c.toNat := capital
    omega

/-- The number with its unit, or nothing. -/
def component (unit : Char) (n : Int32) : Text :=
  if n = 0 then [] else printInt n ++ [unit]

theorem mem_component {unit c : Char} {n : Int32} (member : c ∈ component unit n) : Numeral c ∨ c = unit := by
  rw [component] at member
  split at member
  · contradiction
  · rcases List.mem_append.mp member with number | last
    · exact Or.inl (numeral_of_mem_printInt number)
    · exact Or.inr (List.mem_singleton.mp last)

theorem length_component_le (unit : Char) (n : Int32) : (component unit n).length ≤ 12 := by
  have number := length_printInt_le n
  rw [component]
  split
  · exact Nat.zero_le _
  · rw [List.length_append, List.length_singleton]
    omega

/-! ## The parser takes off one component -/

theorem long_of_bounds {n : ℤ} (lower : -9223372036854775808 ≤ n) (upper : n ≤ 9223372036854775807) :
    long n = some n :=
  if_pos ⟨lower, upper⟩

theorem strchr_none {s : Text} {c : Char} (absent : c ∉ s) : strchr s c = none :=
  if_neg absent

theorem strchr_append {before after : Text} {c : Char} (absent : c ∉ before) :
    strchr (before ++ c :: after) c = some (before, after) := by
  have different : ∀ other ∈ before, decide (other ≠ c) = true := by
    intro other member
    rw [decide_eq_true_eq]
    rintro rfl
    exact absent member
  rw [strchr, if_pos (by simp), List.takeWhile_append_of_pos different, List.dropWhile_append_of_pos different,
    List.takeWhile_cons_of_neg (by simp), List.dropWhile_cons_of_neg (by simp), List.append_nil, List.tail_cons]

theorem takeUnit_component {unit : Char} (letter : ¬Numeral unit) {n : Int32} {rest : Text} (absent : unit ∉ rest)
    (scale ret : ℤ) (product : -9223372036854775808 ≤ n.toInt * scale ∧ n.toInt * scale ≤ 9223372036854775807)
    (sum : -9223372036854775808 ≤ ret + n.toInt * scale ∧ ret + n.toInt * scale ≤ 9223372036854775807) :
    takeUnit unit scale (component unit n ++ rest, ret) = some (rest, ret + n.toInt * scale) := by
  by_cases zero : n = 0
  · have value : n.toInt * scale = 0 := by rw [zero]; exact Int.zero_mul scale
    rw [component, if_pos zero, List.nil_append, value, Int.add_zero, takeUnit, strchr_none absent]
  · have number : unit ∉ printInt n := fun member => letter (numeral_of_mem_printInt member)
    have read : strtol (printInt n) = n.toInt := by
      have whole := strtol_printInt zero (show Ends [] by intro c none; cases none)
      rwa [List.append_nil] at whole
    have added : addScaled (printInt n) scale ret = some (ret + n.toInt * scale) := by
      rw [addScaled, read, long_of_bounds product.1 product.2]
      exact long_of_bounds sum.1 sum.2
    rw [component, if_neg zero, List.append_assoc, List.singleton_append, takeUnit, strchr_append number]
    simp only [added, Option.map_some]

/-! ## The printer appends one component -/

/-- The text stands at the beginning of the buffer, with a terminator behind it unless it is empty. -/
structure Written (state : Rbuf × ℕ) (text : Text) : Prop where
  length : state.2 = text.length
  holds : ∃ rest, state.1.bytes = text ++ rest ∧ (text ≠ [] → rest.head? = some '\x00')

theorem addUnit_spec {state : Rbuf × ℕ} {text : Text} (written : Written state text) (unit : Char) (n : Int32)
    (room : text.length + 12 < sizeofRbuf) :
    ∃ after, addUnit unit n state = some after ∧ Written after (text ++ component unit n) := by
  by_cases zero : n = 0
  · refine ⟨state, if_pos zero, ?_⟩
    rw [component, if_pos zero, List.append_nil]
    exact written
  · obtain ⟨rbuf, rlen⟩ := state
    obtain ⟨length, rest, holds, -⟩ := written
    simp only at length holds
    have short := length_component_le unit n
    rw [component, if_neg zero] at short ⊢
    have size : sizeofRbuf = 64 := rfl
    have whole : (printInt n ++ [unit]).take (sizeofRbuf - 1) = printInt n ++ [unit] :=
      List.take_of_length_le (by omega)
    have fits : rlen + (printInt n ++ [unit] ++ ['\x00']).length ≤ sizeofRbuf := by
      rw [List.length_append, List.length_singleton, length]
      omega
    rw [addUnit, if_neg zero]
    simp only [whole, Rbuf.write, dif_pos fits, Option.map_some]
    refine ⟨_, rfl, ?_, ?_⟩
    · simp only [length, List.length_append]
    · refine ⟨'\x00' :: rbuf.bytes.drop (rlen + (printInt n ++ [unit] ++ ['\x00']).length), ?_, fun _ => rfl⟩
      have front : rbuf.bytes.take rlen = text := by rw [holds, length, List.take_left]
      simp only [front, List.append_assoc, List.cons_append, List.nil_append]

/-- A terminated text is the string in the buffer. -/
theorem Written.cString_eq {state : Rbuf × ℕ} {text : Text} (written : Written state text) (nonempty : text ≠ [])
    (noTerminator : '\x00' ∉ text) : cString state.1.bytes = text := by
  obtain ⟨-, rest, holds, terminated⟩ := written
  obtain ⟨behind, rfl⟩ := List.head?_eq_some_iff.mp (terminated nonempty)
  have different : ∀ c ∈ text, decide (c ≠ '\x00') = true := by
    intro c member
    rw [decide_eq_true_eq]
    rintro rfl
    exact noTerminator member
  rw [holds, cString, List.takeWhile_append_of_pos different, List.takeWhile_cons_of_neg (by simp), List.append_nil]

/-! ## The whole text -/

/-- The four components. -/
def components (d h m s : Int32) : Text :=
  component 'd' d ++ (component 'h' h ++ (component 'm' m ++ component 's' s))

theorem mem_components {d h m s : Int32} {c : Char} (member : c ∈ components d h m s) :
    Numeral c ∨ c = 'd' ∨ c = 'h' ∨ c = 'm' ∨ c = 's' := by
  simp only [components, List.mem_append] at member
  rcases member with member | member | member | member
  all_goals
    rcases mem_component member with numeral | rfl
    · exact Or.inl numeral
    · simp

theorem length_components_le (d h m s : Int32) : (components d h m s).length ≤ 48 := by
  have lengthD := length_component_le 'd' d
  have lengthH := length_component_le 'h' h
  have lengthM := length_component_le 'm' m
  have lengthS := length_component_le 's' s
  simp only [components, List.length_append]
  omega

theorem component_eq_nil {unit : Char} {n : Int32} (empty : component unit n = []) : n = 0 := by
  by_contra nonzero
  rw [component, if_neg nonzero] at empty
  exact List.append_ne_nil_of_right_ne_nil _ (List.cons_ne_nil _ _) empty

theorem components_eq_nil {d h m s : Int32} (empty : components d h m s = []) :
    d = 0 ∧ h = 0 ∧ m = 0 ∧ s = 0 := by
  simp only [components, List.append_eq_nil_iff] at empty
  obtain ⟨emptyD, emptyH, emptyM, emptyS⟩ := empty
  exact ⟨component_eq_nil emptyD, component_eq_nil emptyH, component_eq_nil emptyM, component_eq_nil emptyS⟩

theorem toLower_components (d h m s : Int32) : (components d h m s).map Char.toLower = components d h m s := by
  calc (components d h m s).map Char.toLower
      = (components d h m s).map id := by
        apply List.map_congr_left
        intro c member
        rcases mem_components member with numeral | rfl | rfl | rfl | rfl
        · exact numeral.toLower
        all_goals rfl
    _ = components d h m s := List.map_id _

theorem strtol_component (s : Int32) : strtol (component 's' s) = s.toInt := by
  by_cases zero : s = 0
  · rw [zero]
    decide
  · rw [component, if_neg zero]
    apply strtol_printInt zero
    intro c last
    cases last
    decide

theorem not_numeral {unit : Char} (minus : unit ≠ '-') (letter : unit.isDigit = false) : ¬Numeral unit := by
  rintro (sign | digit)
  · exact minus sign
  · exact ne_of_isDigit digit letter rfl

theorem absent_component {unit other : Char} (letter : ¬Numeral unit) (different : unit ≠ other) (n : Int32) :
    unit ∉ component other n := by
  intro member
  rcases mem_component member with numeral | same
  · exact letter numeral
  · exact different same

/-- The parser adds the components up. -/
theorem nn2TimestrToTime_components {d h m s : Int32} {t : Int64} (fallback : Int64)
    (total : t.toInt = d.toInt * 86400 + h.toInt * 3600 + m.toInt * 60 + s.toInt)
    (sign : (0 ≤ d.toInt ∧ 0 ≤ h.toInt ∧ 0 ≤ m.toInt ∧ 0 ≤ s.toInt) ∨
      (d.toInt ≤ 0 ∧ h.toInt ≤ 0 ∧ m.toInt ≤ 0 ∧ s.toInt ≤ 0)) :
    nn2TimestrToTime (some (components d h m s)) fallback = some t := by
  have lower := t.le_toInt
  have upper := t.toInt_lt
  have letterD : ¬Numeral 'd' := not_numeral (by decide) rfl
  have letterH : ¬Numeral 'h' := not_numeral (by decide) rfl
  have letterM : ¬Numeral 'm' := not_numeral (by decide) rfl
  have noDays : 'd' ∉ component 'h' h ++ (component 'm' m ++ component 's' s) := by
    simp only [List.mem_append, not_or]
    exact ⟨absent_component letterD (by decide) h, absent_component letterD (by decide) m,
      absent_component letterD (by decide) s⟩
  have noHours : 'h' ∉ component 'm' m ++ component 's' s := by
    simp only [List.mem_append, not_or]
    exact ⟨absent_component letterH (by decide) m, absent_component letterH (by decide) s⟩
  have noMinutes : 'm' ∉ component 's' s := absent_component letterM (by decide) s
  have days := takeUnit_component letterD (n := d) noDays 86400 0 (by omega) (by omega)
  have hours := takeUnit_component letterH (n := h) noHours 3600 (0 + d.toInt * 86400) (by omega) (by omega)
  have minutes := takeUnit_component letterM (n := m) noMinutes 60 (0 + d.toInt * 86400 + h.toInt * 3600)
    (by omega) (by omega)
  have seconds : long (0 + d.toInt * 86400 + h.toInt * 3600 + m.toInt * 60 + s.toInt) = some t.toInt := by
    rw [Int.zero_add, ← total]
    exact long_of_bounds lower (by omega)
  simp only [nn2TimestrToTime, toLower_components]
  rw [components, days, Option.bind_eq_bind, Option.bind_some, hours, Option.bind_eq_bind, Option.bind_some, minutes]
  simp only [strtol_component, seconds, Option.bind_some, Int64.ofInt_toInt]

/-- `0s`. -/
theorem nn2TimestrToTime_zero (fallback : Int64) : nn2TimestrToTime (some ['0', 's']) fallback = some 0 := by
  rw [nn2TimestrToTime]
  decide

/-- Truncating division leaves a remainder of the sign of the dividend. -/
theorem tmod_spec (t : ℤ) {b : ℤ} (positive : 0 < b) : b * t.tdiv b + t.tmod b = t ∧ -b < t.tmod b ∧ t.tmod b < b ∧
    (0 ≤ t → 0 ≤ t.tmod b) ∧ (t ≤ 0 → t.tmod b ≤ 0) := by
  refine ⟨Int.mul_tdiv_add_tmod t b, Int.lt_tmod_of_pos t positive, Int.tmod_lt_of_pos t positive,
    Int.tmod_nonneg b, ?_⟩
  intro negative
  have opposite := Int.tmod_nonneg b (show 0 ≤ -t by omega)
  rw [Int.neg_tmod] at opposite
  omega

/-- A `time_t` that an `int` can hold is converted to it. -/
theorem toInt_toInt32 {t : Int64} (lower : -2147483648 ≤ t.toInt) (upper : t.toInt ≤ 2147483647) :
    t.toInt32.toInt = t.toInt := by
  rw [Int64.toInt_toInt32]
  exact Int.bmod_eq_of_le (by omega) (by omega)

/-- The printer leaves the components in the buffer, or `0s` if there is none. -/
theorem nn2TimeToTimestr_spec (t : Int64) (rbuf : Rbuf) {d h m s : Int32} (days : (t / 86400).toInt32 = d)
    (hours : (t % 86400 / 3600).toInt32 = h) (minutes : (t % 86400 % 3600 / 60).toInt32 = m)
    (seconds : (t % 86400 % 3600 % 60).toInt32 = s) :
    ∃ after, nn2TimeToTimestr t rbuf = some after ∧
      cString after.bytes = if components d h m s = [] then ['0', 's'] else components d h m s := by
  have size : sizeofRbuf = 64 := rfl
  have start : Written (rbuf, 0) [] := ⟨rfl, rbuf.bytes, rfl, fun empty => absurd rfl empty⟩
  have lengthD := length_component_le 'd' d
  have lengthH := length_component_le 'h' h
  have lengthM := length_component_le 'm' m
  obtain ⟨afterD, ranD, written⟩ := addUnit_spec start 'd' d (by rw [List.length_nil]; omega)
  rw [List.nil_append] at written
  obtain ⟨afterH, ranH, written⟩ := addUnit_spec written 'h' h (by omega)
  obtain ⟨afterM, ranM, written⟩ := addUnit_spec written 'm' m (by rw [List.length_append]; omega)
  obtain ⟨⟨after, rlen⟩, ranS, written⟩ := addUnit_spec written 's' s (by simp only [List.length_append]; omega)
  simp only [List.append_assoc] at written
  change Written (after, rlen) (components d h m s) at written
  have length : rlen = (components d h m s).length := written.length
  simp only [nn2TimeToTimestr, days, hours, minutes, seconds, ranD, ranH, ranM, ranS, Option.bind_eq_bind,
    Option.bind_some]
  by_cases empty : components d h m s = []
  · rw [empty, List.length_nil] at length
    rw [if_pos length, if_pos empty, Rbuf.write, dif_pos (by decide)]
    refine ⟨_, rfl, ?_⟩
    rfl
  · have positive : rlen ≠ 0 := by
      rw [length]
      exact fun zero => empty (List.eq_nil_of_length_eq_zero zero)
    rw [if_neg positive, if_neg empty]
    refine ⟨after, rfl, written.cString_eq empty ?_⟩
    intro member
    rcases mem_components member with numeral | letter
    · exact not_numeral (by decide) rfl numeral
    · revert letter
      decide

/-- The components of a time whose day count fits in an `int` make it up, and none has another sign. -/
theorem components_of_time (t : Int64) (fits : -2147483648 ≤ t.toInt.tdiv 86400 ∧ t.toInt.tdiv 86400 ≤ 2147483647) :
    ∃ d h m s : Int32, (t / 86400).toInt32 = d ∧ (t % 86400 / 3600).toInt32 = h ∧
      (t % 86400 % 3600 / 60).toInt32 = m ∧ (t % 86400 % 3600 % 60).toInt32 = s ∧
      t.toInt = d.toInt * 86400 + h.toInt * 3600 + m.toInt * 60 + s.toInt ∧
      ((0 ≤ d.toInt ∧ 0 ≤ h.toInt ∧ 0 ≤ m.toInt ∧ 0 ≤ s.toInt) ∨
        (d.toInt ≤ 0 ∧ h.toInt ≤ 0 ∧ m.toInt ≤ 0 ∧ s.toInt ≤ 0)) := by
  obtain ⟨splitD, leastD, mostD, plusD, minusD⟩ := tmod_spec t.toInt (b := 86400) (by decide)
  obtain ⟨splitH, leastH, mostH, plusH, minusH⟩ := tmod_spec (t.toInt.tmod 86400) (b := 3600) (by decide)
  obtain ⟨splitM, leastM, mostM, plusM, minusM⟩ :=
    tmod_spec ((t.toInt.tmod 86400).tmod 3600) (b := 60) (by decide)
  have days : (t / 86400).toInt = t.toInt.tdiv 86400 := Int64.toInt_div_of_ne_right t 86400 (by decide)
  have restD : (t % 86400).toInt = t.toInt.tmod 86400 := Int64.toInt_mod t 86400
  have hours : (t % 86400 / 3600).toInt = (t.toInt.tmod 86400).tdiv 3600 := by
    rw [← restD]
    exact Int64.toInt_div_of_ne_right _ 3600 (by decide)
  have restH : (t % 86400 % 3600).toInt = (t.toInt.tmod 86400).tmod 3600 := by
    rw [← restD]
    exact Int64.toInt_mod _ 3600
  have minutes : (t % 86400 % 3600 / 60).toInt = ((t.toInt.tmod 86400).tmod 3600).tdiv 60 := by
    rw [← restH]
    exact Int64.toInt_div_of_ne_right _ 60 (by decide)
  have seconds : (t % 86400 % 3600 % 60).toInt = ((t.toInt.tmod 86400).tmod 3600).tmod 60 := by
    rw [← restH]
    exact Int64.toInt_mod _ 60
  have narrowD := toInt_toInt32 (t := t / 86400) (by omega) (by omega)
  have narrowH := toInt_toInt32 (t := t % 86400 / 3600) (by omega) (by omega)
  have narrowM := toInt_toInt32 (t := t % 86400 % 3600 / 60) (by omega) (by omega)
  have narrowS := toInt_toInt32 (t := t % 86400 % 3600 % 60) (by omega) (by omega)
  refine ⟨_, _, _, _, rfl, rfl, rfl, rfl, by omega, ?_⟩
  rcases Int.le_total 0 t.toInt with since | before
  · have restD := plusD since
    have restH := plusH restD
    have restM := plusM restH
    clear plusD plusH plusM minusD minusH minusM
    refine .inl ⟨?_, ?_, ?_, ?_⟩ <;> omega
  · have restD := minusD before
    have restH := minusH restD
    have restM := minusM restH
    clear plusD plusH plusM minusD minusH minusM
    refine .inr ⟨?_, ?_, ?_, ?_⟩ <;> omega

/-- A time whose day count fits in an `int` is printed inside the buffer, and is read back from there. -/
theorem nn2TimestrToTime_nn2TimeToTimestr (t fallback : Int64) (rbuf : Rbuf)
    (fits : -2147483648 ≤ t.toInt.tdiv 86400 ∧ t.toInt.tdiv 86400 ≤ 2147483647) :
    ∃ after, nn2TimeToTimestr t rbuf = some after ∧ (cString after.bytes).length + 1 ≤ sizeofRbuf ∧
      nn2TimestrToTime (some (cString after.bytes)) fallback = some t := by
  obtain ⟨d, h, m, s, days, hours, minutes, seconds, total, sign⟩ := components_of_time t fits
  obtain ⟨after, printed, string⟩ := nn2TimeToTimestr_spec t rbuf days hours minutes seconds
  refine ⟨after, printed, ?_⟩
  rw [string]
  by_cases empty : components d h m s = []
  · obtain ⟨rfl, rfl, rfl, rfl⟩ := components_eq_nil empty
    have zero : t = 0 := Int64.toInt_inj.mp total
    rw [if_pos empty, zero]
    exact ⟨by decide, nn2TimestrToTime_zero fallback⟩
  · have size : sizeofRbuf = 64 := rfl
    have length := length_components_le d h m s
    rw [if_neg empty]
    exact ⟨by omega, nn2TimestrToTime_components fallback total sign⟩

/-- One day, two hours, three minutes and four seconds before the epoch. -/
theorem nn2TimestrToTime_beforeEpoch :
    (-2147483648 ≤ (-93784 : Int64).toInt.tdiv 86400 ∧ (-93784 : Int64).toInt.tdiv 86400 ≤ 2147483647) ∧
      ∃ after, nn2TimeToTimestr (-93784) ⟨List.replicate 64 '\x00', rfl⟩ = some after ∧
        (cString after.bytes).length + 1 ≤ sizeofRbuf ∧
        nn2TimestrToTime (some (cString after.bytes)) 7 = some (-93784) :=
  ⟨by decide, nn2TimestrToTime_nn2TimeToTimestr (-93784) 7 _ (by decide)⟩

example : (nn2TimeToTimestr (-93784) ⟨List.replicate 64 '\x00', rfl⟩).map (cString ·.bytes) =
    some "-1d-2h-3m-4s".toList := by
  decide

end FsPkg.Timestr
