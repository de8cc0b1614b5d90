import FsPkg.Proofs.TimestrRoundTrip

/-! # The documented format of time strings

`[Xd][Xh][Xm][X][s]`, each `X` a row of decimal digits. `strtol` is left to detect the base, so a number with a
leading zero is read as octal and cut short at the first 8 or 9. That never gives more than the decimal number, and
gives the same only below 8; no number can make up for another one, so the whole string is read as documented exactly
if each of its numbers is.
-/

namespace FsPkg.Timestr

open Pkg (Text)

/-- A row of digits. -/
structure Number where
  digits : Text
  nonempty : digits ≠ []
  decimal : ∀ c ∈ digits, c.isDigit

namespace Number

/-- The decimal number. -/
def value (x : Number) : ℕ := Nat.ofDigitChars 10 x.digits 0

/-- What `strtol` makes of it. -/
def read (x : Number) : ℕ := if x.digits.head? = some '0' then magnitude 8 x.digits else x.value

/-- The number has no leading zero, or is below 8. -/
def Plain (x : Number) : Prop := x.digits.head? ≠ some '0' ∨ x.value < 8

end Number

/-! ## Octal and decimal -/

/-- The digits read on from a number, in octal. -/
def octalFrom (acc : ℕ) (digits : Text) : ℕ :=
  (digits.takeWhile (digitValue · < 8)).foldl (fun acc c => acc * 8 + digitValue c) acc

section Digits

variable {c : Char} {rest digits : Text} {acc acc' : ℕ}

theorem octalFrom_cons_of_lt (low : digitValue c < 8) :
    octalFrom acc (c :: rest) = octalFrom (acc * 8 + digitValue c) rest := by
  simp only [octalFrom, List.takeWhile_cons, low, decide_true, if_true, List.foldl_cons]

theorem octalFrom_cons_of_le (high : 8 ≤ digitValue c) : octalFrom acc (c :: rest) = acc := by
  have stops : ¬digitValue c < 8 := by omega
  simp only [octalFrom, List.takeWhile_cons, stops, decide_false, Bool.false_eq_true, if_false, List.foldl_nil]

theorem ofDigitChars_cons_digit (digit : c.isDigit) :
    Nat.ofDigitChars 10 (c :: rest) acc = Nat.ofDigitChars 10 rest (acc * 10 + digitValue c) := by
  rw [Nat.ofDigitChars_cons, digitValue_of_isDigit digit, Nat.mul_comm]

theorem le_ofDigitChars (digits : Text) (acc : ℕ) : acc ≤ Nat.ofDigitChars 10 digits acc := by
  induction digits generalizing acc with
  | nil => rw [Nat.ofDigitChars_nil]
  | cons c rest ih =>
    rw [Nat.ofDigitChars_cons]
    have more := ih (10 * acc + (c.toNat - '0'.toNat))
    omega

/-- Octal digits never catch up. -/
theorem octalFrom_lt (decimal : ∀ c ∈ digits, c.isDigit) (less : acc < acc') :
    octalFrom acc digits < Nat.ofDigitChars 10 digits acc' := by
  induction digits generalizing acc acc' with
  | nil => exact less
  | cons c rest ih =>
    obtain ⟨digit, decimal⟩ := List.forall_mem_cons.mp decimal
    rw [ofDigitChars_cons_digit digit]
    by_cases low : digitValue c < 8
    · rw [octalFrom_cons_of_lt low]
      exact ih decimal (by omega)
    · rw [octalFrom_cons_of_le (by omega)]
      have more := le_ofDigitChars rest (acc' * 10 + digitValue c)
      omega

/-- One more digit is enough to fall behind. -/
theorem octalFrom_lt_of_pos (decimal : ∀ c ∈ digits, c.isDigit) (nonempty : digits ≠ []) (positive : 0 < acc) :
    octalFrom acc digits < Nat.ofDigitChars 10 digits acc := by
  obtain ⟨c, rest, rfl⟩ := List.exists_cons_of_ne_nil nonempty
  obtain ⟨digit, decimal⟩ := List.forall_mem_cons.mp decimal
  rw [ofDigitChars_cons_digit digit]
  by_cases low : digitValue c < 8
  · rw [octalFrom_cons_of_lt low]
    exact octalFrom_lt decimal (by omega)
  · rw [octalFrom_cons_of_le (by omega)]
    have more := le_ofDigitChars rest (acc * 10 + digitValue c)
    omega

/-- A row of digits is the same number in octal as in decimal, or it is at least 8 and falls behind. -/
theorem octal_decimal (decimal : ∀ c ∈ digits, c.isDigit) :
    (octalFrom 0 digits = Nat.ofDigitChars 10 digits 0 ∧ Nat.ofDigitChars 10 digits 0 < 8) ∨
      (octalFrom 0 digits < Nat.ofDigitChars 10 digits 0 ∧ 8 ≤ Nat.ofDigitChars 10 digits 0) := by
  induction digits with
  | nil => exact .inl ⟨rfl, by decide⟩
  | cons c rest ih =>
    obtain ⟨digit, decimal⟩ := List.forall_mem_cons.mp decimal
    rw [ofDigitChars_cons_digit digit, Nat.zero_mul, Nat.zero_add]
    by_cases low : digitValue c < 8
    · rw [octalFrom_cons_of_lt low, Nat.zero_mul, Nat.zero_add]
      by_cases zero : digitValue c = 0
      · rw [zero]
        exact ih decimal
      · cases rest with
        | nil => exact .inl ⟨rfl, low⟩
        | cons next rest =>
          refine .inr ⟨octalFrom_lt_of_pos decimal (List.cons_ne_nil _ _) (by omega), ?_⟩
          obtain ⟨nextDigit, -⟩ := List.forall_mem_cons.mp decimal
          have more := le_ofDigitChars rest (digitValue c * 10 + digitValue next)
          rw [ofDigitChars_cons_digit nextDigit]
          omega
    · have more := le_ofDigitChars rest (digitValue c)
      rw [octalFrom_cons_of_le (by omega)]
      exact .inr ⟨by omega, by omega⟩

theorem magnitude_octal (digits : Text) {tail : Text} (ends : Ends tail) :
    magnitude 8 (digits ++ tail) = octalFrom 0 digits := by
  have taken : (digits ++ tail).takeWhile (digitValue · < 8) = digits.takeWhile (digitValue · < 8) := by
    rw [List.takeWhile_append]
    split
    · rename_i whole
      rw [takeWhile_ends (by decide) ends, List.append_nil, (List.takeWhile_prefix _).eq_of_length whole]
    · rfl
  rw [magnitude, taken, octalFrom]

end Digits

namespace Number

variable {x : Number}

theorem read_of_zero (zero : x.digits.head? = some '0') : x.read = octalFrom 0 x.digits := by
  have alone := magnitude_octal x.digits (show Ends [] by intro c none; cases none)
  rw [List.append_nil] at alone
  rw [read, if_pos zero, alone]

theorem read_le_value (x : Number) : x.read ≤ x.value := by
  by_cases zero : x.digits.head? = some '0'
  · rw [read_of_zero zero]
    rcases octal_decimal x.decimal with ⟨same, -⟩ | ⟨less, -⟩
    · exact same.le
    · exact less.le
  · rw [read, if_neg zero]

/-- `strtol` reads the decimal number of plain numbers only. -/
theorem read_eq_value_iff (x : Number) : x.read = x.value ↔ x.Plain := by
  by_cases zero : x.digits.head? = some '0'
  · have octal : x.Plain ↔ x.value < 8 := by simp only [Plain, zero, ne_eq, not_true_eq_false, false_or]
    rw [read_of_zero zero, octal]
    rcases octal_decimal x.decimal with ⟨same, small⟩ | ⟨less, large⟩
    · exact iff_of_true same small
    · exact iff_of_false less.ne (Nat.not_lt.mpr large)
  · rw [read, if_neg zero]
    exact iff_of_true rfl (.inl zero)

end Number

/-- There is no letter of the base `x` among the digits, and the text behind them does not bring one in. -/
theorem detectBase_octal {rest tail : Text} (decimal : ∀ c ∈ rest, c.isDigit) (ends : tail = [] ∨ tail = ['s']) :
    detectBase ('0' :: (rest ++ tail)) = (8, '0' :: (rest ++ tail)) := by
  rcases rest with _ | ⟨x, _ | ⟨c, rest⟩⟩
  · rcases ends with rfl | rfl <;> rfl
  · have small : ¬(x = 'x' ∨ x = 'X') := by
      rintro (rfl | rfl) <;> exact absurd (decimal _ List.mem_cons_self) (by decide)
    rcases ends with rfl | rfl
    · rfl
    · exact if_neg fun hex => small hex.1
  · have small : ¬(x = 'x' ∨ x = 'X') := by
      rintro (rfl | rfl) <;> exact absurd (decimal _ List.mem_cons_self) (by decide)
    exact if_neg fun hex => small hex.1

/-- `strtol` on a number and what may follow it. -/
theorem strtol_number (x : Number) (fits : x.value < 2 ^ 63) {tail : Text} (ends : tail = [] ∨ tail = ['s']) :
    strtol (x.digits ++ tail) = x.read := by
  have behind : Ends tail := by
    rcases ends with rfl | rfl
    · intro c none
      cases none
    · intro c last
      cases last
      decide
  have small := x.read_le_value
  have clamp : max Int64.minValue.toInt (min (x.read : ℤ) Int64.maxValue.toInt) = x.read := by
    have least : Int64.minValue.toInt = -9223372036854775808 := rfl
    have most : Int64.maxValue.toInt = 9223372036854775807 := rfl
    omega
  obtain ⟨first, rest, same⟩ := List.exists_cons_of_ne_nil x.nonempty
  have decimal := x.decimal
  rw [same] at decimal
  obtain ⟨digit, others⟩ := List.forall_mem_cons.mp decimal
  by_cases zero : x.digits.head? = some '0'
  · have octal := magnitude_octal x.digits behind
    rw [← Number.read_of_zero zero, same, List.cons_append] at octal
    rw [same] at zero ⊢
    obtain rfl : first = '0' := Option.some.inj zero
    rw [List.cons_append, strtol_unsigned digit (detectBase_octal others ends), octal, clamp]
  · have detected : detectBase (x.digits ++ tail) = (10, x.digits ++ tail) := by
      apply detectBase_decimal
      rwa [List.head?_append_of_ne_nil _ x.nonempty]
    have decimalValue := magnitude_decimal x.decimal behind
    have plain : x.read = x.value := by rw [Number.read, if_neg zero]
    rw [plain] at clamp ⊢
    rw [same, List.cons_append] at detected decimalValue ⊢
    rw [strtol_unsigned digit detected, decimalValue, ← same]
    exact clamp

/-! ## The format -/

/-- A unit letter in either case. -/
def letter (unit : Char) (upper : Bool) : Char := if upper then unit.toUpper else unit

/-- A number with its unit letter, which may be upper case. -/
abbrev Counted := Option (Number × Bool)

def Counted.render (unit : Char) : Counted → Text
  | none => []
  | some (x, upper) => x.digits ++ [letter unit upper]

def Counted.value (x : Counted) : ℕ := x.elim 0 (·.1.value)

def Counted.read (x : Counted) : ℕ := x.elim 0 (·.1.read)

/-- `[Xd][Xh][Xm][X][s]`. -/
structure TimeString where
  days : Counted
  hours : Counted
  minutes : Counted
  seconds : Option Number
  unit : Option Bool

namespace TimeString

/-- The text in either case. -/
def render (s : TimeString) : Text :=
  s.days.render 'd' ++ (s.hours.render 'h' ++ (s.minutes.render 'm' ++
    (s.seconds.elim [] Number.digits ++ s.unit.elim [] fun upper => [letter 's' upper])))

/-- The numbers that are present. -/
def numbers (s : TimeString) : List Number :=
  s.days.toList.map Prod.fst ++ s.hours.toList.map Prod.fst ++ s.minutes.toList.map Prod.fst ++ s.seconds.toList

/-- The time that the string stands for. -/
def total (s : TimeString) : ℕ :=
  86400 * s.days.value + 3600 * s.hours.value + 60 * s.minutes.value + s.seconds.elim 0 Number.value

/-- The time that it is read as. -/
def read (s : TimeString) : ℕ :=
  86400 * s.days.read + 3600 * s.hours.read + 60 * s.minutes.read + s.seconds.elim 0 Number.read

end TimeString

/-! ## Reading it -/

theorem toLower_digits (x : Number) : x.digits.map Char.toLower = x.digits := by
  calc x.digits.map Char.toLower
      = x.digits.map id := List.map_congr_left fun c member => Numeral.toLower (.inr (x.decimal c member))
    _ = x.digits := List.map_id _

theorem absent_digits {unit : Char} (notDigit : unit.isDigit = false) (x : Number) : unit ∉ x.digits :=
  fun member => ne_of_isDigit (x.decimal unit member) notDigit rfl

theorem absent_counted {unit other : Char} (notDigit : unit.isDigit = false) (different : unit ≠ other)
    (lower : ∀ upper, (letter other upper).toLower = other) (x : Counted) :
    unit ∉ (x.render other).map Char.toLower := by
  cases x with
  | none => exact List.not_mem_nil
  | some counted =>
    obtain ⟨x, upper⟩ := counted
    rw [Counted.render, List.map_append, toLower_digits, List.map_singleton, lower, List.mem_append,
      List.mem_singleton, not_or]
    exact ⟨absent_digits notDigit x, different⟩

theorem Counted.read_le_value (x : Counted) : x.read ≤ x.value := by
  cases x with
  | none => exact le_rfl
  | some counted => exact counted.1.read_le_value

theorem long_natCast {n : ℕ} (small : n < 2 ^ 63) : long n = some (n : ℤ) :=
  long_of_bounds (by omega) (by omega)

/-- The parser takes off one number with its unit. -/
theorem takeUnit_counted {unit : Char} (notDigit : unit.isDigit = false)
    (lower : ∀ upper, (letter unit upper).toLower = unit) (x : Counted) {rest : Text} (absent : unit ∉ rest)
    (scale ret : ℕ) (positive : 0 < scale) (fits : ret + scale * x.value < 2 ^ 63) :
    takeUnit unit scale ((x.render unit).map Char.toLower ++ rest, ret) = some (rest, ↑(ret + scale * x.read)) := by
  cases x with
  | none => rw [Counted.render, List.map_nil, List.nil_append, takeUnit, strchr_none absent]; rfl
  | some counted =>
    obtain ⟨x, upper⟩ := counted
    have less : scale * x.read ≤ scale * x.value := Nat.mul_le_mul_left _ x.read_le_value
    have single : x.value ≤ scale * x.value := Nat.le_mul_of_pos_left _ positive
    change ret + scale * x.value < 2 ^ 63 at fits
    have number : strtol x.digits = x.read := by
      have whole := strtol_number x (by omega) (.inl rfl)
      rwa [List.append_nil] at whole
    have scaled : (x.read * scale : ℤ) = ↑(scale * x.read) := by
      push_cast
      exact Int.mul_comm _ _
    have added : addScaled x.digits scale ret = some ↑(ret + scale * x.read) := by
      rw [addScaled, number, scaled, long_natCast (by omega)]
      exact long_natCast (by omega)
    rw [Counted.render, List.map_append, toLower_digits, List.map_singleton, lower, List.append_assoc,
      List.singleton_append, takeUnit, strchr_append (absent_digits notDigit x)]
    simp only [added, Option.map_some]
    rfl

/-- What is left when the units are taken off. -/
theorem strtol_seconds (s : TimeString) (fits : s.seconds.elim 0 Number.value < 2 ^ 63) :
    strtol ((s.seconds.elim [] Number.digits ++ s.unit.elim [] fun upper => [letter 's' upper]).map Char.toLower) =
      s.seconds.elim 0 Number.read := by
  have last : (s.unit.elim [] fun upper => [letter 's' upper]).map Char.toLower = [] ∨
      (s.unit.elim [] fun upper => [letter 's' upper]).map Char.toLower = ['s'] := by
    rcases s.unit with _ | _ | _
    · exact .inl rfl
    · exact .inr (by decide)
    · exact .inr (by decide)
  rw [List.map_append]
  cases seconds : s.seconds with
  | none =>
    rcases last with none | letter
    · simp only [Option.elim_none, List.map_nil, none, List.append_nil]
      decide
    · simp only [Option.elim_none, List.map_nil, letter, List.nil_append]
      decide
  | some x =>
    rw [seconds] at fits
    simp only [Option.elim_some, toLower_digits]
    exact strtol_number x fits last

theorem absent_seconds {unit : Char} (notDigit : unit.isDigit = false) (different : unit ≠ 's') (s : TimeString) :
    unit ∉ (s.seconds.elim [] Number.digits ++ s.unit.elim [] fun upper => [letter 's' upper]).map Char.toLower := by
  rw [List.map_append, List.mem_append, not_or]
  constructor
  · cases s.seconds with
    | none => exact List.not_mem_nil
    | some x =>
      rw [Option.elim_some, toLower_digits]
      exact absent_digits notDigit x
  · rcases s.unit with _ | _ | _
    · exact List.not_mem_nil
    · exact fun member => different (List.mem_singleton.mp member)
    · exact fun member => different (List.mem_singleton.mp member)

theorem TimeString.read_le_total (s : TimeString) : s.read ≤ s.total := by
  have days := s.days.read_le_value
  have hours := s.hours.read_le_value
  have minutes := s.minutes.read_le_value
  have seconds : s.seconds.elim 0 Number.read ≤ s.seconds.elim 0 Number.value := by
    cases s.seconds with
    | none => exact le_rfl
    | some x => exact x.read_le_value
  rw [TimeString.read, TimeString.total]
  omega

/-- The parser adds up what `strtol` makes of the numbers. -/
theorem nn2TimestrToTime_render (s : TimeString) (fallback : Int64) (fits : s.total < 2 ^ 63) :
    nn2TimestrToTime (some s.render) fallback = some (Int64.ofInt s.read) := by
  have whole := fits
  rw [TimeString.total] at whole
  have lessDays := s.days.read_le_value
  have lessHours := s.hours.read_le_value
  have lessMinutes := s.minutes.read_le_value
  have noDays : 'd' ∉ (s.hours.render 'h').map Char.toLower ++ ((s.minutes.render 'm').map Char.toLower ++
      (s.seconds.elim [] Number.digits ++ s.unit.elim [] fun upper => [letter 's' upper]).map Char.toLower) := by
    simp only [List.mem_append, not_or]
    exact ⟨absent_counted rfl (by decide) (by decide) _, absent_counted rfl (by decide) (by decide) _,
      absent_seconds rfl (by decide) s⟩
  have noHours : 'h' ∉ (s.minutes.render 'm').map Char.toLower ++
      (s.seconds.elim [] Number.digits ++ s.unit.elim [] fun upper => [letter 's' upper]).map Char.toLower := by
    simp only [List.mem_append, not_or]
    exact ⟨absent_counted rfl (by decide) (by decide) _, absent_seconds rfl (by decide) s⟩
  have noMinutes : 'm' ∉
      (s.seconds.elim [] Number.digits ++ s.unit.elim [] fun upper => [letter 's' upper]).map Char.toLower :=
    absent_seconds rfl (by decide) s
  have days := takeUnit_counted rfl (by decide) s.days noDays 86400 0 (by decide) (by omega)
  have hours := takeUnit_counted rfl (by decide) s.hours noHours 3600 (0 + 86400 * s.days.read) (by decide) (by omega)
  have minutes := takeUnit_counted rfl (by decide) s.minutes noMinutes 60
    (0 + 86400 * s.days.read + 3600 * s.hours.read) (by decide) (by omega)
  have seconds := strtol_seconds s (by omega)
  have sum : ((0 + 86400 * s.days.read + 3600 * s.hours.read + 60 * s.minutes.read : ℕ) : ℤ) +
      (s.seconds.elim 0 Number.read : ℕ) = (s.read : ℕ) := by
    rw [TimeString.read]
    push_cast
    omega
  have last := long_natCast (lt_of_le_of_lt s.read_le_total fits)
  have lowered : s.render.map Char.toLower = (s.days.render 'd').map Char.toLower ++
      ((s.hours.render 'h').map Char.toLower ++ ((s.minutes.render 'm').map Char.toLower ++
        (s.seconds.elim [] Number.digits ++ s.unit.elim [] fun upper => [letter 's' upper]).map Char.toLower)) := by
    rw [TimeString.render, List.map_append, List.map_append, List.map_append]
  simp only [Nat.cast_ofNat, Nat.cast_zero] at days hours minutes
  simp only [nn2TimestrToTime]
  rw [lowered, days, Option.bind_eq_bind, Option.bind_some, hours, Option.bind_eq_bind, Option.bind_some, minutes]
  simp only [seconds, sum, last, Option.bind_some]

theorem Counted.read_eq_value_iff (x : Counted) : x.read = x.value ↔ ∀ y ∈ x.toList.map Prod.fst, y.Plain := by
  cases x with
  | none => exact iff_of_true rfl fun y member => absurd member List.not_mem_nil
  | some counted =>
    change counted.1.read = counted.1.value ↔ ∀ y ∈ [counted.1], y.Plain
    rw [List.forall_mem_singleton, Number.read_eq_value_iff]

/-- No number makes up for another one. -/
theorem TimeString.read_eq_total_iff (s : TimeString) : s.read = s.total ↔ ∀ x ∈ s.numbers, x.Plain := by
  have days := s.days.read_le_value
  have hours := s.hours.read_le_value
  have minutes := s.minutes.read_le_value
  have seconds : s.seconds.elim 0 Number.read ≤ s.seconds.elim 0 Number.value ∧
      (s.seconds.elim 0 Number.read = s.seconds.elim 0 Number.value ↔ ∀ x ∈ s.seconds.toList, x.Plain) := by
    cases s.seconds with
    | none => exact ⟨le_rfl, iff_of_true rfl fun x member => absurd member List.not_mem_nil⟩
    | some x =>
      refine ⟨x.read_le_value, ?_⟩
      rw [Option.toList_some, List.forall_mem_singleton]
      exact x.read_eq_value_iff
  have parts : s.read = s.total ↔ ((s.days.read = s.days.value ∧ s.hours.read = s.hours.value) ∧
      s.minutes.read = s.minutes.value) ∧ s.seconds.elim 0 Number.read = s.seconds.elim 0 Number.value := by
    rw [TimeString.read, TimeString.total]
    constructor
    · intro same
      refine ⟨⟨⟨?_, ?_⟩, ?_⟩, ?_⟩ <;> omega
    · rintro ⟨⟨⟨sameDays, sameHours⟩, sameMinutes⟩, sameSeconds⟩
      rw [sameDays, sameHours, sameMinutes, sameSeconds]
  rw [parts, Counted.read_eq_value_iff, Counted.read_eq_value_iff, Counted.read_eq_value_iff, seconds.2,
    TimeString.numbers]
  simp only [List.forall_mem_append]

/-- A string of the documented format is read as the time it stands for exactly if each of its numbers has no
leading zero or is below 8. -/
theorem nn2TimestrToTime_documented_iff (s : TimeString) (fallback : Int64) (fits : s.total < 2 ^ 63) :
    (∃ t, nn2TimestrToTime (some s.render) fallback = some t ∧ t.toInt = s.total) ↔ ∀ x ∈ s.numbers, x.Plain := by
  have small := s.read_le_total
  have exactly : (Int64.ofInt s.read).toInt = s.read :=
    Int64.toInt_ofInt_of_le (by omega) (by omega)
  rw [nn2TimestrToTime_render s fallback fits, ← TimeString.read_eq_total_iff]
  constructor
  · rintro ⟨t, read, total⟩
    obtain rfl := Option.some.inj read
    rw [exactly] at total
    exact_mod_cast total
  · intro same
    refine ⟨_, rfl, ?_⟩
    rw [exactly, same]

/-- `1D07h30M0s`. -/
def sampleTime : TimeString where
  days := some (⟨['1'], by decide, by simp⟩, true)
  hours := some (⟨['0', '7'], by decide, by simp⟩, false)
  minutes := some (⟨['3', '0'], by decide, by simp⟩, true)
  seconds := some ⟨['0'], by decide, by simp⟩
  unit := some false

theorem nn2TimestrToTime_documented_sample : sampleTime.render = "1D07h30M0s".toList ∧ sampleTime.total < 2 ^ 63 ∧
    ∃ t, nn2TimestrToTime (some sampleTime.render) 60 = some t ∧ t.toInt = 113400 := by
  have plain : ∀ x ∈ sampleTime.numbers, x.Plain := by
    intro x member
    simp only [TimeString.numbers, sampleTime, Option.toList_some, List.map_cons, List.map_nil, List.cons_append,
      List.nil_append, List.mem_cons, List.not_mem_nil, or_false] at member
    rcases member with rfl | rfl | rfl | rfl
    · exact .inl (by decide)
    · exact .inr (by decide)
    · exact .inl (by decide)
    · exact .inr (by decide)
  obtain ⟨t, read, total⟩ := (nn2TimestrToTime_documented_iff sampleTime 60 (by decide)).mpr plain
  exact ⟨by decide, by decide, t, read, total⟩

/-- `010m`. -/
def tenMinutes : TimeString where
  days := none
  hours := none
  minutes := some (⟨['0', '1', '0'], by decide, by simp⟩, false)
  seconds := none
  unit := none

/-- Ten minutes are read as eight. -/
theorem nn2TimestrToTime_not_documented : tenMinutes.render = "010m".toList ∧ tenMinutes.total = 600 ∧
    nn2TimestrToTime (some tenMinutes.render) 60 = some 480 ∧
    ¬∃ t, nn2TimestrToTime (some tenMinutes.render) 60 = some t ∧ t.toInt = tenMinutes.total := by
  have read : nn2TimestrToTime (some tenMinutes.render) 60 = some 480 := by decide
  refine ⟨by decide, by decide, read, ?_⟩
  rintro ⟨t, same, total⟩
  obtain rfl := Option.some.inj (read.symm.trans same)
  exact absurd total (by decide)

end FsPkg.Timestr
