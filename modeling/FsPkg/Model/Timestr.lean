import FsPkg.Model.Conf
import FsPkg.Model.DbSqlite

/-! # Time strings: `nn2_timestr_to_time` and `nn2_time_to_timestr`

`time_t` and `long` are signed words of 64 bits; a product or a sum that does not fit has no defined value. The
static buffer keeps what earlier calls left in it, and a write behind its end has no defined effect.
-/

namespace FsPkg.Timestr

open Pkg (Text)
open Conf (cString)
open Db (printInt)

/-! ## The C library -/

/-- `isspace`. -/
def isSpace (c : Char) : Bool := c = ' ' || ('\t' ≤ c && c ≤ '\r')

/-- The value of a digit or of a letter that stands for one. -/
def digitValue (c : Char) : ℕ :=
  if c.isDigit then c.toNat - '0'.toNat
  else if c.isLower then c.toNat - 'a'.toNat + 10
  else if c.isUpper then c.toNat - 'A'.toNat + 10
  else 36

/-- The base that `strtol` detects when it is given 0, and the text behind the sign of that base. -/
def detectBase : Text → ℕ × Text
  | '0' :: x :: c :: rest =>
    if (x = 'x' ∨ x = 'X') ∧ digitValue c < 16 then (16, c :: rest) else (8, '0' :: x :: c :: rest)
  | '0' :: rest => (8, '0' :: rest)
  | text => (10, text)

/-- The number that the digits at the beginning of the text give. -/
def magnitude (base : ℕ) (text : Text) : ℕ :=
  (text.takeWhile (digitValue · < base)).foldl (fun acc c => acc * base + digitValue c) 0

/-- `strtol(s, NULL, 0)`. -/
def strtol (s : Text) : ℤ :=
  let s := s.dropWhile isSpace
  let negative := s.head? = some '-'
  let (base, digits) := detectBase (if s.head? = some '-' ∨ s.head? = some '+' then s.tail else s)
  let value : ℤ := if negative then -magnitude base digits else magnitude base digits
  max Int64.minValue.toInt (min value Int64.maxValue.toInt)

/-- `strchr`, whose caller ends the string at the character found: the text in front of it, and the text behind. -/
def strchr (s : Text) (c : Char) : Option (Text × Text) :=
  if c ∈ s then some (s.takeWhile (· ≠ c), (s.dropWhile (· ≠ c)).tail) else none

/-- The result of arithmetic on `long`. -/
def long (n : ℤ) : Option ℤ :=
  if Int64.minValue.toInt ≤ n ∧ n ≤ Int64.maxValue.toInt then some n else none

/-! ## `nn2_timestr_to_time` -/

/-- `ret += strtol(s, NULL, 0) * scale`. -/
def addScaled (number : Text) (scale ret : ℤ) : Option ℤ := do
  let product ← long (strtol number * scale)
  long (ret + product)

/-- The search for one unit: what is left of the text, and `ret`. -/
def takeUnit (unit : Char) (scale : ℤ) (state : Text × ℤ) : Option (Text × ℤ) :=
  match strchr state.1 unit with
  | none => some state
  | some (number, rest) => (addScaled number scale state.2).map (rest, ·)

/-- `nn2_timestr_to_time`. -/
def nn2TimestrToTime (str : Option Text) (fallback : Int64) : Option Int64 :=
  match str with
  | none => some fallback
  | some str => do
    let state ← takeUnit 'd' 86400 (str.map Char.toLower, 0)
    let state ← takeUnit 'h' 3600 state
    let state ← takeUnit 'm' 60 state
    let ret ← long (state.2 + strtol state.1)
    some (Int64.ofInt ret)

/-! ## `nn2_time_to_timestr` -/

/-- `sizeof(rbuf)`, and the size that every `snprintf` is given. -/
def sizeofRbuf : ℕ := 64

/-- `static char rbuf[64]`. -/
structure Rbuf where
  bytes : Text
  size : bytes.length = sizeofRbuf

/-- The buffer with the characters written from an offset on. -/
def Rbuf.write (rbuf : Rbuf) (offset : ℕ) (data : Text) : Option Rbuf :=
  if fits : offset + data.length ≤ sizeofRbuf then
    some ⟨rbuf.bytes.take offset ++ data ++ rbuf.bytes.drop (offset + data.length), by
      have size := rbuf.size
      simp only [List.length_append, List.length_take, List.length_drop]
      omega⟩
  else none

/-- `if (n) rlen += snprintf(rbuf + rlen, 64, "%d" unit, n)`. -/
def addUnit (unit : Char) (n : Int32) (state : Rbuf × ℕ) : Option (Rbuf × ℕ) :=
  if n = 0 then some state
  else
    let text := printInt n ++ [unit]
    (state.1.write state.2 (text.take (sizeofRbuf - 1) ++ ['\x00'])).map (·, state.2 + text.length)

/-- `nn2_time_to_timestr`; the string is in the buffer. -/
def nn2TimeToTimestr (itime : Int64) (rbuf : Rbuf) : Option Rbuf := do
  let d := (itime / 86400).toInt32
  let itime := itime % 86400
  let h := (itime / 3600).toInt32
  let itime := itime % 3600
  let m := (itime / 60).toInt32
  let itime := itime % 60
  let s := itime.toInt32
  let state ← addUnit 'd' d (rbuf, 0)
  let state ← addUnit 'h' h state
  let state ← addUnit 'm' m state
  let (rbuf, rlen) ← addUnit 's' s state
  if rlen = 0 then rbuf.write 0 ['0', 's', '\x00'] else some rbuf

end FsPkg.Timestr
