import FsPkg.Model.PkgCache

/-! # Decoding base64: `xar/b64.c`

Bytes are numbers below 256. The loop goes on past the length it is given until it has seen padding or the end of the
text; it writes to memory that `malloc` has left as it was, and sets no end of its own.
-/

namespace FsPkg.Xar

open Pkg (Text)

/-- `b64revtb`. -/
def b64revtb (c : Char) : ℤ :=
  if c = '\x00' then -3
  else if c = '=' then -2
  else if c = '+' then 62
  else if c = '/' then 63
  else if 48 ≤ c.toNat ∧ c.toNat ≤ 57 then c.toNat - 48 + 52
  else if 65 ≤ c.toNat ∧ c.toNat ≤ 90 then c.toNat - 65
  else if 97 ≤ c.toNat ∧ c.toNat ≤ 122 then c.toNat - 97 + 26
  else -1

/-- The variables of `raw_base64_decode`, with what is written so far. -/
structure B64 where
  i : ℕ := 0
  ignr : ℕ := 0
  buf0 : ℕ
  buf1 : ℕ
  buf2 : ℕ
  pad : ℕ := 0
  output : List ℕ := []
deriving DecidableEq, Repr

namespace B64

/-- `*output++ = buf[x]` for `x` below `3 - pad`. -/
def write (s : B64) : B64 := { s with output := s.output ++ [s.buf0, s.buf1, s.buf2].take (3 - s.pad) }

/-- The inner `switch`, on the place in the group of four. -/
def digit (s : B64) (k x : ℕ) : B64 :=
  match k with
  | 0 => { s with buf0 := x * 4 % 256 }
  | 1 => { s with buf0 := s.buf0 ||| x / 16, buf1 := x * 16 % 256 }
  | 2 => { s with buf1 := s.buf1 ||| x / 4, buf2 := x * 64 % 256 }
  | _ => { s with buf2 := s.buf2 ||| x }.write

/-- The condition of the loop. -/
def more (s : B64) (len : ℕ) : Bool := s.i < len || s.pad = 0

/-- What follows the loop: the code, and all that was written. -/
def finish (s : B64) (len : ℕ) : ℕ × List ℕ :=
  if s.i > len then (2, s.output) else (0, s.write.output)

end B64

/-- `raw_base64_decode`, on the memory from `input + i` on; past its end there is no result. -/
def rawBase64Decode (len : ℕ) (s : B64) : Text → Option (ℕ × List ℕ)
  | [] => if s.more len then none else some (s.finish len)
  | c :: rest =>
    if !s.more len then some (s.finish len)
    else
      let s := { s with i := s.i + 1 }
      let k := (s.i - s.ignr - 1) % 4
      if b64revtb c = -3 then some (if k = 0 then 0 else 1, s.output)
      else if b64revtb c = -2 then
        if k < 2 then some (1, s.output)
        else if k = 2 then
          match rest with
          | [] => none
          | next :: _ =>
            if next ≠ '=' then some (1, s.output)
            else rawBase64Decode len { s with buf2 := 0, pad := 2 } rest
        else rawBase64Decode len { s with pad := 1 } rest
      else if b64revtb c = -1 then rawBase64Decode len { s with ignr := s.ignr + 1 } rest
      else rawBase64Decode len (s.digit k (b64revtb c).toNat) rest

/-- `xar_from_base64` on a text, where it is allocated memory with the given content: the text its result is taken
for, up to the first zero, or past its end. -/
def xarFromBase64 (buf : ℕ × ℕ × ℕ) (memory : List ℕ) (input : Text) : Option Text :=
  match rawBase64Decode input.length { buf0 := buf.1, buf1 := buf.2.1, buf2 := buf.2.2 } (input ++ ['\x00']) with
  | some (0, output) => some (((output ++ memory.drop output.length).takeWhile (· ≠ 0)).map Char.ofNat)
  | _ => none

end FsPkg.Xar
