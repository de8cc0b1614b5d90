import FsPkg.Model.Dictionary

/-! # Reading the configuration file: `dconf_init` and the string helpers of `str.c`

The file is a stream of characters, behind which comes its end or a read error that stays. Only the end
stops the loop of `dconf_init`, so it is run for a number of iterations and a run that is cut off says so.
Strings end at their first NUL. The line counter, which nothing reads, is left out; the file is opened.
-/

namespace FsPkg.Conf

open Pkg (Text)

/-- `FILE *`: the characters not yet read, whether an error comes behind them, and `feof`. -/
structure Stream where
  rest : Text
  fails : Bool := false
  eof : Bool := false
deriving DecidableEq, Repr

/-- The characters that `fgets` reads, at most so many and up to a newline; those left; and whether it came to
the end of the stream. -/
def fgetsLoop : ℕ → Text → Text × Text × Bool
  | 0, rest => ([], rest, false)
  | _ + 1, [] => ([], [], true)
  | room + 1, c :: rest =>
    if c = '\n' then ([c], rest, false)
    else
      let (line, rest, ended) := fgetsLoop room rest
      (c :: line, rest, ended)

/-- `fgets` into a zeroed buffer of the given size. -/
def fgets (size : ℕ) (fp : Stream) : Text × Stream :=
  let (line, rest, ended) := fgetsLoop (size - 1) fp.rest
  (line, { fp with rest, eof := fp.eof || (ended && !fp.fails) })

/-- The string in a buffer. -/
def cString (buf : Text) : Text :=
  buf.takeWhile (· ≠ '\x00')

/-- `str_strip`. -/
def strStrip (line : Text) : Text :=
  if '\r' ∈ line then line.takeWhile (· ≠ '\r')
  else line.takeWhile (· ≠ '\n')

def isBlank (c : Char) : Bool := c = ' ' || c = '\t'

/-- `str_whitespace_skip`. -/
def strWhitespaceSkip (str : Text) : Text :=
  str.dropWhile isBlank

/-- `str_unquote`; `index` reads through `NULL`. -/
def strUnquote : Option Text → Option Text
  | none => none
  | some str =>
    let str := if str.head? = some '"' then str.tail else str
    some (str.takeWhile (· ≠ '"'))

/-- The text from `*p` up to the first `=`, and the text behind it if there is one. -/
def splitAssignment (p : Text) : Text × Option Text :=
  (p.takeWhile (· ≠ '='), if '=' ∈ p then some (p.dropWhile (· ≠ '=')).tail else none)

/-- What is left of a line in the buffer once `str_strip` and `str_whitespace_skip` have passed over it. -/
def stripped (buf : Text) : Text :=
  strWhitespaceSkip (strStrip (cString buf))

/-- The body of the loop up to `dconf_set`: the comment flag, and the arguments if the call is reached. -/
def dconfLine (buf : Text) (inComment : Bool) : Option (Bool × Option (Text × Text)) :=
  let p := stripped buf
  if p = [] then some (inComment, none)
  else if ['*', '/'] <+: p then some (false, none)
  else if [';'] <+: p ∨ ['#'] <+: p ∨ ['/', '/'] <+: p then some (inComment, none)
  else
    let inComment := if ['/', '*'] <+: p then true else inComment
    if inComment then some (inComment, none)
    else
      let (key, val) := splitAssignment p
      (strUnquote val).map fun val => (inComment, some (key, val))

/-- How `dconf_init` ends: with the dictionary, in undefined behaviour, or not within the iterations. -/
inductive Init where
  | returned (dict : Option Dictionary)
  | fault
  | running
deriving DecidableEq, Repr

/-- `sizeof(buf)`. -/
def sizeofBuf : ℕ := 512

/-- The `while` loop of `dconf_init`. -/
def dconfLoop : ℕ → Stream → Bool → Option Dictionary → Init
  | 0, _, _, _ => .running
  | fuel + 1, fp, inComment, dict =>
    if fp.eof then .returned dict
    else
      let (buf, fp) := fgets sizeofBuf fp
      match dconfLine buf inComment with
      | none => .fault
      | some (inComment, none) => dconfLoop fuel fp inComment dict
      | some (inComment, some (key, val)) =>
        match dconfSet dict (some key) (some val) {} with
        | none => .fault
        | some (_, dict) => dconfLoop fuel fp inComment dict

/-- `dconf_init` on an opened file. -/
def dconfInit (file : Stream) (iterations : ℕ) : Init :=
  dconfLoop iterations file false (some (dictionaryNew 0))

/-- A call of `dconf_set`: the position in the file where the text in the buffer starts, the arguments, and whether the
call returned. -/
structure SetCall where
  offset : ℕ
  key : Text
  val : Text
  returned : Bool
deriving DecidableEq, Repr

/-- The calls that `dconfLoop` makes, given the position in the file. -/
def dconfLoopCalls : ℕ → Stream → ℕ → Bool → Option Dictionary → List SetCall
  | 0, _, _, _, _ => []
  | fuel + 1, fp, offset, inComment, dict =>
    if fp.eof then []
    else
      let (buf, fp) := fgets sizeofBuf fp
      match dconfLine buf inComment with
      | none => []
      | some (inComment, none) => dconfLoopCalls fuel fp (offset + buf.length) inComment dict
      | some (inComment, some (key, val)) =>
        match dconfSet dict (some key) (some val) {} with
        | none => [⟨offset, key, val, false⟩]
        | some (_, dict) =>
          ⟨offset, key, val, true⟩ :: dconfLoopCalls fuel fp (offset + buf.length) inComment dict

/-- The calls that `dconf_init` makes on an opened file. -/
def dconfInitCalls (file : Stream) (iterations : ℕ) : List SetCall :=
  dconfLoopCalls iterations file 0 false (some (dictionaryNew 0))

end FsPkg.Conf
