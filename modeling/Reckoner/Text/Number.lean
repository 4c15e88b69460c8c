import Reckoner.Binary64
import Reckoner.Text.Space

/-!
# Numbers in free text

A number may have a sign, a point with digits on one side at least, and an exponent. It may also be
the word for infinity or for not-a-number, in letters of either case. A number too great for a
double is infinity, one too small zero.

A text that holds a number and nothing else may have white space around it, or underscores inside
it, but not both. Underscores may stand anywhere between two other characters, so `+_1` and `in_f`
are numbers, and neither `_1` nor `1__0` is one.
-/

namespace Reckoner.Text

open Binary64

/-- The text without its underscores, if each of them stands between two other characters.
`afterOther` says whether another character stands before the text. -/
def dropUnderscores? (afterOther : Bool) : List Char → Option (List Char)
  | [] => some []
  | '_' :: s => if afterOther && !s.isEmpty then dropUnderscores? false s else none
  | c :: s => (dropUnderscores? true s).map (c :: ·)

example : dropUnderscores? false ['+', '_', '1', '_', '.'] = some ['+', '1', '.'] := by decide
example : dropUnderscores? false ['1', '_', '_', '0'] = none := by decide
example : dropUnderscores? false ['1', '_'] = none := by decide

/-- The sign in front of a text, if any, and the rest. -/
def splitSign : List Char → Bool × List Char
  | '+' :: s => (false, s)
  | '-' :: s => (true, s)
  | s => (false, s)

/-- The whole number that a text of digits writes. -/
def digits? (s : List Char) : Option Nat :=
  if !s.isEmpty && s.all Char.isDigit then some (Nat.ofDigitChars 10 s 0) else none

/-- The exponent that `s` writes; nothing is the exponent zero. -/
def exponent? : List Char → Option Int
  | [] => some 0
  | c :: s =>
    if c = 'e' ∨ c = 'E' then
      let (negative, t) := splitSign s
      (digits? t).map fun n => if negative then -(n : Int) else n
    else none

/-- The magnitude of a number in digits. -/
def decimal? (s : List Char) : Option Nat :=
  let whole := s.takeWhile Char.isDigit
  let (fraction, rest) :=
    match s.dropWhile Char.isDigit with
    | '.' :: t => (t.takeWhile Char.isDigit, t.dropWhile Char.isDigit)
    | t => ([], t)
  if whole.isEmpty && fraction.isEmpty then none
  else (exponent? rest).map fun e =>
    nearestPower (Nat.ofDigitChars 10 (whole ++ fraction) 0) (e - fraction.length)

/-- The magnitude that a word stands for. -/
def word? (s : List Char) : Option Nat :=
  let word := String.ofList (s.map Char.toLower)
  if word = "inf" ∨ word = "infinity" then some infinityMagnitude
  else if word = "nan" then some (magnitude nan)
  else none

/-- The double that `s` writes, without white space and underscores. -/
def plain? (s : List Char) : Option Float :=
  let (negative, t) := splitSign s
  ((word? t).or (decimal? t)).map (ofMagnitude negative)

/-- The double that a text writes. White space is left out first; a text that is then no number may
still be one for its underscores, but with these its white space counts. -/
def number? (text : String) : Option Float :=
  (plain? (trim text.toList)).or ((dropUnderscores? false text.toList).bind plain?)

end Reckoner.Text
