import Reckoner.Text.Printable

/-!
# Quoted text

A text is quoted in apostrophes, or in quotation marks if it has an apostrophe and no quotation
mark. The mark in use and the backslash are escaped by a backslash, line feed, carriage return and
tab by the letters `n`, `r` and `t`, and the other characters that are not printable by their code
point in two, four or eight hexadecimal digits, whichever is the least that holds it.
-/

namespace Reckoner.Text

/-- `n` in hexadecimal with at least `width` digits. -/
def hex (width n : Nat) : List Char :=
  let digits := Nat.toDigits 16 n
  List.replicate (width - digits.length) '0' ++ digits

/-- The mark that `s` is quoted in. -/
def quoteMark (s : List Char) : Char :=
  if s.contains '\x27' && !s.contains '\x22' then '\x22' else '\x27'

/-- How `c` is written between two marks. -/
def escape (mark c : Char) : List Char :=
  if c = mark ∨ c = '\\' then ['\\', c]
  else if c = '\n' then ['\\', 'n']
  else if c = '\r' then ['\\', 'r']
  else if c = '\t' then ['\\', 't']
  else if isPrintable c then [c]
  else if c.toNat < 0x100 then '\\' :: 'x' :: hex 2 c.toNat
  else if c.toNat < 0x10000 then '\\' :: 'u' :: hex 4 c.toNat
  else '\\' :: 'U' :: hex 8 c.toNat

example : escape '\x27' '\x27' = ['\\', '\x27'] ∧ escape '\x27' '\x22' = ['\x22'] := by
  decide +kernel
example : escape '\x27' '\x00' = ['\\', 'x', '0', '0'] := by decide +kernel

/-- The text `s` in quotes. -/
def quote (s : String) : String :=
  let mark := quoteMark s.toList
  String.ofList (mark :: s.toList.flatMap (escape mark) ++ [mark])

end Reckoner.Text
