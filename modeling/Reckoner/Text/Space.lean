/-!
# White space

The characters with the property `White_Space`, and the wider class of characters that separate
words or lines, which has the four information separators too.
-/

namespace Reckoner.Text

/-- The characters with the property `White_Space`, as ranges of code points. -/
def spaces : List (Nat × Nat) := [
  (0x09, 0x0d), (0x20, 0x20), (0x85, 0x85), (0xa0, 0xa0), (0x1680, 0x1680), (0x2000, 0x200a),
  (0x2028, 0x2029), (0x202f, 0x202f), (0x205f, 0x205f), (0x3000, 0x3000)]

/-- Whether `c` has the property `White_Space`. -/
def isSpace (c : Char) : Bool := spaces.any fun range => range.1 ≤ c.toNat && c.toNat ≤ range.2

/-- Whether `c` separates words or lines: white space or an information separator. -/
def isSeparator (c : Char) : Bool := isSpace c || (0x1c ≤ c.toNat && c.toNat ≤ 0x1f)

/-- The text without the white space at its beginning and its end. -/
def trim (s : List Char) : List Char :=
  ((s.dropWhile isSpace).reverse.dropWhile isSpace).reverse

example : spaces.foldl (fun n range => n + (range.2 + 1 - range.1)) 0 = 25 := by decide

end Reckoner.Text
