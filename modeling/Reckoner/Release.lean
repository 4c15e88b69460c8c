import Reckoner.Text.Space

/-!
# Release numbers

The number of the release is read from the manifest of the project, from the first line that begins
by setting `version` to a quoted text. If there is none, the number with which the library was
installed is taken, and `0.0.0` if it was not.

Space may stand on both sides of the equals sign, line feeds included. Either quotation mark opens
and closes the number, which is not empty and contains neither.
-/

namespace Reckoner.Release

open Text (isSeparator)

/-- Whether `c` opens or closes a number. -/
def isMark (c : Char) : Bool := c == '\x22' || c == '\x27'

/-- Line breaks of two characters and carriage returns become line feeds. -/
def unifyBreaks : List Char → List Char
  | [] => []
  | '\r' :: '\n' :: s => '\n' :: unifyBreaks s
  | '\r' :: s => '\n' :: unifyBreaks s
  | c :: s => c :: unifyBreaks s

/-- The rest of `s` after the text `word`, if it begins with that. -/
def after? (word s : List Char) : Option (List Char) :=
  if word.isPrefixOf s then some (s.drop word.length) else none

/-- The quoted text at the beginning of `s`. -/
def quoted? (s : List Char) : Option (List Char) :=
  match s with
  | [] => none
  | c :: s =>
    let body := s.takeWhile (!isMark ·)
    if isMark c && !body.isEmpty && body.length < s.length then some body else none

/-- The number that is set at the beginning of `s`. -/
def setting? (s : List Char) : Option (List Char) := do
  let s ← after? "version".toList s
  let s ← after? ['='] (s.dropWhile isSeparator)
  quoted? (s.dropWhile isSeparator)

example : quoted? ['\x22', '8', '\x27'] = some ['8'] ∧ quoted? ['\x22', '\x22'] = none := by decide

/-- The first number that is set at the beginning of a line of `s`. `lineStart` says whether `s`
itself is the beginning of a line. -/
def find? (lineStart : Bool) : List Char → Option (List Char)
  | [] => none
  | c :: s =>
    match if lineStart then setting? (c :: s) else none with
    | some number => some number
    | none => find? (c == '\n') s

/-- The number of the release, by the text of the manifest and the installed number. -/
def number (manifest installed : Option String) : String :=
  match manifest.bind fun text => find? true (unifyBreaks text.toList) with
  | some number => String.ofList number
  | none => installed.getD "0.0.0"

/-! ### This release -/

/-- The lines of the manifest of this release before the one that sets the number. -/
def manifestHead : List String :=
  ["[build-system]", "requires = [\"hatchling\"]", "build-backend = \"hatchling.build\"", "",
    "[project]", "name = \"exprsolve\""]

/-- The manifest of this release, as far as it is read. -/
def manifest : String :=
  String.join (manifestHead.map (· ++ "\n")) ++ "version = \"0.1.0\"\n"

/-- The number of this release. -/
def current : String := number (some manifest) none

example : current = "0.1.0" := by decide +kernel

end Reckoner.Release
