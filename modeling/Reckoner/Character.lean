/-!
# Characters

The three classes of characters that an expression is read by: blanks, which separate and are
skipped, letters, which make up names, and the digits and points of literals. All three are sets of
ASCII characters, whatever the text is written in.
-/

namespace Reckoner

/-- Space, newline, tab and NUL separate. A carriage return does not. -/
def isBlank (c : Char) : Bool :=
  c == ' ' || c == '\n' || c == '\t' || c == '\x00'

/-- Names are made of the letters `a` to `z`. -/
def isLetter (c : Char) : Bool := c.isLower

/-- Literals are made of digits and points. -/
def isNumeric (c : Char) : Bool := c.isDigit || c == '.'

/-- Whether `name` is one or more letters, so that an expression can refer to it. -/
def isName (name : String) : Bool := !name.isEmpty && name.toList.all isLetter

/-! ### The classes are disjoint -/

theorem not_isLetter_of_isBlank {c : Char} (h : isBlank c) : isLetter c = false := by
  simp only [isBlank, Bool.or_eq_true, beq_iff_eq] at h
  rcases h with ((rfl | rfl) | rfl) | rfl <;> decide

theorem not_isNumeric_of_isBlank {c : Char} (h : isBlank c) : isNumeric c = false := by
  simp only [isBlank, Bool.or_eq_true, beq_iff_eq] at h
  rcases h with ((rfl | rfl) | rfl) | rfl <;> decide

theorem not_isLetter_of_isNumeric {c : Char} (h : isNumeric c) : isLetter c = false := by
  simp only [isNumeric, Bool.or_eq_true, beq_iff_eq] at h
  rcases h with h | rfl
  · simp only [Char.isDigit, ge_iff_le, Bool.and_eq_true, decide_eq_true_eq] at h
    show (decide ('a'.val ≤ c.val) && decide (c.val ≤ 'z'.val)) = false
    rw [Bool.and_eq_false_iff, decide_eq_false_iff_not]
    exact .inl fun hl => absurd (UInt32.le_trans hl h.2) (by decide)
  · decide

end Reckoner
