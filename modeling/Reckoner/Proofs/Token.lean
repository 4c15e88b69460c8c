import Reckoner.Proofs.Stop

/-!
# Tokens

A text is a sequence of tokens: the longest runs of digits and points, the longest runs of letters,
and every other character that is no blank. Blanks separate and are dropped.

The evaluator never sees a token. It looks at the next character that is no blank, and the lemmas
here say which token begins there and what is left after it.
-/

namespace Reckoner

/-- What a text is made of. -/
inductive Token where
  /-- A run of digits and points. -/
  | number (run : List Char)
  /-- A run of letters. -/
  | name (run : List Char)
  /-- Any other character that is no blank. -/
  | mark (x : Char)
deriving DecidableEq, Repr

/-- The tokens of a text. -/
def tokens : List Char → List Token
  | [] => []
  | x :: r =>
    if isBlank x then tokens r
    else if isNumeric x then .number (x :: r.takeWhile isNumeric) :: tokens (r.dropWhile isNumeric)
    else if isLetter x then .name (x :: r.takeWhile isLetter) :: tokens (r.dropWhile isLetter)
    else .mark x :: tokens r
termination_by l => l.length
decreasing_by
  all_goals have hn := (List.dropWhile_suffix isNumeric (l := r)).length_le
  all_goals have hl := (List.dropWhile_suffix isLetter (l := r)).length_le
  all_goals simp only [List.length_cons]
  all_goals omega

/-- A character that is a token on its own. -/
def isMark (x : Char) : Bool := !isBlank x && !isNumeric x && !isLetter x

theorem Rule.isMark_of_operator? {rule : Rule} {x : Char} {op : Operator}
    (h : rule.operator? x = some op) : isMark x := by
  rcases operator?_eq_some_iff.mp h with ⟨-, rfl, -⟩ | ⟨-, rfl, -⟩ | ⟨-, rfl, -⟩ | ⟨-, rfl, -⟩ <;>
    decide

theorem tokens_nil : tokens [] = [] := by rw [tokens]

theorem tokens_blank {x : Char} (h : isBlank x) (r : List Char) : tokens (x :: r) = tokens r := by
  rw [tokens, if_pos h]

theorem tokens_number {x : Char} (h : isNumeric x) (r : List Char) :
    tokens (x :: r) = .number (x :: r.takeWhile isNumeric) :: tokens (r.dropWhile isNumeric) := by
  have hb : ¬ isBlank x := fun hb => by simp [not_isNumeric_of_isBlank hb] at h
  rw [tokens, if_neg hb, if_pos h]

theorem tokens_name {x : Char} (h : isLetter x) (r : List Char) :
    tokens (x :: r) = .name (x :: r.takeWhile isLetter) :: tokens (r.dropWhile isLetter) := by
  have hb : ¬ isBlank x := fun hb => by simp [not_isLetter_of_isBlank hb] at h
  have hn : ¬ isNumeric x := fun hn => by simp [not_isLetter_of_isNumeric hn] at h
  rw [tokens, if_neg hb, if_neg hn, if_pos h]

theorem tokens_mark {x : Char} (h : isMark x) (r : List Char) :
    tokens (x :: r) = .mark x :: tokens r := by
  simp only [isMark, Bool.and_eq_true, Bool.not_eq_true'] at h
  rw [tokens]
  simp [h.1.1, h.1.2, h.2]

namespace Cursor

theorem tokens_skipBlanks (c : Cursor) : tokens c.skipBlanks.rest = tokens c.rest := by
  simp only [skipBlanks, skip]
  induction c.rest with
  | nil => rfl
  | cons x r ih =>
    by_cases hx : isBlank x
    · rw [List.dropWhile_cons_of_pos hx, ih, tokens_blank hx]
    · rw [List.dropWhile_cons_of_neg hx]

theorem skipBlanks_rest {c : Cursor} {x : Char} (h : c.ahead? = some x) :
    c.skipBlanks.rest = x :: c.past.rest := by
  obtain ⟨y, r, hr⟩ := List.exists_cons_of_ne_nil (ne_nil_of_peek? h)
  obtain rfl : y = x := by simpa [ahead?, peek?, hr] using h
  simp [past, next, hr]

theorem skipBlanks_rest_eq_nil_iff {c : Cursor} : c.skipBlanks.rest = [] ↔ c.ahead? = none := by
  simp [ahead?, peek?]

/-! ### The first token -/

theorem tokens_of_ended {c : Cursor} (h : c.ahead? = none) : tokens c.rest = [] := by
  rw [← tokens_skipBlanks, skipBlanks_rest_eq_nil_iff.mpr h, tokens_nil]

theorem tokens_of_mark {c : Cursor} {x : Char} (h : c.ahead? = some x) (hx : isMark x) :
    tokens c.rest = .mark x :: tokens c.past.rest := by
  rw [← tokens_skipBlanks, skipBlanks_rest h, tokens_mark hx]

theorem tokens_of_number {c : Cursor} {x : Char} (h : c.ahead? = some x) (hx : isNumeric x) :
    tokens c.rest =
      .number (c.skipBlanks.run isNumeric) :: tokens (c.skipBlanks.skip isNumeric).rest := by
  rw [← tokens_skipBlanks, run, skip, skipBlanks_rest h, tokens_number hx,
    List.takeWhile_cons_of_pos hx, List.dropWhile_cons_of_pos hx]

theorem tokens_of_letter {c : Cursor} {x : Char} (h : c.ahead? = some x) (hx : isLetter x) :
    tokens c.rest = .name c.word :: tokens c.pastWord.rest := by
  rw [← tokens_skipBlanks, word, pastWord, run, skip, skipBlanks_rest h, tokens_name hx,
    List.takeWhile_cons_of_pos hx, List.dropWhile_cons_of_pos hx]

/-- The first token is of the class of the next character. -/
theorem tokens_cases (c : Cursor) :
    (c.ahead? = none ∧ tokens c.rest = []) ∨
    ∃ x, c.ahead? = some x ∧
      ((isNumeric x ∧ tokens c.rest =
          .number (c.skipBlanks.run isNumeric) :: tokens (c.skipBlanks.skip isNumeric).rest) ∨
        (isLetter x ∧ tokens c.rest = .name c.word :: tokens c.pastWord.rest) ∨
        (isMark x ∧ tokens c.rest = .mark x :: tokens c.past.rest)) := by
  rcases h : c.ahead? with _ | x
  · exact .inl ⟨rfl, tokens_of_ended h⟩
  · refine .inr ⟨x, rfl, ?_⟩
    by_cases hn : isNumeric x
    · exact .inl ⟨hn, tokens_of_number h hn⟩
    by_cases hl : isLetter x
    · exact .inr (.inl ⟨hl, tokens_of_letter h hl⟩)
    have hm : isMark x := by simp [isMark, skipBlanks_rest_head h, hn, hl]
    exact .inr (.inr ⟨hm, tokens_of_mark h hm⟩)

theorem ended_of_tokens {c : Cursor} (h : tokens c.rest = []) : c.ahead? = none := by
  rcases tokens_cases c with ⟨hx, -⟩ | ⟨x, hx, ⟨-, ht⟩ | ⟨-, ht⟩ | ⟨-, ht⟩⟩
  · exact hx
  all_goals rw [ht] at h; cases h

theorem mark_of_tokens {c : Cursor} {x : Char} {t : List Token} (h : tokens c.rest = .mark x :: t) :
    c.ahead? = some x ∧ isMark x ∧ tokens c.past.rest = t := by
  rcases tokens_cases c with ⟨-, ht⟩ | ⟨y, hy, ⟨-, ht⟩ | ⟨-, ht⟩ | ⟨hm, ht⟩⟩ <;> rw [ht] at h <;>
    cases h
  exact ⟨hy, hm, rfl⟩

theorem number_of_tokens {c : Cursor} {run : List Char} {t : List Token}
    (h : tokens c.rest = .number run :: t) :
    ∃ x, c.ahead? = some x ∧ isNumeric x ∧ c.skipBlanks.run isNumeric = run ∧
      tokens (c.skipBlanks.skip isNumeric).rest = t := by
  rcases tokens_cases c with ⟨-, ht⟩ | ⟨y, hy, ⟨hn, ht⟩ | ⟨-, ht⟩ | ⟨-, ht⟩⟩ <;> rw [ht] at h <;>
    cases h
  exact ⟨y, hy, hn, rfl, rfl⟩

theorem name_of_tokens {c : Cursor} {run : List Char} {t : List Token}
    (h : tokens c.rest = .name run :: t) :
    ∃ x, c.ahead? = some x ∧ isLetter x ∧ c.word = run ∧ tokens c.pastWord.rest = t := by
  rcases tokens_cases c with ⟨-, ht⟩ | ⟨y, hy, ⟨-, ht⟩ | ⟨hl, ht⟩ | ⟨-, ht⟩⟩ <;> rw [ht] at h <;>
    cases h
  exact ⟨y, hy, hl, rfl, rfl⟩

theorem head?_tokens_eq_mark_iff {c : Cursor} {x : Char} (hx : isMark x) :
    (tokens c.rest).head? = some (.mark x) ↔ c.ahead? = some x := by
  constructor
  · intro h
    obtain ⟨t, ht⟩ := List.head?_eq_some_iff.mp h
    exact (mark_of_tokens ht).1
  · intro h
    rw [tokens_of_mark h hx, List.head?_cons]

end Cursor

end Reckoner
