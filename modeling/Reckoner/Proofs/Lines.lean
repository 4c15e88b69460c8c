import Reckoner.Proofs.Place

/-!
# The lines of a message

The message of a failure says what is wrong in one line, and shows the place in three more. A text
that is quoted stays on its line whatever its characters are, since none of those that end a line is
printable (`Text.quote_noLineEnd`). So a record of the log has one line too
(`LogRecord.written_noLineEnd`). The text of the expression is not quoted in the message. Its line
feeds and tabs are shown as spaces, its other characters as they are.

So there are four lines, and the caret stands under the character at the offset, exactly if no line
of the text ends in another way than by a line feed (`Solver.lines_message`). A carriage return, a
form feed or a line separator ends the third line where it stands.
-/

namespace Reckoner

namespace Text

/-! ### Lines -/

/-- The characters that end a line: line feed, vertical tab, form feed, carriage return, the
separators of files, groups and records, next line, and the separators of lines and paragraphs. -/
def isLineEnd (c : Char) : Bool :=
  ['\n', '\x0b', '\x0c', '\r', '\x1c', '\x1d', '\x1e', '\u0085', '\u2028', '\u2029'].contains c

/-- Puts a character in front of the first line. -/
def onto (c : Char) : List (List Char) → List (List Char)
  | [] => [[c]]
  | l :: ls => (c :: l) :: ls

/-- The lines of a text, without what ends them. A carriage return and a line feed after it end a
line together. The last line need not be ended, and is not empty then. -/
def lines : List Char → List (List Char)
  | [] => []
  | '\r' :: '\n' :: s => [] :: lines s
  | c :: s => if isLineEnd c then [] :: lines s else onto c (lines s)

example : lines "1\r\n+\n\r2".toList = [['1'], ['+'], [], ['2']] := by decide +kernel

/-- No line of a longer text ends in `l`. -/
def NoLineEnd (l : List Char) : Prop := ∀ c ∈ l, isLineEnd c = false

instance (l : List Char) : Decidable (NoLineEnd l) :=
  decidable_of_iff (l.all (!isLineEnd ·)) (by simp [NoLineEnd])

theorem noLineEnd_append {l m : List Char} : NoLineEnd (l ++ m) ↔ NoLineEnd l ∧ NoLineEnd m :=
  List.forall_mem_append

theorem noLineEnd_cons {c : Char} {l : List Char} :
    NoLineEnd (c :: l) ↔ isLineEnd c = false ∧ NoLineEnd l := List.forall_mem_cons

theorem noLineEnd_replicate {c : Char} (h : isLineEnd c = false) (n : Nat) :
    NoLineEnd (List.replicate n c) := by
  intro x hx
  rw [List.eq_of_mem_replicate hx]
  exact h

theorem NoLineEnd.take {l : List Char} (h : NoLineEnd l) (n : Nat) : NoLineEnd (l.take n) :=
  fun c hc => h c (List.mem_of_mem_take hc)

theorem NoLineEnd.drop {l : List Char} (h : NoLineEnd l) (n : Nat) : NoLineEnd (l.drop n) :=
  fun c hc => h c (List.mem_of_mem_drop hc)

theorem lines_cons {c : Char} (h : isLineEnd c = false) (s : List Char) :
    lines (c :: s) = onto c (lines s) := by
  have hr : c ≠ '\r' := by
    rintro rfl
    cases h
  rw [lines, if_neg (by simp [h])]
  exact fun s' hc _ => hr hc

/-- A line that is ended by a line feed. -/
theorem lines_append_feed {l : List Char} (h : NoLineEnd l) (s : List Char) :
    lines (l ++ '\n' :: s) = l :: lines s := by
  induction l with
  | nil => rfl
  | cons c l ih =>
    obtain ⟨hc, hl⟩ := noLineEnd_cons.mp h
    rw [List.cons_append, lines_cons hc, ih hl]
    rfl

/-- A line that is not ended. -/
theorem lines_of_noLineEnd {l : List Char} (h : NoLineEnd l) (hne : l ≠ []) : lines l = [l] := by
  induction l with
  | nil => exact absurd rfl hne
  | cons c l ih =>
    obtain ⟨hc, hl⟩ := noLineEnd_cons.mp h
    rw [lines_cons hc]
    cases l with
    | nil => rfl
    | cons d l => rw [ih hl nofun]; rfl

theorem onto_append {ls : List (List Char)} (h : ls ≠ []) (c : Char) (ms : List (List Char)) :
    onto c (ls ++ ms) = onto c ls ++ ms := by
  obtain ⟨l, ls, rfl⟩ := List.exists_cons_of_ne_nil h
  rfl

theorem lines_ne_nil {s : List Char} (h : s ≠ []) : lines s ≠ [] := by
  fun_cases lines s with
  | case1 => exact absurd rfl h
  | case2 | case3 => nofun
  | case4 c s => cases lines s <;> nofun

/-- Lines that are ended by a line feed are not changed by what follows. -/
theorem lines_append_of_feed (u s : List Char) :
    lines (u ++ '\n' :: s) = lines (u ++ ['\n']) ++ lines s := by
  fun_induction lines u with
  | case1 => rfl
  | case2 u ih => exact congrArg ([] :: ·) ih
  | case3 c u hne hc ih =>
    -- a carriage return at the end of `u` ends its line together with the line feed
    by_cases hr : c = '\r' ∧ u = []
    · obtain ⟨rfl, rfl⟩ := hr
      rfl
    · have hcons (t : List Char) :
          lines (c :: (u ++ '\n' :: t)) = [] :: lines (u ++ '\n' :: t) := by
        rw [lines, if_pos hc]
        rintro s' rfl hu
        cases u with
        | nil => exact hr ⟨rfl, rfl⟩
        | cons d u =>
          obtain ⟨rfl, -⟩ := List.cons.inj hu
          exact hne u rfl rfl
      rw [List.cons_append, List.cons_append, hcons, hcons, ih]
      rfl
  | case4 c u _ hc ih =>
    have hc' : isLineEnd c = false := by simpa using hc
    have hne : lines (u ++ ['\n']) ≠ [] := lines_ne_nil (by simp)
    rw [List.cons_append, List.cons_append, lines_cons hc', lines_cons hc', ih, onto_append hne]

/-- The lines hold the characters that do not end one. -/
theorem flatten_lines (s : List Char) : (lines s).flatten = s.filter (!isLineEnd ·) := by
  fun_induction lines s with
  | case1 => rfl
  | case2 s ih => exact ih
  | case3 c s _ hc ih =>
    rw [List.filter_cons_of_neg (by simp [hc])]
    exact ih
  | case4 c s _ hc ih =>
    rw [List.filter_cons_of_pos (by simp [hc]), ← ih]
    cases lines s <;> rfl

/-! ### Quoted text -/

theorem isPrintable_of_isLineEnd {c : Char} (h : isLineEnd c) : isPrintable c = false := by
  have hall : ['\n', '\x0b', '\x0c', '\r', '\x1c', '\x1d', '\x1e', '\u0085', '\u2028',
      '\u2029'].all (!isPrintable ·) := by decide +kernel
  exact Bool.not_eq_true' _ ▸ List.all_eq_true.mp hall c (List.contains_iff_mem.mp h)

theorem isLineEnd_digitChar (n : Nat) : isLineEnd (Nat.digitChar n) = false := by
  rcases Nat.lt_or_ge n 16 with hn | hn
  · have hall : ∀ m < 16, isLineEnd (Nat.digitChar m) = false := by decide
    exact hall n hn
  · rw [Nat.digitChar_eq_star.mpr hn]
    rfl

theorem noLineEnd_toDigits {b : Nat} (hb : 1 < b) (n : Nat) : NoLineEnd (Nat.toDigits b n) := by
  induction n using Nat.strong_induction_on with
  | h n ih =>
    rw [Nat.toDigits_eq_if hb]
    split
    · exact List.forall_mem_singleton.mpr (isLineEnd_digitChar n)
    · next hn =>
      have hlt : n / b < n := Nat.div_lt_self (by omega) hb
      exact noLineEnd_append.mpr ⟨ih _ hlt, List.forall_mem_singleton.mpr (isLineEnd_digitChar _)⟩

theorem noLineEnd_toString (n : Nat) : NoLineEnd (toString n).toList := by
  have h := noLineEnd_toDigits (show 1 < 10 by decide) n
  simpa using h

theorem noLineEnd_hex (width n : Nat) : NoLineEnd (hex width n) :=
  noLineEnd_append.mpr ⟨noLineEnd_replicate rfl _, noLineEnd_toDigits (by decide) n⟩

theorem noLineEnd_escape {mark : Char} (hm : isLineEnd mark = false) (c : Char) :
    NoLineEnd (escape mark c) := by
  unfold escape
  split
  · next h =>
    have hc : isLineEnd c = false := by
      rcases h with rfl | rfl
      · exact hm
      · rfl
    exact noLineEnd_cons.mpr ⟨rfl, noLineEnd_cons.mpr ⟨hc, nofun⟩⟩
  split
  · decide
  split
  · decide
  split
  · decide
  split
  · next h =>
    refine List.forall_mem_singleton.mpr (Bool.eq_false_iff.mpr fun hc => ?_)
    rw [isPrintable_of_isLineEnd hc] at h
    cases h
  repeat' split
  all_goals exact noLineEnd_cons.mpr ⟨rfl, noLineEnd_cons.mpr ⟨rfl, noLineEnd_hex _ _⟩⟩

/-- **Quoted text has no line end.** -/
theorem quote_noLineEnd (s : String) : NoLineEnd (quote s).toList := by
  have hm : isLineEnd (quoteMark s.toList) = false := by
    unfold quoteMark
    split <;> rfl
  rw [quote, String.toList_ofList]
  refine noLineEnd_append.mpr ⟨noLineEnd_cons.mpr ⟨hm, fun c hc => ?_⟩,
    List.forall_mem_singleton.mpr hm⟩
  obtain ⟨x, -, hx⟩ := List.mem_flatMap.mp hc
  exact noLineEnd_escape hm x c hx

end Text

open Text

/-! ### What a failure says in one line -/

theorem Failure.place_noLineEnd (n : Nat) : NoLineEnd (Failure.place (some (n : Int))).toList :=
  noLineEnd_toString n

/-- What is wrong is said in one line, unless it is said in words of another. -/
theorem Fault.short_noLineEnd {f : Fault} (hf : ∀ m, f.cause ≠ .other m) (text : String) :
    NoLineEnd (f.within text).short.toList := by
  obtain ⟨cause, o⟩ := f
  have ho := Failure.place_noLineEnd o
  cases cause with
  | other m => exact absurd rfl (hf m)
  | numberFormat literal =>
    simp only [Failure.short, Fault.within, String.toList_append, noLineEnd_append]
    exact ⟨⟨⟨by decide +kernel, quote_noLineEnd _⟩, by decide +kernel⟩, ho⟩
  | unexpectedCharacter found =>
    have hq : NoLineEnd ((found.map quote).getD "None").toList := by
      cases found with
      | none => decide +kernel
      | some x => exact quote_noLineEnd x
    simp only [Failure.short, Fault.within, String.toList_append, noLineEnd_append]
    exact ⟨⟨⟨by decide +kernel, hq⟩, by decide +kernel⟩, ho⟩
  | unexpectedEnd | trailingInput =>
    simp only [Failure.short, Fault.within, String.toList_append, noLineEnd_append]
    exact ⟨by decide +kernel, ho⟩
  | unknownSymbol name | unknownFunction name =>
    simp only [Failure.short, Fault.within, String.toList_append, noLineEnd_append]
    exact ⟨by decide +kernel, quote_noLineEnd _⟩

theorem Solver.Fails.cause_ne_other {s : Solver} {f : Fault} (h : s.Fails f) (m : String) :
    f.cause ≠ .other m := by
  obtain ⟨e, d, -, hl⟩ := h.liesAt
  cases hl <;> nofun

/-! ### What a record of the log says in one line -/

namespace Binary64

theorem positional_noLineEnd {digits : List Char} (h : NoLineEnd digits) (point : Int) :
    NoLineEnd (positional digits point) := by
  unfold positional
  split
  · exact noLineEnd_cons.mpr ⟨rfl, noLineEnd_cons.mpr ⟨rfl,
      noLineEnd_append.mpr ⟨noLineEnd_replicate rfl _, h⟩⟩⟩
  · refine noLineEnd_append.mpr ⟨noLineEnd_append.mpr ⟨h.take _, noLineEnd_replicate rfl _⟩,
      noLineEnd_cons.mpr ⟨rfl, ?_⟩⟩
    split
    · decide
    · exact h.drop _

theorem exponentText_noLineEnd (e : Int) : NoLineEnd (exponentText e) := by
  refine noLineEnd_cons.mpr ⟨?_, noLineEnd_append.mpr
    ⟨noLineEnd_replicate rfl _, noLineEnd_toDigits (by decide) _⟩⟩
  split <;> rfl

theorem scientific_noLineEnd {digits : List Char} (h : NoLineEnd digits) (e : Int) :
    NoLineEnd (scientific digits e) := by
  refine noLineEnd_append.mpr ⟨noLineEnd_append.mpr ⟨h.take 1, ?_⟩,
    noLineEnd_cons.mpr ⟨rfl, exponentText_noLineEnd e⟩⟩
  split
  · exact nofun
  · exact noLineEnd_cons.mpr ⟨rfl, h.drop 1⟩

theorem magnitudeText_noLineEnd (b : Nat) : NoLineEnd (magnitudeText b) := by
  have hdigits (p : Power) : NoLineEnd p.digits := noLineEnd_toDigits (by decide) _
  unfold magnitudeText
  split
  · decide +kernel
  split
  · unfold Power.text
    split
    · exact positional_noLineEnd (hdigits _) _
    · exact scientific_noLineEnd (hdigits _) _
  split <;> decide +kernel

theorem text_noLineEnd (x : Float) : NoLineEnd (text x).toList := by
  rw [text, String.toList_ofList]
  split
  · exact noLineEnd_cons.mpr ⟨rfl, magnitudeText_noLineEnd _⟩
  · exact magnitudeText_noLineEnd _

end Binary64

/-- **A record is written in one line**, whatever the names and texts are that it is about. So no
text that is submitted can look like a record of its own. -/
theorem LogRecord.written_noLineEnd (r : LogRecord) : NoLineEnd r.written.text.toList := by
  cases r with
  | unreachable name | defaulted name =>
    simp only [written, message, String.toList_append, noLineEnd_append]
    exact ⟨⟨by decide +kernel, quote_noLineEnd name⟩, by decide +kernel⟩
  | solved expression value =>
    simp only [written, message, String.toList_append, noLineEnd_append]
    exact ⟨⟨⟨by decide +kernel, quote_noLineEnd expression⟩, by decide +kernel⟩,
      Binary64.text_noLineEnd value⟩

/-! ### The lines of a message -/

namespace Snippet

/-- How a character has to be shown if the text is to be shown in one line. -/
def shown (c : Char) : Char := if isLineEnd c ∨ c = '\t' then ' ' else c

theorem noLineEnd_map_shown (l : List Char) : NoLineEnd (l.map shown) := by
  intro c hc
  obtain ⟨x, -, rfl⟩ := List.mem_map.mp hc
  unfold shown
  split
  · rfl
  · next h => exact Bool.eq_false_iff.mpr fun hx => h (.inl hx)

theorem isLineEnd_flatten {c : Char} : isLineEnd (flatten c) ↔ isLineEnd c ∧ c ≠ '\n' := by
  unfold flatten
  split
  · next h =>
    constructor
    · intro hs
      cases hs
    · rintro ⟨hc, hn⟩
      obtain rfl := h.resolve_left hn
      cases hc
  · next h => exact ⟨fun hc => ⟨hc, fun hn => h (.inl hn)⟩, And.left⟩

theorem flatten_eq_shown {c : Char} (h : isLineEnd c → c = '\n') : flatten c = shown c := by
  unfold flatten shown
  refine if_congr ?_ rfl rfl
  constructor
  · rintro (rfl | rfl)
    · exact .inl rfl
    · exact .inr rfl
  · exact Or.imp_left h

/-- The line of the text is one line exactly if what ends a line of the text is a line feed. -/
theorem lines_flatten_iff {l : List Char} :
    lines (' ' :: ' ' :: l.map flatten ++ ['\n']) = [' ' :: ' ' :: l.map shown] ↔
      ∀ c ∈ l, isLineEnd c → c = '\n' := by
  constructor
  · intro h c hc hend
    have hfilter : (l.map flatten).filter (!isLineEnd ·) = l.map shown := by
      have hflat := congrArg List.flatten h
      rw [flatten_lines, List.filter_append] at hflat
      simpa [isLineEnd] using hflat
    -- nothing is filtered out, since there are as many characters as before
    have hlen : ((l.map flatten).filter (!isLineEnd ·)).length = (l.map flatten).length := by
      rw [hfilter, List.length_map, List.length_map]
    have hne := List.length_filter_eq_length_iff.mp hlen (flatten c) (List.mem_map_of_mem hc)
    by_contra hn
    rw [isLineEnd_flatten.mpr ⟨hend, hn⟩] at hne
    cases hne
  · intro h
    have hmap : l.map flatten = l.map shown :=
      List.map_congr_left fun c hc => flatten_eq_shown (h c hc)
    have hline : NoLineEnd (' ' :: ' ' :: l.map shown) :=
      noLineEnd_cons.mpr ⟨rfl, noLineEnd_cons.mpr ⟨rfl, noLineEnd_map_shown l⟩⟩
    rw [hmap, lines_append_feed hline]
    rfl

end Snippet

namespace Failure

/-- The caret and the spaces before it. -/
def marker (o : Nat) : List Char := List.replicate (o + 2) ' ' ++ ['^']

theorem lines_marker (o : Nat) : lines (marker o) = [marker o] := by
  refine lines_of_noLineEnd (noLineEnd_append.mpr ⟨noLineEnd_replicate rfl _, ?_⟩) nofun
  decide

end Failure

theorem Fault.message_toList (f : Fault) (text : String) :
    (f.within text).message.toList = (f.within text).short.toList ++ '\n' ::
      (("at offset " ++ toString f.offset).toList ++ '\n' ::
        (' ' :: ' ' :: text.toList.map Snippet.flatten ++ '\n' :: Failure.marker f.offset)) := by
  have ho : ((f.offset : Int) + 2).toNat = f.offset + 2 := by omega
  have hs : toString (f.offset : Int) = toString f.offset := rfl
  simp only [Failure.message, Failure.snippet, Fault.within, Snippet.format, ho, hs]
  simp [Failure.marker]

/-- The lines of the message of a fault. -/
theorem Fault.lines_within (f : Fault) (hf : ∀ m, f.cause ≠ .other m) (text : String) :
    lines (f.within text).message.toList = (f.within text).short.toList ::
      ("at offset " ++ toString f.offset).toList ::
        (lines (' ' :: ' ' :: text.toList.map Snippet.flatten ++ ['\n']) ++
          [Failure.marker f.offset]) := by
  have ho : NoLineEnd ("at offset " ++ toString f.offset).toList := by
    rw [String.toList_append]
    exact noLineEnd_append.mpr ⟨by decide +kernel, noLineEnd_toString f.offset⟩
  rw [f.message_toList, lines_append_feed (Fault.short_noLineEnd hf text), lines_append_feed ho,
    lines_append_of_feed, Failure.lines_marker]

namespace Solver

/-- **The caret stands under the character at the offset.** The message of a failure has its first
two lines and its last as they have to be. Between them the text is shown in one line, a character
for each of its own, exactly if it has no line end but line feeds. -/
theorem lines_message {s : Solver} {e : Failure} (h : s.solve.value = .error e) :
    ∃ o : Nat, e.offset = some (o : Int) ∧
      lines e.message.toList = e.short.toList :: ("at offset " ++ toString o).toList ::
        (lines (' ' :: ' ' :: s.expression.toList.map Snippet.flatten ++ ['\n']) ++
          [Failure.marker o]) ∧
      (lines e.message.toList = [e.short.toList, ("at offset " ++ toString o).toList,
          ' ' :: ' ' :: s.expression.toList.map Snippet.shown, Failure.marker o] ↔
        ∀ c ∈ s.expression.toList, isLineEnd c → c = '\n') := by
  obtain ⟨f, rfl, hf⟩ := fails_of_error h
  have hlines := f.lines_within hf.cause_ne_other s.expression
  refine ⟨f.offset, rfl, hlines, ?_⟩
  rw [hlines, ← Snippet.lines_flatten_iff, List.cons_inj_right, List.cons_inj_right]
  show _ ++ [Failure.marker f.offset] = [_] ++ [Failure.marker f.offset] ↔ _
  exact List.append_left_inj _

/-- A line feed and a tab are shown as spaces. -/
theorem lines_message_feed :
    let e : Failure := ⟨.trailingInput, some 3, some "1\n\t2"⟩
    (Solver.mk "1\n\t2" .strict).solve.value = .error e ∧
      lines e.message.toList = ["Unexpected input after expression at 3".toList,
        "at offset 3".toList, "  1  2".toList, "     ^".toList] := by
  intro e
  have h : (Solver.mk "1\n\t2" .strict).solve.value = .error e := by decide +kernel
  obtain ⟨o, ho, -, hiff⟩ := lines_message h
  obtain rfl : 3 = o := Int.ofNat_inj.mp (Option.some.inj ho)
  have hends : "1\n\t2".toList.all fun c => !isLineEnd c || c == '\n' := by decide +kernel
  refine ⟨h, (hiff.mpr fun c hc hend => ?_).trans (by decide +kernel)⟩
  have hc' := List.all_eq_true.mp hends c hc
  rw [hend] at hc'
  exact beq_iff_eq.mp hc'

/-- A carriage return is not shown as a space, but breaks the line. -/
theorem lines_message_return :
    let e : Failure := ⟨.trailingInput, some 1, some "1\r2"⟩
    (Solver.mk "1\r2" .strict).solve.value = .error e ∧
      lines e.message.toList = ["Unexpected input after expression at 1".toList,
        "at offset 1".toList, "  1".toList, "2".toList, "   ^".toList] ∧
      lines e.message.toList ≠ [e.short.toList, ("at offset " ++ toString 1).toList,
        ' ' :: ' ' :: "1\r2".toList.map Snippet.shown, Failure.marker 1] := by
  decide +kernel

end Solver

end Reckoner
