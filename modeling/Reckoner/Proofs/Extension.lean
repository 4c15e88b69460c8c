import Reckoner.Proofs.Place

/-!
# Longer texts

A run looks at the next character and no further, so what it has found is found too if the text goes
on. Where the text ends the end itself has been looked at; then the outcome is *settled* against the
characters `s` that are to follow (`Run.Settled`) if they do not take up what stands at the end:

* a value, if a closing parenthesis follows, since no rule goes on for it;
* a run of digits and points that is no literal, if it ends there or has two points already;
* an unknown name, if it ends there;
* a character that should not be there, always, and a missing operand or parenthesis, never.

`Runs.extend` says that a run with a settled outcome is one of the longer text as well, with the same
outcome but for the digits and points that a literal takes up.
-/

namespace Reckoner

namespace Cursor

variable {s : List Char} {c : Cursor} {x : Char}

/-- The place in the text with `s` behind it. -/
def extend (s : List Char) (c : Cursor) : Cursor := ⟨c.pos, c.rest ++ s⟩

/-- A run of the class `p` that ends at `d` also ends there if `s` follows the text. -/
def Bounds (p : Char → Bool) (s : List Char) (d : Cursor) : Prop :=
  d.rest = [] → ∀ x ∈ s.head?, p x = false

/-- What is behind the text adds to a run that it ends with. -/
theorem run_extend (p : Char → Bool) (s : List Char) (c : Cursor) :
    (c.extend s).run p = c.run p ++ ((c.skip p).extend s).run p := by
  obtain ⟨n, rest⟩ := c
  simp only [run, skip, extend]
  induction rest with
  | nil => rfl
  | cons x r ih => by_cases hx : p x <;> simp [hx, ih]

theorem skip_extend (p : Char → Bool) (s : List Char) (c : Cursor) :
    (c.extend s).skip p = ((c.skip p).extend s).skip p := by
  have hr : (c.rest ++ s).dropWhile p = (c.rest.dropWhile p ++ s).dropWhile p := by
    induction c.rest with
    | nil => rfl
    | cons x r ih => by_cases hx : p x <;> simp [hx, ih]
  have hl := congrArg List.length (run_extend p s c)
  rw [List.length_append] at hl
  rw [skip, hl, skip, ← Nat.add_assoc]
  exact congrArg _ hr

theorem Bounds.head {p : Char → Bool} (h : (c.skip p).Bounds p s) :
    ∀ x ∈ ((c.skip p).extend s).peek?, p x = false := by
  intro x hx
  cases hr : (c.skip p).rest with
  | nil => exact h hr x (by simpa [peek?, extend, hr] using hx)
  | cons y r => exact peek?_skip (c := c) (by simpa [peek?, extend, hr] using hx)

theorem run_extend_of_bounds {p : Char → Bool} (h : (c.skip p).Bounds p s) :
    (c.extend s).run p = c.run p := by
  rw [run_extend, run_eq_nil h.head, List.append_nil]

theorem skip_extend_of_bounds {p : Char → Bool} (h : (c.skip p).Bounds p s) :
    (c.extend s).skip p = (c.skip p).extend s := by
  rw [skip_extend, skip_of_peek? h.head]

/-! ### The next character -/

theorem skipBlanks_extend (h : c.skipBlanks.Bounds isBlank s) :
    (c.extend s).skipBlanks = c.skipBlanks.extend s := skip_extend_of_bounds h

theorem skipBlanks_extend_of_ahead (h : c.ahead? = some x) :
    (c.extend s).skipBlanks = c.skipBlanks.extend s :=
  skipBlanks_extend fun hr => by simp [skipBlanks_rest h] at hr

theorem ahead?_extend (h : c.ahead? = some x) : (c.extend s).ahead? = some x := by
  rw [ahead?, skipBlanks_extend_of_ahead h, peek?, extend, skipBlanks_rest h]
  rfl

theorem past_extend (h : c.ahead? = some x) : (c.extend s).past = c.past.extend s := by
  rw [past, skipBlanks_extend_of_ahead h]
  simp only [next, extend, skipBlanks_rest h, List.cons_append, List.tail_cons]
  rfl

/-- If nothing but blanks is left, what follows the text is ahead. -/
theorem skipBlanks_extend_ended (hx : c.ahead? = none) :
    (c.extend s).skipBlanks = (Cursor.mk (c.pos + c.rest.length) s).skipBlanks := by
  have hr : c.skipBlanks.rest = [] := skipBlanks_rest_eq_nil_iff.mpr hx
  have htotal := (reaches_skipBlanks c).total
  rw [hr, List.length_nil, Nat.add_zero] at htotal
  have hc : c.skipBlanks.extend s = ⟨c.pos + c.rest.length, s⟩ := by
    rw [Cursor.extend, htotal, hr, List.nil_append]
  have hskip : (c.extend s).skipBlanks = (c.skipBlanks.extend s).skipBlanks :=
    skip_extend isBlank s c
  rw [hskip, hc]

theorem skipBlanks_extend_of_ended (h : c.ahead? = none) (hs : ∀ y ∈ s.head?, isBlank y = false) :
    (c.extend s).skipBlanks.rest = s := by
  rw [skipBlanks_extend fun _ => hs, extend, skipBlanks_rest_eq_nil_iff.mpr h, List.nil_append]

theorem ahead?_extend_of_ended (h : c.ahead? = none) (hs : s.head? = some x)
    (hx : isBlank x = false) : (c.extend s).ahead? = some x := by
  rw [ahead?, peek?, skipBlanks_extend_of_ended h (by simpa [hs] using hx), hs]

theorem word_extend (h : c.ahead? = some x) (hw : c.pastWord.Bounds isLetter s) :
    (c.extend s).word = c.word := by
  rw [word, skipBlanks_extend_of_ahead h, run_extend_of_bounds hw, word]

theorem pastWord_extend (h : c.ahead? = some x) (hw : c.pastWord.Bounds isLetter s) :
    (c.extend s).pastWord = c.pastWord.extend s := by
  rw [pastWord, skipBlanks_extend_of_ahead h, skip_extend_of_bounds hw, pastWord]

theorem function?_extend (h : c.ahead? = some x) (hw : c.pastWord.Bounds isLetter s) :
    (c.extend s).function? = c.function? := by
  rw [function?, word_extend h hw, function?]

theorem bounds_of_closes {p : Char → Bool} {d : Cursor} (hp : p ')' = false)
    (h : d.rest = [] → s.head? = some ')') : d.Bounds p s := by
  intro hd x hx
  rw [h hd] at hx
  obtain rfl := Option.some.inj hx
  exact hp

end Cursor

open Cursor

/-! ### Settled outcomes -/

/-- The fault `f`, at which a run has stopped at `d`, is final if `s` follows the text. -/
def Fault.Settled (s : List Char) (d : Cursor) (f : Fault) : Prop :=
  match f.cause with
  | .unexpectedEnd => False
  | .numberFormat l => d.Bounds isNumeric s ∨ 2 ≤ l.toList.count '.'
  | .unknownSymbol _ => d.Bounds isLetter s
  | _ => True

/-- What becomes of the fault `f` and of the place `d` of its run if `s` follows the text. -/
def Fault.extend (s : List Char) (d : Cursor) (f : Fault) : Fault × Cursor :=
  match f.cause with
  | .numberFormat l =>
    (⟨.numberFormat (l ++ String.ofList ((d.extend s).run isNumeric)), f.offset⟩,
      (d.extend s).skip isNumeric)
  | _ => (f, d.extend s)

namespace Run

variable {α β : Type} {s : List Char}

/-- The outcome of a run stays as it is if `s` follows the text. -/
def Settled (s : List Char) (r : Run α) : Prop :=
  match r.outcome with
  | .ok _ => r.cursor.rest = [] → s.head? = some ')'
  | .error f => f.Settled s r.cursor

/-- The run in the text with `s` behind it. -/
def extend (s : List Char) (r : Run α) : Run α :=
  match r.outcome with
  | .ok v => ⟨.ok v, r.cursor.extend s, r.trace⟩
  | .error f => ⟨.error (f.extend s r.cursor).1, (f.extend s r.cursor).2, r.trace⟩

theorem settled_map {f : α → β} {r : Run α} : (r.map f).Settled s ↔ r.Settled s := by
  obtain ⟨⟨e⟩ | ⟨v⟩, d, es⟩ := r <;> rfl

theorem extend_map (f : α → β) (r : Run α) : (r.map f).extend s = (r.extend s).map f := by
  obtain ⟨⟨e⟩ | ⟨v⟩, d, es⟩ := r <;> rfl

theorem extend_after (es : List Event) (r : Run α) :
    (r.after es).extend s = (r.extend s).after es := by
  obtain ⟨⟨e⟩ | ⟨v⟩, d, es⟩ := r <;> rfl

theorem extend_asCall (rule : Rule) (n : Nat) (r : Run α) :
    (r.asCall rule n).extend s = (r.extend s).asCall rule n := by
  obtain ⟨⟨e⟩ | ⟨v⟩, d, es⟩ := r <;> rfl

end Run

namespace Grammar

variable {α : Type} {A : Arithmetic α} {scope : Scope α} {s : List Char}

/-! ### Leaves -/

/-- A literal that ends where it did is read as before. -/
theorem literal_extend_of_bounds {c : Cursor} (h : (c.skip isNumeric).Bounds isNumeric s) :
    literal A (c.extend s) =
      ⟨(literal A c).outcome, (literal A c).cursor.extend s, (literal A c).trace⟩ := by
  rw [literal_eq, run_extend_of_bounds h, skip_extend_of_bounds h, literal_eq]
  cases Decimal.ofRun? (c.run isNumeric) <;> rfl

theorem symbol_extend_of_bounds {name : String} {c : Cursor}
    (h : (c.skip isLetter).Bounds isLetter s) :
    symbol A scope name (c.extend s) =
      ⟨(symbol A scope name c).outcome, (symbol A scope name c).cursor.extend s,
        (symbol A scope name c).trace⟩ := by
  rw [symbol_eq, skip_extend_of_bounds h, symbol_eq]
  cases scope.resolve name <;> rfl

theorem literal_extend {c : Cursor} (hs : (literal A c).Settled s) :
    literal A (c.extend s) = (literal A c).extend s := by
  rcases hl : Decimal.ofRun? (c.run isNumeric) with _ | n
  · rw [literal_eq_fail hl] at hs ⊢
    -- a run that goes on has two points already
    have hnone : Decimal.ofRun? ((c.extend s).run isNumeric) = none := by
      rcases hs with hb | hp
      · rw [run_extend_of_bounds hb, hl]
      · rw [String.toList_ofList] at hp
        rw [run_extend, Decimal.ofRun?_eq_none_iff, List.count_append]
        exact .inr (by omega)
    rw [literal_eq_fail hnone, skip_extend, run_extend, String.ofList_append]
    rfl
  · rw [literal_eq_done hl] at hs ⊢
    have hb : (c.skip isNumeric).Bounds isNumeric s := bounds_of_closes (by decide) hs
    rw [literal_extend_of_bounds hb, literal_eq_done hl]
    rfl

theorem bounds_of_symbol {name : String} {c : Cursor} (hs : (symbol A scope name c).Settled s) :
    (c.skip isLetter).Bounds isLetter s := by
  unfold Run.Settled at hs
  rw [symbol_outcome, symbol_cursor] at hs
  rcases hv : symbolValue? A scope name with _ | v
  · rw [hv] at hs
    exact hs
  · rw [hv] at hs
    exact bounds_of_closes (by decide) hs

theorem symbol_extend {name : String} {c : Cursor} (hs : (symbol A scope name c).Settled s) :
    symbol A scope name (c.extend s) = (symbol A scope name c).extend s := by
  rw [symbol_extend_of_bounds (bounds_of_symbol hs), symbol_eq]
  cases scope.resolve name <;> rfl

theorem close_extend {v : α} {c : Cursor} (hs : (close v c).Settled s) :
    close v (c.extend s) = (close v c).extend s := by
  rcases hx : c.ahead? with _ | x
  · rw [close_eq_end hx] at hs
    exact hs.elim
  · by_cases hp : x = ')'
    · subst hp
      rw [close_eq_done hx, close_eq_done (ahead?_extend hx), past_extend hx]
      rfl
    · rw [close_eq_mismatch hx hp, close_eq_mismatch (ahead?_extend hx) hp,
        skipBlanks_extend_of_ahead hx]
      rfl

/-! ### Runs -/

theorem ahead?_eq_none {c : Cursor} (h : c.rest = []) : c.ahead? = none := by
  rw [ahead?, peek?, skipBlanks, skip, h]
  rfl

theorem rest_ne_nil_of_ahead {c : Cursor} {x : Char} (h : c.ahead? = some x) : c.rest ≠ [] := by
  intro hc
  rw [ahead?_eq_none hc] at h
  cases h

theorem function?_ne_some {c : Cursor} {f : Func} (h : c.rest = []) : c.function? ≠ some f := by
  rw [function?_eq_none (by simp [ahead?_eq_none h])]
  nofun

/-- What begins at the end of the text is settled only by a closing parenthesis. -/
theorem Runs.closes {t : Task α} {c : Cursor} {r : Run α} (h : Runs A scope t c r)
    (hs : r.Settled s) (hc : c.rest = []) : s.head? = some ')' := by
  induction h with
  | call _ ih => exact ih hs hc
  | operandFails _ _ ih => exact ih hs hc
  | operand _ h _ _ iht =>
    have hr := h.reaches_of_call.suffix
    rw [hc] at hr
    exact iht hs (List.suffix_nil.mp hr)
  | stop => exact hs (skipBlanks_rest_eq_nil_iff.mpr (ahead?_eq_none hc))
  | primaryFails _ _ ih => exact ih hs hc
  | primary _ h _ _ ihp =>
    obtain ⟨u, hu, -⟩ := h.cuts rfl
    rw [hc] at hu
    exact ihp hs (List.append_eq_nil_iff.mp hu.symm).2
  | noPower => exact hs (skipBlanks_rest_eq_nil_iff.mpr (ahead?_eq_none hc))
  | ended => exact hs.elim
  | apply hf => exact absurd hf (function?_ne_some hc)
  | stepFails hx | step hx | plus hx | minus hx | raise hx | groupFails hx | group hx | literal hx
  | name hx | empty hx =>
    rw [ahead?_eq_none hc] at hx
    cases hx

/-- A primary is still ahead, since the run of letters that may begin it ends where it did. -/
theorem Runs.startsPrimary_extend {c : Cursor} {r : Run α} (h : Runs A scope .primary c r)
    (hs : r.Settled s) (hc : c.StartsPrimary) : (c.extend s).StartsPrimary := by
  have hstart {x : Char} (hx : c.ahead? = some x) (hf : (c.extend s).function? = none) :
      (c.extend s).StartsPrimary :=
    ⟨ahead?_extend hx ▸ hx ▸ hc.plus, ahead?_extend hx ▸ hx ▸ hc.minus, hf⟩
  have hmark {x : Char} (hx : c.ahead? = some x) (hl : isLetter x = false) :
      (c.extend s).StartsPrimary :=
    hstart hx (function?_eq_none (by simpa [ahead?_extend hx] using hl))
  cases h with
  | ended => exact hs.elim
  | groupFails hx => exact hmark hx (by decide)
  | group hx => exact hmark hx (by decide)
  | literal hx hn => exact hmark hx (not_isLetter_of_isNumeric hn)
  | name hx =>
    exact hstart hx (by rw [function?_extend hx (bounds_of_symbol hs), hc.function])
  | empty hx ho =>
    simp only [isOperandStart, Bool.or_eq_false_iff] at ho
    exact hmark hx ho.2

/-- **A run with a settled outcome is a run of the longer text.** -/
theorem Runs.extend {t : Task α} {c : Cursor} {r : Run α} (h : Runs A scope t c r)
    (hs : r.Settled s) : Runs A scope t (c.extend s) (r.extend s) := by
  induction h with
  | call _ ih =>
    rw [Run.extend_asCall]
    exact .call (ih hs)
  | operandFails hrule _ ih => exact .operandFails hrule (ih hs)
  | operand hrule _ ht ih iht =>
    rw [Run.extend_after]
    exact .operand hrule (ih (ht.closes hs)) (iht hs)
  | @stop rule v c h =>
    have hd := skipBlanks_extend (bounds_of_closes (by decide) hs)
    have hn : (c.extend s).ahead?.bind rule.operator? = none := by
      rcases hx : c.ahead? with _ | x
      · rw [ahead?_extend_of_ended hx (hs (skipBlanks_rest_eq_nil_iff.mpr hx)) (by decide)]
        cases rule <;> rfl
      · rwa [ahead?_extend hx, ← hx]
    have hr : Runs A scope (.tail rule v) (c.extend s) (.done v (c.extend s).skipBlanks) := .stop hn
    rwa [hd] at hr
  | stepFails hx hop _ ih => exact .stepFails (ahead?_extend hx) hop (past_extend hx ▸ ih hs)
  | step hx hop _ ht ih iht =>
    rw [Run.extend_after]
    exact .step (ahead?_extend hx) hop (past_extend hx ▸ ih (ht.closes hs)) (iht hs)
  | plus hx _ ih => exact .plus (ahead?_extend hx) (past_extend hx ▸ ih hs)
  | minus hx _ ih =>
    rw [Run.extend_map]
    exact .minus (ahead?_extend hx) (past_extend hx ▸ ih (Run.settled_map.mp hs))
  | @apply c f r hf h ih =>
    have hs' := Run.settled_map.mp hs
    obtain ⟨x, hx, -⟩ := exists_letter_of_function? hf
    have hw : c.pastWord.Bounds isLetter s := bounds_of_closes (by decide) (h.closes hs')
    rw [Run.extend_map]
    exact .apply (function?_extend hx hw ▸ hf) (pastWord_extend hx hw ▸ ih hs')
  | primaryFails hc h ih => exact .primaryFails (h.startsPrimary_extend hs hc) (ih hs)
  | primary hc h hp ih ihp =>
    rw [Run.extend_after]
    exact .primary (h.startsPrimary_extend (hp.closes hs) hc) (ih (hp.closes hs)) (ihp hs)
  | @noPower v c h =>
    have hd := skipBlanks_extend (bounds_of_closes (by decide) hs)
    have hn : (c.extend s).ahead? ≠ some '^' := by
      rcases hx : c.ahead? with _ | x
      · rw [ahead?_extend_of_ended hx (hs (skipBlanks_rest_eq_nil_iff.mpr hx)) (by decide)]
        decide
      · rwa [ahead?_extend hx, ← hx]
    have hr : Runs A scope (.power v) (c.extend s) (.done v (c.extend s).skipBlanks) := .noPower hn
    rwa [hd] at hr
  | raise hx _ ih =>
    rw [Run.extend_map]
    exact .raise (ahead?_extend hx) (past_extend hx ▸ ih (Run.settled_map.mp hs))
  | ended => exact hs.elim
  | groupFails hx _ ih => exact .groupFails (ahead?_extend hx) (past_extend hx ▸ ih hs)
  | @group c v d es hx _ ih =>
    have hd : d.rest = [] → s.head? = some ')' := by
      intro hd
      have hs' : (close v d).Settled s := hs
      rw [close_eq_end (ahead?_eq_none hd)] at hs'
      exact hs'.elim
    rw [Run.extend_after, ← close_extend hs]
    exact .group (ahead?_extend hx) (past_extend hx ▸ ih hd)
  | @literal c x hx hn =>
    rw [← literal_extend hs, ← skipBlanks_extend_of_ahead hx]
    exact .literal (ahead?_extend hx) hn
  | @name c x hx hl =>
    have hw : c.pastWord.Bounds isLetter s := bounds_of_symbol hs
    rw [← symbol_extend hs, ← skipBlanks_extend_of_ahead hx, ← word_extend hx hw]
    exact .name (ahead?_extend hx) hl
  | @empty c x hx ho =>
    have hr : Runs A scope .primary (c.extend s) (.done A.zero (c.extend s).skipBlanks) :=
      .empty (ahead?_extend hx) ho
    rwa [skipBlanks_extend_of_ahead hx] at hr

end Grammar

/-! ### Whole texts -/

theorem Cursor.start_append (text suffix : String) :
    start (text ++ suffix) = (start text).extend suffix.toList := by
  simp [start, Cursor.extend]

/-- The text begins with a character of the class `p`. -/
def Begins (p : Char → Bool) (text : String) : Prop := ∃ x ∈ text.toList.head?, p x

theorem skip_rest_eq_nil_iff {p : Char → Bool} {text : String} {e : Cursor}
    (he : (start text).Cuts e) :
    (e.skip p).rest = [] ↔ e.pos + (e.run p).length = text.length := by
  have htotal := (he.reaches.trans (reaches_skip p e)).total
  simp only [skip, start, String.length_toList] at htotal ⊢
  rw [← List.length_eq_zero_iff]
  omega

/-- A run that does not reach the end of the text, or that `suffix` does not go on with, ends where
it did. -/
theorem bounds_iff {p : Char → Bool} {text suffix : String} {e : Cursor}
    (he : (start text).Cuts e) :
    (e.skip p).Bounds p suffix.toList ↔
      e.pos + (e.run p).length ≠ text.length ∨ ¬ Begins p suffix := by
  rw [Bounds, skip_rest_eq_nil_iff he, ← imp_iff_not_or]
  simp [Begins]

namespace Solver

open Grammar

variable {s : Solver}

/-- A fault that is settled where its run stopped is reported in the longer text too. -/
theorem Fails.append {f : Fault} (h : s.Fails f) :
    ∃ e d, (start s.expression).Cuts e ∧ f.LiesAt e d ∧ ∀ suffix : String,
      f.Settled suffix.toList d →
        (Solver.mk (s.expression ++ suffix) s.scope).Fails (f.extend suffix.toList d).1 := by
  rcases fails_iff.mp h with ⟨d, es, hr⟩ | ⟨v, d, es, hr, hd, rfl⟩
  · obtain ⟨e, he, hl⟩ := hr.liesAt rfl nofun
    refine ⟨e, d, he, hl, fun suffix hs => fails_iff.mpr (.inl ?_)⟩
    rw [start_append]
    exact ⟨_, es, hr.extend hs⟩
  · obtain ⟨e, d', he, hl⟩ := h.liesAt
    refine ⟨e, d', he, hl, fun suffix _ => fails_iff.mpr (.inr ?_)⟩
    have hs : (Run.mk (.ok v) d es).Settled suffix.toList := fun hd' => absurd hd' hd
    rw [start_append]
    exact ⟨v, d.extend suffix.toList, es, hr.extend hs, by simp [Cursor.extend, hd], rfl⟩

end Solver

/-- What stands at the fault `f` does not go on when `suffix` follows `text`. -/
def Fault.IsFinal (text suffix : String) (f : Fault) : Prop :=
  match f.cause with
  | .unexpectedCharacter _ | .trailingInput => True
  | .numberFormat l => f.offset + l.length ≠ text.length ∨ ¬ Begins isNumeric suffix
  | .unknownSymbol m => f.offset + m.length ≠ text.length ∨ ¬ Begins isLetter suffix
  | .unexpectedEnd | .unknownFunction _ | .other _ => False

/-- What stands at the fault `f` ends `text` and can be completed: an operand or a parenthesis is
missing, or a point without digits or a name goes on in `suffix`. -/
def Fault.IsRepairable (text suffix : String) (f : Fault) : Prop :=
  f.cause = .unexpectedEnd ∨
  (f.cause = .numberFormat "." ∧ f.offset + 1 = text.length ∧ Begins isNumeric suffix) ∨
  ∃ m, f.cause = .unknownSymbol m ∧ f.offset + m.length = text.length ∧ Begins isLetter suffix

/-- A run of digits and points that is no literal yet is a point. -/
theorem eq_point {run : List Char} (hne : run ≠ []) (hnum : ∀ x ∈ run, isNumeric x)
    (hl : Decimal.ofRun? run = none) (hp : run.count '.' < 2) : run = ['.'] := by
  have hd : ∀ x ∈ run, x.isDigit = false :=
    (Decimal.ofRun?_eq_none_iff.mp hl).resolve_right (by omega)
  have hrep : run = List.replicate run.length '.' := by
    refine List.eq_replicate_of_mem fun x hx => ?_
    simpa [isNumeric, hd x hx] using hnum x hx
  rw [hrep, List.count_replicate_self] at hp
  have hlen : run.length = 1 := by
    have := List.length_pos_of_ne_nil hne
    omega
  rw [hrep, hlen]
  rfl

open Grammar in
/-- **Failures are final.** The fault of a text is that of every longer text, unless it is the end
or the run of digits and points or of letters at the fault goes on. A literal with two points only
gets longer then; so appending repairs nothing but a missing end, a point and a name. -/
theorem Solver.fails_append (text suffix : String) (scope : Scope Float) (f : Fault)
    (h : (Solver.mk text scope).Fails f) :
    (f.IsFinal text suffix → (Solver.mk (text ++ suffix) scope).Fails f) ∧
    (∀ l, f.cause = .numberFormat l → 2 ≤ l.toList.count '.' →
      ∃ more, (Solver.mk (text ++ suffix) scope).Fails ⟨.numberFormat (l ++ more), f.offset⟩) ∧
    ((Solver.mk (text ++ suffix) scope).Accepts → f.IsRepairable text suffix) := by
  obtain ⟨e, d, he, hl, happ⟩ := h.append
  specialize happ suffix
  have hnot : (Solver.mk (text ++ suffix) scope).Accepts → ¬ f.Settled suffix.toList d :=
    fun ha hs => (happ hs).not_accepts ha
  cases hl with
  | unexpectedEnd => exact ⟨nofun, nofun, fun _ => .inl rfl⟩
  | unexpectedCharacter =>
    have hf := happ trivial
    exact ⟨fun _ => hf, nofun, fun ha => absurd ha hf.not_accepts⟩
  | trailingInput =>
    have hf := happ trivial
    exact ⟨fun _ => hf, nofun, fun ha => absurd ha hf.not_accepts⟩
  | numberFormat hne hnone =>
    refine ⟨fun hfin => ?_, fun l hc hp => ?_, fun ha => .inr (.inl ?_)⟩
    · have hb : (e.skip isNumeric).Bounds isNumeric suffix.toList :=
        (bounds_iff he).mpr (by simpa [Fault.IsFinal] using hfin)
      simpa [Fault.extend, run_eq_nil hb.head] using happ (.inl hb)
    · cases hc
      exact ⟨_, happ (.inr hp)⟩
    · have hns := hnot ha
      simp only [Fault.Settled, String.toList_ofList, not_or, bounds_iff he, ne_eq,
        not_not, not_le] at hns
      obtain ⟨⟨hend, hb⟩, hp⟩ := hns
      have hrun : e.run isNumeric = ['.'] :=
        eq_point hne (fun x hx => List.mem_takeWhile_imp hx) hnone hp
      rw [hrun] at hend ⊢
      exact ⟨rfl, hend, hb⟩
  | unknownSymbol hne hnone =>
    refine ⟨fun hfin => ?_, nofun, fun ha => .inr (.inr ⟨_, rfl, ?_⟩)⟩
    · exact happ ((bounds_iff he).mpr (by simpa [Fault.IsFinal] using hfin))
    · have hns := hnot ha
      simp only [Fault.Settled, bounds_iff he, ne_eq, not_or, not_not] at hns
      rw [String.length_ofList]
      exact hns

/-- The fault of `1 2` is that of `1 2+3`, and `1..` stays a run with two points. -/
theorem Solver.fails_append_missing_operator :
    ((Solver.mk "1 2" .strict).Fails ⟨.trailingInput, 2⟩ ∧
      (Solver.mk ("1 2" ++ "+3") .strict).Fails ⟨.trailingInput, 2⟩) ∧
    (Solver.mk "1.." .strict).Fails ⟨.numberFormat "1..", 0⟩ ∧
      ∃ more, (Solver.mk ("1.." ++ "5") .strict).Fails ⟨.numberFormat ("1.." ++ more), 0⟩ := by
  have h : (Solver.mk "1 2" .strict).Fails ⟨.trailingInput, 2⟩ := by decide +kernel
  have h' : (Solver.mk "1.." .strict).Fails ⟨.numberFormat "1..", 0⟩ := by decide +kernel
  have hfinal := (fails_append "1 2" "+3" .strict _ h).1 trivial
  have hlonger := (fails_append "1.." "5" .strict _ h').2.1 "1.." rfl (by decide)
  exact ⟨⟨h, hfinal⟩, h', hlonger⟩

end Reckoner
