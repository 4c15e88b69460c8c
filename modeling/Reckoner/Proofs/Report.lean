import Reckoner.Proofs.Completion

/-!
# What a failure says of its text

A failure has an offset, and what it says is true of the text there (`Fault.Describes`). Where the
fault lies and what stands there is known of every run (`Fails.liesAt`). What is left is the past of
the run, which the place alone does not show: that a missing parenthesis belongs to a group that is
still open, and that trailing input follows after all groups are closed. Both are counted on the way
(`Runs.warranted`, `Runs.nesting_eq`), since a rule that returns has closed what it opened.
-/

namespace Reckoner

open Cursor

/-! ### Places of a text -/

/-- `run` stands at the offset `o` of `text`, and is no part of a longer run of the class `p`. -/
def IsRunAt (p : Char → Bool) (text run : List Char) (o : Nat) : Prop :=
  run ≠ [] ∧ (∀ x ∈ run, p x) ∧ ∃ before after, text = before ++ (run ++ after) ∧
    before.length = o ∧ (∀ x ∈ before.getLast?, p x = false) ∧ ∀ x ∈ after.head?, p x = false

namespace Cursor

variable {l : List Char} {e : Cursor}

theorem Cuts.exists_take (he : Cuts ⟨0, l⟩ e) :
    ∃ u, l = u ++ e.rest ∧ e.pos = u.length ∧ ∀ x ∈ u.getLast?, ∀ y ∈ e.rest.head?, ¬ Joins x y := by
  obtain ⟨u, hu, hpos, hcut⟩ := he
  exact ⟨u, hu, by rw [hpos, Nat.zero_add], hcut⟩

theorem Cuts.getElem?_pos (he : Cuts ⟨0, l⟩ e) : l[e.pos]? = e.peek? := by
  obtain ⟨u, rfl, hpos, -⟩ := he.exists_take
  rw [hpos, List.getElem?_append_right (Nat.le_refl _), Nat.sub_self, peek?,
    List.head?_eq_getElem?]

/-- Before a place are the parentheses that are not after it. -/
theorem Cuts.nesting_take (he : Cuts ⟨0, l⟩ e) :
    nesting (l.take e.pos) = nesting l - nesting e.rest := by
  obtain ⟨u, rfl, hpos, -⟩ := he.exists_take
  rw [hpos, List.take_left, nesting_append]
  omega

/-- A run at a cut is a longest one. -/
theorem Cuts.isRunAt {p : Char → Bool} (hp : ∀ x y, p x → p y → Joins x y)
    (he : Cuts ⟨0, l⟩ e) (hne : e.run p ≠ []) : IsRunAt p l (e.run p) e.pos := by
  obtain ⟨u, rfl, hpos, hcut⟩ := he.exists_take
  have hrest : e.rest = e.run p ++ (e.skip p).rest := List.takeWhile_append_dropWhile.symm
  obtain ⟨y, r, hr⟩ := List.exists_cons_of_ne_nil hne
  have hy : p y := List.mem_takeWhile_imp (hr ▸ List.mem_cons_self : y ∈ e.run p)
  have hhead : e.rest.head? = some y := by rw [hrest, hr]; rfl
  refine ⟨hne, fun x hx => List.mem_takeWhile_imp hx, u, (e.skip p).rest, ?_, hpos.symm, ?_, ?_⟩
  · rw [← hrest]
  · intro x hx
    by_contra hpx
    exact hcut x hx y hhead (hp x y (by simpa using hpx) hy)
  · exact fun x hx => peek?_skip hx

end Cursor

/-! ### The past of a fault -/

/-- What the fault `f` of a rule that runs from `c` to `d` says of the way there: a parenthesis is
missing from a group that was opened, and a name is unknown where there are no variables. No rule
minds what follows after it. -/
def Fault.Warranted (scope : Scope α) (c d : Cursor) (f : Fault) : Prop :=
  match f.cause with
  | .unexpectedCharacter _ => nesting d.rest < nesting c.rest
  | .unknownSymbol _ => scope = .strict
  | .trailingInput => False
  | _ => True

theorem Fault.Warranted.since {scope : Scope α} {c c' d : Cursor} {f : Fault}
    (h : f.Warranted scope c' d) (hn : nesting c'.rest ≤ nesting c.rest) :
    f.Warranted scope c d := by
  obtain ⟨cause, o⟩ := f
  cases cause with
  | unexpectedCharacter found => exact Int.lt_of_lt_of_le h hn
  | _ => exact h

namespace Grammar

variable {α : Type} {A : Arithmetic α} {scope : Scope α}

theorem close_warranted {v : α} {c : Cursor} {f : Fault} (h : (close v c).outcome = .error f)
    {b : Cursor} (hn : nesting c.rest < nesting b.rest) :
    f.Warranted scope b (close v c).cursor := by
  rcases hx : c.ahead? with _ | x
  · rw [close_eq_end hx] at h
    cases h
    trivial
  · by_cases hp : x = ')'
    · subst hp
      rw [close_eq_done hx] at h
      cases h
    · rw [close_eq_mismatch hx hp] at h ⊢
      cases h
      show nesting c.skipBlanks.rest < nesting b.rest
      rwa [nesting_skipBlanks]

theorem literal_warranted {b c : Cursor} {f : Fault} (h : (literal A c).outcome = .error f) :
    f.Warranted scope b (literal A c).cursor := by
  rcases hl : Decimal.ofRun? (c.run isNumeric) with _ | n
  · rw [literal_eq_fail hl] at h
    cases h
    trivial
  · rw [literal_eq_done hl] at h
    cases h

theorem symbol_warranted {name : String} {b c : Cursor} {f : Fault}
    (h : (symbol A scope name c).outcome = .error f) :
    f.Warranted scope b (symbol A scope name c).cursor := by
  rw [symbol_outcome] at h
  cases scope with
  | strict =>
    cases h
    rfl
  | tolerant table => cases h

/-- **A fault is warranted by the way to it.** -/
theorem Runs.warranted {t : Task α} {c : Cursor} {r : Run α} {f : Fault} (h : Runs A scope t c r)
    (hf : r.outcome = .error f) : f.Warranted scope c r.cursor := by
  induction h generalizing f with
  | call _ ih => exact ih hf
  | operandFails _ _ ih => exact ih hf
  | operand _ h _ _ iht => exact (iht hf).since (Int.le_of_eq (h.nesting_eq rfl).symm)
  | stop => cases hf
  | stepFails hx hop _ ih =>
    refine (ih hf).since (Int.le_of_eq ?_)
    rw [nesting_past hx, Rule.nesting_operator? hop, Int.zero_add]
  | step hx hop h _ _ iht =>
    refine (iht hf).since ?_
    rw [nesting_past hx, Rule.nesting_operator? hop, Int.zero_add]
    exact Int.le_of_eq (h.nesting_eq rfl).symm
  | plus hx _ ih => exact (ih hf).since (Int.le_of_eq ((nesting_past hx).trans (Int.zero_add _)).symm)
  | minus hx _ ih =>
    have hw := ih (Run.map_outcome_eq_error_iff.mp hf)
    exact hw.since (Int.le_of_eq ((nesting_past hx).trans (Int.zero_add _)).symm)
  | @apply c _ _ _ _ ih =>
    have hw := ih (Run.map_outcome_eq_error_iff.mp hf)
    have hn : nesting c.pastWord.rest = nesting c.skipBlanks.rest :=
      nesting_skip (by decide) (by decide) _
    exact hw.since (Int.le_of_eq (hn.trans (nesting_skipBlanks c)))
  | primaryFails _ _ ih => exact ih hf
  | primary _ h _ _ ihp => exact (ihp hf).since (Int.le_of_eq (h.nesting_eq rfl).symm)
  | noPower => cases hf
  | raise hx _ ih =>
    have hw := ih (Run.map_outcome_eq_error_iff.mp hf)
    exact hw.since (Int.le_of_eq ((nesting_past hx).trans (Int.zero_add _)).symm)
  | ended =>
    cases hf
    trivial
  | groupFails hx _ ih =>
    refine (ih hf).since ?_
    rw [nesting_past hx]
    exact Int.le_add_of_nonneg_left (by decide)
  | group hx h _ =>
    -- the group that the parenthesis is missing from is one more than what was opened before
    refine close_warranted hf ?_
    rw [nesting_past hx, h.nesting_eq rfl]
    exact Int.lt_add_of_pos_left _ (by decide)
  | literal => exact literal_warranted hf
  | name => exact symbol_warranted hf
  | empty => cases hf

end Grammar

/-! ### Whole texts -/

/-- What the fault `f` says is true of `text`. -/
def Fault.Describes (text : String) (scope : Scope α) (f : Fault) : Prop :=
  match f.cause with
  | .unexpectedEnd => f.offset = text.length
  | .unexpectedCharacter found =>
    ∃ x, text.toList[f.offset]? = some x ∧ found = some (String.singleton x) ∧ isBlank x = false ∧
      x ∉ [')', '+', '-', '*', '/', '^'] ∧ 0 < nesting (text.toList.take f.offset)
  | .trailingInput =>
    ∃ x, text.toList[f.offset]? = some x ∧ isBlank x = false ∧ x ∉ ['+', '-', '*', '/', '^'] ∧
      nesting (text.toList.take f.offset) = 0
  | .numberFormat l =>
    IsRunAt isNumeric text.toList l.toList f.offset ∧
      ((∀ x ∈ l.toList, x.isDigit = false) ∨ 2 ≤ l.toList.count '.')
  | .unknownSymbol name =>
    scope = .strict ∧ IsRunAt isLetter text.toList name.toList f.offset ∧
      ∀ function : Func, name ≠ function.name
  | .unknownFunction _ | .other _ => False

/-- Where an expression stops, no operator follows. -/
theorem Cursor.StopOf.ne_operator {e : Cursor} {x : Char} (h : e.StopOf .expression)
    (hx : e.ahead? = some x) : x ∉ ['+', '-', '*', '/', '^'] := by
  have ht := h.takes x hx
  simp only [Rule.takes, Bool.or_eq_false_iff, beq_eq_false_iff_ne] at ht
  simp [ht]

theorem Cursor.StopOf.peek? {rule : Rule} {e : Cursor} (h : e.StopOf rule) :
    e.peek? = e.ahead? := by
  rw [ahead?, h.skipBlanks]

/-- What stands at the fault of a rule is what it says. -/
theorem Fault.LiesAt.describes {text : String} {scope : Scope α} {f : Fault} {e d : Cursor}
    (hl : f.LiesAt e d) (he : (start text).Cuts e) (hw : f.Warranted scope (start text) d) :
    f.Describes text scope := by
  cases hl with
  | unexpectedEnd hr =>
    have htotal := he.reaches.total
    rwa [hr, start, List.length_nil, Nat.zero_add, String.length_toList] at htotal
  | unexpectedCharacter hx hp hs =>
    refine ⟨_, ?_, rfl, skipBlanks_rest_head hx, ?_, ?_⟩
    · rw [he.getElem?_pos, hs.peek?, hx]
    · exact List.not_mem_cons_of_ne_of_not_mem hp (hs.ne_operator hx)
    · rw [he.nesting_take]
      exact Int.sub_pos_of_lt hw
  | trailingInput => exact hw.elim
  | numberFormat hne hn =>
    refine ⟨?_, ?_⟩
    · rw [String.toList_ofList]
      exact he.isRunAt (fun _ _ hx hy => .inl ⟨hx, hy⟩) hne
    · rw [String.toList_ofList]
      exact Decimal.ofRun?_eq_none_iff.mp hn
  | unknownSymbol hne hn =>
    refine ⟨hw, ?_, fun function hname => ?_⟩
    · rw [String.toList_ofList]
      exact he.isRunAt (fun _ _ hx hy => .inr ⟨hx, hy⟩) hne
    · rw [hname, Func.ofName?_name] at hn
      cases hn

namespace Solver

open Grammar

/-- **Every failure says what is at its offset.** -/
theorem describes_of_error (text : String) (scope : Scope Float) (e : Failure)
    (h : (Solver.mk text scope).solve.value = .error e) :
    ∃ f : Fault, e = ⟨f.cause, some f.offset, some text⟩ ∧ f.Describes text scope := by
  obtain ⟨f, rfl, hf⟩ := fails_of_error h
  refine ⟨f, rfl, ?_⟩
  rcases fails_iff.mp hf with ⟨d, es, hr⟩ | ⟨v, d, es, hr, hd, rfl⟩
  · obtain ⟨e, he, hl⟩ := hr.liesAt rfl nofun
    exact hl.describes he (hr.warranted rfl)
  · have he : (start text).Cuts d := hr.cuts rfl
    have hs : d.StopOf .expression := hr.stopsAt rfl
    obtain ⟨x, hx⟩ : ∃ x, d.ahead? = some x := by
      rw [← Option.ne_none_iff_exists', Ne, ← skipBlanks_rest_eq_nil_iff, hs.skipBlanks]
      exact hd
    have hn : nesting text.toList = nesting d.rest := hr.nesting_eq rfl
    refine ⟨x, ?_, skipBlanks_rest_head hx, hs.ne_operator hx, ?_⟩
    · rw [he.getElem?_pos, hs.peek?, hx]
    · rw [he.nesting_take, hn, Int.sub_self]

/-- In `(1+2 3` the parenthesis is missing at the `3`, where the group is still open. -/
theorem describes_missing_parenthesis :
    (Solver.mk "(1+2 3" .strict).solve.value =
        .error ⟨.unexpectedCharacter (some "3"), some 5, some "(1+2 3"⟩ ∧
      Fault.Describes "(1+2 3" (.strict : Scope Float) ⟨.unexpectedCharacter (some "3"), 5⟩ := by
  have h : (Solver.mk "(1+2 3" .strict).solve.value =
      .error ⟨.unexpectedCharacter (some "3"), some 5, some "(1+2 3"⟩ := by decide +kernel
  obtain ⟨⟨cause, o⟩, he, hf⟩ := describes_of_error "(1+2 3" .strict _ h
  simp only [Failure.mk.injEq, Option.some.injEq, and_true] at he
  obtain ⟨rfl, ho⟩ := he
  obtain rfl : 5 = o := Int.ofNat_inj.mp ho
  exact ⟨h, hf⟩

end Solver

end Reckoner
