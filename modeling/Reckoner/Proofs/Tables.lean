import Reckoner.Proofs.Symbols

/-!
# Two tables

What stands in a table never decides how a text is read: with two tables its runs are alike,
whatever the values are, and fail for the same fault if they fail (`Grammar.solve_tables`). A value
depends on the tables only by what the symbols of the text stand for in them. A variable that no
symbol of the text can be has no influence at all, be it in one of the tables or in both.
-/

namespace Reckoner

open Cursor

/-! ### The same places -/

/-- `d` is the place `c` of the text from `b` on, which is not inside a run. -/
def SamePlace (b c d : Cursor) : Prop := d = c ∧ b.Cuts c

theorem likeness_samePlace (b : Cursor) : Likeness (SamePlace b) where
  skipBlanks := by
    rintro c _ ⟨rfl, h⟩
    exact ⟨rfl, h.trans (cuts_skipBlanks _)⟩
  token := by
    rintro c _ ⟨rfl, h⟩
    exact .inl ⟨rfl, rfl, h.trans (cuts_pastToken _)⟩

/-- Operations on values that may be anything. -/
theorem Arithmetic.respects_true (A : Arithmetic α) (B : Arithmetic β) :
    A.Respects (fun _ _ => True) B := by
  constructor <;> intros <;> trivial

theorem mem_symbols_of_cuts {text : String} {c : Cursor} {n : Nat × String}
    (h : (start text).Cuts c) (hn : n ∈ c.symbols) : n ∈ symbols text.toList := by
  rw [Cuts.symbols h]
  exact List.mem_append_right _ hn

namespace Grammar

variable {α β : Type} {V : α → β → Prop} {A : Arithmetic α} {B : Arithmetic β} {t : Table α}
  {u : Table β} {text : String}

theorem namesLike_tables
    (hv : ∀ n ∈ symbols text.toList,
      V ((t.get? n.2).getD A.zero) ((u.get? n.2).getD B.zero)) :
    NamesLike V (SamePlace (start text)) A B (.tolerant t) (.tolerant u) := by
  rintro _ c w ⟨rfl, hc⟩ hw hf
  obtain ⟨rfl, x, hx, hl⟩ := word_of_token_name hw
  have hmem : (c.skipBlanks.pos, String.ofList c.word) ∈ symbols text.toList := by
    refine mem_symbols_of_cuts hc ?_
    rw [symbols_of_symbol hx hl hf]
    exact List.mem_cons_self
  exact symbol_like ⟨rfl, hc⟩ ⟨rfl, hc.trans (cuts_pastToken c)⟩ hw hw (.some (hv _ hmem))

/-- **With two tables a text has like values, or the same fault.** -/
theorem solve_tables (t : Table α) (u : Table β) (text : String) (hA : A.Respects V B)
    (hv : ∀ n ∈ symbols text.toList,
      V ((t.get? n.2).getD A.zero) ((u.get? n.2).getD B.zero)) :
    (∃ v w, (solve A (.tolerant t) text).outcome = .ok v ∧
      (solve B (.tolerant u) text).outcome = .ok w ∧ V v w) ∨
    ∃ f, (solve A (.tolerant t) text).outcome = .error f ∧
      (solve B (.tolerant u) text).outcome = .error f := by
  obtain ⟨hvalue, hfault⟩ := solve_like (likeness_samePlace (start text)) hA (namesLike_tables hv)
    ⟨rfl, .refl (start text)⟩
  cases h : (solve A (.tolerant t) text).outcome with
  | ok v =>
    obtain ⟨w, hw, hvw⟩ := hvalue v h
    exact .inl ⟨v, w, rfl, hw, hvw⟩
  | error f =>
    obtain ⟨g, hg, hl⟩ := hfault f h
    exact .inr ⟨f, rfl, hl.eq (fun _ _ => And.left) ▸ hg⟩

end Grammar

/-! ### Variables that a text does not refer to -/

/-- No symbol of the text can be the variable `name`: it is the name of a function, it is not made
of letters, or it does not occur in the text. -/
def Unreferenced (text name : String) : Prop :=
  (∃ f : Func, name = f.name) ∨ isName name = false ∨
    ∀ o, ¬ IsRunAt isLetter text.toList name.toList o

theorem not_unreferenced_of_mem_symbols {text : String} {n : Nat × String}
    (h : n ∈ symbols text.toList) : ¬ Unreferenced text n.2 := by
  obtain ⟨hn, hf⟩ := List.mem_filter.mp h
  have hrun : IsRunAt isLetter text.toList n.2.toList n.1 := mem_names_iff.mp hn
  rintro (⟨f, hname⟩ | hname | hrun')
  · rw [hname, Func.ofName?_name] at hf
    cases hf
  · have hletters : n.2.toList.all isLetter := List.all_eq_true.mpr hrun.2.1
    have hne : n.2 ≠ "" := fun he => hrun.1 (he ▸ rfl)
    simp [isName, hletters, hne] at hname
  · exact hrun' n.1 hrun

namespace Grammar

variable {α : Type} {A : Arithmetic α} {scope scope' : Scope α} {text : String}

/-- The run of a text is decided by what its symbols stand for. -/
theorem solve_rescope
    (h : ∀ n ∈ symbols text.toList, scope'.resolve n.2 = scope.resolve n.2) :
    solve A scope' text = solve A scope text := by
  have hr : Runs A scope (.call .expression) (start text)
      (Task.run A scope (.call .expression) (start text)) := runs_run ..
  obtain ⟨ns, hp⟩ := hr.passes nofun
  have hmem : ∀ n ∈ ns, n ∈ symbols text.toList := fun n hn => by
    rw [symbols, show Cursor.mk 0 text.toList = start text from rfl, hp.symbols]
    exact List.mem_append_left _ hn
  have hr' := hr.rescope nofun hp.symbols fun n hn => h n (hmem n hn)
  exact congrArg (Run.andThen · finish) (eq_run_of_runs hr').symm

end Grammar

namespace Solver

/-- **The values in a table do not steer the reading of a text, and only those of its symbols have
an influence.** With two tables a text has values in both, or the same fault. The values are the
same if each symbol stands for the same double, and what a table has for a name that the text cannot
refer to changes neither the outcome nor the log. -/
theorem solve_two_tables (text : String) (t u : Table Float) :
    let s := Solver.mk text (.tolerant t)
    let s' := Solver.mk text (.tolerant u)
    (s.Accepts ∧ s'.Accepts ∨ ∃ f, s.Fails f ∧ s'.Fails f) ∧
    ((∀ n ∈ symbols text.toList,
        (t.get? n.2).getD Binary64.zero = (u.get? n.2).getD Binary64.zero) →
      s.solve.value = s'.solve.value) ∧
    ((∀ name, Unreferenced text name ∨ t.get? name = u.get? name) → s.solve = s'.solve) := by
  intro s s'
  refine ⟨?_, fun hv => ?_, fun hu => ?_⟩
  · rcases Grammar.solve_tables t u text (double.respects_true double) fun _ _ => trivial with
      ⟨v, w, hv, hw, -⟩ | ⟨f, hf, hf'⟩
    · exact .inl ⟨⟨v, solve_value_eq_ok_iff.mpr hv⟩, ⟨w, solve_value_eq_ok_iff.mpr hw⟩⟩
    · exact .inr ⟨f, solve_value_eq_error_iff.mpr ⟨f, hf, rfl⟩,
        solve_value_eq_error_iff.mpr ⟨f, hf', rfl⟩⟩
  · rw [solve_value, solve_value]
    rcases Grammar.solve_tables t u text double.respects_eq hv with
      ⟨v, w, hv, hw, rfl⟩ | ⟨f, hf, hf'⟩
    · rw [hv, hw]
    · rw [hf, hf']
  · have hresolve : ∀ n ∈ symbols text.toList, s.scope.resolve n.2 = s'.scope.resolve n.2 := by
      intro n hn
      have hget : t.get? n.2 = u.get? n.2 :=
        (hu n.2).resolve_left (not_unreferenced_of_mem_symbols hn)
      simp only [s, s', Scope.resolve, hget]
    have hrun : Grammar.solve double s.scope text = Grammar.solve double s'.scope text :=
      Grammar.solve_rescope hresolve
    simp only [solve, s, s'] at hrun ⊢
    rw [hrun]

end Solver

end Reckoner
