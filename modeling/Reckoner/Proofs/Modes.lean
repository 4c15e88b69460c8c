import Reckoner.Proofs.Symbols

/-!
# The two modes

The modes differ only where a symbol is looked up. A run that passes no symbol is therefore one in
both, and a strict run that passes one stops for it. So a text has the same
outcome in both modes, or the strict one fails for its first symbol; which of the two it is can be
told from the symbols within the extent of the tolerant outcome (`Solver.strict_or_unknown`).
-/

namespace Reckoner

open Cursor

namespace Grammar

variable {α : Type} {A : Arithmetic α} {scope : Scope α} {c : Cursor} {r : Run α}

/-! ### Strict and tolerant runs -/

/-- A run that passes no symbol is one in every scope. -/
theorem Runs.rescope_of_eq (scope' : Scope α) {rule : Rule} (h : Runs A scope (.call rule) c r)
    (hs : c.symbols = [] ++ r.cursor.symbols) : Runs A scope' (.call rule) c r :=
  h.rescope nofun hs nofun

/-- A strict run passes no symbol but the one that it stops for. -/
theorem Runs.symbols_of_strict {rule : Rule} (h : Runs A .strict (.call rule) c r) :
    c.symbols = r.unknown ++ r.cursor.symbols := by
  obtain ⟨ns, h⟩ := h.passes nofun
  have hns : r.unknown = ns :=
    h.unknown.trans (List.filter_eq_self.mpr fun _ _ => rfl)
  rw [hns]
  exact h.symbols

/-- A tolerant run stops for no symbol. -/
theorem Runs.unknown_of_tolerant {table : Table α} {rule : Rule}
    (h : Runs A (.tolerant table) (.call rule) c r) : r.unknown = [] := by
  obtain ⟨ns, h⟩ := h.passes nofun
  refine h.unknown.trans (List.filter_eq_nil_iff.mpr fun n _ hn => ?_)
  unfold Scope.refuses at hn
  split at hn
  · next hu => exact Scope.resolve_tolerant_ne_unknown table n.2 hu
  · cases hn

theorem outcome_of_unknown {n : Nat × String} {ns : List (Nat × String)}
    (h : r.unknown = n :: ns) : r.outcome = .error ⟨.unknownSymbol n.2, n.1⟩ := by
  obtain ⟨⟨cause, o⟩ | ⟨v⟩, d, es⟩ := r
  · cases cause <;> cases h
    rfl
  · cases h

end Grammar

namespace Solver

open Grammar

/-- Only a strict scope makes a symbol unknown. -/
theorem Fails.cause_ne_unknownSymbol {text : String} {table : Table Float} {f : Fault}
    (h : (Solver.mk text (.tolerant table)).Fails f) (name : String) :
    f.cause ≠ .unknownSymbol name := by
  intro hc
  rcases fails_iff.mp h with ⟨d, es, hr⟩ | ⟨v, d, es, -, -, rfl⟩
  · have hw : f.Warranted (.tolerant table) (start text) d := hr.warranted rfl
    rw [Fault.Warranted, hc] at hw
    cases hw
  · cases hc

/-- **The outcome is that of the other mode, or the strict one stops for the first symbol.** -/
theorem strict_or_unknown (text : String) (table : Table Float) :
    let strict := Solver.mk text .strict
    let tolerant := Solver.mk text (.tolerant table)
    (strict.solve.value = tolerant.solve.value ∧
      symbols (text.toList.take tolerant.extent) = [] ∧
      ∀ f, strict.Fails f → ∀ name, f.cause ≠ .unknownSymbol name) ∨
    ∃ o name, strict.Fails ⟨.unknownSymbol name, o⟩ ∧
      (symbols (text.toList.take tolerant.extent)).head? = some (o, name) := by
  intro strict tolerant
  set r := Task.run double .strict (.call .expression) (start text)
  set r' := Task.run double (.tolerant table) (.call .expression) (start text)
  have hs : Runs double .strict (.call .expression) (start text) r := runs_run ..
  have ht : Runs double (.tolerant table) (.call .expression) (start text) r' := runs_run ..
  have hpassed : symbols text.toList = symbols (text.toList.take tolerant.extent) ++ _ :=
    symbols_eq (s := tolerant) ht fun f hf => hf.cause_ne_unknownSymbol
  have hpassed' : symbols text.toList = _ := hs.symbols_of_strict
  rcases hu : r.unknown with _ | ⟨⟨o, name⟩, ns⟩
  · -- the strict run passes no symbol, so it is the tolerant one too
    rw [hu] at hpassed'
    have hr : r = r' := eq_run_of_runs (hs.rescope_of_eq (.tolerant table) hpassed')
    have hvalue : strict.solve.value = tolerant.solve.value := by
      rw [solve_value, solve_value]
      exact congrArg (fun run => (run.andThen finish).outcome.mapError (·.within text)) hr
    refine .inl ⟨hvalue, ?_, fun f hf => ?_⟩
    · rw [hpassed', hr, List.nil_append] at hpassed
      exact List.append_left_eq_self.mp hpassed.symm
    · have hf' : tolerant.Fails f := hvalue.symm.trans hf
      exact hf'.cause_ne_unknownSymbol
  · have ho : r.outcome = .error ⟨.unknownSymbol name, o⟩ := outcome_of_unknown hu
    have hf : strict.Fails ⟨.unknownSymbol name, o⟩ :=
      fails_iff.mpr (.inl ⟨r.cursor, r.trace, by rw [← ho]; exact hs⟩)
    refine .inr ⟨o, name, hf, ?_⟩
    rcases hw : symbols (text.toList.take tolerant.extent) with _ | ⟨n, ms⟩
    · -- the tolerant run would pass no symbol, and be the strict one
      rw [hw] at hpassed
      have hr : r' = r := eq_run_of_runs (ht.rescope_of_eq .strict hpassed)
      rw [← hr, ht.unknown_of_tolerant] at hu
      cases hu
    · rw [hw, hpassed', hu] at hpassed
      exact congrArg some (List.cons.inj hpassed).1.symm

/-- **Both modes agree up to the first symbol.** What the strict mode makes of a text the tolerant
one makes of it too, unless a symbol is unknown; that is the first one within the extent of the
tolerant outcome, and the tolerant mode gets beyond it. -/
theorem modes_agree (text : String) (table : Table Float) :
    let strict := Solver.mk text .strict
    let tolerant := Solver.mk text (.tolerant table)
    (∀ v, strict.solve.value = .ok v → tolerant.solve.value = .ok v) ∧
    (∀ f, strict.Fails f → (∀ name, f.cause ≠ .unknownSymbol name) → tolerant.Fails f) ∧
    (∀ f, tolerant.Fails f → ∀ name, f.cause ≠ .unknownSymbol name) ∧
    ∀ name o,
      (strict.Fails ⟨.unknownSymbol name, o⟩ ↔
        (symbols (text.toList.take tolerant.extent)).head? = some (o, name)) ∧
      ∀ f, strict.Fails ⟨.unknownSymbol name, o⟩ → tolerant.Fails f →
        o + name.length ≤ f.offset := by
  intro strict tolerant
  have hnone : ∀ f, tolerant.Fails f → ∀ name, f.cause ≠ .unknownSymbol name :=
    fun f hf => hf.cause_ne_unknownSymbol
  rcases strict_or_unknown text table with ⟨hvalue, hsymbols, hcause⟩ | ⟨o, name, hf, hhead⟩
  · refine ⟨fun v hv => hvalue.symm.trans hv, fun f hf _ => hvalue.symm.trans hf, hnone,
      fun name o => ⟨⟨fun hf => ?_, fun hhead => ?_⟩, fun f hf => ?_⟩⟩
    · exact absurd rfl (hcause _ hf name)
    · rw [hsymbols] at hhead
      cases hhead
    · exact absurd rfl (hcause _ hf name)
  · have hunique {name' : String} {o' : Nat} (hf' : strict.Fails ⟨.unknownSymbol name', o'⟩) :
        o' = o ∧ name' = name := by
      cases hf'.unique hf
      exact ⟨rfl, rfl⟩
    refine ⟨fun v hv => absurd ⟨v, hv⟩ hf.not_accepts, fun g hg hn => ?_, hnone,
      fun name' o' => ⟨⟨fun hf' => ?_, fun hhead' => ?_⟩, fun g hf' hg => ?_⟩⟩
    · exact absurd (congrArg Fault.cause (hg.unique hf)) (hn name)
    · obtain ⟨rfl, rfl⟩ := hunique hf'
      exact hhead
    · cases hhead'.symm.trans hhead
      exact hf
    · obtain ⟨rfl, rfl⟩ := hunique hf'
      have hle := end_le_of_mem_symbols (List.mem_of_mem_head? hhead)
      rw [List.length_take, hg.extent_eq] at hle
      exact hle.trans (Nat.min_le_left _ _)

end Solver

end Reckoner
