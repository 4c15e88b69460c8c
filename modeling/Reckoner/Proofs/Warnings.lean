import Reckoner.Proofs.Derivation
import Reckoner.Proofs.Records
import Reckoner.Proofs.Substitution
import Reckoner.Proofs.Tables

/-!
# The warning of a variable in vain

A variable is *idle* if no expression can refer to it: whatever its value is, and be it in the table
or not, every text has the same outcome. A name that is not made of letters is idle, since no symbol
of a text is that name; so is the name of a function, which is read as the function wherever it
stands. Every other variable is the value of the text that consists of its name, so it is not idle
(`Table.idle_iff`).

A warning is logged for the names that are not made of letters. So it is exact but for the names of
functions, which are idle and not warned of (`Scope.warns_iff_idle`).
-/

namespace Reckoner

open Cursor Grammar Binary64

/-! ### Taking a variable away -/

namespace Table

/-- Takes the variable `name` away. -/
def erase (name : String) (table : Table α) : Table α := table.filter fun e => e.1 ≠ name

theorem get?_erase_of_ne {name other : String} (h : other ≠ name) (table : Table α) :
    (table.erase name).get? other = table.get? other := by
  induction table with
  | nil => rfl
  | cons e table ih =>
    obtain ⟨key, v⟩ := e
    rw [get?, get?] at ih
    by_cases hkey : key = name
    · have hne : (other == key) = false := by simpa [hkey] using h
      rw [erase, List.filter_cons_of_neg (by simpa using hkey), get?, get?, List.lookup_cons, hne]
      exact ih
    · rw [erase, List.filter_cons_of_pos (by simpa using hkey), get?, get?, List.lookup_cons,
        List.lookup_cons]
      cases other == key with
      | true => rfl
      | false => exact ih

/-- No expression can refer to the variable `name` of the table: another value, or none, makes no
difference to the outcome of any text. -/
def Idle (table : Table Float) (name : String) : Prop :=
  ∀ text,
    (∀ v, (Solver.mk text (.tolerant (table.set name v))).solve.value =
      (Solver.mk text (.tolerant table)).solve.value) ∧
    (Solver.mk text (.tolerant (table.erase name))).solve.value =
      (Solver.mk text (.tolerant table)).solve.value

end Table

/-! ### Names that no symbol has -/

/-- No symbol of any text is `name`. -/
def NeverSymbol (name : String) : Prop := isName name = false ∨ ∃ f : Func, name = f.name

theorem NeverSymbol.ne {name text : String} (h : NeverSymbol name) {n : Nat × String}
    (hn : n ∈ symbols text.toList) : n.2 ≠ name := by
  rintro rfl
  refine not_unreferenced_of_mem_symbols hn ?_
  rcases h with h | h
  · exact .inr (.inl h)
  · exact .inl h

/-- Tables that are the same but for the variable `name` are the same to every text, if no symbol
is that name. -/
theorem NeverSymbol.solve_eq {name : String} (h : NeverSymbol name) {t u : Table Float}
    (htu : ∀ other, other ≠ name → u.get? other = t.get? other) (text : String) :
    (Solver.mk text (.tolerant u)).solve.value = (Solver.mk text (.tolerant t)).solve.value := by
  have hrun :
      Grammar.solve double (.tolerant u) text = Grammar.solve double (.tolerant t) text := by
    refine solve_rescope fun n hn => ?_
    rw [Scope.resolve, Scope.resolve, htu n.2 (h.ne hn)]
  rw [Solver.solve_value, Solver.solve_value, hrun]

theorem NeverSymbol.idle {name : String} (h : NeverSymbol name) (table : Table Float) :
    table.Idle name := fun text =>
  ⟨fun v => h.solve_eq (fun _ hne => Table.get?_set_of_ne hne v table) text,
    h.solve_eq (fun _ hne => Table.get?_erase_of_ne hne table) text⟩

/-! ### Names that are symbols -/

/-- A name is the only token of its text. -/
theorem tokens_of_isName {name : String} (h : isName name) :
    tokens name.toList = [.name name.toList] := by
  simp only [isName, Bool.and_eq_true, Bool.not_eq_true', List.all_eq_true] at h
  obtain ⟨hne, hl⟩ := h
  have hvalid : (Token.name name.toList).Valid := by
    refine ⟨fun hnil => ?_, hl⟩
    rw [String.toList_eq_nil_iff] at hnil
    rw [hnil] at hne
    cases hne
  have htokens := tokens_chars_append (m := []) hvalid (by simp)
  rwa [List.append_nil, tokens_nil] at htokens

/-- **The text of a name has the value of the variable.** -/
theorem Solver.solve_name {name : String} (h : ¬ NeverSymbol name) (table : Table Float) :
    (Solver.mk name (.tolerant table)).solve.value = .ok ((table.get? name).getD zero) := by
  rw [NeverSymbol, not_or, Bool.not_eq_false] at h
  obtain ⟨hname, hf⟩ := h
  have hderives : Derives double (.tolerant table) .primary (tokens name.toList) []
      ((table.get? (String.ofList name.toList)).getD double.zero) := by
    rw [tokens_of_isName hname]
    exact .name rfl fun f hrun => hf ⟨f, String.toList_inj.mp hrun⟩
  rw [String.ofList_toList] at hderives
  exact Solver.solve_value_eq_ok_iff.mpr <| solve_outcome_eq_ok_iff_derives.mpr <|
    .expression (.product (.factor (.primary hderives)))

/-- **A variable is idle exactly if no symbol can be its name.** -/
theorem Table.idle_iff {table : Table Float} {name : String} :
    table.Idle name ↔ NeverSymbol name := by
  refine ⟨fun hidle => ?_, fun h => h.idle table⟩
  by_contra h
  -- two values for the variable would have to be the value of the text that is its name
  have hvalue (v : Float) : v = (table.get? name).getD zero := by
    have hv := (hidle name).1 v
    rwa [Solver.solve_name h, Solver.solve_name h, get?_set_self, Option.getD_some,
      Except.ok.injEq] at hv
  exact absurd ((hvalue zero).trans (hvalue one).symm) (by decide +kernel)

/-! ### The warning -/

theorem Scope.configure_of_readTable {ρ : Type} {read : ρ → Except Reason Float}
    {entries : List (String × ρ)} {table : Table Float} (h : readTable read entries = .ok table) :
    Scope.configure read (.table entries) =
      ⟨(entries.map Prod.fst |>.filter (!isName ·)).map .unreachable, .ok (.tolerant table)⟩ := by
  have hscope : Scope.ofSubmission read (.table entries) = .ok (.tolerant table) := by
    rw [Scope.ofSubmission, h]
    rfl
  rw [Scope.configure, hscope, ← names_of_readTable h]
  rfl

theorem Scope.warns_iff {ρ : Type} {read : ρ → Except Reason Float} {entries : List (String × ρ)}
    {table : Table Float} (h : readTable read entries = .ok table) {name : String}
    (hn : name ∈ entries.map Prod.fst) :
    .unreachable name ∈ (Scope.configure read (.table entries)).log ↔ isName name = false := by
  rw [Scope.configure_of_readTable h,
    List.mem_map_of_injective fun _ _ => LogRecord.unreachable.inj,
    List.mem_filter, Bool.not_eq_true', and_iff_right hn]

/-- **The warning is exact, but for the names of functions.** A variable of an accepted table is
warned of if and only if no expression can refer to it and it has not the name of a function. No
expression can refer to a variable with such a name either. -/
theorem Scope.warns_iff_idle {ρ : Type} (read : ρ → Except Reason Float)
    (entries : List (String × ρ)) (table : Table Float) (h : readTable read entries = .ok table)
    (name : String) (hn : name ∈ entries.map Prod.fst) :
    (Scope.configure read (.table entries)).value = .ok (.tolerant table) ∧
    (.unreachable name ∈ (Scope.configure read (.table entries)).log ↔
      table.Idle name ∧ ∀ f : Func, name ≠ f.name) ∧
    ((∃ f : Func, name = f.name) → table.Idle name) := by
  refine ⟨by rw [Scope.configure_of_readTable h], ?_, fun hf => Table.idle_iff.mpr (.inr hf)⟩
  rw [Scope.warns_iff h hn, Table.idle_iff]
  constructor
  · intro hname
    refine ⟨.inl hname, ?_⟩
    rintro f rfl
    cases f <;> cases hname
  · rintro ⟨hname | ⟨f, hf⟩, hne⟩
    · exact hname
    · exact absurd hf (hne f)

/-- Of a `Rate`, an `x` and a `sin` only the first is warned of, and only the `x` is not idle. -/
theorem Scope.warns_iff_idle_three :
    let entries : List (String × RawValue) :=
      [("Rate", .number 1.0), ("x", .integer 2), ("sin", .truth true)]
    let table : Table Float := [("Rate", 1.0), ("x", 2.0), ("sin", 1.0)]
    readTable RawValue.read entries = .ok table ∧
      (Scope.configure RawValue.read (.table entries)).log = [.unreachable "Rate"] ∧
      table.Idle "Rate" ∧ ¬ table.Idle "x" ∧ table.Idle "sin" := by
  intro entries table
  have hread : readTable RawValue.read entries = .ok table := by decide +kernel
  have hlog : (Scope.configure RawValue.read (.table entries)).log = [.unreachable "Rate"] := by
    decide +kernel
  obtain ⟨-, hrate, -⟩ := warns_iff_idle RawValue.read entries table hread "Rate" (by decide)
  obtain ⟨-, hx, -⟩ := warns_iff_idle RawValue.read entries table hread "x" (by decide)
  obtain ⟨-, -, hsin⟩ := warns_iff_idle RawValue.read entries table hread "sin" (by decide)
  rw [hlog] at hrate hx
  refine ⟨hread, hlog, (hrate.mp (by decide)).1, fun hidle => ?_, hsin ⟨.sin, rfl⟩⟩
  exact absurd (hx.mpr ⟨hidle, fun f => by cases f <;> decide⟩) (by decide)

/-- A variable `sin` is idle, and yet not warned of. -/
theorem Scope.warns_not_of_function :
    ¬ (.unreachable "sin" ∈ (Scope.configure RawValue.read (.table [("sin", .number 1.0)])).log ↔
      Table.Idle [("sin", 1.0)] "sin") := by
  intro h
  have hmem := h.mpr (Table.idle_iff.mpr (.inr ⟨.sin, rfl⟩))
  have hread : readTable RawValue.read [("sin", .number 1.0)] = .ok [("sin", 1.0)] := by
    decide +kernel
  rw [Scope.warns_iff hread (by decide)] at hmem
  cases hmem

end Reckoner
