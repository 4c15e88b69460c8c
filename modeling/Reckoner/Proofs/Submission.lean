import Reckoner.Proofs.Warnings

/-!
# Submitted tables are taken as a whole

Either each entry of a submitted table is read, or each one that cannot be read is refused
(`readTable_spec`). Which of the two it is does not depend on where the entries stand: a single one
that cannot be read is enough.

There are three ways from a submitted table to a scope: to configure, to configure as tolerant, and
to make a solver. They agree on the table, on the rejections and on the log
(`Scope.configure_all_or_nothing`). A solver is made of a table that is accepted only, so with one
that is not no expression is evaluated.
-/

namespace Reckoner

variable {ρ : Type}

/-! ### Reading a table -/

namespace Table

variable (read : ρ → Except Reason Float)

/-- `table` has the names of `entries`, in their order, each with the double that its raw value is
read as. -/
def Reads (entries : List (String × ρ)) (table : Table Float) : Prop :=
  List.Forall₂ (fun e f => f.1 = e.1 ∧ read e.2 = .ok f.2) entries table

/-- The entries that cannot be read. -/
def unreadable (entries : List (String × ρ)) : List (String × ρ) :=
  entries.filter fun e => !(read e.2).isOk

/-- There is one rejection for each entry that cannot be read, in their order. It has the name of
the entry in its location, and the reason why the raw value cannot be read. -/
def Refuses (entries : List (String × ρ)) (rejections : List Rejection) : Prop :=
  List.Forall₂ (fun e r => r.location = ["variables", e.1] ∧ read e.2 = .error r.reason)
    (unreadable read entries) rejections

variable {read} {entries : List (String × ρ)} {name : String} {raw : ρ}

theorem unreadable_cons_ok {v : Float} (h : read raw = .ok v) :
    unreadable read ((name, raw) :: entries) = unreadable read entries :=
  List.filter_cons_of_neg (by rw [h]; exact Bool.false_ne_true)

theorem unreadable_cons_error {reason : Reason} (h : read raw = .error reason) :
    unreadable read ((name, raw) :: entries) = (name, raw) :: unreadable read entries :=
  List.filter_cons_of_pos (by rw [h]; rfl)

theorem unreadable_eq_nil_iff :
    unreadable read entries = [] ↔ ∀ e ∈ entries, ∃ v, read e.2 = .ok v := by
  rw [unreadable, List.filter_eq_nil_iff]
  refine forall₂_congr fun e _ => ?_
  cases read e.2 <;> simp [Except.isOk, Except.toBool]

/-- All entries of a table that is read can be read. -/
theorem Reads.unreadable_eq_nil {table : Table Float} (h : Reads read entries table) :
    unreadable read entries = [] := by
  induction h with
  | nil => rfl
  | cons he _ ih => rw [unreadable_cons_ok he.2, ih]

end Table

open Table

/-- **A table is read or refused**, and refused only for a rejection. -/
theorem readTable_spec (read : ρ → Except Reason Float) (entries : List (String × ρ)) :
    (∃ table, readTable read entries = .ok table ∧ Reads read entries table) ∨
      ∃ rejections, readTable read entries = .error rejections ∧ rejections ≠ [] ∧
        Refuses read entries rejections := by
  induction entries with
  | nil => exact .inl ⟨[], rfl, .nil⟩
  | cons e entries ih =>
    obtain ⟨name, raw⟩ := e
    rw [readTable]
    rcases hraw : read raw with reason | v <;>
      obtain ⟨table, htable, hreads⟩ | ⟨rejections, hrejections, hne, hrefuses⟩ := ih
    · refine .inr ⟨[⟨some name, reason⟩], by rw [htable], List.cons_ne_nil _ _, ?_⟩
      rw [Refuses, unreadable_cons_error hraw, hreads.unreadable_eq_nil]
      exact .cons ⟨rfl, hraw⟩ .nil
    · refine .inr ⟨⟨some name, reason⟩ :: rejections, by rw [hrejections], List.cons_ne_nil _ _, ?_⟩
      rw [Refuses, unreadable_cons_error hraw]
      exact .cons ⟨rfl, hraw⟩ hrefuses
    · exact .inl ⟨(name, v) :: table, by rw [htable], .cons ⟨rfl, hraw⟩ hreads⟩
    · refine .inr ⟨rejections, by rw [hrejections], hne, ?_⟩
      rwa [Refuses, unreadable_cons_ok hraw]

section

variable {read : ρ → Except Reason Float} {entries : List (String × ρ)}

theorem readTable_of_readable (h : ∀ e ∈ entries, ∃ v, read e.2 = .ok v) :
    ∃ table, readTable read entries = .ok table ∧ Reads read entries table := by
  refine (readTable_spec read entries).resolve_right ?_
  rintro ⟨rejections, -, hne, hrefuses⟩
  rw [Refuses, unreadable_eq_nil_iff.mpr h, List.forall₂_nil_left_iff] at hrefuses
  exact hne hrefuses

theorem readTable_of_unreadable (h : ∃ e ∈ entries, ∃ reason, read e.2 = .error reason) :
    ∃ rejections, readTable read entries = .error rejections ∧ Refuses read entries rejections := by
  obtain ⟨e, he, reason, hreason⟩ := h
  obtain ⟨table, -, hreads⟩ | ⟨rejections, hrejections, -, hrefuses⟩ := readTable_spec read entries
  · obtain ⟨v, hv⟩ := unreadable_eq_nil_iff.mp hreads.unreadable_eq_nil e he
    cases hv.symm.trans hreason
  · exact ⟨rejections, hrejections, hrefuses⟩

/-! ### From a table to a solver -/

theorem configure_of_error {rejections : List Rejection}
    (h : readTable read entries = .error rejections) :
    Scope.configure read (.table entries) = ⟨[], .error rejections⟩ := by
  rw [Scope.configure, Scope.ofSubmission, h]
  rfl

variable (read entries) in
/-- A solver is made of the scope that the table is configured to, and only if it is. -/
theorem make_eq_configure (text : String) :
    Solver.make read text (.table entries) none =
      ⟨(Scope.configure read (.table entries)).log,
        match (Scope.configure read (.table entries)).value with
        | .ok scope => .ok ⟨text, scope⟩
        | .error rejections => .error (.rejected rejections)⟩ := by
  show Scope.configure read (.table entries) >>= _ = _
  obtain ⟨log, ⟨rejections⟩ | ⟨scope⟩⟩ := Scope.configure read (.table entries) <;>
    exact congrArg (Logged.mk · _) (List.append_nil log)

end

/-- **A submitted table is taken as a whole**, on each of the three ways to a scope. If all raw
values are read, the scope is tolerant and has them all, and there is one warning for each name that
no expression can refer to. If one is not, there is one rejection for each that is not, and neither
a warning nor a value. -/
theorem Scope.configure_all_or_nothing (read : ρ → Except Reason Float)
    (entries : List (String × ρ)) (text : String) :
    ((∀ e ∈ entries, ∃ v, read e.2 = .ok v) → ∃ table,
      let warnings := ((entries.map Prod.fst).filter (!isName ·)).map LogRecord.unreachable
      Reads read entries table ∧
      configure read (.table entries) = ⟨warnings, .ok (.tolerant table)⟩ ∧
      configureTolerant read (.table entries) = ⟨warnings, .ok (.tolerant table)⟩ ∧
      Solver.make read text (.table entries) none = ⟨warnings, .ok ⟨text, .tolerant table⟩⟩) ∧
    ((∃ e ∈ entries, ∃ reason, read e.2 = .error reason) → ∃ rejections,
      Refuses read entries rejections ∧
      configure read (.table entries) = ⟨[], .error rejections⟩ ∧
      configureTolerant read (.table entries) = ⟨[], .error rejections⟩ ∧
      Solver.make read text (.table entries) none = ⟨[], .error (.rejected rejections)⟩ ∧
      solveText read text (.table entries) = ⟨[], .error (.rejected rejections)⟩) := by
  constructor
  · intro h
    obtain ⟨table, htable, hreads⟩ := readTable_of_readable h
    have hconfigure := configure_of_readTable htable
    refine ⟨table, hreads, hconfigure, hconfigure, ?_⟩
    rw [make_eq_configure, hconfigure]
  · intro h
    obtain ⟨rejections, hrejections, hrefuses⟩ := readTable_of_unreadable h
    have hconfigure := configure_of_error hrejections
    have hmake : Solver.make read text (.table entries) none =
        ⟨[], .error (.rejected rejections)⟩ := by
      rw [make_eq_configure, hconfigure]
    refine ⟨rejections, hrefuses, hconfigure, hconfigure, hmake, ?_⟩
    rw [solveText, hmake]
    rfl

/-- A readable variable in vain is not warned of beside two that cannot be read. -/
example :
    let entries := [("Y", .number 1.0), ("x", .text "one"), ("z", .other)]
    (Scope.configure RawValue.read (.table entries)).log = [] ∧
      (Scope.configure RawValue.read (.table entries)).value =
        .error [⟨some "x", .unreadable⟩, ⟨some "z", .notNumber⟩] := by
  decide +kernel

end Reckoner
