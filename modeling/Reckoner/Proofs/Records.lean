import Reckoner.Proofs.Modes

/-!
# The log of a text

What is logged on the way to an outcome can be told from the submitted table, the text and the
extent of the outcome. The table gives a warning for each name that no expression can refer to. The
text gives a record for each symbol within the extent that is not in the table, as often as it
stands there. The value is logged last, if there is one. `solveText_log` says so of the records and
of the lines that they are written in.
-/

namespace Reckoner

open Cursor Grammar

/-! ### Submitted tables -/

section

variable {ρ : Type} {read : ρ → Except Reason Float} {entries : List (String × ρ)}
  {table : Table Float}

/-- A table that is read has the names that were submitted, in their order. -/
theorem names_of_readTable (h : readTable read entries = .ok table) :
    table.map Prod.fst = entries.map Prod.fst := by
  induction entries generalizing table with
  | nil =>
    cases h
    rfl
  | cons e entries ih =>
    obtain ⟨name, raw⟩ := e
    rw [readTable] at h
    split at h
    · cases h
      exact congrArg (name :: ·) (ih ‹_›)
    all_goals cases h

end

/-- The strict scope misses no name, it refuses them all. -/
theorem Scope.filter_misses_strict (names : List String) :
    names.filter (Scope.strict : Scope α).misses = [] :=
  List.filter_eq_nil_iff.mpr fun _ _ => Bool.false_ne_true

/-- A name is missing from the tables that do not have it. -/
theorem Scope.misses_tolerant (table : Table α) (name : String) :
    (Scope.tolerant table).misses name = decide (name ∉ table.map Prod.fst) := by
  have hget : table.get? name = none ↔ name ∉ table.map Prod.fst := by
    rw [Table.get?, List.lookup_eq_none_iff]
    simp only [List.mem_map, not_exists, not_and, bne_iff_ne]
    exact ⟨fun h e he hn => h e he hn.symm, fun h e he hn => h e he hn.symm⟩
  rw [misses, resolve]
  cases hn : table.get? name with
  | none => exact (decide_eq_true (hget.mp hn)).symm
  | some v =>
    refine (decide_eq_false fun h => ?_).symm
    rw [hget.mpr h] at hn
    cases hn

/-! ### The records of a run -/

theorem Event.records_eq (r : Run α) : Event.records r.trace = r.missing.map .defaulted := by
  rw [Run.missing, List.map_filterMap]
  exact List.filterMap_congr fun e _ => by cases e <;> rfl

namespace Solver

/-- The record of the value, if there is one. -/
def solved (s : Solver) : List LogRecord :=
  match s.solve.value with
  | .ok v => [.solved s.expression v]
  | .error _ => []

theorem solve_log_eq (s : Solver) :
    s.solve.log =
      (Task.run double s.scope (.call .expression) (start s.expression)).missing.map .defaulted ++
        s.solved := by
  rw [← Event.records_eq, ← Grammar.solve_trace, solved, solve_value]
  unfold solve
  cases h : (Grammar.solve double s.scope s.expression).outcome with
  | ok v =>
    simp only [h]
    rfl
  | error f =>
    simp only [h]
    exact (List.append_nil _).symm

/-- **Solving logs each missing symbol within the extent of the outcome**, in the order of the text,
and then the value. -/
theorem solve_log (s : Solver) :
    s.solve.log =
      (((symbols (s.expression.toList.take s.extent)).map Prod.snd).filter s.scope.misses).map
        .defaulted ++ s.solved := by
  have hr : Runs double s.scope (.call .expression) (start s.expression)
      (Task.run double s.scope (.call .expression) (start s.expression)) := runs_run ..
  obtain ⟨ns, hp⟩ := hr.passes nofun
  rw [solve_log_eq, hp.missing]
  obtain ⟨text, ⟨⟩ | ⟨table⟩⟩ := s
  · rw [Scope.filter_misses_strict, Scope.filter_misses_strict]
  · have hsymbols := symbols_eq hr fun f hf => hf.cause_ne_unknownSymbol
    have hns : ns = symbols (text.toList.take (Solver.mk text (.tolerant table)).extent) :=
      List.append_cancel_right (hp.symbols.symm.trans hsymbols)
    rw [hns]

/-- In the strict mode only a value is logged. -/
theorem solve_log_strict (text : String) :
    (Solver.mk text .strict).solve.log = (Solver.mk text .strict).solved := by
  rw [solve_log, Scope.filter_misses_strict]
  rfl

end Solver

/-! ### Submitted variables -/

section

variable {ρ : Type} {read : ρ → Except Reason Float} {submission : Submission ρ}
  {scope : Scope Float} {text : String}

/-- With variables that are accepted the solver has their scope, and each of them that no expression
can refer to is logged. -/
theorem Solver.make_of_scope (h : Scope.ofSubmission read submission = .ok scope) :
    Solver.make read text submission none =
      ⟨scope.unreachable.map .unreachable, .ok ⟨text, scope⟩⟩ := by
  cases submission with
  | absent =>
    cases h
    rfl
  | malformed => cases h
  | table entries =>
    show Scope.configure read (.table entries) >>= _ = _
    rw [Scope.configure, h]
    simp [Bind.bind, Pure.pure]

theorem solveText_of_scope (h : Scope.ofSubmission read submission = .ok scope) :
    solveText read text submission =
      ⟨scope.unreachable.map .unreachable ++ (Solver.mk text scope).solve.log,
        (Solver.mk text scope).solve.value.mapError .failed⟩ := by
  rw [solveText, Solver.make_of_scope h]
  rcases hv : (Solver.mk text scope).solve with ⟨log, ⟨e⟩ | ⟨v⟩⟩ <;>
  · simp only [Bind.bind, Pure.pure, hv, List.append_nil]
    rfl

end

/-- **The log of a text with a table of variables** is that of the names that no expression can
refer to, of the symbols that are not in the table, and of the value. The symbols are those within
the extent of the outcome. Without a table it is that of the value alone. The lines say under which
logger, how grave and in which words each of them is written. -/
theorem solveText_log {ρ : Type} (read : ρ → Except Reason Float) (text : String)
    (entries : List (String × ρ)) (table : Table Float)
    (h : readTable read entries = .ok table) :
    let s := Solver.mk text (.tolerant table)
    let names := entries.map Prod.fst
    let unreachable := names.filter (!isName ·)
    let missing := ((symbols (text.toList.take s.extent)).map Prod.snd).filter (· ∉ names)
    let valueLine (outcome : Except Failure Float) : List LogLine :=
      match outcome with
      | .ok v => [⟨"DEBUG", "exprsolve.solver",
          "Solved " ++ Text.quote text ++ " = " ++ Binary64.text v⟩]
      | .error _ => []
    (solveText read text (.table entries)).value = s.solve.value.mapError .failed ∧
    (solveText read text (.table entries)).log =
      unreachable.map .unreachable ++ missing.map .defaulted ++ s.solved ∧
    (solveText read text (.table entries)).log.map LogRecord.written =
      unreachable.map (fun name => ⟨"WARNING", "exprsolve.config", "Variable " ++
        Text.quote name ++ " can never be referenced: names are lowercase a-z only"⟩) ++
      missing.map (fun name => ⟨"DEBUG", "exprsolve.config", "Variable " ++
        Text.quote name ++ " not in table, using 0.0"⟩) ++
      valueLine s.solve.value ∧
    (solveText read text .absent).value =
      (Solver.mk text .strict).solve.value.mapError .failed ∧
    (solveText read text .absent).log = (Solver.mk text .strict).solved ∧
    (solveText read text .absent).log.map LogRecord.written =
      valueLine (Solver.mk text .strict).solve.value := by
  intro s names unreachable missing valueLine
  have htable : Scope.ofSubmission read (.table entries) = .ok (.tolerant table) := by
    rw [Scope.ofSubmission, h]
    rfl
  have hstrict : Scope.ofSubmission read .absent = .ok .strict := rfl
  have hunreachable : (Scope.tolerant table).unreachable = unreachable :=
    congrArg (List.filter (!isName ·)) (names_of_readTable h)
  have hmisses : s.scope.misses = fun name => decide (name ∉ names) := by
    funext name
    rw [Scope.misses_tolerant, names_of_readTable h]
  have hlog : (solveText read text (.table entries)).log =
      unreachable.map .unreachable ++ missing.map .defaulted ++ s.solved := by
    rw [solveText_of_scope htable, hunreachable, Solver.solve_log, hmisses, List.append_assoc]
  have hlogStrict : (solveText read text .absent).log = (Solver.mk text .strict).solved := by
    rw [solveText_of_scope hstrict]
    exact Solver.solve_log_strict text
  have hsolved (scope : Scope Float) : (Solver.mk text scope).solved.map LogRecord.written =
      valueLine (Solver.mk text scope).solve.value := by
    unfold Solver.solved
    cases (Solver.mk text scope).solve.value <;> rfl
  refine ⟨?_, hlog, ?_, ?_, hlogStrict, ?_⟩
  · rw [solveText_of_scope htable]
  · rw [hlog, List.map_append, List.map_append, List.map_map, List.map_map, hsolved]
    rfl
  · rw [solveText_of_scope hstrict]
  · rw [hlogStrict, hsolved]

/-- In `x*y+(z` the missing `y` and `z` are logged after the variable `Y`, which has been submitted
in vain; there is no value because a parenthesis is missing at the end. -/
theorem solveText_log_open_group :
    let entries : List (String × RawValue) := [("x", .number 2.0), ("Y", .truth true)]
    readTable RawValue.read entries = .ok [("x", 2.0), ("Y", 1.0)] ∧
      (solveText RawValue.read "x*y+(z" (.table entries)).log =
        [.unreachable "Y", .defaulted "y", .defaulted "z"] ∧
      (solveText RawValue.read "x*y+(z" (.table entries)).log.map LogRecord.written =
        [⟨"WARNING", "exprsolve.config",
            "Variable 'Y' can never be referenced: names are lowercase a-z only"⟩,
          ⟨"DEBUG", "exprsolve.config", "Variable 'y' not in table, using 0.0"⟩,
          ⟨"DEBUG", "exprsolve.config", "Variable 'z' not in table, using 0.0"⟩] := by
  intro entries
  have hread : readTable RawValue.read entries = .ok [("x", 2.0), ("Y", 1.0)] := by decide +kernel
  obtain ⟨-, hlog, hwritten, -⟩ := solveText_log RawValue.read "x*y+(z" entries _ hread
  refine ⟨hread, ?_, ?_⟩
  · rw [hlog]
    decide +kernel
  · rw [hwritten]
    decide +kernel

end Reckoner
