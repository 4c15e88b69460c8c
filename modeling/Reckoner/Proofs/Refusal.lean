import Reckoner.Proofs.Records

/-!
# Operands that a machine refuses

A machine may refuse a division by zero, the root of a negative number, the logarithm of a number
that is not positive, and the sine and cosine of an infinity. The operations on doubles are guarded
so that none of these is ever asked for (`Machine.AnswersAs.respects`). On a machine that refuses
them every value that arises in the run of a text is therefore a double, whatever the doubles are
that arise before it, and also if the run fails in the end (`Grammar.Arises.like`).

What is left are the faults of the expression. `solveText` returns a double or one of five of them,
and `trySolve` reports the same (`solveText_or_fault`).
-/

namespace Reckoner

open Binary64 Cursor Grammar

/-! ### Comparisons of doubles -/

theorem lt_or_beq_of_le {x y : Float} (h : x ≤ y) : x < y ∨ x == y := by
  have hle : x.toModel.unpack.le y.toModel.unpack := of_decide_eq_true h
  have hlt : x.toModel.unpack.lt y.toModel.unpack → x < y := fun h => decide_eq_true h
  have hbeq : x.toModel.unpack.beq y.toModel.unpack → x == y := id
  unfold Float.Model.UnpackedFloat.le at hle
  unfold Float.Model.UnpackedFloat.lt at hlt
  unfold Float.Model.UnpackedFloat.beq at hbeq
  rcases hc : x.toModel.unpack.compare y.toModel.unpack with _ | ⟨⟩ | ⟨⟩ | ⟨⟩
  · simp [hc] at hle
  · exact .inl (hlt (by simp [hc]))
  · exact .inr (hbeq (by simp [hc]))
  · simp [hc] at hle

theorem isInf_eq_false_of_isFinite {x : Float} (h : x.isFinite) : x.isInf = false := by
  have hfinite : x.toModel.unpack.isFinite := h
  show x.toModel.unpack.isInf = false
  cases hx : x.toModel.unpack with
  | infinity s =>
    rw [hx] at hfinite
    cases hfinite
  | notANumber | zero | finite => rfl

/-! ### Machines that refuse -/

namespace Machine

/-- The machine `M` answers as `N`, or refuses an operand that it may refuse. What it refuses for
powers is part of the answer. -/
structure AnswersAs {ε : Type} (M : Machine (Except ε)) (N : Machine Id) : Prop where
  divide x y : M.divide x y = .ok (N.divide x y) ∨ y == zero
  sqrt x : M.sqrt x = .ok (N.sqrt x) ∨ x < zero
  log x : M.log x = .ok (N.log x) ∨ x ≤ zero
  sin x : M.sin x = .ok (N.sin x) ∨ x.isInf
  cos x : M.cos x = .ok (N.cos x) ∨ x.isInf
  power : M.power = N.power

/-- The machine at hand, that refuses all that it may refuse. -/
def checked : Machine (Except Unit) where
  divide x y := if y == zero then .error () else .ok (here.divide x y)
  sqrt x := if x < zero then .error () else .ok (here.sqrt x)
  log x := if x ≤ zero then .error () else .ok (here.log x)
  sin x := if x.isInf then .error () else .ok (here.sin x)
  cos x := if x.isInf then .error () else .ok (here.cos x)
  power := here.power

theorem checked_answersAs : checked.AnswersAs here where
  divide _ _ := (em _).symm.imp_left fun h => if_neg h
  sqrt _ := (em _).symm.imp_left fun h => if_neg h
  log _ := (em _).symm.imp_left fun h => if_neg h
  sin _ := (em _).symm.imp_left fun h => if_neg h
  cos _ := (em _).symm.imp_left fun h => if_neg h
  power := rfl

namespace AnswersAs

variable {ε : Type} {M : Machine (Except ε)} {N : Machine Id}

theorem ite_ok {p : Prop} [Decidable p] {m m' : Except ε Float} {v v' : Float}
    (h : p → m = .ok v) (h' : ¬ p → m' = .ok v') :
    (if p then m else m') = .ok (if p then v else v') := by
  split
  · exact h ‹_›
  · exact h' ‹_›

theorem quotient (h : M.AnswersAs N) (x y : Float) : M.quotient x y = .ok (N.quotient x y) :=
  ite_ok (fun _ => rfl) fun hy => (h.divide x y).resolve_right hy

theorem pow (h : M.AnswersAs N) (x y : Float) : M.pow x y = N.pow x y := by
  unfold Machine.pow
  rw [h.power]

/-- **No function refuses an operand.** -/
theorem apply (h : M.AnswersAs N) (f : Func) (x : Float) : M.apply f x = .ok (N.apply f x) := by
  have hinf (hx : x.isFinite) : ¬ x.isInf := by simp [isInf_eq_false_of_isFinite hx]
  cases f with
  | sin => exact ite_ok (fun hx => (h.sin x).resolve_right (hinf hx)) fun _ => rfl
  | cos => exact ite_ok (fun hx => (h.cos x).resolve_right (hinf hx)) fun _ => rfl
  | sqrt => exact ite_ok (fun _ => rfl) fun hx => (h.sqrt x).resolve_right hx
  | log =>
    refine ite_ok (fun _ => rfl) fun hneg => ite_ok (fun _ => rfl) fun hzero =>
      (h.log x).resolve_right fun hle => ?_
    rcases lt_or_beq_of_le hle with hx | hx
    · exact hneg (by simp [hx])
    · exact hzero hx
  | abs => rfl

/-- **No operator refuses an operand.** -/
theorem operate (h : M.AnswersAs N) (op : Operator) (x y : Float) :
    M.operate op x y = .ok (N.operate op x y) := by
  match op with
  | .plus | .minus | .times => rfl
  | .over => exact h.quotient x y

/-- On doubles the operations of both machines are the same. -/
theorem respects (h : M.AnswersAs N) :
    M.arithmetic.Respects (fun x (v : Float) => x = .ok v) N.arithmetic where
  zero := rfl
  literal _ := rfl
  binary op _ v _ w := by
    rintro rfl rfl
    exact h.operate op v w
  power _ v _ w := by
    rintro rfl rfl
    exact congrArg Except.ok (h.pow v w)
  negate _ _ := by
    rintro rfl
    rfl
  call f _ v := by
    rintro rfl
    exact h.apply f v

end AnswersAs

end Machine

/-! ### The same text with other values -/

/-- The scope with other values for its names. -/
def Scope.map (g : α → β) : Scope α → Scope β
  | .strict => .strict
  | .tolerant table => .tolerant (table.map fun e => (e.1, g e.2))

theorem Table.get?_map (g : α → β) (table : Table α) (name : String) :
    Table.get? (table.map fun e => (e.1, g e.2)) name = (table.get? name).map g := by
  induction table with
  | nil => rfl
  | cons e table ih =>
    obtain ⟨n, v⟩ := e
    simp only [List.map_cons, get?, List.lookup_cons]
    cases name == n with
    | true => rfl
    | false => exact ih

theorem likeness_eq : Likeness Eq where
  skipBlanks := by
    rintro c _ rfl
    rfl
  token := by
    rintro c _ rfl
    exact .inl ⟨rfl, rfl⟩

namespace Grammar

variable {α β : Type} {V : α → β → Prop} {A : Arithmetic α} {B : Arithmetic β} {scope : Scope α}
  {scope' : Scope β}

theorem namesLike_map {g : β → α} (hA : A.Respects V B) (hg : ∀ v, V (g v) v) :
    NamesLike V Eq A B (scope'.map g) scope' := by
  rintro c _ w rfl hw -
  refine symbol_like rfl rfl hw hw ?_
  cases scope' with
  | strict => exact .none
  | tolerant table =>
    refine .some ?_
    simp only [Table.get?_map]
    cases table.get? (String.ofList w) with
    | none => exact hA.zero
    | some v => exact hg v

/-! ### Values that arise in a run -/

variable (A scope) in
/-- `Arises A scope t c x`: the value `x` arises in the run of the task `t` from `c`, be it a value
that a part of the run returns or one that is handed to the part. The run may fail. -/
inductive Arises : Task α → Cursor → α → Prop where
  | returned {t c x d es} : Runs A scope t c ⟨.ok x, d, es⟩ → Arises t c x
  | call {rule c x} : Arises (.body rule) c x → Arises (.call rule) c x
  -- sums and products
  | operand {rule c x} : rule ≠ .factor → Arises (.call rule.operand) c x → Arises (.body rule) c x
  | tail {rule c v d es x} : rule ≠ .factor → Runs A scope (.call rule.operand) c ⟨.ok v, d, es⟩ →
      Arises (.tail rule v) d x → Arises (.body rule) c x
  | left {rule v c} : Arises (.tail rule v) c v
  | right {rule v c x op w} : c.ahead? = some x → rule.operator? x = some op →
      Arises (.call rule.operand) c.past w → Arises (.tail rule v) c w
  | step {rule v c x op w d es y} : c.ahead? = some x → rule.operator? x = some op →
      Runs A scope (.call rule.operand) c.past ⟨.ok w, d, es⟩ →
      Arises (.tail rule (A.binary op v w)) d y → Arises (.tail rule v) c y
  -- factors
  | plus {c x} : c.ahead? = some '+' → Arises (.call .factor) c.past x → Arises (.body .factor) c x
  | minus {c x} : c.ahead? = some '-' → Arises (.call .factor) c.past x →
      Arises (.body .factor) c x
  | argument {c f x} : c.function? = some f → Arises (.call .expression) c.pastWord x →
      Arises (.body .factor) c x
  | primary {c x} : c.StartsPrimary → Arises .primary c x → Arises (.body .factor) c x
  | power {c v d es x} : c.StartsPrimary → Runs A scope .primary c ⟨.ok v, d, es⟩ →
      Arises (.power v) d x → Arises (.body .factor) c x
  -- powers
  | base {v c} : Arises (.power v) c v
  | exponent {v c x} : c.ahead? = some '^' → Arises (.call .factor) c.past x → Arises (.power v) c x
  -- primaries
  | group {c x} : c.ahead? = some '(' → Arises (.call .expression) c.past x → Arises .primary c x

/-- **Each value that arises is like one of the other arithmetic.** -/
theorem Arises.like (hA : A.Respects V B) (hN : NamesLike V Eq A B scope scope') {t : Task α}
    {t' : Task β} {c : Cursor} {x : α} (h : Arises A scope t c x) (ht : t.Like V t')
    (hp : t = .primary → c.StartsPrimary) : ∃ v, V x v := by
  -- a part of the run that returned has returned like values
  have hvalue {t : Task α} {t' : Task β} {c d : Cursor} {v : α} {es : List Event}
      (h : Runs A scope t c ⟨.ok v, d, es⟩) (ht : t.Like V t')
      (hp : t = .primary → c.StartsPrimary) : ∃ w, V v w := by
    obtain ⟨r, -, hl⟩ := h.like likeness_eq hA hN ht rfl hp
    cases hl with
    | value hv _ => exact ⟨_, hv⟩
  induction h generalizing t' with
  | returned h => exact hvalue h ht hp
  | call _ ih =>
    cases ht
    exact ih (.body _) nofun
  | operand _ _ ih => exact ih (.call _) nofun
  | tail _ h _ ih =>
    obtain ⟨w, hw⟩ := hvalue h (.call _) nofun
    exact ih (.tail _ hw) nofun
  | left =>
    cases ht with
    | tail _ hv => exact ⟨_, hv⟩
  | right _ _ _ ih => exact ih (.call _) nofun
  | @step _ _ _ _ op _ _ _ _ _ _ h _ ih =>
    cases ht with
    | tail _ hv =>
      obtain ⟨w, hw⟩ := hvalue h (.call _) nofun
      exact ih (.tail _ (hA.binary op _ _ _ _ hv hw)) nofun
  | plus _ _ ih | minus _ _ ih | exponent _ _ ih => exact ih (.call _) nofun
  | argument _ _ ih | group _ _ ih => exact ih (.call _) nofun
  | primary hc _ ih => exact ih .primary fun _ => hc
  | power hc h _ ih =>
    obtain ⟨w, hw⟩ := hvalue h .primary fun _ => hc
    exact ih (.power hw) nofun
  | base =>
    cases ht with
    | power hv => exact ⟨_, hv⟩

end Grammar

/-! ### Outcomes -/

/-- The kinds of the faults of expressions. -/
def faultKinds : List String :=
  ["number_format", "unexpected_character", "unexpected_end_of_input", "unknown_symbol",
    "trailing_input"]

theorem Fault.LiesAt.kind_mem {f : Fault} {e d : Cursor} (h : f.LiesAt e d) :
    ∃ kind ∈ faultKinds, f.cause.kind = some kind := by
  cases h <;> exact ⟨_, by decide, rfl⟩

theorem Solver.Fails.offset_le {s : Solver} {f : Fault} (h : s.Fails f) :
    f.offset ≤ s.expression.length := by
  obtain ⟨e, d, he, hl⟩ := h.liesAt
  have htotal : e.pos + e.rest.length = 0 + s.expression.toList.length := he.reaches.total
  rw [String.length_toList] at htotal
  rw [hl.offset_eq]
  omega

section

variable {ρ : Type} {read : ρ → Except Reason Float} {submission : Submission ρ} {text : String}

theorem trySolve_value_of_ok {v : Float} (h : (solveText read text submission).value = .ok v) :
    (trySolve read text submission).value = .ok (.ofValue v) := by
  rw [trySolve, Logged.bind_value, h]
  rfl

theorem trySolve_value_of_failed {e : Failure}
    (h : (solveText read text submission).value = .error (.failed e)) :
    (trySolve read text submission).value = .ok (.ofFailure e) := by
  rw [trySolve, Logged.bind_value, h]
  rfl

end

/-- **A text has a value or one of the faults of expressions**, with variables that are accepted or
without any. On a machine that refuses operands no refusal arises on the way to either, and
`trySolve` reports the one or the other. -/
theorem solveText_or_fault {ε ρ : Type} (M : Machine (Except ε)) (hM : M.AnswersAs .here)
    (read : ρ → Except Reason Float) (text : String) (submission : Submission ρ)
    (scope : Scope Float) (h : Scope.ofSubmission read submission = .ok scope) :
    (∀ x, Arises M.arithmetic (scope.map .ok) (.call .expression) (start text) x →
      ∃ v, x = .ok v) ∧
    ((∃ v, (Grammar.solve M.arithmetic (scope.map .ok) text).outcome = .ok (.ok v) ∧
        (solveText read text submission).value = .ok v ∧
        (trySolve read text submission).value = .ok ⟨some v, none, none, none⟩) ∨
      ∃ f, ∃ kind ∈ faultKinds, f.cause.kind = some kind ∧ f.offset ≤ text.length ∧
        (Grammar.solve M.arithmetic (scope.map .ok) text).outcome = .error f ∧
        (solveText read text submission).value = .error (.failed (f.within text)) ∧
        (trySolve read text submission).value =
          .ok ⟨none, some kind, some (f.within text).short, some f.offset⟩) := by
  have hA : M.arithmetic.Respects (fun x (v : Float) => x = .ok v) double := hM.respects
  have hN : NamesLike (fun x v => x = .ok v) Eq M.arithmetic double (scope.map .ok) scope :=
    namesLike_map hA fun _ => rfl
  have htext : (solveText read text submission).value =
      (Solver.mk text scope).solve.value.mapError .failed := by
    rw [solveText_of_scope h]
  refine ⟨fun x hx => hx.like hA hN (.call _) nofun, ?_⟩
  obtain ⟨hvalue, hfault⟩ := Grammar.solve_like likeness_eq hA hN (rfl : start text = start text)
  cases ho : (Grammar.solve M.arithmetic (scope.map .ok) text).outcome with
  | ok x =>
    obtain ⟨v, hv, rfl⟩ := hvalue x ho
    have hs : (solveText read text submission).value = .ok v := by
      rw [htext, Solver.solve_value_eq_ok_iff.mpr hv]
      rfl
    exact .inl ⟨v, rfl, hs, trySolve_value_of_ok hs⟩
  | error f =>
    obtain ⟨g, hg, hl⟩ := hfault f ho
    obtain rfl : g = f := hl.eq fun _ _ => Eq.symm
    have hf : (Solver.mk text scope).Fails g := Solver.solve_value_eq_error_iff.mpr ⟨g, hg, rfl⟩
    obtain ⟨e, d, -, hlies⟩ := hf.liesAt
    obtain ⟨kind, hmem, hkind⟩ := hlies.kind_mem
    have hs : (solveText read text submission).value = .error (.failed (g.within text)) := by
      rw [htext, show (Solver.mk text scope).solve.value = _ from hf]
      rfl
    refine .inr ⟨g, kind, hmem, hkind, hf.offset_le, rfl, hs, ?_⟩
    rw [trySolve_value_of_failed hs, SolveOutcome.ofFailure, ← hkind]
    rfl

/-- The division by zero and the logarithm of zero in `1/0-log(0)` are not asked for, so there is a
value on the machine that refuses them: an infinity less another one of the other sign. -/
theorem solveText_or_fault_infinity :
    Machine.checked.AnswersAs .here ∧
      Scope.ofSubmission RawValue.read .absent = .ok .strict ∧
      (Grammar.solve Machine.checked.arithmetic .strict "1/0-log(0)").outcome =
        .ok (.ok infinity) ∧
      (trySolve RawValue.read "1/0-log(0)" .absent).value =
        .ok ⟨some infinity, none, none, none⟩ := by
  have hvalue : (solveText RawValue.read "1/0-log(0)" .absent).value = .ok infinity := by
    decide +kernel
  refine ⟨Machine.checked_answersAs, rfl, ?_⟩
  obtain ⟨-, ⟨v, ho, hv, ht⟩ | ⟨f, kind, -, -, -, -, hf, -⟩⟩ :=
    solveText_or_fault Machine.checked Machine.checked_answersAs RawValue.read "1/0-log(0)" .absent
      .strict rfl
  · obtain rfl : infinity = v := Except.ok.inj (hvalue.symm.trans hv)
    exact ⟨ho, ht⟩
  · cases hvalue.symm.trans hf

end Reckoner
