import Reckoner.Proofs.Token
import Reckoner.Solver

/-!
# The grammar of expressions

A grammar for the tokens of a text, with the value that each production gives. It is unambiguous
without a word on how it is read:

    expression = sum
    sum        = product | closed sum ('+' | '-') product
    product    = factor | closed product ('*' | '/') factor
    factor     = ('+' | '-') factor | primary '^' factor | primary | function expression
    primary    = '(' expression ')' | literal | name | nothing

A sum, a product or a factor is *closed* if it ends in a primary. Otherwise it ends in the argument
of a function, which is a whole expression and takes in all that could follow; so only closed ones
stand to the left of an operator. A primary can be left out before `^`, `*`, `/` and `)` only.

`solve_eq_ok_iff_derives` says that the solver has the value `v` for a text exactly if the tokens of
the text derive an expression with the value `v`. One half goes by induction on the run, the other by
induction on the derivation; there a sum or a product to the left of an operator is a loop that is
still to go on.
-/

namespace Reckoner

namespace Grammar

open Cursor

/-- What a sum, a product or a factor ends in. -/
inductive Ending where
  | primary
  | argument
deriving DecidableEq, Repr

/-- The phrases of the grammar. -/
inductive Phrase where
  | expression
  | sum (e : Ending)
  | product (e : Ending)
  | factor (e : Ending)
  | primary
deriving DecidableEq, Repr

/-- A literal has a digit, and at most one point. -/
structure IsLiteral (run : List Char) : Prop where
  digit : ∃ x ∈ run, x.isDigit
  point : run.count '.' ≤ 1

theorem isLiteral_iff {run : List Char} : IsLiteral run ↔ ∃ n, Decimal.ofRun? run = some n := by
  rw [← Option.isSome_iff_exists, ← Option.ne_none_iff_isSome, Ne, Decimal.ofRun?_eq_none_iff]
  constructor
  · rintro ⟨⟨x, hx, hd⟩, hp⟩ (h | h)
    · rw [h x hx] at hd
      cases hd
    · omega
  · intro h
    push Not at h
    obtain ⟨⟨x, hx, hd⟩, hp⟩ := h
    exact ⟨⟨x, hx, by simpa using hd⟩, by omega⟩

variable {α : Type} (A : Arithmetic α) (scope : Scope α)

/-- `Derives A scope p s t v`: the tokens `s`, as far as the tokens `t` at their end, are a phrase
`p` with the value `v`. -/
inductive Derives : Phrase → List Token → List Token → α → Prop where
  | expression {e s t v} : Derives (.sum e) s t v → Derives .expression s t v
  -- sums
  | product {e s t v} : Derives (.product e) s t v → Derives (.sum e) s t v
  | plus {e s t u v w} : Derives (.sum .primary) s (.mark '+' :: t) v → Derives (.product e) t u w →
      Derives (.sum e) s u (A.binary .plus v w)
  | minus {e s t u v w} : Derives (.sum .primary) s (.mark '-' :: t) v →
      Derives (.product e) t u w → Derives (.sum e) s u (A.binary .minus v w)
  -- products
  | factor {e s t v} : Derives (.factor e) s t v → Derives (.product e) s t v
  | times {e s t u v w} : Derives (.product .primary) s (.mark '*' :: t) v →
      Derives (.factor e) t u w → Derives (.product e) s u (A.binary .times v w)
  | divide {e s t u v w} : Derives (.product .primary) s (.mark '/' :: t) v →
      Derives (.factor e) t u w → Derives (.product e) s u (A.binary .over v w)
  -- factors
  | positive {e s t v} : Derives (.factor e) s t v → Derives (.factor e) (.mark '+' :: s) t v
  | negative {e s t v} : Derives (.factor e) s t v →
      Derives (.factor e) (.mark '-' :: s) t (A.negate v)
  | primary {s t v} : Derives .primary s t v → Derives (.factor .primary) s t v
  | power {e s t u v w} : Derives .primary s (.mark '^' :: t) v → Derives (.factor e) t u w →
      Derives (.factor e) s u (A.power v w)
  | apply {s t v} (f : Func) : Derives .expression s t v →
      Derives (.factor .argument) (.name f.name.toList :: s) t (A.call f v)
  -- primaries
  | group {s t v} : Derives .expression s (.mark ')' :: t) v → Derives .primary (.mark '(' :: s) t v
  | literal {run n t} : IsLiteral run → Decimal.ofRun? run = some n →
      Derives .primary (.number run :: t) t (A.literal n)
  | name {run table t} : scope.table? = some table → (∀ f : Func, run ≠ f.name.toList) →
      Derives .primary (.name run :: t) t ((table.get? (String.ofList run)).getD A.zero)
  | empty {t x} : x ∈ ['^', '*', '/', ')'] → t.head? = some (.mark x) →
      Derives .primary t t A.zero

variable {A scope}

/-! ### A run has a derivation -/

/-- A phrase can follow here, or the text has ended. -/
def Follows (d : Cursor) : Prop := ∀ x ∈ d.ahead?, x ∈ ['+', '-', '*', '/', '^', ')']

/-- Nothing can follow an argument but the end of the text or of a group. -/
def Closes (d : Cursor) : Prop := ∀ x ∈ d.ahead?, x = ')'

/-- The phrase that a rule reads. -/
def phrase : Rule → Ending → Phrase
  | .factor, e => .factor e
  | .term, e => .product e
  | .expression, e => .sum e

variable (A scope) in
/-- What `rule` returns at `d` is derived, and if it ends in an argument nothing follows. -/
def DerivesTo (rule : Rule) (s : List Token) (d : Cursor) (v : α) : Prop :=
  Derives A scope (phrase rule .primary) s (tokens d.rest) v ∨
    (Derives A scope (phrase rule .argument) s (tokens d.rest) v ∧ Closes d)

theorem DerivesTo.lift {rule : Rule} (h : rule ≠ .factor) {s : List Token} {d : Cursor} {v : α}
    (hd : DerivesTo A scope rule.operand s d v) : DerivesTo A scope rule s d v := by
  cases rule with
  | factor => exact absurd rfl h
  | term => exact hd.imp .factor (And.imp_left .factor)
  | expression => exact hd.imp .product (And.imp_left .product)

theorem DerivesTo.expression {s : List Token} {d : Cursor} {v : α}
    (h : DerivesTo A scope .expression s d v) :
    Derives A scope .expression s (tokens d.rest) v :=
  h.elim .expression fun h => .expression h.1

/-- An operator of a rule is a token that a closed phrase stands before. -/
theorem DerivesTo.step {rule : Rule} {s : List Token} {c d : Cursor} {x : Char} {op : Operator}
    {v w : α} (hx : c.ahead? = some x) (hop : rule.operator? x = some op)
    (hv : DerivesTo A scope rule s c v)
    (hw : DerivesTo A scope rule.operand (tokens c.past.rest) d w) :
    DerivesTo A scope rule s d (A.binary op v w) := by
  have hclosed : Derives A scope (phrase rule .primary) s (tokens c.rest) v := by
    refine hv.resolve_right fun h => ?_
    obtain rfl := h.2 x hx
    simp [Rule.operator?_eq_some_iff] at hop
  obtain ⟨rfl, rfl, rfl⟩ | ⟨rfl, rfl, rfl⟩ | ⟨rfl, rfl, rfl⟩ | ⟨rfl, rfl, rfl⟩ :=
    Rule.operator?_eq_some_iff.mp hop
  all_goals rw [tokens_of_mark hx (by decide)] at hclosed
  · exact hw.imp (.plus hclosed) (And.imp_left (.plus hclosed))
  · exact hw.imp (.minus hclosed) (And.imp_left (.minus hclosed))
  · exact hw.imp (.times hclosed) (And.imp_left (.times hclosed))
  · exact hw.imp (.divide hclosed) (And.imp_left (.divide hclosed))

theorem closes_of_stopOf {d : Cursor} (h : d.StopOf .expression) (hf : Follows d) : Closes d := by
  intro x hx
  have hm := hf x hx
  have ht := h.takes x hx
  simp only [List.mem_cons, List.not_mem_nil, or_false] at hm
  obtain rfl | rfl | rfl | rfl | rfl | rfl := hm
  all_goals first | rfl | cases ht

/-- What follows an operand is an operator, or what follows the whole. -/
theorem follows_of_tail {rule : Rule} {v : α} {c : Cursor} {r : Run α}
    (h : Runs A scope (.tail rule v) c r) (hf : Follows r.cursor) : Follows c := by
  cases h with
  | stop => simpa [Follows, Run.done] using hf
  | stepFails hx hop | step hx hop =>
    intro y hy
    rw [hx] at hy
    obtain rfl := Option.some.inj hy
    rcases Rule.operator?_eq_some_iff.mp hop with
      ⟨-, rfl, -⟩ | ⟨-, rfl, -⟩ | ⟨-, rfl, -⟩ | ⟨-, rfl, -⟩
    all_goals decide

theorem follows_of_power {v : α} {c : Cursor} {r : Run α} (h : Runs A scope (.power v) c r)
    (hf : Follows r.cursor) : Follows c := by
  cases h with
  | noPower => simpa [Follows, Run.done] using hf
  | raise hx =>
    intro y hy
    rw [hx] at hy
    obtain rfl := Option.some.inj hy
    decide

variable (A scope) in
/-- What the tokens of a task derive when it ends at `d` with the value `v`. -/
def Task.DerivesTo : Task α → Cursor → Cursor → α → Prop
  | .call rule, c, d, v | .body rule, c, d, v => Grammar.DerivesTo A scope rule (tokens c.rest) d v
  | .tail rule u, c, d, v => rule ≠ .factor → ∀ s, Grammar.DerivesTo A scope rule s c u →
      Grammar.DerivesTo A scope rule s d v
  | .primary, c, d, v =>
    c.StartsPrimary → Derives A scope .primary (tokens c.rest) (tokens d.rest) v
  | .power u, c, d, v => ∀ s, Derives A scope .primary s (tokens c.rest) u →
      Grammar.DerivesTo A scope .factor s d v

/-- **What a run returns is derived**, if a phrase can follow where it stops. -/
theorem Runs.derivesTo {t : Task α} {c : Cursor} {r : Run α} {v : α} (h : Runs A scope t c r)
    (hv : r.outcome = .ok v) (hf : Follows r.cursor) : t.DerivesTo A scope c r.cursor v := by
  induction h generalizing v with
  | call _ ih => exact ih hv hf
  | operandFails => cases hv
  | operand hrule _ ht ih iht =>
    exact iht hv hf hrule _ ((ih rfl (follows_of_tail ht hf)).lift hrule)
  | @stop rule u c h =>
    cases hv
    intro _ s hs
    simpa [Grammar.DerivesTo, Run.done, tokens_skipBlanks, Closes] using hs
  | stepFails => cases hv
  | step hx hop _ ht ih iht =>
    exact fun hrule s hs => iht hv hf hrule s (hs.step hx hop (ih rfl (follows_of_tail ht hf)))
  | @plus c r hx _ ih =>
    show Grammar.DerivesTo A scope .factor (tokens c.rest) r.cursor v
    rw [tokens_of_mark hx (by decide)]
    exact (ih hv hf).imp .positive (And.imp_left .positive)
  | @minus c r hx _ ih =>
    obtain ⟨u, hu, rfl⟩ := Run.map_outcome_eq_ok_iff.mp hv
    show Grammar.DerivesTo A scope .factor (tokens c.rest) r.cursor _
    rw [tokens_of_mark hx (by decide)]
    exact (ih hu hf).imp .negative (And.imp_left .negative)
  | @apply c f r hfun h ih =>
    obtain ⟨u, hu, rfl⟩ := Run.map_outcome_eq_ok_iff.mp hv
    obtain ⟨x, hx, hl⟩ := exists_letter_of_function? hfun
    have hname : c.word = f.name.toList := by
      rw [← Func.ofName?_eq_some_iff.mp hfun, String.toList_ofList]
    have he : Derives A scope .expression (tokens c.pastWord.rest) (tokens r.cursor.rest) u :=
      DerivesTo.expression (ih hu hf)
    refine .inr ⟨?_, closes_of_stopOf (h.stopsAt hu) hf⟩
    rw [tokens_of_letter hx hl, hname]
    exact .apply f he
  | primaryFails => cases hv
  | primary hc _ hp ih ihp =>
    exact ihp hv hf _ (ih rfl (follows_of_power hp hf) hc)
  | @noPower u c h =>
    cases hv
    intro s hs
    exact .inl (.primary (by simpa [Run.done, tokens_skipBlanks] using hs))
  | raise hx _ ih =>
    obtain ⟨u, hu, rfl⟩ := Run.map_outcome_eq_ok_iff.mp hv
    intro s hs
    rw [tokens_of_mark hx (by decide)] at hs
    exact (ih hu hf).imp (.power hs) (And.imp_left (.power hs))
  | ended => cases hv
  | groupFails => cases hv
  | @group c u d es hx h ih =>
    intro _
    obtain ⟨hd, rfl⟩ := close_outcome_eq_ok_iff.mp hv
    have he : Derives A scope .expression (tokens c.past.rest) (tokens d.rest) v :=
      DerivesTo.expression (ih rfl (by simp [Follows, hd]))
    rw [tokens_of_mark hd (by decide)] at he
    rw [tokens_of_mark hx (by decide), Run.after_cursor, close_eq_done hd]
    exact .group he
  | @literal c x hx hn =>
    intro _
    rw [tokens_of_number hx hn]
    rcases hl : Decimal.ofRun? (c.skipBlanks.run isNumeric) with _ | n
    · simp [literal_eq_fail hl, Run.fail] at hv
    · rw [literal_eq_done hl] at hv ⊢
      cases hv
      exact .literal (isLiteral_iff.mpr ⟨n, hl⟩) hl
  | @name c x hx hl =>
    intro hc
    rw [symbol_outcome] at hv
    rw [tokens_of_letter hx hl, symbol_cursor]
    split at hv <;> cases hv
    next h =>
      obtain ⟨table, ht, rfl⟩ := Option.map_eq_some_iff.mp h
      refine .name ht fun f hf => ?_
      have hfun : c.function? = some f := by
        rw [function?, hf, String.ofList_toList, Func.ofName?_name]
      rw [hc.function] at hfun
      cases hfun
  | @empty c x hx ho =>
    cases hv
    intro hc
    have hm : x ∈ ['+', '-', '*', '/', '^', ')'] := hf x (by simpa [Run.done] using hx)
    have hp : x ≠ '+' := fun h => hc.plus (h ▸ hx)
    have hn : x ≠ '-' := fun h => hc.minus (h ▸ hx)
    have hx' : isMark x := by
      simp only [isOperandStart, Bool.or_eq_false_iff] at ho
      simp [isMark, skipBlanks_rest_head hx, ho.1.2, ho.2]
    rw [Run.done, tokens_skipBlanks]
    refine .empty (x := x) ?_ ((head?_tokens_eq_mark_iff hx').mpr hx)
    simp only [List.mem_cons, List.not_mem_nil, or_false] at hm ⊢
    tauto

/-! ### A derivation is run -/

/-- The operators that a phrase would go on for, so that it cannot end before them. -/
def Phrase.operators : Phrase → List Char
  | .primary => []
  | .factor .primary | .product .primary => ['^']
  | .sum .primary => ['^', '*', '/']
  | .expression | .factor .argument | .product .argument | .sum .argument =>
    ['^', '*', '/', '+', '-']

/-- The phrase `p` can end before the tokens `t`. -/
def Phrase.Ends (p : Phrase) (t : List Token) : Prop :=
  ∀ x ∈ p.operators, t.head? ≠ some (.mark x)

theorem Phrase.Ends.mono {p q : Phrase} {t : List Token} (h : p.Ends t)
    (hq : ∀ x ∈ q.operators, x ∈ p.operators) : q.Ends t := fun x hx => h x (hq x hx)

theorem Phrase.Ends.of_expression {e : Ending} {t : List Token} (h : Phrase.expression.Ends t) :
    (Phrase.sum e).Ends t := h.mono (by cases e <;> simp [operators])

theorem Phrase.Ends.of_sum {e : Ending} {t : List Token} (h : (Phrase.sum e).Ends t) :
    (Phrase.product e).Ends t := h.mono (by cases e <;> simp [operators])

theorem Phrase.Ends.of_product {e : Ending} {t : List Token} (h : (Phrase.product e).Ends t) :
    (Phrase.factor e).Ends t := h.mono (by cases e <;> exact fun _ => id)

theorem Phrase.ends_cons {p : Phrase} {x : Char} (h : x ∉ p.operators) (t : List Token) :
    p.Ends (.mark x :: t) := by
  intro y hy heq
  rw [List.head?_cons, Option.some.injEq, Token.mark.injEq] at heq
  exact h (heq ▸ hy)

variable (A scope) in
/-- A call of `rule` returns `v` where the tokens `t` are left. -/
def Calls (rule : Rule) (c : Cursor) (t : List Token) (v : α) : Prop :=
  ∃ d es, tokens d.rest = t ∧ Runs A scope (.call rule) c ⟨.ok v, d, es⟩

variable (A scope) in
/-- The loop of `rule` goes on with `v` where the tokens `t` are left. -/
def Loops (rule : Rule) (c : Cursor) (t : List Token) (v : α) : Prop :=
  ∃ d es, tokens d.rest = t ∧
    ∀ r, Runs A scope (.tail rule v) d r → Runs A scope (.body rule) c (r.after es)

theorem ahead?_ne_of_tokens {d : Cursor} {t : List Token} {x : Char} (hx : isMark x)
    (ht : tokens d.rest = t) (h : t.head? ≠ some (.mark x)) : d.ahead? ≠ some x :=
  fun hd => h (ht ▸ (head?_tokens_eq_mark_iff hx).mpr hd)

theorem Calls.loops {rule : Rule} (hrule : rule ≠ .factor) {c : Cursor} {t : List Token} {v : α}
    (h : Calls A scope rule.operand c t v) : Loops A scope rule c t v := by
  obtain ⟨d, es, ht, hr⟩ := h
  exact ⟨d, es, ht, fun r => .operand hrule hr⟩

theorem Loops.step {rule : Rule} {c : Cursor} {t u : List Token} {x : Char} {op : Operator}
    {v w : α} (hop : rule.operator? x = some op) (hv : Loops A scope rule c (.mark x :: t) v)
    (hw : ∀ d, tokens d.rest = t → Calls A scope rule.operand d u w) :
    Loops A scope rule c u (A.binary op v w) := by
  obtain ⟨d, es, ht, hr⟩ := hv
  obtain ⟨hx, -, ht⟩ := mark_of_tokens ht
  obtain ⟨e, fs, hu, hs⟩ := hw d.past ht
  refine ⟨e, es ++ fs, hu, fun r hr' => ?_⟩
  rw [Run.after_append]
  exact hr _ (.step hx hop hs hr')

/-- A loop stops before a token that is none of its operators. -/
theorem Loops.calls {rule : Rule} {c : Cursor} {t : List Token} {v : α}
    (h : Loops A scope rule c t v)
    (ht : ∀ x op, rule.operator? x = some op → t.head? ≠ some (.mark x)) :
    Calls A scope rule c t v := by
  obtain ⟨d, es, hd, hr⟩ := h
  have hstop : d.ahead?.bind rule.operator? = none := by
    rw [Option.eq_none_iff_forall_ne_some]
    intro op hop
    obtain ⟨x, hx, hop⟩ := Option.bind_eq_some_iff.mp hop
    exact ahead?_ne_of_tokens (Rule.isMark_of_operator? hop) hd (ht x op hop) hx
  exact ⟨d.skipBlanks, _, (tokens_skipBlanks d).trans hd, .call (hr _ (.stop hstop))⟩

variable (A scope) in
/-- What the evaluator does with a phrase. A sum or a product can be the left part of a longer one,
so it is a loop that is still to go on. -/
def Reads : Phrase → Cursor → List Token → α → Prop
  | .expression, c, t, v => Calls A scope .expression c t v
  | .sum _, c, t, v => Loops A scope .expression c t v
  | .product _, c, t, v => Loops A scope .term c t v
  | .factor _, c, t, v => Calls A scope .factor c t v
  | .primary, c, t, v => c.StartsPrimary ∧
    ∃ d es, tokens d.rest = t ∧ Runs A scope .primary c ⟨.ok v, d, es⟩

theorem Phrase.Ends.term {e : Ending} {t : List Token} (h : (Phrase.sum e).Ends t) (x : Char)
    (op : Operator) (hop : Rule.term.operator? x = some op) : t.head? ≠ some (.mark x) := by
  refine h x ?_
  rcases Rule.operator?_eq_some_iff.mp hop with ⟨hr, -⟩ | ⟨hr, -⟩ | ⟨-, rfl, -⟩ | ⟨-, rfl, -⟩
  · cases hr
  · cases hr
  all_goals cases e <;> decide

theorem Phrase.Ends.sum {t : List Token} (h : Phrase.expression.Ends t) (x : Char)
    (op : Operator) (hop : Rule.expression.operator? x = some op) : t.head? ≠ some (.mark x) := by
  refine h x ?_
  rcases Rule.operator?_eq_some_iff.mp hop with ⟨-, rfl, -⟩ | ⟨-, rfl, -⟩ | ⟨hr, -⟩ | ⟨hr, -⟩
  · decide
  · decide
  all_goals cases hr

/-- **What is derived is read**, where it can end. -/
theorem reads_of_derives {p : Phrase} {s t : List Token} {v : α} (h : Derives A scope p s t v)
    (he : p.Ends t) {c : Cursor} (hc : tokens c.rest = s) : Reads A scope p c t v := by
  induction h generalizing c with
  | @expression e s t v _ ih =>
    exact Loops.calls (ih he.of_expression hc) he.sum
  | @product e s t v _ ih =>
    have hp : (Phrase.product e).Ends t := he.of_sum
    have ht : Calls A scope .term c t v := Loops.calls (ih hp hc) he.term
    exact Calls.loops (by decide) ht
  | @plus e s t u v w _ _ ihs ihp =>
    have hp : (Phrase.product e).Ends u := he.of_sum
    exact Loops.step rfl (ihs (Phrase.ends_cons (by decide) t) hc) fun d hd =>
      Loops.calls (ihp hp hd) he.term
  | @minus e s t u v w _ _ ihs ihp =>
    have hp : (Phrase.product e).Ends u := he.of_sum
    exact Loops.step rfl (ihs (Phrase.ends_cons (by decide) t) hc) fun d hd =>
      Loops.calls (ihp hp hd) he.term
  | @factor e s t v _ ih =>
    have hf : (Phrase.factor e).Ends t := he.of_product
    have ht : Calls A scope .factor c t v := ih hf hc
    exact Calls.loops (by decide) ht
  | @times e s t u v w _ _ ihp ihf =>
    have hf : (Phrase.factor e).Ends u := he.of_product
    exact Loops.step rfl (ihp (Phrase.ends_cons (by decide) t) hc) fun d hd => ihf hf hd
  | @divide e s t u v w _ _ ihp ihf =>
    have hf : (Phrase.factor e).Ends u := he.of_product
    exact Loops.step rfl (ihp (Phrase.ends_cons (by decide) t) hc) fun d hd => ihf hf hd
  | positive _ ih =>
    obtain ⟨hx, -, hs⟩ := mark_of_tokens hc
    obtain ⟨d, es, ht, hr⟩ := ih he hs
    exact ⟨d, _, ht, .call (.plus hx hr)⟩
  | negative _ ih =>
    obtain ⟨hx, -, hs⟩ := mark_of_tokens hc
    obtain ⟨d, es, ht, hr⟩ := ih he hs
    exact ⟨d, _, ht, .call (.minus hx hr)⟩
  | primary _ ih =>
    obtain ⟨hp, d, es, ht, hr⟩ := ih nofun hc
    have hx : d.ahead? ≠ some '^' := ahead?_ne_of_tokens (by decide) ht (he '^' (by decide))
    exact ⟨d.skipBlanks, _, (tokens_skipBlanks d).trans ht, .call (.primary hp hr (.noPower hx))⟩
  | power _ _ ihp ihf =>
    obtain ⟨hp, d, es, ht, hr⟩ := ihp nofun hc
    obtain ⟨hx, -, ht⟩ := mark_of_tokens ht
    obtain ⟨e, fs, hu, hs⟩ := ihf he ht
    exact ⟨e, _, hu, .call (.primary hp hr (.raise hx hs))⟩
  | apply f _ ih =>
    obtain ⟨x, hx, hl, hw, hs⟩ := name_of_tokens hc
    obtain ⟨d, es, ht, hr⟩ := ih (he.mono fun _ => id) hs
    have hf : c.function? = some f := by
      rw [function?, hw, String.ofList_toList, Func.ofName?_name]
    exact ⟨d, _, ht, .call (.apply hf hr)⟩
  | group _ ih =>
    obtain ⟨hx, -, hs⟩ := mark_of_tokens hc
    obtain ⟨d, es, ht, hr⟩ := ih (Phrase.ends_cons (by decide) _) hs
    obtain ⟨hy, -, ht⟩ := mark_of_tokens ht
    have hg := Runs.group hx hr
    rw [close_eq_done hy] at hg
    exact ⟨startsPrimary_of_ahead hx (by decide) (by decide) (by decide), d.past, _, ht, hg⟩
  | literal _ hn =>
    obtain ⟨x, hx, hnum, hrun, ht⟩ := number_of_tokens hc
    have hr : Runs A scope .primary c (literal A c.skipBlanks) := .literal hx hnum
    rw [literal_eq_done (hrun ▸ hn)] at hr
    refine ⟨startsPrimary_of_ahead hx (not_isLetter_of_isNumeric hnum) ?_ ?_, _, _, ht, hr⟩
    · rintro rfl
      cases hnum
    · rintro rfl
      cases hnum
  | @name run table t ht hf =>
    obtain ⟨x, hx, hl, hw, hs⟩ := name_of_tokens hc
    have hr : Runs A scope .primary c (symbol A scope (String.ofList c.word) c.skipBlanks) :=
      .name hx hl
    have hfun : c.function? = none := by
      rcases hg : c.function? with _ | f
      · rfl
      · refine absurd ?_ (hf f)
        rw [← hw, ← Func.ofName?_eq_some_iff.mp hg, String.toList_ofList]
    have hv : symbolValue? A scope (String.ofList c.word) =
        some ((table.get? (String.ofList run)).getD A.zero) := by
      rw [symbolValue?, ht, hw]
      rfl
    rw [symbol_eq_of_value hv] at hr
    refine ⟨⟨?_, ?_, hfun⟩, c.pastWord, _, hs, hr⟩
    · rintro h
      cases Option.some.inj (hx.symm.trans h)
      cases hl
    · rintro h
      cases Option.some.inj (hx.symm.trans h)
      cases hl
  | @empty t x hx ht =>
    have hm : isMark x ∧ isOperandStart x = false ∧ isLetter x = false ∧ x ≠ '+' ∧ x ≠ '-' := by
      simp only [List.mem_cons, List.not_mem_nil, or_false] at hx
      rcases hx with rfl | rfl | rfl | rfl <;> decide
    obtain ⟨hm, ho, hl, hp, hn⟩ := hm
    have hx' : c.ahead? = some x := (head?_tokens_eq_mark_iff hm).mp (hc ▸ ht)
    exact ⟨startsPrimary_of_ahead hx' hl hp hn, c.skipBlanks, [], (tokens_skipBlanks c).trans hc,
      .empty hx' ho⟩

/-! ### Whole texts -/

/-- A text has a value exactly if its tokens derive it. -/
theorem solve_outcome_eq_ok_iff_derives {text : String} {v : α} :
    (solve A scope text).outcome = .ok v ↔
      Derives A scope .expression (tokens text.toList) [] v := by
  rw [solve_outcome_eq_ok_iff]
  constructor
  · rintro ⟨d, es, h, hd⟩
    have hf : Follows d := by
      intro x hx
      rw [ahead?, peek?, skipBlanks, skip, hd] at hx
      cases hx
    have h := DerivesTo.expression (h.derivesTo rfl hf)
    rwa [hd, tokens_nil] at h
  · intro h
    obtain ⟨d, es, hd, hr⟩ : Calls A scope .expression (.start text) [] v :=
      reads_of_derives h (by intro x _ hx; cases hx) rfl
    have hrest : d.skipBlanks.rest = [] := skipBlanks_rest_eq_nil_iff.mpr (ended_of_tokens hd)
    have hstop : d.StopOf .expression := hr.stopsAt rfl
    exact ⟨d, es, hr, hstop.skipBlanks ▸ hrest⟩

end Grammar

/-- **The solver evaluates by the grammar**: it has the value `v` for a text exactly if the tokens
of the text derive an expression with the value `v`. -/
theorem Solver.solve_eq_ok_iff_derives (text : String) (scope : Scope Float) (v : Float) :
    (Solver.mk text scope).solve.value = .ok v ↔
      Grammar.Derives double scope .expression (tokens text.toList) [] v :=
  Solver.solve_value_eq_ok_iff.trans Grammar.solve_outcome_eq_ok_iff_derives

end Reckoner
