import Reckoner.Proofs.Exchange
import Reckoner.Proofs.Likeness

/-!
# Parentheses

What a rule has read can stand in parentheses. An expression reads it up to the closing one, since
no rule goes on there (`Runs.lift_expression`), and the rule that was called stops behind it, where
it stopped before (`Runs.lift_factor`).

The call is made somewhere inside a run, before which and after which the run goes on. `Contains`
says that another text with the value of the call can stand there if it begins with a parenthesis.
The parts of the run before the call end before it, and have looked at its first character only if
they are about to make the call themselves, so they are exchanged (`Runs.exchange_rest`); those after
it are the same, further on (`Runs.move`). By induction on the run this holds of all calls in its
trace (`Runs.contains`).

`Solver.solve_wrap` says so of a whole text. Calls are made for the argument of a function, the
operand of a sign, the exponent of a power and the operands of sums and products, empty ones as
well. What a power sign follows has no call of its own, but can stand in parentheses likewise
(`Runs.factor_inGroup`).
-/

namespace Reckoner

/-- The text of `e` in parentheses. -/
def inGroup (e : List Char) : List Char := '(' :: (e ++ [')'])

theorem inGroup_append (e s : List Char) : inGroup e ++ s = '(' :: (e ++ ')' :: s) := by
  rw [inGroup, List.cons_append, List.append_assoc, List.singleton_append]

namespace Rule

theorem takes_of_operator? {rule : Rule} {x : Char} {op : Operator}
    (h : rule.operator? x = some op) : rule.takes x = true := by
  rcases operator?_eq_some_iff.mp h with
    ⟨rfl, rfl, -⟩ | ⟨rfl, rfl, -⟩ | ⟨rfl, rfl, -⟩ | ⟨rfl, rfl, -⟩ <;> rfl

theorem takes_operand {rule : Rule} {x : Char} (h : rule.takes x = false) :
    rule.operand.takes x = false := by
  cases rule with
  | factor => exact h
  | term | expression =>
    simp only [takes, operand, Bool.or_eq_false_iff] at h ⊢
    simp [h]

end Rule

namespace Cursor

theorem past_of_cons {c : Cursor} {x : Char} {r : List Char} (h : c.skipBlanks.rest = x :: r) :
    c.ahead? = some x ∧ c.past = ⟨c.skipBlanks.pos + 1, r⟩ := by
  rw [ahead?, peek?, past, next, h]
  exact ⟨rfl, rfl⟩

theorem ahead?_paren (n : Nat) (s : List Char) : (Cursor.mk n ('(' :: s)).ahead? = some '(' := rfl

theorem startsPrimary_paren (n : Nat) (s : List Char) : (Cursor.mk n ('(' :: s)).StartsPrimary :=
  startsPrimary_of_ahead (ahead?_paren n s) (by decide) (by decide) (by decide)

theorem StopOf.operand {rule : Rule} {d : Cursor} (h : d.StopOf rule) : d.StopOf rule.operand :=
  ⟨h.skipBlanks, fun x hx => Rule.takes_operand (h.takes x hx)⟩

theorem StopOf.move {rule : Rule} {k : Nat} {s : List Char} (h : (Cursor.mk k s).StopOf rule)
    (n : Nat) : (Cursor.mk n s).StopOf rule := by
  have hrest : s.dropWhile isBlank = s := congrArg Cursor.rest h.skipBlanks
  have hpos : k + (s.takeWhile isBlank).length = k := congrArg Cursor.pos h.skipBlanks
  refine ⟨?_, h.takes⟩
  show Cursor.mk (n + (s.takeWhile isBlank).length) (s.dropWhile isBlank) = ⟨n, s⟩
  rw [hrest, Nat.left_eq_add.mp hpos.symm, Nat.add_zero]

/-- All rules stop at a closing parenthesis. -/
theorem stopOf_close (rule : Rule) (n : Nat) (s : List Char) :
    (Cursor.mk n (')' :: s)).StopOf rule := by
  refine ⟨rfl, fun x hx => ?_⟩
  obtain rfl : ')' = x := Option.some.inj hx
  cases rule <;> rfl

end Cursor

open Cursor

namespace Grammar

variable {α : Type} {A : Arithmetic α} {scope : Scope α} {c d : Cursor} {v : α} {es : List Event}
  {m s : List Char} {n k : Nat}

/-! ### What is read as a factor, a term and an expression -/

theorem Runs.factor_of_primary (h : Runs A scope .primary c ⟨.ok v, d, es⟩)
    (hc : c.StartsPrimary) (hd : d.StopOf .factor) :
    ∃ fs, Runs A scope (.call .factor) c ⟨.ok v, d, fs⟩ := by
  have hx : d.ahead? ≠ some '^' := fun hx => absurd (hd.takes _ hx) (by decide)
  have hp : Runs A scope (.power v) d (.done v d.skipBlanks) := .noPower hx
  rw [hd.skipBlanks] at hp
  exact ⟨_, .call (.primary hc h hp)⟩

theorem Runs.lift_operand {rule : Rule} (hrule : rule ≠ .factor)
    (h : Runs A scope (.call rule.operand) c ⟨.ok v, d, es⟩) (hd : d.StopOf rule) :
    ∃ fs, Runs A scope (.call rule) c ⟨.ok v, d, fs⟩ := by
  have hx : d.ahead?.bind rule.operator? = none := by
    rw [Option.bind_eq_none_iff]
    intro x hx
    rw [Option.eq_none_iff_forall_ne_some]
    exact fun op hop => absurd (hd.takes x hx) (by simp [Rule.takes_of_operator? hop])
  have ht : Runs A scope (.tail rule v) d (.done v d.skipBlanks) := .stop hx
  rw [hd.skipBlanks] at ht
  exact ⟨_, .call (.operand hrule h ht)⟩

theorem Runs.lift_factor (h : Runs A scope (.call .factor) c ⟨.ok v, d, es⟩) {rule : Rule}
    (hd : d.StopOf rule) : ∃ fs, Runs A scope (.call rule) c ⟨.ok v, d, fs⟩ := by
  cases rule with
  | factor => exact ⟨es, h⟩
  | term => exact Runs.lift_operand nofun h hd
  | expression =>
    obtain ⟨fs, h⟩ : ∃ fs, Runs A scope (.call .term) c ⟨.ok v, d, fs⟩ :=
      Runs.lift_operand nofun h hd.operand
    exact Runs.lift_operand nofun h hd

theorem Runs.lift_expression {rule : Rule} (h : Runs A scope (.call rule) c ⟨.ok v, d, es⟩)
    (hd : d.StopOf .expression) : ∃ fs, Runs A scope (.call .expression) c ⟨.ok v, d, fs⟩ := by
  cases rule with
  | factor => exact h.lift_factor hd
  | term => exact Runs.lift_operand nofun h hd
  | expression => exact ⟨es, h⟩

/-! ### Groups -/

/-- What is read as an expression before a closing parenthesis is a group with the opening one. -/
theorem Runs.group_of_call
    (h : Runs A scope (.call .expression) ⟨n, m ++ ')' :: s⟩ ⟨.ok v, ⟨k, ')' :: s⟩, es⟩)
    (hc : c.skipBlanks.rest = inGroup m ++ s) :
    ∃ fs, Runs A scope .primary c ⟨.ok v, ⟨c.skipBlanks.pos + (inGroup m).length, s⟩, fs⟩ := by
  obtain ⟨hopen, hpast⟩ := past_of_cons (hc.trans (inGroup_append m s))
  obtain ⟨l, fs, hl, hr⟩ := h.move nofun (c.skipBlanks.pos + 1)
  have hlen : l = m.length := by
    have htotal := h.reaches_of_call.total
    simp only [List.length_append, List.length_cons] at htotal
    simp only at hl
    omega
  have hg := Runs.group hopen (hpast ▸ hr)
  obtain ⟨hclose, hend⟩ := past_of_cons (c := ⟨c.skipBlanks.pos + 1 + l, ')' :: s⟩) rfl
  have hpos : (Cursor.mk (c.skipBlanks.pos + 1 + l) (')' :: s)).skipBlanks.pos + 1 =
      c.skipBlanks.pos + (inGroup m).length := by
    show c.skipBlanks.pos + 1 + l + 1 = _
    rw [hlen, inGroup, List.length_cons, List.length_append, List.length_singleton]
    omega
  rw [close_eq_done hclose, hend, hpos] at hg
  exact ⟨_, hg⟩

/-- What is read by a rule is read as a group if it stands in parentheses. -/
theorem Runs.group_of_stop {rule : Rule}
    (h : Runs A scope (.call rule) ⟨n, m ++ ')' :: s⟩ ⟨.ok v, ⟨k, ')' :: s⟩, es⟩) :
    ∃ fs, Runs A scope .primary ⟨n, inGroup m ++ s⟩ ⟨.ok v, ⟨n + (inGroup m).length, s⟩, fs⟩ := by
  obtain ⟨fs, h⟩ := h.lift_expression (stopOf_close _ _ _)
  exact h.group_of_call (c := ⟨n, inGroup m ++ s⟩) rfl

theorem Runs.primary_inGroup (h : Runs A scope .primary ⟨n, m ++ s⟩ ⟨.ok v, ⟨k, s⟩, es⟩)
    (hc : (Cursor.mk n (m ++ s)).StartsPrimary) :
    ∃ fs, Runs A scope .primary ⟨n, inGroup m ++ s⟩ ⟨.ok v, ⟨n + (inGroup m).length, s⟩, fs⟩ := by
  have hs : Exchanges (')' :: s) s := .inl rfl
  have hc' : (Cursor.mk n (m ++ ')' :: s)).StartsPrimary :=
    h.startsPrimary_exchange hs (e := ⟨n, m⟩) rfl (List.suffix_refl s) hc
  obtain ⟨fs, hr⟩ := h.exchange_rest hs
  obtain ⟨fs, hr⟩ := hr.factor_of_primary hc' (stopOf_close _ _ _)
  exact hr.group_of_stop

theorem Runs.call_inGroup {rule : Rule}
    (h : Runs A scope (.call rule) ⟨n, m ++ s⟩ ⟨.ok v, ⟨k, s⟩, es⟩) :
    ∃ fs, Runs A scope (.call rule) ⟨n, inGroup m ++ s⟩
      ⟨.ok v, ⟨n + (inGroup m).length, s⟩, fs⟩ := by
  have hstop : (Cursor.mk k s).StopOf rule := h.stopsAt rfl
  have hfactor : (Cursor.mk k s).StopOf .factor := by
    cases rule with
    | factor => exact hstop
    | term => exact hstop.operand
    | expression => exact hstop.operand.operand
  obtain ⟨fs, hr⟩ := h.exchange_rest (s := ')' :: s) (.inl rfl)
  obtain ⟨fs, hr⟩ := hr.group_of_stop
  obtain ⟨fs, hr⟩ := hr.factor_of_primary (startsPrimary_paren n _) (hfactor.move _)
  exact hr.lift_factor (hstop.move _)

end Grammar

/-! ### What is read before a place -/

namespace Cursor

/-- The text from `c` on is that of `e`, which ends at `i`, with `y` behind it. -/
structure Splits (c e : Cursor) (y : List Char) (i : Nat) : Prop where
  eq : c = e.extend y
  pos : e.pos + e.rest.length = i

variable {c d e : Cursor} {y : List Char} {x : Char} {i : Nat}

theorem extend_inj (h : c.extend y = d.extend y) : c = d := by
  obtain ⟨n, r⟩ := c
  obtain ⟨k, r'⟩ := d
  simpa [Cursor.extend] using h

/-- What lies behind a place lies behind earlier ones too. -/
theorem Splits.of_reaches (h : d.Splits e y i) (hc : c.Reaches d) :
    ∃ e' : Cursor, c.Splits e' y i ∧ e'.pos = c.pos ∧ e.rest <:+ e'.rest := by
  obtain ⟨rfl, hpos⟩ := h
  obtain ⟨w, hw⟩ := hc.suffix
  have hrest : c.rest = (w ++ e.rest) ++ y := by rw [← hw, List.append_assoc]; rfl
  have htotal := hc.total
  rw [hrest] at htotal
  simp only [Cursor.extend, List.length_append] at htotal
  refine ⟨⟨c.pos, w ++ e.rest⟩, ⟨?_, ?_⟩, rfl, List.suffix_append _ _⟩
  · rw [Cursor.extend, ← hrest]
  · show c.pos + (w ++ e.rest).length = i
    rw [List.length_append]
    omega

theorem Splits.suffix (h : c.Splits e y i) : y <:+ c.rest := by
  rw [h.eq]
  exact List.suffix_append _ _

/-- A mark before `y` is ahead whatever stands there. -/
theorem Splits.of_mark (hx : c.ahead? = some x) (hm : isMark x) (h : c.past.Splits e y i) :
    ∃ e' : Cursor, c.Splits e' y i ∧ e'.rest ≠ [] ∧
      ∀ z, (e'.extend z).ahead? = some x ∧ (e'.extend z).past = e.extend z := by
  obtain ⟨e', he', -⟩ := h.of_reaches (cuts_past hx hm).reaches
  obtain rfl := he'.eq
  have hxe : e'.ahead? = some x := ahead?_of_suffix hx h.suffix
  have hpast : e'.past = e := extend_inj ((past_extend hxe).symm.trans h.eq)
  refine ⟨e', he', Grammar.rest_ne_nil_of_ahead hxe, fun z => ⟨ahead?_extend hxe, ?_⟩⟩
  rw [past_extend hxe, hpast]

/-- The name of a function before `y` is ahead if a parenthesis stands there. -/
theorem Splits.of_word {f : Func} (hf : c.function? = some f) (h : c.pastWord.Splits e y i) :
    ∃ e' : Cursor, c.Splits e' y i ∧ e'.rest ≠ [] ∧ ∀ z,
      (e'.extend ('(' :: z)).function? = some f ∧ (e'.extend ('(' :: z)).pastWord =
        e.extend ('(' :: z) := by
  obtain ⟨x, hx, hl⟩ := exists_letter_of_function? hf
  have hreach : c.Reaches c.pastWord := (reaches_skipBlanks c).trans (reaches_skip isLetter _)
  obtain ⟨e', he', -⟩ := h.of_reaches hreach
  obtain rfl := he'.eq
  obtain ⟨hxe, hb⟩ := run_of_suffix hx hl h.suffix
  have hword : e'.pastWord = e := extend_inj ((pastWord_extend hxe hb).symm.trans h.eq)
  refine ⟨e', he', Grammar.rest_ne_nil_of_ahead hxe, fun z => ?_⟩
  have hb' : e'.pastWord.Bounds isLetter ('(' :: z) := by
    intro _ x' hx'
    obtain rfl : '(' = x' := Option.some.inj hx'
    decide
  rw [function?_extend hxe hb', pastWord_extend hxe hb', hword]
  exact ⟨function?_extend hxe hb ▸ hf, rfl⟩

end Cursor

namespace Grammar

variable {α : Type} {A : Arithmetic α} {scope : Scope α} {c d : Cursor} {v : α}

/-- A run that ends before `y`, with more between, is the same whatever stands there. -/
theorem Runs.splits {t : Task α} {es : List Event} (h : Runs A scope t c ⟨.ok v, d, es⟩)
    {e : Cursor} {y : List Char} {i : Nat} (hd : d.Splits e y i) (he : e.rest ≠ []) :
    ∃ e' : Cursor, c.Splits e' y i ∧ e'.rest ≠ [] ∧ ∀ z,
      (∃ fs, Runs A scope t (e'.extend z) ⟨.ok v, e.extend z, fs⟩) ∧
      (t = .primary → c.StartsPrimary → (e'.extend z).StartsPrimary) := by
  obtain ⟨⟨n, u⟩, hc, rfl, w, rfl⟩ := hd.of_reaches (h.cuts rfl).reaches
  obtain ⟨k, r⟩ := e
  obtain rfl := hd.eq
  obtain ⟨x, r, rfl⟩ := List.exists_cons_of_ne_nil he
  have heq : c = ⟨c.pos, w ++ ((x :: r) ++ y)⟩ := by
    rw [← List.append_assoc]
    exact hc.eq
  refine ⟨_, hc, by simp, fun z => ?_⟩
  have hs : Exchanges ((x :: r) ++ z) ((x :: r) ++ y) := .inr rfl
  have hr : Runs A scope t ⟨c.pos, w ++ ((x :: r) ++ y)⟩ ⟨.ok v, ⟨k, (x :: r) ++ y⟩, es⟩ := heq ▸ h
  have hz : (Cursor.mk c.pos (w ++ (x :: r))).extend z = ⟨c.pos, w ++ ((x :: r) ++ z)⟩ := by
    rw [Cursor.extend, List.append_assoc]
  rw [hz]
  refine ⟨hr.exchange_rest hs, ?_⟩
  rintro rfl hstart
  rw [heq] at hstart
  exact hr.startsPrimary_exchange hs (e := ⟨c.pos, w⟩) rfl (List.suffix_refl _) hstart

/-- A factor that begins with neither a sign nor a function is a primary with a power. -/
theorem Runs.primary_of_factor {es : List Event}
    (h : Runs A scope (.call .factor) c ⟨.ok v, d, es⟩) (hc : c.StartsPrimary) :
    ∃ w e fs gs, Runs A scope .primary c ⟨.ok w, e, fs⟩ ∧
      Runs A scope (.power w) e ⟨.ok v, d, gs⟩ := by
  generalize hr : Run.mk (.ok v) d es = r at h
  obtain ⟨h⟩ := h
  cases h with
  | operandFails hrule => exact absurd rfl hrule
  | operand hrule => exact absurd rfl hrule
  | plus hx => exact absurd hx hc.plus
  | minus hx => exact absurd hx hc.minus
  | apply hf =>
    rw [hc.function] at hf
    cases hf
  | primaryFails => cases hr
  | @primary _ _ _ _ r _ h hp =>
    obtain ⟨_, _, gs⟩ := r
    cases hr
    exact ⟨_, _, _, gs, h, hp⟩

/-! ### Calls in a run -/

variable (A scope) in
/-- The task returns `v` before `u`. -/
def Yields (t : Task α) (c : Cursor) (v : α) (u : List Char) : Prop :=
  ∃ k es, Runs A scope t c ⟨.ok v, ⟨k, u⟩, es⟩

/-- The task has read something when it makes its first call. -/
def Task.Reads : Task α → Prop
  | .call _ | .body _ => False
  | .tail _ _ | .primary | .power _ => True

variable (A scope) in
/-- The task `t` at `c`, which returns `v` before `u`, calls `rule` from `i` to `j`, and returns the
same with another text for it that begins with a parenthesis. -/
def Contains (rule : Rule) (i j : Nat) (t : Task α) (c : Cursor) (v : α) (u : List Char) : Prop :=
  ∃ (e : Cursor) (m s : List Char) (w : α),
    c.Splits e (m ++ s) i ∧ i + m.length = j ∧
    (∃ es, Runs A scope (.call rule) ⟨i, m ++ s⟩ ⟨.ok w, ⟨j, s⟩, es⟩) ∧
    (t.Reads → e.rest ≠ []) ∧
    ∀ x, Yields A scope (.call rule) ⟨i, '(' :: x⟩ w s →
      Yields A scope t (e.extend ('(' :: x)) v u ∧
        (t = .primary → (e.extend ('(' :: x)).StartsPrimary)

variable {rule : Rule} {i j : Nat}

theorem Contains.of_part {t t' : Task α} {c' : Cursor} {v' : α} {u u' : List Char}
    (h : Contains A scope rule i j t c v u)
    (hpart : ∀ (e : Cursor) (y : List Char), c.Splits e y i → (t.Reads → e.rest ≠ []) →
      ∃ e' : Cursor, c'.Splits e' y i ∧ (t'.Reads → e'.rest ≠ []) ∧
      ∀ x, Yields A scope t (e.extend ('(' :: x)) v u →
        (t = .primary → (e.extend ('(' :: x)).StartsPrimary) →
        Yields A scope t' (e'.extend ('(' :: x)) v' u' ∧
          (t' = .primary → (e'.extend ('(' :: x)).StartsPrimary)) :
    Contains A scope rule i j t' c' v' u' := by
  obtain ⟨e, m, s, w, hc, hj, hcall, hreads, hput⟩ := h
  obtain ⟨e', hc', hreads', hput'⟩ := hpart e _ hc hreads
  refine ⟨e', m, s, w, hc', hj, hcall, hreads', fun x hx => ?_⟩
  exact hput' _ (hput x hx).1 (hput x hx).2

/-- The call that a task is. -/
theorem Runs.contains_self {es : List Event} (h : Runs A scope (.call rule) c ⟨.ok v, d, es⟩) :
    Contains A scope rule c.pos d.pos (.call rule) c v d.rest := by
  obtain ⟨u, hu, hpos, -⟩ := h.cuts rfl
  have hc : c = ⟨c.pos, u ++ d.rest⟩ := by rw [← hu]
  exact ⟨⟨c.pos, []⟩, u, d.rest, v, ⟨hc, rfl⟩, hpos.symm, ⟨es, hc ▸ h⟩, nofun,
    fun x hx => ⟨hx, nofun⟩⟩

theorem Runs.yields {t : Task α} {r : Run α} (h : Runs A scope t d r) (hv : r.outcome = .ok v)
    (ht : t ≠ .primary) (n : Nat) : Yields A scope t ⟨n, d.rest⟩ v r.cursor.rest := by
  obtain ⟨_, e, es⟩ := r
  cases hv
  obtain ⟨k, fs, -, hr⟩ := h.move (absurd · ht) n
  exact ⟨_, fs, hr⟩

/-- A call in a part of the run that begins where the run begins. -/
theorem Contains.of_start {t t' : Task α} {v' : α} {u u' : List Char}
    (h : Contains A scope rule i j t c v u) (ht : ¬ t'.Reads)
    (hput : ∀ d, Yields A scope t d v u → (t = .primary → d.StartsPrimary) →
      Yields A scope t' d v' u') : Contains A scope rule i j t' c v' u' := by
  refine h.of_part fun e y he _ => ⟨e, he, (absurd · ht), fun x hx hstart => ⟨hput _ hx hstart, ?_⟩⟩
  rintro rfl
  exact absurd trivial ht

/-- A call in a part of the run that begins behind a mark. -/
theorem Contains.of_mark {t t' : Task α} {v' : α} {u u' : List Char} {x : Char}
    (hx : c.ahead? = some x) (hm : isMark x) (h : Contains A scope rule i j t c.past v u)
    (ht : t' = .primary → x = '(')
    (hput : ∀ d, d.ahead? = some x → Yields A scope t d.past v u → Yields A scope t' d v' u') :
    Contains A scope rule i j t' c v' u' := by
  refine h.of_part fun e y he _ => ?_
  obtain ⟨e', he', hne, hmark⟩ := he.of_mark hx hm
  refine ⟨e', he', fun _ => hne, fun z hz _ => ⟨hput _ (hmark _).1 ((hmark _).2 ▸ hz), ?_⟩⟩
  intro hp
  have hx' := (hmark ('(' :: z)).1
  obtain rfl := ht hp
  exact startsPrimary_of_ahead hx' (by decide) (by decide) (by decide)

/-- **The calls of a run.** -/
theorem Runs.contains {t : Task α} {r : Run α} (h : Runs A scope t c r) (hv : r.outcome = .ok v)
    (hc : .returned rule i j ∈ r.trace) : Contains A scope rule i j t c v r.cursor.rest := by
  induction h generalizing v with
  | @call rule' c r h ih =>
    obtain ⟨_, d, es⟩ := r
    cases hv
    simp only [Run.asCall, List.mem_append, List.mem_cons, List.not_mem_nil, or_false, reduceCtorEq,
      false_or, Event.returned.injEq] at hc
    rcases hc with hc | ⟨rfl, rfl, rfl⟩
    · refine (ih rfl hc).of_start nofun fun d hd _ => ?_
      obtain ⟨k, fs, hr⟩ := hd
      exact ⟨k, _, .call hr⟩
    · exact (Runs.call h).contains_self
  | operandFails => cases hv
  | operand hrule h ht ih iht =>
    rcases List.mem_append.mp hc with hc | hc
    · refine (ih rfl hc).of_start nofun fun d hd _ => ?_
      obtain ⟨k, fs, hr⟩ := hd
      obtain ⟨l, gs, hr'⟩ := ht.yields hv nofun k
      exact ⟨l, _, .operand hrule hr hr'⟩
    · -- the operator that the first operand stops at is read before the call
      refine (iht hv hc).of_part fun e y he hreads => ?_
      obtain ⟨e', he', -, hr⟩ := h.splits he (hreads trivial)
      refine ⟨e', he', nofun, fun x hx _ => ⟨?_, nofun⟩⟩
      obtain ⟨⟨fs, hr⟩, -⟩ := hr ('(' :: x)
      obtain ⟨k, gs, hr'⟩ := hx
      exact ⟨k, _, .operand hrule hr hr'⟩
  | stop => cases hc
  | stepFails => cases hv
  | step hx hop h ht ih iht =>
    have hm := Rule.isMark_of_operator? hop
    rcases List.mem_append.mp hc with hc | hc
    · refine (ih rfl hc).of_mark hx hm nofun fun d hd hy => ?_
      obtain ⟨k, fs, hr⟩ := hy
      obtain ⟨l, gs, hr'⟩ := ht.yields hv nofun k
      exact ⟨l, _, .step hd hop hr hr'⟩
    · refine (iht hv hc).of_part fun e y he hreads => ?_
      obtain ⟨e', he', -, hr⟩ := h.splits he (hreads trivial)
      obtain ⟨e'', he'', hne, hmark⟩ := he'.of_mark hx hm
      refine ⟨e'', he'', fun _ => hne, fun x hx _ => ⟨?_, nofun⟩⟩
      obtain ⟨⟨fs, hr⟩, -⟩ := hr ('(' :: x)
      obtain ⟨k, gs, hr'⟩ := hx
      exact ⟨k, _, .step (hmark _).1 hop ((hmark _).2 ▸ hr) hr'⟩
  | plus hx h ih =>
    refine (ih hv hc).of_mark hx (by decide) nofun fun d hd hy => ?_
    obtain ⟨k, fs, hr⟩ := hy
    exact ⟨k, _, .plus hd hr⟩
  | minus hx h ih =>
    obtain ⟨w, hw, rfl⟩ := Run.map_outcome_eq_ok_iff.mp hv
    refine (ih hw hc).of_mark hx (by decide) nofun fun d hd hy => ?_
    obtain ⟨k, fs, hr⟩ := hy
    exact ⟨k, _, .minus hd hr⟩
  | apply hf h ih =>
    obtain ⟨w, hw, rfl⟩ := Run.map_outcome_eq_ok_iff.mp hv
    refine (ih hw hc).of_part fun e y he _ => ?_
    obtain ⟨e', he', hne, hword⟩ := he.of_word hf
    refine ⟨e', he', fun _ => hne, fun x hx _ => ⟨?_, nofun⟩⟩
    obtain ⟨k, fs, hr⟩ := hx
    exact ⟨k, _, .apply (hword _).1 ((hword _).2 ▸ hr)⟩
  | primaryFails => cases hv
  | primary hstart h hp ih ihp =>
    rcases List.mem_append.mp hc with hc | hc
    · refine (ih rfl hc).of_start nofun fun d hd hstart' => ?_
      obtain ⟨k, fs, hr⟩ := hd
      obtain ⟨l, gs, hr'⟩ := hp.yields hv nofun k
      exact ⟨l, _, .primary (hstart' rfl) hr hr'⟩
    · refine (ihp hv hc).of_part fun e y he hreads => ?_
      obtain ⟨e', he', -, hr⟩ := h.splits he (hreads trivial)
      refine ⟨e', he', nofun, fun x hx _ => ⟨?_, nofun⟩⟩
      obtain ⟨⟨fs, hr⟩, hstart'⟩ := hr ('(' :: x)
      obtain ⟨k, gs, hr'⟩ := hx
      exact ⟨k, _, .primary (hstart' rfl hstart) hr hr'⟩
  | noPower => cases hc
  | raise hx h ih =>
    obtain ⟨w, hw, rfl⟩ := Run.map_outcome_eq_ok_iff.mp hv
    refine (ih hw hc).of_mark hx (by decide) nofun fun d hd hy => ?_
    obtain ⟨k, fs, hr⟩ := hy
    exact ⟨k, _, .raise hd hr⟩
  | ended => cases hc
  | groupFails => cases hv
  | @group c w d es hx h ih =>
    obtain ⟨hclose, rfl⟩ := close_outcome_eq_ok_iff.mp hv
    rw [close_eq_done hclose] at hc ⊢
    have hc : .returned rule i j ∈ es := by simpa [Run.after, Run.done] using hc
    refine (ih rfl hc).of_mark hx (by decide) (fun _ => rfl) fun d' hd hy => ?_
    obtain ⟨k, fs, hr⟩ := hy
    have hg := Runs.group hd hr
    -- the same parenthesis closes the group
    rw [close_eq_done (show (Cursor.mk k d.rest).ahead? = some ')' from hclose)] at hg
    exact ⟨_, _, hg⟩
  | literal =>
    rw [literal_eq] at hc
    split at hc <;> cases hc
  | name =>
    rw [symbol_eq] at hc
    split at hc <;> simp [Run.note, Run.done, Run.fail] at hc
  | empty => cases hc

/-- The primary of a factor can stand in parentheses. -/
theorem Runs.factor_inGroup {m s : List Char} {n k : Nat} {es : List Event}
    (h : Runs A scope (.call .factor) ⟨n, m ++ s⟩ ⟨.ok v, ⟨k, s⟩, es⟩)
    (hc : (Cursor.mk n (m ++ s)).StartsPrimary) :
    ∃ b q, m = b ++ q ∧ (Grammar.primary A scope ⟨n, m ++ s⟩).cursor.pos = n + b.length ∧
      Yields A scope (.call .factor) ⟨n, inGroup b ++ (q ++ s)⟩ v s := by
  obtain ⟨w, ⟨l, r⟩, fs, gs, hprimary, hp⟩ := h.primary_of_factor hc
  obtain ⟨b, hb, hpos, -⟩ := hprimary.cuts rfl
  obtain ⟨q, rfl⟩ := hp.suffix rfl
  obtain rfl : m = b ++ q := List.append_cancel_right (by rw [List.append_assoc]; exact hb)
  rw [List.append_assoc] at hprimary hc ⊢
  obtain ⟨fs, hr⟩ := hprimary.primary_inGroup hc
  obtain ⟨k, gs, hp⟩ := hp.yields rfl nofun (n + (inGroup b).length)
  refine ⟨b, q, rfl, ?_, k, _, .call (.primary (startsPrimary_paren _ _) hr hp)⟩
  rw [← show _ = Grammar.primary A scope _ from eq_run_of_runs hprimary]
  exact hpos

/-! ### Whole texts -/

theorem solve_trace_of_runs {text : String} {es : List Event}
    (h : Runs A scope (.call .expression) (.start text) ⟨.ok v, d, es⟩) (hd : d.rest = []) :
    (solve A scope text).trace = es := by
  have he : evaluate A scope .expression (.start text) = ⟨.ok v, d, es⟩ := (eq_run_of_runs h).symm
  rw [solve, he, Run.andThen_ok, finish, if_pos (by simp [atEnd, hd])]
  simp [Run.after, Run.done]

/-- A text that begins with a parenthesis and has the value of a call can stand in its place. -/
theorem solve_contains {text : String} (h : (solve A scope text).outcome = .ok v)
    (hc : .returned rule i j ∈ (solve A scope text).trace) :
    ∃ p m s w es, text.toList = p ++ (m ++ s) ∧ p.length = i ∧ i + m.length = j ∧
      Runs A scope (.call rule) ⟨i, m ++ s⟩ ⟨.ok w, ⟨j, s⟩, es⟩ ∧
      ∀ x, Yields A scope (.call rule) ⟨i, '(' :: x⟩ w s →
        (solve A scope (String.ofList (p ++ '(' :: x))).outcome = .ok v := by
  obtain ⟨d, fs, hr, hd⟩ := solve_outcome_eq_ok_iff.mp h
  rw [solve_trace_of_runs hr hd] at hc
  obtain ⟨⟨n, p⟩, m, s, w, ⟨hsplit, hi⟩, hj, ⟨es, hcall⟩, -, hput⟩ := hr.contains rfl hc
  simp only [start, Cursor.extend, Cursor.mk.injEq] at hsplit
  obtain ⟨rfl, htext⟩ := hsplit
  refine ⟨p, m, s, w, es, htext, (Nat.zero_add _).symm.trans hi, hj, hcall, fun x hx => ?_⟩
  obtain ⟨k, gs, hr'⟩ := (hput x hx).1
  refine solve_outcome_eq_ok_iff.mpr ⟨⟨k, d.rest⟩, gs, ?_, hd⟩
  rw [start, String.toList_ofList]
  exact hr'

end Grammar

/-- The text with parentheses around what stands from `i` to `j`. -/
def wrap (text : String) (i j : Nat) : String :=
  String.ofList (text.toList.take i) ++ "(" ++ String.ofList ((text.toList.take j).drop i) ++ ")" ++
    String.ofList (text.toList.drop j)

theorem wrap_eq {text : String} {p m s : List Char} {i j : Nat} (h : text.toList = p ++ (m ++ s))
    (hi : p.length = i) (hj : i + m.length = j) :
    wrap text i j = String.ofList (p ++ (inGroup m ++ s)) := by
  subst hi hj
  have htake : (p ++ (m ++ s)).take (p.length + m.length) = p ++ m := by
    rw [List.take_length_add_append, List.take_left]
  have hdrop : (p ++ (m ++ s)).drop (p.length + m.length) = s := by
    rw [List.drop_length_add_append, List.drop_left]
  apply String.toList_injective
  rw [wrap, h, htake, hdrop, List.take_left, List.drop_left, inGroup_append]
  simp

/-- **Parentheses around a call make no difference**, and neither do parentheses around what a power
sign can follow. -/
theorem Solver.solve_wrap (text : String) (scope : Scope Float) (v : Float)
    (h : (Solver.mk text scope).solve.value = .ok v) (rule : Rule) (i j : Nat)
    (hcall : .returned rule i j ∈ (Grammar.solve double scope text).trace) :
    (Solver.mk (wrap text i j) scope).solve.value = .ok v ∧
    (rule = .factor → (Cursor.within text i).StartsPrimary →
      let k := (Grammar.primary double scope (.within text i)).cursor.pos
      (Solver.mk (wrap text i k) scope).solve.value = .ok v) := by
  simp only [solve_value_eq_ok_iff] at h ⊢
  obtain ⟨p, m, s, w, es, htext, hi, hj, hr, hput⟩ := Grammar.solve_contains h hcall
  constructor
  · rw [wrap_eq htext hi hj, inGroup_append]
    obtain ⟨fs, hr'⟩ := hr.call_inGroup
    rw [inGroup_append] at hr'
    exact hput _ ⟨_, fs, hr'⟩
  · rintro rfl hstart
    have hwithin : Cursor.within text i = ⟨i, m ++ s⟩ := by
      rw [Cursor.within, htext, ← hi, List.drop_left]
    rw [hwithin] at hstart ⊢
    obtain ⟨b, q, rfl, hpos, hr'⟩ := hr.factor_inGroup hstart
    rw [hpos, wrap_eq (htext.trans (by rw [List.append_assoc])) hi rfl, inGroup_append]
    rw [inGroup_append] at hr'
    exact hput _ hr'

/-- In `2--3*4` the term after the first sign can stand in parentheses, and so can the operand of the
second one. -/
theorem Solver.solve_wrap_signed :
    (Solver.mk "2--3*4" .strict).solve.value = .ok 14.0 ∧
      (Solver.mk "2-(-3*4)" .strict).solve.value = .ok 14.0 ∧
      (Solver.mk "2--(3)*4" .strict).solve.value = .ok 14.0 := by
  have h : (Solver.mk "2--3*4" .strict).solve.value = .ok 14.0 := by decide +kernel
  have hterm : .returned .term 2 6 ∈ (Grammar.solve double .strict "2--3*4").trace := by
    decide +kernel
  have hfactor : .returned .factor 3 4 ∈ (Grammar.solve double .strict "2--3*4").trace := by
    decide +kernel
  have hstart : (Cursor.within "2--3*4" 3).StartsPrimary :=
    startsPrimary_of_ahead (x := '3') (by decide +kernel) (by decide) (by decide) (by decide)
  have hpos : (Grammar.primary double .strict (.within "2--3*4" 3)).cursor.pos = 4 := by
    decide +kernel
  have hbase := (solve_wrap "2--3*4" .strict _ h .factor 3 4 hfactor).2 rfl hstart
  rw [hpos] at hbase
  exact ⟨h, (solve_wrap "2--3*4" .strict _ h .term 2 6 hterm).1, hbase⟩

end Reckoner
