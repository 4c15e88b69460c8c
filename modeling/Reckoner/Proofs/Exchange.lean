import Reckoner.Proofs.Extension

/-!
# What follows a run

A run that returns has looked at the character behind what it has read, and at no other. So what
follows can be exchanged for another text that begins with the same character (`Exchanges`), and for
one that begins with a closing parenthesis, which no rule goes on for. The run has the same value
then and stops at the same place (`Runs.exchange`).

A text is written `e.extend t` here, where `t` is what follows. That the run stops before `t` or
where it begins is supposed of its end; the parts of the run stop earlier.
-/

namespace Reckoner

/-- The text `s` can follow in place of `t`. -/
def Exchanges (s t : List Char) : Prop := s.head? = some ')' ∨ s.head? = t.head?

namespace Cursor

variable {e : Cursor} {s t : List Char} {x : Char} {p : Char → Bool}

/-- A run that stops where `t` begins at the latest does not go on into it. -/
theorem bounds_of_suffix (h : t <:+ ((e.extend t).skip p).rest) : (e.skip p).Bounds p t := by
  intro hr x hx
  by_contra hp
  have hlt : (((e.skip p).extend t).skip p).rest.length < ((e.skip p).extend t).rest.length :=
    skip_length_lt (x := x) (by simpa [peek?, Cursor.extend, hr] using hx) (by simpa using hp)
  have hrest : ((e.skip p).extend t).rest = t := by rw [Cursor.extend, hr, List.nil_append]
  rw [← skip_extend, hrest] at hlt
  exact absurd h.length_le (by omega)

theorem Bounds.exchange (h : e.Bounds p t) (hs : Exchanges s t) (hp : p ')' = false) :
    e.Bounds p s := by
  intro hr x hx
  rcases hs with hs | hs
  · obtain rfl := Option.some.inj (hs.symm.trans hx)
    exact hp
  · exact h hr x (hs ▸ hx)

/-- A character that stands before `t` is ahead without it. -/
theorem ahead?_of_length_lt (hx : (e.extend t).ahead? = some x)
    (h : t.length < (e.extend t).skipBlanks.rest.length) : e.ahead? = some x := by
  rcases hy : e.ahead? with _ | y
  · have hle := (reaches_skipBlanks (Cursor.mk (e.pos + e.rest.length) t)).length_le
    rw [← skipBlanks_extend_ended hy] at hle
    exact absurd h (Nat.not_lt.mpr hle)
  · rw [← hx, ahead?_extend hy]

theorem ahead?_of_suffix (hx : (e.extend t).ahead? = some x) (h : t <:+ (e.extend t).past.rest) :
    e.ahead? = some x :=
  ahead?_of_length_lt hx (Nat.lt_of_le_of_lt h.length_le (next_length_lt_of_peek? hx))

theorem run_of_suffix (hx : (e.extend t).ahead? = some x) (hp : p x)
    (h : t <:+ ((e.extend t).skipBlanks.skip p).rest) :
    e.ahead? = some x ∧ (e.skipBlanks.skip p).Bounds p t := by
  have hxe : e.ahead? = some x :=
    ahead?_of_length_lt hx (Nat.lt_of_le_of_lt h.length_le (skip_length_lt hx hp))
  rw [skipBlanks_extend_of_ahead hxe] at h
  exact ⟨hxe, bounds_of_suffix h⟩

theorem skipBlanks_of_suffix (h : t <:+ (e.extend t).skipBlanks.rest) :
    (e.extend t).skipBlanks = e.skipBlanks.extend t := skipBlanks_extend (bounds_of_suffix h)

theorem skipBlanks_exchange (hs : Exchanges s t) (h : t <:+ (e.extend t).skipBlanks.rest) :
    (e.extend s).skipBlanks = e.skipBlanks.extend s :=
  skipBlanks_extend ((bounds_of_suffix h).exchange hs (by decide))

/-- The same character is ahead if what follows is exchanged, or a closing parenthesis. -/
theorem ahead?_exchange (hs : Exchanges s t) (h : t <:+ (e.extend t).skipBlanks.rest) :
    (e.extend s).ahead? = some ')' ∨ (e.extend s).ahead? = (e.extend t).ahead? := by
  rcases hx : e.ahead? with _ | x
  · have hr : e.skipBlanks.rest = [] := skipBlanks_rest_eq_nil_iff.mpr hx
    rw [ahead?, ahead?, skipBlanks_exchange hs h, skipBlanks_of_suffix h, peek?, peek?,
      Cursor.extend, Cursor.extend, hr, List.nil_append, List.nil_append]
    exact hs
  · exact .inr (by rw [ahead?_extend hx, ahead?_extend hx])

end Cursor

open Cursor

namespace Grammar

variable {α : Type} {A : Arithmetic α} {scope : Scope α} {s t : List Char}

theorem Runs.suffix {task : Task α} {c : Cursor} {r : Run α} {v : α} (h : Runs A scope task c r)
    (hv : r.outcome = .ok v) : r.cursor.rest <:+ c.rest := (h.cuts hv).reaches.suffix

/-- An empty operand stays one. -/
theorem empty_exchange (hs : Exchanges s t) {e : Cursor} {x : Char}
    (hx : (e.extend t).ahead? = some x) (ho : isOperandStart x = false)
    (ht : t <:+ (e.extend t).skipBlanks.rest) :
    ∃ y, (e.extend s).ahead? = some y ∧ isOperandStart y = false ∧ (y = ')' ∨ y = x) := by
  rcases ahead?_exchange hs ht with hp | hp
  · exact ⟨')', hp, by decide, .inl rfl⟩
  · exact ⟨x, hp.trans hx, ho, .inr rfl⟩

/-- A primary begins where it did if what follows it is exchanged. -/
theorem Runs.startsPrimary_exchange (hs : Exchanges s t) {e : Cursor} {r : Run α} {v : α}
    (h : Runs A scope .primary (e.extend t) r) (hv : r.outcome = .ok v)
    (ht : t <:+ r.cursor.rest) (hc : (e.extend t).StartsPrimary) :
    (e.extend s).StartsPrimary := by
  cases h with
  | ended => cases hv
  | groupFails => cases hv
  | @group _ w d es hx h =>
    have hd : (close w d).cursor.rest <:+ d.rest := (closeFrom w d).2.suffix
    have hxe := ahead?_of_suffix hx (ht.trans (hd.trans (h.suffix rfl)))
    exact startsPrimary_of_ahead (ahead?_extend hxe) (by decide) (by decide) (by decide)
  | literal hx hn =>
    rw [literal_cursor] at ht
    have hxe := (run_of_suffix hx hn ht).1
    refine startsPrimary_of_ahead (ahead?_extend hxe) (not_isLetter_of_isNumeric hn) ?_ ?_
    · rintro rfl
      cases hn
    · rintro rfl
      cases hn
  | name hx hl =>
    rw [symbol_cursor] at ht
    obtain ⟨hxe, hb⟩ := run_of_suffix hx hl ht
    have hf : (e.extend s).function? = (e.extend t).function? := by
      rw [function?_extend hxe (hb.exchange hs (by decide)), function?_extend hxe hb]
    exact ⟨ahead?_extend (s := s) hxe ▸ hx ▸ hc.plus, ahead?_extend (s := s) hxe ▸ hx ▸ hc.minus,
      hf.trans hc.function⟩
  | empty hx ho =>
    obtain ⟨y, hy, ho', hyx⟩ := empty_exchange hs hx ho ht
    simp only [isOperandStart, Bool.or_eq_false_iff] at ho'
    refine startsPrimary_of_ahead hy ho'.2 ?_ ?_
    · rintro rfl
      exact hc.plus (hx.trans (congrArg some (hyx.resolve_left (by decide)).symm))
    · rintro rfl
      exact hc.minus (hx.trans (congrArg some (hyx.resolve_left (by decide)).symm))

/-- **What follows a run can be exchanged.** -/
theorem Runs.exchange (hs : Exchanges s t) {task : Task α} {c : Cursor} {r : Run α} {v : α}
    (h : Runs A scope task c r) (hv : r.outcome = .ok v) {e : Cursor} (hc : c = e.extend t)
    (ht : t <:+ r.cursor.rest) :
    ∃ (d : Cursor) (fs : List Event), r.cursor = d.extend t ∧
      Runs A scope task (e.extend s) ⟨.ok v, d.extend s, fs⟩ := by
  induction h generalizing v e with
  | call _ ih =>
    obtain ⟨d, fs, hd, hr⟩ := ih hv hc ht
    exact ⟨d, _, hd, .call hr⟩
  | operandFails => cases hv
  | operand hrule _ htail ih iht =>
    obtain ⟨d, fs, hd, hr⟩ := ih rfl hc (ht.trans (htail.suffix hv))
    obtain ⟨d', gs, hd', hr'⟩ := iht hv hd ht
    exact ⟨d', _, hd', .operand hrule hr hr'⟩
  | @stop rule w c hx =>
    subst hc
    cases hv
    -- a closing parenthesis is no operator either
    have hstop : (e.extend s).ahead?.bind rule.operator? = none := by
      rcases ahead?_exchange hs ht with hp | hp
      · rw [hp]
        cases rule <;> rfl
      · rwa [hp]
    refine ⟨e.skipBlanks, [], skipBlanks_of_suffix ht, ?_⟩
    rw [← skipBlanks_exchange hs ht]
    exact .stop hstop
  | stepFails => cases hv
  | @step rule w c x op u d es r hx hop h htail ih iht =>
    subst hc
    have htd := ht.trans (htail.suffix hv)
    have hxe := ahead?_of_suffix hx (htd.trans (h.suffix rfl))
    obtain ⟨d, fs, hd, hr⟩ := ih rfl (past_extend hxe) htd
    obtain ⟨d', gs, hd', hr'⟩ := iht hv hd ht
    exact ⟨d', _, hd', .step (ahead?_extend hxe) hop (past_extend hxe ▸ hr) hr'⟩
  | plus hx h ih =>
    subst hc
    have hxe := ahead?_of_suffix hx (ht.trans (h.suffix hv))
    obtain ⟨d, fs, hd, hr⟩ := ih hv (past_extend hxe) ht
    exact ⟨d, _, hd, .plus (ahead?_extend hxe) (past_extend hxe ▸ hr)⟩
  | minus hx h ih =>
    subst hc
    obtain ⟨u, hu, rfl⟩ := Run.map_outcome_eq_ok_iff.mp hv
    have hxe := ahead?_of_suffix hx (ht.trans (h.suffix hu))
    obtain ⟨d, fs, hd, hr⟩ := ih hu (past_extend hxe) ht
    exact ⟨d, _, hd, .minus (ahead?_extend hxe) (past_extend hxe ▸ hr)⟩
  | apply hf h ih =>
    subst hc
    obtain ⟨u, hu, rfl⟩ := Run.map_outcome_eq_ok_iff.mp hv
    obtain ⟨x, hx, hl⟩ := exists_letter_of_function? hf
    obtain ⟨hxe, hb⟩ := run_of_suffix hx hl (ht.trans (h.suffix hu))
    obtain ⟨d, fs, hd, hr⟩ := ih hu (pastWord_extend hxe hb) ht
    have hb' := hb.exchange hs (by decide)
    rw [function?_extend hxe hb] at hf
    exact ⟨d, _, hd, .apply (function?_extend hxe hb' ▸ hf) (pastWord_extend hxe hb' ▸ hr)⟩
  | primaryFails => cases hv
  | primary hc' h hp ih ihp =>
    subst hc
    have htd := ht.trans (hp.suffix hv)
    obtain ⟨d, fs, hd, hr⟩ := ih rfl rfl htd
    obtain ⟨d', gs, hd', hr'⟩ := ihp hv hd ht
    exact ⟨d', _, hd', .primary (h.startsPrimary_exchange hs rfl htd hc') hr hr'⟩
  | noPower hx =>
    subst hc
    cases hv
    have hstop : (e.extend s).ahead? ≠ some '^' := by
      rcases ahead?_exchange hs ht with hp | hp
      · rw [hp]
        decide
      · rwa [hp]
    refine ⟨e.skipBlanks, [], skipBlanks_of_suffix ht, ?_⟩
    rw [← skipBlanks_exchange hs ht]
    exact .noPower hstop
  | raise hx h ih =>
    subst hc
    obtain ⟨u, hu, rfl⟩ := Run.map_outcome_eq_ok_iff.mp hv
    have hxe := ahead?_of_suffix hx (ht.trans (h.suffix hu))
    obtain ⟨d, fs, hd, hr⟩ := ih hu (past_extend hxe) ht
    exact ⟨d, _, hd, .raise (ahead?_extend hxe) (past_extend hxe ▸ hr)⟩
  | ended => cases hv
  | groupFails => cases hv
  | @group c w d es hx h ih =>
    subst hc
    obtain ⟨hclose, rfl⟩ := close_outcome_eq_ok_iff.mp hv
    rw [Run.after_cursor, close_eq_done hclose] at ht ⊢
    have hpast : d.past.rest <:+ d.rest := (cuts_past hclose (by decide)).reaches.suffix
    have htd := ht.trans hpast
    have hxe := ahead?_of_suffix hx (htd.trans (h.suffix rfl))
    obtain ⟨d', fs, rfl, hr⟩ := ih rfl (past_extend hxe) htd
    have hclose' := ahead?_of_suffix hclose ht
    have hg := Runs.group (ahead?_extend hxe) (past_extend hxe ▸ hr)
    rw [close_eq_done (ahead?_extend hclose'), past_extend hclose'] at hg
    exact ⟨d'.past, _, past_extend hclose', hg⟩
  | literal hx hn =>
    subst hc
    rw [literal_cursor] at ht
    obtain ⟨hxe, hb⟩ := run_of_suffix hx hn ht
    rw [skipBlanks_extend_of_ahead hxe, literal_extend_of_bounds hb] at hv ⊢
    have hr : Runs A scope .primary (e.extend s) (Grammar.literal A (e.extend s).skipBlanks) :=
      .literal (ahead?_extend hxe) hn
    rw [skipBlanks_extend_of_ahead hxe,
      literal_extend_of_bounds (hb.exchange hs (by decide)), show _ = Except.ok v from hv] at hr
    exact ⟨_, _, rfl, hr⟩
  | name hx hl =>
    subst hc
    rw [symbol_cursor] at ht
    obtain ⟨hxe, hb⟩ := run_of_suffix hx hl ht
    have hb' := hb.exchange hs (by decide)
    rw [word_extend hxe hb, skipBlanks_extend_of_ahead hxe, symbol_extend_of_bounds hb] at hv ⊢
    have hr : Runs A scope .primary (e.extend s) (symbol A scope _ (e.extend s).skipBlanks) :=
      .name (ahead?_extend hxe) hl
    rw [word_extend hxe hb', skipBlanks_extend_of_ahead hxe, symbol_extend_of_bounds hb',
      show _ = Except.ok v from hv] at hr
    exact ⟨_, _, rfl, hr⟩
  | empty hx ho =>
    subst hc
    cases hv
    obtain ⟨y, hy, ho', -⟩ := empty_exchange hs hx ho ht
    refine ⟨e.skipBlanks, [], skipBlanks_of_suffix ht, ?_⟩
    rw [← skipBlanks_exchange hs ht]
    exact .empty hy ho'

/-- The text behind the end of a run can be exchanged. -/
theorem Runs.exchange_rest (hs : Exchanges s t) {task : Task α} {u : List Char} {n k : Nat} {v : α}
    {es : List Event} (h : Runs A scope task ⟨n, u ++ t⟩ ⟨.ok v, ⟨k, t⟩, es⟩) :
    ∃ fs, Runs A scope task ⟨n, u ++ s⟩ ⟨.ok v, ⟨k, s⟩, fs⟩ := by
  obtain ⟨⟨m, w⟩, fs, hd, hr⟩ := h.exchange hs rfl (e := ⟨n, u⟩) rfl (List.suffix_refl t)
  simp only [Cursor.extend, Cursor.mk.injEq, List.self_eq_append_left] at hd
  obtain ⟨rfl, rfl⟩ := hd
  exact ⟨fs, hr⟩

end Grammar

end Reckoner
