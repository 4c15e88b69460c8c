import Reckoner.Proofs.Extension

/-!
# Completions

A text that ends too early is the beginning of one that has a value. What a rule returns from has as
many closing parentheses as opening ones (`Runs.nesting_eq`), so the other parentheses count the
groups that are open where the text ends. To close these groups is enough (`Completes`): an operand
that is missing before a closing parenthesis is left out. Where no group is open an operand is
missing, and a zero is put there.

`Runs.completable` runs the longer text: the parts that returned run as before, and the rules that
were under way return one after the other at what is left of the completion.

The text before any fault is such a beginning, or has a value (`Fails.take`). For a fault in it would
be one of the whole text, and the run of the whole text has passed that place.
-/

namespace Reckoner

/-! ### Parentheses -/

/-- How many more parentheses are opened than closed. -/
def nesting (l : List Char) : Int := l.count '(' - l.count ')'

theorem nesting_append (l m : List Char) : nesting (l ++ m) = nesting l + nesting m := by
  simp only [nesting, List.count_append]
  omega

theorem nesting_eq_zero {l : List Char} (h : ∀ x ∈ l, x ≠ '(' ∧ x ≠ ')') : nesting l = 0 := by
  have ho : l.count '(' = 0 := List.count_eq_zero_of_not_mem fun hm => (h _ hm).1 rfl
  have hc : l.count ')' = 0 := List.count_eq_zero_of_not_mem fun hm => (h _ hm).2 rfl
  rw [nesting, ho, hc]
  rfl

namespace Cursor

variable {c : Cursor} {x : Char}

theorem nesting_skip {p : Char → Bool} (ho : p '(' = false) (hc : p ')' = false) (c : Cursor) :
    nesting (c.skip p).rest = nesting c.rest := by
  have hrun : nesting (c.run p) = 0 := by
    refine nesting_eq_zero fun x hx => ?_
    have hp : p x := List.mem_takeWhile_imp hx
    constructor
    · rintro rfl
      rw [ho] at hp
      cases hp
    · rintro rfl
      rw [hc] at hp
      cases hp
  have hrest : c.rest = c.run p ++ (c.skip p).rest := List.takeWhile_append_dropWhile.symm
  rw [hrest, nesting_append, hrun, Int.zero_add]

theorem nesting_skipBlanks (c : Cursor) : nesting c.skipBlanks.rest = nesting c.rest :=
  nesting_skip (by decide) (by decide) c

theorem nesting_past (h : c.ahead? = some x) :
    nesting c.rest = nesting [x] + nesting c.past.rest := by
  rw [← nesting_skipBlanks, skipBlanks_rest h, ← nesting_append]
  rfl

theorem ahead?_of_cons {u : List Char} (h : c.rest = x :: u) (hx : isBlank x = false) :
    c.ahead? = some x ∧ c.past.rest = u := by
  have hc : c.skipBlanks = c := skip_of_peek? (by simpa [peek?, h] using hx)
  rw [ahead?, past, hc, peek?, next, h]
  exact ⟨rfl, rfl⟩

end Cursor

theorem Rule.nesting_operator? {rule : Rule} {x : Char} {op : Operator}
    (h : rule.operator? x = some op) : nesting [x] = 0 := by
  rcases operator?_eq_some_iff.mp h with ⟨-, rfl, -⟩ | ⟨-, rfl, -⟩ | ⟨-, rfl, -⟩ | ⟨-, rfl, -⟩ <;>
    decide

namespace Grammar

open Cursor

variable {α : Type} {A : Arithmetic α} {scope : Scope α}

/-- **What a rule returns from is balanced.** -/
theorem Runs.nesting_eq {t : Task α} {c : Cursor} {r : Run α} {v : α} (h : Runs A scope t c r)
    (hv : r.outcome = .ok v) : nesting c.rest = nesting r.cursor.rest := by
  induction h generalizing v with
  | call _ ih => exact ih hv
  | operandFails => cases hv
  | operand _ _ _ ih iht => exact (ih rfl).trans (iht hv)
  | stop => exact (nesting_skipBlanks _).symm
  | stepFails => cases hv
  | step hx hop _ _ ih iht =>
    rw [nesting_past hx, Rule.nesting_operator? hop, Int.zero_add]
    exact (ih rfl).trans (iht hv)
  | plus hx _ ih => exact (nesting_past hx).trans ((Int.zero_add _).trans (ih hv))
  | minus hx _ ih =>
    obtain ⟨u, hu, -⟩ := Run.map_outcome_eq_ok_iff.mp hv
    exact (nesting_past hx).trans ((Int.zero_add _).trans (ih hu))
  | @apply c f r _ _ ih =>
    obtain ⟨u, hu, -⟩ := Run.map_outcome_eq_ok_iff.mp hv
    have hw : nesting c.pastWord.rest = nesting c.skipBlanks.rest :=
      nesting_skip (by decide) (by decide) _
    rw [← nesting_skipBlanks, ← hw]
    exact ih hu
  | primaryFails => cases hv
  | primary _ _ _ ih ihp => exact (ih rfl).trans (ihp hv)
  | noPower => exact (nesting_skipBlanks _).symm
  | raise hx _ ih =>
    obtain ⟨u, hu, -⟩ := Run.map_outcome_eq_ok_iff.mp hv
    exact (nesting_past hx).trans ((Int.zero_add _).trans (ih hu))
  | ended => cases hv
  | groupFails => cases hv
  | @group c u d es hx _ ih =>
    obtain ⟨hd, -⟩ := close_outcome_eq_ok_iff.mp hv
    have hopen : nesting ['('] + nesting [')'] = 0 := by decide
    rw [Run.after_cursor, close_eq_done hd, nesting_past hx, ih rfl, nesting_past hd,
      ← Int.add_assoc, hopen, Int.zero_add]
    rfl
  | literal =>
    rw [literal_cursor, ← nesting_skipBlanks]
    exact (nesting_skip (by decide) (by decide) _).symm
  | name =>
    rw [symbol_cursor, ← nesting_skipBlanks]
    exact (nesting_skip (by decide) (by decide) _).symm
  | empty => exact (nesting_skipBlanks _).symm

/-! ### Completing a run -/

/-- `Completes n s u`: after a text that ends too early with `n` groups open, `s` closes them and
leaves `u`. -/
inductive Completes : Nat → List Char → List Char → Prop where
  | operand : Completes 0 ['0'] []
  /-- The parentheses that are missing, before the end or before another one. -/
  | groups {n u} : 0 < n ∨ u ≠ [] → (∀ x ∈ u.head?, x = ')') →
      Completes n (List.replicate n ')' ++ u) u

namespace Completes

variable {n : Nat} {s u : List Char}

theorem closes (h : Completes n s u) : ∀ x ∈ u.head?, x = ')' := by
  cases h with
  | operand => nofun
  | groups _ hu => exact hu

theorem inner (h : Completes (n + 1) s u) : Completes n s (')' :: u) := by
  cases h with
  | groups _ hu =>
    -- the last parenthesis is that of the outermost group
    rw [List.replicate_succ', List.append_assoc]
    exact .groups (.inr (List.cons_ne_nil _ _)) (by simp)

theorem eq_cons (h : Completes 1 s u) : s = ')' :: u := by
  cases h with
  | groups => rfl

/-- A completion begins with an operand or a closing parenthesis. -/
theorem head (h : Completes n s u) :
    (s = ['0'] ∧ n = 0 ∧ u = []) ∨ s.head? = some ')' ∧ (n = 0 → s = u) := by
  cases h with
  | operand => exact .inl ⟨rfl, rfl, rfl⟩
  | groups hne hu =>
    refine .inr ⟨?_, fun hn => by simp [hn]⟩
    cases n with
    | zero =>
      obtain ⟨x, r, hr⟩ := List.exists_cons_of_ne_nil (hne.resolve_left (lt_irrefl 0))
      simpa [hr] using hu
    | succ n => rfl

theorem exists_head (h : Completes n s u) :
    ∃ x, s.head? = some x ∧ isBlank x = false ∧ isLetter x = false ∧ x ≠ '+' ∧ x ≠ '-' := by
  rcases h.head with ⟨rfl, -, -⟩ | ⟨hs, -⟩
  · exact ⟨'0', rfl, by decide⟩
  · exact ⟨')', hs, by decide⟩

end Completes

theorem exists_completes (n : Nat) : ∃ s, Completes n s [] := by
  cases n with
  | zero => exact ⟨_, .operand⟩
  | succ n => exact ⟨_, .groups (.inl n.succ_pos) nofun⟩

variable (A scope) in
/-- The task returns at `u` if `s` follows the text. -/
def Returns (t : Task α) (c : Cursor) (s u : List Char) : Prop :=
  ∃ v d es, Runs A scope t (c.extend s) ⟨.ok v, d, es⟩ ∧ d.rest = u

theorem skipBlanks_of_closes {d : Cursor} (h : ∀ x ∈ d.rest.head?, x = ')') : d.skipBlanks = d :=
  skip_of_peek? fun x hx => by rw [h x hx]; decide

theorem Runs.tail_of_closes (rule : Rule) (v : α) {d : Cursor} (h : ∀ x ∈ d.rest.head?, x = ')') :
    Runs A scope (.tail rule v) d (.done v d) := by
  have hd : d.skipBlanks = d := skipBlanks_of_closes h
  have hr : Runs A scope (.tail rule v) d (.done v d.skipBlanks) := by
    refine .stop ?_
    rw [ahead?, hd, peek?]
    rcases hx : d.rest.head? with _ | x
    · rfl
    · obtain rfl := h x hx
      cases rule <;> rfl
  rwa [hd] at hr

theorem Runs.power_of_closes (v : α) {d : Cursor} (h : ∀ x ∈ d.rest.head?, x = ')') :
    Runs A scope (.power v) d (.done v d) := by
  have hd : d.skipBlanks = d := skipBlanks_of_closes h
  have hr : Runs A scope (.power v) d (.done v d.skipBlanks) := by
    refine .noPower ?_
    rw [ahead?, hd, peek?]
    intro hx
    cases h _ hx
  rwa [hd] at hr

/-! ### What ends too early -/

theorem literal_outcome_ne {c : Cursor} {o : Nat} :
    (literal A c).outcome ≠ .error ⟨.unexpectedEnd, o⟩ := by
  intro h
  rcases hl : Decimal.ofRun? (c.run isNumeric) with _ | n
  · rw [literal_eq_fail hl] at h
    cases h
  · rw [literal_eq_done hl] at h
    cases h

theorem symbol_outcome_ne {name : String} {c : Cursor} {o : Nat} :
    (symbol A scope name c).outcome ≠ .error ⟨.unexpectedEnd, o⟩ := by
  rw [symbol_outcome]
  split <;> nofun

theorem ahead?_of_close {v : α} {c : Cursor} {o : Nat}
    (h : (close v c).outcome = .error ⟨.unexpectedEnd, o⟩) : c.ahead? = none := by
  rcases hx : c.ahead? with _ | x
  · rfl
  · by_cases hp : x = ')'
    · subst hp
      rw [close_eq_done hx] at h
      cases h
    · rw [close_eq_mismatch hx hp] at h
      cases h

/-- A loop or a power that fails has found an operator. -/
theorem Runs.rest_ne_nil_of_tail {rule : Rule} {v : α} {c : Cursor} {r : Run α} {f : Fault}
    (h : Runs A scope (.tail rule v) c r) (hf : r.outcome = .error f) : c.rest ≠ [] := by
  intro hc
  cases h with
  | stop => cases hf
  | stepFails hx | step hx =>
    rw [ahead?_eq_none hc] at hx
    cases hx

theorem Runs.rest_ne_nil_of_power {v : α} {c : Cursor} {r : Run α} {f : Fault}
    (h : Runs A scope (.power v) c r) (hf : r.outcome = .error f) : c.rest ≠ [] := by
  intro hc
  cases h with
  | noPower => cases hf
  | raise hx =>
    rw [ahead?_eq_none hc] at hx
    cases hx

/-- A primary that ends too early is not taken for a sign or a function when it is completed. -/
theorem Runs.startsPrimary_complete {c : Cursor} {r : Run α} {o n : Nat} {s u : List Char}
    (h : Runs A scope .primary c r) (hf : r.outcome = .error ⟨.unexpectedEnd, o⟩)
    (hs : Completes n s u) : (c.extend s).StartsPrimary := by
  cases h with
  | ended hx =>
    obtain ⟨y, hy, hb, hl, hp, hm⟩ := hs.exists_head
    exact startsPrimary_of_ahead (ahead?_extend_of_ended hx hy hb) hl hp hm
  | groupFails hx | group hx =>
    exact startsPrimary_of_ahead (ahead?_extend hx) (by decide) (by decide) (by decide)
  | literal => exact absurd hf literal_outcome_ne
  | name => exact absurd hf symbol_outcome_ne
  | empty => cases hf

/-- What is missing at the end of the text is an operand. -/
theorem returns_ended {c : Cursor} (h : c.ahead? = none) {s u : List Char}
    (hs : Completes 0 s u) : Returns A scope .primary c s u := by
  obtain ⟨y, hy, hb, -⟩ := hs.exists_head
  have hx := ahead?_extend_of_ended h hy hb
  have hrest : (c.extend s).skipBlanks.rest = s :=
    skipBlanks_extend_of_ended h fun z hz => by
      rw [hy] at hz
      exact Option.some.inj hz ▸ hb
  rcases hs.head with ⟨rfl, -, rfl⟩ | ⟨hs', hu⟩
  · obtain rfl := Option.some.inj hy
    have hr : Runs A scope .primary (c.extend ['0']) (literal A (c.extend ['0']).skipBlanks) :=
      .literal hx (by decide)
    have hrun : (c.extend ['0']).skipBlanks.run isNumeric = ['0'] := by
      rw [run, hrest]
      decide
    have hl : Decimal.ofRun? ((c.extend ['0']).skipBlanks.run isNumeric) = some ⟨0, 0⟩ := by
      rw [hrun]
      decide
    rw [literal_eq_done hl] at hr
    refine ⟨_, _, _, hr, ?_⟩
    rw [skip, hrest]
    rfl
  · obtain rfl := Option.some.inj (hy.symm.trans hs')
    exact ⟨_, _, _, .empty hx (by decide), hrest.trans (hu rfl)⟩

theorem close_completes {v : α} {d : Cursor} (h : d.ahead? = none) (u : List Char) :
    ∃ e, close v (d.extend (')' :: u)) = .done v e ∧ e.rest = u := by
  have hx : (d.extend (')' :: u)).ahead? = some ')' := ahead?_extend_of_ended h rfl (by decide)
  have hrest : (d.extend (')' :: u)).skipBlanks.rest = ')' :: u :=
    skipBlanks_extend_of_ended h (by simp [isBlank])
  refine ⟨_, close_eq_done hx, ?_⟩
  rw [skipBlanks_rest hx, List.cons.injEq] at hrest
  exact hrest.2

variable (A scope) in
/-- The task returns at `c` if the groups that are open there are closed, or the operand is there
that is missing. -/
def Completable (t : Task α) (c : Cursor) : Prop :=
  ∃ n : Nat, nesting c.rest = n ∧ ∀ s u, Completes n s u → Returns A scope t c s u

/-- A task that is completed by what completes a part of it, with as many groups open. -/
theorem Completable.of_part {t t' : Task α} {c c' : Cursor} (h : Completable A scope t c)
    (hn : nesting c'.rest = nesting c.rest)
    (hr : ∀ n s u, Completes n s u → Returns A scope t c s u → Returns A scope t' c' s u) :
    Completable A scope t' c' := by
  obtain ⟨n, hc, h⟩ := h
  exact ⟨n, hn.trans hc, fun s u hs => hr n s u hs (h s u hs)⟩

/-- **A run that ends too early is completed** by closing the groups that are open, or by the
operand that is missing. -/
theorem Runs.completable {t : Task α} {c : Cursor} {r : Run α} {o : Nat} (h : Runs A scope t c r)
    (hf : r.outcome = .error ⟨.unexpectedEnd, o⟩) : Completable A scope t c := by
  induction h with
  | call _ ih =>
    refine (ih hf).of_part rfl fun n s u _ hr => ?_
    obtain ⟨v, d, es, hr, hd⟩ := hr
    exact ⟨v, d, _, .call hr, hd⟩
  | @operandFails rule c f d es hrule _ ih =>
    refine (ih hf).of_part rfl fun n s u hs hr => ?_
    obtain ⟨v, d, es, hr, rfl⟩ := hr
    exact ⟨v, d, _, .operand hrule hr (.tail_of_closes rule v hs.closes), rfl⟩
  | @operand rule c w e fs r hrule h ht _ iht =>
    refine (iht hf).of_part (h.nesting_eq rfl) fun n s u hs hr => ?_
    obtain ⟨v, d, es, hr, hd⟩ := hr
    have hset : (Run.mk (.ok w) e fs).Settled s := fun he => absurd he (ht.rest_ne_nil_of_tail hf)
    exact ⟨v, d, _, .operand hrule (h.extend hset) hr, hd⟩
  | stop => cases hf
  | @stepFails rule v c x op f d es hx hop _ ih =>
    have hn : nesting c.rest = nesting c.past.rest := by
      rw [nesting_past hx, Rule.nesting_operator? hop, Int.zero_add]
    refine (ih hf).of_part hn fun n s u hs hr => ?_
    obtain ⟨w, d, es, hr, rfl⟩ := hr
    have ht : Runs A scope (.tail rule (A.binary op v w)) d (.done _ d) :=
      .tail_of_closes rule _ hs.closes
    exact ⟨_, d, _, .step (ahead?_extend hx) hop (past_extend hx ▸ hr) ht, rfl⟩
  | @step rule v c x op w e fs r hx hop h ht _ iht =>
    have hn : nesting c.rest = nesting e.rest := by
      rw [nesting_past hx, Rule.nesting_operator? hop, Int.zero_add, h.nesting_eq rfl]
    refine (iht hf).of_part hn fun n s u hs hr => ?_
    obtain ⟨v, d, es, hr, hd⟩ := hr
    have hset : (Run.mk (.ok w) e fs).Settled s := fun he => absurd he (ht.rest_ne_nil_of_tail hf)
    exact ⟨v, d, _, .step (ahead?_extend hx) hop (past_extend hx ▸ h.extend hset) hr, hd⟩
  | plus hx _ ih =>
    refine (ih hf).of_part ((nesting_past hx).trans (Int.zero_add _)) fun n s u hs hr => ?_
    obtain ⟨v, d, es, hr, hd⟩ := hr
    exact ⟨v, d, es, .plus (ahead?_extend hx) (past_extend hx ▸ hr), hd⟩
  | minus hx _ ih =>
    have hpart := ih (Run.map_outcome_eq_error_iff.mp hf)
    refine hpart.of_part ((nesting_past hx).trans (Int.zero_add _)) fun n s u hs hr => ?_
    obtain ⟨v, d, es, hr, hd⟩ := hr
    exact ⟨A.negate v, d, es, .minus (ahead?_extend hx) (past_extend hx ▸ hr), hd⟩
  | @apply c f r hfun _ ih =>
    have hpart := ih (Run.map_outcome_eq_error_iff.mp hf)
    have hn : nesting c.rest = nesting c.pastWord.rest :=
      (nesting_skipBlanks c).symm.trans (nesting_skip (by decide) (by decide) _).symm
    refine hpart.of_part hn fun n s u hs hr => ?_
    obtain ⟨v, d, es, hr, hd⟩ := hr
    obtain ⟨x, hx, -⟩ := exists_letter_of_function? hfun
    obtain ⟨y, hy, -, hl, -⟩ := hs.exists_head
    have hw : c.pastWord.Bounds isLetter s := fun _ z hz => Option.some.inj (hy.symm.trans hz) ▸ hl
    have hfun' : (c.extend s).function? = some f := function?_extend hx hw ▸ hfun
    exact ⟨A.call f v, d, es, .apply hfun' (pastWord_extend hx hw ▸ hr), hd⟩
  | primaryFails _ h ih =>
    refine (ih hf).of_part rfl fun n s u hs hr => ?_
    obtain ⟨v, d, es, hr, rfl⟩ := hr
    have hstart := h.startsPrimary_complete hf hs
    exact ⟨v, d, _, .primary hstart hr (.power_of_closes v hs.closes), rfl⟩
  | @primary c w e fs r hc h hp _ ihp =>
    refine (ihp hf).of_part (h.nesting_eq rfl) fun n s u hs hr => ?_
    obtain ⟨v, d, es, hr, hd⟩ := hr
    have hset : (Run.mk (.ok w) e fs).Settled s := fun he => absurd he (hp.rest_ne_nil_of_power hf)
    exact ⟨v, d, _, .primary (h.startsPrimary_extend hset hc) (h.extend hset) hr, hd⟩
  | noPower => cases hf
  | @raise v c r hx _ ih =>
    have hpart := ih (Run.map_outcome_eq_error_iff.mp hf)
    refine hpart.of_part ((nesting_past hx).trans (Int.zero_add _)) fun n s u hs hr => ?_
    obtain ⟨w, d, es, hr, hd⟩ := hr
    exact ⟨A.power v w, d, es, .raise (ahead?_extend hx) (past_extend hx ▸ hr), hd⟩
  | @ended c hx =>
    refine ⟨0, ?_, fun s u hs => returns_ended hx hs⟩
    rw [← nesting_skipBlanks, skipBlanks_rest_eq_nil_iff.mpr hx]
    rfl
  | groupFails hx _ ih =>
    -- one group more than inside it is open
    obtain ⟨n, hn, hc⟩ := ih hf
    refine ⟨n + 1, ?_, fun s u hs => ?_⟩
    · rw [nesting_past hx, hn, Int.add_comm]
      rfl
    · obtain ⟨v, d, es, hr, hd⟩ := hc s _ hs.inner
      obtain ⟨hclose, hu⟩ := ahead?_of_cons hd (by decide)
      have hg := Runs.group (ahead?_extend hx) (past_extend hx ▸ hr)
      rw [close_eq_done hclose] at hg
      exact ⟨v, _, _, hg, hu⟩
  | @group c v d es hx h _ =>
    have hd : d.ahead? = none := ahead?_of_close hf
    refine ⟨1, ?_, fun s u hs => ?_⟩
    · rw [nesting_past hx, h.nesting_eq rfl, ← nesting_skipBlanks d,
        skipBlanks_rest_eq_nil_iff.mpr hd]
      rfl
    · obtain rfl := hs.eq_cons
      obtain ⟨e, he, hu⟩ := close_completes (v := v) hd u
      have hg := Runs.group (ahead?_extend hx)
        (past_extend hx ▸ h.extend (s := ')' :: u) fun _ => rfl)
      rw [he] at hg
      exact ⟨v, e, _, hg, hu⟩
  | literal => exact absurd hf literal_outcome_ne
  | name => exact absurd hf symbol_outcome_ne
  | empty => cases hf

end Grammar

/-! ### The text before a fault -/

open Grammar Cursor

theorem Fault.extend_offset (s : List Char) (d : Cursor) (f : Fault) :
    (f.extend s d).1.offset = f.offset := by
  unfold Fault.extend
  split <;> rfl

theorem Fault.LiesAt.offset_eq {f : Fault} {e d : Cursor} (h : f.LiesAt e d) :
    f.offset = e.pos := by
  cases h <;> rfl

/-- A run that the text up to a cut ends with does not go on after the cut. -/
theorem bounds_of_cut {p : Char → Bool} (hp : ∀ x y, p x → p y → Joins x y) {c e : Cursor}
    {s : List Char} (hcut : ∀ x ∈ c.rest.getLast?, ∀ y ∈ s.head?, ¬ Joins x y) (he : c.Cuts e)
    (hne : e.run p ≠ []) : (e.skip p).Bounds p s := by
  intro hr y hy
  obtain ⟨u, hu, -⟩ := he
  have hrest : e.rest = e.run p := by
    have h : e.rest = e.run p ++ (e.skip p).rest := List.takeWhile_append_dropWhile.symm
    rwa [hr, List.append_nil] at h
  obtain ⟨x, hx⟩ : ∃ x, (e.run p).getLast? = some x := by
    rw [← Option.ne_none_iff_exists', Ne, List.getLast?_eq_none_iff]
    exact hne
  have hlast : c.rest.getLast? = some x := by rw [hu, hrest, List.getLast?_append, hx]; rfl
  have hpx : p x := List.mem_takeWhile_imp (List.mem_of_mem_getLast? hx)
  by_contra hpy
  exact hcut x hlast y hy (hp x y hpx (by simpa using hpy))

/-- A fault that is not the end of the text up to a cut lies before the cut, and is final. -/
theorem Fault.LiesAt.settled_of_cut {f : Fault} {c e d : Cursor} {s : List Char}
    (hl : f.LiesAt e d) (hcut : ∀ x ∈ c.rest.getLast?, ∀ y ∈ s.head?, ¬ Joins x y)
    (he : c.Cuts e) (hend : f.cause ≠ .unexpectedEnd) : f.Settled s d ∧ e.rest ≠ [] := by
  cases hl with
  | unexpectedEnd => exact absurd rfl hend
  | unexpectedCharacter hx => exact ⟨trivial, rest_ne_nil_of_ahead hx⟩
  | trailingInput hx => exact ⟨trivial, rest_ne_nil_of_ahead hx⟩
  | numberFormat hne =>
    have hb := bounds_of_cut (p := isNumeric) (fun x y hx hy => .inl ⟨hx, hy⟩) hcut he hne
    exact ⟨.inl hb, fun hr => hne (by rw [run, hr]; rfl)⟩
  | unknownSymbol hne =>
    have hb := bounds_of_cut (p := isLetter) (fun x y hx hy => .inr ⟨hx, hy⟩) hcut he hne
    exact ⟨hb, fun hr => hne (by rw [run, hr]; rfl)⟩

namespace Solver

/-- What completes the groups of a text that ends too early gives it a value. -/
theorem Fails.completes {s : Solver} {o : Nat} (h : s.Fails ⟨.unexpectedEnd, o⟩) :
    ∃ n : Nat, nesting s.expression.toList = n ∧ ∀ more : String, Completes n more.toList [] →
      (Solver.mk (s.expression ++ more) s.scope).Accepts := by
  rcases fails_iff.mp h with ⟨d, es, hr⟩ | ⟨v, d, es, -, -, hf⟩
  · obtain ⟨n, hn, hc⟩ := hr.completable rfl
    refine ⟨n, hn, fun more hm => accepts_iff.mpr ?_⟩
    rw [start_append]
    exact hc more.toList [] hm
  · cases hf

/-- The text before a fault has a value or ends too early. -/
theorem Fails.take {text : String} {scope : Scope Float} {f : Fault}
    (h : (Solver.mk text scope).Fails f) :
    (Solver.mk (String.ofList (text.toList.take f.offset)) scope).Accepts ∨
      ∃ o, (Solver.mk (String.ofList (text.toList.take f.offset)) scope).Fails
        ⟨.unexpectedEnd, o⟩ := by
  obtain ⟨e, d, he, hl⟩ := h.liesAt
  obtain ⟨u, hu, hpos, hcut⟩ := he
  have hoff : f.offset = u.length := by rw [hl.offset_eq, hpos, start, Nat.zero_add]
  have htext : String.ofList u ++ String.ofList e.rest = text := by
    rw [← String.ofList_append, ← hu, start, String.ofList_toList]
  have htake : text.toList.take f.offset = u := by
    rw [hoff, show text.toList = u ++ e.rest from hu, List.take_left]
  rw [htake]
  refine (accepts_or_fails _).imp_right ?_
  rintro ⟨g, hg⟩
  by_cases hend : g.cause = .unexpectedEnd
  · obtain ⟨_, o⟩ := g
    cases hend
    exact ⟨o, hg⟩
  · -- otherwise it is a fault of the whole text, and that is further on
    exfalso
    obtain ⟨e', d', he', hl', happ⟩ := hg.append
    have hset := hl'.settled_of_cut (s := e.rest) (by simpa [start] using hcut) he' hend
    have hlonger := happ (String.ofList e.rest) (by simpa using hset.1)
    simp only [htext] at hlonger
    have hoff' : f.offset = e'.pos := by
      rw [h.unique hlonger, Fault.extend_offset, hl'.offset_eq]
    have htotal := he'.reaches.total
    have hpos' := List.length_pos_of_ne_nil hset.2
    simp only [start, String.toList_ofList] at htotal
    omega

/-- **The text before a failure is the beginning of an expression.** It has a value or ends too
early; and a text that ends too early has one if the groups are closed that are open, or if there
are none and an operand is added. -/
theorem viable_of_error (text : String) (scope : Scope Float) (e : Failure)
    (h : (Solver.mk text scope).solve.value = .error e) :
    (e.cause = .unexpectedEnd →
      ∃ n : Nat, nesting text.toList = n ∧
        (0 < n → (Solver.mk (text ++ String.ofList (List.replicate n ')')) scope).Accepts) ∧
        (n = 0 → (Solver.mk (text ++ "0") scope).Accepts)) ∧
    ∃ o : Nat, e.offset = some ↑o ∧
      let before := String.ofList (text.toList.take o)
      ((Solver.mk before scope).Accepts ∨ ∃ m, (Solver.mk before scope).Fails ⟨.unexpectedEnd, m⟩) ∧
      ∃ more, (Solver.mk (before ++ more) scope).Accepts := by
  obtain ⟨⟨cause, o⟩, rfl, hf⟩ := fails_of_error h
  refine ⟨?_, o, rfl, hf.take, ?_⟩
  · rintro rfl
    obtain ⟨n, hn, hc⟩ := hf.completes
    refine ⟨n, hn, fun hpos => hc _ ?_, ?_⟩
    · have := Completes.groups (n := n) (u := []) (.inl hpos) nofun
      simpa using this
    · rintro rfl
      exact hc "0" .operand
  · rcases hf.take with ⟨v, hv⟩ | ⟨m, hm⟩
    · exact ⟨"", v, by simpa using hv⟩
    · obtain ⟨n, -, hc⟩ := hm.completes
      obtain ⟨s, hs⟩ := exists_completes n
      exact ⟨String.ofList s, hc _ (by simpa using hs)⟩

/-- One group is open in `2*(3+`, and `2*(3+)` has a value. -/
theorem viable_open_group :
    (Solver.mk "2*(3+" .strict).solve.value = .error ⟨.unexpectedEnd, some 5, some "2*(3+"⟩ ∧
      (Solver.mk "2*(3+)" .strict).Accepts := by
  have h : (Solver.mk "2*(3+" .strict).solve.value =
      .error ⟨.unexpectedEnd, some 5, some "2*(3+"⟩ := by decide +kernel
  obtain ⟨n, hn, hgroups, -⟩ := (viable_of_error "2*(3+" .strict _ h).1 rfl
  have hn : 1 = n := Int.ofNat_inj.mp hn
  subst hn
  exact ⟨h, hgroups (by decide)⟩

end Solver

end Reckoner
