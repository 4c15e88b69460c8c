import Reckoner.Proofs.Edit
import Reckoner.Proofs.Parentheses
import Reckoner.Proofs.Report
import Reckoner.Proofs.Spelling

/-!
# Substitution

An expression in parentheses can stand for a variable with its value, whatever the text around it.
The text with the variable and that with the group differ in one place (`Edited`), and where only
blanks are left before it there is a gap: the name is ahead in one text, the parenthesis in the
other. The name is read with its value; the group is read as the expression is on its own, since a
closing parenthesis is no more to it than the end of the text, and what stands before it is nothing
to it (`Runs.group_of_accepts`). All other names are read in both texts, and it is known of none of
them that it is the variable, so both tables have the same value for them.

`Solver.solve_substitute` holds for the texts that fail, too. The fault is the same then, but for
the character that is found if it is found at the gap.
-/

namespace Reckoner

namespace Table

theorem get?_set_self (name : String) (v : α) (table : Table α) :
    (table.set name v).get? name = some v := by
  induction table with
  | nil => simp [set, get?]
  | cons e table ih =>
    by_cases h : e.1 = name
    · simp [set, get?, h]
    · have hne : (name == e.1) = false := by simpa using fun he => h he.symm
      rw [set, if_neg h, get?, List.lookup_cons, hne]
      exact ih

theorem get?_set_of_ne {name other : String} (h : other ≠ name) (v : α) (table : Table α) :
    (table.set name v).get? other = table.get? other := by
  have hne : (other == name) = false := by simpa using h
  induction table with
  | nil => simp [set, get?, List.lookup_cons, hne]
  | cons e table ih =>
    obtain ⟨key, u⟩ := e
    by_cases he : key = name
    · subst he
      simp [set, get?, List.lookup_cons, hne]
    · rw [set, if_neg he, get?, get?, List.lookup_cons, List.lookup_cons]
      rw [get?, get?] at ih
      rw [ih]

end Table

open Cursor

/-! ### The one occurrence of a name -/

/-- The name `y` stands after `p`, and nowhere else in the text. -/
def OccursOnce (p y q : List Char) : Prop :=
  ∀ o, IsRunAt isLetter (p ++ (y ++ q)) y o ↔ o = p.length

namespace OccursOnce

variable {p y q : List Char}

theorem ends (h : OccursOnce p y q) :
    y ≠ [] ∧ (∀ x ∈ y, isLetter x) ∧ (∀ x ∈ p.getLast?, isLetter x = false) ∧
      ∀ x ∈ q.head?, isLetter x = false := by
  obtain ⟨hne, hy, u, v, htext, hlen, hu, hv⟩ := (h p.length).mpr rfl
  obtain ⟨rfl, hrest⟩ := List.append_inj htext hlen.symm
  rw [← List.append_cancel_left hrest] at hv
  exact ⟨hne, hy, hu, hv⟩

theorem exists_head (h : OccursOnce p y q) : ∃ x r, y = x :: r ∧ isLetter x := by
  obtain ⟨hne, hy, -⟩ := h.ends
  obtain ⟨x, r, rfl⟩ := List.exists_cons_of_ne_nil hne
  exact ⟨x, r, rfl, hy x List.mem_cons_self⟩

theorem apart (h : OccursOnce p y q) : Apart p (y ++ q) := by
  obtain ⟨x, r, rfl, hx⟩ := h.exists_head
  intro z hz x' hx'
  obtain rfl : x = x' := by simpa using hx'
  simp [Joins, h.ends.2.2.1 z hz, Grammar.isNumeric_eq_false_of_isLetter hx]

end OccursOnce

/-! ### The gap -/

namespace Grammar

variable {α : Type} {A : Arithmetic α} {scope : Scope α}

/-- An expression in parentheses is read as it is on its own. -/
theorem Runs.group_of_accepts {text : String} {v : α}
    (h : (solve A scope text).outcome = .ok v) {c : Cursor} {s : List Char}
    (hc : c.skipBlanks.rest = inGroup text.toList ++ s) :
    ∃ fs, Runs A scope .primary c
      ⟨.ok v, ⟨c.skipBlanks.pos + (inGroup text.toList).length, s⟩, fs⟩ := by
  obtain ⟨⟨n, r⟩, es, hr, rfl⟩ := solve_outcome_eq_ok_iff.mp h
  have hr' := hr.extend (s := ')' :: s) fun _ => rfl
  exact hr'.group_of_call hc

end Grammar

/-! ### Texts with a variable and with a group -/

/-- The places of two texts, where a variable stands in one and the group of `e` in the other. -/
def Substituted (p y q e : List Char) (c d : Cursor) : Prop :=
  Edited p.length y (inGroup e) q c d ∧ (Cursor.mk 0 (p ++ (y ++ q))).Cuts c

namespace Substituted

variable {p y q e : List Char} {c d : Cursor}

theorem start (h : OccursOnce p y q) :
    Substituted p y q e ⟨0, p ++ (y ++ q)⟩ ⟨0, p ++ (inGroup e ++ q)⟩ := by
  refine ⟨.before ⟨0, p⟩ (Nat.zero_add _) h.apart ?_, .refl _⟩
  intro x _ x' hx'
  obtain rfl : '(' = x' := by simpa [inGroup] using hx'
  have hn : isNumeric '(' = false := by decide
  have hl : isLetter '(' = false := by decide
  simp [Joins, hn, hl]

/-- Where no token is left before the variable, its name is ahead, or the group. -/
theorem atEdit (h : OccursOnce p y q) (hcd : AtEdit p.length y (inGroup e) q c d) :
    c.skipBlanks = ⟨p.length, y ++ q⟩ ∧ d.skipBlanks = ⟨p.length, inGroup e ++ q⟩ := by
  obtain ⟨x, r, rfl, hx⟩ := h.exists_head
  have hb : isBlank x = false := by
    by_contra hb
    rw [not_isLetter_of_isBlank (by simpa using hb)] at hx
    cases hx
  rw [hcd.1, hcd.2]
  refine ⟨skip_of_peek? fun z hz => ?_, skip_of_peek? fun z hz => ?_⟩
  · obtain rfl : x = z := by simpa [peek?] using hz
    exact hb
  · obtain rfl : '(' = z := by simpa [peek?, inGroup] using hz
    decide

theorem token?_of_atEdit (h : OccursOnce p y q) (hcd : AtEdit p.length y (inGroup e) q c d) :
    c.token? = some (.name y) ∧ c.pastToken = ⟨p.length + y.length, q⟩ := by
  obtain ⟨x, r, hy, hx⟩ := h.exists_head
  obtain ⟨hc, -⟩ := atEdit h hcd
  have hahead : c.ahead? = some x := by rw [ahead?, hc, hy]; rfl
  have htake : (y ++ q).takeWhile isLetter = y := takeWhile_append_of_all h.ends.2.1 h.ends.2.2.2
  have hdrop : (y ++ q).dropWhile isLetter = q := dropWhile_append_of_all h.ends.2.1 h.ends.2.2.2
  rw [(token?_of_letter hahead hx).1, (token?_of_letter hahead hx).2, word, pastWord, hc, run, skip,
    run, htake, hdrop]
  exact ⟨rfl, rfl⟩

theorem likeness (h : OccursOnce p y q) (hf : Func.ofName? (String.ofList y) = none) :
    Likeness (Substituted p y q e) where
  skipBlanks := by
    rintro c d ⟨hcd, hcut⟩
    refine ⟨?_, hcut.trans (cuts_skipBlanks c)⟩
    rcases hcd.skipBlanks with hs | hs
    · exact hs
    · obtain ⟨hc, hd⟩ := atEdit h hs
      rw [hc, hd]
      exact .before ⟨p.length, []⟩ rfl nofun nofun
  token := by
    rintro c d ⟨hcd, hcut⟩
    rcases hcd.token with ⟨ht, hk⟩ | hs
    · exact .inl ⟨ht, hk, hcut.trans (cuts_pastToken c)⟩
    · obtain ⟨hc, hd⟩ := atEdit h hs
      have ht := (token?_of_atEdit h hs).1
      refine .inr ⟨⟨y, ht⟩, ?_, ?_⟩
      · rw [function?_eq_token, ht]
        exact hf
      · rw [ahead?, hd]
        rfl

theorem pos (h : OccursOnce p y q) (hcd : Substituted p y q e c d) :
    (c.skipBlanks.pos ≤ p.length ∧ d.skipBlanks.pos = c.skipBlanks.pos) ∨
      (p.length + y.length ≤ c.skipBlanks.pos ∧
        d.skipBlanks.pos + y.length = c.skipBlanks.pos + (e.length + 2)) := by
  have hlen : (inGroup e).length = e.length + 2 := by simp [inGroup]
  rcases hcd.1.pos with ⟨hlt, hd⟩ | hs | ⟨k, hc, hd⟩
  · exact .inl ⟨hlt.le, hd⟩
  · obtain ⟨hc, hd⟩ := atEdit h hs
    rw [hc, hd]
    exact .inl ⟨Nat.le_refl _, rfl⟩
  · exact .inr ⟨by omega, by omega⟩

/-- A name that is ahead in both texts is not the variable. -/
theorem ne_of_token (h : OccursOnce p y q) (hcd : Substituted p y q e c d) {w : List Char}
    (hc : c.token? = some (.name w)) (hs : ¬ AtEdit p.length y (inGroup e) q c d) : w ≠ y := by
  rintro rfl
  obtain ⟨hw, x, hx, hl⟩ := word_of_token_name hc
  have hrun : IsRunAt isLetter (p ++ (w ++ q)) c.word c.skipBlanks.pos :=
    (hcd.2.trans (cuts_skipBlanks c)).isRunAt (fun _ _ hx hy => .inr ⟨hx, hy⟩) (run_ne_nil hx hl)
  have hpos : c.skipBlanks.pos = p.length := (h _).mp (hw ▸ hrun)
  rcases hcd.1.pos with ⟨hlt, -⟩ | hs' | ⟨k, hk, -⟩
  · omega
  · exact hs hs'
  · have := List.length_pos_of_ne_nil h.ends.1
    omega

end Substituted

namespace Grammar

variable {α : Type} {A : Arithmetic α} {p y q : List Char} {table : Table α} {text : String} {v : α}

/-- The value of a variable that is in the table. -/
theorem symbolValue?_set_self (name : String) :
    symbolValue? A (.tolerant (table.set name v)) name = some v := by
  rw [symbolValue?, Scope.table?, Option.map_some, Table.get?_set_self, Option.getD_some]

theorem symbolValue?_set_of_ne {name other : String} (h : other ≠ name) :
    symbolValue? A (.tolerant (table.set name v)) other = symbolValue? A (.tolerant table) other := by
  rw [symbolValue?, symbolValue?, Scope.table?, Scope.table?, Option.map_some, Option.map_some,
    Table.get?_set_of_ne h]

/-- **A variable is read as the group of an expression with its value.** -/
theorem namesLike_substituted (h : OccursOnce p y q)
    (he : (solve A (.tolerant table) text).outcome = .ok v) :
    NamesLike Eq (Substituted p y q text.toList) A A
      (.tolerant (table.set (String.ofList y) v)) (.tolerant table) := by
  intro c d w hcd hc _
  by_cases hs : AtEdit p.length y (inGroup text.toList) q c d
  · obtain ⟨hc', hd⟩ := Substituted.atEdit h hs
    obtain ⟨ht, hpast⟩ := Substituted.token?_of_atEdit h hs
    obtain rfl : w = y := by
      rw [ht] at hc
      cases hc
      rfl
    obtain ⟨fs, hr⟩ := Runs.group_of_accepts he (c := d) (s := q) (by rw [hd])
    refine ⟨_, hr, ?_⟩
    obtain ⟨-, x, hx, hl⟩ := word_of_token_name hc
    rw [symbol_eq_of_value (symbolValue?_set_self _)]
    refine .value rfl ⟨.behind ?_, ?_⟩
    · rw [← show c.pastToken = c.skipBlanks.skip isLetter from (token?_of_letter hx hl).2, hpast, hd]
      exact ⟨rfl, 0, rfl, rfl⟩
    · exact hcd.2.trans ((cuts_skipBlanks c).trans (cuts_skip_isLetter _))
  · obtain ⟨ht, hk⟩ := hcd.1.token.resolve_right hs
    have hne : String.ofList w ≠ String.ofList y := fun hn =>
      Substituted.ne_of_token h hcd hc hs (String.ofList_injective hn)
    refine symbol_like hcd ⟨hk, hcd.2.trans (cuts_pastToken c)⟩ hc (ht.trans hc) ?_
    rw [symbolValue?_set_of_ne hne]
    exact .some rfl

end Grammar

/-- Faults at like places are the same, but for the character that is found at the gap. -/
theorem Fault.Like.of_substituted {p y q e : List Char} {f g : Fault} (h : OccursOnce p y q)
    (hfg : f.Like (Substituted p y q e) g) :
    g.cause.kind = f.cause.kind ∧ (f.offset ≠ p.length → g.cause = f.cause) ∧
      ((f.offset ≤ p.length ∧ g.offset = f.offset) ∨
        (p.length + y.length ≤ f.offset ∧ g.offset + y.length = f.offset + (e.length + 2))) := by
  cases hfg with
  | same cause hk => exact ⟨rfl, fun _ => rfl, hk.pos h⟩
  | @found c d x x' hk hx hx' =>
    refine ⟨rfl, fun ho => ?_, hk.pos h⟩
    rcases hk.1.token with ⟨ht, -⟩ | hs
    · have hxx' := congrArg (Option.bind · Token.first?) ht
      simp only [← ahead?_eq_token, hx, hx', Option.some.injEq] at hxx'
      rw [hxx']
    · rw [(Substituted.atEdit h hs).1] at ho
      exact absurd rfl ho

/-- **An expression in parentheses can stand for a variable** that has its value, in a text with a
value and in one that fails. -/
theorem Solver.solve_substitute (p y q e : String) (table : Table Float) (v : Float)
    (hy : ∀ f : Func, y ≠ f.name) (honce : OccursOnce p.toList y.toList q.toList)
    (he : (Solver.mk e (.tolerant table)).solve.value = .ok v) :
    let named := Solver.mk (p ++ y ++ q) (.tolerant (table.set y v))
    let written := Solver.mk (p ++ "(" ++ e ++ ")" ++ q) (.tolerant table)
    (∀ z, named.solve.value = .ok z → written.solve.value = .ok z) ∧
    ∀ f, named.Fails f → ∃ g, written.Fails g ∧ g.cause.kind = f.cause.kind ∧
      (f.offset ≠ p.length → g.cause = f.cause) ∧
      ((f.offset ≤ p.length ∧ g.offset = f.offset) ∨
        (p.length + y.length ≤ f.offset ∧ g.offset + y.length = f.offset + (e.length + 2))) := by
  intro named written
  have hf : Func.ofName? (String.ofList y.toList) = none := by
    rw [String.ofList_toList]
    cases hn : Func.ofName? y with
    | none => rfl
    | some f => exact absurd (Func.ofName?_eq_some_iff.mp hn) (hy f)
  have hnames := Grammar.namesLike_substituted honce (solve_value_eq_ok_iff.mp he)
  rw [String.ofList_toList] at hnames
  have hstart : Substituted p.toList y.toList q.toList e.toList (start named.expression)
      (start written.expression) := by
    simpa [named, written, start, inGroup] using Substituted.start (e := e.toList) honce
  obtain ⟨hvalue, hfault⟩ := solve_like (Substituted.likeness honce hf) hnames hstart
  refine ⟨hvalue, fun f hn => ?_⟩
  obtain ⟨g, hg, hfg⟩ := hfault f hn
  exact ⟨g, hg, hfg.of_substituted honce⟩

/-- With 5 for `x`, the value of `2*x+1` is that of `2*(1+4)+1`, and the 3 that is out of place in
`2*x^2 3` is so in `2*(1+4)^2 3`, four characters further on. -/
theorem Solver.solve_substitute_product :
    (Solver.mk "1+4" (.tolerant [])).solve.value = .ok 5.0 ∧
    (Solver.mk ("2*" ++ "x" ++ "+1") (.tolerant [("x", 5.0)])).solve.value = .ok 11.0 ∧
      (Solver.mk ("2*" ++ "(" ++ "1+4" ++ ")" ++ "+1") (.tolerant [])).solve.value = .ok 11.0 ∧
    (Solver.mk ("2*" ++ "x" ++ "^2 3") (.tolerant [("x", 5.0)])).Fails ⟨.trailingInput, 6⟩ ∧
      (Solver.mk ("2*" ++ "(" ++ "1+4" ++ ")" ++ "^2 3") (.tolerant [])).Fails
        ⟨.trailingInput, 10⟩ := by
  have honce {q : List Char} {z : Char} (hq : 'x' ∉ q) (hz : q.head? = some z)
      (hl : isLetter z = false) : OccursOnce "2*".toList "x".toList q := by
    have hbefore : ∀ x ∈ "2*".toList.getLast?, isLetter x = false := by
      intro x hx
      obtain rfl : '*' = x := Option.some.inj hx
      decide
    have hbehind : ∀ x ∈ q.head?, isLetter x = false := by
      intro x hx
      obtain rfl : z = x := Option.some.inj (hz.symm.trans hx)
      exact hl
    intro o
    constructor
    · rintro ⟨-, -, u, w, htext, rfl, -⟩
      rcases u with _ | ⟨a, _ | ⟨b, _ | ⟨c, u⟩⟩⟩ <;> simp at htext ⊢
      exact hq (by simp [htext])
    · rintro rfl
      exact ⟨by decide, List.all_eq_true.mp (by decide), "2*".toList, q, rfl, rfl, hbefore, hbehind⟩
  have hx : ∀ f : Func, "x" ≠ f.name := by
    intro f
    cases f <;> decide
  have he : (Solver.mk "1+4" (.tolerant [])).solve.value = .ok 5.0 := by decide +kernel
  have hvalue : (Solver.mk ("2*" ++ "x" ++ "+1") (.tolerant [("x", 5.0)])).solve.value =
      .ok 11.0 := by decide +kernel
  have hfault : (Solver.mk ("2*" ++ "x" ++ "^2 3") (.tolerant [("x", 5.0)])).Fails
      ⟨.trailingInput, 6⟩ := by decide +kernel
  have hsum := (solve_substitute "2*" "x" "+1" "1+4" [] 5.0 hx
    (honce (by decide) rfl (by decide)) he).1 _ hvalue
  obtain ⟨⟨cause, o⟩, hg, -, hcause, hoffset⟩ := (solve_substitute "2*" "x" "^2 3" "1+4" [] 5.0 hx
    (honce (by decide) rfl (by decide)) he).2 _ hfault
  obtain rfl : cause = .trailingInput := hcause (by decide)
  obtain rfl : o = 10 := by
    rcases hoffset with ⟨hle, -⟩ | ⟨-, ho⟩
    · exact absurd hle (by decide)
    · exact Nat.add_right_cancel (m := 1) ho
  exact ⟨he, hvalue, hsum, hfault, hg⟩

end Reckoner
