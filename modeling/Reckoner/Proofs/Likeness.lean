import Reckoner.Proofs.Place

/-!
# Runs in two texts

What a rule does is decided by the token ahead, so it does the same in two texts as long as the same
tokens are ahead. A relation `K` between the places of one text and those of the other is a
*likeness* if like places have the same token ahead and are like again behind it (`Likeness`). A
likeness may have *gaps*: a variable may be ahead in one text where a group is ahead in the other,
since no rule but that of primaries looks into either.

`Runs.like` says that the runs from like places are alike. They end with like values at like places,
or with the same fault at like places. The values may belong to two arithmetics that respect a
relation `V`, and the names to two scopes; what is known of the names, those at a gap included, is a
hypothesis (`NamesLike`).
-/

namespace Reckoner

/-! ### The token ahead -/

/-- The first character of a token. -/
def Token.first? : Token → Option Char
  | .number run | .name run => run.head?
  | .mark x => some x

/-- The function that a token is the name of. -/
def Token.function? : Token → Option Func
  | .name run => Func.ofName? (String.ofList run)
  | .number _ | .mark _ => none

namespace Cursor

/-- The token ahead. -/
def token? (c : Cursor) : Option Token := (tokens c.rest).head?

/-- The place behind the token ahead. -/
def pastToken (c : Cursor) : Cursor :=
  match c.ahead? with
  | none => c.skipBlanks
  | some x =>
    if isNumeric x then c.skipBlanks.skip isNumeric else if isLetter x then c.pastWord else c.past

variable {c d : Cursor} {x : Char}

theorem token?_of_number (h : c.ahead? = some x) (hx : isNumeric x) :
    c.token? = some (.number (c.skipBlanks.run isNumeric)) ∧
      c.pastToken = c.skipBlanks.skip isNumeric := by
  rw [token?, tokens_of_number h hx, pastToken, h]
  exact ⟨rfl, if_pos hx⟩

theorem token?_of_letter (h : c.ahead? = some x) (hx : isLetter x) :
    c.token? = some (.name c.word) ∧ c.pastToken = c.pastWord := by
  have hn : ¬ isNumeric x := by simp [Grammar.isNumeric_eq_false_of_isLetter hx]
  rw [token?, tokens_of_letter h hx, pastToken, h]
  exact ⟨rfl, (if_neg hn).trans (if_pos hx)⟩

theorem token?_of_mark (h : c.ahead? = some x) (hx : isMark x) :
    c.token? = some (.mark x) ∧ c.pastToken = c.past := by
  have hc := hx
  simp only [isMark, Bool.and_eq_true, Bool.not_eq_true'] at hc
  rw [token?, tokens_of_mark h hx, pastToken, h]
  exact ⟨rfl, by simp [hc.1.2, hc.2]⟩

theorem token?_of_ended (h : c.ahead? = none) :
    c.token? = none ∧ c.pastToken = c.skipBlanks := by
  rw [token?, tokens_of_ended h, pastToken, h]
  exact ⟨rfl, rfl⟩

theorem ahead?_eq_token (c : Cursor) : c.ahead? = c.token?.bind Token.first? := by
  have hrun {p : Char → Bool} {x : Char} (hx : c.ahead? = some x) (hp : p x) :
      (c.skipBlanks.run p).head? = some x := by
    rw [run, skipBlanks_rest hx, List.takeWhile_cons_of_pos hp, List.head?_cons]
  rcases tokens_cases c with ⟨hx, -⟩ | ⟨x, hx, ⟨hn, -⟩ | ⟨hl, -⟩ | ⟨hm, -⟩⟩
  · rw [(token?_of_ended hx).1, hx]
    rfl
  · rw [(token?_of_number hx hn).1, hx]
    exact (hrun hx hn).symm
  · rw [(token?_of_letter hx hl).1, hx]
    exact (hrun hx hl).symm
  · rw [(token?_of_mark hx hm).1, hx]
    rfl

theorem function?_eq_token (c : Cursor) : c.function? = c.token?.bind Token.function? := by
  rcases tokens_cases c with ⟨hx, -⟩ | ⟨x, hx, ⟨hn, -⟩ | ⟨hl, -⟩ | ⟨hm, -⟩⟩
  · rw [(token?_of_ended hx).1, function?_eq_none (by simp [hx])]
    rfl
  · rw [(token?_of_number hx hn).1,
      function?_eq_none (by simpa [hx] using not_isLetter_of_isNumeric hn)]
    rfl
  · rw [(token?_of_letter hx hl).1]
    rfl
  · simp only [isMark, Bool.and_eq_true, Bool.not_eq_true'] at hm
    rw [(token?_of_mark hx (by simp [isMark, hm])).1, function?_eq_none (by simpa [hx] using hm.2)]
    rfl

theorem ahead?_of_token_mark (h : c.token? = some (.mark x)) : c.ahead? = some x ∧ isMark x := by
  obtain ⟨t, ht⟩ := List.head?_eq_some_iff.mp h
  exact ⟨(mark_of_tokens ht).1, (mark_of_tokens ht).2.1⟩

theorem word_of_token_name {w : List Char} (h : c.token? = some (.name w)) :
    c.word = w ∧ ∃ x, c.ahead? = some x ∧ isLetter x := by
  obtain ⟨t, ht⟩ := List.head?_eq_some_iff.mp h
  obtain ⟨x, hx, hl, hw, -⟩ := name_of_tokens ht
  exact ⟨hw, x, hx, hl⟩

theorem run_of_token_number {l : List Char} (h : c.token? = some (.number l)) :
    c.skipBlanks.run isNumeric = l ∧ ∃ x, c.ahead? = some x ∧ isNumeric x := by
  obtain ⟨t, ht⟩ := List.head?_eq_some_iff.mp h
  obtain ⟨x, hx, hn, hl, -⟩ := number_of_tokens ht
  exact ⟨hl, x, hx, hn⟩

end Cursor

open Cursor

/-! ### Likenesses -/

/-- A variable is ahead in one text, and a group in the other. -/
def Gap (c d : Cursor) : Prop :=
  (∃ w, c.token? = some (.name w)) ∧ c.function? = none ∧ d.ahead? = some '('

/-- Places of two texts have the same tokens ahead, but for gaps. -/
structure Likeness (K : Cursor → Cursor → Prop) : Prop where
  skipBlanks {c d} : K c d → K c.skipBlanks d.skipBlanks
  token {c d} : K c d → (d.token? = c.token? ∧ K c.pastToken d.pastToken) ∨ Gap c d

/-! ### Looking ahead at like places -/

namespace Likeness

variable {K : Cursor → Cursor → Prop} {c d : Cursor} {x : Char}

theorem ahead?_of_mark (hK : Likeness K) (h : K c d) (hx : c.ahead? = some x)
    (hm : isMark x) : d.ahead? = some x ∧ K c.past d.past := by
  obtain ⟨hc, hp⟩ := token?_of_mark hx hm
  rcases hK.token h with ⟨ht, hk⟩ | ⟨⟨w, hw⟩, -⟩
  · have hd : d.ahead? = some x := (ahead?_of_token_mark (ht.trans hc)).1
    rw [hp, (token?_of_mark hd hm).2] at hk
    exact ⟨hd, hk⟩
  · rw [hc] at hw
    cases hw

theorem mark_of_ahead? (hK : Likeness K) (h : K c d) (hx : d.ahead? = some x)
    (hm : isMark x) (hp : x ≠ '(') : c.ahead? = some x := by
  rcases hK.token h with ⟨ht, -⟩ | ⟨-, -, hd⟩
  · exact (ahead?_of_token_mark (ht.symm.trans (token?_of_mark hx hm).1)).1
  · exact absurd (Option.some.inj (hx.symm.trans hd)) hp

theorem ended_iff (hK : Likeness K) (h : K c d) : d.ahead? = none ↔ c.ahead? = none := by
  rcases hK.token h with ⟨ht, -⟩ | ⟨⟨w, hw⟩, -, hd⟩
  · rw [ahead?_eq_token, ht, ← ahead?_eq_token]
  · obtain ⟨-, x, hx, -⟩ := word_of_token_name hw
    simp [hd, hx]

theorem function?_eq (hK : Likeness K) (h : K c d) : d.function? = c.function? := by
  rcases hK.token h with ⟨ht, -⟩ | ⟨-, hc, hd⟩
  · rw [function?_eq_token, ht, ← function?_eq_token]
  · rw [hc, function?_eq_none (by simp [hd]; decide)]

theorem pastWord (hK : Likeness K) (h : K c d) {f : Func} (hf : c.function? = some f) :
    K c.pastWord d.pastWord := by
  have hd : d.function? = some f := (hK.function?_eq h).trans hf
  obtain ⟨x, hx, hl⟩ := exists_letter_of_function? hf
  obtain ⟨y, hy, hl'⟩ := exists_letter_of_function? hd
  rcases hK.token h with ⟨-, hk⟩ | ⟨-, hc, -⟩
  · rwa [(token?_of_letter hx hl).2, (token?_of_letter hy hl').2] at hk
  · rw [hc] at hf
    cases hf

theorem startsPrimary (hK : Likeness K) (h : K c d) (hc : c.StartsPrimary) :
    d.StartsPrimary where
  plus hd := hc.plus (hK.mark_of_ahead? h hd (by decide) (by decide))
  minus hd := hc.minus (hK.mark_of_ahead? h hd (by decide) (by decide))
  function := (hK.function?_eq h).trans hc.function

theorem operator?_eq_none (hK : Likeness K) (h : K c d) {rule : Rule}
    (hc : c.ahead?.bind rule.operator? = none) : d.ahead?.bind rule.operator? = none := by
  rw [Option.bind_eq_none_iff] at hc ⊢
  intro x hx
  by_contra hn
  obtain ⟨op, hop⟩ := Option.ne_none_iff_exists'.mp hn
  have hp : x ≠ '(' := by
    rintro rfl
    cases rule <;> cases hop
  have hcx := hK.mark_of_ahead? h hx (Rule.isMark_of_operator? hop) hp
  rw [hc x hcx] at hop
  cases hop

end Likeness

/-! ### Like runs -/

/-- The fault `g` is `f` at a like place; where a parenthesis is missing before the gap, another
character is found. -/
inductive Fault.Like (K : Cursor → Cursor → Prop) : Fault → Fault → Prop where
  | same {c d} (cause : Cause) : K c d → Like K ⟨cause, c.skipBlanks.pos⟩ ⟨cause, d.skipBlanks.pos⟩
  | found {c d x y} : K c d → c.ahead? = some x → d.ahead? = some y →
      Like K ⟨.unexpectedCharacter (some (String.singleton x)), c.skipBlanks.pos⟩
        ⟨.unexpectedCharacter (some (String.singleton y)), d.skipBlanks.pos⟩

/-- Like faults are the same if like places are. -/
theorem Fault.Like.eq {K : Cursor → Cursor → Prop} {f g : Fault} (h : f.Like K g)
    (hK : ∀ c d, K c d → d = c) : g = f := by
  cases h with
  | same cause hk => rw [hK _ _ hk]
  | found hk hx hy =>
    rw [hK _ _ hk] at hy ⊢
    rw [Option.some.inj (hx.symm.trans hy)]

/-- A run ends as another one does, at a like place. -/
inductive Run.Like {α β : Type} (V : α → β → Prop) (K : Cursor → Cursor → Prop) :
    Run α → Run β → Prop where
  | value {v w c d es fs} : V v w → K c d → Like V K ⟨.ok v, c, es⟩ ⟨.ok w, d, fs⟩
  | fault {f g c d es fs} : f.Like K g → K c d → Like V K ⟨.error f, c, es⟩ ⟨.error g, d, fs⟩

namespace Run.Like

variable {α β γ δ : Type} {V : α → β → Prop} {W : γ → δ → Prop} {K : Cursor → Cursor → Prop}
  {r : Run α} {r' : Run β}

theorem asCall (rule : Rule) (n m : Nat) (h : r.Like V K r') :
    (r.asCall rule n).Like V K (r'.asCall rule m) := by
  cases h with
  | value hv hk => exact .value hv hk
  | fault hf hk => exact .fault hf hk

theorem after (es fs : List Event) (h : r.Like V K r') : (r.after es).Like V K (r'.after fs) := by
  cases h with
  | value hv hk => exact .value hv hk
  | fault hf hk => exact .fault hf hk

theorem map {f : α → γ} {g : β → δ} (hfg : ∀ v w, V v w → W (f v) (g w)) (h : r.Like V K r') :
    (r.map f).Like W K (r'.map g) := by
  cases h with
  | value hv hk => exact .value (hfg _ _ hv) hk
  | fault hf hk => exact .fault hf hk

end Run.Like

/-- The operations of two arithmetics take like values to like values. -/
structure Arithmetic.Respects {α β : Type} (V : α → β → Prop) (A : Arithmetic α)
    (B : Arithmetic β) : Prop where
  zero : V A.zero B.zero
  literal n : V (A.literal n) (B.literal n)
  binary op v v' w w' : V v v' → V w w' → V (A.binary op v w) (B.binary op v' w')
  power v v' w w' : V v v' → V w w' → V (A.power v w) (B.power v' w')
  negate v v' : V v v' → V (A.negate v) (B.negate v')
  call f v v' : V v v' → V (A.call f v) (B.call f v')

theorem Arithmetic.respects_eq (A : Arithmetic α) : A.Respects Eq A where
  zero := rfl
  literal _ := rfl
  binary _ _ _ _ _ := by rintro rfl rfl; rfl
  power _ _ _ _ := by rintro rfl rfl; rfl
  negate _ _ := by rintro rfl; rfl
  call _ _ _ := by rintro rfl; rfl

namespace Grammar

/-- The same task, with like values. -/
inductive Task.Like {α β : Type} (V : α → β → Prop) : Task α → Task β → Prop where
  | call (rule) : Like V (.call rule) (.call rule)
  | body (rule) : Like V (.body rule) (.body rule)
  | tail (rule) {v w} : V v w → Like V (.tail rule v) (.tail rule w)
  | primary : Like V .primary .primary
  | power {v w} : V v w → Like V (.power v) (.power w)

section

variable {α β : Type} (V : α → β → Prop) (K : Cursor → Cursor → Prop) (A : Arithmetic α)
  (B : Arithmetic β) (scope : Scope α) (scope' : Scope β)

/-- A variable is read as what is ahead at each like place. -/
def NamesLike : Prop :=
  ∀ c d w, K c d → c.token? = some (.name w) → c.function? = none →
    ∃ r, Runs B scope' .primary d r ∧
      (symbol A scope (String.ofList w) c.skipBlanks).Like V K r

end

variable {α β : Type} {V : α → β → Prop} {K : Cursor → Cursor → Prop} {A : Arithmetic α}
  {B : Arithmetic β} {scope : Scope α} {scope' : Scope β} {c d : Cursor} {x : Char}

/-! ### Leaves -/

theorem literal_like (hK : Likeness K) (hA : A.Respects V B) (h : K c d) (hx : c.ahead? = some x)
    (hn : isNumeric x) :
    ∃ r, Runs B scope' .primary d r ∧ (literal A c.skipBlanks).Like V K r := by
  obtain ⟨hc, hpast⟩ := token?_of_number hx hn
  rcases hK.token h with ⟨ht, hk⟩ | ⟨⟨w, hw⟩, -⟩
  · obtain ⟨hrun, y, hy, hn'⟩ := run_of_token_number (ht.trans hc)
    rw [hpast, (token?_of_number hy hn').2] at hk
    refine ⟨_, .literal hy hn', ?_⟩
    rcases hl : Decimal.ofRun? (c.skipBlanks.run isNumeric) with _ | n
    · rw [literal_eq_fail hl, literal_eq_fail (hrun ▸ hl), hrun]
      exact .fault (.same _ h) hk
    · rw [literal_eq_done hl, literal_eq_done (hrun ▸ hl)]
      exact .value (hA.literal n) hk
  · rw [hc] at hw
    cases hw

theorem symbol_eq_fail {name : String} {c : Cursor} (h : symbolValue? A scope name = none) :
    symbol A scope name c = .fail (.unknownSymbol name) c.pos (c.skip isLetter) := by
  cases scope with
  | strict => exact symbol_eq A .strict name c
  | tolerant table => cases h

/-- A name with like values in the two scopes is read alike where it is ahead in both texts. -/
theorem symbol_like {w : List Char} (h : K c d) (hk : K c.pastToken d.pastToken)
    (hc : c.token? = some (.name w)) (hd : d.token? = some (.name w))
    (hv : Option.Rel V (symbolValue? A scope (String.ofList w))
      (symbolValue? B scope' (String.ofList w))) :
    ∃ r, Runs B scope' .primary d r ∧
      (symbol A scope (String.ofList w) c.skipBlanks).Like V K r := by
  obtain ⟨-, x, hx, hl⟩ := word_of_token_name hc
  obtain ⟨hw, y, hy, hl'⟩ := word_of_token_name hd
  rw [(token?_of_letter hx hl).2, (token?_of_letter hy hl').2] at hk
  refine ⟨_, .name hy hl', ?_⟩
  subst hw
  generalize hs : symbolValue? A scope (String.ofList d.word) = o at hv
  generalize hs' : symbolValue? B scope' (String.ofList d.word) = o' at hv
  cases hv with
  | none =>
    rw [symbol_eq_fail hs, symbol_eq_fail hs']
    exact .fault (.same _ h) hk
  | some hv =>
    rw [symbol_eq_of_value hs, symbol_eq_of_value hs']
    exact .value hv hk

theorem close_like (hK : Likeness K) {v : α} {w : β} (hv : V v w) (h : K c d) :
    (close v c).Like V K (close w d) := by
  rcases hx : c.ahead? with _ | x
  · rw [close_eq_end hx, close_eq_end ((hK.ended_iff h).mpr hx)]
    exact .fault (.same _ h) (hK.skipBlanks h)
  · by_cases hp : x = ')'
    · subst hp
      obtain ⟨hd, hk⟩ := hK.ahead?_of_mark h hx (by decide)
      rw [close_eq_done hx, close_eq_done hd]
      exact .value hv hk
    · rcases hy : d.ahead? with _ | y
      · rw [(hK.ended_iff h).mp hy] at hx
        cases hx
      · have hp' : y ≠ ')' := by
          rintro rfl
          rw [hK.mark_of_ahead? h hy (by decide) (by decide)] at hx
          exact hp (Option.some.inj hx).symm
        rw [close_eq_mismatch hx hp, close_eq_mismatch hy hp']
        exact .fault (.found h hx hy) (hK.skipBlanks h)

/-! ### Runs -/

/-- **The runs from like places are alike.** -/
theorem Runs.like (hK : Likeness K) (hA : A.Respects V B)
    (hN : NamesLike V K A B scope scope') {t : Task α} {t' : Task β} {r : Run α}
    (h : Runs A scope t c r) (ht : t.Like V t') (hcd : K c d)
    (hp : t = .primary → c.StartsPrimary) : ∃ r', Runs B scope' t' d r' ∧ r.Like V K r' := by
  induction h generalizing t' d with
  | call _ ih =>
    cases ht
    obtain ⟨r', hr, hl⟩ := ih (.body _) hcd nofun
    exact ⟨_, .call hr, hl.asCall ..⟩
  | operandFails hrule _ ih =>
    cases ht
    obtain ⟨r', hr, hl⟩ := ih (.call _) hcd nofun
    cases hl with
    | fault hf hk => exact ⟨_, .operandFails hrule hr, .fault hf hk⟩
  | operand hrule _ _ ih iht =>
    cases ht
    obtain ⟨r', hr, hl⟩ := ih (.call _) hcd nofun
    cases hl with
    | value hv hk =>
      obtain ⟨s', hs, hl⟩ := iht (.tail _ hv) hk nofun
      exact ⟨_, .operand hrule hr hs, hl.after ..⟩
  | stop hx =>
    cases ht with
    | tail _ hv => exact ⟨_, .stop (hK.operator?_eq_none hcd hx), .value hv (hK.skipBlanks hcd)⟩
  | stepFails hx hop _ ih =>
    cases ht
    obtain ⟨hd, hk⟩ := hK.ahead?_of_mark hcd hx (Rule.isMark_of_operator? hop)
    obtain ⟨r', hr, hl⟩ := ih (.call _) hk nofun
    cases hl with
    | fault hf hk => exact ⟨_, .stepFails hd hop hr, .fault hf hk⟩
  | step hx hop _ _ ih iht =>
    cases ht with
    | tail _ hv =>
      obtain ⟨hd, hk⟩ := hK.ahead?_of_mark hcd hx (Rule.isMark_of_operator? hop)
      obtain ⟨r', hr, hl⟩ := ih (.call _) hk nofun
      cases hl with
      | value hw hk =>
        obtain ⟨s', hs, hl⟩ := iht (.tail _ (hA.binary _ _ _ _ _ hv hw)) hk nofun
        exact ⟨_, .step hd hop hr hs, hl.after ..⟩
  | plus hx _ ih =>
    cases ht
    obtain ⟨hd, hk⟩ := hK.ahead?_of_mark hcd hx (by decide)
    obtain ⟨r', hr, hl⟩ := ih (.call _) hk nofun
    exact ⟨_, .plus hd hr, hl⟩
  | minus hx _ ih =>
    cases ht
    obtain ⟨hd, hk⟩ := hK.ahead?_of_mark hcd hx (by decide)
    obtain ⟨r', hr, hl⟩ := ih (.call _) hk nofun
    exact ⟨_, .minus hd hr, hl.map hA.negate⟩
  | apply hf _ ih =>
    cases ht
    obtain ⟨r', hr, hl⟩ := ih (.call _) (hK.pastWord hcd hf) nofun
    exact ⟨_, .apply ((hK.function?_eq hcd).trans hf) hr, hl.map (hA.call _)⟩
  | primaryFails hc _ ih =>
    cases ht
    obtain ⟨r', hr, hl⟩ := ih .primary hcd fun _ => hc
    cases hl with
    | fault hf hk => exact ⟨_, .primaryFails (hK.startsPrimary hcd hc) hr, .fault hf hk⟩
  | primary hc _ _ ih ihp =>
    cases ht
    obtain ⟨r', hr, hl⟩ := ih .primary hcd fun _ => hc
    cases hl with
    | value hv hk =>
      obtain ⟨s', hs, hl⟩ := ihp (.power hv) hk nofun
      exact ⟨_, .primary (hK.startsPrimary hcd hc) hr hs, hl.after ..⟩
  | noPower hx =>
    cases ht with
    | power hv =>
      have hd := fun hd => hx (hK.mark_of_ahead? hcd hd (by decide) (by decide))
      exact ⟨_, .noPower hd, .value hv (hK.skipBlanks hcd)⟩
  | raise hx _ ih =>
    cases ht with
    | power hv =>
      obtain ⟨hd, hk⟩ := hK.ahead?_of_mark hcd hx (by decide)
      obtain ⟨r', hr, hl⟩ := ih (.call _) hk nofun
      exact ⟨_, .raise hd hr, hl.map fun _ _ => hA.power _ _ _ _ hv⟩
  | ended hx =>
    cases ht
    exact ⟨_, .ended ((hK.ended_iff hcd).mpr hx), .fault (.same _ hcd) (hK.skipBlanks hcd)⟩
  | groupFails hx _ ih =>
    cases ht
    obtain ⟨hd, hk⟩ := hK.ahead?_of_mark hcd hx (by decide)
    obtain ⟨r', hr, hl⟩ := ih (.call _) hk nofun
    cases hl with
    | fault hf hk => exact ⟨_, .groupFails hd hr, .fault hf hk⟩
  | group hx _ ih =>
    cases ht
    obtain ⟨hd, hk⟩ := hK.ahead?_of_mark hcd hx (by decide)
    obtain ⟨r', hr, hl⟩ := ih (.call _) hk nofun
    cases hl with
    | value hv hk => exact ⟨_, .group hd hr, (close_like hK hv hk).after ..⟩
  | literal hx hn =>
    cases ht
    exact literal_like hK hA hcd hx hn
  | name hx hl =>
    cases ht
    exact hN _ _ _ hcd (token?_of_letter hx hl).1 (hp rfl).function
  | @empty c x hx ho =>
    cases ht
    simp only [isOperandStart, Bool.or_eq_false_iff] at ho
    have hm : isMark x := by simp [isMark, skipBlanks_rest_head hx, ho.1.2, ho.2]
    obtain ⟨hd, -⟩ := hK.ahead?_of_mark hcd hx hm
    exact ⟨_, .empty hd (by simp [isOperandStart, ho]), .value hA.zero (hK.skipBlanks hcd)⟩

/-- **Like texts have like outcomes.** -/
theorem solve_like (hK : Likeness K) (hA : A.Respects V B)
    (hN : NamesLike V K A B scope scope') {text text' : String}
    (h : K (.start text) (.start text')) :
    (∀ v, (solve A scope text).outcome = .ok v →
      ∃ w, (solve B scope' text').outcome = .ok w ∧ V v w) ∧
    ∀ f, (solve A scope text).outcome = .error f →
      ∃ g, (solve B scope' text').outcome = .error g ∧ f.Like K g := by
  have hlike {r : Run α} (hr : Runs A scope (.call .expression) (.start text) r) :
      ∃ r', Runs B scope' (.call .expression) (.start text') r' ∧ r.Like V K r' :=
    hr.like hK hA hN (.call _) h nofun
  have hended {d d' : Cursor} (hk : K d d') (hd : d.StopOf .expression)
      (hd' : d'.StopOf .expression) : d'.rest = [] ↔ d.rest = [] := by
    rw [← hd.skipBlanks, ← hd'.skipBlanks, skipBlanks_rest_eq_nil_iff, skipBlanks_rest_eq_nil_iff]
    exact hK.ended_iff hk
  constructor
  · intro v hv
    obtain ⟨d, es, hr, hd⟩ := solve_outcome_eq_ok_iff.mp hv
    obtain ⟨r', hr', hl⟩ := hlike hr
    cases hl with
    | value hv hk =>
      have hd' := (hended hk (hr.stopsAt rfl) (hr'.stopsAt rfl)).mpr hd
      exact ⟨_, solve_outcome_eq_ok_iff.mpr ⟨_, _, hr', hd'⟩, hv⟩
  · intro f hf
    rcases solve_outcome_eq_error_iff.mp hf with ⟨d, es, hr⟩ | ⟨v, d, es, hr, hd, rfl⟩
    · obtain ⟨r', hr', hl⟩ := hlike hr
      cases hl with
      | fault hf hk => exact ⟨_, solve_outcome_eq_error_iff.mpr (.inl ⟨_, _, hr'⟩), hf⟩
    · obtain ⟨r', hr', hl⟩ := hlike hr
      cases hl with
      | @value _ w _ d' _ fs _ hk =>
        have hs : d.StopOf .expression := hr.stopsAt rfl
        have hs' : d'.StopOf .expression := hr'.stopsAt rfl
        have hd' : d'.rest ≠ [] := fun he => hd ((hended hk hs hs').mp he)
        refine ⟨⟨.trailingInput, d'.pos⟩, ?_, ?_⟩
        · exact solve_outcome_eq_error_iff.mpr (.inr ⟨w, d', fs, hr', hd', rfl⟩)
        · have hf := Fault.Like.same .trailingInput hk
          rwa [hs.skipBlanks, hs'.skipBlanks] at hf

/-! ### Without gaps -/

/-- A likeness of places of the same tokens, in one scope. -/
theorem namesLike_of_tokens
    (hK : ∀ c d, K c d → d.token? = c.token? ∧ K c.pastToken d.pastToken) :
    NamesLike Eq K A A scope scope := by
  intro c d w h hc _
  obtain ⟨ht, hk⟩ := hK c d h
  refine symbol_like h hk hc (ht.trans hc) ?_
  cases symbolValue? A scope (String.ofList w) with
  | none => exact .none
  | some v => exact .some rfl

end Grammar

open Grammar in
/-- Like texts have the same value, or like faults. -/
theorem Solver.solve_like {s t : Solver} {K : Cursor → Cursor → Prop} (hK : Likeness K)
    (hN : NamesLike Eq K double double s.scope t.scope)
    (h : K (.start s.expression) (.start t.expression)) :
    (∀ v, s.solve.value = .ok v → t.solve.value = .ok v) ∧
    ∀ f, s.Fails f → ∃ g, t.Fails g ∧ f.Like K g := by
  obtain ⟨hvalue, hfault⟩ := Grammar.solve_like hK double.respects_eq hN h
  simp only [Solver.solve_value_eq_ok_iff, Solver.fails_iff, ← solve_outcome_eq_error_iff]
  refine ⟨fun v hv => ?_, hfault⟩
  obtain ⟨w, hw, rfl⟩ := hvalue v hv
  exact hw

/-! ### The same text elsewhere -/

/-- The same characters are ahead, as far behind `m` in one text as behind `n` in the other. -/
def Beyond (n m : Nat) (c d : Cursor) : Prop :=
  d.rest = c.rest ∧ ∃ k, c.pos = n + k ∧ d.pos = m + k

namespace Beyond

variable {n m : Nat} {c d : Cursor}

theorem skip (p : Char → Bool) (h : Beyond n m c d) : Beyond n m (c.skip p) (d.skip p) := by
  obtain ⟨hr, k, hc, hd⟩ := h
  have hrun : d.run p = c.run p := congrArg (List.takeWhile p) hr
  refine ⟨congrArg (List.dropWhile p) hr, k + (c.run p).length, ?_, ?_⟩
  · rw [Cursor.skip, hc, Nat.add_assoc]
  · rw [Cursor.skip, hrun, hd, Nat.add_assoc]

theorem next (h : Beyond n m c d) : Beyond n m c.next d.next := by
  obtain ⟨hr, k, hc, hd⟩ := h
  refine ⟨congrArg List.tail hr, k + 1, ?_, ?_⟩
  · rw [Cursor.next, hc, Nat.add_assoc]
  · rw [Cursor.next, hd, Nat.add_assoc]

theorem skipBlanks (h : Beyond n m c d) : Beyond n m c.skipBlanks d.skipBlanks := h.skip isBlank

theorem token (h : Beyond n m c d) :
    d.token? = c.token? ∧ Beyond n m c.pastToken d.pastToken := by
  have hx : d.ahead? = c.ahead? := congrArg List.head? h.skipBlanks.1
  refine ⟨congrArg (fun l => (tokens l).head?) h.1, ?_⟩
  unfold pastToken
  rw [hx]
  split
  · exact h.skipBlanks
  · split_ifs
    · exact h.skipBlanks.skip isNumeric
    · exact h.skipBlanks.skip isLetter
    · exact h.skipBlanks.next

theorem likeness (n m : Nat) : Likeness (Beyond n m) := ⟨skipBlanks, fun h => .inl h.token⟩

end Beyond

namespace Grammar

/-- **A run is the same wherever its text stands.** -/
theorem Runs.move {α : Type} {A : Arithmetic α} {scope : Scope α} {t : Task α} {c d : Cursor}
    {v : α} {es : List Event} (h : Runs A scope t c ⟨.ok v, d, es⟩)
    (hp : t = .primary → c.StartsPrimary) (n : Nat) :
    ∃ k fs, d.pos = c.pos + k ∧ Runs A scope t ⟨n, c.rest⟩ ⟨.ok v, ⟨n + k, d.rest⟩, fs⟩ := by
  have hlike : t.Like Eq t := by
    cases t with
    | call rule => exact .call rule
    | body rule => exact .body rule
    | tail rule v => exact .tail rule rfl
    | primary => exact .primary
    | power v => exact .power rfl
  have hc : Beyond c.pos n c ⟨n, c.rest⟩ := ⟨rfl, 0, rfl, rfl⟩
  obtain ⟨r, hr, hl⟩ := h.like (Beyond.likeness c.pos n) A.respects_eq
    (namesLike_of_tokens fun _ _ hk => hk.token) hlike hc hp
  cases hl with
  | @value _ _ _ d' _ fs hv hk =>
    obtain ⟨hr', k, hk, hpos⟩ := hk
    subst hv
    obtain ⟨pos, rest⟩ := d'
    cases hr'
    cases hpos
    exact ⟨k, fs, hk, hr⟩

end Grammar

end Reckoner
