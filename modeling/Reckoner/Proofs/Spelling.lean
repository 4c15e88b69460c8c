import Mathlib.Data.List.Chain
import Reckoner.Proofs.Token

/-!
# The spelling of tokens

Tokens are written one after the other, with a space between two names and none elsewhere. What is
written has the same tokens again (`tokens_spell`), unless a number is followed by another number or
by a name; no phrase has such a place.
-/

namespace Reckoner

namespace Token

/-- The characters of a token. -/
def chars : Token → List Char
  | .number run => run
  | .name run => run
  | .mark x => [x]

/-- A token is a run of its class that is not empty, or a mark. -/
def Valid : Token → Prop
  | .number run => run ≠ [] ∧ ∀ x ∈ run, isNumeric x
  | .name run => run ≠ [] ∧ ∀ x ∈ run, isLetter x
  | .mark x => isMark x

/-- Names are kept apart by a space. -/
def gap : Token → Token → List Char
  | .name _, .name _ => [' ']
  | _, _ => []

/-- Only marks can follow a number. -/
def Precedes : Token → Token → Prop
  | .number _, .mark _ => True
  | .number _, _ => False
  | _, _ => True

end Token

/-- The text of some tokens. -/
def spell : List Token → List Char
  | [] => []
  | [a] => a.chars
  | a :: b :: ts => a.chars ++ a.gap b ++ spell (b :: ts)

/-- Tokens that can be written one after the other. -/
structure Spellable (ts : List Token) : Prop where
  valid : ∀ a ∈ ts, a.Valid
  chain : ts.IsChain Token.Precedes

namespace Spellable

theorem mark {x : Char} {ts : List Token} (hx : isMark x) (h : Spellable ts) :
    Spellable (.mark x :: ts) where
  valid := List.forall_mem_cons.mpr ⟨hx, h.valid⟩
  chain := List.isChain_cons.mpr ⟨fun _ _ => trivial, h.chain⟩

theorem name {run : List Char} {ts : List Token} (hne : run ≠ []) (hl : ∀ x ∈ run, isLetter x)
    (h : Spellable ts) : Spellable (.name run :: ts) where
  valid := List.forall_mem_cons.mpr ⟨⟨hne, hl⟩, h.valid⟩
  chain := List.isChain_cons.mpr ⟨fun _ _ => trivial, h.chain⟩

theorem append_mark {x : Char} {ss ts : List Token} (hs : Spellable ss) (hx : isMark x)
    (ht : Spellable ts) : Spellable (ss ++ .mark x :: ts) where
  valid := List.forall_mem_append.mpr ⟨hs.valid, (ht.mark hx).valid⟩
  chain := by
    refine List.isChain_append.mpr ⟨hs.chain, (ht.mark hx).chain, fun a _ b hb => ?_⟩
    obtain rfl : Token.mark x = b := Option.some.inj hb
    cases a <;> trivial

end Spellable

/-! ### Reading a token that was written -/

theorem takeWhile_append_of_all {p : Char → Bool} {l m : List Char} (hl : ∀ x ∈ l, p x)
    (hm : ∀ x ∈ m.head?, p x = false) : (l ++ m).takeWhile p = l := by
  rw [List.takeWhile_append_of_pos hl]
  cases m with
  | nil => simp
  | cons x r => simp [hm x rfl]

theorem dropWhile_append_of_all {p : Char → Bool} {l m : List Char} (hl : ∀ x ∈ l, p x)
    (hm : ∀ x ∈ m.head?, p x = false) : (l ++ m).dropWhile p = m := by
  rw [List.dropWhile_append_of_pos hl]
  cases m with
  | nil => rfl
  | cons x r => simp [hm x rfl]

/-- A character that no token of the kind of `a` goes on with. -/
def Token.EndsBefore : Token → Char → Prop
  | .number _, x => isNumeric x = false
  | .name _, x => isLetter x = false
  | .mark _, _ => True

theorem tokens_chars_append {a : Token} (ha : a.Valid) {m : List Char}
    (hm : ∀ x ∈ m.head?, a.EndsBefore x) : tokens (a.chars ++ m) = a :: tokens m := by
  cases a with
  | number run =>
    obtain ⟨hne, hrun⟩ := ha
    obtain ⟨x, r, rfl⟩ := List.exists_cons_of_ne_nil hne
    obtain ⟨hx, hr⟩ := List.forall_mem_cons.mp hrun
    rw [Token.chars, List.cons_append, tokens_number hx, takeWhile_append_of_all hr hm,
      dropWhile_append_of_all hr hm]
  | name run =>
    obtain ⟨hne, hrun⟩ := ha
    obtain ⟨x, r, rfl⟩ := List.exists_cons_of_ne_nil hne
    obtain ⟨hx, hr⟩ := List.forall_mem_cons.mp hrun
    rw [Token.chars, List.cons_append, tokens_name hx, takeWhile_append_of_all hr hm,
      dropWhile_append_of_all hr hm]
  | mark x => exact tokens_mark ha m

theorem isNumeric_eq_false_of_isMark {x : Char} (h : isMark x) : isNumeric x = false := by
  simp only [isMark, Bool.and_eq_true, Bool.not_eq_true'] at h
  exact h.1.2

theorem isLetter_eq_false_of_isMark {x : Char} (h : isMark x) : isLetter x = false := by
  simp only [isMark, Bool.and_eq_true, Bool.not_eq_true'] at h
  exact h.2

theorem head?_spell (b : Token) (ts : List Token) (hb : b.Valid) :
    (spell (b :: ts)).head? = b.chars.head? := by
  have hne : b.chars ≠ [] := by
    cases b with
    | number run => exact hb.1
    | name run => exact hb.1
    | mark x => simp [Token.chars]
  obtain ⟨x, r, hx⟩ := List.exists_cons_of_ne_nil hne
  cases ts with
  | nil => rfl
  | cons c ts => simp [spell, hx]

/-- The next token or the gap before it ends a token that was written. -/
theorem endsBefore_spell {a b : Token} {ts : List Token} (hab : a.Precedes b) (hb : b.Valid) :
    ∀ x ∈ (a.gap b ++ spell (b :: ts)).head?, a.EndsBefore x := by
  intro x hx
  have hs := head?_spell b ts hb
  cases a with
  | mark y => trivial
  | number run =>
    cases b with
    | number run' => cases hab
    | name run' => cases hab
    | mark y =>
      change x ∈ (spell (.mark y :: ts)).head? at hx
      rw [hs] at hx
      obtain rfl := Option.some.inj hx
      exact isNumeric_eq_false_of_isMark hb
  | name run =>
    cases b with
    | name run' =>
      obtain rfl := Option.some.inj hx
      rfl
    | number run' =>
      change x ∈ (spell (.number run' :: ts)).head? at hx
      rw [hs] at hx
      exact not_isLetter_of_isNumeric (hb.2 x (List.mem_of_mem_head? hx))
    | mark y =>
      change x ∈ (spell (.mark y :: ts)).head? at hx
      rw [hs] at hx
      obtain rfl := Option.some.inj hx
      exact isLetter_eq_false_of_isMark hb

/-- **What is spelled has the same tokens again.** -/
theorem tokens_spell : ∀ {ts : List Token}, Spellable ts → tokens (spell ts) = ts
  | [], _ => tokens_nil
  | [a], h => by
    have ha := tokens_chars_append (m := []) (h.valid a (by simp)) (by simp)
    rwa [List.append_nil, tokens_nil] at ha
  | a :: b :: ts, h => by
    obtain ⟨ha, hv⟩ := List.forall_mem_cons.mp h.valid
    obtain ⟨hab, hc⟩ := List.isChain_cons_cons.mp h.chain
    have hb : b.Valid := hv b (by simp)
    have ih : tokens (spell (b :: ts)) = b :: ts := tokens_spell ⟨hv, hc⟩
    have hgap : tokens (a.gap b ++ spell (b :: ts)) = b :: ts := by
      unfold Token.gap
      split
      · exact (tokens_blank (by decide) _).trans ih
      · exact ih
    rw [spell, List.append_assoc, tokens_chars_append ha (endsBefore_spell hab hb), hgap]

end Reckoner
