import Reckoner.Proofs.Completion
import Reckoner.Proofs.Likeness

/-!
# Texts that differ in one place

Two texts begin alike, have the characters `m` and `m'` at the offset `o`, and go on alike with `s`
(`Edited`). A token that begins before the edit is the same in both texts if it ends there too, and
behind the edit the places of the one text are those of the other, moved by the difference in
length. What is ahead where only blanks are left before the edit depends on what `m` and `m'` are.

If blanks are put in between two tokens, `m` is empty and `m'` is blank. Then nothing but blanks is
ahead there that is not behind the edit, so the places form a likeness without gaps and the outcome
is the same, with offsets that are moved (`Solver.solve_insert_blanks`).
-/

namespace Reckoner

/-! ### Before the edit -/

/-- No run goes on from `u` to `v`. -/
def Apart (u v : List Char) : Prop := ∀ x ∈ u.getLast?, ∀ y ∈ v.head?, ¬ Joins x y

theorem Apart.of_suffix {u u' v : List Char} (h : Apart u v) (hs : u' <:+ u) : Apart u' v := by
  obtain ⟨w, rfl⟩ := hs
  intro x hx
  exact h x (by rw [List.getLast?_append, hx]; rfl)

namespace Cursor

variable {c : Cursor} {s : List Char} {x : Char}

/-- A token ends at a cut. -/
theorem cuts_pastToken (c : Cursor) : c.Cuts c.pastToken := by
  have hs := cuts_skipBlanks c
  rcases tokens_cases c with ⟨hx, -⟩ | ⟨x, hx, ⟨hn, -⟩ | ⟨hl, -⟩ | ⟨hm, -⟩⟩
  · rwa [(token?_of_ended hx).2]
  · rw [(token?_of_number hx hn).2]
    exact hs.trans (cuts_skip_isNumeric _)
  · rw [(token?_of_letter hx hl).2]
    exact hs.trans (cuts_skip_isLetter _)
  · rw [(token?_of_mark hx hm).2]
    exact cuts_past hx hm

/-- A token that ends before what follows the text is the same in the longer text. -/
theorem token?_extend (ha : Apart c.rest s) (hx : c.ahead? = some x) :
    (c.extend s).token? = c.token? ∧ (c.extend s).pastToken = c.pastToken.extend s := by
  have hcut : c.Cuts c.skipBlanks := cuts_skipBlanks c
  have hx' : (c.extend s).ahead? = some x := ahead?_extend hx
  by_cases hn : isNumeric x
  · have hb : (c.skipBlanks.skip isNumeric).Bounds isNumeric s :=
      bounds_of_cut (fun _ _ hx hy => .inl ⟨hx, hy⟩) ha hcut (run_ne_nil hx hn)
    rw [(token?_of_number hx hn).1, (token?_of_number hx hn).2, (token?_of_number hx' hn).1,
      (token?_of_number hx' hn).2, skipBlanks_extend_of_ahead hx, run_extend_of_bounds hb,
      skip_extend_of_bounds hb]
    exact ⟨rfl, rfl⟩
  by_cases hl : isLetter x
  · have hb : c.pastWord.Bounds isLetter s :=
      bounds_of_cut (fun _ _ hx hy => .inr ⟨hx, hy⟩) ha hcut (run_ne_nil hx hl)
    rw [(token?_of_letter hx hl).1, (token?_of_letter hx hl).2, (token?_of_letter hx' hl).1,
      (token?_of_letter hx' hl).2, word_extend hx hb, pastWord_extend hx hb]
    exact ⟨rfl, rfl⟩
  have hm : isMark x := by simp [isMark, skipBlanks_rest_head hx, hn, hl]
  rw [(token?_of_mark hx hm).1, (token?_of_mark hx hm).2, (token?_of_mark hx' hm).1,
    (token?_of_mark hx' hm).2, past_extend hx]
  exact ⟨rfl, rfl⟩

theorem token?_skipBlanks (c : Cursor) : c.skipBlanks.token? = c.token? := by
  rw [token?, tokens_skipBlanks, token?]

theorem pastToken_skipBlanks (c : Cursor) : c.skipBlanks.pastToken = c.pastToken := by
  simp only [pastToken, ahead?_skipBlanks, skipBlanks_skipBlanks, pastWord, past]

end Cursor

open Cursor

/-! ### Edits -/

/-- `c` and `d` are the same place in two texts that have `m` and `m'` at the offset `o`, and go on
with `s`: both before the edit, or both behind it. -/
inductive Edited (o : Nat) (m m' s : List Char) : Cursor → Cursor → Prop where
  | before (e : Cursor) : e.pos + e.rest.length = o → Apart e.rest (m ++ s) →
      Apart e.rest (m' ++ s) → Edited o m m' s (e.extend (m ++ s)) (e.extend (m' ++ s))
  | behind {c d} : Beyond (o + m.length) (o + m'.length) c d → Edited o m m' s c d

/-- No token is left before the edit. -/
def AtEdit (o : Nat) (m m' s : List Char) (c d : Cursor) : Prop :=
  c.skipBlanks = (Cursor.mk o (m ++ s)).skipBlanks ∧
    d.skipBlanks = (Cursor.mk o (m' ++ s)).skipBlanks

namespace Edited

variable {o : Nat} {m m' s : List Char} {c d e : Cursor} {x : Char}

theorem before_reaches (ho : e.pos + e.rest.length = o) (ha : Apart e.rest (m ++ s))
    (ha' : Apart e.rest (m' ++ s)) {e' : Cursor} (h : e.Reaches e') :
    Edited o m m' s (e'.extend (m ++ s)) (e'.extend (m' ++ s)) :=
  .before e' (h.total.trans ho) (ha.of_suffix h.suffix) (ha'.of_suffix h.suffix)

theorem atEdit_of_ended (ho : e.pos + e.rest.length = o) (hx : e.ahead? = none) :
    AtEdit o m m' s (e.extend (m ++ s)) (e.extend (m' ++ s)) := by
  subst ho
  exact ⟨skipBlanks_extend_ended hx, skipBlanks_extend_ended hx⟩

theorem skipBlanks (h : Edited o m m' s c d) :
    Edited o m m' s c.skipBlanks d.skipBlanks ∨ AtEdit o m m' s c d := by
  cases h with
  | before e ho ha ha' =>
    rcases hx : e.ahead? with _ | x
    · exact .inr (atEdit_of_ended ho hx)
    · rw [skipBlanks_extend_of_ahead hx, skipBlanks_extend_of_ahead hx]
      exact .inl (before_reaches ho ha ha' (reaches_skipBlanks e))
  | behind h => exact .inl (.behind h.skipBlanks)

theorem token (h : Edited o m m' s c d) :
    (d.token? = c.token? ∧ Edited o m m' s c.pastToken d.pastToken) ∨ AtEdit o m m' s c d := by
  cases h with
  | before e ho ha ha' =>
    rcases hx : e.ahead? with _ | x
    · exact .inr (atEdit_of_ended ho hx)
    · rw [(token?_extend ha hx).1, (token?_extend ha hx).2, (token?_extend ha' hx).1,
        (token?_extend ha' hx).2]
      exact .inl ⟨rfl, before_reaches ho ha ha' (cuts_pastToken e).reaches⟩
  | behind h => exact .inl ⟨h.token.1, .behind h.token.2⟩

/-- Offsets before the edit are the same, and those behind it are moved. -/
theorem pos (h : Edited o m m' s c d) :
    (c.skipBlanks.pos < o ∧ d.skipBlanks.pos = c.skipBlanks.pos) ∨ AtEdit o m m' s c d ∨
      ∃ k, c.skipBlanks.pos = o + m.length + k ∧ d.skipBlanks.pos = o + m'.length + k := by
  cases h with
  | before e ho ha ha' =>
    rcases hx : e.ahead? with _ | x
    · exact .inr (.inl (atEdit_of_ended ho hx))
    · have hlt : e.skipBlanks.pos < o := by
        have htotal := (reaches_skipBlanks e).total
        rw [skipBlanks_rest hx, List.length_cons] at htotal
        omega
      rw [skipBlanks_extend_of_ahead hx, skipBlanks_extend_of_ahead hx]
      exact .inl ⟨hlt, rfl⟩
  | behind h => exact .inr (.inr h.skipBlanks.2)

end Edited

/-! ### Blanks between tokens -/

namespace Edited

variable {o : Nat} {w s : List Char} {c d : Cursor}

/-- Behind blanks that are put in is what was there without them. -/
theorem behind_of_atEdit (hw : ∀ x ∈ w, isBlank x) (h : AtEdit o [] w s c d) :
    Beyond o (o + w.length) c.skipBlanks d.skipBlanks := by
  have hx : (Cursor.mk o w).ahead? = none := by
    rw [← skipBlanks_rest_eq_nil_iff]
    exact List.dropWhile_eq_nil_iff.mpr hw
  have hskip : (Cursor.mk o (w ++ s)).skipBlanks = (Cursor.mk (o + w.length) s).skipBlanks :=
    skipBlanks_extend_ended hx
  rw [h.1, h.2, hskip]
  exact Beyond.skipBlanks ⟨rfl, 0, rfl, rfl⟩

theorem token_blank (hw : ∀ x ∈ w, isBlank x) (h : Edited o [] w s c d) :
    d.token? = c.token? ∧ Edited o [] w s c.pastToken d.pastToken := by
  rcases h.token with h | h
  · exact h
  · have hb := (behind_of_atEdit hw h).token
    simp only [token?_skipBlanks, pastToken_skipBlanks] at hb
    exact ⟨hb.1, .behind hb.2⟩

theorem likeness_blank (hw : ∀ x ∈ w, isBlank x) : Likeness (Edited o [] w s) where
  token h := .inl (h.token_blank hw)
  skipBlanks h := h.skipBlanks.elim id fun h => .behind (behind_of_atEdit hw h)

end Edited

/-- The offset `o`, where `k` characters are put in at the offset `i`. -/
def shift (i k o : Nat) : Nat := if o < i then o else o + k

theorem Edited.pos_blank {o : Nat} {w s : List Char} {c d : Cursor} (hw : ∀ x ∈ w, isBlank x)
    (h : Edited o [] w s c d) : d.skipBlanks.pos = shift o w.length c.skipBlanks.pos := by
  unfold shift
  rcases h.pos with ⟨hlt, hd⟩ | h | ⟨k, hc, hd⟩
  · rw [if_pos hlt, hd]
  · obtain ⟨-, k, hc, hd⟩ := behind_of_atEdit hw h
    rw [if_neg (by omega), hc, hd]
    omega
  · rw [if_neg (by omega), hc, hd, List.length_nil]
    omega

/-- The fault `f`, where `k` characters are put in at the offset `i`. -/
def Fault.shift (i k : Nat) (f : Fault) : Fault := ⟨f.cause, Reckoner.shift i k f.offset⟩

theorem Fault.Like.eq_shift {o : Nat} {w s : List Char} {f g : Fault} (hw : ∀ x ∈ w, isBlank x)
    (h : f.Like (Edited o [] w s) g) : g = f.shift o w.length := by
  cases h with
  | same cause hk => rw [hk.pos_blank hw, Fault.shift]
  | found hk hx hy =>
    have hxy : _ = _ := congrArg (Option.bind · Token.first?) (hk.token_blank hw).1
    rw [← ahead?_eq_token, ← ahead?_eq_token, hx, hy] at hxy
    rw [hk.pos_blank hw, Option.some.inj hxy, Fault.shift]

theorem apart_blanks_append {u w v : List Char} (hw : ∀ x ∈ w, isBlank x) (h : Apart u v) :
    Apart u (w ++ v) := by
  cases w with
  | nil => exact h
  | cons y w =>
    have hy : isBlank y := hw y List.mem_cons_self
    simp [Apart, Joins, not_isNumeric_of_isBlank hy, not_isLetter_of_isBlank hy]

/-- **Blanks between tokens make no difference** but to the offsets behind them. -/
theorem Solver.solve_insert_blanks (u w v : String) (scope : Scope Float)
    (hw : ∀ x ∈ w.toList, isBlank x)
    (huv : ∀ x ∈ u.toList.getLast?, ∀ y ∈ v.toList.head?, ¬ Joins x y) :
    (∀ z, (Solver.mk (u ++ v) scope).solve.value = .ok z →
      (Solver.mk (u ++ w ++ v) scope).solve.value = .ok z) ∧
    ∀ f, (Solver.mk (u ++ v) scope).Fails f →
      (Solver.mk (u ++ w ++ v) scope).Fails (f.shift u.length w.length) := by
  have hstart : Edited u.length [] w.toList v.toList (start (u ++ v)) (start (u ++ w ++ v)) := by
    rw [String.append_assoc, start_append, start_append, String.toList_append]
    exact .before (start u) (Nat.zero_add _) huv (apart_blanks_append hw huv)
  have hnames : Grammar.NamesLike Eq (Edited u.length [] w.toList v.toList) double double scope
      scope := Grammar.namesLike_of_tokens fun _ _ hk => hk.token_blank hw
  obtain ⟨hvalue, hfault⟩ := solve_like (s := ⟨u ++ v, scope⟩) (t := ⟨u ++ w ++ v, scope⟩)
    (Edited.likeness_blank hw) hnames hstart
  refine ⟨hvalue, fun f hf => ?_⟩
  obtain ⟨g, hg, hl⟩ := hfault f hf
  rwa [hl.eq_shift hw, String.length_toList] at hg

/-- The 3 that is out of place in `(1+2 3` is two characters further on if two blanks stand before
the sign; `(1+2)*3` has its value with them too. -/
theorem Solver.solve_insert_blanks_in_group :
    (Solver.mk ("(1" ++ "+2)*3") .strict).solve.value = .ok 9.0 ∧
      (Solver.mk ("(1" ++ " \t" ++ "+2)*3") .strict).solve.value = .ok 9.0 ∧
    (Solver.mk ("(1" ++ "+2 3") .strict).Fails ⟨.unexpectedCharacter (some "3"), 5⟩ ∧
      (Solver.mk ("(1" ++ " \t" ++ "+2 3") .strict).Fails ⟨.unexpectedCharacter (some "3"), 7⟩ := by
  have hw : ∀ x ∈ " \t".toList, isBlank x := List.all_eq_true.mp (by decide)
  have hjoin {v : String} (hv : v.toList.head? = some '+') :
      ∀ x ∈ "(1".toList.getLast?, ∀ y ∈ v.toList.head?, ¬ Joins x y := by
    intro x hx y hy
    obtain rfl : '1' = x := Option.some.inj hx
    obtain rfl : '+' = y := Option.some.inj (hv.symm.trans hy)
    unfold Joins
    decide
  have hvalue : (Solver.mk ("(1" ++ "+2)*3") .strict).solve.value = .ok 9.0 := by decide +kernel
  have hfault : (Solver.mk ("(1" ++ "+2 3") .strict).Fails
      ⟨.unexpectedCharacter (some "3"), 5⟩ := by decide +kernel
  exact ⟨hvalue, (solve_insert_blanks "(1" " \t" "+2)*3" .strict hw (hjoin rfl)).1 _ hvalue,
    hfault, (solve_insert_blanks "(1" " \t" "+2 3" .strict hw (hjoin rfl)).2 _ hfault⟩

end Reckoner
