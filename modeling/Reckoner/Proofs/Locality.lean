import Reckoner.Proofs.Exchange
import Reckoner.Proofs.Likeness

/-!
# Rules are local

What a rule does depends on the text from its cursor on, up to the first character behind what it
has read, and on nothing else (`Grammar.evaluate_local`). Nothing before the cursor counts: places
with the same text ahead are like places, so the runs from them are alike and all that differs is
the offset (`Grammar.evaluate_beyond`). What follows the run counts by one character at most, and
where the text ends there, a closing parenthesis can follow in place of the end.
-/

namespace Reckoner

open Cursor

/-! ### Places of a text -/

namespace Cursor

theorem Reaches.eq_within {text : String} {d : Cursor} (h : (start text).Reaches d) :
    d = within text d.pos := by
  obtain ⟨n, rest⟩ := d
  have htotal : n + rest.length = text.toList.length := h.total.trans (Nat.zero_add _)
  have hrest : rest = text.toList.drop (text.toList.length - rest.length) :=
    List.suffix_iff_eq_drop.mp h.suffix
  rw [show text.toList.length - rest.length = n by omega] at hrest
  rw [within, ← hrest]

theorem reaches_within {text : String} {n : Nat} (h : n ≤ text.length) :
    (start text).Reaches (within text n) := by
  refine ⟨List.drop_suffix n text.toList, ?_⟩
  rw [← String.length_toList] at h
  simp only [within, start, List.length_drop]
  omega

theorem within_append (before text : String) (n : Nat) :
    within (before ++ text) (before.length + n) = ⟨before.length + n, text.toList.drop n⟩ := by
  rw [within, String.toList_append, ← String.length_toList, List.drop_length_add_append]

end Cursor

/-! ### What lies before -/

/-- A fault at like places of two texts that go on alike is the same, at an offset that is counted
from the other beginning. -/
theorem Fault.Like.eq_beyond {n : Nat} {f g : Fault} (h : f.Like (Beyond 0 n) g) :
    g = ⟨f.cause, n + f.offset⟩ := by
  have hpos {c d : Cursor} (hk : Beyond 0 n c d) : d.skipBlanks.pos = n + c.skipBlanks.pos := by
    obtain ⟨-, k, hc, hd⟩ := hk.skipBlanks
    rw [hd, hc, Nat.zero_add]
  cases h with
  | same cause hk => rw [hpos hk]
  | found hk hx hy =>
    have hxy : _ = _ := hy.symm.trans ((congrArg List.head? hk.skipBlanks.1).trans hx)
    rw [hpos hk, Option.some.inj hxy]

namespace Grammar

variable {α : Type} (A : Arithmetic α) (scope : Scope α)

/-- The runs of a rule from places with the same text ahead are alike. -/
theorem evaluate_beyond (rule : Rule) {n m : Nat} {c d : Cursor} (h : Beyond n m c d) :
    (evaluate A scope rule c).Like Eq (Beyond n m) (evaluate A scope rule d) := by
  have hr : Runs A scope (.call rule) c (evaluate A scope rule c) := runs_run ..
  obtain ⟨r, hr', hl⟩ := hr.like (Beyond.likeness n m) A.respects_eq
    (namesLike_of_tokens fun _ _ hk => hk.token) (.call rule) h nofun
  rwa [eq_run_of_runs hr'] at hl

/-! ### What follows -/

/-- The rule has the value `v` at the beginning of `text` and stops at the offset `n`. -/
def ReturnsAt (rule : Rule) (text : String) (v : α) (n : Nat) : Prop :=
  (evaluate A scope rule (start text)).outcome = .ok v ∧
    (evaluate A scope rule (start text)).cursor = within text n

variable {A scope}

/-- A text that begins as far as the run goes, and goes on with what can follow instead, has the
same value. -/
theorem ReturnsAt.exchange {rule : Rule} {text text' : String} {v : α} {n : Nat}
    (h : ReturnsAt A scope rule text v n) (htake : text'.toList.take n = text.toList.take n)
    (hs : Exchanges (text'.toList.drop n) (text.toList.drop n)) :
    ReturnsAt A scope rule text' v n := by
  have hstart (text : String) :
      start text = ⟨0, text.toList.take n ++ text.toList.drop n⟩ := by
    rw [List.take_append_drop, start]
  have hr : Runs A scope (.call rule) ⟨0, text.toList.take n ++ text.toList.drop n⟩
      ⟨.ok v, within text n, (evaluate A scope rule (start text)).trace⟩ := by
    rw [← hstart, ← h.1, ← h.2]
    exact runs_run (.call rule) (start text)
  obtain ⟨fs, hr'⟩ := hr.exchange_rest hs
  rw [← htake, ← hstart] at hr'
  have he : _ = evaluate A scope rule (start text') := eq_run_of_runs hr'
  rw [ReturnsAt, ← he]
  exact ⟨rfl, rfl⟩

theorem exchanges_of_take {l l' : List Char} {n : Nat} (h : l'.take (n + 1) = l.take (n + 1)) :
    Exchanges (l'.drop n) (l.drop n) := by
  have hn : n < n + 1 := Nat.lt_succ_self n
  right
  rw [List.head?_drop, List.head?_drop, ← List.getElem?_take_of_lt hn, h,
    List.getElem?_take_of_lt hn]

/-! ### Locality -/

variable (A scope)

/-- **Rules are local.** After another text a rule does what it does at the beginning of its own.
If it returns before the end of its text, it does so in every text that is the same up to the
character behind what it has read; if it returns at the end, it does so where a closing parenthesis
follows. -/
theorem evaluate_local (rule : Rule) (before text : String) :
    let run := evaluate A scope rule (start text)
    let moved := evaluate A scope rule (within (before ++ text) before.length)
    moved.outcome = run.outcome.mapError (fun f => ⟨f.cause, before.length + f.offset⟩) ∧
    moved.cursor = within (before ++ text) (before.length + run.cursor.pos) ∧
    ∀ v, run.outcome = .ok v →
      (run.cursor.pos < text.length → ∀ text' : String,
        text'.toList.take (run.cursor.pos + 1) = text.toList.take (run.cursor.pos + 1) →
        ReturnsAt A scope rule text' v run.cursor.pos) ∧
      (run.cursor.pos = text.length → ∀ more : String,
        ReturnsAt A scope rule (text ++ ")" ++ more) v run.cursor.pos) := by
  intro run moved
  have hreach : (start text).Reaches run.cursor := reaches_evaluate A scope rule (start text)
  have hbeyond : Beyond 0 before.length (start text) (within (before ++ text) before.length) := by
    have hafter : within (before ++ text) before.length = ⟨before.length, text.toList⟩ :=
      within_append before text 0
    rw [hafter]
    exact ⟨rfl, 0, rfl, rfl⟩
  have hlike : run.Like Eq (Beyond 0 before.length) moved := evaluate_beyond A scope rule hbeyond
  have hcursor {d : Cursor} (hd : Beyond 0 before.length run.cursor d) :
      d = within (before ++ text) (before.length + run.cursor.pos) := by
    obtain ⟨hrest, k, hc, hpos⟩ := hd
    rw [Nat.zero_add] at hc
    subst hc
    have hrun : run.cursor.rest = text.toList.drop run.cursor.pos :=
      congrArg Cursor.rest hreach.eq_within
    rw [within_append, ← hpos, ← hrun, ← hrest]
  refine ⟨?_, ?_, fun v hv => ?_⟩
  · generalize run = r at hlike
    generalize moved = r' at hlike
    cases hlike with
    | value hv => rw [hv]; rfl
    | fault hf => rw [hf.eq_beyond]; rfl
  · refine hcursor ?_
    generalize run = r at hlike
    generalize moved = r' at hlike
    cases hlike with
    | value _ hk => exact hk
    | fault _ hk => exact hk
  · have hreturns : ReturnsAt A scope rule text v run.cursor.pos := ⟨hv, hreach.eq_within⟩
    refine ⟨fun _ text' htake => ?_, fun hend more => ?_⟩
    · refine hreturns.exchange ?_ (exchanges_of_take htake)
      have htake' := congrArg (List.take run.cursor.pos) htake
      rwa [List.take_take, List.take_take, Nat.min_eq_left (Nat.le_succ _)] at htake'
    · rw [← String.length_toList] at hend
      refine hreturns.exchange ?_ (.inl ?_)
      · rw [hend, String.append_assoc, String.toList_append, List.take_left, List.take_length]
      · rw [hend, String.append_assoc, String.toList_append, List.drop_left, String.toList_append]
        rfl

/-- The term that `2*3+1` begins with ends at the sign. It has its value behind `4+` and whatever
follows the sign, and `2*3` alone has it in a group. -/
theorem evaluate_local_product :
    ReturnsAt double .strict .term "2*3+1" 6.0 3 ∧ ReturnsAt double .strict .term "2*3+x" 6.0 3 ∧
      (evaluate double .strict .term (within ("4+" ++ "2*3+1") 2)).outcome = .ok 6.0 ∧
      ReturnsAt double .strict .term ("2*3" ++ ")" ++ "^2") 6.0 3 := by
  have h : ReturnsAt double .strict .term "2*3+1" 6.0 3 := ⟨by decide +kernel, by decide +kernel⟩
  have h' : ReturnsAt double .strict .term "2*3" 6.0 3 := ⟨by decide +kernel, by decide +kernel⟩
  have hpos : (evaluate double .strict .term (start "2*3+1")).cursor.pos = 3 := by rw [h.2]; rfl
  have hpos' : (evaluate double .strict .term (start "2*3")).cursor.pos = 3 := by rw [h'.2]; rfl
  obtain ⟨hmoved, -, hvalue⟩ := evaluate_local double .strict .term "4+" "2*3+1"
  obtain ⟨-, -, hvalue'⟩ := evaluate_local double .strict .term "" "2*3"
  rw [h.1] at hmoved
  rw [hpos] at hvalue
  rw [hpos'] at hvalue'
  exact ⟨h, (hvalue _ h.1).1 (by decide) "2*3+x" (by decide), hmoved,
    (hvalue' _ h'.1).2 (by decide) "^2"⟩

end Grammar

end Reckoner
