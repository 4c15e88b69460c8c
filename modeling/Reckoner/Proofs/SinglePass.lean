import Mathlib.Data.List.Perm.Subperm
import Reckoner.Arithmetic.Double
import Reckoner.Proofs.Runs

/-!
# A single pass

The trace of a run has each call of a rule with the position at which it was entered. The calls of
one rule are entered further and further on (`Event.entries`), so there is at most one of them for
each position of the text. Within a call the loop of its rule goes round from where its last operand
has ended, and each round begins further on than the one before (`Event.rounds`).

A call need not read anything: an operand may be left out, and a rule calls that of its operands
before it has read a character. So the position of a call alone does not say that there is progress.
What is shown of a run is that it enters the rules between its ends, and where it begins only those
up to a rank (`Run.Advances`). A rule enters at once only what is of lower rank, and what goes on
after a run enters nothing before it has read a character (`Task.height`). Every task runs that way
(`Runs.advances`).
-/

namespace Reckoner

open Cursor

/-! ### What a trace says of its calls -/

namespace Event

/-- The positions at which `rule` is entered. -/
def entries (rule : Rule) (es : List Event) : List Nat :=
  es.filterMap fun
    | .entered r pos => if r = rule then some pos else none
    | _ => none

/-- The positions at which the rounds of the loop of a call begin, in the events after the call was
entered: those where the calls that it makes itself return. `depth` counts the calls that have not
returned yet. -/
def rounds : Nat → List Event → List Nat
  | _, [] => []
  | depth, .entered _ _ :: es => rounds (depth + 1) es
  | 0, .returned _ _ _ :: _ => []
  | 1, .returned _ _ stop :: es => stop :: rounds 0 es
  | depth + 2, .returned _ _ _ :: es => rounds (depth + 1) es
  | depth, .defaulted _ :: es => rounds depth es

/-- The calls that have not returned after one more event, the innermost first. -/
def push (calls : List Rule) : Event → List Rule
  | .entered rule _ => rule :: calls
  | .returned _ _ _ => calls.tail
  | .defaulted _ => calls

/-- The rules of the calls that have been entered and have not returned, the innermost first. -/
def pending (es : List Event) : List Rule := es.foldl push []

/-- In each call the rounds begin further and further on. -/
def Loops (es : List Event) : Prop :=
  ∀ rule start after, .entered rule start :: after <:+ es → (rounds 0 after).Pairwise (· < ·)

variable {es : List Event}

theorem entries_append (rule : Rule) (es fs : List Event) :
    entries rule (es ++ fs) = entries rule es ++ entries rule fs := List.filterMap_append

theorem entries_entered (rule r : Rule) (pos : Nat) (es : List Event) :
    entries rule (.entered r pos :: es) =
      if r = rule then pos :: entries rule es else entries rule es := by
  by_cases hr : r = rule <;> simp [entries, hr]

theorem rounds_defaulted (depth : Nat) (name : String) (es : List Event) :
    rounds depth (.defaulted name :: es) = rounds depth es := by
  rcases depth with _ | _ | depth <;> rfl

theorem loops_nil : Loops [] := fun _ _ _ h => by simp at h

theorem loops_entered {rule : Rule} {start : Nat} (h : Loops es)
    (hr : (rounds 0 es).Pairwise (· < ·)) : Loops (.entered rule start :: es) := by
  intro rule' start' after hsuffix
  rcases List.suffix_cons_iff.mp hsuffix with heq | hsuffix
  · obtain ⟨-, rfl⟩ := List.cons.inj heq
    exact hr
  · exact h _ _ _ hsuffix

theorem loops_other {e : Event} (h : Loops es) (he : ∀ rule start, e ≠ .entered rule start) :
    Loops (e :: es) := by
  intro rule start after hsuffix
  rcases List.suffix_cons_iff.mp hsuffix with heq | hsuffix
  · exact absurd (List.cons.inj heq).1.symm (he _ _)
  · exact h _ _ _ hsuffix

theorem rounds_append_of_silent (depth : Nat) (h : ∀ e ∈ es, ∃ name, e = .defaulted name)
    (fs : List Event) : rounds depth (es ++ fs) = rounds depth fs := by
  induction es with
  | nil => rfl
  | cons e es ih =>
    obtain ⟨⟨name, rfl⟩, hrest⟩ := List.forall_mem_cons.mp h
    rw [List.cons_append, rounds_defaulted, ih hrest]

theorem loops_append_of_silent {fs : List Event} (h : ∀ e ∈ es, ∃ name, e = .defaulted name)
    (hf : Loops fs) : Loops (es ++ fs) := by
  induction es with
  | nil => exact hf
  | cons e es ih =>
    obtain ⟨⟨name, rfl⟩, hrest⟩ := List.forall_mem_cons.mp h
    exact loops_other (ih hrest) nofun

/-- A call that is pending has been entered. -/
theorem count_pending_le (rule : Rule) (es : List Event) :
    (pending es).count rule ≤ (entries rule es).length := by
  suffices h : ∀ calls : List Rule,
      (es.foldl push calls).count rule ≤ calls.count rule + (entries rule es).length by
    simpa [pending] using h []
  induction es with
  | nil => simp
  | cons e es ih =>
    intro calls
    have htail := ih (push calls e)
    rw [List.foldl_cons]
    cases e with
    | entered r pos =>
      by_cases hr : r = rule
      · simp only [push, entries, hr, List.count_cons_self, List.filterMap_cons, if_true,
          List.length_cons] at htail ⊢
        omega
      · simpa [push, entries, hr] using htail
    | returned r start stop =>
      have hcount := (List.tail_sublist calls).count_le rule
      simp only [push, entries, List.filterMap_cons] at htail ⊢
      omega
    | defaulted name => simpa [push, entries] using htail

end Event

/-! ### Positions that increase -/

/-- The positions `l` increase, and lie between `lo` and `hi`. -/
structure Climbs (lo hi : Nat) (l : List Nat) : Prop where
  increasing : l.Pairwise (· < ·)
  bounds : ∀ p ∈ l, lo ≤ p ∧ p ≤ hi

namespace Climbs

variable {lo mid hi : Nat} {l m : List Nat}

theorem nil : Climbs lo hi [] := ⟨.nil, by simp⟩

theorem mono {lo' hi' : Nat} (h : Climbs lo hi l) (hlo : lo' ≤ lo) (hhi : hi ≤ hi') :
    Climbs lo' hi' l := by
  refine ⟨h.increasing, fun p hp => ?_⟩
  have := h.bounds p hp
  omega

theorem cons (h : Climbs (lo + 1) hi l) (hlo : lo ≤ hi) : Climbs lo hi (lo :: l) := by
  refine ⟨.cons (fun p hp => (h.bounds p hp).1) h.increasing, fun p hp => ?_⟩
  rcases List.mem_cons.mp hp with rfl | hp
  · omega
  · have := h.bounds p hp
    omega

theorem append (h : Climbs lo mid l) (k : Climbs (mid + 1) hi m) (hlo : lo ≤ mid + 1)
    (hhi : mid ≤ hi) : Climbs lo hi (l ++ m) := by
  constructor
  · refine List.pairwise_append.mpr ⟨h.increasing, k.increasing, fun p hp q hq => ?_⟩
    have := h.bounds p hp
    have := k.bounds q hq
    omega
  · intro p hp
    rcases List.mem_append.mp hp with hp | hp
    · have := h.bounds p hp
      omega
    · have := k.bounds p hp
      omega

/-- There are no more positions than there are up to the last one. -/
theorem length_le (h : Climbs lo hi l) : l.length ≤ hi + 1 := by
  have hnodup : l.Nodup := h.increasing.imp Nat.ne_of_lt
  have hsub : l ⊆ List.range (hi + 1) := fun p hp => by
    have := h.bounds p hp
    exact List.mem_range.mpr (by omega)
  simpa using (List.subperm_of_subset hnodup hsub).length_le

end Climbs

/-! ### Runs that advance -/

namespace Cursor

/-- Where a rule can be entered first from `c` on: at `c` itself if its rank is no higher than
`height`, and else behind. -/
def first (c : Cursor) (height : Nat) (rule : Rule) : Nat :=
  if rule.rank ≤ height then c.pos else c.pos + 1

variable {c d : Cursor} {height : Nat} {rule : Rule}

theorem pos_le_first : c.pos ≤ c.first height rule := by
  unfold first
  split_ifs <;> omega

theorem first_le : c.first height rule ≤ c.pos + 1 := by
  unfold first
  split_ifs <;> omega

theorem first_of_le (h : rule.rank ≤ height) : c.first height rule = c.pos := if_pos h

theorem first_of_lt (h : height < rule.rank) : c.first height rule = c.pos + 1 :=
  if_neg (Nat.not_le_of_lt h)

theorem first_anti {k : Nat} (h : k ≤ height) : c.first height rule ≤ c.first k rule := by
  unfold first
  split_ifs <;> omega

theorem first_le_of_lt {k : Nat} (h : c.pos < d.pos) : c.first height rule ≤ d.first k rule := by
  have : c.first height rule ≤ c.pos + 1 := first_le
  have : d.pos ≤ d.first k rule := pos_le_first
  omega

theorem pos_lt_past (c : Cursor) : c.pos < c.past.pos := by
  have := (reaches_skipBlanks c).pos_le
  show c.pos < c.skipBlanks.pos + 1
  omega

theorem pos_lt_pastWord {f : Func} (h : c.function? = some f) : c.pos < c.pastWord.pos := by
  obtain ⟨x, hx, hl⟩ := exists_letter_of_function? h
  have hlength : c.pastWord.rest.length < c.rest.length := pastWord_length_lt hx hl
  have hreach : c.Reaches c.pastWord := (reaches_skipBlanks c).trans (reaches_skip isLetter _)
  have := hreach.total
  omega

end Cursor

namespace Run

/-- What can follow the run in a trace: nothing, if it has failed. -/
def Precedes (r : Run α) (es : List Event) : Prop := ∀ f, r.outcome = .error f → es = []

/-- The run `r` from `c` enters each rule further and further on, at `c` those up to `height` at
most, and so begin the rounds of the calls in it. -/
structure Advances (c : Cursor) (height : Nat) (r : Run α) : Prop where
  pos_le : c.pos ≤ r.cursor.pos
  entries : ∀ rule, Climbs (c.first height rule) r.cursor.pos (Event.entries rule r.trace)
  /-- The calls that the run makes itself return at `ps`. -/
  rounds : ∃ ps, Climbs (c.first height .factor) r.cursor.pos ps ∧
    ∀ es, r.Precedes es → Event.rounds 0 (r.trace ++ es) = ps ++ Event.rounds 0 es
  /-- For a call further out no round begins. -/
  inside : ∀ depth es, r.Precedes es →
    Event.rounds (depth + 1) (r.trace ++ es) = Event.rounds (depth + 1) es
  loops : ∀ es, r.Precedes es → Event.Loops es → Event.Loops (r.trace ++ es)

namespace Advances

variable {α : Type} {c d : Cursor} {height k : Nat} {rule : Rule} {r : Run α}

/-- A run that makes no call. -/
theorem of_silent (hpos : c.pos ≤ r.cursor.pos)
    (ht : ∀ e ∈ r.trace, ∃ name, e = .defaulted name) : r.Advances c height where
  pos_le := hpos
  entries rule := by
    have hnil : Event.entries rule r.trace = [] := by
      refine List.filterMap_eq_nil_iff.mpr fun e he => ?_
      obtain ⟨name, rfl⟩ := ht e he
      rfl
    rw [hnil]
    exact .nil
  rounds := ⟨[], .nil, fun es _ => Event.rounds_append_of_silent 0 ht es⟩
  inside depth es _ := Event.rounds_append_of_silent (depth + 1) ht es
  loops _ _ h := Event.loops_append_of_silent ht h

theorem mono (h : r.Advances d k) (hpos : c.pos ≤ d.pos)
    (hfirst : ∀ rule, c.first height rule ≤ d.first k rule) : r.Advances c height := by
  obtain ⟨ps, hps, hrounds⟩ := h.rounds
  exact ⟨Nat.le_trans hpos h.pos_le,
    fun rule => (h.entries rule).mono (hfirst rule) (Nat.le_refl _),
    ⟨ps, hps.mono (hfirst _) (Nat.le_refl _), hrounds⟩, h.inside, h.loops⟩

theorem higher (h : r.Advances c k) (hk : k ≤ height) : r.Advances c height :=
  h.mono (Nat.le_refl _) fun _ => first_anti hk

/-- After a character has been read any rule may be entered. -/
theorem behind (h : r.Advances d k) (hpos : c.pos < d.pos) : r.Advances c height :=
  h.mono (Nat.le_of_lt hpos) fun _ => first_le_of_lt hpos

theorem map {β : Type} (f : α → β) (h : r.Advances c height) : (r.map f).Advances c height := by
  have hprecedes (es : List Event) (hes : (r.map f).Precedes es) : r.Precedes es :=
    fun e he => hes e (Run.map_outcome_eq_error_iff.mpr he)
  obtain ⟨ps, hps, hrounds⟩ := h.rounds
  exact ⟨h.pos_le, h.entries, ⟨ps, hps, fun es hes => hrounds es (hprecedes es hes)⟩,
    fun depth es hes => h.inside depth es (hprecedes es hes),
    fun es hes => h.loops es (hprecedes es hes)⟩

/-- A run that goes on after another one, and enters nothing where that has ended. -/
theorem after {β : Type} {v : β} {es : List Event} (h : (Run.mk (.ok v) d es).Advances c height)
    (k : r.Advances d 0) : (r.after es).Advances c height := by
  have hes (fs : List Event) : (Run.mk (.ok v) d es).Precedes fs := nofun
  have hpos : c.pos ≤ d.pos := h.pos_le
  have hfirst (rule : Rule) : c.first height rule ≤ d.pos + 1 :=
    Nat.le_trans first_le (Nat.succ_le_succ hpos)
  have hzero (rule : Rule) : d.first 0 rule = d.pos + 1 := first_of_lt (by cases rule <;> decide)
  obtain ⟨ps, hps, hrounds⟩ := h.rounds
  obtain ⟨qs, hqs, krounds⟩ := k.rounds
  refine ⟨Nat.le_trans hpos k.pos_le, fun rule => ?_, ⟨ps ++ qs, ?_, fun fs hfs => ?_⟩,
    fun depth fs hfs => ?_, fun fs hfs hloops => ?_⟩
  · show Climbs _ _ (Event.entries rule (es ++ r.trace))
    rw [Event.entries_append]
    exact (h.entries rule).append (hzero rule ▸ k.entries rule) (hfirst rule) k.pos_le
  · exact hps.append (hzero .factor ▸ hqs) (hfirst .factor) k.pos_le
  · show Event.rounds 0 (es ++ r.trace ++ fs) = _
    rw [List.append_assoc, hrounds _ (hes _), krounds fs hfs, List.append_assoc]
  · show Event.rounds (depth + 1) (es ++ r.trace ++ fs) = _
    rw [List.append_assoc, h.inside depth _ (hes _), k.inside depth fs hfs]
  · show Event.Loops (es ++ r.trace ++ fs)
    rw [List.append_assoc]
    exact h.loops _ (hes _) (k.loops fs hfs hloops)

/-- A call enters its rule, and what is entered in it at once is of a lower rank. -/
theorem entries_call (h : r.Advances c (rule.rank - 1)) (entered : Rule) :
    Climbs (c.first rule.rank entered) r.cursor.pos
      (Event.entries entered (.entered rule c.pos :: r.trace)) := by
  rw [Event.entries_entered]
  split_ifs with heq
  · subst heq
    have hrank : 0 < rule.rank := by cases rule <;> decide
    have hcall : c.first rule.rank rule = c.pos := first_of_le (Nat.le_refl _)
    have hbody : c.first (rule.rank - 1) rule = c.pos + 1 := first_of_lt (by omega)
    rw [hcall]
    exact (hbody ▸ h.entries rule).cons h.pos_le
  · exact (h.entries entered).mono (first_anti (Nat.sub_le _ _)) (Nat.le_refl _)

/-- A call that fails does not return: no round begins after it, in whatever call it was made. -/
theorem asCall_of_error {f : Fault} {es : List Event}
    (h : (⟨.error f, d, es⟩ : Run α).Advances c (rule.rank - 1)) :
    ((⟨.error f, d, es⟩ : Run α).asCall rule c.pos).Advances c rule.rank := by
  have hnil : (⟨.error f, d, es⟩ : Run α).Precedes [] := fun _ _ => rfl
  have htrace : ((⟨.error f, d, es⟩ : Run α).asCall rule c.pos).trace =
      .entered rule c.pos :: es := by simp [Run.asCall]
  obtain ⟨ps, hps, hrounds⟩ := h.rounds
  refine ⟨h.pos_le, fun entered => htrace ▸ h.entries_call entered, ⟨[], .nil, fun fs hfs => ?_⟩,
    fun depth fs hfs => ?_, fun fs hfs hloops => ?_⟩
  · obtain rfl := hfs f rfl
    rw [htrace]
    exact h.inside 0 [] hnil
  · obtain rfl := hfs f rfl
    rw [htrace]
    exact h.inside (depth + 1) [] hnil
  · obtain rfl := hfs f rfl
    rw [htrace]
    refine Event.loops_entered (h.loops [] hnil hloops) ?_
    have hes : Event.rounds 0 (es ++ []) = ps ++ [] := hrounds [] hnil
    show (Event.rounds 0 (es ++ [])).Pairwise (· < ·)
    rw [hes, List.append_nil]
    exact hps.increasing

/-- A call that returns does so once, and the calls that it has made are further in. -/
theorem asCall_of_ok {v : α} {es : List Event}
    (h : (⟨.ok v, d, es⟩ : Run α).Advances c (rule.rank - 1)) :
    ((⟨.ok v, d, es⟩ : Run α).asCall rule c.pos).Advances c rule.rank := by
  have hall (fs : List Event) : (⟨.ok v, d, es⟩ : Run α).Precedes fs := nofun
  have htrace : ((⟨.ok v, d, es⟩ : Run α).asCall rule c.pos).trace =
      .entered rule c.pos :: (es ++ [.returned rule c.pos d.pos]) := rfl
  have hfactor : c.first rule.rank .factor = c.pos := first_of_le (by cases rule <;> decide)
  have hpos : c.pos ≤ d.pos := h.pos_le
  obtain ⟨ps, hps, hrounds⟩ := h.rounds
  refine ⟨hpos, fun entered => ?_, ⟨[d.pos], ?_, fun fs hfs => ?_⟩,
    fun depth fs hfs => ?_, fun fs hfs hloops => ?_⟩
  · rw [htrace, ← List.cons_append, Event.entries_append]
    simpa [Event.entries, Run.asCall] using h.entries_call entered
  · rw [hfactor]
    exact ⟨by simp, by simpa [Run.asCall] using hpos⟩
  · rw [htrace, List.cons_append, List.append_assoc]
    exact h.inside 0 _ (hall _)
  · rw [htrace, List.cons_append, List.append_assoc]
    exact h.inside (depth + 1) _ (hall _)
  · rw [htrace, List.cons_append, List.append_assoc]
    refine Event.loops_entered (h.loops _ (hall _) (Event.loops_other hloops nofun)) ?_
    rw [hrounds _ (hall _)]
    simpa [Event.rounds] using hps.increasing

theorem asCall (h : r.Advances c (rule.rank - 1)) :
    (r.asCall rule c.pos).Advances c rule.rank := by
  obtain ⟨⟨f⟩ | ⟨v⟩, d, es⟩ := r
  · exact h.asCall_of_error
  · exact h.asCall_of_ok

end Advances

end Run

namespace Grammar

variable {α : Type} {A : Arithmetic α} {scope : Scope α} {k : Nat}

/-! ### Every task advances -/

theorem advances_literal (c : Cursor) : (literal A c.skipBlanks).Advances c k := by
  refine .of_silent ?_ ?_
  · rw [literal_cursor]
    exact ((reaches_skipBlanks c).trans (reaches_skip _ _)).pos_le
  · rw [literal_eq]
    split <;> simp [Run.done, Run.fail]

theorem advances_symbol (name : String) (c : Cursor) :
    (symbol A scope name c.skipBlanks).Advances c k := by
  refine .of_silent ?_ ?_
  · rw [symbol_cursor]
    exact ((reaches_skipBlanks c).trans (reaches_skip _ _)).pos_le
  · rw [symbol_eq]
    split <;> simp [Run.done, Run.fail, Run.note]

theorem advances_close (v : α) (c : Cursor) : (close v c).Advances c k := by
  have hpos := (reaches_skipBlanks c).pos_le
  rcases hx : c.ahead? with _ | x
  · rw [close_eq_end hx]
    exact .of_silent hpos nofun
  · by_cases h : x = ')'
    · subst h
      rw [close_eq_done hx]
      exact .of_silent (Nat.le_of_lt (pos_lt_past c)) nofun
    · rw [close_eq_mismatch hx h]
      exact .of_silent hpos nofun

/-- The highest rank of a rule that a task enters before it has read anything. -/
def Task.height : Task α → Nat
  | .call rule => rule.rank
  | .body rule => rule.rank - 1
  | .tail _ _ | .primary | .power _ => 0

variable (α) in
theorem height_operand {rule : Rule} (h : rule ≠ .factor) :
    (Task.call rule.operand : Task α).height = (Task.body rule : Task α).height := by
  cases rule with
  | factor => exact absurd rfl h
  | term | expression => rfl

/-- **Every task advances.** -/
theorem Runs.advances {t : Task α} {c : Cursor} {r : Run α} (h : Runs A scope t c r) :
    r.Advances c t.height := by
  induction h with
  | call _ ih => exact ih.asCall
  | operandFails hrule _ ih => exact height_operand α hrule ▸ ih
  | operand hrule _ _ ih iht => exact (height_operand α hrule ▸ ih).after iht
  | stop => exact .of_silent (reaches_skipBlanks _).pos_le nofun
  | stepFails _ _ _ ih => exact ih.behind (pos_lt_past _)
  | step _ _ _ _ ih iht => exact (ih.behind (pos_lt_past _)).after iht
  | plus _ _ ih => exact ih.behind (pos_lt_past _)
  | minus _ _ ih => exact (ih.behind (pos_lt_past _)).map _
  | apply hf _ ih => exact (ih.behind (pos_lt_pastWord hf)).map _
  | primaryFails _ _ ih => exact ih.higher (Nat.zero_le _)
  | primary _ _ _ ih ihp => exact (ih.higher (Nat.zero_le _)).after ihp
  | noPower => exact .of_silent (reaches_skipBlanks _).pos_le nofun
  | raise _ _ ih => exact (ih.behind (pos_lt_past _)).map _
  | ended => exact .of_silent (reaches_skipBlanks _).pos_le nofun
  | groupFails _ _ ih => exact ih.behind (pos_lt_past _)
  | group _ _ ih => exact (ih.behind (pos_lt_past _)).after (advances_close _ _)
  | literal => exact advances_literal _
  | name => exact advances_symbol _ _
  | empty => exact .of_silent (reaches_skipBlanks _).pos_le nofun

/-- The rounds of a rule begin where its operands have ended. -/
theorem Runs.rounds_call {rule : Rule} {c d : Cursor} {v : α} {es : List Event}
    (h : Runs A scope (.call rule) c ⟨.ok v, d, es⟩) (fs : List Event) :
    Event.rounds 0 (es ++ fs) = d.pos :: Event.rounds 0 fs := by
  have hbody : Runs A scope (.body rule) c (body A scope rule c) := runs_run (.body rule) c
  have hcall : Run.mk (.ok v) d es = (body A scope rule c).asCall rule c.pos :=
    (eq_run_of_runs h).trans (evaluate_eq rule c)
  generalize body A scope rule c = r at hbody hcall
  obtain ⟨o, e, gs⟩ := r
  cases hcall
  have hinside := hbody.advances.inside 0 (.returned rule c.pos e.pos :: fs) nofun
  show Event.rounds 0 (.entered rule c.pos :: (gs ++ [.returned rule c.pos e.pos]) ++ fs) = _
  rw [List.cons_append, List.append_assoc]
  exact hinside

variable (A scope)

/-- **A text is evaluated in a single pass.** Whether it has a value or not, each rule is entered
further and further on in the text, and each round of a loop begins further on than the one before.
So there are no more calls of a rule than places in the text, nor are there ever more in each other,
and the run ends: it is the only one that the rules allow. -/
theorem solve_single_pass (text : String) :
    let trace := (solve A scope text).trace
    (∀ rule, (Event.entries rule trace).Pairwise (· < ·) ∧
      (∀ pos ∈ Event.entries rule trace, pos ≤ text.length) ∧
      (Event.entries rule trace).length ≤ text.length + 1) ∧
    (∀ rule start after, .entered rule start :: after <:+ trace →
      (Event.rounds 0 after).Pairwise (· < ·)) ∧
    (∀ es, es <+: trace → ∀ rule, (Event.pending es).count rule ≤ text.length + 1) ∧
    ∃ run, run.trace = trace ∧ ∀ r, Runs A scope (.call .expression) (start text) r ↔ r = run := by
  intro trace
  let run : Run α := Task.run A scope (.call .expression) (start text)
  have hruns : Runs A scope (.call .expression) (start text) run := runs_run ..
  have htrace : trace = run.trace := solve_trace text
  have hadvances := hruns.advances
  have hend : run.cursor.pos ≤ text.length := hruns.reaches_of_call.pos_le_length
  have hentries (rule : Rule) : Climbs 0 text.length (Event.entries rule trace) := by
    rw [htrace]
    exact (hadvances.entries rule).mono (Nat.zero_le _) hend
  refine ⟨fun rule => ?_, fun rule start after hsuffix => ?_, fun es hes rule => ?_,
    run, htrace.symm, fun r => runs_iff⟩
  · exact ⟨(hentries rule).increasing, fun pos hpos => ((hentries rule).bounds pos hpos).2,
      (hentries rule).length_le⟩
  · have hloops : Event.Loops (run.trace ++ []) :=
      hadvances.loops [] (fun _ _ => rfl) Event.loops_nil
    rw [List.append_nil, ← htrace] at hloops
    exact hloops rule start after hsuffix
  · have hpending : (Event.pending es).count rule ≤ (Event.entries rule es).length :=
      Event.count_pending_le rule es
    have hsub : (Event.entries rule es).length ≤ (Event.entries rule trace).length :=
      (hes.sublist.filterMap _).length_le
    exact Nat.le_trans hpending (Nat.le_trans hsub (hentries rule).length_le)

/-- A sum of a product and two more operands, the last of which is missing. -/
theorem solve_single_pass_sum :
    let trace := (solve double .strict "1*2+3+").trace
    Event.entries .factor trace = [0, 2, 4, 6] ∧ Event.rounds 0 trace.tail = [3, 5] ∧
      (Event.rounds 0 trace.tail).Pairwise (· < ·) ∧
      (Event.pending trace).count .factor ≤ 7 := by
  intro trace
  have htrace : trace = .entered .expression 0 :: trace.tail := by decide +kernel
  obtain ⟨-, hloops, hpending, -⟩ := solve_single_pass double .strict "1*2+3+"
  exact ⟨by decide +kernel, by decide +kernel, hloops .expression 0 trace.tail ⟨[], htrace.symm⟩,
    hpending trace (List.prefix_refl _) .factor⟩

end Grammar

end Reckoner
