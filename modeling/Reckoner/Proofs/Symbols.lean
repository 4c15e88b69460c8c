import Reckoner.Proofs.Edit
import Reckoner.Proofs.Report
import Reckoner.Proofs.Spelling

/-!
# The symbols of a text

The names of a text are its longest runs of letters, each with its offset; `mem_names_iff` and
`names_sorted` say that they are all there, in order. The symbols are the names that are not those
of functions, so that something has to be found that they stand for.

A run of a rule *passes* the symbols between the places where it begins and ends (`Run.Passes`). It
looks up each of them once, in order, and no other: the names that it notes as missing are the
symbols among them that are in no table, and the one symbol that it can stop for is the last of them
(`Runs.passes`). So a run is the same in every scope that has the same for these symbols
(`Runs.rescope`).
-/

namespace Reckoner

namespace Cursor

variable {c d : Cursor} {x : Char}

/-! ### Names -/

/-- The longest runs of letters from the cursor on, in order, each with its offset. -/
def names (c : Cursor) : List (Nat × String) :=
  match _h : c.peek? with
  | none => []
  | some x =>
    if _hx : isLetter x then (c.pos, String.ofList (c.run isLetter)) :: (c.skip isLetter).names
    else c.next.names
termination_by c.rest.length
decreasing_by
  · exact skip_length_lt _h _hx
  · exact next_length_lt_of_peek? _h

theorem names_of_ended (h : c.peek? = none) : c.names = [] := by
  rw [names]
  split <;> simp_all

theorem names_of_letter (h : c.peek? = some x) (hx : isLetter x) :
    c.names = (c.pos, String.ofList (c.run isLetter)) :: (c.skip isLetter).names := by
  rw [names]
  split <;> simp_all

theorem names_of_other (h : c.peek? = some x) (hx : isLetter x = false) :
    c.names = c.next.names := by
  rw [names]
  split <;> simp_all

theorem skip_eq_next (p : Char → Bool) (h : c.peek? = some x) (hx : p x) :
    c.skip p = c.next.skip p := by
  obtain ⟨y, r, hr⟩ := List.exists_cons_of_ne_nil (ne_nil_of_peek? h)
  obtain rfl : y = x := by simpa [peek?, hr] using h
  simp [skip, run, next, hr, hx, Nat.add_comm, Nat.add_left_comm]

/-- No name begins in a run of another class. -/
theorem names_skip {p : Char → Bool} (hp : ∀ x, p x → isLetter x = false) (c : Cursor) :
    (c.skip p).names = c.names := by
  fun_induction names c with
  | case1 c h => rw [skip_of_peek? (by simp [h]), names_of_ended h]
  | case2 c x h hx =>
    have hpx : p x = false := by
      by_contra hpx
      rw [hp x (by simpa using hpx)] at hx
      cases hx
    rw [skip_of_peek? (by simpa [h] using hpx), names_of_letter h hx]
  | case3 c x h hx ih =>
    by_cases hpx : p x
    · rw [skip_eq_next p h hpx, ih]
    · rw [skip_of_peek? (by simpa [h] using hpx), names_of_other h (by simpa using hx)]

theorem peek?_extend {s : List Char} (h : c.peek? = some x) : (c.extend s).peek? = some x := by
  rw [peek?, extend, List.head?_append, show c.rest.head? = some x from h]
  rfl

/-- The names of a text are those before a cut and those behind it. -/
theorem names_extend {s : List Char} (ha : Apart c.rest s) :
    (c.extend s).names = c.names ++ (Cursor.mk (c.pos + c.rest.length) s).names := by
  fun_induction names c with
  | case1 c h =>
    have hr : c.rest = [] := List.head?_eq_none_iff.mp h
    simp [extend, hr]
  | case2 c x h hx ih =>
    have hb : (c.skip isLetter).Bounds isLetter s :=
      bounds_of_cut (fun _ _ hx hy => .inr ⟨hx, hy⟩) ha (.refl c) (run_ne_nil h hx)
    have hs := reaches_skip isLetter c
    rw [names_of_letter (peek?_extend h) hx, run_extend_of_bounds hb, skip_extend_of_bounds hb,
      ih (ha.of_suffix hs.suffix), hs.total]
    rfl
  | case3 c x h hx ih =>
    have hn := reaches_next (ne_nil_of_peek? h)
    have hnext : (c.extend s).next = c.next.extend s := by
      obtain ⟨y, r, hr⟩ := List.exists_cons_of_ne_nil (ne_nil_of_peek? h)
      simp [next, extend, hr]
    rw [names_of_other (peek?_extend h) (by simpa using hx), hnext, ih (ha.of_suffix hn.suffix),
      hn.total]

theorem pos_le_of_mem_names {n : Nat × String} (h : n ∈ c.names) : c.pos ≤ n.1 := by
  fun_induction names c with
  | case1 => cases h
  | case2 c x hx hl ih =>
    rcases List.mem_cons.mp h with rfl | h
    · exact Nat.le_refl _
    · exact (reaches_skip isLetter c).pos_le.trans (ih h)
  | case3 c x hx _ ih => exact (reaches_next (ne_nil_of_peek? hx)).pos_le.trans (ih h)

/-- The names stand in the order of their offsets. -/
theorem names_sorted (c : Cursor) : c.names.Pairwise fun m n => m.1 < n.1 := by
  fun_induction names c with
  | case1 => exact .nil
  | case2 c x hx hl ih =>
    refine .cons (fun n hn => ?_) ih
    have hlen := List.length_pos_of_ne_nil (run_ne_nil hx hl)
    exact Nat.lt_of_lt_of_le (Nat.lt_add_of_pos_right hlen) (pos_le_of_mem_names hn)
  | case3 _ _ _ _ ih => exact ih

theorem isRunAt_of_mem_names {l u : List Char} {n : Nat × String} (hl : l = u ++ c.rest)
    (hpos : c.pos = u.length)
    (hu : ∀ x ∈ u.getLast?, ∀ y ∈ c.rest.head?, isLetter y → isLetter x = false)
    (h : n ∈ c.names) : IsRunAt isLetter l n.2.toList n.1 := by
  fun_induction names c generalizing u with
  | case1 => cases h
  | case2 c x hx hx' ih =>
    have hrest : c.rest = c.run isLetter ++ (c.skip isLetter).rest :=
      List.takeWhile_append_dropWhile.symm
    rcases List.mem_cons.mp h with rfl | h
    · rw [String.toList_ofList]
      refine ⟨run_ne_nil hx hx', fun y hy => List.mem_takeWhile_imp hy, u,
        (c.skip isLetter).rest, ?_, hpos.symm, fun y hy => hu y hy x hx hx',
        fun y hy => peek?_skip hy⟩
      rw [← hrest, hl]
    · refine ih (u := u ++ c.run isLetter) ?_ ?_ (fun y hy z hz hzl => ?_) h
      · rw [List.append_assoc, ← hrest, hl]
      · rw [List.length_append, ← hpos]
        rfl
      · rw [show isLetter z = false from peek?_skip hz] at hzl
        cases hzl
  | case3 c x hx hx' ih =>
    obtain ⟨y, r, hr⟩ := List.exists_cons_of_ne_nil (ne_nil_of_peek? hx)
    obtain rfl : y = x := by simpa [peek?, hr] using hx
    refine ih (u := u ++ [y]) (by simp [hl, next, hr]) (by simp [next, hpos]) ?_ h
    intro z hz _ _ _
    obtain rfl : y = z := by simpa using hz
    simpa using hx'

end Cursor

open Cursor

/-- **The names of a text are its longest runs of letters.** -/
theorem mem_names_iff {l : List Char} {n : Nat × String} :
    n ∈ (Cursor.mk 0 l).names ↔ IsRunAt isLetter l n.2.toList n.1 := by
  constructor
  · exact isRunAt_of_mem_names (u := []) rfl rfl nofun
  · obtain ⟨o, w⟩ := n
    rintro ⟨hne, hw, u, v, rfl, rfl, hu, hv⟩
    obtain ⟨x, r, hr⟩ := List.exists_cons_of_ne_nil hne
    have hx : isLetter x := hw x (hr ▸ List.mem_cons_self)
    have hpeek : (Cursor.mk u.length (w.toList ++ v)).peek? = some x := by simp [peek?, hr]
    have hrun : (Cursor.mk u.length (w.toList ++ v)).run isLetter = w.toList :=
      takeWhile_append_of_all hw hv
    have ha : Apart u (w.toList ++ v) := by
      intro z hz y hy
      obtain rfl : x = y := Option.some.inj (hpeek.symm.trans hy)
      simp [Joins, hu z hz, Grammar.isNumeric_eq_false_of_isLetter hx]
    have hsplit := names_extend (c := ⟨0, u⟩) ha
    rw [Nat.zero_add, names_of_letter hpeek hx, hrun, String.ofList_toList] at hsplit
    have hmem : (u.length, w) ∈ ((Cursor.mk 0 u).extend (w.toList ++ v)).names := by
      rw [hsplit]
      exact List.mem_append_right _ List.mem_cons_self
    exact hmem

/-! ### Symbols -/

namespace Cursor

variable {c d : Cursor} {x : Char}

/-- The names from the cursor on that are not those of functions. -/
def symbols (c : Cursor) : List (Nat × String) :=
  c.names.filter fun n => (Func.ofName? n.2).isNone

theorem symbols_skip {p : Char → Bool} (hp : ∀ x, p x → isLetter x = false) (c : Cursor) :
    (c.skip p).symbols = c.symbols := by
  rw [symbols, names_skip hp, symbols]

theorem symbols_skipBlanks (c : Cursor) : c.skipBlanks.symbols = c.symbols :=
  symbols_skip (fun _ => not_isLetter_of_isBlank) c

theorem symbols_past (h : c.ahead? = some x) (hx : isLetter x = false) :
    c.past.symbols = c.symbols := by
  rw [← symbols_skipBlanks c, symbols, symbols, names_of_other h hx]
  rfl

theorem symbols_pastWord {f : Func} (h : c.function? = some f) :
    c.pastWord.symbols = c.symbols := by
  obtain ⟨x, hx, hl⟩ := exists_letter_of_function? h
  have hw : Func.ofName? (String.ofList (c.skipBlanks.run isLetter)) = some f := h
  rw [← symbols_skipBlanks c, symbols, symbols, names_of_letter hx hl,
    List.filter_cons_of_neg (by simp [hw])]
  rfl

theorem symbols_of_symbol (h : c.ahead? = some x) (hx : isLetter x) (hf : c.function? = none) :
    c.symbols = (c.skipBlanks.pos, String.ofList c.word) :: c.pastWord.symbols := by
  have hw : Func.ofName? (String.ofList (c.skipBlanks.run isLetter)) = none := hf
  rw [← symbols_skipBlanks c, symbols, names_of_letter h hx,
    List.filter_cons_of_pos (by simp [hw])]
  rfl

end Cursor

/-- The symbols of a text, each with its offset: its longest runs of letters, but for the names of
functions. -/
def symbols (text : List Char) : List (Nat × String) := (Cursor.mk 0 text).symbols

theorem end_le_of_mem_symbols {l : List Char} {n : Nat × String} (h : n ∈ symbols l) :
    n.1 + n.2.length ≤ l.length := by
  obtain ⟨-, -, u, v, hl, hu, -⟩ := mem_names_iff.mp (List.mem_of_mem_filter h)
  rw [hl, List.length_append, List.length_append, hu, String.length_toList]
  omega

/-- The symbols of a text are those before a cut and those behind it. -/
theorem Cursor.Cuts.symbols {l : List Char} {e : Cursor} (he : Cuts ⟨0, l⟩ e) :
    Reckoner.symbols l = Reckoner.symbols (l.take e.pos) ++ e.symbols := by
  obtain ⟨u, hl, hpos, hcut⟩ := he.exists_take
  have hsplit := names_extend (c := ⟨0, u⟩) hcut
  have he' : Cursor.mk (0 + u.length) e.rest = e := by rw [Nat.zero_add, ← hpos]
  have hl' : (Cursor.mk 0 u).extend e.rest = ⟨0, l⟩ := by rw [Cursor.extend, hl]
  rw [he', hl'] at hsplit
  rw [hpos, show l.take u.length = u by rw [hl, List.take_left], Reckoner.symbols,
    Cursor.symbols, hsplit, List.filter_append]
  rfl

/-! ### The symbols that a run passes -/

namespace Scope

/-- `name` stands for zero, because it is in no table. -/
def misses (scope : Scope α) (name : String) : Bool :=
  match scope.resolve name with
  | .missing => true
  | _ => false

/-- `name` stands for nothing. -/
def refuses (scope : Scope α) (name : String) : Bool :=
  match scope.resolve name with
  | .unknown => true
  | _ => false

end Scope

/-- The name that an event finds missing. -/
def Event.missing? : Event → Option String
  | .defaulted name => some name
  | _ => none

namespace Run

variable {α β γ : Type} {scope : Scope γ} {c d : Cursor} {r : Run α} {ns ms : List (Nat × String)}

/-- The names that a run finds missing. -/
def missing (r : Run α) : List String := r.trace.filterMap Event.missing?

/-- The symbol that a run stops for, with its offset. -/
def unknown (r : Run α) : List (Nat × String) :=
  match r.outcome with
  | .error ⟨.unknownSymbol name, o⟩ => [(o, name)]
  | _ => []

/-- The run `r` from `c` passes the symbols `ns`, and has looked up each of them. -/
structure Passes (scope : Scope γ) (c : Cursor) (r : Run α) (ns : List (Nat × String)) : Prop where
  symbols : c.symbols = ns ++ r.cursor.symbols
  missing : r.missing = (ns.map Prod.snd).filter scope.misses
  unknown : r.unknown = ns.filter fun n => scope.refuses n.2

namespace Passes

theorem since (h : c.symbols = d.symbols) (hr : r.Passes scope d ns) : r.Passes scope c ns :=
  ⟨h.trans hr.symbols, hr.missing, hr.unknown⟩

/-- A run that looks nothing up passes no symbol. -/
theorem of_silent (hs : c.symbols = r.cursor.symbols) (ht : r.trace = []) (hu : r.unknown = []) :
    r.Passes scope c [] :=
  ⟨hs, by rw [Run.missing, ht]; rfl, hu⟩

theorem asCall (rule : Rule) (n : Nat) (h : r.Passes scope c ns) :
    (r.asCall rule n).Passes scope c ns := by
  refine ⟨h.symbols, ?_, h.unknown⟩
  rw [← h.missing]
  -- a call is entered and returned from, which finds nothing missing
  obtain ⟨⟨f⟩ | ⟨v⟩, d, es⟩ := r <;> exact List.filterMap_append.trans (List.append_nil _)

theorem map (f : α → β) (h : r.Passes scope c ns) : (r.map f).Passes scope c ns := by
  refine ⟨h.symbols, h.missing, ?_⟩
  rw [← h.unknown]
  obtain ⟨⟨cause, o⟩ | ⟨v⟩, d, es⟩ := r
  · cases cause <;> rfl
  · rfl

/-- A run that goes on after another one passes the symbols of both. -/
theorem after {v : β} {es : List Event} (h : (Run.mk (.ok v) d es).Passes scope c ns)
    (hr : r.Passes scope d ms) : (r.after es).Passes scope c (ns ++ ms) where
  symbols := by rw [h.symbols, hr.symbols, List.append_assoc, Run.after_cursor]
  missing := by
    rw [List.map_append, List.filter_append, ← h.missing, ← hr.missing]
    exact List.filterMap_append
  unknown := by
    rw [List.filter_append, ← h.unknown, ← hr.unknown]
    rfl

end Passes

end Run

namespace Grammar

variable {α : Type} {A : Arithmetic α} {scope : Scope α} {c : Cursor}

theorem literal_passes (c : Cursor) : (literal A c).Passes scope c [] := by
  have hs : (c.skip isNumeric).symbols = c.symbols :=
    symbols_skip (fun _ => not_isLetter_of_isNumeric) c
  rcases hl : Decimal.ofRun? (c.run isNumeric) with _ | n
  · rw [literal_eq_fail hl]
    exact .of_silent hs.symm rfl rfl
  · rw [literal_eq_done hl]
    exact .of_silent hs.symm rfl rfl

theorem symbol_passes {name : String} (h : c.symbols = (c.pos, name) :: (c.skip isLetter).symbols) :
    (symbol A scope name c).Passes scope c [(c.pos, name)] := by
  rw [symbol_eq]
  cases hn : scope.resolve name <;>
    exact ⟨h, by simp [Run.missing, Run.done, Run.note, Run.fail, Event.missing?, Scope.misses, hn],
      by simp [Run.unknown, Run.done, Run.note, Run.fail, Scope.refuses, hn]⟩

theorem close_passes (v : α) (c : Cursor) : (close v c).Passes scope c [] := by
  rcases hx : c.ahead? with _ | x
  · rw [close_eq_end hx]
    exact .of_silent (symbols_skipBlanks c).symm rfl rfl
  · by_cases hp : x = ')'
    · subst hp
      rw [close_eq_done hx]
      exact .of_silent (symbols_past hx (by decide)).symm rfl rfl
    · rw [close_eq_mismatch hx hp]
      exact .of_silent (symbols_skipBlanks c).symm rfl rfl

/-- **A run has looked up the symbols that it passes**, and no others. -/
theorem Runs.passes {t : Task α} {r : Run α} (h : Runs A scope t c r)
    (hp : t = .primary → c.StartsPrimary) : ∃ ns, r.Passes scope c ns := by
  have hop {rule : Rule} {c : Cursor} {x : Char} {op : Operator} (hx : c.ahead? = some x)
      (h : rule.operator? x = some op) : c.symbols = c.past.symbols :=
    (symbols_past hx (isLetter_eq_false_of_isMark (Rule.isMark_of_operator? h))).symm
  have hmark {c : Cursor} {x : Char} (hx : c.ahead? = some x) (h : isLetter x = false) :
      c.symbols = c.past.symbols := (symbols_past hx h).symm
  induction h with
  | call _ ih =>
    obtain ⟨ns, h⟩ := ih nofun
    exact ⟨ns, h.asCall ..⟩
  | operandFails _ _ ih => exact ih nofun
  | operand _ _ _ ih iht =>
    obtain ⟨ns, h⟩ := ih nofun
    obtain ⟨ms, ht⟩ := iht nofun
    exact ⟨ns ++ ms, h.after ht⟩
  | stop => exact ⟨[], .of_silent (symbols_skipBlanks _).symm rfl rfl⟩
  | stepFails hx hx' _ ih =>
    obtain ⟨ns, h⟩ := ih nofun
    exact ⟨ns, h.since (hop hx hx')⟩
  | step hx hx' _ _ ih iht =>
    obtain ⟨ns, h⟩ := ih nofun
    obtain ⟨ms, ht⟩ := iht nofun
    exact ⟨ns ++ ms, (h.since (hop hx hx')).after ht⟩
  | plus hx _ ih =>
    obtain ⟨ns, h⟩ := ih nofun
    exact ⟨ns, h.since (hmark hx (by decide))⟩
  | minus hx _ ih =>
    obtain ⟨ns, h⟩ := ih nofun
    exact ⟨ns, (h.since (hmark hx (by decide))).map _⟩
  | apply hf _ ih =>
    obtain ⟨ns, h⟩ := ih nofun
    exact ⟨ns, (h.since (symbols_pastWord hf).symm).map _⟩
  | primaryFails hc _ ih => exact ih fun _ => hc
  | primary hc _ _ ih ihp =>
    obtain ⟨ns, h⟩ := ih fun _ => hc
    obtain ⟨ms, hp⟩ := ihp nofun
    exact ⟨ns ++ ms, h.after hp⟩
  | noPower => exact ⟨[], .of_silent (symbols_skipBlanks _).symm rfl rfl⟩
  | raise hx _ ih =>
    obtain ⟨ns, h⟩ := ih nofun
    exact ⟨ns, (h.since (hmark hx (by decide))).map _⟩
  | ended => exact ⟨[], .of_silent (symbols_skipBlanks _).symm rfl rfl⟩
  | groupFails hx _ ih =>
    obtain ⟨ns, h⟩ := ih nofun
    exact ⟨ns, h.since (hmark hx (by decide))⟩
  | group hx _ ih =>
    obtain ⟨ns, h⟩ := ih nofun
    exact ⟨ns ++ [], (h.since (hmark hx (by decide))).after (close_passes ..)⟩
  | literal => exact ⟨[], (literal_passes _).since (symbols_skipBlanks _).symm⟩
  | name hx hl =>
    have hs := symbols_of_symbol hx hl (hp rfl).function
    rw [← symbols_skipBlanks] at hs
    exact ⟨_, (symbol_passes hs).since (symbols_skipBlanks _).symm⟩
  | empty => exact ⟨[], .of_silent (symbols_skipBlanks _).symm rfl rfl⟩

/-- What is passed in two steps is what the one and the other pass. -/
theorem symbols_split {d e : Cursor} {ns : List (Nat × String)} (h : d.symbols <:+ c.symbols)
    (k : e.symbols <:+ d.symbols) (hs : c.symbols = ns ++ e.symbols) :
    ∃ ms ks, c.symbols = ms ++ d.symbols ∧ d.symbols = ks ++ e.symbols ∧ ns = ms ++ ks := by
  obtain ⟨ms, hms⟩ := h
  obtain ⟨ks, hks⟩ := k
  have hcat : ns ++ e.symbols = (ms ++ ks) ++ e.symbols := by
    rw [← hs, ← hms, ← hks, List.append_assoc]
  exact ⟨ms, ks, hms.symm, hks.symm, List.append_cancel_right hcat⟩

theorem Runs.symbols_suffix {t : Task α} {r : Run α} (h : Runs A scope t c r)
    (hp : t = .primary → c.StartsPrimary) : r.cursor.symbols <:+ c.symbols := by
  obtain ⟨ns, h⟩ := h.passes hp
  exact ⟨ns, h.symbols.symm⟩

/-- **A run is one in every scope that has the same for the symbols it passes.** -/
theorem Runs.rescope {scope' : Scope α} {t : Task α} {r : Run α} {ns : List (Nat × String)}
    (h : Runs A scope t c r) (hp : t = .primary → c.StartsPrimary)
    (hs : c.symbols = ns ++ r.cursor.symbols)
    (hn : ∀ n ∈ ns, scope'.resolve n.2 = scope.resolve n.2) : Runs A scope' t c r := by
  have hop {rule : Rule} {c : Cursor} {x : Char} {op : Operator} (hx : c.ahead? = some x)
      (h : rule.operator? x = some op) : c.past.symbols = c.symbols :=
    symbols_past hx (isLetter_eq_false_of_isMark (Rule.isMark_of_operator? h))
  induction h generalizing ns with
  | call _ ih => exact .call (ih nofun hs hn)
  | operandFails hrule _ ih => exact .operandFails hrule (ih nofun hs hn)
  | operand hrule h ht ih iht =>
    obtain ⟨ms, ks, hms, hks, rfl⟩ :=
      symbols_split (h.symbols_suffix nofun) (ht.symbols_suffix nofun) hs
    obtain ⟨hm, hk⟩ := List.forall_mem_append.mp hn
    exact .operand hrule (ih nofun hms hm) (iht nofun hks hk)
  | stop hx => exact .stop hx
  | stepFails hx hop' _ ih => exact .stepFails hx hop' (ih nofun ((hop hx hop').trans hs) hn)
  | step hx hop' h ht ih iht =>
    obtain ⟨ms, ks, hms, hks, rfl⟩ := symbols_split (h.symbols_suffix nofun)
      (ht.symbols_suffix nofun) ((hop hx hop').trans hs)
    obtain ⟨hm, hk⟩ := List.forall_mem_append.mp hn
    exact .step hx hop' (ih nofun hms hm) (iht nofun hks hk)
  | plus hx _ ih => exact .plus hx (ih nofun ((symbols_past hx (by decide)).trans hs) hn)
  | minus hx _ ih => exact .minus hx (ih nofun ((symbols_past hx (by decide)).trans hs) hn)
  | apply hf _ ih => exact .apply hf (ih nofun ((symbols_pastWord hf).trans hs) hn)
  | primaryFails hc _ ih => exact .primaryFails hc (ih (fun _ => hc) hs hn)
  | primary hc h hpow ih ihp =>
    obtain ⟨ms, ks, hms, hks, rfl⟩ :=
      symbols_split (h.symbols_suffix fun _ => hc) (hpow.symbols_suffix nofun) hs
    obtain ⟨hm, hk⟩ := List.forall_mem_append.mp hn
    exact .primary hc (ih (fun _ => hc) hms hm) (ihp nofun hks hk)
  | noPower hx => exact .noPower hx
  | raise hx _ ih => exact .raise hx (ih nofun ((symbols_past hx (by decide)).trans hs) hn)
  | ended hx => exact .ended hx
  | groupFails hx _ ih =>
    exact .groupFails hx (ih nofun ((symbols_past hx (by decide)).trans hs) hn)
  | @group c v d es hx h ih =>
    have hclose : (close v d).Passes scope d [] := close_passes v d
    have hpast : c.past.symbols = ns ++ d.symbols := by
      rw [symbols_past hx (by decide), hclose.symbols]
      exact hs
    exact .group hx (ih nofun hpast hn)
  | literal hx hl => exact .literal hx hl
  | @name c x hx hl =>
    rw [symbol_cursor, symbols_of_symbol hx hl (hp rfl).function] at hs
    have hns : [(c.skipBlanks.pos, String.ofList c.word)] = ns := List.append_cancel_right hs
    have hname : scope'.resolve (String.ofList c.word) = scope.resolve (String.ofList c.word) :=
      hn _ (hns ▸ List.mem_cons_self)
    rw [symbol_eq, ← hname, ← symbol_eq]
    exact .name hx hl
  | empty hx ho => exact .empty hx ho

end Grammar

/-! ### Whole texts -/

theorem Fault.LiesAt.symbols {f : Fault} {e d : Cursor} (h : f.LiesAt e d)
    (hf : ∀ name, f.cause ≠ .unknownSymbol name) : d.symbols = e.symbols := by
  cases h with
  | numberFormat => exact symbols_skip (fun _ => not_isLetter_of_isNumeric) e
  | unknownSymbol => exact absurd rfl (hf _)
  | unexpectedEnd | unexpectedCharacter | trailingInput => rfl

namespace Solver

open Grammar

variable {s : Solver}

/-- How far the outcome of a text goes: to its end if it has a value, and else to the offset of the
failure. -/
def extent (s : Solver) : Nat :=
  match s.solve.value with
  | .ok _ => s.expression.length
  | .error e => (e.offset.getD 0).toNat

theorem extent_of_value {v : Float} (h : s.solve.value = .ok v) :
    s.extent = s.expression.length := by
  rw [extent, h]

theorem Fails.extent_eq {f : Fault} (h : s.Fails f) : s.extent = f.offset := by
  rw [extent, show s.solve.value = _ from h]
  rfl

/-- The run of a text passes the symbols within its extent. -/
theorem symbols_eq {r : Run Float}
    (hr : Runs double s.scope (.call .expression) (.start s.expression) r)
    (hs : ∀ f, s.Fails f → ∀ name, f.cause ≠ .unknownSymbol name) :
    symbols s.expression.toList =
      symbols (s.expression.toList.take s.extent) ++ r.cursor.symbols := by
  obtain ⟨⟨f⟩ | ⟨v⟩, d, es⟩ := r
  · have hf : s.Fails f := fails_iff.mpr (.inl ⟨d, es, hr⟩)
    obtain ⟨e, he, hl⟩ := hr.liesAt rfl nofun
    rw [hf.extent_eq, hl.offset_eq, hl.symbols (hs f hf)]
    exact he.symbols
  · have hd : s.extent = d.pos := by
      by_cases hend : d.rest = []
      · have hv : s.solve.value = .ok v :=
          solve_value_eq_ok_iff.mpr (solve_outcome_eq_ok_iff.mpr ⟨d, es, hr, hend⟩)
        have htotal := hr.reaches_of_call.total
        rw [hend, List.length_nil, Nat.add_zero] at htotal
        rw [extent_of_value hv, htotal, start, Nat.zero_add, String.length_toList]
      · have hf : s.Fails ⟨.trailingInput, d.pos⟩ :=
          fails_iff.mpr (.inr ⟨v, d, es, hr, hend, rfl⟩)
        exact hf.extent_eq
    rw [hd]
    exact (hr.cuts rfl).symbols

end Solver

end Reckoner
