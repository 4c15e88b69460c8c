import Mathlib.Data.List.TakeWhile
import Mathlib.Data.Nat.Find
import Reckoner.Release

/-!
# Where the release number is found

`Sets s b` says how a text `s` begins that sets the number `b`: the word, the equals sign with space
on both sides, and `b` between quotation marks. It is stated by what stands there and not by a scan,
so space and number may be of any length and go over any number of lines.

The scan for such a beginning goes from character to character, and does not skip what it has looked
at in vain: a setting that fails late may span the line on which the next one begins. So the setting
that it finds is the one with the least index of all that there are (`find?_eq_some_iff`), and if it
finds none there is none (`find?_eq_none_iff`). `number_eq_first` says so of the release number, and
`number_manifest` finds the number of this release in its manifest.
-/

namespace Reckoner.Release

open Text (isSeparator)

/-! ### Settings -/

/-- `s` begins by setting the number `b`. -/
def Sets (s b : List Char) : Prop :=
  ∃ (left right rest : List Char) (opening closing : Char),
    s = "version".toList ++ (left ++ '=' :: (right ++ opening :: (b ++ closing :: rest))) ∧
      (∀ x ∈ left, isSeparator x) ∧ (∀ x ∈ right, isSeparator x) ∧
      isMark opening ∧ isMark closing ∧ b ≠ [] ∧ ∀ x ∈ b, isMark x = false

/-- Whether a line of `s` begins at an index. `lineStart` says whether `s` itself is the beginning
of a line. -/
def BeginsLine (lineStart : Bool) (s : List Char) : Nat → Prop
  | 0 => lineStart = true
  | i + 1 => s[i]? = some '\n'

instance (lineStart : Bool) (s : List Char) : ∀ i, Decidable (BeginsLine lineStart s i)
  | 0 => inferInstanceAs (Decidable (lineStart = true))
  | i + 1 => inferInstanceAs (Decidable (s[i]? = some '\n'))

/-- At the index `i` of `s` a line begins by setting the number `b`. -/
def SetsAt (lineStart : Bool) (s : List Char) (i : Nat) (b : List Char) : Prop :=
  BeginsLine lineStart s i ∧ Sets (s.drop i) b

/-! ### What is read of a setting -/

theorem after?_eq_some_iff {word s r : List Char} : after? word s = some r ↔ s = word ++ r := by
  unfold after?
  split_ifs with h
  · obtain ⟨t, rfl⟩ := List.isPrefixOf_iff_prefix.mp h
    simp
  · constructor
    · intro h'
      cases h'
    · rintro rfl
      exact absurd (List.isPrefixOf_iff_prefix.mpr (List.prefix_append word r)) h

/-- What is read after a gap begins with a character that does not belong to the gap. -/
theorem dropWhile_eq_some_iff {f : List Char → Option β} {p : Char → Bool} {s : List Char} {b : β}
    (hf : ∀ r b, f r = some b → ∀ x ∈ r.head?, p x = false) :
    f (s.dropWhile p) = some b ↔ ∃ gap r, s = gap ++ r ∧ (∀ x ∈ gap, p x) ∧ f r = some b := by
  constructor
  · intro h
    exact ⟨s.takeWhile p, s.dropWhile p, List.takeWhile_append_dropWhile.symm,
      fun x hx => List.mem_takeWhile_imp hx, h⟩
  · rintro ⟨gap, r, rfl, hgap, h⟩
    rw [List.dropWhile_append_of_pos hgap]
    cases r with
    | nil => exact h
    | cons x r => rwa [List.dropWhile_cons_of_neg (by simp [hf _ _ h x rfl])]

theorem isSeparator_eq_false_of_isMark {x : Char} (h : isMark x) : isSeparator x = false := by
  simp only [isMark, Bool.or_eq_true, beq_iff_eq] at h
  rcases h with rfl | rfl <;> decide

theorem quoted?_eq_some_iff {s b : List Char} :
    quoted? s = some b ↔ ∃ (opening closing : Char) (rest : List Char),
      s = opening :: (b ++ closing :: rest) ∧ isMark opening ∧ isMark closing ∧ b ≠ [] ∧
        ∀ x ∈ b, isMark x = false := by
  cases s with
  | nil => simp [quoted?]
  | cons opening s =>
    have hsplit : s.takeWhile (!isMark ·) ++ s.dropWhile (!isMark ·) = s :=
      List.takeWhile_append_dropWhile
    simp only [quoted?, Option.ite_none_right_eq_some, Bool.and_eq_true, Bool.not_eq_true',
      List.isEmpty_eq_false_iff, decide_eq_true_eq, Option.some.injEq]
    constructor
    · rintro ⟨⟨⟨hopening, hne⟩, hlt⟩, rfl⟩
      -- the number is followed by a mark, since the text does not end with it
      obtain ⟨closing, rest, hrest⟩ :
          ∃ closing rest, s.dropWhile (!isMark ·) = closing :: rest := by
        refine List.exists_cons_of_ne_nil fun h => ?_
        have hlen := congrArg List.length hsplit
        rw [h, List.append_nil] at hlen
        omega
      have hclosing : isMark closing := by
        have h := List.head?_dropWhile_not (!isMark ·) s
        simpa [hrest] using h
      refine ⟨opening, closing, rest, ?_, hopening, hclosing, hne, fun x hx => ?_⟩
      · rw [← hrest, hsplit]
      · simpa using List.mem_takeWhile_imp hx
    · rintro ⟨_, closing, rest, h, hopening, hclosing, hne, hb⟩
      obtain ⟨rfl, rfl⟩ := List.cons.inj h
      have hbody : (b ++ closing :: rest).takeWhile (!isMark ·) = b := by
        rw [List.takeWhile_append_of_pos (by simpa using hb),
          List.takeWhile_cons_of_neg (by simp [hclosing]), List.append_nil]
      rw [hbody]
      refine ⟨⟨⟨hopening, hne⟩, ?_⟩, rfl⟩
      rw [List.length_append, List.length_cons]
      omega

/-- **What sets a number.** -/
theorem setting?_eq_some_iff {s b : List Char} : setting? s = some b ↔ Sets s b := by
  have hquoted (s : List Char) : quoted? (s.dropWhile isSeparator) = some b ↔
      ∃ gap r, s = gap ++ r ∧ (∀ x ∈ gap, isSeparator x) ∧ quoted? r = some b := by
    refine dropWhile_eq_some_iff fun r b h x hx => ?_
    obtain ⟨opening, closing, rest, rfl, hopening, -⟩ := quoted?_eq_some_iff.mp h
    obtain rfl : opening = x := Option.some.inj hx
    exact isSeparator_eq_false_of_isMark hopening
  have hequals (s t : List Char) : after? ['='] (s.dropWhile isSeparator) = some t ↔
      ∃ gap r, s = gap ++ r ∧ (∀ x ∈ gap, isSeparator x) ∧ after? ['='] r = some t := by
    refine dropWhile_eq_some_iff fun r t h x hx => ?_
    rw [after?_eq_some_iff] at h
    subst h
    obtain rfl : '=' = x := Option.some.inj hx
    decide
  simp only [setting?, Option.bind_eq_bind, Option.bind_eq_some_iff, after?_eq_some_iff, hequals,
    hquoted, quoted?_eq_some_iff, Sets]
  constructor
  · rintro ⟨_, rfl, _, ⟨left, _, rfl, hleft, rfl⟩, right, _, rfl, hright, opening, closing, rest,
      rfl, h⟩
    exact ⟨left, right, rest, opening, closing, rfl, hleft, hright, h⟩
  · rintro ⟨left, right, rest, opening, closing, rfl, hleft, hright, h⟩
    exact ⟨_, rfl, _, ⟨left, _, rfl, hleft, rfl⟩, right, _, rfl, hright, opening, closing, rest,
      rfl, h⟩

/-- A setting sets one number only. -/
theorem Sets.unique {s b b' : List Char} (h : Sets s b) (h' : Sets s b') : b = b' := by
  rw [← setting?_eq_some_iff] at h h'
  exact Option.some.inj (h.symm.trans h')

/-! ### The first setting -/

variable {lineStart : Bool} {s b : List Char} {c : Char}

theorem setsAt_zero : SetsAt lineStart s 0 b ↔ lineStart = true ∧ Sets s b := Iff.rfl

theorem setsAt_succ {i : Nat} : SetsAt lineStart (c :: s) (i + 1) b ↔ SetsAt (c == '\n') s i b := by
  unfold SetsAt
  cases i with
  | zero => simp [BeginsLine]
  | succ i => simp [BeginsLine]

theorem not_setsAt_nil {i : Nat} : ¬ SetsAt lineStart [] i b := by
  rintro ⟨-, left, right, rest, opening, closing, h, -⟩
  rw [List.drop_nil] at h
  cases h

/-- What is found at the beginning of a text is what is set there, at the beginning of a line. -/
theorem head_eq_some_iff :
    (if lineStart then setting? s else none) = some b ↔ SetsAt lineStart s 0 b := by
  rw [setsAt_zero, ← setting?_eq_some_iff, Option.ite_none_right_eq_some]

/-- **If there is a setting, the first one is found.** -/
theorem find?_eq_some_iff : find? lineStart s = some b ↔
    ∃ i, SetsAt lineStart s i b ∧ ∀ j < i, ∀ b', ¬ SetsAt lineStart s j b' := by
  induction s generalizing lineStart with
  | nil => simp [find?, not_setsAt_nil]
  | cons c s ih =>
    rw [find?]
    rcases hhead : if lineStart then setting? (c :: s) else none with _ | number
    · have hzero (b' : List Char) : ¬ SetsAt lineStart (c :: s) 0 b' := by
        rw [← head_eq_some_iff, hhead]
        exact nofun
      simp only [ih]
      constructor
      · rintro ⟨i, hi, hleast⟩
        refine ⟨i + 1, setsAt_succ.mpr hi, fun j hj b' hb' => ?_⟩
        cases j with
        | zero => exact hzero b' hb'
        | succ j => exact hleast j (by omega) b' (setsAt_succ.mp hb')
      · rintro ⟨i, hi, hleast⟩
        cases i with
        | zero => exact absurd hi (hzero b)
        | succ i =>
          refine ⟨i, setsAt_succ.mp hi, fun j hj b' hb' => ?_⟩
          exact hleast (j + 1) (by omega) b' (setsAt_succ.mpr hb')
    · have hzero : SetsAt lineStart (c :: s) 0 number := head_eq_some_iff.mp hhead
      simp only [Option.some.injEq]
      constructor
      · rintro rfl
        exact ⟨0, hzero, by simp⟩
      · rintro ⟨i, hi, hleast⟩
        rcases Nat.eq_zero_or_pos i with rfl | hpos
        · exact hzero.2.unique hi.2
        · exact absurd hzero (hleast 0 hpos number)

/-- Of the settings that there are, one is the first. -/
theorem exists_first {i : Nat} (h : SetsAt lineStart s i b) :
    ∃ j b', SetsAt lineStart s j b' ∧ ∀ k < j, ∀ b'', ¬ SetsAt lineStart s k b'' := by
  classical
  have hex : ∃ j, ∃ b', SetsAt lineStart s j b' := ⟨i, b, h⟩
  obtain ⟨b', hb'⟩ := Nat.find_spec hex
  exact ⟨Nat.find hex, b', hb', fun k hk b'' hb'' => Nat.find_min hex hk ⟨b'', hb''⟩⟩

/-- Nothing is found only where there is no setting. -/
theorem find?_eq_none_iff : find? lineStart s = none ↔ ∀ i b, ¬ SetsAt lineStart s i b := by
  rw [Option.eq_none_iff_forall_ne_some]
  constructor
  · intro h i b hb
    obtain ⟨j, b', hfirst⟩ := exists_first hb
    exact h b' (find?_eq_some_iff.mpr ⟨j, hfirst⟩)
  · intro h b hb
    obtain ⟨i, hi, -⟩ := find?_eq_some_iff.mp hb
    exact h i b hi

/-! ### The number of the release -/

/-- **The number is the first that the manifest sets**, line breaks being unified. If it sets none
or there is no manifest, the number is the installed one, and `0.0.0` if there is none either. -/
theorem number_eq_first (manifest installed : Option String) :
    (∀ text ∈ manifest, ∀ i b, SetsAt true (unifyBreaks text.toList) i b →
      (∀ j < i, ∀ b', ¬ SetsAt true (unifyBreaks text.toList) j b') →
        number manifest installed = String.ofList b ∧
          ∀ b', SetsAt true (unifyBreaks text.toList) i b' → b' = b) ∧
    ((∀ text ∈ manifest, ∀ i b, ¬ SetsAt true (unifyBreaks text.toList) i b) →
      number manifest installed = installed.getD "0.0.0") := by
  constructor
  · rintro text rfl i b hi hleast
    have hfind : find? true (unifyBreaks text.toList) = some b :=
      find?_eq_some_iff.mpr ⟨i, hi, hleast⟩
    refine ⟨?_, fun b' hb' => hb'.2.unique hi.2⟩
    simp only [number, Option.bind_some, hfind]
  · intro h
    have hfind : (manifest.bind fun text => find? true (unifyBreaks text.toList)) = none := by
      rw [Option.bind_eq_none_iff]
      exact fun text htext => find?_eq_none_iff.mpr (h text htext)
    simp only [number, hfind]

/-- Of three lines that begin with the word, the first has an empty number. The second has no
opening mark, and what is looked at for it goes on to the third, which sets the number. -/
theorem number_eq_first_third :
    let manifest := "version = \x27\x27\rversion =\r\nversion\n= \x272.1\x22"
    SetsAt true (unifyBreaks manifest.toList) 23 ['2', '.', '1'] ∧
      (∀ j < 23, ∀ b, ¬ SetsAt true (unifyBreaks manifest.toList) j b) ∧
      number (some manifest) (some "1.0") = "2.1" := by
  intro manifest
  have hset : SetsAt true (unifyBreaks manifest.toList) 23 ['2', '.', '1'] :=
    ⟨by decide +kernel, setting?_eq_some_iff.mp (by decide +kernel)⟩
  have hnone : ∀ j < 23, BeginsLine true (unifyBreaks manifest.toList) j →
      setting? ((unifyBreaks manifest.toList).drop j) = none := by decide +kernel
  have hleast : ∀ j < 23, ∀ b, ¬ SetsAt true (unifyBreaks manifest.toList) j b := by
    rintro j hj b ⟨hline, hb⟩
    rw [← setting?_eq_some_iff, hnone j hj hline] at hb
    cases hb
  exact ⟨hset, hleast, ((number_eq_first _ _).1 manifest rfl 23 _ hset hleast).1⟩

/-! ### This release -/

theorem unifyBreaks_append {s : List Char} (h : '\r' ∉ s) (t : List Char) :
    unifyBreaks (s ++ t) = s ++ unifyBreaks t := by
  induction s with
  | nil => rfl
  | cons c s ih =>
    obtain ⟨hc, hs⟩ := List.ne_and_not_mem_of_not_mem_cons h
    rw [List.cons_append, unifyBreaks, ih hs]
    · rfl
    · exact fun _ hr _ => hc hr.symm
    · exact fun hr => hc hr.symm

theorem Sets.word_isPrefix (h : Sets s b) : "version".toList <+: s := by
  obtain ⟨left, right, rest, opening, closing, rfl, -⟩ := h
  exact List.prefix_append _ _

/-- A word without a line feed that a text begins with stands on the first line. -/
theorem isPrefix_line {word l : List Char} (hw : '\n' ∉ word) (s : List Char)
    (h : word <+: l ++ '\n' :: s) : word <+: l := by
  have hline : l ++ ['\n'] <+: l ++ '\n' :: s := ⟨s, by simp⟩
  rcases List.prefix_or_prefix_of_prefix h hline with hp | hp
  · refine (List.prefix_concat_iff.mp hp).resolve_left fun heq => hw ?_
    rw [heq]
    simp
  · exact absurd (hp.subset (by simp)) hw

theorem find?_false_line {l : List Char} (hl : '\n' ∉ l) (s : List Char) :
    find? false (l ++ '\n' :: s) = find? true s := by
  induction l with
  | nil => rfl
  | cons c l ih =>
    obtain ⟨hc, hl⟩ := List.ne_and_not_mem_of_not_mem_cons hl
    have hstart : (c == '\n') = false := beq_false_of_ne hc.symm
    rw [List.cons_append, find?, hstart]
    exact ih hl

theorem find?_true_of_none {s : List Char} (h : setting? s = none) :
    find? true s = find? false s := by
  cases s with
  | nil => rfl
  | cons c s =>
    rw [find?, find?, h]
    rfl

/-- A line that does not begin with the word is passed over. -/
theorem find?_line {l : List Char} (hl : '\n' ∉ l) (hw : ¬ "version".toList <+: l)
    (s : List Char) : find? true (l ++ '\n' :: s) = find? true s := by
  have hnone : setting? (l ++ '\n' :: s) = none := by
    rw [Option.eq_none_iff_forall_ne_some]
    intro b hb
    have hword := (setting?_eq_some_iff.mp hb).word_isPrefix
    exact hw (isPrefix_line (by decide) s hword)
  exact (find?_true_of_none hnone).trans (find?_false_line hl s)

theorem find?_lines {ls : List (List Char)}
    (h : ∀ l ∈ ls, '\n' ∉ l ∧ ¬ "version".toList <+: l) (s : List Char) :
    find? true (ls.flatMap (· ++ ['\n']) ++ s) = find? true s := by
  induction ls with
  | nil => rfl
  | cons l ls ih =>
    obtain ⟨⟨hl, hw⟩, hls⟩ := List.forall_mem_cons.mp h
    rw [List.flatMap_cons, List.append_assoc, List.append_assoc]
    exact (find?_line hl hw _).trans (ih hls)

/-- A number that is set with single spaces and double quotation marks. -/
theorem sets_line (hne : b ≠ []) (hb : ∀ x ∈ b, isMark x = false) (rest : List Char) :
    Sets ("version = \"".toList ++ (b ++ '\x22' :: rest)) b := by
  have hword : "version = \"".toList = "version".toList ++ [' ', '=', ' ', '\x22'] := by
    decide +kernel
  refine ⟨[' '], [' '], rest, '\x22', '\x22', ?_, List.forall_mem_singleton.mpr rfl,
    List.forall_mem_singleton.mpr rfl, rfl, rfl, hne, hb⟩
  rw [hword, List.append_assoc]
  rfl

/-- **The number of this release** is read from its manifest, whatever else the manifest says after
that and whatever is installed. -/
theorem number_manifest (after : String) (installed : Option String) :
    number (some (manifest ++ after)) installed = current := by
  have hmanifest : manifest.toList = (manifestHead.map String.toList).flatMap (· ++ ['\n']) ++
      ("version = \"".toList ++ ("0.1.0".toList ++ ['\x22', '\n'])) := by decide +kernel
  have hreturn : '\r' ∉ manifest.toList := by decide +kernel
  have hhead : ∀ l ∈ manifestHead.map String.toList,
      '\n' ∉ l ∧ ¬ "version".toList <+: l := by decide +kernel
  have hmarks : "0.1.0".toList.all (!isMark ·) := by decide +kernel
  have hsets : Sets ("version = \"".toList ++ ("0.1.0".toList ++ '\x22' :: '\n' ::
      unifyBreaks after.toList)) "0.1.0".toList :=
    sets_line (by decide +kernel) (by simpa using List.all_eq_true.mp hmarks) _
  have hfind : find? true (unifyBreaks (manifest ++ after).toList) = some "0.1.0".toList := by
    rw [String.toList_append, unifyBreaks_append hreturn, hmanifest, List.append_assoc,
      find?_lines hhead, List.append_assoc, List.append_assoc]
    exact find?_eq_some_iff.mpr ⟨0, setsAt_zero.mpr ⟨rfl, hsets⟩, nofun⟩
  have hcurrent : current = String.ofList "0.1.0".toList := by decide +kernel
  rw [hcurrent]
  simp only [number, Option.bind_some, hfind]

end Reckoner.Release
