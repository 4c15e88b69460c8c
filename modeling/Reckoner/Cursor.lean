import Reckoner.Character

/-!
# Cursors

A cursor is a place in a text: how many characters lie before it, and the characters from it on.
What lies before is not kept, so nothing that is computed from a cursor can depend on it. Reading
moves a cursor forward; `Reaches c d` says that `d` is such a later place in the text of `c`.
-/

namespace Reckoner

/-- A place in a text. -/
structure Cursor where
  /-- The number of characters before the place. -/
  pos : Nat
  /-- The characters from the place on. -/
  rest : List Char
deriving DecidableEq, Repr

namespace Cursor

/-- The place after the first `n` characters of `text`, which may lie beyond its end. -/
def within (text : String) (n : Nat) : Cursor := ⟨n, text.toList.drop n⟩

/-- The beginning of `text`. -/
def start (text : String) : Cursor := ⟨0, text.toList⟩

/-- No character is left. -/
def atEnd (c : Cursor) : Bool := c.rest.isEmpty

/-- The character at the cursor. -/
def peek? (c : Cursor) : Option Char := c.rest.head?

/-- One character on. -/
def next (c : Cursor) : Cursor := ⟨c.pos + 1, c.rest.tail⟩

/-- The longest run of characters of the class `p` from the cursor. -/
def run (p : Char → Bool) (c : Cursor) : List Char := c.rest.takeWhile p

/-- The end of the longest run of characters of the class `p`. -/
def skip (p : Char → Bool) (c : Cursor) : Cursor := ⟨c.pos + (c.run p).length, c.rest.dropWhile p⟩

/-- The first place from the cursor on that is not a blank. -/
def skipBlanks (c : Cursor) : Cursor := c.skip isBlank

/-- Skips blanks, then takes the next character if `accept` gives it a meaning. -/
def take? (accept : Char → Option β) (c : Cursor) : Option (β × Cursor) :=
  (c.skipBlanks.peek?.bind accept).map fun b => (b, c.skipBlanks.next)

/-- Skips blanks, then takes the character `x` if it is next. The blanks stay skipped if it is
not. -/
def consume (x : Char) (c : Cursor) : Bool × Cursor :=
  match c.take? fun y => if y = x then some () else none with
  | some (_, d) => (true, d)
  | none => (false, c.skipBlanks)

/-! ### Later places -/

/-- `d` is the place `c` or a later one in the same text. -/
structure Reaches (c d : Cursor) : Prop where
  /-- What is left at the later place ends what was left at the earlier one. -/
  suffix : d.rest <:+ c.rest
  /-- The characters passed are counted. -/
  total : d.pos + d.rest.length = c.pos + c.rest.length

namespace Reaches

theorem refl (c : Cursor) : c.Reaches c := ⟨List.suffix_refl _, rfl⟩

theorem trans {c d e : Cursor} (h : c.Reaches d) (k : d.Reaches e) : c.Reaches e :=
  ⟨k.suffix.trans h.suffix, k.total.trans h.total⟩

theorem length_le {c d : Cursor} (h : c.Reaches d) : d.rest.length ≤ c.rest.length :=
  h.suffix.length_le

theorem pos_le {c d : Cursor} (h : c.Reaches d) : c.pos ≤ d.pos := by
  have := h.length_le
  have := h.total
  omega

/-- No place lies beyond the end of its text. -/
theorem pos_le_length {text : String} {d : Cursor} (h : (start text).Reaches d) :
    d.pos ≤ text.length := by
  have htotal := h.total
  simp only [start, String.length_toList] at htotal
  omega

end Reaches

theorem reaches_skip (p : Char → Bool) (c : Cursor) : c.Reaches (c.skip p) := by
  refine ⟨List.dropWhile_suffix p, ?_⟩
  have h := congrArg List.length (List.takeWhile_append_dropWhile (p := p) (l := c.rest))
  simp only [List.length_append] at h
  simp only [skip, run]
  omega

theorem reaches_skipBlanks (c : Cursor) : c.Reaches c.skipBlanks := reaches_skip _ c

theorem reaches_next {c : Cursor} (h : c.rest ≠ []) : c.Reaches c.next := by
  obtain ⟨x, r, hr⟩ := List.exists_cons_of_ne_nil h
  refine ⟨List.tail_suffix _, ?_⟩
  simp only [next, hr, List.tail_cons, List.length_cons]
  omega

theorem next_length_lt {c : Cursor} (h : c.rest ≠ []) : c.next.rest.length < c.rest.length := by
  obtain ⟨x, r, hr⟩ := List.exists_cons_of_ne_nil h
  simp [next, hr]

theorem ne_nil_of_peek? {c : Cursor} {x : Char} (h : c.peek? = some x) : c.rest ≠ [] := by
  intro h0
  simp [peek?, h0] at h

theorem next_length_lt_of_peek? {c : Cursor} {x : Char} (h : c.peek? = some x) :
    c.next.rest.length < c.rest.length := next_length_lt (ne_nil_of_peek? h)

/-- A run that is not empty is passed. -/
theorem skip_length_lt {p : Char → Bool} {c : Cursor} {x : Char} (h : c.peek? = some x) (hx : p x) :
    (c.skip p).rest.length < c.rest.length := by
  obtain ⟨y, r, hr⟩ := List.exists_cons_of_ne_nil (ne_nil_of_peek? h)
  obtain rfl : y = x := by simpa [peek?, hr] using h
  have := (List.dropWhile_suffix p (l := r)).length_le
  simp only [skip, hr, List.dropWhile_cons, hx, if_true, List.length_cons]
  omega

/-- What `take?` leaves lies further on. -/
theorem take?_eq_some {accept : Char → Option β} {c d : Cursor} {b : β}
    (h : c.take? accept = some (b, d)) :
    c.Reaches d ∧ d.rest.length < c.rest.length := by
  simp only [take?, Option.map_eq_some_iff, Option.bind_eq_some_iff, Prod.mk.injEq] at h
  obtain ⟨_, ⟨x, hx, -⟩, -, rfl⟩ := h
  have hne : c.skipBlanks.rest ≠ [] := by
    intro h0; simp [peek?, h0] at hx
  have := (reaches_skipBlanks c).length_le
  have := next_length_lt hne
  exact ⟨(reaches_skipBlanks c).trans (reaches_next hne), by omega⟩

theorem reaches_consume (x : Char) (c : Cursor) : c.Reaches (c.consume x).2 := by
  unfold consume
  split
  · next h => exact (take?_eq_some h).1
  · exact reaches_skipBlanks c

end Cursor

end Reckoner
