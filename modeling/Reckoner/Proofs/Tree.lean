import Reckoner.Proofs.Derivation
import Reckoner.Proofs.Spelling

/-!
# Expression trees

A tree has the structure of an expression without its text. It is printed with parentheses where
its operators do not bind tightly enough, and where a function would take in more than its argument:
a function is printed bare only if the end of the text or of a group follows it.

`solve_print` says that the solver evaluates a printed tree to the value of the tree. The tokens of
the tree derive its value (`spells_words`), by induction on the tree, so this is a case of the
evaluation by the grammar.
-/

namespace Reckoner

open Grammar

/-! ### Trees -/

/-- A literal as it is written. -/
structure Numeral where
  run : List Char
  numeric : ∀ x ∈ run, isNumeric x
  literal : IsLiteral run

/-- The decimal that a numeral is written for. -/
def Numeral.decimal (n : Numeral) : Decimal :=
  (Decimal.ofRun? n.run).get (Option.isSome_iff_exists.mpr (isLiteral_iff.mp n.literal))

/-- The name of a variable. -/
structure VariableName where
  run : List Char
  ne_nil : run ≠ []
  letters : ∀ x ∈ run, isLetter x
  not_function : ∀ f : Func, run ≠ f.name.toList

/-- An expression without its text. -/
inductive Tree where
  | literal (n : Numeral)
  | name (x : VariableName)
  | positive (t : Tree)
  | negative (t : Tree)
  | binary (op : Operator) (l r : Tree)
  | power (b e : Tree)
  | apply (f : Func) (t : Tree)

namespace Tree

/-- The value of a tree, from its operands up. -/
def value {α : Type} (A : Arithmetic α) (table : Table α) : Tree → α
  | literal n => A.literal n.decimal
  | name x => (table.get? (String.ofList x.run)).getD A.zero
  | positive t => t.value A table
  | negative t => A.negate (t.value A table)
  | binary op l r => A.binary op (l.value A table) (r.value A table)
  | power b e => A.power (b.value A table) (e.value A table)
  | apply f t => A.call f (t.value A table)

end Tree

/-! ### Printing -/

/-- How tightly something binds. -/
inductive Binding where
  | primary | factor | term | expression
deriving DecidableEq, Repr

namespace Binding

/-- The levels in the order in which each holds the ones before it. -/
def rank : Binding → Nat
  | .primary => 0
  | .factor => 1
  | .term => 2
  | .expression => 3

/-- The level of the right operands of an operator. -/
def operand : Binding → Binding
  | .expression => .term
  | .term => .factor
  | .factor | .primary => .primary

/-- The phrase of a level. -/
def phrase : Binding → Ending → Phrase
  | .primary, _ => .primary
  | .factor, e => .factor e
  | .term, e => .product e
  | .expression, e => .sum e

end Binding

namespace Operator

/-- The level of an operator, and of its left operand. -/
def level : Operator → Binding
  | .plus | .minus => .expression
  | .times | .over => .term

/-- The character of an operator. -/
def sign : Operator → Char
  | .plus => '+'
  | .minus => '-'
  | .times => '*'
  | .over => '/'

end Operator

namespace Tree

/-- The level of a tree that is printed without parentheses. -/
def level : Tree → Binding
  | literal _ | name _ => .primary
  | positive _ | negative _ | power _ _ | apply _ _ => .factor
  | binary op _ _ => op.level

/-- Whether a tree is a function with its argument. -/
def isApplication : Tree → Bool
  | apply _ _ => true
  | _ => false

/-- Whether a tree that is printed without parentheses ends in a function without parentheses. -/
def isOpen : Tree → Bool
  | literal _ | name _ => false
  | positive t | negative t => t.level.rank ≤ Binding.factor.rank && t.isOpen
  | binary op _ r => r.level.rank ≤ op.level.operand.rank && r.isOpen
  | power _ e => e.level.rank ≤ Binding.factor.rank && e.isOpen
  | apply _ _ => true

variable (whole : Tree → Bool)

/-- Whether an operand stands without parentheses at a place for `level`. It has to bind tightly
enough; and unless it is the `last` before the end of the text or of a group, no function may be
left open at its end. A function that is an operand is put in parentheses itself. Another operand
that ends in one can be put in parentheses as a whole, or only the function in it: `whole` says
which. -/
def isBare (t : Tree) (level : Binding) (last : Bool) : Bool :=
  t.level.rank ≤ level.rank && (last || !(t.isOpen && (t.isApplication || whole t)))

/-- The tokens of an operand, in parentheses if need be. -/
def place (t : Tree) (level : Binding) (last : Bool) (words : Bool → List Token) : List Token :=
  if t.isBare whole level last then words last else .mark '(' :: (words true ++ [.mark ')'])

/-- The tokens of a tree without parentheses around it, the `last` before the end of the text or of
a group or not. -/
def words : Tree → Bool → List Token
  | literal n, _ => [.number n.run]
  | name x, _ => [.name x.run]
  | positive t, last => .mark '+' :: t.place whole .factor last (words t)
  | negative t, last => .mark '-' :: t.place whole .factor last (words t)
  | binary op l r, last => l.place whole op.level false (words l) ++
      .mark op.sign :: r.place whole op.level.operand last (words r)
  | power b e, last => b.place whole .primary false (words b) ++
      .mark '^' :: e.place whole .factor last (words e)
  | apply f t, _ => .name f.name.toList :: words t true

/-- The text of a tree. -/
def print (t : Tree) : List Char := spell (t.words whole true)

/-! ### What a printed tree derives -/

end Tree

variable {α : Type} {A : Arithmetic α} {scope : Scope α}

/-- A phrase is one of each looser level too, and a closed one stays closed. -/
theorem Grammar.Derives.loosen {a b : Binding} {e : Ending} {s t : List Token} {v : α}
    (h : Derives A scope (a.phrase e) s t v) (hab : a.rank ≤ b.rank) :
    ∃ e', (e = .primary → e' = .primary) ∧ Derives A scope (b.phrase e') s t v := by
  match a, b, hab with
  | .primary, .primary, _ => exact ⟨e, id, h⟩
  | .primary, .factor, _ => exact ⟨.primary, fun _ => rfl, .primary h⟩
  | .primary, .term, _ => exact ⟨.primary, fun _ => rfl, .factor (.primary h)⟩
  | .primary, .expression, _ => exact ⟨.primary, fun _ => rfl, .product (.factor (.primary h))⟩
  | .factor, .factor, _ => exact ⟨e, id, h⟩
  | .factor, .term, _ => exact ⟨e, id, .factor h⟩
  | .factor, .expression, _ => exact ⟨e, id, .product (.factor h)⟩
  | .term, .term, _ => exact ⟨e, id, h⟩
  | .term, .expression, _ => exact ⟨e, id, .product h⟩
  | .expression, .expression, _ => exact ⟨e, id, h⟩
  | .factor, .primary, hab | .term, .primary, hab | .term, .factor, hab | .expression, .primary, hab
  | .expression, .factor, hab | .expression, .term, hab => exact absurd hab (by decide)

theorem Grammar.Derives.binary {op : Operator} {e : Ending} {s t u : List Token} {v w : α}
    (hv : Derives A scope (op.level.phrase .primary) s (.mark op.sign :: t) v)
    (hw : Derives A scope (op.level.operand.phrase e) t u w) :
    Derives A scope (op.level.phrase e) s u (A.binary op v w) := by
  match op with
  | .plus => exact .plus hv hw
  | .minus => exact .minus hv hw
  | .times => exact .times hv hw
  | .over => exact .divide hv hw

namespace Tree

variable {whole : Tree → Bool} {table : Table α}

variable (A) in
/-- The tokens `ts` derive the value of `t` as a phrase of a level, whatever stands after them. -/
def Spells (table : Table α) (t : Tree) (level : Binding) (closed : Prop) (ts : List Token) :
    Prop :=
  ∀ rest, ∃ e, (closed → e = .primary) ∧
    Derives A (.tolerant table) (level.phrase e) (ts ++ rest) rest (t.value A table)

theorem isApplication_eq_false {t : Tree} {level : Binding}
    (h : t.isBare whole level false = true) : t.isApplication = false := by
  cases t with
  | apply f t => simp [isBare, isOpen, isApplication] at h
  | _ => rfl

/-- An operand derives its value at its place if its words do at their own level. -/
theorem spells_place {t : Tree} {level : Binding} {last : Bool} {words : Bool → List Token}
    (h : ∀ last, t.Spells A table t.level (last = false ∧ t.isApplication = false) (words last)) :
    t.Spells A table level (last = false) (t.place whole level last words) := by
  intro rest
  unfold place
  split_ifs with hb
  · obtain ⟨e, he, hd⟩ := h last rest
    have hle : t.level.rank ≤ level.rank := by
      simp only [isBare, Bool.and_eq_true, decide_eq_true_eq] at hb
      exact hb.1
    obtain ⟨e', he', hd'⟩ := hd.loosen hle
    refine ⟨e', fun hl => he' (he ⟨hl, ?_⟩), hd'⟩
    subst hl
    exact isApplication_eq_false hb
  · obtain ⟨e, -, hd⟩ := h true (.mark ')' :: rest)
    obtain ⟨e', -, hd'⟩ := hd.loosen (b := .expression) (by cases t.level <;> decide)
    have hg : Derives A (.tolerant table) (Binding.primary.phrase .primary)
        (.mark '(' :: (words true ++ .mark ')' :: rest)) rest (t.value A table) :=
      .group (.expression hd')
    obtain ⟨f, hf, hd⟩ := hg.loosen (b := level) (Nat.zero_le _)
    refine ⟨f, fun _ => hf rfl, ?_⟩
    rw [List.cons_append, List.append_assoc]
    exact hd

/-- **The words of a tree derive its value.** Before anything but the end of the text or of a group
they are a closed phrase, unless the tree is a function. -/
theorem spells_words (t : Tree) (last : Bool) :
    t.Spells A table t.level (last = false ∧ t.isApplication = false) (t.words whole last) := by
  induction t generalizing last with
  | literal n =>
    exact fun rest => ⟨.primary, fun _ => rfl, .literal n.literal (Option.some_get _).symm⟩
  | name x => exact fun rest => ⟨.primary, fun _ => rfl, .name rfl x.not_function⟩
  | positive t ih =>
    intro rest
    have hp : t.Spells A table .factor (last = false) (t.place whole .factor last (words whole t)) :=
      spells_place ih
    obtain ⟨e, he, hd⟩ := hp rest
    exact ⟨e, fun h => he h.1, .positive hd⟩
  | negative t ih =>
    intro rest
    have hp : t.Spells A table .factor (last = false) (t.place whole .factor last (words whole t)) :=
      spells_place ih
    obtain ⟨e, he, hd⟩ := hp rest
    exact ⟨e, fun h => he h.1, .negative hd⟩
  | binary op l r ihl ihr =>
    intro rest
    have hr : r.Spells A table op.level.operand (last = false)
        (r.place whole op.level.operand last (words whole r)) := spells_place ihr
    obtain ⟨e, he, hd⟩ := hr rest
    have hl : l.Spells A table op.level (false = false)
        (l.place whole op.level false (words whole l)) := spells_place ihl
    obtain ⟨e', he', hd'⟩ := hl (.mark op.sign :: (_ ++ rest))
    obtain rfl := he' rfl
    refine ⟨e, fun h => he h.1, ?_⟩
    rw [words, List.append_assoc]
    exact hd'.binary hd
  | power b e ihb ihe =>
    intro rest
    have he : e.Spells A table .factor (last = false) (e.place whole .factor last (words whole e)) :=
      spells_place ihe
    obtain ⟨f, hf, hd⟩ := he rest
    have hb : b.Spells A table .primary (false = false)
        (b.place whole .primary false (words whole b)) := spells_place ihb
    obtain ⟨_, -, hd'⟩ := hb (.mark '^' :: (_ ++ rest))
    refine ⟨f, fun h => hf h.1, ?_⟩
    rw [words, List.append_assoc]
    exact .power hd' hd
  | apply f t ih =>
    intro rest
    obtain ⟨e, -, hd⟩ := ih true rest
    obtain ⟨e', -, hd'⟩ := hd.loosen (b := .expression) (by cases t.level <;> decide)
    exact ⟨.argument, fun h => by simp [isApplication] at h, .apply f (.expression hd')⟩

/-! ### What a printed tree reads as -/

theorem isMark_sign (op : Operator) : isMark op.sign := by cases op <;> decide

theorem spellable_place {t : Tree} {level : Binding} {last : Bool} {words : Bool → List Token}
    (h : ∀ last, Spellable (words last)) : Spellable (t.place whole level last words) := by
  unfold place
  split_ifs
  · exact h last
  · exact ((h true).append_mark (by decide) ⟨by simp, by simp⟩).mark (by decide)

/-- In the words of a tree only an operator or a parenthesis follows a numeral. -/
theorem spellable_words (t : Tree) (last : Bool) : Spellable (t.words whole last) := by
  induction t generalizing last with
  | literal n =>
    have hne : n.run ≠ [] := by
      obtain ⟨x, hx, -⟩ := n.literal.digit
      exact List.ne_nil_of_mem hx
    exact ⟨by simpa [words, Token.Valid] using ⟨hne, n.numeric⟩, by simp [words]⟩
  | name x => exact .name x.ne_nil x.letters ⟨by simp, by simp⟩
  | positive t ih => exact (spellable_place ih).mark (by decide)
  | negative t ih => exact (spellable_place ih).mark (by decide)
  | binary op l r ihl ihr =>
    exact (spellable_place ihl).append_mark (isMark_sign op) (spellable_place ihr)
  | power b e ihb ihe =>
    exact (spellable_place ihb).append_mark (by decide) (spellable_place ihe)
  | apply f t ih =>
    have hf : f.name.toList ≠ [] ∧ f.name.toList.all isLetter := by cases f <;> decide
    exact .name hf.1 (List.all_eq_true.mp hf.2) (ih true)

end Tree

/-- **Printing and solving**: the text that a tree is printed as has the value of the tree, in each
table and with either way to put the operands that end in a function in parentheses. -/
theorem Solver.solve_print (whole : Tree → Bool) (t : Tree) (table : Table Float) :
    (Solver.mk (String.ofList (t.print whole)) (.tolerant table)).solve.value =
      .ok (t.value double table) := by
  rw [Solver.solve_value_eq_ok_iff, solve_outcome_eq_ok_iff_derives, String.toList_ofList,
    Tree.print, tokens_spell (Tree.spellable_words t true)]
  have hs : t.Spells double table t.level _ (t.words whole true) := Tree.spells_words t true
  obtain ⟨e, -, hd⟩ := hs []
  obtain ⟨e', -, hd'⟩ := hd.loosen (b := .expression) (by cases t.level <;> decide)
  rw [List.append_nil] at hd'
  exact .expression hd'

/-- The two ways for an operand that ends in a function: `(-sin x)+y` and `-(sin x)+y`. -/
example (x y : VariableName) :
    let t : Tree := .binary .plus (.negative (.apply .sin (.name x))) (.name y)
    let (sin, x, y) := (Token.name "sin".toList, Token.name x.run, Token.name y.run)
    t.words (fun _ => true) true =
        [.mark '(', .mark '-', sin, x, .mark ')', .mark '+', y] ∧
      t.words (fun _ => false) true =
        [.mark '-', .mark '(', sin, x, .mark ')', .mark '+', y] :=
  ⟨rfl, rfl⟩

end Reckoner
