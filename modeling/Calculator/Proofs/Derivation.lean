import Calculator.Grammar

set_option autoImplicit false

namespace Calculator

inductive Phrase where
  | expr
  | term
  | factor

/-- The operators that a production of a phrase writes between its two sides. -/
inductive Joins : Phrase → Kind → Prop
  | plus : Joins .expr .plus
  | minus : Joins .expr .minus
  | star : Joins .term .star
  | slash : Joins .term .slash

/-- A phrase and the one that stands alone in it, and on the right of its operators. -/
inductive Above : Phrase → Phrase → Prop
  | expr : Above .expr .term
  | term : Above .term .factor

/-- Trees of productions of the grammar, apart from how it is read:

    expr:   term | expr ('+' | '-') term
    term:   factor | term ('*' | '/') factor
    factor: NUMBER | IDENTIFIER | '(' expr ')'
-/
inductive Derivation : Phrase → Type
  | operand (t : Token) (kind : t.kind = .number ∨ t.kind = .identifier) : Derivation .factor
  | group (opening : Token) (opens : opening.kind = .lparen) (inner : Derivation .expr)
      (closing : Token) (closes : closing.kind = .rparen) : Derivation .factor
  | unit {upper lower : Phrase} (level : Above upper lower) (d : Derivation lower) :
      Derivation upper
  | binary {upper lower : Phrase} (level : Above upper lower) (left : Derivation upper)
      (op : Token) (joins : Joins upper op.kind) (right : Derivation lower) : Derivation upper

/-- The tokens in front of the first end marker, all of them where there is none. -/
def beforeEnd (ts : List Token) : List Token := ts.takeWhile (·.kind ≠ .eof)

def Kind.isOperand : Kind → Bool
  | .number | .identifier => true
  | _ => false

theorem Kind.isOperand_iff (k : Kind) : k.isOperand = true ↔ k = .number ∨ k = .identifier := by
  cases k <;> simp [isOperand]

theorem Kind.isOperand_eq_false_iff (k : Kind) :
    k.isOperand = false ↔ ¬ (k = .number ∨ k = .identifier) := by
  rw [← Bool.not_eq_true, isOperand_iff]

def Tree.leaves : Tree → List Token
  | leaf t => [t]
  | node l _ r => l.leaves ++ r.leaves

/-- Operators that take a phrase beside them into a longer phrase of the same name: its own, and
those that bind more tightly. -/
inductive Extends : Phrase → Kind → Prop
  | own {phrase : Phrase} {k : Kind} (joins : Joins phrase k) : Extends phrase k
  | tighter {upper lower : Phrase} {k : Kind} (level : Above upper lower)
      (ext : Extends lower k) : Extends upper k

theorem Above.unique {upper lower lower' : Phrase} (level : Above upper lower)
    (level' : Above upper lower') : lower = lower' := by
  cases level <;> cases level' <;> rfl

theorem extends_factor (k : Kind) : ¬ Extends .factor k := by
  rintro (joins | ⟨level, _⟩)
  · cases joins
  · cases level

theorem joins_expr (k : Kind) : Joins .expr k ↔ k.isAdditive = true := by
  constructor
  · rintro (_ | _) <;> rfl
  · intro binds
    cases k <;> cases binds
    · exact .plus
    · exact .minus

theorem joins_term (k : Kind) : Joins .term k ↔ k.isMultiplicative = true := by
  constructor
  · rintro (_ | _) <;> rfl
  · intro binds
    cases k <;> cases binds
    · exact .star
    · exact .slash

theorem extends_term (k : Kind) : Extends .term k ↔ k.isMultiplicative = true := by
  rw [← joins_term]
  constructor
  · rintro (joins | ⟨level, ext⟩)
    · exact joins
    · cases level
      exact (extends_factor k ext).elim
  · exact .own

theorem extends_expr (k : Kind) :
    Extends .expr k ↔ (k.isAdditive || k.isMultiplicative) = true := by
  rw [Bool.or_eq_true, ← joins_expr, ← extends_term]
  constructor
  · rintro (joins | ⟨level, ext⟩)
    · exact .inl joins
    · cases level
      exact .inr ext
  · rintro (joins | ext)
    · exact .own joins
    · exact .tighter .expr ext

theorem Joins.not_extends {upper lower : Phrase} {k : Kind} (level : Above upper lower)
    (joins : Joins upper k) : ¬ Extends lower k := by
  cases level
  · rw [extends_term]
    cases joins <;> exact Bool.false_ne_true
  · exact extends_factor k

theorem Joins.not_operand {phrase : Phrase} {k : Kind} (joins : Joins phrase k) :
    k.isOperand = false := by
  cases joins <;> rfl

theorem operand_ne_rparen {t : Token} (kind : t.kind = .number ∨ t.kind = .identifier)
    (closes : t.kind = .rparen) : False := by
  rw [closes] at kind
  rcases kind with number | identifier
  · cases number
  · cases identifier

theorem Joins.extends_expr {phrase : Phrase} {k : Kind} (joins : Joins phrase k) :
    Extends .expr k := by
  cases joins
  · exact .own .plus
  · exact .own .minus
  · exact .tighter .expr (.own .star)
  · exact .tighter .expr (.own .slash)

namespace Derivation

def yield {phrase : Phrase} : Derivation phrase → List Token
  | operand t _ => [t]
  | group opening _ inner closing _ => opening :: (inner.yield ++ [closing])
  | unit _ d => d.yield
  | binary _ left op _ right => left.yield ++ op :: right.yield

def tree {phrase : Phrase} : Derivation phrase → Tree
  | operand t _ => .leaf t
  | group _ _ inner _ _ => inner.tree
  | unit _ d => d.tree
  | binary _ left op _ right => .node left.tree op right.tree

theorem yield_group {opening closing : Token} {opens : opening.kind = .lparen}
    {inner : Derivation .expr} {closes : closing.kind = .rparen} :
    (group opening opens inner closing closes).yield = opening :: inner.yield ++ [closing] := rfl

theorem yield_binary {upper lower : Phrase} {level : Above upper lower}
    {left : Derivation upper} {op : Token} {joins : Joins upper op.kind}
    {right : Derivation lower} :
    (binary level left op joins right).yield = left.yield ++ [op] ++ right.yield :=
  List.append_cons _ _ _

/-- The tokens in front of a phrase do not end in an operator that would take it in. -/
def Sealed (phrase : Phrase) (before : List Token) : Prop :=
  ∀ t, before.getLast? = some t → ¬ Extends phrase t.kind

theorem Sealed.lower {upper lower : Phrase} {before : List Token} (level : Above upper lower)
    (closed : Sealed upper before) : Sealed lower before :=
  fun t last ext => closed t last (.tighter level ext)

theorem sealed_append {phrase : Phrase} {t : Token} (outside : ¬ Extends phrase t.kind)
    (before : List Token) : Sealed phrase (before ++ [t]) := by
  intro u last
  rw [List.getLast?_concat] at last
  cases last
  exact outside

theorem sealed_after_op {upper lower : Phrase} {op : Token} (level : Above upper lower)
    (joins : Joins upper op.kind) (before : List Token) : Sealed lower (before ++ [op]) :=
  sealed_append (joins.not_extends level) before

theorem sealed_after_opening {opening : Token} (opens : opening.kind = .lparen)
    (before : List Token) : Sealed .expr (before ++ [opening]) := by
  refine sealed_append ?_ before
  rw [opens, extends_expr]
  exact Bool.false_ne_true

/-- Left recursion is undone from the right: the last phrase of the tokens is fixed once the tokens
in front of it cannot take it in, and then so is what stands before it. -/
theorem yield_append_inj {phrase : Phrase} (d d' : Derivation phrase) {before before' : List Token}
    (closed : Sealed phrase before) (closed' : Sealed phrase before')
    (same : before ++ d.yield = before' ++ d'.yield) : d = d' ∧ before = before' := by
  induction d generalizing before before' with
  | operand t kind =>
    cases d' with
    | operand u _ =>
      obtain ⟨rfl, rfl⟩ := List.append_singleton_inj.mp same
      exact ⟨rfl, rfl⟩
    | group opening _ inner closing closes =>
      rw [yield, yield_group, ← List.append_assoc] at same
      obtain ⟨_, rfl⟩ := List.append_singleton_inj.mp same
      exact (operand_ne_rparen kind closes).elim
    | unit level => cases level
    | binary level => cases level
  | group opening opens inner closing closes ih =>
    rw [yield_group, ← List.append_assoc] at same
    cases d' with
    | operand u kind =>
      obtain ⟨_, rfl⟩ := List.append_singleton_inj.mp same
      exact (operand_ne_rparen kind closes).elim
    | group opening' opens' inner' closing' _ =>
      rw [yield_group, ← List.append_assoc] at same
      obtain ⟨inside, rfl⟩ := List.append_singleton_inj.mp same
      rw [List.append_cons, List.append_cons before'] at inside
      obtain ⟨rfl, front⟩ := ih inner' (sealed_after_opening opens before)
        (sealed_after_opening opens' before') inside
      obtain ⟨rfl, rfl⟩ := List.append_singleton_inj.mp front
      exact ⟨rfl, rfl⟩
    | unit level => cases level
    | binary level => cases level
  | unit level d ih =>
    cases d' with
    | operand | group => cases level
    | unit level' d' =>
      obtain rfl := level.unique level'
      obtain ⟨rfl, rfl⟩ := ih d' (closed.lower level) (closed'.lower level) same
      exact ⟨rfl, rfl⟩
    | binary level' left' op' joins' right' =>
      obtain rfl := level.unique level'
      rw [yield, yield_binary, ← List.append_assoc, ← List.append_assoc] at same
      obtain ⟨_, rfl⟩ := ih right' (closed.lower level)
        (sealed_after_op level joins' _) same
      exact (closed op' List.getLast?_concat (.own joins')).elim
  | binary level left op joins right ihLeft ihRight =>
    rw [yield_binary, ← List.append_assoc, ← List.append_assoc] at same
    cases d' with
    | operand | group => cases level
    | unit level' d' =>
      obtain rfl := level.unique level'
      obtain ⟨_, rfl⟩ := ihRight d' (sealed_after_op level joins _)
        (closed'.lower level) same
      exact (closed' op List.getLast?_concat (.own joins)).elim
    | binary level' left' op' joins' right' =>
      obtain rfl := level.unique level'
      rw [yield_binary, ← List.append_assoc, ← List.append_assoc] at same
      obtain ⟨rfl, front⟩ := ihRight right' (sealed_after_op level joins _)
        (sealed_after_op level joins' _) same
      obtain ⟨lefts, rfl⟩ := List.append_singleton_inj.mp front
      obtain ⟨rfl, rfl⟩ := ihLeft left' closed closed' lefts
      exact ⟨rfl, rfl⟩

/-- The grammar is unambiguous. -/
theorem yield_injective (phrase : Phrase) :
    Function.Injective (yield : Derivation phrase → List Token) := by
  intro d d' same
  have empty : Sealed phrase [] := fun t last => by cases last
  exact (yield_append_inj d d' empty empty same).1

theorem no_eof_yield {phrase : Phrase} (d : Derivation phrase) : ∀ t ∈ d.yield, t.kind ≠ .eof := by
  induction d with
  | operand t kind =>
    intro u member marker
    rw [List.mem_singleton.mp member] at marker
    simp [marker] at kind
  | group opening opens inner closing closes ih =>
    intro u member
    simp only [yield, List.mem_cons, List.mem_append, List.not_mem_nil, or_false] at member
    rcases member with rfl | inside | rfl
    · simp [opens]
    · exact ih u inside
    · simp [closes]
  | unit level d ih => exact ih
  | binary level left op joins right ihLeft ihRight =>
    intro u member
    simp only [yield, List.mem_append, List.mem_cons] at member
    rcases member with inLeft | rfl | inRight
    · exact ihLeft u inLeft
    · intro marker
      rw [marker] at joins
      cases joins
    · exact ihRight u inRight

/-- Behind at most some `(`, every phrase begins with an operand. -/
theorem yield_begins {phrase : Phrase} (d : Derivation phrase) :
    ∃ parens t rest, d.yield = parens ++ t :: rest ∧ (∀ u ∈ parens, u.kind = .lparen) ∧
      (t.kind = .number ∨ t.kind = .identifier) := by
  induction d with
  | operand t kind => exact ⟨[], t, [], rfl, List.forall_mem_nil _, kind⟩
  | group opening opens inner closing closes ih =>
    obtain ⟨parens, t, rest, shape, opened, kind⟩ := ih
    refine ⟨opening :: parens, t, rest ++ [closing], ?_, ?_, kind⟩
    · rw [yield, shape, List.append_assoc, List.cons_append, List.cons_append]
    · exact List.forall_mem_cons.mpr ⟨opens, opened⟩
  | unit level d ih => exact ih
  | binary level left op joins right ihLeft _ =>
    obtain ⟨parens, t, rest, shape, opened, kind⟩ := ihLeft
    refine ⟨parens, t, rest ++ op :: right.yield, ?_, opened, kind⟩
    rw [yield, shape, List.append_assoc, List.cons_append]

/-- A tree has the operands of its tokens, in their order. -/
theorem leaves_tree {phrase : Phrase} (d : Derivation phrase) :
    d.tree.leaves = d.yield.filter (·.kind.isOperand) := by
  induction d with
  | operand t kind =>
    simp [tree, yield, Tree.leaves, t.kind.isOperand_iff.mpr kind]
  | group opening opens inner closing closes ih =>
    simp [tree, yield, ih, opens, closes, Kind.isOperand]
  | unit level d ih => exact ih
  | binary level left op joins right ihLeft ihRight =>
    simp [tree, yield, Tree.leaves, ihLeft, ihRight, joins.not_operand]

theorem beforeEnd_yield {phrase : Phrase} (d : Derivation phrase) {rest : List Token}
    (ended : ∀ t, rest.head? = some t → t.kind = .eof) : beforeEnd (d.yield ++ rest) = d.yield := by
  have inside : ∀ t ∈ d.yield, decide (t.kind ≠ .eof) = true := by
    intro t member
    exact decide_eq_true (d.no_eof_yield t member)
  rw [beforeEnd, List.takeWhile_append_of_pos inside]
  cases rest with
  | nil => exact List.append_nil _
  | cons t rest => simp [ended t rfl]

end Derivation

end Calculator
