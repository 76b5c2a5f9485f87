import Calculator.Token

set_option autoImplicit false

namespace Calculator

/-- A word on its own, or two operands joined by an operator. -/
inductive Tree where
  | leaf (token : Token)
  | node (left : Tree) (operator : Token) (right : Tree)
deriving DecidableEq

namespace Tree

/-- From where the leftmost word starts to where the rightmost one stops. -/
def span : Tree → Span
  | leaf t => t.span
  | node l _ r => l.span.through r.span

/-- The tree on one line: a leaf is its lexeme, and an operator stands in front of its operands
inside parentheses. -/
def text : Tree → String
  | leaf t => t.lexeme
  | node l op r => "(" ++ op.lexeme ++ " " ++ l.text ++ " " ++ r.text ++ ")"

def leafClass : Kind → String
  | .number => "Number"
  | .identifier => "Identifier"
  | _ => "Token"

/-- A line of an outline: two spaces per level of depth, the class of the node and its lexeme. -/
def outlineLine (depth : Nat) (nodeClass lexeme : String) : String :=
  String.ofList (List.replicate (2 * depth) ' ') ++ nodeClass ++ " '" ++ lexeme ++ "'\n"

/-- The lines of a tree that hangs at a depth: a node, then its left side, then its right side. -/
def outlineLines : Nat → Tree → List String
  | depth, leaf t => [outlineLine depth (leafClass t.kind) t.lexeme]
  | depth, node l op r =>
    outlineLine depth "BinaryOp" op.lexeme ::
      (outlineLines (depth + 1) l ++ outlineLines (depth + 1) r)

def outline (t : Tree) : String := String.join (outlineLines 0 t)

/-- The same shape with the same words, wherever they stand. -/
def Same : Tree → Tree → Prop
  | leaf a, leaf b => a.Same b
  | node l op r, node l' op' r' => l.Same l' ∧ op.Same op' ∧ r.Same r'
  | leaf _, node .. => False
  | node .., leaf _ => False

def decidableSame : (a b : Tree) → Decidable (Same a b)
  | leaf a, leaf b => inferInstanceAs (Decidable (a.Same b))
  | node l op r, node l' op' r' =>
    have := decidableSame l l'
    have := decidableSame r r'
    inferInstanceAs (Decidable (l.Same l' ∧ op.Same op' ∧ r.Same r'))
  | leaf _, node .. => isFalse id
  | node .., leaf _ => isFalse id

instance : DecidableRel Same := decidableSame

theorem Same.refl (t : Tree) : t.Same t := by
  induction t with
  | leaf t => exact Token.Same.refl t
  | node l op r left right => exact ⟨left, Token.Same.refl op, right⟩

/-- Two trees that are the same are walked down side by side. -/
@[elab_as_elim]
theorem Same.induction {motive : (a b : Tree) → a.Same b → Prop}
    (leaf : ∀ t u (same : t.Same u), motive (leaf t) (leaf u) same)
    (node : ∀ l op r l' op' r' (left : l.Same l') (operator : op.Same op') (right : r.Same r'),
      motive l l' left → motive r r' right →
        motive (node l op r) (node l' op' r') ⟨left, operator, right⟩)
    {a b : Tree} (same : a.Same b) : motive a b same := by
  induction a generalizing b with
  | leaf t =>
    cases b with
    | leaf u => exact leaf t u same
    | node => exact same.elim
  | node l op r left right =>
    cases b with
    | leaf => exact same.elim
    | node l' op' r' =>
      obtain ⟨lefts, operators, rights⟩ := same
      exact node l op r l' op' r' lefts operators rights (left lefts) (right rights)

/-- Trees of one shape with the same words are the same line. -/
theorem Same.text_eq {a b : Tree} (same : a.Same b) : a.text = b.text := by
  induction same using Same.induction with
  | leaf t u same => exact same.2
  | node l op r l' op' r' _ operator _ left right => simp only [text, left, operator.2, right]

end Tree

end Calculator
