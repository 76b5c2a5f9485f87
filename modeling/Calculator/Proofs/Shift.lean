import Calculator.Calculate
import Calculator.Proofs.Derivation
import Calculator.Proofs.Lexing

set_option autoImplicit false

namespace Calculator

open String (utf8Len)

/-- The span `k` bytes further on. -/
def Span.shift (k : Nat) (s : Span) : Span := ⟨s.start + k, s.stop + k⟩

def Token.shift (k : Nat) (t : Token) : Token := { t with span := t.span.shift k }

def Tree.shift (k : Nat) : Tree → Tree
  | leaf t => leaf (t.shift k)
  | node l op r => node (l.shift k) (op.shift k) (r.shift k)

def EvalError.shift (k : Nat) (e : EvalError) : EvalError := ⟨e.fault, e.position.shift k⟩

def Derivation.shift (k : Nat) {phrase : Phrase} : Derivation phrase → Derivation phrase
  | operand t kind => operand (t.shift k) kind
  | group opening opens inner closing closes =>
    group (opening.shift k) opens (inner.shift k) (closing.shift k) closes
  | unit level d => unit level (d.shift k)
  | binary level left op joins right =>
    binary level (left.shift k) (op.shift k) joins (right.shift k)

theorem Span.through_shift (k : Nat) (first last : Span) :
    (first.shift k).through (last.shift k) = (first.through last).shift k := rfl

theorem Token.shift_endMarker (k offset : Nat) :
    (endMarker offset).shift k = endMarker (offset + k) := rfl

theorem Tree.span_shift (k : Nat) (t : Tree) : (t.shift k).span = t.span.shift k := by
  induction t with
  | leaf t => rfl
  | node l op r left right => rw [shift, span, left, right, Span.through_shift, span]

namespace Derivation

variable {phrase : Phrase}

theorem yield_shift (k : Nat) (d : Derivation phrase) :
    (d.shift k).yield = d.yield.map (Token.shift k) := by
  induction d with
  | operand t kind => rfl
  | group opening opens inner closing closes ih =>
    simp only [shift, yield, ih, List.map_cons, List.map_append, List.map_nil]
  | unit level d ih => exact ih
  | binary level left op joins right ihLeft ihRight =>
    simp only [shift, yield, ihLeft, ihRight, List.map_cons, List.map_append]

theorem tree_shift (k : Nat) (d : Derivation phrase) : (d.shift k).tree = d.tree.shift k := by
  induction d with
  | operand t kind => rfl
  | group opening opens inner closing closes ih => exact ih
  | unit level d ih => exact ih
  | binary level left op joins right ihLeft ihRight =>
    show Tree.node (left.shift k).tree (op.shift k) (right.shift k).tree = _
    rw [ihLeft, ihRight, tree, Tree.shift]

end Derivation

/-- The tokens of a text move with it. -/
theorem Laid.shift (k : Nat) {offset : Nat} {cs : List Char} {ts : List Token}
    (laid : Laid offset cs ts) : Laid (offset + k) cs (ts.map (Token.shift k)) := by
  induction laid with
  | @marker offset blanks blank =>
    have place : offset + utf8Len blanks + k = offset + k + utf8Len blanks := by omega
    rw [List.map_singleton, Token.shift_endMarker, place]
    exact .marker blank
  | @word offset start stop blanks more rest c kind ts blank visible begins whole ends first last
      tail ih =>
    have first' : start + k = offset + k + utf8Len blanks := by omega
    have last' : stop + k = start + k + utf8Len (c :: more) := by omega
    rw [List.map_cons]
    exact .word blank visible begins whole ends first' last' ih

section Evaluation

variable (env : Environment) (k : Nat)

theorem Token.value_shift (t : Token) :
    (t.shift k).value env = (t.value env).mapError (EvalError.shift k) := by
  obtain ⟨kind, lexeme, place⟩ := t
  cases kind with
  | identifier =>
    simp only [shift, value]
    split
    · rfl
    · rfl
  | number =>
    simp only [shift, value]
    split
    · rfl
    · rfl
  | plus | minus | star | slash | lparen | rparen | eof => rfl

theorem Token.join_shift (op : Token) (whole : Span) (a b : Float) :
    (op.shift k).join (whole.shift k) a b = (op.join whole a b).mapError (EvalError.shift k) := by
  obtain ⟨kind, lexeme, place⟩ := op
  simp only [shift, join]
  cases kind.operator? with
  | none => rfl
  | some operator =>
    dsimp only
    cases operator.apply? a b with
    | none => rfl
    | some value => rfl

/-- A tree has the same value wherever it stands, and the same failure at the place moved on. -/
theorem Tree.eval_shift (t : Tree) :
    (t.shift k).eval env = (t.eval env).mapError (EvalError.shift k) := by
  induction t with
  | leaf t => exact t.value_shift env k
  | node l op r left right =>
    rw [shift, eval, eval, left, right]
    cases l.eval env with
    | error e => rfl
    | ok a =>
      cases r.eval env with
      | error e => rfl
      | ok b =>
        have joined := op.join_shift k (l.span.through r.span) a b
        rw [← Span.through_shift, ← span_shift, ← span_shift] at joined
        exact joined

end Evaluation

end Calculator
