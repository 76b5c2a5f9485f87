import Calculator.Proofs.Parsing

set_option autoImplicit false

namespace Calculator

namespace Tree

def words : Tree → List Token
  | leaf t => [t]
  | node l op r => l.words ++ op :: r.words

def leftmost : Tree → Token
  | leaf t => t
  | node l _ _ => l.leftmost

def rightmost : Tree → Token
  | leaf t => t
  | node _ _ r => r.rightmost

theorem span_eq_edges (t : Tree) : t.span = ⟨t.leftmost.span.start, t.rightmost.span.stop⟩ := by
  induction t with
  | leaf t => rfl
  | node l op r left right => rw [span, Span.through, left, right, leftmost, rightmost]

theorem head?_leaves (t : Tree) : t.leaves.head? = some t.leftmost := by
  induction t with
  | leaf t => rfl
  | node l op r left _ => rw [leaves, List.head?_append, left, Option.some_or, leftmost]

theorem getLast?_leaves (t : Tree) : t.leaves.getLast? = some t.rightmost := by
  induction t with
  | leaf t => rfl
  | node l op r _ right => rw [leaves, List.getLast?_append, right, Option.some_or, rightmost]

/-- Operands are leaves, and operators join them. -/
inductive Formed : Tree → Prop
  | leaf {t : Token} (operand : t.kind = .number ∨ t.kind = .identifier) : Formed (leaf t)
  | node {l r : Tree} {op : Token} (left : Formed l) (operator : op.kind.operator?.isSome = true)
      (right : Formed r) : Formed (node l op r)

end Tree

theorem Joins.operator {phrase : Phrase} {k : Kind} (joins : Joins phrase k) :
    k.operator?.isSome = true :=
  (extends_expr_iff_operator k).mp joins.extends_expr

namespace Derivation

variable {phrase : Phrase}

/-- Parentheses are no words of the tree. -/
theorem words_sublist (d : Derivation phrase) : d.tree.words.Sublist d.yield := by
  induction d with
  | operand t kind => exact List.Sublist.refl _
  | group opening opens inner closing closes ih =>
    exact (ih.trans (List.sublist_append_left _ [closing])).cons opening
  | unit level d ih => exact ih
  | binary level left op joins right ihLeft ihRight => exact ihLeft.append (ihRight.cons_cons op)

theorem formed (d : Derivation phrase) : d.tree.Formed := by
  induction d with
  | operand t kind => exact .leaf kind
  | group opening opens inner closing closes ih => exact ih
  | unit level d ih => exact ih
  | binary level left op joins right ihLeft ihRight => exact .node ihLeft joins.operator ihRight

end Derivation

namespace Unclosed

variable {phrase : Phrase} {read : List Token} {opened : Nat} {t : Tree}

theorem words_sublist (u : Unclosed phrase read opened t) : t.words.Sublist read := by
  induction u with
  | closed d => exact d.words_sublist
  | @group opening _ _ _ opens inner ih => exact ih.cons opening
  | unit level only ih => exact ih
  | @binary _ _ _ _ _ level left op joins right ih =>
    exact left.words_sublist.append (ih.cons_cons op)

theorem formed (u : Unclosed phrase read opened t) : t.Formed := by
  obtain ⟨d, _, _, stands, _⟩ := u.exists_derivation
  rw [← stands]
  exact d.formed

end Unclosed

theorem Kept.words_sublist {fault : Fault} {front : List Token} {t : Tree}
    (kept : Kept fault front (some t)) : t.words.Sublist front := by
  cases kept with
  | all known read => exact read.words_sublist
  | dropped ext opens read => exact read.words_sublist.trans (List.sublist_append_left _ _)

theorem Kept.formed {fault : Fault} {front : List Token} {t : Tree}
    (kept : Kept fault front (some t)) : t.Formed := by
  cases kept with
  | all known read => exact read.formed
  | dropped ext opens read => exact read.formed

section Parse

variable {ts : List Token} {t : Tree} (kept : (parse ts).tree = some t)

include kept

theorem words_sublist_of_parse : t.words.Sublist ts := by
  cases parsing ts with
  | accepted d shape ended tree clean =>
    obtain rfl : d.tree = t := Option.some.inj (tree.symm.trans kept)
    rw [shape]
    exact d.words_sublist.trans (List.sublist_append_left _ _)
  | rejected shape verdict read echoes =>
    rw [kept] at read
    rw [shape]
    exact read.words_sublist.trans (List.sublist_append_left _ _)

theorem formed_of_parse : t.Formed := by
  cases parsing ts with
  | accepted d shape ended tree clean =>
    obtain rfl : d.tree = t := Option.some.inj (tree.symm.trans kept)
    exact d.formed
  | rejected shape verdict read echoes =>
    rw [kept] at read
    exact read.formed

end Parse

end Calculator
