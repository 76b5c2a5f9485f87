import Calculator.Proofs.Division

set_option autoImplicit false

namespace Calculator

/-- The arithmetic of a word between two values: which operation it stands for, and where it has no
result. -/
inductive Arithmetic : Kind → Float → Float → Float → Prop
  | plus {a b : Float} : Arithmetic .plus a b (a + b)
  | minus {a b : Float} : Arithmetic .minus a b (a - b)
  | times {a b : Float} : Arithmetic .star a b (a * b)
  | divide {a b : Float} (divisor : (b == 0) = false) : Arithmetic .slash a b (a / b)

namespace Tree

/-- What a tree comes to from its leaves upward. -/
inductive Computes (env : Environment) : Tree → Float → Prop
  | identifier {t : Token} {name : Char} (kind : t.kind = .identifier)
      (alone : t.lexeme.toList = [name]) : Computes env (leaf t) (env.lookup name)
  | number {t : Token} (kind : t.kind = .number) (known : t.lexeme.toList ≠ [])
      (digits : ∀ c ∈ t.lexeme.toList, c.isDigit = true) :
      Computes env (leaf t) (Float.ofNat (Decimal.spelledFrom 0 t.lexeme.toList))
  | node {l r : Tree} {op : Token} {a b v : Float} (left : Computes env l a)
      (right : Computes env r b) (result : Arithmetic op.kind a b v) : Computes env (node l op r) v

/-- A failure of the root of a tree itself, whatever may fail below it. -/
inductive Fault (env : Environment) : Tree → EvalError → Prop
  | identifier {t : Token} (kind : t.kind = .identifier)
      (other : ∀ name, t.lexeme.toList ≠ [name]) :
      Fault env (leaf t)
        ⟨.malformed ("identifier '" ++ t.lexeme ++ "' is not a single letter"), t.span⟩
  | number {t : Token} (kind : t.kind = .number)
      (other : ¬ (t.lexeme.toList ≠ [] ∧ ∀ c ∈ t.lexeme.toList, c.isDigit = true)) :
      Fault env (leaf t) ⟨.badNumeral t.lexeme, t.span⟩
  | word {t : Token} (kind : t.kind ≠ .identifier ∧ t.kind ≠ .number) :
      Fault env (leaf t) ⟨.malformed ("leaf holds " ++ t.text), t.span⟩
  | operator {l r : Tree} {op : Token} (kind : op.kind ∉ [.plus, .minus, .star, .slash]) :
      Fault env (node l op r) ⟨.notAnOperator op.lexeme, op.span⟩
  | division {l r : Tree} {op : Token} {b : Float} (kind : op.kind = .slash)
      (right : Computes env r b) (divisor : (b == 0) = true) :
      Fault env (node l op r)
        ⟨.divisionByZero, ⟨l.leftmost.span.start, r.rightmost.span.stop⟩⟩

end Tree

variable {env : Environment}

namespace Token

open Calculator.Tree

/-- A leaf has the value that it computes, or fails by itself. -/
theorem value_eq_ok_iff (t : Token) (v : Float) :
    t.value env = .ok v ↔ (leaf t).Computes env v := by
  constructor
  · intro known
    unfold value at known
    split at known
    · rename_i kind
      split at known
      · rename_i name alone
        cases known
        exact .identifier kind alone
      · cases known
    · rename_i kind
      split at known
      · rename_i n read
        unfold Decimal.natural? at read
        split at read
        · rename_i digits
          cases read
          cases known
          exact .number kind digits.1 (List.all_eq_true.mp digits.2)
        · cases read
      · cases known
    · cases known
  · intro computes
    cases computes with
    | identifier kind alone => simp only [value, kind, alone]
    | number kind known digits =>
      have all : t.lexeme.toList.all Char.isDigit = true := List.all_eq_true.mpr digits
      simp only [value, kind, Decimal.natural?, known, all, ne_eq, not_false_eq_true, and_self,
        ↓reduceIte]

theorem value_eq_error_iff (t : Token) (e : EvalError) :
    t.value env = .error e ↔ (leaf t).Fault env e := by
  constructor
  · intro failed
    unfold value at failed
    split at failed
    · rename_i kind
      split at failed
      · cases failed
      · rename_i other
        cases failed
        exact .identifier kind other
    · rename_i kind
      split at failed
      · cases failed
      · rename_i unread
        cases failed
        refine .number kind fun digits => ?_
        have read := (Decimal.natural?_isSome_iff t.lexeme.toList).mpr
          ⟨digits.1, List.all_eq_true.mpr digits.2⟩
        rw [unread] at read
        cases read
    · rename_i identifier number
      cases failed
      exact .word ⟨identifier, number⟩
  · intro fault
    cases fault with
    | identifier kind other => simp only [value, kind]
    | number kind other =>
      have unread : Decimal.natural? t.lexeme.toList = none := by
        rw [← List.all_eq_true] at other
        exact if_neg other
      simp only [value, kind, unread]
    | word kind =>
      unfold value
      split
      · rename_i identifier
        exact (kind.1 identifier).elim
      · rename_i number
        exact (kind.2 number).elim
      · rfl

theorem join_eq_ok_iff {op : Token} {whole : Span} {a b v : Float} :
    op.join whole a b = .ok v ↔ Arithmetic op.kind a b v := by
  constructor
  · intro known
    unfold join at known
    cases kind : op.kind with
    | slash =>
      simp only [kind, Kind.operator?, Operator.apply?] at known
      cases divisor : b == 0 with
      | true =>
        simp only [divisor, ↓reduceIte] at known
        cases known
      | false =>
        simp only [divisor, Bool.false_eq_true, ↓reduceIte] at known
        cases known
        exact .divide divisor
    | plus | minus | star =>
      simp only [kind, Kind.operator?, Operator.apply?] at known
      cases known
      constructor
    | number | identifier | lparen | rparen | eof =>
      simp only [kind, Kind.operator?] at known
      cases known
  · intro result
    unfold join
    generalize op.kind = kind at result
    cases result with
    | plus | minus | times => rfl
    | divide divisor =>
      simp only [Kind.operator?, Operator.apply?, divisor, Bool.false_eq_true, ↓reduceIte]

end Token

namespace Tree

/-- A node has a value where both of its sides have one and its operator joins them. -/
theorem eval_node_eq_ok_iff {l r : Tree} {op : Token} {v : Float} :
    (node l op r).eval env = .ok v ↔
      ∃ a b, l.eval env = .ok a ∧ r.eval env = .ok b ∧ op.join (node l op r).span a b = .ok v := by
  constructor
  · intro known
    rw [eval] at known
    cases left : l.eval env with
    | error e =>
      rw [left] at known
      cases known
    | ok a =>
      cases right : r.eval env with
      | error e =>
        rw [left, right] at known
        cases known
      | ok b =>
        rw [left, right] at known
        exact ⟨a, b, rfl, rfl, known⟩
  · rintro ⟨a, b, left, right, joined⟩
    rw [eval, left, right]
    exact joined

/-- What evaluation yields is what a tree computes from its leaves upward. -/
theorem eval_eq_ok_iff (t : Tree) (v : Float) : t.eval env = .ok v ↔ t.Computes env v := by
  induction t generalizing v with
  | leaf t => exact Token.value_eq_ok_iff t v
  | node l op r ihLeft ihRight =>
    rw [eval_node_eq_ok_iff]
    constructor
    · rintro ⟨a, b, left, right, joined⟩
      exact .node ((ihLeft a).mp left) ((ihRight b).mp right) (Token.join_eq_ok_iff.mp joined)
    · intro computes
      cases computes with
      | node left right result =>
        exact ⟨_, _, (ihLeft _).mpr left, (ihRight _).mpr right, Token.join_eq_ok_iff.mpr result⟩

/-- Where both sides have values, a node fails by itself or not at all. -/
theorem join_eq_error_iff {l r : Tree} {op : Token} {a b : Float} (right : r.eval env = .ok b)
    (e : EvalError) :
    op.join (node l op r).span a b = .error e ↔ (node l op r).Fault env e := by
  rw [span_eq_edges]
  constructor
  · intro failed
    rcases Token.join_error failed with ⟨none, rfl⟩ | ⟨slash, zero, rfl⟩
    · refine .operator fun known => ?_
      cases kind : op.kind with
      | plus | minus | star | slash =>
        rw [kind] at none
        cases none
      | number | identifier | lparen | rparen | eof =>
        rw [kind] at known
        simp at known
    · exact .division slash ((eval_eq_ok_iff r b).mp right) zero
  · intro fault
    cases fault with
    | operator other =>
      cases kind : op.kind with
      | plus | minus | star | slash =>
        rw [kind] at other
        simp at other
      | number | identifier | lparen | rparen | eof =>
        simp only [Token.join, kind, Kind.operator?]
    | division slash computes zero =>
      have same := (eval_eq_ok_iff r _).mpr computes
      rw [right] at same
      cases same
      simp only [Token.join, slash, Kind.operator?, Operator.apply?, zero, ↓reduceIte, leftmost,
        rightmost]

theorem fault_unique {n : Tree} {e e' : EvalError} (fault : n.Fault env e)
    (fault' : n.Fault env e') : e = e' := by
  cases n with
  | leaf t =>
    have failed := (Token.value_eq_error_iff t e).mpr fault
    rw [(Token.value_eq_error_iff t e').mpr fault'] at failed
    cases failed
    rfl
  | node l op r =>
    cases fault with
    | operator kind =>
      cases fault' with
      | operator => rfl
      | division kind' =>
        rw [kind'] at kind
        simp at kind
    | division kind _ _ =>
      cases fault' with
      | operator kind' =>
        rw [kind] at kind'
        simp at kind'
      | division => rfl

end Tree

end Calculator
