import Std.Data.TreeMap
import Calculator.Decimal
import Calculator.Tree

set_option autoImplicit false

namespace Calculator

/-- The names that have a value, in the order of their code points. -/
structure Environment where
  values : Std.TreeMap Char Float

def initialBindings : List (Char × Nat) :=
  [('x', 10), ('y', 7), ('z', 3), ('p', 6), ('X', 20), ('Y', 15), ('Z', 12), ('P', 24)]

namespace Environment

def empty : Environment := ⟨∅⟩

def insert (env : Environment) (name : Char) (value : Float) : Environment :=
  ⟨env.values.insert name value⟩

/-- Bindings inserted in their order, so that the last one of a name counts. -/
def ofList (bindings : List (Char × Float)) : Environment :=
  bindings.foldl (fun env (name, value) => env.insert name value) empty

def initial : Environment :=
  ofList (initialBindings.map fun (name, value) => (name, Float.ofNat value))

/-- The value of a name, or zero. -/
def lookup (env : Environment) (name : Char) : Float := env.values.getD name 0

def contains (env : Environment) (name : Char) : Bool := env.values.contains name

/-- All names with their values, by code point. -/
def toList (env : Environment) : List (Char × Float) := env.values.toList

/-- The same names with equal values. What is not a number equals nothing, and the two zeros are
equal. -/
instance : BEq Environment := ⟨fun a b => a.toList == b.toList⟩

/-- Every name comes before all names behind it. -/
theorem toList_sorted (env : Environment) : env.toList.Pairwise (fun a b => a.1 < b.1) := by
  have ordered := Std.TreeMap.ordered_keys_toList (t := env.values)
  exact ordered.imp fun before => compareOfLessAndEq_eq_lt.mp before

theorem lookup_insert (env : Environment) (name other : Char) (value : Float) :
    (env.insert name value).lookup other = if name = other then value else env.lookup other := by
  simp only [insert, lookup, Std.TreeMap.getD_insert, Std.LawfulEqCmp.compare_eq_iff_eq]

theorem contains_insert (env : Environment) (name other : Char) (value : Float) :
    (env.insert name value).contains other ↔ name = other ∨ env.contains other := by
  simp only [insert, contains, Std.TreeMap.contains_insert, Bool.or_eq_true, beq_iff_eq,
    Std.LawfulEqCmp.compare_eq_iff_eq]

end Environment

inductive EvalFault where
  | divisionByZero
  | notAnOperator (lexeme : String)
  | malformed (reason : String)
  | badNumeral (lexeme : String)
deriving DecidableEq

/-- Why a tree has no value, and the place of the word or subtree at fault. -/
structure EvalError where
  fault : EvalFault
  position : Span
deriving DecidableEq

def EvalError.message (e : EvalError) : String :=
  match e.fault with
  | .divisionByZero => "cannot divide by zero at " ++ e.position.text
  | .notAnOperator lexeme =>
    "unsupported operator '" ++ lexeme ++ "' at " ++ e.position.text
  | .malformed reason => "invalid parse tree structure: " ++ reason ++ " at " ++ e.position.text
  | .badNumeral lexeme => "invalid number literal '" ++ lexeme ++ "' at " ++ e.position.text

/-- The operation on two values. There is no quotient by a zero of either sign, however large or
small the dividend, and no other divisor is taken for zero. -/
def Operator.apply? (op : Operator) (a b : Float) : Option Float :=
  match op with
  | .plus => some (a + b)
  | .minus => some (a - b)
  | .times => some (a * b)
  | .divide => if b == 0 then none else some (a / b)

/-- The value of a leaf: of the variable that an identifier names with its only character, or of the
number that digits spell, rounded to the nearest double. -/
def Token.value (env : Environment) (t : Token) : Except EvalError Float :=
  match t.kind with
  | .identifier =>
    match t.lexeme.toList with
    | [name] => .ok (env.lookup name)
    | _ =>
      .error ⟨.malformed ("identifier '" ++ t.lexeme ++ "' is not a single letter"), t.span⟩
  | .number =>
    match Decimal.natural? t.lexeme.toList with
    | some n => .ok (Float.ofNat n)
    | none => .error ⟨.badNumeral t.lexeme, t.span⟩
  | _ => .error ⟨.malformed ("leaf holds " ++ t.text), t.span⟩

/-- The value of two operands joined by a word, in a subtree that covers `whole`. -/
def Token.join (op : Token) (whole : Span) (a b : Float) : Except EvalError Float :=
  match op.kind.operator? with
  | none => .error ⟨.notAnOperator op.lexeme, op.span⟩
  | some operator =>
    match operator.apply? a b with
    | none => .error ⟨.divisionByZero, whole⟩
    | some value => .ok value

/-- The value of a tree, or its first failure. The left side is computed first, then the right side, and
only then is the operator looked at. -/
def Tree.eval (env : Environment) : Tree → Except EvalError Float
  | .leaf t => t.value env
  | .node l op r =>
    match l.eval env with
    | .error e => .error e
    | .ok a =>
      match r.eval env with
      | .error e => .error e
      | .ok b => op.join (l.span.through r.span) a b

end Calculator
