import Calculator.Proofs.Computation

set_option autoImplicit false

namespace Calculator

/-- The nodes of a tree, each with all that hangs below it: first those on the left, then those on the
right, and then the root. -/
def Tree.postorder : Tree → List Tree
  | leaf t => [leaf t]
  | node l op r => l.postorder ++ (r.postorder ++ [node l op r])

namespace Postorder

open Calculator.Tree

/-- The turn of a node, with the values of the nodes before it that no other has taken, the last one on
top. Below a node that joins two values there are always two. -/
def turn (env : Environment) : Tree → List Float → Except EvalError (List Float)
  | leaf t, values =>
    match t.kind with
    | .identifier =>
      match t.lexeme.toList with
      | [name] => .ok (env.lookup name :: values)
      | _ => .error ⟨.malformed ("identifier '" ++ t.lexeme ++ "' is not a single letter"), t.span⟩
    | .number =>
      if t.lexeme.toList ≠ [] ∧ t.lexeme.toList.all Char.isDigit then
        .ok (Float.ofNat (Decimal.spelledFrom 0 t.lexeme.toList) :: values)
      else .error ⟨.badNumeral t.lexeme, t.span⟩
    | _ => .error ⟨.malformed ("leaf holds " ++ t.text), t.span⟩
  | node l op r, b :: a :: values =>
    match op.kind with
    | .plus => .ok ((a + b) :: values)
    | .minus => .ok ((a - b) :: values)
    | .star => .ok ((a * b) :: values)
    | .slash =>
      if b == 0 then .error ⟨.divisionByZero, ⟨l.leftmost.span.start, r.rightmost.span.stop⟩⟩
      else .ok ((a / b) :: values)
    | _ => .error ⟨.notAnOperator op.lexeme, op.span⟩
  | node .., values => .ok values

/-- The turns of some nodes one after the other, up to the first that fails. -/
def run (env : Environment) : List Tree → List Float → Except EvalError (List Float)
  | [], values => .ok values
  | n :: rest, values =>
    match turn env n values with
    | .error e => .error e
    | .ok values => run env rest values

def FirstFault (env : Environment) (nodes : List Tree) (e : EvalError) : Prop :=
  ∃ before n after, nodes = before ++ n :: after ∧ (∀ m ∈ before, ∀ e', ¬ m.Fault env e') ∧
    n.Fault env e

theorem turn_leaf (env : Environment) (t : Token) (values : List Float) :
    turn env (leaf t) values = (t.value env).map (· :: values) := by
  cases kind : t.kind with
  | identifier =>
    simp only [turn, Token.value, kind]
    rcases t.lexeme.toList with _ | ⟨name, _ | ⟨second, more⟩⟩
    · rfl
    · rfl
    · rfl
  | number =>
    simp only [turn, Token.value, kind, Decimal.natural?]
    split
    · rfl
    · rfl
  | plus | minus | star | slash | lparen | rparen | eof =>
    simp only [turn, Token.value, kind]
    rfl

theorem turn_node (env : Environment) (l r : Tree) (op : Token) (a b : Float)
    (values : List Float) :
    turn env (node l op r) (b :: a :: values) =
      (op.join (node l op r).span a b).map (· :: values) := by
  rw [span_eq_edges]
  cases kind : op.kind with
  | slash =>
    simp only [turn, Token.join, kind, Kind.operator?, Operator.apply?]
    cases b == 0 with
    | true => rfl
    | false => rfl
  | plus | minus | star | number | identifier | lparen | rparen | eof =>
    simp only [turn, Token.join, kind, Kind.operator?, Operator.apply?]
    rfl

/-- A tree takes its turns without a look at what was on the stack before, and leaves its value there.
The nodes behind it have their turns only if it has a value. -/
theorem run_postorder (env : Environment) (t : Tree) (rest : List Tree) (values : List Float) :
    run env (t.postorder ++ rest) values =
      match t.eval env with
      | .error e => .error e
      | .ok v => run env rest (v :: values) := by
  induction t generalizing rest values with
  | leaf t =>
    have step : run env (postorder (leaf t) ++ rest) values =
        match turn env (leaf t) values with
        | .error e => .error e
        | .ok values => run env rest values := rfl
    rw [step, turn_leaf, eval]
    cases t.value env with
    | error e => rfl
    | ok v => rfl
  | node l op r left right =>
    rw [postorder, List.append_assoc, List.append_assoc, left, eval]
    cases l.eval env with
    | error e => rfl
    | ok a =>
      dsimp only
      rw [right]
      cases r.eval env with
      | error e => rfl
      | ok b =>
        have step : run env ([node l op r] ++ rest) (b :: a :: values) =
            match turn env (node l op r) (b :: a :: values) with
            | .error e => .error e
            | .ok values => run env rest values := rfl
        dsimp only
        rw [step, turn_node, span]
        cases op.join (l.span.through r.span) a b with
        | error e => rfl
        | ok v => rfl

variable {env : Environment} {nodes more : List Tree} {e e' : EvalError}

/-- In a tree that has a value, no node fails. -/
theorem not_fault_of_eval {t : Tree} {v : Float} (known : t.eval env = .ok v) :
    ∀ n ∈ t.postorder, ∀ e, ¬ n.Fault env e := by
  induction t generalizing v with
  | leaf t =>
    refine List.forall_mem_singleton.mpr fun e fault => ?_
    have failed := (Token.value_eq_error_iff t e).mpr fault
    rw [eval, failed] at known
    cases known
  | node l op r ihLeft ihRight =>
    obtain ⟨a, b, left, right, joined⟩ := eval_node_eq_ok_iff.mp known
    intro n member e fault
    rw [postorder, List.mem_append, List.mem_append, List.mem_singleton] at member
    rcases member with inLeft | inRight | rfl
    · exact ihLeft left n inLeft e fault
    · exact ihRight right n inRight e fault
    · rw [(join_eq_error_iff right e).mpr fault] at joined
      cases joined

theorem FirstFault.append_right (first : FirstFault env nodes e) (more : List Tree) :
    FirstFault env (nodes ++ more) e := by
  obtain ⟨before, n, after, rfl, clean, fault⟩ := first
  exact ⟨before, n, after ++ more, by rw [List.append_assoc, List.cons_append], clean, fault⟩

theorem FirstFault.append_left (first : FirstFault env more e)
    (clean : ∀ n ∈ nodes, ∀ e', ¬ n.Fault env e') : FirstFault env (nodes ++ more) e := by
  obtain ⟨before, n, after, rfl, clean', fault⟩ := first
  refine ⟨nodes ++ before, n, after, (List.append_assoc _ _ _).symm, ?_, fault⟩
  exact List.forall_mem_append.mpr ⟨clean, clean'⟩

theorem firstFault_singleton {n : Tree} (fault : n.Fault env e) : FirstFault env [n] e :=
  ⟨[], n, [], rfl, List.forall_mem_nil _, fault⟩

/-- Where the first node fails, no other failure has only nodes without one in front of it. -/
theorem fault_eq_of_append {n n' : Tree} {between after after' : List Tree}
    (same : n :: after = between ++ n' :: after')
    (clean : ∀ m ∈ between, ∀ e, ¬ m.Fault env e) (fault : n.Fault env e)
    (fault' : n'.Fault env e') : e = e' := by
  cases between with
  | nil =>
    obtain ⟨rfl, _⟩ := List.cons_eq_cons.mp same
    exact fault_unique fault fault'
  | cons m between =>
    obtain ⟨rfl, _⟩ := List.cons_eq_cons.mp same
    exact (clean n List.mem_cons_self e fault).elim

/-- No two failures come first. -/
theorem FirstFault.unique (first : FirstFault env nodes e) (first' : FirstFault env nodes e') :
    e = e' := by
  obtain ⟨before, n, after, rfl, clean, fault⟩ := first
  obtain ⟨before', n', after', same, clean', fault'⟩ := first'
  rcases List.append_eq_append_iff.mp same with ⟨between, rfl, tails⟩ | ⟨between, rfl, tails⟩
  · have cleanBetween := (List.forall_mem_append.mp clean').2
    exact fault_eq_of_append tails cleanBetween fault fault'
  · have cleanBetween := (List.forall_mem_append.mp clean).2
    exact (fault_eq_of_append tails cleanBetween fault' fault).symm

/-- The failure of a tree is that of its first node that fails. -/
theorem firstFault_of_eval {t : Tree} (failed : t.eval env = .error e) :
    FirstFault env t.postorder e := by
  induction t with
  | leaf t => exact firstFault_singleton ((Token.value_eq_error_iff t e).mp failed)
  | node l op r ihLeft ihRight =>
    rw [eval] at failed
    cases left : l.eval env with
    | error first =>
      rw [left] at failed
      cases failed
      exact (ihLeft left).append_right _
    | ok a =>
      rw [left] at failed
      refine FirstFault.append_left ?_ (not_fault_of_eval left)
      cases right : r.eval env with
      | error second =>
        rw [right] at failed
        cases failed
        exact (ihRight right).append_right _
      | ok b =>
        rw [right] at failed
        refine FirstFault.append_left ?_ (not_fault_of_eval right)
        exact firstFault_singleton ((join_eq_error_iff right e).mp failed)

end Postorder

open Postorder in
/-- Evaluation is a run over the nodes in postorder that starts with no values, stops at the first
failure, and ends with one value. It fails exactly where some node fails by itself, with the failure of
the first such node, and else yields what the tree computes. -/
theorem Tree.eval_eq_postorder (env : Environment) (t : Tree) :
    run env t.postorder [] = (t.eval env).map (fun v => [v]) ∧
      ((∃ e, t.eval env = .error e) ↔ ∃ n ∈ t.postorder, ∃ e, n.Fault env e) ∧
      (∀ e, t.eval env = .error e ↔ FirstFault env t.postorder e) ∧
      ∀ v, t.eval env = .ok v ↔ t.Computes env v := by
  have stops : ∀ e, t.eval env = .error e ↔ FirstFault env t.postorder e := by
    intro e
    refine ⟨firstFault_of_eval, fun first => ?_⟩
    cases result : t.eval env with
    | ok v =>
      obtain ⟨before, n, after, shape, _, fault⟩ := first
      exact (not_fault_of_eval result n (by simp [shape]) e fault).elim
    | error e' => rw [first.unique (firstFault_of_eval result)]
  refine ⟨?_, ?_, stops, t.eval_eq_ok_iff⟩
  · have whole := run_postorder env t [] []
    rw [List.append_nil] at whole
    rw [whole]
    cases t.eval env with
    | error e => rfl
    | ok v => rfl
  · constructor
    · rintro ⟨e, failed⟩
      obtain ⟨before, n, after, shape, _, fault⟩ := (stops e).mp failed
      exact ⟨n, by simp [shape], e, fault⟩
    · rintro ⟨n, member, e, fault⟩
      cases result : t.eval env with
      | ok v => exact (not_fault_of_eval result n member e fault).elim
      | error e' => exact ⟨e', rfl⟩

open Postorder in
/-- The left side divides by zero before its operator is found to be none and before the right side is
found to be no numeral. -/
example :
    run .initial
      (Tree.node (.node (.leaf ⟨.identifier, "x", ⟨0, 1⟩⟩) ⟨.slash, "/", ⟨1, 2⟩⟩
          (.leaf ⟨.number, "0", ⟨2, 3⟩⟩))
        ⟨.lparen, "(", ⟨3, 4⟩⟩ (.leaf ⟨.number, "1.5", ⟨4, 7⟩⟩)).postorder [] =
      .error ⟨.divisionByZero, ⟨0, 3⟩⟩ := rfl

end Calculator
