import Calculator.Tree

set_option autoImplicit false

namespace Calculator

inductive Fault where
  | missingOperand
  | missingParen
  | leftover
deriving DecidableEq

/-- A fault, the lexeme that was found there (empty for the end of the input), and its place. -/
structure Diagnostic where
  fault : Fault
  found : String
  position : Span
deriving DecidableEq

namespace Diagnostic

def describe (lexeme : String) : String :=
  if lexeme = "" then "end of input" else "'" ++ lexeme ++ "'"

def message (d : Diagnostic) : String :=
  match d.fault with
  | .missingOperand =>
    "expected operand, found " ++ describe d.found ++ " at " ++ d.position.text
  | .missingParen =>
    "expected ')', found " ++ describe d.found ++ " at " ++ d.position.text
  | .leftover =>
    "unexpected token after expression: '" ++ d.found ++ "' at " ++ d.position.text

/-- A fault at the first of the tokens that are left. When none is left, the place is an end marker
at offset zero. -/
def ofRest (fault : Fault) (rest : List Token) : Diagnostic :=
  let next := rest.headD (.endMarker 0)
  ⟨fault, next.lexeme, next.span⟩

end Diagnostic

abbrev Diagnostics := List Diagnostic

namespace Diagnostics

/-- Adds a diagnostic, unless the last one kept starts at or behind its place. -/
def report (ds : Diagnostics) (d : Diagnostic) : Diagnostics :=
  match ds.getLast? with
  | none => [d]
  | some last => if d.position.start ≤ last.position.start then ds else ds ++ [d]

theorem report_nil (d : Diagnostic) : report [] d = [d] := rfl

theorem report_ne_nil (ds : Diagnostics) (d : Diagnostic) : ds.report d ≠ [] := by
  unfold report
  split
  · exact List.cons_ne_nil _ _
  · rename_i last known
    split
    · intro empty
      rw [empty] at known
      cases known
    · exact List.append_ne_nil_of_right_ne_nil _ (List.cons_ne_nil _ _)

def Rising (ds : Diagnostics) : Prop :=
  ds.Pairwise (fun a b => a.position.start < b.position.start)

theorem report_rising {ds : Diagnostics} (rising : Rising ds) (d : Diagnostic) :
    Rising (ds.report d) := by
  unfold report
  split
  · exact List.pairwise_singleton _ _
  · rename_i last known
    split
    · exact rising
    · rename_i behind
      obtain ⟨front, rfl⟩ := List.getLast?_eq_some_iff.mp known
      have beforeLast := (List.pairwise_append.mp rising).2.2
      refine List.pairwise_append.mpr ⟨rising, List.pairwise_singleton _ _, ?_⟩
      intro a kept b new
      rw [List.mem_singleton.mp new]
      rcases List.mem_append.mp kept with earlier | final
      · have := beforeLast a earlier last (List.mem_singleton_self last)
        omega
      · rw [List.mem_singleton.mp final]
        omega

end Diagnostics

/-- What a rule has read from the front of `ts`, and what is left behind it. -/
structure Parsed (ts : List Token) where
  tree : Tree
  rest : List Token
  rest_lt : rest.length < ts.length

namespace Grammar

/-- Reads a tree from the front of some tokens, or gives up, and adds to the diagnostics. -/
abbrev Rule := (ts : List Token) → Diagnostics → Option (Parsed ts) × Diagnostics

/-- The tokens behind a `)`. A missing one is reported and taken for present. -/
def closeParen (ts : List Token) (ds : Diagnostics) : List Token × Diagnostics :=
  match ts with
  | [] => (ts, ds.report (.ofRest .missingParen ts))
  | t :: rest =>
    if t.kind = .rparen then (rest, ds)
    else (ts, ds.report (.ofRest .missingParen ts))

theorem closeParen_length_le (ts : List Token) (ds : Diagnostics) :
    (closeParen ts ds).1.length ≤ ts.length := by
  unfold closeParen
  split
  · exact Nat.le_refl _
  · split
    · exact Nat.le_succ _
    · exact Nat.le_refl _

/-- A number, an identifier, or what `inner` reads between parentheses. Anything else is a missing
operand at the first token, and so is a `(` behind which `inner` gives up. -/
def factor (inner : Rule) : Rule
  | [], ds => (none, ds.report (.ofRest .missingOperand []))
  | t :: ts, ds =>
    match t.kind with
    | .number | .identifier => (some ⟨.leaf t, ts, Nat.lt_succ_self _⟩, ds)
    | .lparen =>
      match inner ts ds with
      | (none, ds) => (none, ds.report (.ofRest .missingOperand (t :: ts)))
      | (some p, ds) =>
        (some ⟨p.tree, (closeParen p.rest ds).1,
          Nat.lt_succ_of_le (Nat.le_trans (closeParen_length_le p.rest ds) (Nat.le_of_lt p.rest_lt))⟩,
          (closeParen p.rest ds).2)
    | _ => (none, ds.report (.ofRest .missingOperand (t :: ts)))

/-- Folds further units onto a tree from the left, for as long as an operator with an operand behind
it follows. An operator without one is left unread. -/
def extend (joins : Kind → Bool) (unit : Rule) {ts : List Token} (p : Parsed ts)
    (ds : Diagnostics) : Parsed ts × Diagnostics :=
  match shape : p.rest with
  | [] => (p, ds)
  | op :: operand =>
    if joins op.kind then
      match unit operand ds with
      | (none, ds) => (p, ds)
      | (some q, ds) =>
        have shorter : q.rest.length < p.rest.length := by
          rw [shape]
          exact Nat.lt_succ_of_lt q.rest_lt
        extend joins unit
          (⟨.node p.tree op q.tree, q.rest, Nat.lt_trans shorter p.rest_lt⟩ : Parsed ts) ds
    else (p, ds)
termination_by p.rest.length

/-- One unit, and as many more as operators of one level of precedence join to it. -/
def chain (joins : Kind → Bool) (unit : Rule) : Rule := fun ts ds =>
  match unit ts ds with
  | (none, ds) => (none, ds)
  | (some p, ds) =>
    let (p, ds) := extend joins unit p ds
    (some p, ds)

def term (inner : Rule) : Rule := chain Kind.isMultiplicative (factor inner)

def sum (inner : Rule) : Rule := chain Kind.isAdditive (term inner)

/-- Reads nothing, and leaves it to the rule around it to say so. -/
def nothing : Rule := fun _ ds => (none, ds)

/-- The grammar, read from the left with recovery:

    expr:   term (('+' | '-') term)*
    term:   factor (('*' | '/') factor)*
    factor: NUMBER | IDENTIFIER | '(' expr ')'

At most `depth` groups are open inside one another. A group opens with a `(`, so as many as there are
of those in the tokens is no restriction. -/
def expr : Nat → Rule
  | 0 => sum nothing
  | depth + 1 => sum (expr depth)

/-- Reports the first token left behind an expression, unless it is an end marker or something was
reported before: then what is left is a consequence of that. -/
def checkEnd (ts : List Token) (ds : Diagnostics) : Diagnostics :=
  match ts with
  | [] => ds
  | t :: _ =>
    if t.kind = .eof ∨ ds ≠ [] then ds else ds.report (.ofRest .leftover ts)

def Reports (rule : Rule) : Prop :=
  ∀ ts ds, (rule ts ds).1 = none → (rule ts ds).2 ≠ []

theorem factor_reports (inner : Rule) : Reports (factor inner) := by
  intro ts ds failed
  cases ts with
  | nil => exact Diagnostics.report_ne_nil _ _
  | cons t ts =>
    simp only [factor] at failed ⊢
    split at failed
    · cases failed
    · cases failed
    · split at failed
      · exact Diagnostics.report_ne_nil _ _
      · cases failed
    · exact Diagnostics.report_ne_nil _ _

theorem chain_reports {joins : Kind → Bool} {unit : Rule} (reports : Reports unit) :
    Reports (chain joins unit) := by
  intro ts ds failed
  have ofUnit := reports ts ds
  unfold chain at failed ⊢
  split at failed
  · rename_i gaveUp
    rw [gaveUp] at ofUnit
    exact ofUnit rfl
  · cases failed

theorem sum_reports (inner : Rule) : Reports (sum inner) :=
  chain_reports (chain_reports (factor_reports inner))

theorem expr_reports (depth : Nat) : Reports (expr depth) := by
  cases depth with
  | zero => exact sum_reports nothing
  | succ depth => exact sum_reports (expr depth)

end Grammar

/-- What a recovering parse leaves. A tree beside diagnostics is a repaired one and not what the
tokens say. Where there is no tree, there is a diagnostic. -/
structure Outcome where
  tree : Option Tree
  diagnostics : Diagnostics
  reported : tree = none → diagnostics ≠ []

namespace Outcome

def isClean (o : Outcome) : Bool := o.tree.isSome && o.diagnostics.isEmpty

/-- The tree of a clean parse, else the first diagnostic. -/
def strict : Outcome → Except Diagnostic Tree
  | ⟨some t, [], _⟩ => .ok t
  | ⟨_, d :: _, _⟩ => .error d
  | ⟨none, [], reported⟩ => absurd rfl (reported rfl)

theorem strict_eq_ok_iff {o : Outcome} {t : Tree} :
    o.strict = .ok t ↔ o.tree = some t ∧ o.diagnostics = [] := by
  unfold strict
  split
  · simp
  · simp
  · rename_i reported
    exact absurd rfl (reported rfl)

theorem strict_eq_error_iff {o : Outcome} {d : Diagnostic} :
    o.strict = .error d ↔ o.diagnostics.head? = some d := by
  unfold strict
  split
  · simp
  · simp
  · rename_i reported
    exact absurd rfl (reported rfl)

end Outcome

/-- The outcome of reading all of `ts` up to its first end marker as an expression. -/
def parse (ts : List Token) : Outcome :=
  match result : Grammar.expr (ts.countP (·.kind = .lparen)) ts [] with
  | (some p, ds) => ⟨some p.tree, Grammar.checkEnd p.rest ds, fun gone => by cases gone⟩
  | (none, ds) =>
    ⟨none, ds, fun _ => by
      have reports := Grammar.expr_reports (ts.countP (·.kind = .lparen)) ts []
      rw [result] at reports
      exact reports rfl⟩

end Calculator
