import Calculator.Evaluation
import Calculator.Lexer
import Calculator.Grammar

set_option autoImplicit false

namespace Calculator

inductive Failure where
  | lexing (error : LexError)
  | parsing (diagnostic : Diagnostic)
  | evaluation (error : EvalError)
  | emptyInput
deriving DecidableEq

def Failure.message : Failure → String
  | lexing e => "lexing failed: " ++ e.message
  | parsing d => "parsing failed: " ++ d.message
  | evaluation e => "evaluation failed: " ++ e.message
  | emptyInput => "Please enter an expression."

/-- The tree of a source text without faults. A foreign character counts before any other fault. -/
def Tree.ofSource (source : String) : Except Failure Tree :=
  match tokenize source with
  | .error e => .error (.lexing e)
  | .ok ts => (parse ts).strict.mapError .parsing

namespace Tree

variable {source : String} {ts : List Token}

theorem ofSource_of_foreign {e : LexError} (foreign : tokenize source = .error e) :
    ofSource source = .error (.lexing e) := by
  simp only [ofSource, foreign]

theorem ofSource_of_rejected {d : Diagnostic} (accepted : tokenize source = .ok ts)
    (rejected : (parse ts).strict = .error d) : ofSource source = .error (.parsing d) := by
  simp only [ofSource, accepted, rejected]
  rfl

theorem ofSource_of_strict {t : Tree} (accepted : tokenize source = .ok ts)
    (strict : (parse ts).strict = .ok t) : ofSource source = .ok t := by
  simp only [ofSource, accepted, strict]
  rfl

/-- A tree of a source is the strict reading of its tokens. -/
theorem strict_of_ofSource {t : Tree} (accepted : tokenize source = .ok ts)
    (read : ofSource source = .ok t) : (parse ts).strict = .ok t := by
  cases strict : (parse ts).strict with
  | error d =>
    rw [ofSource_of_rejected accepted strict] at read
    cases read
  | ok t' =>
    rw [ofSource_of_strict accepted strict] at read
    cases read
    rfl

end Tree

/-- The value of a source text in the initial environment. -/
def evaluate (source : String) : Except Failure Float :=
  match Tree.ofSource source with
  | .error e => .error e
  | .ok t => (t.eval .initial).mapError .evaluation

theorem evaluate_of_unread {source : String} {failure : Failure}
    (unread : Tree.ofSource source = .error failure) : evaluate source = .error failure := by
  simp only [evaluate, unread]

theorem evaluate_of_read {source : String} {t : Tree} (read : Tree.ofSource source = .ok t) :
    evaluate source = (t.eval .initial).mapError .evaluation := by
  simp only [evaluate, read]

section Read

variable {source : String} {t : Tree} (read : Tree.ofSource source = .ok t)
include read

theorem evaluate_eq_ok_iff {a : Float} :
    evaluate source = .ok a ↔ t.eval .initial = .ok a := by
  rw [evaluate_of_read read]
  cases t.eval .initial with
  | error e =>
    constructor
    · intro known
      cases known
    · intro known
      cases known
  | ok b =>
    constructor
    · intro known
      cases known
      rfl
    · intro known
      cases known
      rfl

theorem evaluate_eq_error_iff {e : Failure} :
    evaluate source = .error e ↔ ∃ e', t.eval .initial = .error e' ∧ e = .evaluation e' := by
  rw [evaluate_of_read read]
  cases t.eval .initial with
  | error e' =>
    constructor
    · intro failed
      cases failed
      exact ⟨e', rfl, rfl⟩
    · rintro ⟨_, failed, rfl⟩
      cases failed
      rfl
  | ok a =>
    constructor
    · intro failed
      cases failed
    · rintro ⟨_, failed, _⟩
      cases failed

end Read

end Calculator
