import Calculator.Proofs.Answers

set_option autoImplicit false

namespace Calculator

open Text

/-- A report says of its source what evaluating the source on its own says. -/
structure Report.Agrees (r : Report) (direct : Except Failure Float) : Prop where
  rejected : ∀ d, direct = .error (.parsing d) ↔ r.result = none ∧ r.diagnostics.head? = some d
  failed : ∀ e, direct = .error (.evaluation e) ↔ r.result = some (.error e)
  valued : ∀ value, direct = .ok value ↔ r.result = some (.ok value)

theorem Report.agrees_of_rejected {r : Report} {d : Diagnostic} (none : r.result = none)
    (first : r.diagnostics.head? = some d) : r.Agrees (.error (.parsing d)) where
  rejected e := by
    rw [none, first]
    simp
  failed e := by
    rw [none]
    simp
  valued value := by
    rw [none]
    simp

theorem Report.agrees_of_evaluated {r : Report} {result : Except EvalError Float}
    (some : r.result = some result) : r.Agrees (result.mapError .evaluation) := by
  cases result with
  | error e =>
    show r.Agrees (.error (.evaluation e))
    constructor <;> simp [some]
  | ok value =>
    show r.Agrees (.ok value)
    constructor <;> simp [some]

/-- Where a source was read, only its evaluation is left to fail. -/
theorem Failure.eq_evaluation {result : Except EvalError Float} {failure : Failure}
    (failed : result.mapError .evaluation = .error failure) : ∃ e, failure = .evaluation e := by
  cases result with
  | error e =>
    cases failed
    exact ⟨e, rfl⟩
  | ok value => cases failed

theorem evaluate_ne_emptyInput (source : String) : evaluate source ≠ .error .emptyInput := by
  cases cut : tokenize source with
  | error e =>
    rw [evaluate_of_unread (Tree.ofSource_of_foreign cut)]
    simp
  | ok ts =>
    cases strict : (parse ts).strict with
    | error d =>
      rw [evaluate_of_unread (Tree.ofSource_of_rejected cut strict)]
      simp
    | ok t =>
      rw [evaluate_of_read (Tree.ofSource_of_strict cut strict)]
      intro empty
      obtain ⟨e, other⟩ := Failure.eq_evaluation empty
      cases other

namespace Session

/-- The texts that a session starts with spell the values from the start. -/
theorem spelled?_initial : ∀ entry ∈ initialBindings,
    spelled? (Nat.repr entry.2) = some (Float.ofNat entry.2) := by
  decide +kernel

theorem binding?_initial_environment (name : Char) :
    initial.environment.binding? name = Environment.initial.binding? name := by
  have entries : lastOf name initial.entries = (lastOf name initialBindings).map Nat.repr :=
    lastOf_map Nat.repr name initialBindings
  rw [binding?_environment initial (by decide), entries, Environment.binding?_initial]
  cases known : lastOf name initialBindings with
  | none => rfl
  | some n =>
    have spelled := spelled?_initial (name, n) (mem_of_lastOf known)
    simp only [Option.map_some, Option.bind_some, spelled, Option.some_or]

theorem eval_initial_environment (t : Tree) : t.eval initial.environment = t.eval .initial := by
  refine Tree.eval_congr fun name _ => ?_
  rw [Environment.lookup_eq_binding?, Environment.lookup_eq_binding?, binding?_initial_environment]

end Session

/-- Where nothing was entered, a run of an input that is not blank and a direct evaluation of the
trimmed input agree in every outcome, and a run without an evaluation says the same of the source,
its tokens, its tree and its faults. -/
theorem run_initial (input : String) :
    (∀ source, evaluate source ≠ .error .emptyInput) ∧
      if trim input = "" then ∀ flag, Session.initial.run flag input = .error .emptyInput
      else
        (∀ e, Session.initial.run true input = .error (.lexing e) ↔
          evaluate (trim input) = .error (.lexing e)) ∧
        match Session.initial.run true input with
        | .error failure =>
          (∃ e, failure = .lexing e) ∧ Session.initial.run false input = .error failure
        | .ok r =>
          r.Agrees (evaluate (trim input)) ∧
            Session.initial.run false input = .ok { r with notes := [], result := none } := by
  refine ⟨evaluate_ne_emptyInput, ?_⟩
  split
  · rename_i blank
    intro flag
    exact Session.initial.run_of_blank blank flag
  · rename_i known
    have answered := Session.initial.answers input
    generalize Session.initial.run true input = asked at answered ⊢
    generalize Session.initial.run false input = plain at answered ⊢
    cases answered with
    | empty blank => exact (known blank).elim
    | foreign _ cut =>
      rw [evaluate_of_unread (Tree.ofSource_of_foreign cut)]
      simp
    | @rejected ts d _ accepted failed =>
      rw [evaluate_of_unread (Tree.ofSource_of_rejected accepted failed)]
      refine ⟨by simp, Report.agrees_of_rejected rfl (Outcome.strict_eq_error_iff.mp failed), rfl⟩
    | @evaluated ts t _ accepted strict =>
      have direct : evaluate (trim input) =
          (t.eval Session.initial.environment).mapError .evaluation := by
        rw [evaluate_of_read (Tree.ofSource_of_strict accepted strict),
          Session.eval_initial_environment]
      rw [direct]
      refine ⟨?_, Report.agrees_of_evaluated rfl, rfl⟩
      intro e
      constructor
      · intro foreign
        cases foreign
      · intro foreign
        obtain ⟨e, other⟩ := Failure.eq_evaluation foreign
        cases other

end Calculator
