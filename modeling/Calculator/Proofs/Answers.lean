import Calculator.Session
import Calculator.Proofs.Bindings

set_option autoImplicit false

namespace Calculator

open Text

def Report.ofTokens (source : String) (ts : List Token) : Report :=
  ⟨source, ts, (parse ts).tree, (parse ts).diagnostics, [], none⟩

namespace Session

/-- What a session answers to an input if an evaluation is asked for, and what if not. -/
inductive Answers (s : Session) (input : String) : (asked plain : Except Failure Report) → Prop
  | empty (blank : trim input = "") : Answers s input (.error .emptyInput) (.error .emptyInput)
  | foreign {e : LexError} (known : trim input ≠ "") (cut : tokenize (trim input) = .error e) :
      Answers s input (.error (.lexing e)) (.error (.lexing e))
  | rejected {ts : List Token} {d : Diagnostic} (known : trim input ≠ "")
      (accepted : tokenize (trim input) = .ok ts) (failed : (parse ts).strict = .error d) :
      Answers s input (.ok { Report.ofTokens (trim input) ts with notes := [skippedNote] })
        (.ok (Report.ofTokens (trim input) ts))
  | evaluated {ts : List Token} {t : Tree} (known : trim input ≠ "")
      (accepted : tokenize (trim input) = .ok ts) (strict : (parse ts).strict = .ok t) :
      Answers s input
        (.ok { Report.ofTokens (trim input) ts with
          notes := s.fallbackNotes, result := some (t.eval s.environment) })
        (.ok (Report.ofTokens (trim input) ts))

theorem complete_of_clean (s : Session) {r : Report} {t : Tree} (tree : r.tree = some t)
    (clean : r.diagnostics = []) :
    s.complete r = { r with notes := s.fallbackNotes, result := some (t.eval s.environment) } := by
  simp only [complete, tree, clean]

theorem complete_of_faults (s : Session) {r : Report} (faults : r.diagnostics ≠ []) :
    s.complete r = { r with notes := [skippedNote] } := by
  unfold complete
  split
  · rename_i clean
    exact (faults clean).elim
  · rfl

theorem run_of_blank (s : Session) {input : String} (blank : trim input = "") (flag : Bool) :
    s.run flag input = .error .emptyInput := by
  have empty : Report.ofInput input = .error .emptyInput := by
    simp only [Report.ofInput, blank, ↓reduceIte]
  rw [run, empty, Except.map]

theorem answers (s : Session) (input : String) :
    Answers s input (s.run true input) (s.run false input) := by
  by_cases known : trim input = ""
  · rw [s.run_of_blank known, s.run_of_blank known]
    exact .empty known
  · cases cut : tokenize (trim input) with
    | error e =>
      have foreign : Report.ofInput input = .error (.lexing e) := by
        simp only [Report.ofInput, known, ↓reduceIte, cut]
      simp only [run, foreign, Except.map]
      exact .foreign known cut
    | ok ts =>
      have report : Report.ofInput input = .ok (Report.ofTokens (trim input) ts) := by
        simp only [Report.ofInput, known, ↓reduceIte, cut, Report.ofTokens]
      simp only [run, report, Except.map, ↓reduceIte, Bool.false_eq_true]
      cases strict : (parse ts).strict with
      | error d =>
        have faults : (Report.ofTokens (trim input) ts).diagnostics ≠ [] := by
          intro clean
          have first := Outcome.strict_eq_error_iff.mp strict
          rw [show (parse ts).diagnostics = [] from clean] at first
          cases first
        rw [s.complete_of_faults faults]
        exact .rejected known cut strict
      | ok t =>
        obtain ⟨tree, clean⟩ := Outcome.strict_eq_ok_iff.mp strict
        rw [s.complete_of_clean tree clean]
        exact .evaluated known cut strict

/-- A name is bound to the value that its text spells. Where it has no text or the text spells none, it
is bound as it was from the start. -/
theorem binding?_environment (s : Session) (distinct : (s.entries.map Prod.fst).Nodup)
    (name : Char) :
    s.environment.binding? name =
      ((lastOf name s.entries).bind spelled?).or (Environment.initial.binding? name) := by
  have inserted := Environment.binding?_insertAll
    (s.entries.filterMap fun entry => (spelled? entry.2).map (entry.1, ·)) .initial name
  rw [lastOf_filterMap (fun _ => spelled?) name distinct] at inserted
  rw [← inserted, environment, List.foldl_filterMap]
  congr
  funext env entry
  dsimp only
  cases spelled? entry.2 with
  | none => rfl
  | some value => rfl

end Session

end Calculator
