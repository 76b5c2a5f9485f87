import Calculator.Proofs.Bindings

set_option autoImplicit false

namespace Calculator

namespace Evaluator

inductive Request where
  | define (name : Char) (value : Float)
  | evaluate (t : Tree)

/-- An evaluator keeps an environment. Definitions have no reply. -/
def machine : Machine Environment Request (Option (Except EvalError Float)) where
  next
    | env, .define name value => env.insert name value
    | env, .evaluate _ => env
  reply
    | _, .define _ _ => none
    | env, .evaluate t => some (t.eval env)

def definitions (history : List Request) : List (Char × Float) :=
  history.filterMap fun
    | .define name value => some (name, value)
    | .evaluate _ => none

/-- What a name is bound to behind a history: what it was last defined as, or what it was bound to from
the start. -/
def current (start : Environment) (history : List Request) (name : Char) : Option Float :=
  (lastOf name (definitions history)).or (start.binding? name)

/-- Some names with what they are bound to behind a history, and no others. -/
def table (start : Environment) (history : List Request) (names : List Char) : Environment :=
  .ofList (names.filterMap fun name => (current start history name).map (name, ·))

theorem after_eq (start : Environment) (history : List Request) :
    machine.after start history =
      (definitions history).foldl (fun env (name, value) => env.insert name value) start := by
  induction history generalizing start with
  | nil => rfl
  | cons request later ih =>
    cases request with
    | define name value => exact ih (start.insert name value)
    | evaluate t => exact ih start

/-- The state of an evaluator binds what is currently bound. Evaluations have no part in it. -/
theorem binding?_after (start : Environment) (history : List Request) (name : Char) :
    (machine.after start history).binding? name = current start history name := by
  rw [after_eq, Environment.binding?_insertAll, current]

theorem binding?_table (start : Environment) (history : List Request) (names : List Char)
    (name : Char) :
    (table start history names).binding? name =
      if name ∈ names then current start history name else none := by
  rw [table, Environment.binding?_ofList, lastOf_filterMap_names]

theorem current_append (start : Environment) (front back : List Request) (name : Char) :
    current start (front ++ back) name =
      (lastOf name (definitions back)).or (current start front name) := by
  rw [current, definitions, List.filterMap_append, lastOf_append, Option.or_assoc]
  rfl

theorem current_append_define (start : Environment) (front back : List Request) (name other : Char)
    (value : Float) :
    current start (front ++ .define name value :: back) other =
      (lastOf other (definitions back)).or
        (if name = other then some value else current start front other) := by
  have step : lastOf other (definitions (.define name value :: back)) =
      (lastOf other (definitions back)).or (if name = other then some value else none) := rfl
  rw [current_append, step, Option.or_assoc, ite_some_or]

theorem lookup_after (start : Environment) (history : List Request) (name : Char) :
    (machine.after start history).lookup name = (current start history name).getD 0 := by
  rw [Environment.lookup_eq_binding?, binding?_after]

/-- The reply to an evaluation that is asked for between other requests. -/
def answer (start : Environment) (before later : List Request) (t : Tree) :
    Option (Option (Except EvalError Float)) :=
  (machine.replies start (before ++ .evaluate t :: later))[before.length]?

theorem answer_eq (start : Environment) (before later : List Request) (t : Tree) :
    answer start before later t = some (some (t.eval (machine.after start before))) := by
  rw [answer, Machine.getElem?_replies]
  rfl

/-- Of two histories, a tree sees only what the names in it read as. -/
theorem answer_congr {start : Environment} {before before' : List Request} {t : Tree}
    (agree : ∀ name ∈ t.names,
      (current start before name).getD 0 = (current start before' name).getD 0)
    (later later' : List Request) :
    answer start before later t = answer start before' later' t := by
  have value : t.eval (machine.after start before) = t.eval (machine.after start before') := by
    refine Tree.eval_congr fun name member => ?_
    rw [lookup_after, lookup_after]
    exact agree name member
  rw [answer_eq, answer_eq, value]

/-- A table may leave out the names that read as zero. -/
theorem answer_eq_eval_table {start : Environment} {before : List Request} {t : Tree}
    {names : List Char}
    (enough : ∀ name ∈ t.names, name ∉ names → (current start before name).getD 0 = 0)
    (later : List Request) :
    answer start before later t = some (some (t.eval (table start before names))) := by
  have value : t.eval (machine.after start before) = t.eval (table start before names) := by
    refine Tree.eval_congr fun name member => ?_
    rw [lookup_after, Environment.lookup_eq_binding?, binding?_table]
    split
    · rfl
    · exact enough name member ‹_›
  rw [answer_eq, value]

section Inserted

variable (start : Environment) (front back later : List Request) (t : Tree)

theorem current_append_evaluate (u : Tree) (name : Char) :
    current start (front ++ .evaluate u :: back) name = current start (front ++ back) name := by
  rw [current_append, current_append]
  rfl

theorem answer_define_of_not_mem {name : Char} (absent : name ∉ t.names) (value : Float) :
    answer start (front ++ .define name value :: back) later t =
      answer start (front ++ back) later t := by
  refine answer_congr (fun other member => ?_) later later
  have apart : name ≠ other := fun same => absent (same ▸ member)
  rw [current_append_define, if_neg apart, current_append]

theorem answer_define_zero {name : Char}
    (unbound : (machine.after start front).binding? name = none) :
    answer start (front ++ .define name 0 :: back) later t =
      answer start (front ++ back) later t := by
  refine answer_congr (fun other _ => ?_) later later
  rw [binding?_after] at unbound
  rw [current_append_define, current_append]
  by_cases same : name = other
  · -- Behind a later definition neither matters, and without one both read as zero.
    rw [if_pos same, ← same, unbound]
    cases lastOf name (definitions back) with
    | none => rfl
    | some value => rfl
  · rw [if_neg same]

theorem answer_of_zero {before : List Request} {name : Char}
    (zero : (machine.after start before).binding? name = some 0) :
    answer start before later t =
      some (some (t.eval (table start before (t.names.filter (· ≠ name))))) := by
  refine answer_eq_eval_table (fun other member dropped => ?_) later
  have same : other = name := by
    by_cases same : other = name
    · exact same
    · exact absurd (List.mem_filter.mpr ⟨member, decide_eq_true same⟩) dropped
  rw [same, ← binding?_after, zero]
  rfl

end Inserted

/-- Every answer is the value of the tree in a table of the names in it, each with what was defined for
it last before the evaluation. So an evaluation leaves no trace, a definition has no effect on a tree
without its name, and a definition as zero has none where the name was not bound. -/
theorem answer_table (start : Environment) (front back later : List Request) (t : Tree) :
    answer start (front ++ back) later t =
        some (some (t.eval (table start (front ++ back) t.names))) ∧
      (∀ name, (table start (front ++ back) t.names).binding? name =
        if name ∈ t.names then
          (lastOf name (definitions (front ++ back))).or (start.binding? name)
        else none) ∧
      (∀ u name, (machine.after start (front ++ .evaluate u :: back)).binding? name =
        (machine.after start (front ++ back)).binding? name) ∧
      (∀ u, answer start (front ++ .evaluate u :: back) later t =
        answer start (front ++ back) later t) ∧
      (∀ name value, name ∉ t.names →
        answer start (front ++ .define name value :: back) later t =
          answer start (front ++ back) later t) ∧
      (∀ name, (machine.after start front).binding? name = none →
        answer start (front ++ .define name 0 :: back) later t =
          answer start (front ++ back) later t) ∧
      ∀ name, (machine.after start (front ++ back)).binding? name = some 0 →
        answer start (front ++ back) later t =
          some (some (t.eval (table start (front ++ back) (t.names.filter (· ≠ name))))) := by
  refine ⟨?_, binding?_table start _ _, ?_, ?_, ?_, ?_, ?_⟩
  · exact answer_eq_eval_table (fun name member absent => absurd member absent) later
  · intro u name
    rw [binding?_after, binding?_after, current_append_evaluate]
  · intro u
    exact answer_congr (fun name _ => by rw [current_append_evaluate]) later later
  · exact fun name value absent => answer_define_of_not_mem start front back later t absent value
  · exact fun name unbound => answer_define_zero start front back later t unbound
  · exact fun name zero => answer_of_zero start later t zero

end Evaluator

end Calculator
