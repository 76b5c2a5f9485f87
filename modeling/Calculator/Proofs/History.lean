import Calculator.Proofs.Answers
import Calculator.Proofs.Numerals

set_option autoImplicit false

namespace Calculator

open Text

namespace Session

inductive Request where
  | enter (name : Char) (text : String)
  | run (evaluate : Bool) (input : String)

/-- A session keeps its texts. A text is entered without an answer. -/
def machine : Machine Session Request (Option (Except Failure Report)) where
  next
    | s, .enter name text => s.enter name text
    | s, .run _ _ => s
  reply
    | _, .enter _ _ => none
    | s, .run evaluate input => some (s.run evaluate input)

def entered (history : List Request) : List (Char × String) :=
  history.filterMap fun
    | .enter name text => some (name, text)
    | .run _ _ => none

/-- Every name once, in the order in which the names came up, with its last text. -/
def latest : List (Char × String) → List (Char × String)
  | [] => []
  | (name, text) :: rest =>
    (name, (lastOf name rest).getD text) :: (latest rest).filter fun entry => entry.1 ≠ name

/-- The names that have a text after a history, in their order, each with the text that was entered
for it last. -/
def inputsAfter (history : List Request) : List (Char × String) :=
  latest (initial.entries ++ entered history)

section Latest

variable (name : Char) (text : String) (entries : List (Char × String))

theorem filter_replace_self :
    (replace name text entries).filter (fun entry => entry.1 ≠ name) =
      entries.filter fun entry => entry.1 ≠ name := by
  induction entries with
  | nil => simp [replace]
  | cons entry rest ih =>
    obtain ⟨other, old⟩ := entry
    by_cases same : other = name
    · simp [replace, same]
    · simp only [replace, same, ↓reduceIte, List.filter_cons, ih]

theorem filter_replace_of_ne {other : Char} (apart : name ≠ other) :
    (replace name text entries).filter (fun entry => entry.1 ≠ other) =
      replace name text (entries.filter fun entry => entry.1 ≠ other) := by
  induction entries with
  | nil => simp [replace, apart]
  | cons entry rest ih =>
    obtain ⟨first, old⟩ := entry
    by_cases here : first = name
    · simp [replace, here, apart]
    · rw [replace, if_neg here, List.filter_cons, List.filter_cons, ih]
      by_cases dropped : first = other
      · simp [dropped]
      · simp [dropped, replace, here]

/-- Another text for a name takes the place of its last one. -/
theorem latest_append : latest (entries ++ [(name, text)]) = replace name text (latest entries) := by
  induction entries with
  | nil => rfl
  | cons entry rest ih =>
    obtain ⟨first, old⟩ := entry
    rw [List.cons_append, latest, latest, ih, lastOf_append]
    by_cases same : first = name
    · subst same
      rw [filter_replace_self]
      simp [lastOf, replace]
    · have apart : name ≠ first := fun equal => same equal.symm
      rw [filter_replace_of_ne _ _ _ apart]
      simp [lastOf, replace, same, apart]

example : latest [('x', "10"), ('y', "7"), ('q', "1/2"), ('x', "2")] =
    [('x', "2"), ('y', "7"), ('q', "1/2")] := rfl

theorem lastOf_filter_ne {other : Char} (apart : name ≠ other) :
    lastOf name (entries.filter fun entry => entry.1 ≠ other) = lastOf name entries := by
  induction entries with
  | nil => rfl
  | cons entry rest ih =>
    obtain ⟨first, old⟩ := entry
    rw [List.filter_cons]
    by_cases dropped : first = other
    · have elsewhere : first ≠ name := fun same => apart (same.symm.trans dropped)
      rw [if_neg (by simp [dropped]), ih, lastOf, if_neg elsewhere, Option.or_none]
    · rw [if_pos (by simp [dropped]), lastOf, lastOf, ih]

theorem not_mem_names_filter_ne :
    name ∉ (entries.filter fun entry => entry.1 ≠ name).map Prod.fst := by
  simp

theorem lastOf_latest : lastOf name (latest entries) = lastOf name entries := by
  induction entries with
  | nil => rfl
  | cons entry rest ih =>
    obtain ⟨first, old⟩ := entry
    rw [latest, lastOf, lastOf]
    by_cases same : first = name
    · subst same
      rw [lastOf_eq_none (not_mem_names_filter_ne first _)]
      cases lastOf first rest with
      | none => simp
      | some later => simp
    · rw [lastOf_filter_ne _ _ fun equal => same equal.symm, ih]
      simp [same]

theorem nodup_latest : ((latest entries).map Prod.fst).Nodup := by
  induction entries with
  | nil => exact List.nodup_nil
  | cons entry rest ih =>
    rw [latest, List.map_cons, List.nodup_cons]
    have kept : ((latest rest).filter fun other => other.1 ≠ entry.1).Sublist (latest rest) :=
      List.filter_sublist
    exact ⟨not_mem_names_filter_ne entry.1 _, ih.sublist (kept.map Prod.fst)⟩

end Latest

theorem after_latest (entries : List (Char × String)) (history : List Request) :
    machine.after ⟨latest entries⟩ history = ⟨latest (entries ++ entered history)⟩ := by
  induction history generalizing entries with
  | nil => simp [Machine.after, entered]
  | cons request later ih =>
    cases request with
    | enter name text =>
      have step : machine.next ⟨latest entries⟩ (.enter name text) =
          ⟨latest (entries ++ [(name, text)])⟩ := by
        rw [latest_append]
        rfl
      have run := ih (entries ++ [(name, text)])
      rw [List.append_assoc] at run
      rw [Machine.after, List.foldl_cons, step]
      exact run
    | run evaluate input => exact ih entries

/-- All that a session keeps is the last text of every name. -/
theorem after_eq (history : List Request) :
    machine.after initial history = ⟨inputsAfter history⟩ :=
  after_latest initial.entries history

theorem names_initial_entries :
    initial.entries.map Prod.fst = initialBindings.map Prod.fst := by
  decide

end Session

end Calculator
