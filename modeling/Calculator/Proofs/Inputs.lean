import Mathlib.Data.List.Induction
import Calculator.Proofs.History

set_option autoImplicit false

namespace Calculator

namespace Session

/-- The names that were entered and had no text from the start, each where it came up first. -/
def newcomers (history : List Request) : List Char :=
  (((entered history).map Prod.fst).removeAll (initialBindings.map Prod.fst)).eraseDups

/-- The text of a name behind a history: the one entered for it last, or else the one from the
start. -/
def textAfter (history : List Request) (name : Char) : Option String :=
  (lastOf name (entered history)).or (lastOf name initial.entries)

/-- The names come up in the order of their first texts. -/
theorem map_fst_latest (entries : List (Char × String)) :
    (latest entries).map Prod.fst = (entries.map Prod.fst).eraseDups := by
  induction entries using List.reverseRecOn with
  | nil => rfl
  | append_singleton entries entry ih =>
    rw [latest_append, map_fst_replace, ih, List.map_append, List.eraseDups_append]
    by_cases known : entry.1 ∈ entries.map Prod.fst
    · simp [known, List.removeAll]
    · simp [known, List.removeAll, List.eraseDups_cons]

/-- Entering a text moves no other name, and leaves its text as it is. -/
theorem getElem?_replace_of_ne (name : Char) (text : String) (entries : List (Char × String))
    (place : Nat) {entry : Char × String} (other : entry.1 ≠ name) :
    (replace name text entries)[place]? = some entry ↔ entries[place]? = some entry := by
  induction entries generalizing place with
  | nil =>
    cases place with
    | zero =>
      have apart : (name, text) ≠ entry := fun same => other (same ▸ rfl)
      simp [replace, apart]
    | succ place => exact Iff.rfl
  | cons first rest ih =>
    obtain ⟨here, old⟩ := first
    by_cases found : here = name
    · subst found
      rw [replace, if_pos rfl]
      cases place with
      | zero =>
        have apart : ∀ text', (here, text') ≠ entry := fun text' same => other (same ▸ rfl)
        simp [apart]
      | succ place => exact Iff.rfl
    · rw [replace, if_neg found]
      cases place with
      | zero => exact Iff.rfl
      | succ place => exact ih place

theorem names_inputsAfter (history : List Request) :
    (inputsAfter history).map Prod.fst =
      initialBindings.map Prod.fst ++ newcomers history := by
  have distinct : (initialBindings.map Prod.fst).eraseDups = initialBindings.map Prod.fst := by
    decide
  rw [inputsAfter, map_fst_latest, List.map_append, names_initial_entries, List.eraseDups_append,
    distinct, newcomers]

theorem mem_inputsAfter_iff (history : List Request) (name : Char) (text : String) :
    (name, text) ∈ inputsAfter history ↔ textAfter history name = some text := by
  rw [inputsAfter, mem_iff_lastOf (nodup_latest _), lastOf_latest, lastOf_append, textAfter]

/-- The inputs of a session behind any history. No name is listed twice. The names from the start
stand in front in their order, the others behind them in the order in which they came up, and each
has the text that was entered for it last. Runs among the entries make no difference, and another
entry changes neither the text nor the place of any other name. -/
theorem entries_after (history : List Request) :
    let inputs := (machine.after initial history).entries
    (inputs.map Prod.fst).Nodup ∧
      inputs.map Prod.fst = initialBindings.map Prod.fst ++ newcomers history ∧
      (∀ name text, (name, text) ∈ inputs ↔ textAfter history name = some text) ∧
      (∀ evaluate input later, machine.after initial (history ++ .run evaluate input :: later) =
        machine.after initial (history ++ later)) ∧
      ∀ (name : Char) (text : String) (place : Nat) (entry : Char × String), entry.1 ≠ name →
        ((machine.after initial (history ++ [.enter name text])).entries[place]? = some entry ↔
          inputs[place]? = some entry) := by
  intro inputs
  have kept : inputs = inputsAfter history := congrArg entries (after_eq history)
  refine ⟨?_, ?_, ?_, ?_, ?_⟩
  · rw [kept]
    exact nodup_latest _
  · rw [kept]
    exact names_inputsAfter history
  · intro name text
    rw [kept]
    exact mem_inputsAfter_iff history name text
  · intro evaluate input later
    exact machine.after_of_idle (fun _ => rfl) initial history later
  · intro name text place entry other
    rw [Machine.after_append]
    exact getElem?_replace_of_ne name text inputs place other

/-- A name from the start and a new one are entered twice each, with runs in between. One run ends
in a fault, and one text spells no value. -/
def revised : List Request :=
  [.enter 'q' " 1/2 ", .run true "q +", .enter 'y' "seven", .enter 'é' "", .run true "q + y",
    .enter 'q' " 5 ", .enter 'y' " 8"]

theorem entries_after_revised :
    (machine.after initial revised).entries.map Prod.fst =
        ['x', 'y', 'z', 'p', 'X', 'Y', 'Z', 'P', 'q', 'é'] ∧
      ('q', " 5 ") ∈ (machine.after initial revised).entries ∧
      ('y', "seven") ∉ (machine.after initial revised).entries ∧
      'y' ≠ 'q' ∧
      (machine.after initial (revised ++ [.enter 'q' "0"])).entries[1]? = some ('y', " 8") := by
  obtain ⟨_, names, texts, _, others⟩ := entries_after revised
  refine ⟨names.trans (by decide), (texts 'q' " 5 ").mpr (by decide), ?_, by decide, ?_⟩
  · exact fun stale => absurd ((texts 'y' "seven").mp stale) (by decide)
  · exact (others 'q' "0" 1 ('y', " 8") (by decide)).mpr (by decide)

end Session

end Calculator
