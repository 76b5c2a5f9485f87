import Calculator.Calculate
import Calculator.Decimal

set_option autoImplicit false

namespace Calculator

namespace Text

/-- The code points with the property White_Space, as ranges with both ends included. -/
def whiteSpaceRanges : List (Nat × Nat) :=
  [(0x09, 0x0D), (0x20, 0x20), (0x85, 0x85), (0xA0, 0xA0), (0x1680, 0x1680), (0x2000, 0x200A),
    (0x2028, 0x2029), (0x202F, 0x202F), (0x205F, 0x205F), (0x3000, 0x3000)]

def isWhiteSpace (c : Char) : Bool :=
  whiteSpaceRanges.any fun (first, last) => first ≤ c.toNat && c.toNat ≤ last

/-- The property has twenty-five code points. -/
example : (whiteSpaceRanges.map fun (first, last) => last + 1 - first).sum = 25 := by decide
example : isWhiteSpace '\x0b' ∧ ¬ isWhiteSpace '\x1f' ∧ ¬ isWhiteSpace '\u200b' := by decide

def trimmed (cs : List Char) : List Char :=
  ((cs.dropWhile isWhiteSpace).reverse.dropWhile isWhiteSpace).reverse

/-- A text without the white space at either end. -/
def trim (s : String) : String := String.ofList (trimmed s.toList)

end Text

/-- What a run found. There is a result only where an evaluation was asked for and attempted. -/
structure Report where
  source : String
  tokens : List Token
  tree : Option Tree
  diagnostics : Diagnostics
  notes : List String
  result : Option (Except EvalError Float)

namespace Report

/-- The report on an input before any evaluation. The white space around the input is dropped, so
places count from the first character behind it. -/
def ofInput (input : String) : Except Failure Report :=
  let source := Text.trim input
  if source = "" then .error .emptyInput
  else
    match tokenize source with
    | .error e => .error (.lexing e)
    | .ok tokens =>
      let outcome := parse tokens
      .ok ⟨source, tokens, outcome.tree, outcome.diagnostics, [], none⟩

def value? (r : Report) : Option Float :=
  match r.result with
  | some (.ok value) => some value
  | _ => none

def verdict (ds : Diagnostics) : String :=
  if ds = [] then "Parsing completed successfully.\n\n"
  else "Parsing completed with " ++ Nat.repr ds.length ++ " error(s).\n\n"

def resultText : Option (Except EvalError Float) → String
  | none => ""
  | some (.ok value) => "\nResult: " ++ valueText value ++ "\n"
  | some (.error e) => "\nError during evaluation: " ++ e.message ++ "\n"

def text (r : Report) : String :=
  "Processing expression: " ++ r.source ++ "\n\n" ++
    "Tokens:\n" ++ listing r.tokens ++ "\n" ++
    String.join (r.diagnostics.map fun d => "Error: " ++ d.message ++ "\n") ++
    verdict r.diagnostics ++
    (match r.tree with
      | none => ""
      | some t => "Parse Tree:\n" ++ t.text ++ "\n\n") ++
    String.join (r.notes.map (· ++ "\n")) ++
    resultText r.result

end Report

/-- The texts entered for variables, as they were typed, in the order in which the names came up. -/
structure Session where
  entries : List (Char × String)

namespace Session

def initial : Session := ⟨initialBindings.map fun (name, value) => (name, Nat.repr value)⟩

/-- Replaces the text of a name in its place, or puts a new name behind all others. -/
def replace (name : Char) (text : String) : List (Char × String) → List (Char × String)
  | [] => [(name, text)]
  | (other, old) :: rest =>
    if other = name then (other, text) :: rest
    else (other, old) :: replace name text rest

/-- A name that has a text keeps its place, and a new one goes to the end. -/
theorem map_fst_replace (name : Char) (text : String) (entries : List (Char × String)) :
    (replace name text entries).map Prod.fst =
      if name ∈ entries.map Prod.fst then entries.map Prod.fst
      else entries.map Prod.fst ++ [name] := by
  induction entries with
  | nil => rfl
  | cons entry rest ih =>
    obtain ⟨other, old⟩ := entry
    by_cases found : other = name
    · simp [replace, found]
    · have apart : name ≠ other := fun same => found same.symm
      simp only [replace, found, if_false, List.map_cons, List.mem_cons, apart, false_or, ih]
      split
      · rfl
      · rfl

def enter (s : Session) (name : Char) (text : String) : Session := ⟨replace name text s.entries⟩

/-- The value that a text spells, with white space around it or not. -/
def spelled? (text : String) : Option Float := Decimal.read? (Text.trim text)

/-- The initial environment with the value of every text that spells one inserted. -/
def environment (s : Session) : Environment :=
  s.entries.foldl
    (fun env (name, text) =>
      match spelled? text with
      | some value => env.insert name value
      | none => env)
    .initial

def fallbackNote (name : Char) : String :=
  "Invalid value for variable " ++ String.singleton name ++ ". Using default value."

/-- A note for every name whose text spells no value, in the order of the names. -/
def fallbackNotes (s : Session) : List String :=
  (s.entries.filter fun (_, text) => (spelled? text).isNone).map fun (name, _) => fallbackNote name

def skippedNote : String := "Evaluation skipped: the expression has syntax errors."

/-- The report with its tree evaluated, if the parse was clean. -/
def complete (s : Session) (r : Report) : Report :=
  match r.tree, r.diagnostics with
  | some t, [] => { r with notes := s.fallbackNotes, result := some (t.eval s.environment) }
  | _, _ => { r with notes := [skippedNote] }

def run (s : Session) (evaluate : Bool) (input : String) : Except Failure Report :=
  (Report.ofInput input).map fun r => if evaluate then s.complete r else r

end Session

end Calculator
