import Calculator.Session

set_option autoImplicit false

namespace Calculator

namespace Text

/-- A character inside quotes. Control characters have an escape. -/
def escape : Char → String
  | '"' => "\\\""
  | '\\' => "\\\\"
  | '\n' => "\\n"
  | '\r' => "\\r"
  | '\t' => "\\t"
  | '\x00' => "\\0"
  | c =>
    if c.toNat < 0x20 ∨ c.toNat = 0x7F then
      "\\u\x7b" ++ String.ofList (Nat.toDigits 16 c.toNat) ++ "\x7d"
    else String.singleton c

def quoted (s : String) : String := "\"" ++ String.join (s.toList.map escape) ++ "\""

example : quoted "a \"b\"\n" = "\"a \\\"b\\\"\\n\"" := by decide +kernel

/-- A name with named fields behind it. -/
def record (name : String) (fields : List (String × String)) : String :=
  name ++ " \x7b " ++ ", ".intercalate (fields.map fun (field, value) => field ++ ": " ++ value) ++
    " \x7d"

def wrapped (name value : String) : String := name ++ "(" ++ value ++ ")"

def bracketed (items : List String) : String := "[" ++ ", ".intercalate items ++ "]"

end Text

open Text

inductive Event where
  | processing (source : String)
  | lexed (tokens : List Token)
  | diagnosed (diagnostics : Diagnostics)
  | noted (note : String)
  | evaluated (tree : Tree) (result : Except EvalError Float)

namespace Event

def spanRecord (s : Span) : String :=
  record "Span" [("start", Nat.repr s.start), ("end", Nat.repr s.stop)]

def tokenRecord (t : Token) : String :=
  record "Token"
    [("typ", t.kind.name), ("lexeme", quoted t.lexeme), ("span", spanRecord t.span)]

def faultName : Fault → String
  | .missingOperand => "ExpectedOperand"
  | .missingParen => "ExpectedClosingParen"
  | .leftover => "TrailingTokens"

def diagnosticRecord (d : Diagnostic) : String :=
  record (faultName d.fault) [("found", quoted d.found), ("position", spanRecord d.position)]

/-- An error of an evaluation in record notation, with the field that its cause brings. -/
def errorRecord (e : EvalError) : String :=
  let position := ("position", spanRecord e.position)
  match e.fault with
  | .divisionByZero => record "DivisionByZero" [position]
  | .notAnOperator lexeme =>
    record "UnsupportedOperator" [("operator", quoted lexeme), position]
  | .malformed reason => record "MalformedTree" [("reason", quoted reason), position]
  | .badNumeral lexeme => record "NumberFormat" [("lexeme", quoted lexeme), position]

def resultRecord : Except EvalError Float → String
  | .ok value => wrapped "Ok" (valueText value)
  | .error e => wrapped "Err" (errorRecord e)

def message : Event → String
  | processing source => "Processing expression: " ++ source
  | lexed tokens => "Lexed tokens: " ++ bracketed (tokens.map tokenRecord)
  | diagnosed ds => "Parse diagnostics: " ++ bracketed (ds.map diagnosticRecord)
  | noted note => note
  | evaluated tree result => "Evaluated " ++ tree.text ++ " to " ++ resultRecord result

def line (e : Event) : String := "DEBUG " ++ e.message

/-- What leads to a report. Its notes are events of their own if the tree was evaluated. -/
def ofReport (r : Report) : List Event :=
  [processing r.source, lexed r.tokens] ++
    (if r.diagnostics = [] then [] else [diagnosed r.diagnostics]) ++
    (match r.tree, r.result with
      | some t, some result => r.notes.map noted ++ [evaluated t result]
      | _, _ => [])

/-- What leads to the answer to an input. An empty input leaves no trace, and a foreign character
stops the run before there are tokens. -/
def ofRun (input : String) : Except Failure Report → List Event
  | .ok r => ofReport r
  | .error .emptyInput => []
  | .error _ => [processing (trim input)]

end Event

end Calculator
