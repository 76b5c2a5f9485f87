set_option autoImplicit false

namespace Calculator

/-- The bytes from offset `start` up to, not including, offset `stop`. -/
structure Span where
  start : Nat
  stop : Nat
deriving DecidableEq

namespace Span

def point (offset : Nat) : Span := ⟨offset, offset⟩

instance : Inhabited Span := ⟨point 0⟩

def through (first last : Span) : Span := ⟨first.start, last.stop⟩

def text (s : Span) : String := "offset " ++ Nat.repr s.start ++ ".." ++ Nat.repr s.stop

end Span

/-- The kinds of words of the language, and the marker behind the last of them. -/
inductive Kind where
  | number
  | identifier
  | plus
  | minus
  | star
  | slash
  | lparen
  | rparen
  | eof
deriving DecidableEq

namespace Kind

def name : Kind → String
  | number => "NUMBER"
  | identifier => "IDENTIFIER"
  | plus => "PLUS"
  | minus => "MINUS"
  | star => "STAR"
  | slash => "SLASH"
  | lparen => "LPAREN"
  | rparen => "RPAREN"
  | eof => "EOF"

def ofSymbol? : Char → Option Kind
  | '+' => some plus
  | '-' => some minus
  | '*' => some star
  | '/' => some slash
  | '(' => some lparen
  | ')' => some rparen
  | _ => none

/-- The kind of the words that begin with a character: digits begin numbers, ASCII letters are
identifiers, symbols stand for themselves, and nothing else begins a word. -/
def ofChar? (c : Char) : Option Kind :=
  if c.isDigit then some number
  else if c.isAlpha then some identifier
  else ofSymbol? c

/-- Whether a word of this kind goes on with a character. Only numbers have more than one. -/
def continues : Kind → Char → Bool
  | number, c => c.isDigit
  | _, _ => false

end Kind

/-- A word of the source: its kind, its characters and the bytes that it covers. -/
structure Token where
  kind : Kind
  lexeme : String
  span : Span
deriving DecidableEq

namespace Token

/-- The marker behind the last word, at the offset where the source ends. -/
def endMarker (offset : Nat) : Token := ⟨.eof, "", .point offset⟩

def text (t : Token) : String := t.kind.name ++ "('" ++ t.lexeme ++ "')"

/-- The same word, wherever the two tokens stand. -/
def Same (a b : Token) : Prop := a.kind = b.kind ∧ a.lexeme = b.lexeme

instance (a b : Token) : Decidable (Same a b) := inferInstanceAs (Decidable (_ ∧ _))

theorem Same.refl (a : Token) : Same a a := ⟨rfl, rfl⟩

theorem Same.symm {a b : Token} (h : Same a b) : Same b a := ⟨h.1.symm, h.2.symm⟩

theorem Same.trans {a b c : Token} (h : Same a b) (h' : Same b c) : Same a c :=
  ⟨h.1.trans h'.1, h.2.trans h'.2⟩

end Token

inductive Operator where
  | plus
  | minus
  | times
  | divide
deriving DecidableEq

def Kind.operator? : Kind → Option Operator
  | .plus => some .plus
  | .minus => some .minus
  | .star => some .times
  | .slash => some .divide
  | _ => none

def Kind.isAdditive : Kind → Bool
  | .plus | .minus => true
  | _ => false

def Kind.isMultiplicative : Kind → Bool
  | .star | .slash => true
  | _ => false

/-- Every operator joins either terms or factors. -/
theorem Kind.operator?_isSome (k : Kind) :
    k.operator?.isSome = (k.isAdditive || k.isMultiplicative) := by
  cases k <;> rfl

/-- `s` filled up with spaces on its right to at least `width` characters. -/
def column (width : Nat) (s : String) : String :=
  s ++ String.ofList (List.replicate (width - s.length) ' ')

/-- One line of a listing: the lexeme in a column of ten characters, a space, and the name of the
kind in a column of twenty. -/
def Token.line (t : Token) : String := column 10 t.lexeme ++ " " ++ column 20 t.kind.name ++ "\n"

/-- One line per word, in order. The end marker is no word and has no line. -/
def listing (ts : List Token) : String :=
  String.join ((ts.filter (·.kind ≠ .eof)).map Token.line)

end Calculator
