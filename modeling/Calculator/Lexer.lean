import Calculator.Token

set_option autoImplicit false

namespace Calculator

structure LexError where
  character : Char
  position : Span
deriving DecidableEq

def LexError.message (e : LexError) : String :=
  "unrecognized character '" ++ String.singleton e.character ++ "' at " ++ e.position.text

/-- A blank separates words and belongs to none. Vertical tabs and blanks beyond ASCII are not among
them. -/
def isBlank (c : Char) : Bool :=
  c == ' ' || c == '\x0c' || c == '\t' || c == '\r' || c == '\n'

/-- A place in a source text: what is left to read, the offset of its first byte, and whether the end
marker or an error has been yielded. -/
structure Lexer where
  source : String
  rest : List Char
  offset : Nat
  done : Bool

namespace Lexer

abbrev Item := Except LexError Token

def ofSource (source : String) : Lexer := ⟨source, source.toList, 0, false⟩

def reset (l : Lexer) : Lexer := ofSource l.source

/-- The next item and the lexer behind it. The blanks in front of a word are skipped, and the word is
as long as its kind allows. An error leaves the lexer in front of the character. -/
def next? (l : Lexer) : Option (Item × Lexer) :=
  if l.done then
    none
  else
    let start := l.offset + (String.ofList (l.rest.takeWhile isBlank)).utf8ByteSize
    match l.rest.dropWhile isBlank with
    | [] => some (.ok (.endMarker start), { l with rest := [], offset := start, done := true })
    | c :: cs =>
      match Kind.ofChar? c with
      | none =>
        some (.error ⟨c, ⟨start, start + c.utf8Size⟩⟩,
          { l with rest := c :: cs, offset := start, done := true })
      | some kind =>
        let lexeme := String.ofList (c :: cs.takeWhile kind.continues)
        let stop := start + lexeme.utf8ByteSize
        some (.ok ⟨kind, lexeme, ⟨start, stop⟩⟩,
          { l with rest := cs.dropWhile kind.continues, offset := stop })

/-- A bound on the number of items still to come. -/
def pending (l : Lexer) : Nat := if l.done then 0 else l.rest.length + 1

private theorem length_dropWhile_le (p : Char → Bool) (cs : List Char) :
    (cs.dropWhile p).length ≤ cs.length :=
  (List.dropWhile_sublist p).length_le

theorem pending_lt_of_next? {l l' : Lexer} {item : Item} (h : l.next? = some (item, l')) :
    l'.pending < l.pending := by
  unfold next? at h
  split at h
  · cases h
  · rename_i running
    simp only [pending, running]
    split at h
    · cases h
      simp
    · rename_i c cs shape
      have shorter := length_dropWhile_le isBlank l.rest
      rw [shape] at shorter
      split at h
      · cases h
        simp
      · rename_i kind _
        have := length_dropWhile_le kind.continues cs
        cases h
        simp only [List.length_cons] at shorter
        simp [running]
        omega

/-- Everything still to come, and the lexer behind it. -/
def drain (l : Lexer) : List Item × Lexer :=
  match h : l.next? with
  | none => ([], l)
  | some (item, l') =>
    have := pending_lt_of_next? h
    let (items, last) := l'.drain
    (item :: items, last)
termination_by l.pending

def items (l : Lexer) : List Item := l.drain.1

theorem drain_of_next?_none {l : Lexer} (exhausted : l.next? = none) : l.drain = ([], l) := by
  rw [drain]
  split
  · rfl
  · rename_i more
    rw [exhausted] at more
    cases more

theorem drain_of_next?_some {l l' : Lexer} {item : Item} (more : l.next? = some (item, l')) :
    l.drain = (item :: l'.drain.1, l'.drain.2) := by
  rw [drain]
  split
  · rename_i exhausted
    rw [more] at exhausted
    cases exhausted
  · rename_i again
    rw [more] at again
    cases again
    rfl

theorem items_of_next?_none {l : Lexer} (exhausted : l.next? = none) : l.items = [] := by
  rw [items, drain_of_next?_none exhausted]

theorem items_of_next?_some {l l' : Lexer} {item : Item} (more : l.next? = some (item, l')) :
    l.items = item :: l'.items := by
  rw [items, drain_of_next?_some more]
  rfl

end Lexer

/-- All tokens of a source with the end marker, or the first error. -/
def tokenize (source : String) : Except LexError (List Token) :=
  (Lexer.ofSource source).items.mapM id

end Calculator
