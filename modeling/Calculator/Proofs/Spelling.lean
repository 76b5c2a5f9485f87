import Calculator.Proofs.Lexing

set_option autoImplicit false

namespace Calculator

theorem isAlpha_eq_false_of_isDigit {c : Char} (digit : c.isDigit = true) : c.isAlpha = false := by
  have below : c.val ≤ 57 := decide_eq_true_iff.mp (Bool.and_eq_true_iff.mp digit).2
  have upper : c.isUpper = decide (65 ≤ c.val ∧ c.val ≤ 90) := rfl
  have lower : c.isLower = (decide (97 ≤ c.val) && decide (c.val ≤ 122)) := rfl
  show (c.isUpper || c.isLower) = false
  rw [upper, lower]
  grind

namespace Kind

/-- The lexemes of a kind: digits for a number, one letter for an identifier, its own symbol for each
symbol, and nothing for the end marker. -/
def Spells : Kind → List Char → Prop
  | number, cs => cs ≠ [] ∧ ∀ c ∈ cs, c.isDigit = true
  | identifier, cs => ∃ c, cs = [c] ∧ c.isAlpha = true
  | plus, cs => cs = ['+']
  | minus, cs => cs = ['-']
  | star, cs => cs = ['*']
  | slash, cs => cs = ['/']
  | lparen, cs => cs = ['(']
  | rparen, cs => cs = [')']
  | eof, cs => cs = []

theorem ofSymbol?_eq_some_iff (c : Char) (kind : Kind) :
    ofSymbol? c = some kind ↔ kind ≠ number ∧ kind ≠ identifier ∧ kind.Spells [c] := by
  unfold ofSymbol?
  split <;> cases kind <;> simp_all [Spells]

/-- A character begins the words of the kind that has it for a lexeme. -/
theorem ofChar?_eq_some_iff (c : Char) (kind : Kind) :
    ofChar? c = some kind ↔ kind.Spells [c] := by
  unfold ofChar?
  by_cases digit : c.isDigit = true
  · have letter := isAlpha_eq_false_of_isDigit digit
    have symbol : ∀ d, d.isDigit = false → c ≠ d := by
      rintro d other rfl
      simp [digit] at other
    cases kind <;> simp [Spells, digit, letter, symbol]
  · by_cases letter : c.isAlpha = true
    · have symbol : ∀ d, d.isAlpha = false → c ≠ d := by
        rintro d other rfl
        simp [letter] at other
      cases kind <;> simp [Spells, digit, letter, symbol]
    · rw [if_neg digit, if_neg letter, ofSymbol?_eq_some_iff]
      cases kind <;> simp [Spells, digit, letter]

/-- Only numbers have lexemes of more than one character. -/
theorem spells_cons_iff (kind : Kind) (c : Char) (more : List Char) :
    kind.Spells (c :: more) ↔ ofChar? c = some kind ∧ ∀ d ∈ more, kind.continues d = true := by
  rw [ofChar?_eq_some_iff]
  cases kind with
  | number => simp [Spells, continues]
  | identifier =>
    simp only [Spells, continues, Bool.false_eq_true, imp_false, ← List.eq_nil_iff_forall_not_mem]
    constructor
    · rintro ⟨d, shape, letter⟩
      obtain ⟨rfl, alone⟩ := List.cons_eq_cons.mp shape
      exact ⟨⟨c, rfl, letter⟩, alone⟩
    · rintro ⟨⟨d, shape, letter⟩, rfl⟩
      exact ⟨d, shape, letter⟩
  | plus | minus | star | slash | lparen | rparen | eof =>
    simp [Spells, continues, ← List.eq_nil_iff_forall_not_mem]

theorem eq_eof_of_spells_nil {kind : Kind} (spells : kind.Spells []) : kind = .eof := by
  cases kind with
  | eof => rfl
  | number => exact (spells.1 rfl).elim
  | identifier =>
    obtain ⟨c, shape, _⟩ := spells
    cases shape
  | plus | minus | star | slash | lparen | rparen => cases spells

theorem continues_eq_false {kind : Kind} (other : kind ≠ .number) (c : Char) :
    kind.continues c = false := by
  cases kind with
  | number => exact (other rfl).elim
  | identifier | plus | minus | star | slash | lparen | rparen | eof => rfl

/-- No word goes on with what is no digit. -/
theorem continues_eq_false_of_isDigit {c : Char} (kind : Kind) (other : c.isDigit = false) :
    kind.continues c = false := by
  by_cases number : kind = .number
  · rw [number]
    exact other
  · exact continues_eq_false number c

/-- A word that ends in front of a text still ends there when more is put behind the text. What is new
touches the word only where the text is empty, and then it must not begin with a digit. -/
theorem ends_append {kind : Kind} {text rest : List Char}
    (ends : ∀ d, text.head? = some d → kind.continues d = false)
    (parted : ∀ d, rest.head? = some d → d.isDigit = false) :
    ∀ d, (text ++ rest).head? = some d → kind.continues d = false := by
  intro d next
  cases text with
  | nil => exact kind.continues_eq_false_of_isDigit (parted d next)
  | cons e text => exact ends d next

end Kind

def Token.Spelled (t : Token) : Prop := t.kind.Spells t.lexeme.toList

/-- A word begins as its kind does, and goes on as long as its kind allows. -/
theorem Token.Spelled.begins {t : Token} (spelled : t.Spelled) (word : t.kind ≠ .eof) :
    ∃ c more, t.lexeme = String.ofList (c :: more) ∧ Kind.ofChar? c = some t.kind ∧
      ∀ d ∈ more, t.kind.continues d = true := by
  unfold Spelled at spelled
  cases chars : t.lexeme.toList with
  | nil =>
    rw [chars] at spelled
    exact (word (Kind.eq_eof_of_spells_nil spelled)).elim
  | cons c more =>
    rw [chars] at spelled
    obtain ⟨begins, inside⟩ := (t.kind.spells_cons_iff c more).mp spelled
    refine ⟨c, more, ?_, begins, inside⟩
    rw [← chars, String.ofList_toList]

namespace Laid

variable {offset : Nat} {cs : List Char} {ts : List Token}

theorem spelled (laid : Laid offset cs ts) : ∀ t ∈ ts, t.Spelled := by
  induction laid with
  | marker blank =>
    intro t member
    rw [List.mem_singleton.mp member]
    rfl
  | @word _ _ _ _ more _ c kind _ _ _ begins whole _ _ _ _ ih =>
    refine List.forall_mem_cons.mpr ⟨?_, ih⟩
    show kind.Spells (String.ofList (c :: more)).toList
    rw [String.toList_ofList]
    exact (kind.spells_cons_iff c more).mpr ⟨begins, whole⟩

theorem mem_of_mem_lexeme (laid : Laid offset cs ts) :
    ∀ t ∈ ts, ∀ d ∈ t.lexeme.toList, d ∈ cs := by
  induction laid with
  | marker blank =>
    intro t member d inside
    rw [List.mem_singleton.mp member] at inside
    cases inside
  | @word _ _ _ blanks more rest c _ _ _ _ _ _ _ _ _ _ ih =>
    refine List.forall_mem_cons.mpr ⟨?_, ?_⟩
    · intro d inside
      rw [String.toList_ofList] at inside
      have behind : d ∈ c :: more ++ rest := List.mem_append_left rest inside
      exact List.mem_append_right blanks behind
    · intro t member d inside
      have behind : d ∈ c :: more ++ rest := List.mem_append_right _ (ih t member d inside)
      exact List.mem_append_right blanks behind

end Laid

theorem spelled_of_tokenize {source : String} {ts : List Token}
    (accepted : tokenize source = .ok ts) : ∀ t ∈ ts, t.Spelled :=
  (laid_of_tokenize accepted).spelled

theorem mem_of_tokenize {source : String} {ts : List Token} (accepted : tokenize source = .ok ts) :
    ∀ t ∈ ts, ∀ c ∈ t.lexeme.toList, c ∈ source.toList :=
  (laid_of_tokenize accepted).mem_of_mem_lexeme

end Calculator
