import Mathlib.Data.List.Forall2
import Calculator.Proofs.Division
import Calculator.Proofs.Numerals
import Calculator.Proofs.Places

set_option autoImplicit false

namespace Calculator

open Text

/-- A line, without its line feed, that says what a token is: from the front to the first space it
is the lexeme, and behind that the name of the kind between spaces. -/
structure Token.ListedBy (t : Token) (line : List Char) : Prop where
  unbroken : '\n' ∉ line
  length : line.length = max 10 t.lexeme.length + 21
  lexeme : line.takeWhile (· ≠ ' ') = t.lexeme.toList
  kind : trimmed (line.dropWhile (· ≠ ' ')) = t.kind.name.toList

section Padding

end Padding

section Names

theorem Kind.name_inj {k k' : Kind} (same : k.name = k'.name) : k = k' := by
  revert same
  cases k <;> cases k' <;> decide

end Names

/-- Nothing in the lexeme of a token parts words. -/
theorem Token.Spelled.visible {t : Token} (spelled : t.Spelled) :
    ∀ c ∈ t.lexeme.toList, isBlank c = false := by
  by_cases word : t.kind = .eof
  · have empty : t.lexeme.toList = [] := by
      unfold Spelled at spelled
      rw [word] at spelled
      exact spelled
    rw [empty]
    exact List.forall_mem_nil _
  · obtain ⟨c, more, lexeme, begins, inside⟩ := spelled.begins word
    rw [lexeme, String.toList_ofList]
    refine List.forall_mem_cons.mpr ⟨isBlank_eq_false_of_ofChar? begins, ?_⟩
    intro d member
    rw [← Bool.not_eq_true]
    intro blank
    have outside := t.kind.continues_eq_false_of_isDigit (isDigit_eq_false_of_isBlank blank)
    rw [inside d member] at outside
    cases outside

namespace Token

/-- A line says which word it is of. -/
theorem ListedBy.same {t u : Token} {line : List Char} (left : t.ListedBy line)
    (right : u.ListedBy line) : t.Same u := by
  have kinds : t.kind.name.toList = u.kind.name.toList := left.kind.symm.trans right.kind
  have lexemes : t.lexeme.toList = u.lexeme.toList := left.lexeme.symm.trans right.lexeme
  exact ⟨Kind.name_inj (String.toList_inj.mp kinds), String.toList_inj.mp lexemes⟩

end Token

end Calculator
