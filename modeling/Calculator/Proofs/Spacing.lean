import Mathlib.Data.List.Forall2
import Calculator.Proofs.Tiling

set_option autoImplicit false

namespace Calculator

open String (utf8Len)

/-- What a token says apart from its place. -/
structure Word where
  kind : Kind
  lexeme : String
deriving DecidableEq

/-- A word that can stand in a source: a run of digits, a letter or a symbol. -/
def Word.Spelled (w : Word) : Prop := w.kind ≠ .eof ∧ w.kind.Spells w.lexeme.toList

def Token.word (t : Token) : Word := ⟨t.kind, t.lexeme⟩

theorem Token.same_iff_word_eq (a b : Token) : a.Same b ↔ a.word = b.word := by
  simp only [Same, word, Word.mk.injEq]

theorem forall₂_same_iff (ts us : List Token) :
    List.Forall₂ Token.Same ts us ↔ ts.map Token.word = us.map Token.word := by
  rw [← List.forall₂_eq_eq_eq, List.forall₂_map_left_iff, List.forall₂_map_right_iff]
  simp only [← Token.same_iff_word_eq]

theorem Word.Spelled.begins {w : Word} (spelled : w.Spelled) :
    ∃ c more, w.lexeme = String.ofList (c :: more) ∧ Kind.ofChar? c = some w.kind ∧
      ∀ d ∈ more, w.kind.continues d = true :=
  @Token.Spelled.begins ⟨w.kind, w.lexeme, .point 0⟩ spelled.2 spelled.1

theorem isDigit_eq_false_of_ofChar? {c : Char} {kind : Kind} (begins : Kind.ofChar? c = some kind)
    (other : kind ≠ .number) : c.isDigit = false := by
  rw [← Bool.not_eq_true]
  intro digit
  rw [Kind.ofChar?, if_pos digit] at begins
  exact other (Option.some.inj begins).symm

/-- A choice of blanks around words: in front of each and behind the last. Where one number follows
another there is some blank between them, and so it matters whether a number stands in front of all. -/
inductive Spacing : (behindNumber : Bool) → List Word → Type
  | last {b : Bool} (blanks : List Char) (blank : Blank blanks) : Spacing b []
  | word {b : Bool} {ws : List Word} (blanks : List Char) (blank : Blank blanks) (w : Word)
      (spelled : w.Spelled) (apart : b = true → w.kind = .number → blanks ≠ [])
      (rest : Spacing (decide (w.kind = .number)) ws) : Spacing b (w :: ws)

namespace Spacing

variable {b : Bool} {ws : List Word}

def chars {b : Bool} {ws : List Word} : Spacing b ws → List Char
  | last blanks _ => blanks
  | word blanks _ w _ _ rest => blanks ++ (w.lexeme.toList ++ rest.chars)

def source (s : Spacing b ws) : String := String.ofList s.chars

/-- The words as tokens, on the bytes where they stand if the text begins at an offset. -/
def tokens {b : Bool} {ws : List Word} (offset : Nat) : Spacing b ws → List Token
  | last _ _ => []
  | word blanks _ w _ _ rest =>
    let start := offset + utf8Len blanks
    let stop := start + utf8Len w.lexeme.toList
    ⟨w.kind, w.lexeme, ⟨start, stop⟩⟩ :: rest.tokens stop

theorem map_word_tokens (s : Spacing b ws) (offset : Nat) :
    (s.tokens offset).map Token.word = ws := by
  induction s generalizing offset with
  | last => rfl
  | word blanks blank w spelled apart rest ih => rw [tokens, List.map_cons, ih, Token.word]

/-- Behind a number, the text does not go on with a digit. -/
theorem isDigit_eq_false_of_head? (s : Spacing b ws) (behind : b = true) (d : Char)
    (first : s.chars.head? = some d) : d.isDigit = false := by
  cases s with
  | last blanks blank =>
    have inside : d ∈ blanks := List.mem_of_head? first
    exact isDigit_eq_false_of_isBlank (blank_iff.mp blank d inside)
  | word blanks blank w spelled apart rest =>
    cases blanks with
    | nil =>
      have other : w.kind ≠ .number := fun number => apart behind number rfl
      obtain ⟨c, more, lexeme, begins, _⟩ := spelled.begins
      rw [chars, List.nil_append, lexeme, String.toList_ofList] at first
      obtain rfl : c = d := Option.some.inj first
      exact isDigit_eq_false_of_ofChar? begins other
    | cons c blanks =>
      obtain rfl : c = d := Option.some.inj first
      exact isDigit_eq_false_of_isBlank (blank_iff.mp blank c List.mem_cons_self)

/-- The tokens lie in the text where they were written, and the end marker behind it. -/
theorem laid (s : Spacing b ws) (offset : Nat) :
    Laid offset s.chars (s.tokens offset ++ [.endMarker (offset + utf8Len s.chars)]) := by
  induction s generalizing offset with
  | last blanks blank => exact .marker (blank_iff.mp blank)
  | word blanks blank w spelled apart rest ih =>
    obtain ⟨c, more, lexeme, begins, whole⟩ := spelled.begins
    have ends : ∀ d, rest.chars.head? = some d → w.kind.continues d = false := by
      intro d first
      by_cases number : w.kind = .number
      · rw [number]
        exact rest.isDigit_eq_false_of_head? (decide_eq_true number) d first
      · exact Kind.continues_eq_false number d
    have tail := ih (offset + utf8Len blanks + utf8Len w.lexeme.toList)
    have size : offset + utf8Len blanks + utf8Len w.lexeme.toList + utf8Len rest.chars =
        offset + utf8Len (blanks ++ (w.lexeme.toList ++ rest.chars)) := by
      rw [String.utf8Len_append, String.utf8Len_append]
      omega
    rw [size] at tail
    rw [chars, tokens, List.cons_append]
    obtain ⟨kind, text⟩ := w
    subst lexeme
    rw [String.toList_ofList] at tail ⊢
    exact .word (blank_iff.mp blank) (isBlank_eq_false_of_ofChar? begins) begins whole ends rfl rfl
      tail

theorem tokenize_eq_ok (s : Spacing false ws) :
    tokenize s.source = .ok (s.tokens 0 ++ [.endMarker s.source.utf8ByteSize]) := by
  rw [tokenize_eq_ok_iff_laid, source, String.toList_ofList, String.utf8ByteSize_ofList]
  have lies := s.laid 0
  rw [Nat.zero_add] at lies
  exact lies

/-- However words are spaced, the text is cut back into them, in their order and each on its own bytes,
with the end marker where the text ends. So all ways of spacing the same words give the same tokens,
but for their places. -/
theorem tokenize_source {words : List Word} (s : Spacing false words) :
    let n := s.source.utf8ByteSize
    tokenize s.source = .ok (s.tokens 0 ++ [⟨.eof, "", ⟨n, n⟩⟩]) ∧
      (s.tokens 0).map Token.word = words ∧
      ∀ s' : Spacing false words, ∃ ts ts', tokenize s.source = .ok ts ∧
        tokenize s'.source = .ok ts' ∧ List.Forall₂ Token.Same ts ts' := by
  refine ⟨s.tokenize_eq_ok, s.map_word_tokens 0, fun s' => ?_⟩
  refine ⟨_, _, s.tokenize_eq_ok, s'.tokenize_eq_ok, (forall₂_same_iff _ _).mpr ?_⟩
  rw [List.map_append, List.map_append, s.map_word_tokens, s'.map_word_tokens]
  rfl

end Spacing

end Calculator
