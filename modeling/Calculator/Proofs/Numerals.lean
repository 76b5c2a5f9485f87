import Calculator.Session
import Calculator.Proofs.Lexing

set_option autoImplicit false

namespace Calculator

open Text

section Trimming

theorem isWhiteSpace_eq_false_of_printable {c : Char} (above : 0x20 < c.toNat)
    (below : c.toNat < 0x7F) : isWhiteSpace c = false := by
  have around : ∀ range ∈ whiteSpaceRanges, range.2 ≤ 0x20 ∨ 0x7F ≤ range.1 := by decide
  rw [← Bool.not_eq_true, isWhiteSpace, List.any_eq_true]
  rintro ⟨range, known, inside⟩
  simp only [Bool.and_eq_true, decide_eq_true_eq] at inside
  have apart := around range known
  omega

end Trimming

namespace Decimal

/-- Digits with or without a sign, and the integer that they spell. -/
inductive Integer : List Char → Int → Prop
  | plain {digits : List Char} (known : digits ≠ []) (run : ∀ c ∈ digits, c.isDigit = true) :
      Integer digits (spelledFrom 0 digits)
  | plus {digits : List Char} (known : digits ≠ []) (run : ∀ c ∈ digits, c.isDigit = true) :
      Integer ('+' :: digits) (spelledFrom 0 digits)
  | minus {digits : List Char} (known : digits ≠ []) (run : ∀ c ∈ digits, c.isDigit = true) :
      Integer ('-' :: digits) (-(spelledFrom 0 digits : Int))

/-- The end of a decimal, and the power of ten that it asks for. -/
inductive Power : List Char → Int → Prop
  | absent : Power [] 0
  | present {mark : Char} {cs : List Char} {n : Int} (marks : mark = 'e' ∨ mark = 'E')
      (integer : Integer cs n) : Power (mark :: cs) n

/-- What spells a double without a sign: a word for infinity or for what is not a number, in letters
of either case, or digits on at least one side of an optional point. -/
inductive Unsigned : List Char → Float → Prop
  | infinity {cs : List Char}
      (word : cs.map Char.toLower = "inf".toList ∨ cs.map Char.toLower = "infinity".toList) :
      Unsigned cs (1 / 0)
  | notANumber {cs : List Char} (word : cs.map Char.toLower = "nan".toList) : Unsigned cs (0 / 0)
  | decimal {whole point fraction tail : List Char} {power : Int} (known : whole ++ fraction ≠ [])
      (left : ∀ c ∈ whole, c.isDigit = true) (right : ∀ c ∈ fraction, c.isDigit = true)
      (pointed : point = ['.'] ∨ point = [] ∧ fraction = []) (behind : Power tail power) :
      Unsigned (whole ++ (point ++ (fraction ++ tail)))
        (nearestDouble (spelledFrom 0 (whole ++ fraction)) (power - fraction.length))

inductive Signed : List Char → Float → Prop
  | plain {cs : List Char} {x : Float} (unsigned : Unsigned cs x) : Signed cs x
  | plus {cs : List Char} {x : Float} (unsigned : Unsigned cs x) : Signed ('+' :: cs) x
  | minus {cs : List Char} {x : Float} (unsigned : Unsigned cs x) : Signed ('-' :: cs) (-x)

namespace Numeral

end Numeral

/-- What a letter is the lower case of is a letter. -/
theorem letter_of_toLower {c : Char}
    (lower : 'a'.toNat ≤ c.toLower.toNat ∧ c.toLower.toNat ≤ 'z'.toNat) :
    'A'.toNat ≤ c.toNat ∧ c.toNat ≤ 'z'.toNat := by
  unfold Char.toLower at lower
  split at lower
  · rename_i upper
    have first : 'A'.toNat ≤ c.toNat := upper.1
    have last : c.toNat ≤ 'Z'.toNat := upper.2
    exact ⟨first, Nat.le_trans last (by decide)⟩
  · exact ⟨Nat.le_trans (by decide) lower.1, lower.2⟩

theorem letters_of_word {cs : List Char} {word : String} (spelled : cs.map Char.toLower = word.toList)
    (known : word ∈ ["inf", "infinity", "nan"]) :
    cs ≠ [] ∧ ∀ c ∈ cs, 'A'.toNat ≤ c.toNat ∧ c.toNat ≤ 'z'.toNat := by
  have letters : word.toList ≠ [] ∧
      word.toList.all (fun d => 'a'.toNat ≤ d.toNat && d.toNat ≤ 'z'.toNat) = true := by
    simp only [List.mem_cons, List.not_mem_nil, or_false] at known
    rcases known with rfl | rfl | rfl
    · decide
    · decide
    · decide
  rw [← spelled] at letters
  refine ⟨fun none => letters.1 (by rw [none]; rfl), fun c member => ?_⟩
  have lower := List.all_eq_true.mp letters.2 c.toLower (List.mem_map_of_mem member)
  simp only [Bool.and_eq_true, decide_eq_true_eq] at lower
  exact letter_of_toLower lower

theorem exists_digit {whole fraction : List Char} (rest point : List Char)
    (known : whole ++ fraction ≠ []) (left : ∀ c ∈ whole, c.isDigit = true)
    (right : ∀ c ∈ fraction, c.isDigit = true) :
    ∃ c ∈ whole ++ (point ++ (fraction ++ rest)), c.isDigit = true := by
  obtain ⟨c, member⟩ := List.exists_mem_of_ne_nil _ known
  rcases List.mem_append.mp member with inside | inside
  · exact ⟨c, List.mem_append_left _ inside, left c inside⟩
  · refine ⟨c, List.mem_append_right _ (List.mem_append_right _ ?_), right c inside⟩
    exact List.mem_append_left _ inside

theorem isWhiteSpace_eq_false_of_isDigit {c : Char} (digit : c.isDigit = true) :
    isWhiteSpace c = false := by
  obtain ⟨above, below⟩ := Char.isDigit_iff_toNat.mp digit
  exact isWhiteSpace_eq_false_of_printable (Nat.lt_of_lt_of_le (by decide) above)
    (Nat.lt_of_le_of_lt below (by decide))

theorem visible_of_word {cs : List Char} {word : String} (spelled : cs.map Char.toLower = word.toList)
    (known : word ∈ ["inf", "infinity", "nan"]) :
    cs ≠ [] ∧ ∀ c ∈ cs, isWhiteSpace c = false := by
  obtain ⟨present, letters⟩ := letters_of_word spelled known
  refine ⟨present, fun c member => ?_⟩
  obtain ⟨above, below⟩ := letters c member
  exact isWhiteSpace_eq_false_of_printable (Nat.lt_of_lt_of_le (by decide) above)
    (Nat.lt_of_le_of_lt below (by decide))

theorem Integer.visible {cs : List Char} {n : Int} (integer : Integer cs n) :
    ∀ c ∈ cs, isWhiteSpace c = false := by
  cases integer with
  | plain _ run => exact fun c member => isWhiteSpace_eq_false_of_isDigit (run c member)
  | plus _ run =>
    refine List.forall_mem_cons.mpr ⟨by decide, fun c member => ?_⟩
    exact isWhiteSpace_eq_false_of_isDigit (run c member)
  | minus _ run =>
    refine List.forall_mem_cons.mpr ⟨by decide, fun c member => ?_⟩
    exact isWhiteSpace_eq_false_of_isDigit (run c member)

theorem Power.visible {cs : List Char} {n : Int} (power : Power cs n) :
    ∀ c ∈ cs, isWhiteSpace c = false := by
  cases power with
  | absent => exact List.forall_mem_nil _
  | present marks integer =>
    refine List.forall_mem_cons.mpr ⟨?_, integer.visible⟩
    rcases marks with rfl | rfl
    · decide
    · decide

theorem Unsigned.visible {cs : List Char} {x : Float} (unsigned : Unsigned cs x) :
    cs ≠ [] ∧ ∀ c ∈ cs, isWhiteSpace c = false := by
  cases unsigned with
  | infinity word =>
    rcases word with word | word
    · exact visible_of_word word (by simp)
    · exact visible_of_word word (by simp)
  | notANumber word => exact visible_of_word word (by simp)
  | @decimal whole point fraction tail power known left right pointed behind =>
    obtain ⟨d, inside, _⟩ := exists_digit tail point known left right
    refine ⟨List.ne_nil_of_mem inside, fun c member => ?_⟩
    simp only [List.mem_append] at member
    rcases member with member | member | member | member
    · exact isWhiteSpace_eq_false_of_isDigit (left c member)
    · rcases pointed with rfl | ⟨rfl, _⟩
      · rw [List.mem_singleton.mp member]
        decide
      · cases member
    · exact isWhiteSpace_eq_false_of_isDigit (right c member)
    · exact behind.visible c member

theorem Signed.visible {cs : List Char} {x : Float} (signed : Signed cs x) :
    cs ≠ [] ∧ ∀ c ∈ cs, isWhiteSpace c = false := by
  cases signed with
  | plain unsigned => exact unsigned.visible
  | plus unsigned =>
    exact ⟨List.cons_ne_nil _ _, List.forall_mem_cons.mpr ⟨by decide, unsigned.visible.2⟩⟩
  | minus unsigned =>
    exact ⟨List.cons_ne_nil _ _, List.forall_mem_cons.mpr ⟨by decide, unsigned.visible.2⟩⟩

end Decimal

end Calculator
