import Calculator.Proofs.Spelling

set_option autoImplicit false

namespace Calculator

open String (utf8Len)

/-- `text` stands on the bytes of `span` in a source, with `before` in front of it and `after` behind
it. -/
structure Cut (source : String) (span : Span) (before text after : List Char) : Prop where
  whole : source.toList = before ++ (text ++ after)
  first : span.start = utf8Len before
  last : span.stop = span.start + utf8Len text

/-- What lies between tokens: in front of each, from an offset or from where the one before stops. -/
def gaps : Nat → List Token → List Span
  | _, [] => []
  | offset, t :: ts => ⟨offset, t.span.start⟩ :: gaps t.span.stop ts

/-- The place between two texts touches no digit. -/
structure NoDigitBeside (before after : List Char) : Prop where
  left : ∀ c, before.getLast? = some c → c.isDigit = false
  right : ∀ c, after.head? = some c → c.isDigit = false

def Blank (text : List Char) : Prop := ∀ c ∈ text, c ∈ [' ', '\x0c', '\t', '\r', '\n']

/-- The tokens cover a source from an offset on. -/
structure Tiling (source : String) (offset : Nat) (ts : List Token) : Prop where
  ended : ∃ words, ts = words ++ [.endMarker source.utf8ByteSize] ∧ ∀ t ∈ words, t.kind ≠ .eof
  ordered : ts.Pairwise fun a b => a.span.stop ≤ b.span.start
  blank : ∀ gap ∈ gaps offset ts, ∃ before text after, Cut source gap before text after ∧ Blank text
  spelled : ∀ t ∈ ts, t.Spelled
  cut : ∀ t ∈ ts, ∃ before after, Cut source t.span before t.lexeme.toList after ∧
    (t.kind = .number → NoDigitBeside before after)

/-- A text parts at an offset in one way only. -/
theorem append_inj_of_utf8Len {front back front' back' : List Char}
    (same : front ++ back = front' ++ back') (sizes : utf8Len front = utf8Len front') :
    front = front' ∧ back = back' := by
  rcases List.append_eq_append_iff.mp same with ⟨between, rfl, rfl⟩ | ⟨between, rfl, rfl⟩
  · rw [String.utf8Len_append] at sizes
    rw [String.utf8Len_eq_zero.mp (show utf8Len between = 0 by omega)]
    simp
  · rw [String.utf8Len_append] at sizes
    rw [String.utf8Len_eq_zero.mp (show utf8Len between = 0 by omega)]
    simp

namespace Cut

variable {source : String} {span : Span} {before text after front cs : List Char}

/-- What stands at a known place is what comes next there. -/
theorem next (cut : Cut source span before text after) (whole : source.toList = front ++ cs)
    (place : span.start = utf8Len front) : front = before ∧ cs = text ++ after := by
  have sizes : utf8Len front = utf8Len before := by
    rw [← place, cut.first]
  exact append_inj_of_utf8Len (whole.symm.trans cut.whole) sizes

end Cut

theorem isBlank_iff_mem (c : Char) :
    isBlank c = true ↔ c ∈ [' ', '\x0c', '\t', '\r', '\n'] := by
  simp only [isBlank, Bool.or_eq_true, beq_iff_eq, List.mem_cons, List.not_mem_nil, or_false,
    or_assoc]

theorem blank_iff {text : List Char} : Blank text ↔ ∀ c ∈ text, isBlank c = true := by
  simp only [Blank, isBlank_iff_mem]

theorem isDigit_eq_false_of_isBlank {c : Char} (blank : isBlank c = true) : c.isDigit = false := by
  have none : [' ', '\x0c', '\t', '\r', '\n'].all (fun d => d.isDigit == false) = true := by decide
  exact beq_iff_eq.mp (List.all_eq_true.mp none c ((isBlank_iff_mem c).mp blank))

theorem isBlank_eq_false_of_ofChar? {c : Char} {kind : Kind}
    (begins : Kind.ofChar? c = some kind) : isBlank c = false := by
  have none : [' ', '\x0c', '\t', '\r', '\n'].all (fun d => (Kind.ofChar? d).isNone) = true := by
    decide
  rw [← Bool.not_eq_true]
  intro blank
  have unknown := List.all_eq_true.mp none c ((isBlank_iff_mem c).mp blank)
  rw [begins] at unknown
  cases unknown

namespace Tiling

variable {source : String} {offset : Nat} {t : Token} {ts : List Token}

/-- A word in front of a tiling, with blanks in front of it. -/
theorem cons (tail : Tiling source t.span.stop ts) (word : t.kind ≠ .eof) (spelled : t.Spelled)
    (behind : ∀ u ∈ ts, t.span.stop ≤ u.span.start) {before blanks after : List Char}
    (gap : Cut source ⟨offset, t.span.start⟩ before blanks after) (blank : Blank blanks)
    (cut : ∃ before after, Cut source t.span before t.lexeme.toList after ∧
      (t.kind = .number → NoDigitBeside before after)) :
    Tiling source offset (t :: ts) where
  ended := by
    obtain ⟨words, rfl, others⟩ := tail.ended
    exact ⟨t :: words, rfl, List.forall_mem_cons.mpr ⟨word, others⟩⟩
  ordered := List.pairwise_cons.mpr ⟨behind, tail.ordered⟩
  blank := List.forall_mem_cons.mpr ⟨⟨before, blanks, after, gap, blank⟩, tail.blank⟩
  spelled := List.forall_mem_cons.mpr ⟨spelled, tail.spelled⟩
  cut := List.forall_mem_cons.mpr ⟨cut, tail.cut⟩

/-- Behind its first word, a tiling goes on. -/
theorem tail (tiling : Tiling source offset (t :: ts)) (word : t.kind ≠ .eof) :
    Tiling source t.span.stop ts where
  ended := by
    obtain ⟨words, shape, others⟩ := tiling.ended
    cases words with
    | nil =>
      obtain ⟨rfl, _⟩ := List.cons_eq_cons.mp shape
      exact (word rfl).elim
    | cons u words =>
      obtain ⟨_, rest⟩ := List.cons_eq_cons.mp shape
      exact ⟨words, rest, (List.forall_mem_cons.mp others).2⟩
  ordered := (List.pairwise_cons.mp tiling.ordered).2
  blank := (List.forall_mem_cons.mp tiling.blank).2
  spelled := (List.forall_mem_cons.mp tiling.spelled).2
  cut := (List.forall_mem_cons.mp tiling.cut).2

/-- The end marker comes last. -/
theorem eq_marker (tiling : Tiling source offset (t :: ts)) (marker : t.kind = .eof) :
    t = .endMarker source.utf8ByteSize ∧ ts = [] := by
  obtain ⟨words, shape, others⟩ := tiling.ended
  cases words with
  | nil => exact List.cons_eq_cons.mp shape
  | cons u words =>
    obtain ⟨rfl, _⟩ := List.cons_eq_cons.mp shape
    exact (others t List.mem_cons_self marker).elim

/-- The end marker stands where the source ends, and words stand in front of it. -/
theorem of_concat {words : List Token} {marker : Token}
    (tiling : Tiling source offset (words ++ [marker])) :
    marker = .endMarker source.utf8ByteSize ∧
      ∀ u ∈ words, u.kind ≠ .eof ∧ u.span.stop ≤ source.utf8ByteSize := by
  obtain ⟨words', shape, others⟩ := tiling.ended
  obtain ⟨rfl, rfl⟩ := List.append_singleton_inj.mp shape
  have before := (List.pairwise_append.mp tiling.ordered).2.2
  refine ⟨rfl, fun u member => ⟨others u member, ?_⟩⟩
  exact before u member _ (List.mem_singleton_self _)

end Tiling

def Parted (front back : List Char) : Prop :=
  ∀ c d, front.getLast? = some c → back.head? = some d → c.isDigit = true → d.isDigit = false

/-- Behind a word a run of digits has come to its end, for a number takes in all of it and no other
word ends in a digit. -/
theorem parted_of_word {kind : Kind} {lexeme rest : List Char} (spells : kind.Spells lexeme)
    (known : lexeme ≠ []) (ends : ∀ d, rest.head? = some d → kind.continues d = false)
    (front : List Char) : Parted (front ++ lexeme) rest := by
  intro c d last next digit
  rw [List.getLast?_append, List.getLast?_eq_some_getLast known, Option.some_or] at last
  cases kind with
  | number => exact ends d next
  | identifier =>
    obtain ⟨letter, rfl, alpha⟩ := spells
    obtain rfl : letter = c := Option.some.inj last
    rw [isAlpha_eq_false_of_isDigit digit] at alpha
    cases alpha
  | plus | minus | star | slash | lparen | rparen =>
    cases spells
    cases last
    cases digit
  | eof => exact (known spells).elim

theorem Parted.left {front blanks back : List Char} {c : Char}
    (parted : Parted front (blanks ++ c :: back)) (blank : ∀ d ∈ blanks, isBlank d = true)
    (digit : c.isDigit = true) :
    ∀ d, (front ++ blanks).getLast? = some d → d.isDigit = false := by
  intro d last
  rcases List.eq_nil_or_concat blanks with rfl | ⟨init, final, rfl⟩
  · rw [List.append_nil] at last
    rw [← Bool.not_eq_true]
    intro before
    have other := parted d c last rfl before
    rw [digit] at other
    cases other
  · rw [List.concat_eq_append, ← List.append_assoc, List.getLast?_concat] at last
    cases last
    exact isDigit_eq_false_of_isBlank (blank _ (by simp))

/-- What lies in the end of a source tiles it, unless that end begins inside a run of digits. -/
theorem Laid.tiling {source : String} {offset : Nat} {cs : List Char} {ts : List Token}
    (laid : Laid offset cs ts) {before : List Char} (whole : source.toList = before ++ cs)
    (place : offset = utf8Len before) (parted : Parted before cs) : Tiling source offset ts := by
  induction laid generalizing before with
  | @marker offset blanks blank =>
    have size : source.utf8ByteSize = offset + utf8Len blanks := by
      rw [← String.utf8Len_toList, whole, String.utf8Len_append, place]
    have gap : Cut source ⟨offset, offset + utf8Len blanks⟩ before blanks [] :=
      ⟨by rw [whole, List.append_nil], place, rfl⟩
    have point : Cut source (.point (offset + utf8Len blanks)) (before ++ blanks) [] [] := by
      refine ⟨?_, ?_, rfl⟩
      · rw [whole, List.append_nil, List.append_nil]
      · show offset + utf8Len blanks = utf8Len (before ++ blanks)
        rw [String.utf8Len_append, place]
    refine ⟨⟨[], ?_, List.forall_mem_nil _⟩, List.pairwise_singleton _ _, ?_, ?_, ?_⟩
    · rw [size, List.nil_append]
    · exact List.forall_mem_singleton.mpr ⟨before, blanks, [], gap, blank_iff.mpr blank⟩
    · exact List.forall_mem_singleton.mpr rfl
    · exact List.forall_mem_singleton.mpr
        ⟨before ++ blanks, [], point, fun number => by cases number⟩
  | @word offset start stop blanks more rest c kind ts blank visible begins inside ends first last
      tail ih =>
    have spells : kind.Spells (c :: more) := (kind.spells_cons_iff c more).mpr ⟨begins, inside⟩
    have whole' : source.toList = before ++ blanks ++ (c :: more ++ rest) := by
      rw [whole, List.append_assoc]
      rfl
    have place' : start = utf8Len (before ++ blanks) := by
      rw [String.utf8Len_append, first, place]
    have place'' : stop = utf8Len (before ++ blanks ++ (c :: more)) := by
      rw [String.utf8Len_append, last, place']
    have gap : Cut source ⟨offset, start⟩ before blanks (c :: more ++ rest) := ⟨whole, place, first⟩
    have beside : kind = .number → NoDigitBeside (before ++ blanks) rest := by
      rintro rfl
      exact ⟨parted.left blank (spells.2 c List.mem_cons_self), ends⟩
    have next : Tiling source stop ts := by
      refine ih ?_ place'' (parted_of_word spells (List.cons_ne_nil c more) ends _)
      rw [whole', ← List.append_assoc]
    obtain ⟨_, _, _, _, _, _, behind⟩ := tail.ordered
    refine next.cons (Kind.ne_eof_of_ofChar? begins) ?_ behind gap (blank_iff.mpr blank) ?_
    · show kind.Spells (String.ofList (c :: more)).toList
      rw [String.toList_ofList]
      exact spells
    · rw [String.toList_ofList]
      exact ⟨before ++ blanks, rest, ⟨whole', place', last⟩, beside⟩

/-- The tokens of a tiling lie in what it covers. -/
theorem Tiling.laid {source : String} {offset : Nat} {ts : List Token}
    (tiling : Tiling source offset ts) {before cs : List Char}
    (whole : source.toList = before ++ cs) (place : offset = utf8Len before) :
    Laid offset cs ts := by
  induction ts generalizing offset before cs with
  | nil =>
    obtain ⟨words, shape, _⟩ := tiling.ended
    cases words <;> cases shape
  | cons t ts ih =>
    obtain ⟨_, blanks, behind, gap, blank⟩ := tiling.blank ⟨offset, t.span.start⟩ List.mem_cons_self
    obtain ⟨rfl, rfl⟩ := gap.next whole place
    have first : t.span.start = offset + utf8Len blanks := gap.last
    by_cases marker : t.kind = .eof
    · obtain ⟨rfl, rfl⟩ := tiling.eq_marker marker
      have size : source.utf8ByteSize = offset + utf8Len blanks := first
      have nothing : behind = [] := by
        apply String.utf8Len_eq_zero.mp
        rw [← String.utf8Len_toList, whole, String.utf8Len_append, String.utf8Len_append, place] at size
        omega
      rw [nothing, List.append_nil, size]
      exact .marker (blank_iff.mp blank)
    · obtain ⟨_, rest, cut, beside⟩ := tiling.cut t List.mem_cons_self
      have whole' : source.toList = before ++ blanks ++ behind := by
        rw [whole, List.append_assoc]
      have place' : t.span.start = utf8Len (before ++ blanks) := by
        rw [String.utf8Len_append, first, place]
      obtain ⟨rfl, rfl⟩ := cut.next whole' place'
      have last := cut.last
      have tail : Laid t.span.stop rest ts := by
        apply ih (tiling.tail marker) (by rw [whole', ← List.append_assoc])
        rw [String.utf8Len_append, last, place']
      obtain ⟨c, more, shape, begins, inside⟩ := (tiling.spelled t List.mem_cons_self).begins marker
      have ends : ∀ d, rest.head? = some d → t.kind.continues d = false := by
        intro d next
        by_cases number : t.kind = .number
        · rw [number]
          exact (beside number).right d next
        · exact Kind.continues_eq_false number d
      obtain ⟨kind, lexeme, start, stop⟩ := t
      dsimp only at first last begins inside ends tail shape
      subst shape
      rw [String.toList_ofList] at last ⊢
      exact .word (blank_iff.mp blank) (isBlank_eq_false_of_ofChar? begins) begins inside ends first
        last tail

theorem tiling_of_tokenize {source : String} {ts : List Token}
    (accepted : tokenize source = .ok ts) : Tiling source 0 ts := by
  have whole : source.toList = [] ++ source.toList := rfl
  exact (laid_of_tokenize accepted).tiling whole rfl fun c d last => by cases last

/-- A source is cut into some tokens exactly where they tile it. -/
theorem tokenize_eq_ok_iff_tiling (source : String) (ts : List Token) :
    tokenize source = .ok ts ↔ Tiling source 0 ts := by
  rw [tokenize_eq_ok_iff_laid]
  have whole : source.toList = [] ++ source.toList := rfl
  constructor
  · intro laid
    exact laid.tiling whole rfl fun c d last => by cases last
  · intro tiling
    exact tiling.laid whole rfl

end Calculator
