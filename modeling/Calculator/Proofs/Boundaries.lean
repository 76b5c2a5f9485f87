import Calculator.Proofs.Stream

set_option autoImplicit false

namespace Calculator

open String (utf8Len)

/-- An offset in a source, or at its end, that is inside no character. -/
structure Boundary (source : String) (offset : Nat) : Prop where
  within : offset ≤ source.utf8ByteSize
  whole : String.Pos.Raw.IsValid source ⟨offset⟩

/-- An offset is a boundary where it is the size of a front of the source. -/
theorem boundary_iff {source : String} {offset : Nat} :
    Boundary source offset ↔
      ∃ before after, source.toList = before ++ after ∧ offset = utf8Len before := by
  constructor
  · rintro ⟨_, valid⟩
    obtain ⟨front, back, whole, place⟩ := String.Pos.Raw.isValid_iff_exists_append.mp valid
    refine ⟨front.toList, back.toList, ?_, ?_⟩
    · rw [whole, String.toList_append]
    · rw [String.utf8Len_toList]
      exact congrArg String.Pos.Raw.byteIdx place
  · rintro ⟨before, after, whole, rfl⟩
    have valid : String.Pos.Raw.IsValid source ⟨utf8Len before⟩ := by
      rw [String.Pos.Raw.isValid_iff_exists_append]
      refine ⟨String.ofList before, String.ofList after, ?_, ?_⟩
      · rw [← String.ofList_append, ← whole, String.ofList_toList]
      · rw [← String.utf8ByteSize_ofList]
        rfl
    exact ⟨valid.le_utf8ByteSize, valid⟩

/-- The text on a span of a source. There is none if the span runs backwards, leaves the source or
splits a character. -/
def slice? (source : String) (span : Span) : Option String :=
  if inside : String.Pos.Raw.IsValid source ⟨span.start⟩ ∧
      String.Pos.Raw.IsValid source ⟨span.stop⟩ then
    (source.slice? (source.pos ⟨span.start⟩ inside.1)
      (source.pos ⟨span.stop⟩ inside.2)).map String.Slice.copy
  else none

namespace Cut

variable {source : String} {span : Span} {before text after : List Char}

theorem boundary_start (cut : Cut source span before text after) : Boundary source span.start :=
  boundary_iff.mpr ⟨before, text ++ after, cut.whole, cut.first⟩

theorem boundary_stop (cut : Cut source span before text after) : Boundary source span.stop := by
  refine boundary_iff.mpr ⟨before ++ text, after, ?_, ?_⟩
  · rw [cut.whole, List.append_assoc]
  · rw [cut.last, cut.first, String.utf8Len_append]

/-- The bytes on a span are those of the text that stands there. -/
theorem extract_eq (cut : Cut source span before text after) :
    source.toByteArray.extract span.start span.stop = (String.ofList text).toByteArray := by
  have parts : source = String.ofList before ++ (String.ofList text ++ String.ofList after) := by
    rw [← String.ofList_append, ← String.ofList_append, ← cut.whole, String.ofList_toList]
  have start : span.start = (String.ofList before).toByteArray.size + 0 := by
    rw [cut.first, ← String.utf8ByteSize_ofList]
    rfl
  have stop : span.stop =
      (String.ofList before).toByteArray.size + (String.ofList text).toByteArray.size := by
    rw [cut.last, cut.first, ← String.utf8ByteSize_ofList, ← String.utf8ByteSize_ofList]
    rfl
  rw [start, stop, parts, String.toByteArray_append, String.toByteArray_append,
    ByteArray.extract_append_size_add, ByteArray.extract_append_eq_left rfl]

theorem slice?_eq (cut : Cut source span before text after) :
    slice? source span = some (String.ofList text) := by
  have first := cut.boundary_start.whole
  have last := cut.boundary_stop.whole
  have forwards : source.pos ⟨span.start⟩ first ≤ source.pos ⟨span.stop⟩ last := by
    show span.start ≤ span.stop
    rw [cut.last]
    exact Nat.le_add_right _ _
  rw [slice?, dif_pos ⟨first, last⟩, String.slice?, dif_pos forwards, Option.map_some]
  congr 1
  rw [← String.toByteArray_inj, String.toByteArray_copy_slice]
  exact cut.extract_eq

/-- Between two boundaries, one behind the other, stands some text. -/
theorem exists_of_boundaries (start : Boundary source span.start) (stop : Boundary source span.stop)
    (forwards : span.start ≤ span.stop) : ∃ before text after, Cut source span before text after := by
  obtain ⟨front, back, whole, first⟩ := boundary_iff.mp start
  obtain ⟨front', back', whole', last⟩ := boundary_iff.mp stop
  rcases List.append_eq_append_iff.mp (whole.symm.trans whole') with
    ⟨text, rfl, rfl⟩ | ⟨text, rfl, rfl⟩
  · rw [String.utf8Len_append, ← first] at last
    exact ⟨front, text, back', whole, first, last⟩
  · -- The span stops at least as far behind as it starts, so there is nothing between.
    rw [String.utf8Len_append] at first
    have nothing : utf8Len text = 0 := by omega
    have same : span.stop = span.start := by omega
    rw [String.utf8Len_eq_zero.mp nothing, List.append_nil] at whole
    refine ⟨front', [], back, whole, ?_, same⟩
    omega

end Cut

/-- There is a slice exactly where some text stands on the whole span, and it is that text. -/
theorem slice?_eq_some_iff {source text : String} {span : Span} :
    slice? source span = some text ↔ ∃ before after, Cut source span before text.toList after := by
  constructor
  · intro found
    have inside : Boundary source span.start ∧ Boundary source span.stop ∧
        span.start ≤ span.stop := by
      unfold slice? at found
      split at found
      · rename_i valid
        unfold String.slice? at found
        split at found
        · rename_i forwards
          exact ⟨⟨valid.1.le_utf8ByteSize, valid.1⟩, ⟨valid.2.le_utf8ByteSize, valid.2⟩, forwards⟩
        · cases found
      · cases found
    obtain ⟨start, stop, forwards⟩ := inside
    obtain ⟨before, text', after, cut⟩ := Cut.exists_of_boundaries start stop forwards
    rw [cut.slice?_eq] at found
    cases found
    rw [String.toList_ofList]
    exact ⟨before, after, cut⟩
  · rintro ⟨before, after, cut⟩
    rw [cut.slice?_eq, String.ofList_toList]

example : slice? "é" ⟨0, 1⟩ = none := by decide +kernel

namespace Lexer

/-- The next item behind an offset, and the offset behind the item, read off slices of the source.
There is nothing if one of the slices fails. -/
def readAt? (source : String) (offset : Nat) : Option (Item × Nat) := do
  let rest ← slice? source ⟨offset, source.utf8ByteSize⟩
  let start := offset + utf8Len (rest.toList.takeWhile isBlank)
  let visible ← slice? source ⟨start, source.utf8ByteSize⟩
  match visible.toList with
  | [] => some (.ok (.endMarker start), start)
  | c :: cs =>
    match Kind.ofChar? c with
    | none => some (.error ⟨c, ⟨start, start + c.utf8Size⟩⟩, start)
    | some kind =>
      let stop := start + utf8Len (c :: cs.takeWhile kind.continues)
      let lexeme ← slice? source ⟨start, stop⟩
      some (.ok ⟨kind, lexeme, ⟨start, stop⟩⟩, stop)

/-- The lexer has passed over the front of its source, in which no character is foreign, and the rest
is what it has left to read. -/
structure Stands (source : String) (front : List Char) (l : Lexer) : Prop where
  source_eq : l.source = source
  whole : source.toList = front ++ l.rest
  place : l.offset = utf8Len front
  known : ∀ c ∈ front, Known c

namespace Stands

variable {source : String} {front : List Char} {l l' : Lexer} {item : Item}

theorem start (source : String) : Stands source [] (ofSource source) :=
  ⟨rfl, rfl, rfl, List.forall_mem_nil _⟩

/-- Behind known characters a lexer stands in its source as it did in front of them. -/
theorem behind (here : Stands source front l) {passed rest : List Char} {stop : Nat} {done : Bool}
    (shape : l.rest = passed ++ rest) (known : ∀ c ∈ passed, Known c)
    (place : stop = l.offset + utf8Len passed) :
    Stands source (front ++ passed) { l with rest := rest, offset := stop, done := done } where
  source_eq := here.source_eq
  whole := by rw [here.whole, shape, List.append_assoc]
  place := by rw [place, here.place, String.utf8Len_append]
  known := List.forall_mem_append.mpr ⟨here.known, known⟩

/-- A lexer moves on over blanks and words. -/
theorem advance (here : Stands source front l) (step : Advance l item l') :
    ∃ passed, Stands source (front ++ passed) l' := by
  have blanks : ∀ {passed : List Char}, (∀ c ∈ passed, isBlank c = true) → ∀ c ∈ passed, Known c :=
    fun blank c member => known_of_isBlank (blank c member)
  cases step with
  | marker blank =>
    exact ⟨l.rest, here.behind (List.append_nil l.rest).symm (blanks blank) rfl⟩
  | @foreign passed cs c shape blank visible begins =>
    exact ⟨passed, here.behind shape (blanks blank) rfl⟩
  | @word passed more rest c kind start stop shape blank visible begins inside ends first last =>
    have word : ∀ d ∈ c :: more, Known d := List.forall_mem_cons.mpr
      ⟨known_of_ofChar? begins, fun d member => known_of_continues (inside d member)⟩
    have parts : l.rest = (passed ++ c :: more) ++ rest := by
      rw [shape, List.append_assoc, List.cons_append]
    have place : stop = l.offset + utf8Len (passed ++ c :: more) := by
      rw [last, first, String.utf8Len_append, Nat.add_assoc]
    exact ⟨passed ++ c :: more,
      here.behind parts (List.forall_mem_append.mpr ⟨blanks blank, word⟩) place⟩

theorem step (here : Stands source front l) (request : Request) :
    ∃ front', Stands source front' (machine.next l request) := by
  cases request with
  | reset =>
    obtain rfl := here.source_eq
    exact ⟨[], start l.source⟩
  | fork => exact ⟨front, here⟩
  | next =>
    cases more : l.next? with
    | none =>
      rw [next_of_none more]
      exact ⟨front, here⟩
    | some result =>
      obtain ⟨item, l'⟩ := result
      rw [next_of_some more]
      obtain ⟨passed, there⟩ := here.advance (advance_of_next? more)
      exact ⟨front ++ passed, there⟩

theorem run (here : Stands source front l) (history : List Request) :
    ∃ front', Stands source front' (machine.after l history) := by
  induction history generalizing front l with
  | nil => exact ⟨front, here⟩
  | cons request later ih =>
    obtain ⟨_, there⟩ := here.step request
    exact ih there

theorem boundary (here : Stands source front l) : Boundary source l.offset :=
  boundary_iff.mpr ⟨front, l.rest, here.whole, here.place⟩

/-- What a lexer has left to read stands in the source behind its offset. -/
theorem cut (here : Stands source front l) {passed text behind : List Char}
    (shape : l.rest = passed ++ (text ++ behind)) :
    Cut source ⟨l.offset + utf8Len passed, l.offset + utf8Len passed + utf8Len text⟩
      (front ++ passed) text behind := by
  refine ⟨?_, ?_, rfl⟩
  · rw [here.whole, shape, List.append_assoc]
  · show l.offset + utf8Len passed = utf8Len (front ++ passed)
    rw [here.place, String.utf8Len_append]

theorem slice?_rest (here : Stands source front l) {passed text : List Char}
    (shape : l.rest = passed ++ text) :
    slice? source ⟨l.offset + utf8Len passed, source.utf8ByteSize⟩ = some (String.ofList text) := by
  have size : source.utf8ByteSize = l.offset + utf8Len passed + utf8Len text := by
    rw [← String.utf8Len_toList, here.whole, shape, String.utf8Len_append, String.utf8Len_append,
      here.place, Nat.add_assoc]
  have toEnd : l.rest = passed ++ (text ++ []) := by
    rw [shape, List.append_nil]
  rw [size]
  exact (here.cut toEnd).slice?_eq

/-- A lexer that goes on yields what slices of its source yield at its offset. -/
theorem readAt?_eq (here : Stands source front l) (running : l.done = false) :
    ∃ item l', l.next? = some (item, l') ∧ readAt? source l.offset = some (item, l'.offset) := by
  have split : l.rest = l.rest.takeWhile isBlank ++ l.rest.dropWhile isBlank :=
    List.takeWhile_append_dropWhile.symm
  have rest : slice? source ⟨l.offset, source.utf8ByteSize⟩ = some (String.ofList l.rest) :=
    here.slice?_rest (List.nil_append l.rest).symm
  have visible := here.slice?_rest split
  simp only [next?, readAt?, running, Bool.false_eq_true, ↓reduceIte, Option.bind_eq_bind,
    Option.bind_some, String.toList_ofList, String.utf8ByteSize_ofList, rest, visible]
  cases shape : l.rest.dropWhile isBlank with
  | nil => exact ⟨_, _, rfl, rfl⟩
  | cons c cs =>
    dsimp only
    cases Kind.ofChar? c with
    | none => exact ⟨_, _, rfl, rfl⟩
    | some kind =>
      have parts : l.rest = l.rest.takeWhile isBlank ++
          (c :: cs.takeWhile kind.continues ++ cs.dropWhile kind.continues) := by
        rw [List.cons_append, List.takeWhile_append_dropWhile, ← shape]
        exact split
      dsimp only
      rw [(here.cut parts).slice?_eq]
      exact ⟨_, _, rfl, rfl⟩

/-- A word has at least one byte, and the lexer stands behind its last one. -/
theorem word_boundaries (here : Stands source front l) {t : Token} (step : Advance l (.ok t) l')
    (word : t.kind ≠ .eof) :
    l'.offset = t.span.stop ∧ l.offset < l'.offset ∧ Boundary source t.span.start ∧
      Boundary source t.span.stop := by
  cases step with
  | marker => exact (word rfl).elim
  | @word blanks more rest c kind start stop shape blank visible begins inside ends first last =>
    subst first last
    have toWord : l.rest = blanks ++ (c :: more ++ rest) := shape
    have cut := here.cut toWord
    have long := c.utf8Size_pos
    refine ⟨rfl, ?_, cut.boundary_start, cut.boundary_stop⟩
    show l.offset < l.offset + utf8Len blanks + utf8Len (c :: more)
    rw [String.utf8Len_cons]
    omega

/-- The end marker is yielded where the source ends. -/
theorem offset_of_marker (here : Stands source front l) {t : Token} (step : Advance l (.ok t) l')
    (marker : t.kind = .eof) : l'.offset = source.utf8ByteSize := by
  cases step with
  | marker =>
    show l.offset + utf8Len l.rest = source.utf8ByteSize
    rw [← String.utf8Len_toList, here.whole, String.utf8Len_append, here.place]
  | word _ _ _ begins => exact (Kind.ne_eof_of_ofChar? begins marker).elim

/-- An error leaves a lexer in front of the first foreign character of its source. -/
theorem firstForeign (here : Stands source front l) {e : LexError} (step : Advance l (.error e) l') :
    l'.offset = e.position.start ∧ ∃ before after, FirstForeign source e before after := by
  obtain ⟨passed, there⟩ := here.advance step
  cases step with
  | @foreign blanks cs c shape blank visible begins =>
    exact ⟨rfl, front ++ passed, cs, there.whole, there.known, not_known_of_ofChar? visible begins,
      there.place, rfl⟩

end Stands

/-- A lexer that stands in its source where it can read on: its offset splits no character, its next
item can be read off slices of the source, and it moves on to where the item has its end. -/
structure Aligned (source : String) (l : Lexer) : Prop where
  boundary : Boundary source l.offset
  sliced : l.done = false →
    ∃ item l', l.next? = some (item, l') ∧ readAt? source l.offset = some (item, l'.offset)
  word : ∀ t l', l.next? = some (.ok t, l') → t.kind ≠ .eof →
    l'.offset = t.span.stop ∧ l.offset < l'.offset ∧ Boundary source t.span.start ∧
      Boundary source t.span.stop
  marker : ∀ t l', l.next? = some (.ok t, l') → t.kind = .eof → l'.offset = source.utf8ByteSize
  foreign : ∀ e l', l.next? = some (.error e, l') →
    l'.offset = e.position.start ∧ ∃ before after, FirstForeign source e before after

/-- Whatever was asked of a lexer, it stands on a boundary between characters of its source, and so
does every word that it yields. It moves on by a byte at least with each word, it yields the end marker
at the end of the source only, and an error leaves it at the first byte of a foreign character. -/
theorem aligned_after (source : String) (history : List Request) :
    Aligned source (machine.after (ofSource source) history) := by
  obtain ⟨front, here⟩ := (Stands.start source).run history
  refine ⟨here.boundary, here.readAt?_eq, ?_, ?_, ?_⟩
  · intro t l' next word
    exact here.word_boundaries (advance_of_next? next) word
  · intro t l' next marker
    exact here.offset_of_marker (advance_of_next? next) marker
  · intro e l' next
    exact here.firstForeign (advance_of_next? next)

end Lexer

end Calculator
