import Calculator.Calculate
import Calculator.Proofs.Tiling

set_option autoImplicit false

namespace Calculator

open String (utf8Len)

/-- ASCII letters and digits, the symbols and the blanks. All other characters are foreign. -/
def Known (c : Char) : Prop :=
  c.isAlpha = true ∨ c.isDigit = true ∨ c ∈ ['+', '-', '*', '/', '(', ')'] ∨
    c ∈ [' ', '\x0c', '\t', '\r', '\n']

/-- The error names the first foreign character of a source, between `before` and `after`, and the
bytes on which it stands. -/
structure FirstForeign (source : String) (e : LexError) (before after : List Char) : Prop where
  whole : source.toList = before ++ e.character :: after
  known : ∀ c ∈ before, Known c
  foreign : ¬ Known e.character
  first : e.position.start = utf8Len before
  last : e.position.stop = e.position.start + e.character.utf8Size

theorem Kind.ofSymbol?_isSome_iff (c : Char) :
    (ofSymbol? c).isSome = true ↔ c ∈ ['+', '-', '*', '/', '(', ')'] := by
  unfold ofSymbol?
  split <;> simp_all

/-- A character is known exactly where it begins a word or belongs to none. -/
theorem known_iff (c : Char) : Known c ↔ isBlank c = true ∨ (Kind.ofChar? c).isSome = true := by
  have symbol := Kind.ofSymbol?_isSome_iff c
  have blank := isBlank_iff_mem c
  unfold Kind.ofChar?
  by_cases digit : c.isDigit = true
  · simp [Known, digit]
  · by_cases letter : c.isAlpha = true
    · simp [Known, letter, digit]
    · rw [if_neg digit, if_neg letter, symbol, blank, or_comm]
      simp only [Known, letter, digit, false_or, Bool.false_eq_true]

theorem known_of_isBlank {c : Char} (blank : isBlank c = true) : Known c :=
  (known_iff c).mpr (.inl blank)

theorem known_of_ofChar? {c : Char} {kind : Kind} (begins : Kind.ofChar? c = some kind) : Known c :=
  (known_iff c).mpr (.inr (by rw [begins]; rfl))

theorem known_of_continues {kind : Kind} {c : Char} (inside : kind.continues c = true) : Known c := by
  cases kind with
  | number => exact .inr (.inl inside)
  | _ => cases inside

theorem not_known_of_ofChar? {c : Char} (visible : isBlank c = false)
    (begins : Kind.ofChar? c = none) : ¬ Known c := by
  intro known
  rcases (known_iff c).mp known with blank | word
  · rw [visible] at blank
    cases blank
  · rw [begins] at word
    cases word

theorem isBlank_eq_false_of_foreign {c : Char} (foreign : ¬ Known c) : isBlank c = false := by
  rw [← Bool.not_eq_true]
  exact fun blank => foreign (known_of_isBlank blank)

theorem ofChar?_eq_none_of_foreign {c : Char} (foreign : ¬ Known c) : Kind.ofChar? c = none := by
  cases begins : Kind.ofChar? c with
  | none => rfl
  | some kind => exact (foreign (known_of_ofChar? begins)).elim

theorem isDigit_eq_false_of_foreign {c : Char} (foreign : ¬ Known c) : c.isDigit = false := by
  rw [← Bool.not_eq_true]
  exact fun digit => foreign (.inr (.inl digit))

/-- In a text without foreign characters some tokens lie. -/
theorem exists_laid_of_lexer {l : Lexer} (running : l.done = false)
    (known : ∀ c ∈ l.rest, Known c) : ∃ ts, Laid l.offset l.rest ts := by
  obtain ⟨item, l', next, advance⟩ := Lexer.next?_of_running running
  have shorter := Lexer.pending_lt_of_next? next
  cases advance with
  | marker blank => exact ⟨_, .marker blank⟩
  | @foreign blanks cs c shape blank visible begins =>
    have inside : c ∈ l.rest := by
      rw [shape]
      simp
    exact (not_known_of_ofChar? visible begins (known c inside)).elim
  | @word blanks more rest c kind start stop shape blank visible begins whole ends first last =>
    have behind : ∀ d ∈ rest, Known d := by
      intro d member
      apply known
      rw [shape]
      simp [member]
    obtain ⟨ts, tail⟩ :=
      exists_laid_of_lexer (l := { l with rest := rest, offset := stop, done := false }) rfl behind
    rw [shape]
    exact ⟨_, .word blank visible begins whole ends first last tail⟩
termination_by l.pending

theorem exists_laid {cs : List Char} (known : ∀ c ∈ cs, Known c) (offset : Nat) :
    ∃ ts, Laid offset cs ts :=
  exists_laid_of_lexer (l := ⟨"", cs, offset, false⟩) rfl known

namespace Lexer

/-- A foreign character is the end of what a lexer yields. In front of it stand the words of the text
up to there. -/
theorem items_of_laid_foreign {offset : Nat} {before : List Char} {ts : List Token}
    (laid : Laid offset before ts) {c : Char} (foreign : ¬ Known c) {after : List Char} {l : Lexer}
    (running : l.done = false) (place : l.offset = offset) (text : l.rest = before ++ c :: after) :
    ∃ words, ts = words ++ [.endMarker (offset + utf8Len before)] ∧
      l.items = words.map .ok ++
        [.error ⟨c, ⟨offset + utf8Len before, offset + utf8Len before + c.utf8Size⟩⟩] := by
  have visible := isBlank_eq_false_of_foreign foreign
  have begins := ofChar?_eq_none_of_foreign foreign
  have parted : ∀ d, (c :: after).head? = some d → d.isDigit = false := by
    intro d next
    cases next
    exact isDigit_eq_false_of_foreign foreign
  induction laid generalizing l with
  | marker blank =>
    subst place
    refine ⟨[], rfl, ?_⟩
    rw [items_of_next?_some (next?_of_foreign running text blank visible begins),
      items_of_next?_none (next?_of_done rfl)]
    rfl
  | @word offset start stop blanks more rest d kind ts blank apparent starts whole ends first last
      tail ih =>
    subst place first last
    have shape : l.rest = blanks ++ d :: (more ++ (rest ++ c :: after)) := by
      simp only [text, List.append_assoc, List.cons_append]
    have step := next?_of_word running shape blank apparent starts whole
      (Kind.ends_append ends parted)
    obtain ⟨words, marked, yields⟩ := ih (l := { l with
      rest := rest ++ c :: after
      offset := l.offset + utf8Len blanks + utf8Len (d :: more) }) running rfl rfl
    have size : l.offset + utf8Len blanks + utf8Len (d :: more) + utf8Len rest =
        l.offset + utf8Len (blanks ++ d :: (more ++ rest)) := by
      simp only [String.utf8Len_append, String.utf8Len_cons]
      omega
    rw [size] at marked yields
    refine ⟨_ :: words, congrArg _ marked, ?_⟩
    rw [items_of_next?_some step, yields]
    rfl

end Lexer

theorem mapM_append_error (ts : List Token) (e : LexError) :
    (ts.map .ok ++ [.error e] : List Lexer.Item).mapM id = .error e := by
  induction ts with
  | nil => rfl
  | cons t ts ih =>
    rw [List.map_cons, List.cons_append, List.mapM_cons, ih]
    rfl

/-- The words in front of the first foreign character are those of the text that ends there. -/
theorem FirstForeign.exists_words {source : String} {e : LexError} {before after : List Char}
    (stops : FirstForeign source e before after) :
    ∃ words, Laid 0 before (words ++ [.endMarker (utf8Len before)]) ∧
      (Lexer.ofSource source).items = words.map .ok ++ [.error e] := by
  obtain ⟨ts, laid⟩ := exists_laid stops.known 0
  obtain ⟨words, rfl, yields⟩ :=
    Lexer.items_of_laid_foreign laid stops.foreign (l := .ofSource source) rfl rfl stops.whole
  obtain ⟨whole, known, foreign, first, last⟩ := stops
  obtain ⟨character, start, stop⟩ := e
  dsimp only at first last yields
  subst first last
  rw [Nat.zero_add] at laid yields
  exact ⟨words, laid, yields⟩

theorem FirstForeign.tokenize_eq {source : String} {e : LexError} {before after : List Char}
    (stops : FirstForeign source e before after) : tokenize source = .error e := by
  obtain ⟨words, _, yields⟩ := stops.exists_words
  rw [tokenize, yields, mapM_append_error]

theorem tokenize_of_known {source : String} (known : ∀ c ∈ source.toList, Known c) :
    ∃ ts, tokenize source = .ok ts := by
  obtain ⟨ts, laid⟩ := exists_laid known 0
  exact ⟨ts, tokenize_eq_ok_iff_laid.mpr laid⟩

/-- A text has a first foreign character, or none at all. -/
theorem all_known_or_first (cs : List Char) :
    (∀ c ∈ cs, Known c) ∨
      ∃ before c after, cs = before ++ c :: after ∧ (∀ d ∈ before, Known d) ∧ ¬ Known c := by
  induction cs with
  | nil => exact .inl (List.forall_mem_nil _)
  | cons c cs ih =>
    by_cases known : Known c
    · rcases ih with all | ⟨before, d, after, rfl, front, foreign⟩
      · exact .inl (List.forall_mem_cons.mpr ⟨known, all⟩)
      · exact .inr ⟨c :: before, d, after, rfl, List.forall_mem_cons.mpr ⟨known, front⟩, foreign⟩
    · exact .inr ⟨[], c, cs, rfl, List.forall_mem_nil _, known⟩

theorem all_known_or_firstForeign (source : String) :
    (∀ c ∈ source.toList, Known c) ∨ ∃ e before after, FirstForeign source e before after := by
  rcases all_known_or_first source.toList with all | ⟨before, c, after, whole, known, foreign⟩
  · exact .inl all
  · exact .inr ⟨⟨c, ⟨utf8Len before, utf8Len before + c.utf8Size⟩⟩, before, after, whole, known,
      foreign, rfl, rfl⟩

theorem tokenize_eq_error_iff (source : String) (e : LexError) :
    tokenize source = .error e ↔ ∃ before after, FirstForeign source e before after := by
  constructor
  · intro failed
    rcases all_known_or_firstForeign source with known | ⟨e', before, after, stops⟩
    · obtain ⟨ts, accepted⟩ := tokenize_of_known known
      rw [failed] at accepted
      cases accepted
    · have found := stops.tokenize_eq
      rw [failed] at found
      cases found
      exact ⟨before, after, stops⟩
  · rintro ⟨before, after, stops⟩
    exact stops.tokenize_eq

theorem Tree.ofSource_eq_lexing_iff (source : String) (e : LexError) :
    Tree.ofSource source = .error (.lexing e) ↔ tokenize source = .error e := by
  cases cut : tokenize source with
  | error e' =>
    rw [Tree.ofSource_of_foreign cut]
    simp
  | ok ts =>
    cases strict : (parse ts).strict with
    | error d =>
      rw [Tree.ofSource_of_rejected cut strict]
      simp
    | ok t =>
      rw [Tree.ofSource_of_strict cut strict]
      simp

theorem evaluate_eq_lexing_iff (source : String) (e : LexError) :
    evaluate source = .error (.lexing e) ↔ tokenize source = .error e := by
  rw [← Tree.ofSource_eq_lexing_iff]
  cases read : Tree.ofSource source with
  | error failure =>
    rw [evaluate_of_unread read]
    simp
  | ok t =>
    -- The source was read, so neither side is an error of this stage.
    rw [evaluate_of_read read]
    cases t.eval .initial with
    | error fault => constructor <;> intro failed <;> cases failed
    | ok value => constructor <;> intro failed <;> cases failed

/-- A source is cut into tokens unless some character of it is foreign. Then the error is about the
first of those, wherever it stands, and it comes before all that else is wrong with the source. -/
theorem tokenize_eq_error_iff_firstForeign (source : String) :
    ((∃ e, tokenize source = .error e) ↔ ∃ c ∈ source.toList, ¬ Known c) ∧
      ∀ e, (tokenize source = .error e ↔ ∃ before after, FirstForeign source e before after) ∧
        (Tree.ofSource source = .error (.lexing e) ↔ tokenize source = .error e) ∧
        (evaluate source = .error (.lexing e) ↔ tokenize source = .error e) := by
  refine ⟨?_, fun e => ⟨tokenize_eq_error_iff source e, Tree.ofSource_eq_lexing_iff source e,
    evaluate_eq_lexing_iff source e⟩⟩
  constructor
  · rintro ⟨e, failed⟩
    obtain ⟨before, after, stops⟩ := (tokenize_eq_error_iff source e).mp failed
    refine ⟨e.character, ?_, stops.foreign⟩
    rw [stops.whole]
    simp
  · rintro ⟨c, member, foreign⟩
    rcases all_known_or_firstForeign source with known | ⟨e, before, after, stops⟩
    · exact (foreign (known c member)).elim
    · exact ⟨e, stops.tokenize_eq⟩

end Calculator
