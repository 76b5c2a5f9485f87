import Mathlib.Data.String.Basic
import Calculator.Lexer

set_option autoImplicit false

namespace Calculator

open String (utf8Len)

/-- The tokens of `cs`, which begins at byte `offset` of its source. -/
inductive Laid : Nat → List Char → List Token → Prop
  | marker {offset : Nat} {blanks : List Char} (blank : ∀ c ∈ blanks, isBlank c = true) :
      Laid offset blanks [.endMarker (offset + utf8Len blanks)]
  | word {offset start stop : Nat} {blanks more rest : List Char} {c : Char} {kind : Kind}
      {ts : List Token} (blank : ∀ d ∈ blanks, isBlank d = true) (visible : isBlank c = false)
      (begins : Kind.ofChar? c = some kind) (whole : ∀ d ∈ more, kind.continues d = true)
      (ends : ∀ d, rest.head? = some d → kind.continues d = false)
      (first : start = offset + utf8Len blanks) (last : stop = start + utf8Len (c :: more))
      (tail : Laid stop rest ts) :
      Laid offset (blanks ++ c :: (more ++ rest))
        (⟨kind, String.ofList (c :: more), ⟨start, stop⟩⟩ :: ts)

/-- What the next step of a lexer yields, and where it leaves the lexer. -/
inductive Advance (l : Lexer) : Lexer.Item → Lexer → Prop
  | marker (blank : ∀ c ∈ l.rest, isBlank c = true) :
      Advance l (.ok (.endMarker (l.offset + utf8Len l.rest)))
        { l with rest := [], offset := l.offset + utf8Len l.rest, done := true }
  | foreign {blanks cs : List Char} {c : Char} (shape : l.rest = blanks ++ c :: cs)
      (blank : ∀ d ∈ blanks, isBlank d = true) (visible : isBlank c = false)
      (begins : Kind.ofChar? c = none) :
      Advance l
        (.error ⟨c, ⟨l.offset + utf8Len blanks, l.offset + utf8Len blanks + c.utf8Size⟩⟩)
        { l with rest := c :: cs, offset := l.offset + utf8Len blanks, done := true }
  | word {blanks more rest : List Char} {c : Char} {kind : Kind} {start stop : Nat}
      (shape : l.rest = blanks ++ c :: (more ++ rest)) (blank : ∀ d ∈ blanks, isBlank d = true)
      (visible : isBlank c = false) (begins : Kind.ofChar? c = some kind)
      (whole : ∀ d ∈ more, kind.continues d = true)
      (ends : ∀ d, rest.head? = some d → kind.continues d = false)
      (first : start = l.offset + utf8Len blanks) (last : stop = start + utf8Len (c :: more)) :
      Advance l (.ok ⟨kind, String.ofList (c :: more), ⟨start, stop⟩⟩)
        { l with rest := rest, offset := stop, done := false }

theorem takeWhile_all (p : Char → Bool) (cs : List Char) :
    ∀ c ∈ cs.takeWhile p, p c = true := List.all_eq_true.mp List.all_takeWhile

private theorem head?_dropWhile_false (p : Char → Bool) (cs : List Char) (c : Char)
    (first : (cs.dropWhile p).head? = some c) : p c = false := by
  have stopped := List.head?_dropWhile_not p cs
  rw [first] at stopped
  exact stopped

namespace Lexer

theorem next?_of_done {l : Lexer} (finished : l.done = true) : l.next? = none := by
  simp only [next?, finished, ↓reduceIte]

theorem next?_of_running {l : Lexer} (running : l.done = false) :
    ∃ item l', l.next? = some (item, l') ∧ Advance l item l' := by
  have split : l.rest = l.rest.takeWhile isBlank ++ l.rest.dropWhile isBlank :=
    List.takeWhile_append_dropWhile.symm
  have blank := takeWhile_all isBlank l.rest
  have visible := head?_dropWhile_false isBlank l.rest
  unfold next?
  simp only [running, Bool.false_eq_true, ↓reduceIte, String.utf8ByteSize_ofList]
  cases shape : l.rest.dropWhile isBlank with
  | nil =>
    rw [shape, List.append_nil] at split
    rw [← split] at blank ⊢
    exact ⟨_, _, rfl, .marker blank⟩
  | cons c cs =>
    rw [shape] at split visible
    dsimp only
    cases begins : Kind.ofChar? c with
    | none => exact ⟨_, _, rfl, .foreign split blank (visible c rfl) begins⟩
    | some kind =>
      have parts : cs = cs.takeWhile kind.continues ++ cs.dropWhile kind.continues :=
        List.takeWhile_append_dropWhile.symm
      refine ⟨_, _, rfl, .word ?_ blank (visible c rfl) begins
        (takeWhile_all kind.continues cs) (head?_dropWhile_false kind.continues cs) rfl rfl⟩
      rw [← parts]
      exact split

theorem advance_of_next? {l l' : Lexer} {item : Item} (next : l.next? = some (item, l')) :
    Advance l item l' := by
  have running : l.done = false := by
    rw [← Bool.not_eq_true]
    intro finished
    rw [next?_of_done finished] at next
    cases next
  obtain ⟨item', last, known, advance⟩ := next?_of_running running
  rw [next] at known
  cases known
  exact advance

end Lexer

theorem mapM_ok_cons {t : Token} {items : List Lexer.Item} {ts : List Token}
    (accepted : (.ok t :: items : List Lexer.Item).mapM id = .ok ts) :
    ∃ rest, items.mapM id = .ok rest ∧ ts = t :: rest := by
  rw [List.mapM_cons] at accepted
  cases later : items.mapM id with
  | error e =>
    rw [later] at accepted
    cases accepted
  | ok rest =>
    rw [later] at accepted
    cases accepted
    exact ⟨rest, rfl, rfl⟩

theorem mapM_map_ok (ts : List Token) : (ts.map .ok : List Lexer.Item).mapM id = .ok ts := by
  induction ts with
  | nil => rfl
  | cons t ts ih =>
    rw [List.map_cons, List.mapM_cons, ih]
    rfl

theorem laid_of_items {l : Lexer} (running : l.done = false) {ts : List Token}
    (accepted : l.items.mapM id = .ok ts) : Laid l.offset l.rest ts := by
  obtain ⟨item, l', next, advance⟩ := Lexer.next?_of_running running
  have shorter := Lexer.pending_lt_of_next? next
  rw [Lexer.items_of_next?_some next] at accepted
  cases advance with
  | foreign => cases accepted
  | marker blank =>
    obtain ⟨rest, later, rfl⟩ := mapM_ok_cons accepted
    rw [Lexer.items_of_next?_none (Lexer.next?_of_done rfl)] at later
    cases later
    exact .marker blank
  | word shape blank visible begins whole ends first last =>
    obtain ⟨rest, later, rfl⟩ := mapM_ok_cons accepted
    rw [shape]
    exact .word blank visible begins whole ends first last (laid_of_items rfl later)
termination_by l.pending

/-- Tokens lie in the source that they are cut from. -/
theorem laid_of_tokenize {source : String} {ts : List Token}
    (accepted : tokenize source = .ok ts) : Laid 0 source.toList ts :=
  laid_of_items rfl accepted

theorem takeWhile_append {p : Char → Bool} {front back : List Char}
    (inside : ∀ c ∈ front, p c = true) (stops : ∀ c, back.head? = some c → p c = false) :
    (front ++ back).takeWhile p = front ∧ (front ++ back).dropWhile p = back := by
  rw [List.takeWhile_append_of_pos inside, List.dropWhile_append_of_pos inside]
  cases back with
  | nil => exact ⟨List.append_nil front, rfl⟩
  | cons c back => simp [stops c rfl]

namespace Lexer

theorem next?_of_blank {l : Lexer} (running : l.done = false)
    (blank : ∀ c ∈ l.rest, isBlank c = true) :
    l.next? = some (.ok (.endMarker (l.offset + utf8Len l.rest)),
      { l with rest := [], offset := l.offset + utf8Len l.rest, done := true }) := by
  obtain ⟨front, behind⟩ := @takeWhile_append isBlank l.rest [] blank fun c first => by cases first
  rw [List.append_nil] at front behind
  simp only [next?, running, Bool.false_eq_true, ↓reduceIte, front, behind,
    String.utf8ByteSize_ofList]

theorem next?_of_word {l : Lexer} {blanks more rest : List Char} {c : Char} {kind : Kind}
    (running : l.done = false) (shape : l.rest = blanks ++ c :: (more ++ rest))
    (blank : ∀ d ∈ blanks, isBlank d = true) (visible : isBlank c = false)
    (begins : Kind.ofChar? c = some kind) (whole : ∀ d ∈ more, kind.continues d = true)
    (ends : ∀ d, rest.head? = some d → kind.continues d = false) :
    l.next? = some
      (.ok ⟨kind, String.ofList (c :: more), ⟨l.offset + utf8Len blanks,
        l.offset + utf8Len blanks + utf8Len (c :: more)⟩⟩,
      { l with rest := rest, offset := l.offset + utf8Len blanks + utf8Len (c :: more) }) := by
  have first : ∀ d, (c :: (more ++ rest)).head? = some d → isBlank d = false := by
    intro d same
    cases same
    exact visible
  obtain ⟨front, behind⟩ := takeWhile_append blank first
  obtain ⟨inside, outside⟩ := takeWhile_append whole ends
  simp only [next?, running, Bool.false_eq_true, ↓reduceIte, shape, front, behind, begins, inside,
    outside, String.utf8ByteSize_ofList]

theorem next?_of_foreign {l : Lexer} {blanks after : List Char} {c : Char}
    (running : l.done = false) (shape : l.rest = blanks ++ c :: after)
    (blank : ∀ d ∈ blanks, isBlank d = true) (visible : isBlank c = false)
    (begins : Kind.ofChar? c = none) :
    l.next? = some
      (.error ⟨c, ⟨l.offset + utf8Len blanks, l.offset + utf8Len blanks + c.utf8Size⟩⟩,
      { l with rest := c :: after, offset := l.offset + utf8Len blanks, done := true }) := by
  have first : ∀ d, (c :: after).head? = some d → isBlank d = false := by
    intro d same
    cases same
    exact visible
  obtain ⟨front, behind⟩ := takeWhile_append blank first
  simp only [next?, running, Bool.false_eq_true, ↓reduceIte, shape, front, behind, begins,
    String.utf8ByteSize_ofList]

/-- A lexer in front of a text yields the tokens that lie in it. -/
theorem items_of_laid {offset : Nat} {cs : List Char} {ts : List Token} (laid : Laid offset cs ts)
    {l : Lexer} (running : l.done = false) (place : l.offset = offset) (text : l.rest = cs) :
    l.items = ts.map .ok := by
  induction laid generalizing l with
  | marker blank =>
    subst place text
    rw [items_of_next?_some (next?_of_blank running blank),
      items_of_next?_none (next?_of_done rfl)]
    rfl
  | word blank visible begins whole ends first last tail ih =>
    subst place first last
    rw [items_of_next?_some (next?_of_word running text blank visible begins whole ends)]
    exact congrArg _ (ih running rfl rfl)

end Lexer

/-- Tokenizing yields some tokens exactly where they lie in the source. -/
theorem tokenize_eq_ok_iff_laid {source : String} {ts : List Token} :
    tokenize source = .ok ts ↔ Laid 0 source.toList ts := by
  constructor
  · exact laid_of_tokenize
  · intro laid
    have yields : (Lexer.ofSource source).items = ts.map .ok := Lexer.items_of_laid laid rfl rfl rfl
    rw [tokenize, yields]
    exact mapM_map_ok ts

theorem Kind.ne_eof_of_ofChar? {c : Char} {kind : Kind} (begins : Kind.ofChar? c = some kind) :
    kind ≠ .eof := by
  rintro rfl
  unfold Kind.ofChar? at begins
  split at begins
  · cases begins
  · split at begins
    · cases begins
    · unfold Kind.ofSymbol? at begins
      split at begins <;> cases begins

/-- There is an end marker, and up to the first one no token starts in front of an earlier one. What
follows the marker does not matter. -/
def OrderedToEnd (ts : List Token) : Prop :=
  ∃ front marker back, ts = front ++ marker :: back ∧ (∀ t ∈ front, t.kind ≠ .eof) ∧
    marker.kind = .eof ∧ (front ++ [marker]).Pairwise fun a b => a.span.start ≤ b.span.start

theorem Laid.ordered {offset : Nat} {cs : List Char} {ts : List Token} (laid : Laid offset cs ts) :
    ∃ front marker, ts = front ++ [marker] ∧ (∀ t ∈ front, t.kind ≠ .eof) ∧ marker.kind = .eof ∧
      ts.Pairwise (fun a b => a.span.start ≤ b.span.start) ∧ ∀ t ∈ ts, offset ≤ t.span.start := by
  induction laid with
  | @marker offset blanks blank =>
    refine ⟨[], .endMarker (offset + utf8Len blanks), rfl, List.forall_mem_nil _, rfl,
      List.pairwise_singleton _ _, ?_⟩
    intro t member
    rw [List.mem_singleton.mp member]
    exact Nat.le_add_right offset _
  | word blank visible begins whole ends first last tail ih =>
    obtain ⟨front, marker, rfl, words, isMarker, rising, behind⟩ := ih
    refine ⟨_ :: front, marker, rfl, ?_, isMarker, ?_, ?_⟩
    · exact List.forall_mem_cons.mpr ⟨Kind.ne_eof_of_ofChar? begins, words⟩
    · refine List.pairwise_cons.mpr ⟨?_, rising⟩
      intro t member
      have later := behind t member
      dsimp only
      omega
    · refine List.forall_mem_cons.mpr ⟨?_, ?_⟩
      · dsimp only
        omega
      · intro t member
        have later := behind t member
        omega

theorem orderedToEnd_of_tokenize {source : String} {ts : List Token}
    (accepted : tokenize source = .ok ts) : OrderedToEnd ts := by
  obtain ⟨front, marker, rfl, words, isMarker, rising, _⟩ := (laid_of_tokenize accepted).ordered
  exact ⟨front, marker, [], rfl, words, isMarker, rising⟩

end Calculator
