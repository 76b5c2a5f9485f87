import Calculator.Proofs.Foreign
import Calculator.Proofs.Machine

set_option autoImplicit false

namespace Calculator

open String (utf8Len)

namespace Lexer

inductive Request where
  | next
  | reset
  | fork

inductive Reply where
  | item (item? : Option Item)
  | items (items : List Item)
  | none

/-- A lexer moves on with each item and back to the beginning with a reset. For a fork, it is a copy
of the lexer that is drained. -/
def machine : Machine Lexer Request Reply where
  next
    | l, .next =>
      match l.next? with
      | none => l
      | some (_, l') => l'
    | l, .reset => l.reset
    | l, .fork => l
  reply
    | l, .next => .item (l.next?.map Prod.fst)
    | _, .reset => .none
    | l, .fork => .items l.drain.1

/-- The number of items asked for since the last reset, if `k` were asked for before a request. -/
def askedBehind (k : Nat) : Request → Nat
  | .next => k + 1
  | .reset => 0
  | .fork => k

def asked (history : List Request) : Nat := history.foldl askedBehind 0

/-- The items of a source: its tokens with the end marker behind them, or the words of the text in
front of its first foreign character, with the error behind them. -/
inductive Stream (source : String) : List Item → Prop
  | accepted {ts : List Token} (cut : tokenize source = .ok ts)
      (ended : ∃ words, ts = words ++ [.endMarker source.utf8ByteSize] ∧
        ∀ t ∈ words, t.kind ≠ .eof) :
      Stream source (ts.map .ok)
  | rejected {words : List Token} {e : LexError} {before after : List Char}
      (failed : tokenize source = .error e) (stops : FirstForeign source e before after)
      (cut : tokenize (String.ofList before) = .ok (words ++ [.endMarker (utf8Len before)]))
      (inside : ∀ t ∈ words, t.kind ≠ .eof ∧ t.span.stop ≤ e.position.start) :
      Stream source (words.map .ok ++ [.error e])

theorem stream_items (source : String) : Stream source (ofSource source).items := by
  rcases all_known_or_firstForeign source with known | ⟨e, before, after, stops⟩
  · obtain ⟨ts, cut⟩ := tokenize_of_known known
    rw [items_of_laid (laid_of_tokenize cut) rfl rfl rfl]
    exact .accepted cut (tiling_of_tokenize cut).ended
  · obtain ⟨words, laid, yields⟩ := stops.exists_words
    have cut : tokenize (String.ofList before) = .ok (words ++ [.endMarker (utf8Len before)]) := by
      rw [tokenize_eq_ok_iff_laid, String.toList_ofList]
      exact laid
    have inside := (tiling_of_tokenize cut).of_concat.2
    rw [String.utf8ByteSize_ofList, ← stops.first] at inside
    rw [yields]
    exact .rejected stops.tokenize_eq stops cut inside

theorem length_items_le_pending {l : Lexer} : l.items.length ≤ l.pending := by
  cases step : l.next? with
  | none =>
    rw [items_of_next?_none step]
    exact Nat.zero_le _
  | some result =>
    obtain ⟨item, l'⟩ := result
    have shorter := pending_lt_of_next? step
    have later := length_items_le_pending (l := l')
    rw [items_of_next?_some step, List.length_cons]
    omega
termination_by l.pending

theorem length_le_utf8Len (cs : List Char) : cs.length ≤ utf8Len cs := by
  induction cs with
  | nil => exact Nat.le_refl _
  | cons c cs ih =>
    have := c.utf8Size_pos
    rw [List.length_cons, String.utf8Len_cons]
    omega

/-- There is an item for each character at most, and the end marker. -/
theorem length_items_ofSource_le (source : String) :
    (ofSource source).items.length ≤ source.utf8ByteSize + 1 := by
  have bound := length_items_le_pending (l := ofSource source)
  have start : (ofSource source).pending = source.toList.length + 1 := rfl
  have size := length_le_utf8Len source.toList
  rw [String.utf8Len_toList] at size
  omega

theorem source_of_next? {l l' : Lexer} {item : Item} (step : l.next? = some (item, l')) :
    l'.source = l.source := by
  cases advance_of_next? step with
  | marker => rfl
  | foreign => rfl
  | word => rfl

/-- The next item is the first of those still to come. -/
theorem item_eq_head? (l : Lexer) : l.next?.map Prod.fst = l.items.head? := by
  cases step : l.next? with
  | none =>
    rw [items_of_next?_none step]
    rfl
  | some result =>
    rw [items_of_next?_some step]
    rfl

theorem next_of_none {l : Lexer} (exhausted : l.next? = none) : machine.next l .next = l := by
  simp only [machine, exhausted]

theorem next_of_some {l l' : Lexer} {item : Item} (step : l.next? = some (item, l')) :
    machine.next l .next = l' := by
  simp only [machine, step]

/-- The lexer stands behind the first `k` items of a source. -/
structure At (source : String) (k : Nat) (l : Lexer) : Prop where
  source_eq : l.source = source
  items_eq : l.items = (ofSource source).items.drop k

namespace At

variable {source : String} {k : Nat} {l : Lexer}

theorem start (source : String) : At source 0 (ofSource source) := ⟨rfl, rfl⟩

/-- A request moves a lexer as far as it counts. -/
theorem step (here : At source k l) (request : Request) :
    At source (askedBehind k request) (machine.next l request) := by
  obtain ⟨same, remaining⟩ := here
  cases request with
  | reset => exact ⟨same, by rw [← same]; rfl⟩
  | fork => exact ⟨same, remaining⟩
  | next =>
    have behind : (ofSource source).items.drop (k + 1) = l.items.tail := by
      rw [remaining, List.tail_drop]
    cases more : l.next? with
    | none =>
      -- The stream is exhausted and stays so: nothing is left to drop.
      rw [next_of_none more]
      refine ⟨same, ?_⟩
      rw [askedBehind, behind, items_of_next?_none more]
      rfl
    | some result =>
      rw [next_of_some more]
      refine ⟨(source_of_next? more).trans same, ?_⟩
      rw [askedBehind, behind, items_of_next?_some more]
      rfl

theorem run (here : At source k l) (history : List Request) :
    At source (history.foldl askedBehind k) (machine.after l history) := by
  induction history generalizing k l with
  | nil => exact here
  | cons request later ih => exact ih (here.step request)

end At

/-- Behind any history, what is left of the stream is known. -/
theorem at_after (source : String) (history : List Request) :
    At source (asked history) (machine.after (ofSource source) history) :=
  (At.start source).run history

/-- A source has one finite stream. Whatever is asked of a lexer, it answers with the item of the
stream that is as far behind the beginning as items were asked for since the last reset, or with none
if the stream is not that long. A fork yields all that follows there, and has no effect on what comes
later. -/
theorem reply_of_stream (source : String) :
    ∃ stream, Stream source stream ∧ stream.length ≤ source.utf8ByteSize + 1 ∧
      ∀ before later,
        (machine.replies (ofSource source) (before ++ .next :: later))[before.length]? =
            some (.item stream[asked before]?) ∧
          (machine.replies (ofSource source) (before ++ .fork :: later))[before.length]? =
            some (.items (stream.drop (asked before))) ∧
          machine.after (ofSource source) (before ++ .fork :: later) =
            machine.after (ofSource source) (before ++ later) := by
  refine ⟨(ofSource source).items, stream_items source, length_items_ofSource_le source, ?_⟩
  intro before later
  have remaining := (at_after source before).items_eq
  refine ⟨?_, ?_, machine.after_of_idle (fun _ => rfl) _ before later⟩
  · have reply : machine.reply (machine.after (ofSource source) before) .next =
        .item (machine.after (ofSource source) before).items.head? :=
      congrArg Reply.item (item_eq_head? _)
    rw [Machine.getElem?_replies, reply, remaining, List.head?_drop]
  · rw [Machine.getElem?_replies]
    exact congrArg (fun items => some (Reply.items items)) remaining

end Lexer

end Calculator
