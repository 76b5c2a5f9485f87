import Calculator.Proofs.Acceptance
import Calculator.Proofs.Lexing

set_option autoImplicit false

namespace Calculator

/-- A fault is found no later than at the first end marker. -/
theorem Kept.no_eof {fault : Fault} {front : List Token} {t? : Option Tree}
    (kept : Kept fault front t?) : ∀ t ∈ front, t.kind ≠ .eof := by
  cases kept with
  | all known read => exact read.no_eof
  | @dropped before parens op _ _ ext opens read =>
    intro u member
    rcases List.mem_append.mp member with inside | behind
    · exact read.no_eof u inside
    · rcases List.mem_cons.mp behind with rfl | paren
      · intro marker
        rw [marker, extends_expr] at ext
        cases ext
      · rw [opens u paren]
        decide
  | nothing opens =>
    intro u member
    rw [opens u member]
    decide

/-- Nothing in front of a fault starts behind it. -/
theorem OrderedToEnd.le_fault {front stop : List Token} (ordered : OrderedToEnd (front ++ stop))
    (words : ∀ t ∈ front, t.kind ≠ .eof) :
    ∃ s later, stop = s :: later ∧ ∀ t ∈ front, t.span.start ≤ s.span.start := by
  obtain ⟨front', marker, back, shape, _, isMarker, rising⟩ := ordered
  rcases List.append_eq_append_iff.mp shape with ⟨between, rfl, rfl⟩ | ⟨between, rfl, back'⟩
  · rw [List.append_assoc] at rising
    have across := (List.pairwise_append.mp rising).2.2
    cases between with
    | nil => exact ⟨marker, back, rfl, fun t member => across t member marker (by simp)⟩
    | cons s between =>
      exact ⟨s, between ++ marker :: back, rfl, fun t member => across t member s (by simp)⟩
  · cases between with
    | nil =>
      refine ⟨marker, back, back'.symm, ?_⟩
      intro t member
      rw [List.append_nil] at member
      exact (List.pairwise_append.mp rising).2.2 t member marker (by simp)
    | cons t between =>
      obtain ⟨rfl, _⟩ := List.cons_eq_cons.mp back'
      exact (words marker (by simp) isMarker).elim

/-- All that is reported after the fault is dropped. -/
theorem Echoes.dropped {front stop : List Token} {fault : Fault} {ds : Diagnostics}
    (echoes : Echoes (front ++ stop) stop [.ofRest fault stop] ds)
    (ordered : OrderedToEnd (front ++ stop)) (words : ∀ t ∈ front, t.kind ≠ .eof) :
    ds = [.ofRest fault stop] := by
  obtain ⟨s, later, rfl, bounded⟩ := ordered.le_fault words
  apply echoes.eq_singleton
  rintro rest fault' ⟨before, split⟩ ⟨between, rfl⟩
  cases between with
  | nil => exact Nat.le_refl _
  | cons t between =>
    apply bounded t
    have same : before ++ t :: between = front := by
      apply (List.append_left_inj (s :: later)).mp
      rw [← split, List.append_assoc, List.cons_append]
    rw [← same]
    simp

/-- Tokens of a source, and any tokens that start in order up to their first end marker, have one
diagnostic at most. Where there is one, all that the rules report lies at or before it: had it been
known before they start, they would add nothing to it. -/
theorem reports_once (ts : List Token)
    (ordered : (∃ source, tokenize source = .ok ts) ∨ OrderedToEnd ts) :
    (parse ts).diagnostics.length ≤ 1 ∧
      ∀ d, (parse ts).strict = .error d → (parse ts).diagnostics = [d] ∧
        (Grammar.expr (ts.countP (·.kind = .lparen)) ts [d]).2 = [d] := by
  have rising : OrderedToEnd ts := by
    rcases ordered with ⟨source, accepted⟩ | rising
    · exact orderedToEnd_of_tokenize accepted
    · exact rising
  have parsed := parsing ts
  generalize parse ts = o at parsed
  cases parsed with
  | accepted d shape ended tree clean =>
    refine ⟨by rw [clean]; exact Nat.zero_le 1, ?_⟩
    intro d failed
    have first := Outcome.strict_eq_error_iff.mp failed
    rw [clean] at first
    cases first
  | @rejected front stop fault shape verdict kept echoes =>
    subst shape
    have single := echoes.dropped rising kept.no_eof
    refine ⟨by rw [single]; exact Nat.le_refl 1, ?_⟩
    intro d failed
    have first := Outcome.strict_eq_error_iff.mp failed
    rw [single] at first
    cases first
    refine ⟨single, ?_⟩
    have reading := Grammar.expr_reads _ (front ++ stop) [.ofRest fault stop] (Nat.lt_succ_self _)
    rcases reading.diagnosed with silent | ⟨fault', stop', verdict', echoes'⟩
    · exact silent
    · rw [verdict] at verdict'
      cases verdict'
      rw [Diagnostics.report_singleton_of_le (Nat.le_refl _)] at echoes'
      exact echoes'.dropped rising kept.no_eof

/-- The tokens of `((1+x*`. Its missing operand is reported again by every rule around it. -/
def unfinished : List Token :=
  [⟨.lparen, "(", ⟨0, 1⟩⟩, ⟨.lparen, "(", ⟨1, 2⟩⟩, ⟨.number, "1", ⟨2, 3⟩⟩, ⟨.plus, "+", ⟨3, 4⟩⟩,
    ⟨.identifier, "x", ⟨4, 5⟩⟩, ⟨.star, "*", ⟨5, 6⟩⟩, .endMarker 6]

theorem reports_once_unfinished :
    OrderedToEnd unfinished ∧ (parse unfinished).diagnostics = [⟨.missingOperand, "", ⟨6, 6⟩⟩] := by
  have ordered : OrderedToEnd unfinished :=
    ⟨unfinished.dropLast, .endMarker 6, [], rfl, by decide, rfl, by decide⟩
  have verdict : scan true 0 unfinished = .stops .missingOperand [.endMarker 6] := by decide
  have once := reports_once unfinished (.inr ordered)
  exact ⟨ordered, (once.2 _ (strict_of_stops verdict)).1⟩

end Calculator
