import Calculator.Proofs.Rules

set_option autoImplicit false

namespace Calculator

/-- What is kept of the tokens `front` in front of a fault: all of them, or those in front of the
operator whose operand is missing, or nothing where only `(` stand in front of the operand. -/
inductive Kept : Fault → (front : List Token) → Option Tree → Prop
  | all {fault : Fault} {front : List Token} {opened : Nat} {t : Tree}
      (known : fault ≠ .missingOperand) (read : Unclosed .expr front opened t) :
      Kept fault front (some t)
  | dropped {before parens : List Token} {op : Token} {opened : Nat} {t : Tree}
      (ext : Extends .expr op.kind) (opens : ∀ u ∈ parens, u.kind = .lparen)
      (read : Unclosed .expr before opened t) :
      Kept .missingOperand (before ++ op :: parens) (some t)
  | nothing {front : List Token} (opens : ∀ u ∈ front, u.kind = .lparen) :
      Kept .missingOperand front none

inductive Parsing (ts : List Token) (o : Outcome) : Prop
  | accepted {rest : List Token} (d : Derivation .expr) (shape : ts = d.yield ++ rest)
      (ended : AtEnd rest) (tree : o.tree = some d.tree) (clean : o.diagnostics = [])
  | rejected {front stop : List Token} {fault : Fault} (shape : ts = front ++ stop)
      (verdict : scan true 0 ts = .stops fault stop) (kept : Kept fault front o.tree)
      (echoes : Echoes ts stop [.ofRest fault stop] o.diagnostics)

namespace Grammar

theorem checkEnd_atEnd {rest : List Token} (ended : AtEnd rest) (ds : Diagnostics) :
    checkEnd rest ds = ds := by
  cases rest with
  | nil => rfl
  | cons t rest => simp only [checkEnd, ended t rfl, true_or, ↓reduceIte]

theorem checkEnd_leftover {rest : List Token} (more : ¬ AtEnd rest) :
    checkEnd rest [] = [.ofRest .leftover rest] := by
  obtain ⟨t, rest, rfl, word⟩ := exists_of_not_next more
  simp [checkEnd, word, Diagnostics.report_nil]

theorem checkEnd_reported (rest : List Token) {ds : Diagnostics} (reported : ds ≠ []) :
    checkEnd rest ds = ds := by
  cases rest with
  | nil => rfl
  | cons t rest => simp only [checkEnd, reported, ne_eq, not_false_eq_true, or_true, ↓reduceIte]

end Grammar

theorem Echoes.ne_nil {blocked stop : List Token} {first : Diagnostic} {ds' : Diagnostics}
    (echoes : Echoes blocked stop [first] ds') : ds' ≠ [] := by
  intro empty
  have known := echoes.head?_eq rfl
  rw [empty] at known
  cases known

theorem parse_of_some {ts : List Token} {p : Parsed ts} {ds : Diagnostics}
    (result : Grammar.expr (ts.countP (·.kind = .lparen)) ts [] = (some p, ds)) :
    (parse ts).tree = some p.tree ∧ (parse ts).diagnostics = Grammar.checkEnd p.rest ds := by
  unfold parse
  split
  · rename_i known
    rw [result] at known
    cases known
    exact ⟨rfl, rfl⟩
  · rename_i known
    rw [result] at known
    cases known

theorem parse_of_none {ts : List Token} {ds : Diagnostics}
    (result : Grammar.expr (ts.countP (·.kind = .lparen)) ts [] = (none, ds)) :
    (parse ts).tree = none ∧ (parse ts).diagnostics = ds := by
  unfold parse
  split
  · rename_i known
    rw [result] at known
    cases known
  · rename_i known
    rw [result] at known
    cases known
    exact ⟨rfl, rfl⟩

theorem Blocked.kept {read stop blocked : List Token} {opened : Nat} {fault : Fault} {t : Tree}
    (b : Blocked stop opened fault blocked) (u : Unclosed .expr read opened t) :
    ∃ front, read ++ blocked = front ++ stop ∧ Kept fault front (some t) := by
  cases b with
  | @operand _ op parens ext opens absent =>
    refine ⟨read ++ op :: parens, ?_, .dropped ext opens u⟩
    rw [List.append_assoc, List.cons_append]
  | paren ends absent => exact ⟨read, rfl, .all (by decide) u⟩

theorem parsing (ts : List Token) : Parsing ts (parse ts) := by
  have reading := Grammar.expr_reads _ ts [] (Nat.lt_succ_self (ts.countP (·.kind = .lparen)))
  generalize result : Grammar.expr (ts.countP (·.kind = .lparen)) ts [] = outcome at reading
  cases reading with
  | clean p d shape stands ends =>
    obtain ⟨tree, diagnostics⟩ := parse_of_some result
    rw [stands] at tree
    by_cases ended : AtEnd p.rest
    · rw [Grammar.checkEnd_atEnd ended] at diagnostics
      exact .accepted d shape ended tree diagnostics
    · rw [Grammar.checkEnd_leftover ended] at diagnostics
      have verdict : scan true 0 ts = .stops .leftover p.rest :=
        calc
          scan true 0 ts = scan true 0 (d.yield ++ p.rest) := congrArg (scan true 0) shape
          _ = .stops .leftover p.rest := by rw [d.scan_yield, scan_leftover ends ended]
      exact .rejected shape verdict (tree ▸ .all (by decide) (.closed d)) (diagnostics ▸ .none)
  | @repaired p read stop _ fault _ shape u blocked echoes =>
    obtain ⟨tree, diagnostics⟩ := parse_of_some result
    rw [Diagnostics.report_nil] at echoes
    rw [Grammar.checkEnd_reported p.rest echoes.ne_nil] at diagnostics
    obtain ⟨front, split, kept⟩ := blocked.kept u
    have verdict : scan true 0 ts = .stops fault stop := by
      rw [shape, u.scan_eq, blocked.scan_eq]
    exact .rejected (shape.trans split) verdict (tree ▸ kept)
      (diagnostics ▸ echoes.mono ⟨read, shape.symm⟩)
  | @gaveUp parens stop _ shape opens absent echoes =>
    obtain ⟨tree, diagnostics⟩ := parse_of_none result
    rw [Diagnostics.report_nil] at echoes
    have verdict : scan true 0 ts = .stops .missingOperand stop := by
      rw [shape, scan_dangling opens absent]
    exact .rejected shape verdict (tree ▸ .nothing opens) (diagnostics ▸ echoes)

end Calculator
