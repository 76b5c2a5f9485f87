import Calculator.Proofs.Derivation

set_option autoImplicit false

namespace Calculator

/-- What a scan finds: an expression up to the end, or a fault at the first of the tokens left. -/
inductive Verdict where
  | accepts
  | stops (fault : Fault) (rest : List Token)
deriving DecidableEq

/-- Reads on, with `depth` groups open. The end of the tokens counts as an end marker. -/
def scan : (expecting : Bool) → (depth : Nat) → List Token → Verdict
  | true, _, [] => .stops .missingOperand []
  | true, depth, t :: ts =>
    match t.kind with
    | .number | .identifier => scan false depth ts
    | .lparen => scan true (depth + 1) ts
    | _ => .stops .missingOperand (t :: ts)
  | false, depth, [] => if depth = 0 then .accepts else .stops .missingParen []
  | false, depth, t :: ts =>
    if t.kind.operator?.isSome then scan true depth ts
    else if 0 < depth then
      if t.kind = .rparen then scan false (depth - 1) ts else .stops .missingParen (t :: ts)
    else if t.kind = .eof then .accepts
    else .stops .leftover (t :: ts)

/-- The first of the tokens satisfies `P`, unless none is left. -/
def Next (P : Token → Prop) (ts : List Token) : Prop := ∀ t, ts.head? = some t → P t

theorem exists_of_not_next {P : Token → Prop} {ts : List Token} (fails : ¬ Next P ts) :
    ∃ t rest, ts = t :: rest ∧ ¬ P t := by
  cases ts with
  | nil => exact (fails fun t first => by cases first).elim
  | cons t rest =>
    refine ⟨t, rest, rfl, ?_⟩
    intro holds
    apply fails
    intro u first
    cases first
    exact holds

abbrev NoOperand : List Token → Prop :=
  Next fun t => ¬ (t.kind = .number ∨ t.kind = .identifier) ∧ t.kind ≠ .lparen

/-- A phrase in front of these tokens is not taken in by an operator behind it. -/
abbrev Ends (phrase : Phrase) : List Token → Prop := Next fun t => ¬ Extends phrase t.kind

abbrev NoClose : List Token → Prop := Next fun t => t.kind ≠ .rparen

abbrev AtEnd : List Token → Prop := Next fun t => t.kind = .eof

theorem extends_expr_iff_operator (k : Kind) : Extends .expr k ↔ k.operator?.isSome = true := by
  rw [extends_expr, Kind.operator?_isSome]

theorem scan_operand {t : Token} (kind : t.kind = .number ∨ t.kind = .identifier) (depth : Nat)
    (ts : List Token) : scan true depth (t :: ts) = scan false depth ts := by
  rcases kind with kind | kind <;> simp only [scan, kind]

theorem scan_opening {t : Token} (opens : t.kind = .lparen) (depth : Nat) (ts : List Token) :
    scan true depth (t :: ts) = scan true (depth + 1) ts := by
  simp only [scan, opens]

theorem scan_closing {t : Token} (closes : t.kind = .rparen) (depth : Nat) (ts : List Token) :
    scan false (depth + 1) (t :: ts) = scan false depth ts := by
  simp [scan, closes, Kind.operator?]

theorem scan_op {op : Token} (ext : Extends .expr op.kind) (depth : Nat) (ts : List Token) :
    scan false depth (op :: ts) = scan true depth ts := by
  simp only [scan, (extends_expr_iff_operator op.kind).mp ext, ↓reduceIte]

theorem scan_openings {parens : List Token} (opens : ∀ t ∈ parens, t.kind = .lparen)
    (depth : Nat) (ts : List Token) :
    scan true depth (parens ++ ts) = scan true (depth + parens.length) ts := by
  induction parens generalizing depth with
  | nil => rfl
  | cons t parens ih =>
    rw [List.cons_append, scan_opening (opens t List.mem_cons_self),
      ih (fun u member => opens u (List.mem_cons_of_mem _ member)), List.length_cons]
    congr 1
    omega

theorem scan_noOperand {ts : List Token} (absent : NoOperand ts) (depth : Nat) :
    scan true depth ts = .stops .missingOperand ts := by
  cases ts with
  | nil => rfl
  | cons t ts =>
    obtain ⟨operand, opening⟩ := absent t rfl
    cases kind : t.kind <;> simp_all [scan]

/-- A scan passes over the `(` in front of a missing operand. -/
theorem scan_dangling {parens stop : List Token} (opens : ∀ t ∈ parens, t.kind = .lparen)
    (absent : NoOperand stop) (depth : Nat) :
    scan true depth (parens ++ stop) = .stops .missingOperand stop := by
  rw [scan_openings opens, scan_noOperand absent]

theorem scan_noClose {ts : List Token} (ends : Ends .expr ts) (absent : NoClose ts) (depth : Nat) :
    scan false (depth + 1) ts = .stops .missingParen ts := by
  cases ts with
  | nil => rfl
  | cons t ts =>
    have operator := mt (extends_expr_iff_operator t.kind).mpr (ends t rfl)
    simp only [scan, operator, Nat.succ_pos, absent t rfl, ↓reduceIte, Bool.false_eq_true]

theorem scan_atEnd {ts : List Token} (ended : AtEnd ts) : scan false 0 ts = .accepts := by
  cases ts with
  | nil => rfl
  | cons t ts => simp [scan, ended t rfl, Kind.operator?]

theorem scan_leftover {ts : List Token} (ends : Ends .expr ts) (more : ¬ AtEnd ts) :
    scan false 0 ts = .stops .leftover ts := by
  obtain ⟨t, rest, rfl, word⟩ := exists_of_not_next more
  have operator := mt (extends_expr_iff_operator t.kind).mpr (ends t rfl)
  simp only [scan, operator, word, Nat.lt_irrefl, ↓reduceIte, Bool.false_eq_true]

theorem Derivation.scan_yield {phrase : Phrase} (d : Derivation phrase) (depth : Nat)
    (rest : List Token) : scan true depth (d.yield ++ rest) = scan false depth rest := by
  induction d generalizing depth rest with
  | operand t kind => exact scan_operand kind depth rest
  | group opening opens inner closing closes ih =>
    rw [yield, List.cons_append, scan_opening opens, List.append_assoc, ih]
    exact scan_closing closes depth rest
  | unit level d ih => exact ih depth rest
  | binary level left op joins right ihLeft ihRight =>
    rw [yield, List.append_assoc, ihLeft, List.cons_append, scan_op joins.extends_expr, ihRight]

end Calculator
