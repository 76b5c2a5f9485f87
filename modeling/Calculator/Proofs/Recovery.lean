import Calculator.Proofs.Acceptance

set_option autoImplicit false

namespace Calculator

def lastOther : List Token → Option Nat
  | [] => none
  | t :: ts =>
    match lastOther ts with
    | some i => some (i + 1)
    | none => if t.kind = .lparen then none else some 0

/-- How many of the tokens in front of a fault are kept: all of them, but for a missing operand only
those in front of the operator that lacks it. -/
def keptLength : Fault → List Token → Option Nat
  | .missingOperand, front => lastOther front
  | _, front => some front.length

theorem lastOther_openings {parens : List Token} (opens : ∀ t ∈ parens, t.kind = .lparen) :
    lastOther parens = none := by
  induction parens with
  | nil => rfl
  | cons t parens ih =>
    have rest := ih fun u member => opens u (List.mem_cons_of_mem t member)
    simp only [lastOther, rest, opens t List.mem_cons_self, ↓reduceIte]

theorem lastOther_append {t : Token} {parens : List Token} (other : t.kind ≠ .lparen)
    (opens : ∀ u ∈ parens, u.kind = .lparen) (front : List Token) :
    lastOther (front ++ t :: parens) = some front.length := by
  induction front with
  | nil =>
    have rest := lastOther_openings opens
    simp only [List.nil_append, lastOther, rest, other, ↓reduceIte, List.length_nil]
  | cons u front ih => simp only [List.cons_append, lastOther, ih, List.length_cons]

theorem keptLength_of_known {fault : Fault} (known : fault ≠ .missingOperand)
    (front : List Token) : keptLength fault front = some front.length := by
  cases fault with
  | missingOperand => exact (known rfl).elim
  | missingParen | leftover => rfl

theorem Extends.ne_lparen {op : Token} (ext : Extends .expr op.kind) : op.kind ≠ .lparen := by
  intro opens
  rw [opens, extends_expr] at ext
  cases ext

/-- Closing the groups of what was read gives tokens that parse to its tree. -/
theorem Unclosed.strict_closed {read : List Token} {opened : Nat} {t : Tree}
    (u : Unclosed .expr read opened t) {closing : List Token}
    (parens : ∀ c ∈ closing, c.kind = .rparen) (count : closing.length = unmatched read) :
    (parse (read ++ closing)).strict = .ok t := by
  obtain ⟨d, yields, stands⟩ := u.closes parens (count.trans u.unmatched_eq)
  have ended : AtEnd [] := fun t first => by cases first
  have whole : d.yield = beforeEnd d.yield := by
    have cut := d.beforeEnd_yield ended
    rw [List.append_nil] at cut
    exact cut.symm
  rw [← yields, ← stands]
  exact strict_of_derivation d whole

/-- The tree that is kept of the front of `ts` up to index `m`. -/
def KeptTree (ts : List Token) (m : Nat) (t : Tree) : Prop :=
  t.leaves = (ts.take m).filter (·.kind.isOperand) ∧
    ∀ closing : List Token, (∀ c ∈ closing, c.kind = .rparen) →
      closing.length = unmatched (ts.take m) → (parse (ts.take m ++ closing)).strict = .ok t

theorem Unclosed.keptTree {read rest : List Token} {opened : Nat} {t : Tree}
    (u : Unclosed .expr read opened t) : KeptTree (read ++ rest) read.length t := by
  unfold KeptTree
  rw [List.take_left]
  exact ⟨u.leaves_eq, fun closing parens count => u.strict_closed parens count⟩

/-- Let a parse fail with its first diagnostic at index `k`, the number of tokens if none is left
there. Let `m` be `k`, or for a missing operand the index of the last token before `k` that is no
`(`, and that is an operator. The tree that is kept is what the tokens before `m` parse to once each
of their unmatched `(` has got its `)`, and its operands are all those before `m`. There is no such
`m` and no tree only where nothing but `(` stands in front of the missing operand. -/
theorem kept_tree (ts : List Token) (d : Diagnostic) (rejected : (parse ts).strict = .error d) :
    ∃ k, k ≤ ts.length ∧ scan true 0 ts = .stops d.fault (ts.drop k) ∧
      d = .ofRest d.fault (ts.drop k) ∧
      match keptLength d.fault (ts.take k) with
      | none => (parse ts).tree = none ∧ ∀ u ∈ ts.take k, u.kind = .lparen
      | some m =>
        (d.fault = .missingOperand → ∃ op, ts[m]? = some op ∧ op.kind.operator?.isSome = true) ∧
          ∃ t, (parse ts).tree = some t ∧ KeptTree ts m t := by
  have first := Outcome.strict_eq_error_iff.mp rejected
  have parsed := parsing ts
  generalize parse ts = o at first parsed
  cases parsed with
  | accepted _ _ _ _ clean =>
    rw [clean] at first
    cases first
  | @rejected front stop fault shape verdict kept echoes =>
    subst shape
    obtain rfl : Diagnostic.ofRest fault stop = d :=
      Option.some.inj ((echoes.head?_eq rfl).symm.trans first)
    refine ⟨front.length, ?_, ?_⟩
    · rw [List.length_append]
      exact Nat.le_add_right _ _
    rw [List.drop_left, List.take_left]
    refine ⟨verdict, rfl, ?_⟩
    generalize o.tree = kept? at kept
    cases kept with
    | @all _ _ _ t known read =>
      simp only [Diagnostic.ofRest, keptLength_of_known known]
      exact ⟨fun missing => (known missing).elim, t, rfl, read.keptTree⟩
    | @dropped before parens op _ t ext opens read =>
      simp only [Diagnostic.ofRest, keptLength, lastOther_append ext.ne_lparen opens]
      refine ⟨fun _ => ⟨op, ?_, (extends_expr_iff_operator op.kind).mp ext⟩, t, rfl, ?_⟩
      · rw [List.append_assoc, List.getElem?_append_right (Nat.le_refl _), Nat.sub_self]
        rfl
      · rw [List.append_assoc]
        exact read.keptTree
    | nothing opens =>
      simp only [Diagnostic.ofRest, keptLength, lastOther_openings opens]
      exact ⟨trivial, opens⟩

/-- The tokens of `(1 + (2 * )` with no end marker. -/
def danglingStar : List Token :=
  [⟨.lparen, "(", ⟨0, 1⟩⟩, ⟨.number, "1", ⟨1, 2⟩⟩, ⟨.plus, "+", ⟨3, 4⟩⟩, ⟨.lparen, "(", ⟨5, 6⟩⟩,
    ⟨.number, "2", ⟨6, 7⟩⟩, ⟨.star, "*", ⟨8, 9⟩⟩, ⟨.rparen, ")", ⟨10, 11⟩⟩]

theorem kept_tree_danglingStar :
    (parse danglingStar).strict = .error ⟨.missingOperand, ")", ⟨10, 11⟩⟩ ∧
      ∃ t, (parse danglingStar).tree = some t ∧ KeptTree danglingStar 5 t := by
  have verdict : scan true 0 danglingStar = .stops .missingOperand (danglingStar.drop 6) := by
    decide
  have rejected := strict_of_stops verdict
  obtain ⟨k, bound, stops, _, kept⟩ := kept_tree danglingStar _ rejected
  rw [verdict] at stops
  obtain rfl : 6 = k := by
    have same := congrArg List.length (Verdict.stops.inj stops).2
    simp only [List.length_drop, danglingStar, List.length_cons, List.length_nil] at same bound
    omega
  exact ⟨rejected, kept.2⟩

end Calculator
