import Calculator.Proofs.Scan

set_option autoImplicit false

namespace Calculator

/-- `Unclosed phrase read opened t`: the tokens `read` are a phrase that stands for `t`, but for the
`)` of its last `opened` groups. -/
inductive Unclosed : Phrase → List Token → Nat → Tree → Prop
  | closed {phrase : Phrase} (d : Derivation phrase) : Unclosed phrase d.yield 0 d.tree
  | group {opening : Token} {read : List Token} {opened : Nat} {t : Tree}
      (opens : opening.kind = .lparen) (inner : Unclosed .expr read opened t) :
      Unclosed .factor (opening :: read) (opened + 1) t
  | unit {upper lower : Phrase} {read : List Token} {opened : Nat} {t : Tree}
      (level : Above upper lower) (only : Unclosed lower read opened t) :
      Unclosed upper read opened t
  | binary {upper lower : Phrase} {read : List Token} {opened : Nat} {t : Tree}
      (level : Above upper lower) (left : Derivation upper) {op : Token}
      (joins : Joins upper op.kind) (right : Unclosed lower read opened t) :
      Unclosed upper (left.yield ++ op :: read) opened (.node left.tree op t)

/-- How many groups are open behind a token, with `depth` of them open in front of it. A `)` with no
group to close changes nothing. -/
def openBehind (depth : Nat) (t : Token) : Nat :=
  match t.kind with
  | .lparen => depth + 1
  | .rparen => depth - 1
  | _ => depth

def unmatched (ts : List Token) : Nat := ts.foldl openBehind 0

theorem openBehind_other {t : Token} (opening : t.kind ≠ .lparen) (closing : t.kind ≠ .rparen)
    (depth : Nat) : openBehind depth t = depth := by
  unfold openBehind
  split <;> simp_all

theorem Joins.openBehind {phrase : Phrase} {op : Token} (joins : Joins phrase op.kind)
    (depth : Nat) : openBehind depth op = depth := by
  apply openBehind_other
  · intro kind
    rw [kind] at joins
    cases joins
  · intro kind
    rw [kind] at joins
    cases joins

theorem Derivation.foldl_openBehind {phrase : Phrase} (d : Derivation phrase) (depth : Nat) :
    d.yield.foldl openBehind depth = depth := by
  induction d generalizing depth with
  | operand t kind =>
    apply openBehind_other
    · intro opens
      simp [opens] at kind
    · exact operand_ne_rparen kind
  | group opening opens inner closing closes ih =>
    simp [yield, ih, openBehind, opens, closes]
  | unit level d ih => exact ih depth
  | binary level left op joins right ihLeft ihRight =>
    rw [yield, List.foldl_append, ihLeft, List.foldl_cons, joins.openBehind, ihRight]

namespace Unclosed

variable {phrase : Phrase} {read : List Token} {opened : Nat} {t : Tree}

theorem closes (u : Unclosed phrase read opened t) {closing : List Token}
    (parens : ∀ c ∈ closing, c.kind = .rparen) (count : closing.length = opened) :
    ∃ d : Derivation phrase, d.yield = read ++ closing ∧ d.tree = t := by
  induction u generalizing closing with
  | closed d =>
    rw [List.eq_nil_of_length_eq_zero count, List.append_nil]
    exact ⟨d, rfl, rfl⟩
  | @group opening read opened t opens inner ih =>
    rcases List.eq_nil_or_concat closing with rfl | ⟨front, last, rfl⟩
    · cases count
    · rw [List.concat_eq_append] at parens count ⊢
      have inside : ∀ c ∈ front, c.kind = .rparen :=
        fun c member => parens c (List.mem_append_left [last] member)
      obtain ⟨d, yields, stands⟩ := ih inside (by simpa using count)
      have final : last.kind = .rparen := parens last (by simp)
      refine ⟨.group opening opens d last final, ?_, stands⟩
      rw [Derivation.yield, yields, List.cons_append, List.append_assoc]
  | unit level only ih =>
    obtain ⟨d, yields, stands⟩ := ih parens count
    exact ⟨.unit level d, yields, stands⟩
  | binary level left joins right ih =>
    obtain ⟨d, yields, stands⟩ := ih parens count
    refine ⟨.binary level left _ joins d, ?_, ?_⟩
    · rw [Derivation.yield, yields, List.append_assoc, List.cons_append]
    · rw [Derivation.tree, stands]

theorem scan_eq (u : Unclosed phrase read opened t) (depth : Nat) (rest : List Token) :
    scan true depth (read ++ rest) = scan false (depth + opened) rest := by
  induction u generalizing depth rest with
  | closed d => exact d.scan_yield depth rest
  | group opens inner ih =>
    rw [List.cons_append, scan_opening opens, ih]
    congr 1
    omega
  | unit level only ih => exact ih depth rest
  | binary level left joins right ih =>
    rw [List.append_assoc, left.scan_yield, List.cons_append, scan_op joins.extends_expr, ih]

theorem unmatched_eq (u : Unclosed phrase read opened t) : unmatched read = opened := by
  have general : ∀ depth, read.foldl openBehind depth = depth + opened := by
    induction u with
    | closed d => exact d.foldl_openBehind
    | group opens inner ih =>
      intro depth
      simp only [List.foldl_cons, openBehind, opens, ih]
      omega
    | unit level only ih => exact ih
    | binary level left joins right ih =>
      intro depth
      rw [List.foldl_append, left.foldl_openBehind, List.foldl_cons, joins.openBehind, ih]
  exact (general 0).trans (Nat.zero_add opened)

theorem begins (u : Unclosed phrase read opened t) :
    ∃ parens v rest, read = parens ++ v :: rest ∧ (∀ w ∈ parens, w.kind = .lparen) ∧
      (v.kind = .number ∨ v.kind = .identifier) := by
  induction u with
  | closed d => exact d.yield_begins
  | @group opening _ _ _ opens inner ih =>
    obtain ⟨parens, v, rest, rfl, opened, kind⟩ := ih
    exact ⟨opening :: parens, v, rest, rfl, List.forall_mem_cons.mpr ⟨opens, opened⟩, kind⟩
  | unit level only ih => exact ih
  | @binary _ _ right _ _ level left op joins _ _ =>
    obtain ⟨parens, v, rest, shape, opened, kind⟩ := left.yield_begins
    refine ⟨parens, v, rest ++ op :: right, ?_, opened, kind⟩
    rw [shape, List.append_assoc, List.cons_append]

/-- A derivation that starts with the tokens read, to carry over what derivations satisfy. -/
theorem exists_derivation (u : Unclosed phrase read opened t) :
    ∃ (d : Derivation phrase) (closing : List Token), d.yield = read ++ closing ∧ d.tree = t ∧
      ∀ c ∈ closing, c.kind = .rparen := by
  have parens : ∀ c ∈ List.replicate opened (Token.mk .rparen ")" default), c.kind = .rparen := by
    intro c member
    rw [List.eq_of_mem_replicate member]
  obtain ⟨d, yields, stands⟩ := u.closes parens List.length_replicate
  exact ⟨d, _, yields, stands, parens⟩

theorem no_eof (u : Unclosed phrase read opened t) : ∀ v ∈ read, v.kind ≠ .eof := by
  intro v member
  obtain ⟨d, closing, yields, _⟩ := u.exists_derivation
  apply d.no_eof_yield v
  rw [yields]
  exact List.mem_append_left closing member

theorem leaves_eq (u : Unclosed phrase read opened t) :
    t.leaves = read.filter (·.kind.isOperand) := by
  obtain ⟨d, closing, yields, stands, parens⟩ := u.exists_derivation
  have none : closing.filter (·.kind.isOperand) = [] := by
    rw [List.filter_eq_nil_iff]
    intro c member
    simp [parens c member, Kind.isOperand]
  rw [← stands, d.leaves_tree, yields, List.filter_append, none, List.append_nil]

end Unclosed

end Calculator
