import Calculator.Proofs.Unclosed

set_option autoImplicit false

namespace Calculator

namespace Diagnostics

theorem head?_report {ds : Diagnostics} {first : Diagnostic} (known : ds.head? = some first)
    (d : Diagnostic) : (ds.report d).head? = some first := by
  unfold report
  split
  · rename_i empty
    rw [List.getLast?_eq_none_iff.mp empty] at known
    cases known
  · split
    · exact known
    · rw [List.head?_append, known, Option.some_or]

theorem report_singleton_of_le {first d : Diagnostic}
    (behind : d.position.start ≤ first.position.start) : report [first] d = [first] := by
  simp [report, behind]

end Diagnostics

/-- What becomes of `ds` by further reports, each at tokens between `blocked` and `stop`. -/
inductive Echoes (blocked stop : List Token) (ds : Diagnostics) : Diagnostics → Prop
  | none : Echoes blocked stop ds ds
  | report {ds' : Diagnostics} (earlier : Echoes blocked stop ds ds') (fault : Fault)
      {rest : List Token} (front : rest <:+ blocked) (behind : stop <:+ rest) :
      Echoes blocked stop ds (ds'.report (.ofRest fault rest))

namespace Echoes

variable {blocked stop : List Token} {ds ds' ds'' : Diagnostics}

theorem trans (first : Echoes blocked stop ds ds') (second : Echoes blocked stop ds' ds'') :
    Echoes blocked stop ds ds'' := by
  induction second with
  | none => exact first
  | report _ fault front behind ih => exact ih.report fault front behind

theorem mono {longer : List Token} (front : blocked <:+ longer)
    (echoes : Echoes blocked stop ds ds') : Echoes longer stop ds ds' := by
  induction echoes with
  | none => exact .none
  | report _ fault inside behind ih => exact ih.report fault (inside.trans front) behind

theorem head?_eq {first : Diagnostic} (echoes : Echoes blocked stop ds ds')
    (known : ds.head? = some first) : ds'.head? = some first := by
  induction echoes with
  | none => exact known
  | report _ fault front behind ih => exact Diagnostics.head?_report ih _

/-- Reports that never lie behind the only diagnostic are all dropped. -/
theorem eq_singleton {first : Diagnostic} (echoes : Echoes blocked stop [first] ds')
    (bounded : ∀ rest fault, rest <:+ blocked → stop <:+ rest →
      (Diagnostic.ofRest fault rest).position.start ≤ first.position.start) : ds' = [first] := by
  induction echoes with
  | none => rfl
  | report _ fault front behind ih =>
    rw [ih]
    exact Diagnostics.report_singleton_of_le (bounded _ fault front behind)

end Echoes

/-- Tokens up to a fault at `stop` that no rule reads past, with `opened` groups of the rules still
open: an operator whose operand is missing at `stop`, or `stop` itself where a `)` is missing. -/
inductive Blocked (stop : List Token) : Nat → Fault → List Token → Prop
  | operand {opened : Nat} {op : Token} {parens : List Token} (ext : Extends .expr op.kind)
      (opens : ∀ t ∈ parens, t.kind = .lparen) (absent : NoOperand stop) :
      Blocked stop opened .missingOperand (op :: (parens ++ stop))
  | paren {opened : Nat} (ends : Ends .expr stop) (absent : NoClose stop) :
      Blocked stop (opened + 1) .missingParen stop

namespace Blocked

variable {stop blocked : List Token} {opened : Nat} {fault : Fault}

theorem succ (b : Blocked stop opened fault blocked) : Blocked stop (opened + 1) fault blocked := by
  cases b with
  | operand ext opens absent => exact .operand ext opens absent
  | paren ends absent => exact .paren ends absent

theorem suffix (b : Blocked stop opened fault blocked) : stop <:+ blocked := by
  cases b with
  | operand ext opens absent => exact (List.suffix_append _ stop).trans (List.suffix_cons _ _)
  | paren ends absent => exact List.suffix_rfl

theorem noClose (b : Blocked stop opened fault blocked) : NoClose blocked := by
  cases b with
  | operand ext opens absent =>
    intro t first closes
    cases first
    rw [closes, extends_expr] at ext
    cases ext
  | paren ends absent => exact absent

/-- Past what was read, a scan stops where the parse was blocked. -/
theorem scan_eq (b : Blocked stop opened fault blocked) (depth : Nat) :
    scan false (depth + opened) blocked = .stops fault stop := by
  cases b with
  | operand ext opens absent =>
    rw [scan_op ext, scan_dangling opens absent]
  | paren ends absent => exact scan_noClose ends absent _

end Blocked

/-- What a rule for a phrase makes of `ts`, where `ds` was reported before. What it leaves behind a
clean phrase does not begin with an operator that would take a phrase `edge` in. -/
inductive Reading (phrase edge : Phrase) (ts : List Token) (ds : Diagnostics) :
    Option (Parsed ts) × Diagnostics → Prop
  | clean (p : Parsed ts) (d : Derivation phrase) (shape : ts = d.yield ++ p.rest)
      (stands : p.tree = d.tree) (ends : Ends edge p.rest) : Reading phrase edge ts ds (some p, ds)
  | repaired (p : Parsed ts) {read stop : List Token} {opened : Nat} {fault : Fault}
      {ds' : Diagnostics} (shape : ts = read ++ p.rest) (u : Unclosed phrase read opened p.tree)
      (blocked : Blocked stop opened fault p.rest)
      (echoes : Echoes p.rest stop (ds.report (.ofRest fault stop)) ds') :
      Reading phrase edge ts ds (some p, ds')
  | gaveUp {parens stop : List Token} {ds' : Diagnostics} (shape : ts = parens ++ stop)
      (opens : ∀ t ∈ parens, t.kind = .lparen) (absent : NoOperand stop)
      (echoes : Echoes ts stop (ds.report (.ofRest .missingOperand stop)) ds') :
      Reading phrase edge ts ds (none, ds')

/-- The rule reads a phrase, of tokens with fewer than `bound` groups to open. -/
def Reads (phrase : Phrase) (bound : Nat) (rule : Grammar.Rule) : Prop :=
  ∀ ts ds, ts.countP (·.kind = .lparen) < bound → Reading phrase phrase ts ds (rule ts ds)

private theorem begins_of_noOperand {parens parens' stop rest : List Token} {v : Token}
    (opens : ∀ t ∈ parens, t.kind = .lparen) (opens' : ∀ t ∈ parens', t.kind = .lparen)
    (absent : NoOperand stop) (kind : v.kind = .number ∨ v.kind = .identifier)
    (same : parens ++ stop = parens' ++ v :: rest) : False := by
  induction parens generalizing parens' with
  | nil =>
    rw [List.nil_append] at same
    subst same
    cases parens' with
    | nil => exact (absent v rfl).1 kind
    | cons t parens' => exact (absent t rfl).2 (opens' t List.mem_cons_self)
  | cons t parens ih =>
    cases parens' with
    | nil =>
      obtain ⟨rfl, _⟩ := List.cons_eq_cons.mp same
      simp [opens t List.mem_cons_self] at kind
    | cons t' parens' =>
      obtain ⟨rfl, tails⟩ := List.cons_eq_cons.mp same
      exact ih (fun u member => opens u (List.mem_cons_of_mem _ member))
        (fun u member => opens' u (List.mem_cons_of_mem _ member)) tails

namespace Reading

variable {phrase edge upper lower : Phrase} {ds : Diagnostics}

/-- A rule gives up on tokens that begin, behind at most some `(`, with no operand. -/
theorem of_noOperand {parens stop : List Token}
    {result : Option (Parsed (parens ++ stop)) × Diagnostics}
    (reading : Reading phrase edge (parens ++ stop) ds result)
    (opens : ∀ t ∈ parens, t.kind = .lparen) (absent : NoOperand stop) :
    result.1 = none ∧
      Echoes (parens ++ stop) stop (ds.report (.ofRest .missingOperand stop)) result.2 := by
  cases reading with
  | clean p d shape stands ends =>
    obtain ⟨parens', v, rest, begins, opens', kind⟩ := d.yield_begins
    rw [begins, List.append_assoc, List.cons_append] at shape
    exact (begins_of_noOperand opens opens' absent kind shape).elim
  | repaired p shape u blocked echoes =>
    obtain ⟨parens', v, rest, begins, opens', kind⟩ := u.begins
    rw [begins, List.append_assoc, List.cons_append] at shape
    exact (begins_of_noOperand opens opens' absent kind shape).elim
  | @gaveUp parens' stop' ds' shape opens' absent' echoes =>
    have here := scan_dangling opens absent 0
    rw [shape, scan_dangling opens' absent'] at here
    cases here
    exact ⟨rfl, echoes⟩

/-- A rule that reports anything reports the fault at which a scan stops, and after it no more than
its echoes. -/
theorem diagnosed {ts : List Token} {result : Option (Parsed ts) × Diagnostics}
    (reading : Reading phrase edge ts ds result) :
    result.2 = ds ∨ ∃ fault stop, scan true 0 ts = .stops fault stop ∧
      Echoes ts stop (ds.report (.ofRest fault stop)) result.2 := by
  cases reading with
  | clean p d shape stands ends => exact .inl rfl
  | @repaired p read stop _ fault _ shape u blocked echoes =>
    refine .inr ⟨fault, stop, ?_, echoes.mono ⟨read, shape.symm⟩⟩
    rw [shape, u.scan_eq, blocked.scan_eq]
  | @gaveUp parens stop _ shape opens absent echoes =>
    refine .inr ⟨.missingOperand, stop, ?_, echoes⟩
    rw [shape, scan_dangling opens absent]

/-- A phrase on its own is the first of the phrase above it. -/
theorem unit {ts : List Token} {result : Option (Parsed ts) × Diagnostics}
    (level : Above upper lower) (reading : Reading lower edge ts ds result) :
    Reading upper edge ts ds result := by
  cases reading with
  | clean p d shape stands ends => exact .clean p (.unit level d) shape stands ends
  | repaired p shape u blocked echoes => exact .repaired p shape (u.unit level) blocked echoes
  | gaveUp shape opens absent echoes => exact .gaveUp shape opens absent echoes

section Operator

variable {ts operand : List Token} {op : Token} {ds' : Diagnostics}

/-- Behind a phrase and an operator, the right side is read to the whole. -/
theorem binary (level : Above upper lower) (left : Derivation upper) (joins : Joins upper op.kind)
    (shape : ts = left.yield ++ op :: operand) {q : Parsed operand}
    (reading : Reading lower lower operand ds (some q, ds')) (shorter : q.rest.length < ts.length) :
    Reading upper lower ts ds (some ⟨.node left.tree op q.tree, q.rest, shorter⟩, ds') := by
  cases reading with
  | clean _ right inside stands ends =>
    refine .clean _ (.binary level left op joins right) ?_ (by rw [Derivation.tree, stands]) ends
    calc
      ts = left.yield ++ op :: operand := shape
      _ = left.yield ++ op :: (right.yield ++ q.rest) := congrArg (left.yield ++ op :: ·) inside
      _ = _ := by rw [Derivation.yield, List.append_assoc, List.cons_append]
  | @repaired _ read _ _ _ _ inside u blocked echoes =>
    refine .repaired _ ?_ (u.binary level left joins) blocked echoes
    calc
      ts = left.yield ++ op :: operand := shape
      _ = left.yield ++ op :: (read ++ q.rest) := congrArg (left.yield ++ op :: ·) inside
      _ = _ := by rw [List.append_assoc, List.cons_append]

/-- An operator with no operand behind it blocks the phrase in front of it. -/
theorem of_operand_gaveUp (joins : Joins upper op.kind) {p : Parsed ts} (d : Derivation upper)
    (shape : ts = d.yield ++ p.rest) (stands : p.tree = d.tree) (next : p.rest = op :: operand)
    (reading : Reading lower lower operand ds (none, ds')) :
    Reading upper edge ts ds (some p, ds') := by
  cases reading with
  | gaveUp inside opens absent echoes =>
    subst inside
    have u : Unclosed upper d.yield 0 p.tree := stands ▸ Unclosed.closed d
    refine .repaired p shape u ?_ (echoes.mono ?_)
    · rw [next]
      exact .operand joins.extends_expr opens absent
    · rw [next]
      exact List.suffix_cons op _

end Operator

end Reading

end Calculator
