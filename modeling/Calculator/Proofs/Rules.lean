import Calculator.Proofs.Reading

set_option autoImplicit false

namespace Calculator

namespace Grammar

variable {ts : List Token} {joins : Kind → Bool} {unit : Rule}

theorem extend_of_outside {p : Parsed ts} (ds : Diagnostics)
    (outside : ∀ t, p.rest.head? = some t → joins t.kind = false) :
    extend joins unit p ds = (p, ds) := by
  rw [extend]
  split
  · rfl
  · rename_i op operand shape
    simp [outside op (by rw [shape]; rfl)]

theorem extend_of_none {p : Parsed ts} {op : Token} {operand : List Token} {ds ds' : Diagnostics}
    (shape : p.rest = op :: operand) (joined : joins op.kind = true)
    (failed : unit operand ds = (none, ds')) : extend joins unit p ds = (p, ds') := by
  obtain ⟨tree, rest, shorter⟩ := p
  subst shape
  rw [extend]
  simp [joined, failed]

theorem extend_of_some {p : Parsed ts} {op : Token} {operand : List Token} {ds ds' : Diagnostics}
    {q : Parsed operand} (shape : p.rest = op :: operand) (joined : joins op.kind = true)
    (found : unit operand ds = (some q, ds')) (shorter : q.rest.length < ts.length) :
    extend joins unit p ds = extend joins unit ⟨.node p.tree op q.tree, q.rest, shorter⟩ ds' := by
  obtain ⟨tree, rest, _⟩ := p
  subst shape
  rw [extend]
  simp [joined, found]

section Loop

variable {upper lower : Phrase} {bound : Nat} (level : Above upper lower)
  (agree : ∀ k, joins k = true ↔ Joins upper k) (reads : Reads lower bound unit)

include agree in
theorem extend_of_ends {p : Parsed ts} (ds : Diagnostics) (ends : Ends upper p.rest) :
    extend joins unit p ds = (p, ds) := by
  apply extend_of_outside ds
  intro t first
  rw [← Bool.not_eq_true, agree]
  exact fun joined => ends t first (.own joined)

include agree reads in
/-- Where a parse is blocked, a loop adds nothing. A missing operand is tried once more, and fails
once more. -/
theorem extend_blocked {p : Parsed ts} {stop : List Token} {opened : Nat} {fault : Fault}
    (few : p.rest.countP (·.kind = .lparen) < bound) (blocked : Blocked stop opened fault p.rest)
    (ds : Diagnostics) :
    ∃ ds', extend joins unit p ds = (p, ds') ∧ Echoes p.rest stop ds ds' := by
  generalize shape : p.rest = rest at few blocked
  cases blocked with
  | paren ends absent =>
    refine ⟨ds, extend_of_outside ds ?_, .none⟩
    intro t first
    rw [shape] at first
    rw [← Bool.not_eq_true, agree]
    exact fun joined => ends t first joined.extends_expr
  | @operand _ op parens ext opens absent =>
    by_cases joined : joins op.kind = true
    · have fewer : (parens ++ stop).countP (·.kind = .lparen) < bound := by
        rw [List.countP_cons] at few
        omega
      obtain ⟨failed, echoes⟩ := (reads (parens ++ stop) ds fewer).of_noOperand opens absent
      have inside : stop <:+ op :: (parens ++ stop) :=
        (List.suffix_append parens stop).trans (List.suffix_cons op _)
      refine ⟨_, extend_of_none shape joined (Prod.ext failed rfl), ?_⟩
      exact (Echoes.none.report .missingOperand inside List.suffix_rfl).trans
        (echoes.mono (List.suffix_cons op _))
    · refine ⟨ds, extend_of_outside ds ?_, .none⟩
      intro t first
      rw [shape] at first
      cases first
      exact Bool.not_eq_true _ ▸ joined

include level in
theorem exists_op_of_not_ends {rest : List Token} (ends : Ends lower rest)
    (more : ¬ Ends upper rest) :
    ∃ op operand, rest = op :: operand ∧ Joins upper op.kind := by
  obtain ⟨op, operand, rfl, ext⟩ := exists_of_not_next more
  refine ⟨op, operand, rfl, ?_⟩
  rcases Classical.not_not.mp ext with joined | ⟨level', inner⟩
  · exact joined
  · obtain rfl := level.unique level'
    exact (ends op rfl inner).elim

include level agree reads in
/-- The loop keeps a reading of the phrase, and ends only in front of tokens that the phrase does
not take in. -/
theorem extend_reading {p : Parsed ts} {ds ds' : Diagnostics}
    (few : ts.countP (·.kind = .lparen) < bound)
    (reading : Reading upper lower ts ds (some p, ds')) :
    Reading upper upper ts ds (some (extend joins unit p ds').1, (extend joins unit p ds').2) := by
  cases reading with
  | repaired _ shape u blocked echoes =>
    have fewer : p.rest.countP (·.kind = .lparen) < bound := by
      rw [shape, List.countP_append] at few
      omega
    obtain ⟨ds'', same, later⟩ := extend_blocked agree reads fewer blocked ds'
    rw [same]
    exact .repaired p shape u blocked (echoes.trans later)
  | clean _ d shape stands ends =>
    by_cases done : Ends upper p.rest
    · rw [extend_of_ends agree ds done]
      exact .clean p d shape stands done
    · obtain ⟨op, operand, next, joined⟩ := exists_op_of_not_ends level ends done
      have whole : ts = d.yield ++ op :: operand := next ▸ shape
      have behind : operand <:+ ts := by
        rw [whole]
        exact (List.suffix_cons op operand).trans (List.suffix_append d.yield _)
      have fewer : operand.countP (·.kind = .lparen) < bound :=
        Nat.lt_of_le_of_lt behind.sublist.countP_le few
      have right := reads operand ds fewer
      match result : unit operand ds with
      | (none, ds'') =>
        rw [result] at right
        rw [extend_of_none next ((agree _).mpr joined) result]
        exact .of_operand_gaveUp joined d shape stands next right
      | (some q, ds'') =>
        rw [result] at right
        have shorter : q.rest.length < ts.length := Nat.lt_of_lt_of_le q.rest_lt behind.length_le
        have smaller : q.rest.length < p.rest.length := by
          rw [next]
          exact Nat.lt_succ_of_lt q.rest_lt
        rw [extend_of_some next ((agree _).mpr joined) result shorter, stands]
        exact extend_reading few (.binary level d joined whole right shorter)
termination_by p.rest.length

include level agree reads in
theorem chain_reads : Reads upper bound (chain joins unit) := by
  intro ts ds few
  have first := (reads ts ds few).unit level
  unfold chain
  match result : unit ts ds with
  | (none, ds') =>
    rw [result] at first
    cases first with
    | gaveUp shape opens absent echoes => exact .gaveUp shape opens absent echoes
  | (some p, ds') =>
    rw [result] at first
    exact extend_reading level agree reads few first

end Loop

theorem closeParen_of_rparen {t : Token} (closes : t.kind = .rparen) (ts : List Token)
    (ds : Diagnostics) : closeParen (t :: ts) ds = (ts, ds) := by
  simp only [closeParen, closes, ↓reduceIte]

theorem closeParen_of_noClose {ts : List Token} (absent : NoClose ts) (ds : Diagnostics) :
    closeParen ts ds = (ts, ds.report (.ofRest .missingParen ts)) := by
  cases ts with
  | nil => rfl
  | cons t ts => simp only [closeParen, absent t rfl, ↓reduceIte]

theorem factor_of_noOperand {inner : Rule} {ts : List Token} (absent : NoOperand ts)
    (ds : Diagnostics) : factor inner ts ds = (none, ds.report (.ofRest .missingOperand ts)) := by
  cases ts with
  | nil => rfl
  | cons t ts =>
    obtain ⟨operand, opening⟩ := absent t rfl
    simp only [factor]
    split <;> simp_all

theorem factor_of_operand {inner : Rule} {t : Token}
    (kind : t.kind = .number ∨ t.kind = .identifier) (ts : List Token) (ds : Diagnostics) :
    factor inner (t :: ts) ds = (some ⟨.leaf t, ts, Nat.lt_succ_self _⟩, ds) := by
  rcases kind with kind | kind <;> simp only [factor, kind]

theorem factor_of_none {inner : Rule} {t : Token} (opens : t.kind = .lparen) {ts : List Token}
    {ds ds' : Diagnostics} (failed : inner ts ds = (none, ds')) :
    factor inner (t :: ts) ds = (none, ds'.report (.ofRest .missingOperand (t :: ts))) := by
  simp only [factor, opens, failed]

theorem factor_of_some {inner : Rule} {t : Token} (opens : t.kind = .lparen) {ts : List Token}
    {ds ds' : Diagnostics} {p : Parsed ts} (found : inner ts ds = (some p, ds'))
    {rest : List Token} {ds'' : Diagnostics} (closed : closeParen p.rest ds' = (rest, ds''))
    (shorter : rest.length < (t :: ts).length) :
    factor inner (t :: ts) ds = (some ⟨p.tree, rest, shorter⟩, ds'') := by
  simp only [factor, opens, found, closed]

theorem group_reading {inner : Rule} {bound : Nat} (reads : Reads .expr bound inner) {t : Token}
    (opens : t.kind = .lparen) {ts : List Token} (ds : Diagnostics)
    (few : ts.countP (·.kind = .lparen) < bound) :
    Reading .factor .factor (t :: ts) ds (factor inner (t :: ts) ds) := by
  have reading := reads ts ds few
  generalize result : inner ts ds = outcome at reading
  cases reading with
  | clean p d shape stands ends =>
    have shorter : p.rest.length < (t :: ts).length := Nat.lt_succ_of_lt p.rest_lt
    have shape' : t :: ts = t :: (d.yield ++ p.rest) := congrArg (t :: ·) shape
    by_cases absent : NoClose p.rest
    · rw [factor_of_some opens result (closeParen_of_noClose absent ds) shorter]
      have u : Unclosed .factor (t :: d.yield) 1 p.tree := stands ▸ .group opens (.closed d)
      exact .repaired _ shape' u (.paren ends absent) .none
    · obtain ⟨c, rest, next, present⟩ := exists_of_not_next absent
      have closes := Classical.not_not.mp present
      have shorter' : rest.length < (t :: ts).length := by
        rw [next] at shorter
        exact Nat.lt_of_succ_lt shorter
      have closed : closeParen p.rest ds = (rest, ds) := by
        rw [next]
        exact closeParen_of_rparen closes rest ds
      rw [factor_of_some opens result closed shorter']
      refine .clean _ (.group t opens d c closes) ?_ stands fun u _ => extends_factor u.kind
      calc
        t :: ts = t :: (d.yield ++ c :: rest) := next ▸ shape'
        _ = _ := by rw [List.append_cons]; rfl
  | @repaired p read stop opened fault ds' shape u blocked echoes =>
    have shorter : p.rest.length < (t :: ts).length := Nat.lt_succ_of_lt p.rest_lt
    rw [factor_of_some opens result (closeParen_of_noClose blocked.noClose ds') shorter]
    exact .repaired _ (congrArg (t :: ·) shape) (u.group opens) blocked.succ
      (echoes.report .missingParen List.suffix_rfl blocked.suffix)
  | @gaveUp parens stop ds' shape opens' absent echoes =>
    rw [factor_of_none opens result]
    have inside : stop <:+ t :: ts := by
      rw [shape]
      exact (List.suffix_append parens stop).trans (List.suffix_cons t _)
    refine .gaveUp (congrArg (t :: ·) shape) (List.forall_mem_cons.mpr ⟨opens, opens'⟩) absent ?_
    exact (echoes.mono (List.suffix_cons t ts)).report .missingOperand List.suffix_rfl inside

/-- A group is read with one `(` less for the rule inside it. -/
theorem factor_reads {inner : Rule} {bound : Nat} (reads : Reads .expr bound inner) :
    Reads .factor (bound + 1) (factor inner) := by
  intro ts ds few
  by_cases absent : NoOperand ts
  · rw [factor_of_noOperand absent]
    exact .gaveUp rfl (List.forall_mem_nil _) absent .none
  · obtain ⟨t, rest, rfl, present⟩ := exists_of_not_next absent
    by_cases kind : t.kind = .number ∨ t.kind = .identifier
    · rw [factor_of_operand kind]
      exact .clean _ (.operand t kind) rfl rfl fun u _ => extends_factor u.kind
    · have opens : t.kind = .lparen := Classical.not_not.mp fun other => present ⟨kind, other⟩
      have few' : rest.countP (·.kind = .lparen) < bound := by simpa [opens] using few
      exact group_reading reads opens ds few'

theorem sum_reads {inner : Rule} {bound : Nat} (reads : Reads .expr bound inner) :
    Reads .expr (bound + 1) (sum inner) := by
  have terms : Reads .term (bound + 1) (term inner) :=
    chain_reads .term (fun k => (joins_term k).symm) (factor_reads reads)
  exact chain_reads .expr (fun k => (joins_expr k).symm) terms

theorem expr_reads (depth : Nat) : Reads .expr (depth + 1) (expr depth) := by
  induction depth with
  | zero => exact sum_reads fun ts ds few => (Nat.not_lt_zero _ few).elim
  | succ depth ih => exact sum_reads ih

end Grammar

end Calculator
