import Calculator.Calculate
import Calculator.Proofs.Spelling
import Calculator.Proofs.Words

set_option autoImplicit false

namespace Calculator

theorem Kind.operator?_eq_divide_iff (k : Kind) : k.operator? = some .divide ↔ k = .slash := by
  cases k <;> simp [Kind.operator?]

/-- Only a division by zero has no value. -/
theorem Operator.apply?_eq_none_iff (op : Operator) (a b : Float) :
    op.apply? a b = none ↔ op = .divide ∧ (b == 0) = true := by
  unfold Operator.apply?
  cases op <;> simp

namespace Token

/-- A word joins two values unless it is no operator, or divides by zero. -/
theorem join_error {op : Token} {whole : Span} {a b : Float} {e : EvalError}
    (failed : op.join whole a b = .error e) :
    (op.kind.operator? = none ∧ e = ⟨.notAnOperator op.lexeme, op.span⟩) ∨
      (op.kind = .slash ∧ (b == 0) = true ∧ e = ⟨.divisionByZero, whole⟩) := by
  unfold join at failed
  split at failed
  · rename_i none
    cases failed
    exact .inl ⟨none, rfl⟩
  · rename_i operator known
    split at failed
    · rename_i undefined
      obtain ⟨rfl, zero⟩ := (operator.apply?_eq_none_iff a b).mp undefined
      cases failed
      exact .inr ⟨(op.kind.operator?_eq_divide_iff).mp known, zero, rfl⟩
    · cases failed

theorem value_of_spelled {t : Token} (operand : t.kind = .number ∨ t.kind = .identifier)
    (spelled : t.Spelled) (env : Environment) : ∃ value, t.value env = .ok value := by
  unfold Spelled at spelled
  rcases operand with number | identifier
  · rw [number] at spelled
    have digits := (Decimal.natural?_isSome_iff t.lexeme.toList).mpr
      ⟨spelled.1, List.all_eq_true.mpr spelled.2⟩
    obtain ⟨n, read⟩ := Option.isSome_iff_exists.mp digits
    exact ⟨Float.ofNat n, by simp only [value, number, read]⟩
  · rw [identifier] at spelled
    obtain ⟨name, alone, _⟩ := spelled
    exact ⟨env.lookup name, by simp only [value, identifier, alone]⟩

end Token

namespace Tree

def subtrees : Tree → List Tree
  | leaf t => [leaf t]
  | node l op r => node l op r :: (l.subtrees ++ r.subtrees)

/-- Some quotient in the tree has a divisor that is zero, and the error says where it stands. -/
def DividesByZero (env : Environment) (t : Tree) (e : EvalError) : Prop :=
  ∃ l op r, node l op r ∈ t.subtrees ∧ op.kind = .slash ∧
    (∃ b, r.eval env = .ok b ∧ (b == 0) = true) ∧ e = ⟨.divisionByZero, (node l op r).span⟩

variable {env : Environment} {l r : Tree} {op : Token} {e : EvalError}

/-- The first failure of a node is one of its sides', or its own. -/
theorem eval_node_error (failed : (node l op r).eval env = .error e) :
    l.eval env = .error e ∨ r.eval env = .error e ∨
      ∃ a b, r.eval env = .ok b ∧ op.join (node l op r).span a b = .error e := by
  rw [eval] at failed
  cases left : l.eval env with
  | error first =>
    rw [left] at failed
    exact .inl failed
  | ok a =>
    rw [left] at failed
    cases right : r.eval env with
    | error second =>
      rw [right] at failed
      exact .inr (.inl failed)
    | ok b =>
      rw [right] at failed
      exact .inr (.inr ⟨a, b, rfl, failed⟩)

theorem DividesByZero.of_left (divides : l.DividesByZero env e) :
    (node l op r).DividesByZero env e := by
  obtain ⟨l', op', r', inside, rest⟩ := divides
  exact ⟨l', op', r', List.mem_cons_of_mem _ (List.mem_append_left _ inside), rest⟩

theorem DividesByZero.of_right (divides : r.DividesByZero env e) :
    (node l op r).DividesByZero env e := by
  obtain ⟨l', op', r', inside, rest⟩ := divides
  exact ⟨l', op', r', List.mem_cons_of_mem _ (List.mem_append_right _ inside), rest⟩

theorem Formed.dividesByZero {t : Tree} (formed : t.Formed) (spelled : ∀ u ∈ t.words, u.Spelled)
    (failed : t.eval env = .error e) : t.DividesByZero env e := by
  induction formed with
  | @leaf t operand =>
    obtain ⟨value, known⟩ := t.value_of_spelled operand (spelled t List.mem_cons_self) env
    rw [eval, known] at failed
    cases failed
  | @node l r op left operator right ihLeft ihRight =>
    have spelledLeft : ∀ u ∈ l.words, u.Spelled :=
      fun u member => spelled u (List.mem_append_left _ member)
    have spelledRight : ∀ u ∈ r.words, u.Spelled :=
      fun u member => spelled u (List.mem_append_right _ (List.mem_cons_of_mem op member))
    rcases eval_node_error failed with inLeft | inRight | ⟨a, b, divisor, joined⟩
    · exact (ihLeft spelledLeft inLeft).of_left
    · exact (ihRight spelledRight inRight).of_right
    · rcases Token.join_error joined with ⟨none, _⟩ | ⟨slash, zero, what⟩
      · rw [none] at operator
        cases operator
      · exact ⟨l, op, r, List.mem_cons_self, slash, ⟨b, divisor, zero⟩, what⟩

/-- The operator of a subtree is a word of the tree. -/
theorem mem_words_of_subtree {t : Tree} (inside : node l op r ∈ t.subtrees) : op ∈ t.words := by
  induction t with
  | leaf t => simp [subtrees] at inside
  | node l' op' r' ihLeft ihRight =>
    simp only [subtrees, List.mem_cons, List.mem_append] at inside
    rcases inside with here | inLeft | inRight
    · cases here
      simp [words]
    · exact List.mem_append_left _ (ihLeft inLeft)
    · exact List.mem_append_right _ (List.mem_cons_of_mem _ (ihRight inRight))

end Tree

/-- Whatever tree a parse of a source keeps, and whatever its variables stand for, it has a value or
divides by zero somewhere; and a source without a `/` that parses strictly has a value. -/
theorem eval_of_tokenize (source : String) (ts : List Token) (accepted : tokenize source = .ok ts)
    (env : Environment) :
    (∀ t, (parse ts).tree = some t →
      (∃ value, t.eval env = .ok value) ∨ ∃ e, t.eval env = .error e ∧ t.DividesByZero env e) ∧
    ('/' ∉ source.toList → ∀ t, Tree.ofSource source = .ok t → ∃ value, t.eval env = .ok value) := by
  have spelled := spelled_of_tokenize accepted
  have fails : ∀ t e, (parse ts).tree = some t → t.eval env = .error e → t.DividesByZero env e := by
    intro t e kept failed
    have within := (words_sublist_of_parse kept).subset
    exact (formed_of_parse kept).dividesByZero (fun u member => spelled u (within member)) failed
  constructor
  · intro t kept
    cases result : t.eval env with
    | ok value => exact .inl ⟨value, rfl⟩
    | error e => exact .inr ⟨e, rfl, fails t e kept result⟩
  · intro absent t strict
    have kept := (Outcome.strict_eq_ok_iff.mp (Tree.strict_of_ofSource accepted strict)).1
    cases result : t.eval env with
    | ok value => exact ⟨value, rfl⟩
    | error e =>
      obtain ⟨l, op, r, inside, slash, _⟩ := fails t e kept result
      have member := (words_sublist_of_parse kept).subset (Tree.mem_words_of_subtree inside)
      have symbol := spelled op member
      rw [Token.Spelled, slash] at symbol
      have present : '/' ∈ op.lexeme.toList := by
        rw [symbol]
        exact List.mem_cons_self
      exact (absent (mem_of_tokenize accepted op member '/' present)).elim

theorem eq_ok_of_toOption {ε α : Type} {result : Except ε α} {a : α}
    (known : result.toOption = some a) : result = .ok a := by
  cases result with
  | error e => cases known
  | ok b => rw [Option.some.inj known]

/-- The tokens of `1/(x-x)+(2*`. -/
def uneven : List Token :=
  [⟨.number, "1", ⟨0, 1⟩⟩, ⟨.slash, "/", ⟨1, 2⟩⟩, ⟨.lparen, "(", ⟨2, 3⟩⟩,
    ⟨.identifier, "x", ⟨3, 4⟩⟩, ⟨.minus, "-", ⟨4, 5⟩⟩, ⟨.identifier, "x", ⟨5, 6⟩⟩,
    ⟨.rparen, ")", ⟨6, 7⟩⟩, ⟨.plus, "+", ⟨7, 8⟩⟩, ⟨.lparen, "(", ⟨8, 9⟩⟩, ⟨.number, "2", ⟨9, 10⟩⟩,
    ⟨.star, "*", ⟨10, 11⟩⟩, .endMarker 11]

def unevenTree : Tree :=
  .node
    (.node (.leaf ⟨.number, "1", ⟨0, 1⟩⟩) ⟨.slash, "/", ⟨1, 2⟩⟩
      (.node (.leaf ⟨.identifier, "x", ⟨3, 4⟩⟩) ⟨.minus, "-", ⟨4, 5⟩⟩
        (.leaf ⟨.identifier, "x", ⟨5, 6⟩⟩)))
    ⟨.plus, "+", ⟨7, 8⟩⟩ (.leaf ⟨.number, "2", ⟨9, 10⟩⟩)

/-- A tree that was kept beside a fault divides by zero. A source without a `/` has a value, also
where no variable has one. -/
theorem eval_of_tokenize_uneven :
    tokenize "1/(x-x)+(2*" = .ok uneven ∧ (parse uneven).tree = some unevenTree ∧
      (∃ e, unevenTree.eval .initial = .error e ∧ unevenTree.DividesByZero .initial e) ∧
      '/' ∉ "y".toList ∧ Tree.ofSource "y" = .ok (.leaf ⟨.identifier, "y", ⟨0, 1⟩⟩) ∧
      ∃ value, (Tree.leaf ⟨.identifier, "y", ⟨0, 1⟩⟩).eval .empty = .ok value := by
  have accepted : tokenize "1/(x-x)+(2*" = .ok uneven := eq_ok_of_toOption (by decide +kernel)
  have kept : (parse uneven).tree = some unevenTree := by decide +kernel
  have failed : unevenTree.eval .initial = .error ⟨.divisionByZero, ⟨0, 6⟩⟩ := rfl
  have accepted' : tokenize "y" = .ok [⟨.identifier, "y", ⟨0, 1⟩⟩, .endMarker 1] :=
    eq_ok_of_toOption (by decide +kernel)
  have absent : '/' ∉ "y".toList := by decide
  have read : Tree.ofSource "y" = .ok (.leaf ⟨.identifier, "y", ⟨0, 1⟩⟩) :=
    eq_ok_of_toOption (by decide +kernel)
  refine ⟨accepted, kept, ?_, absent, read, ?_⟩
  · rcases (eval_of_tokenize _ _ accepted .initial).1 _ kept with ⟨value, known⟩ | divides
    · rw [failed] at known
      cases known
    · exact divides
  · exact (eval_of_tokenize _ _ accepted' .empty).2 absent _ read

end Calculator
