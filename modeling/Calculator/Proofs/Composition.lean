import Calculator.Proofs.Acceptance
import Calculator.Proofs.Computation
import Calculator.Proofs.Shift
import Calculator.Proofs.Tiling

set_option autoImplicit false

namespace Calculator

open String (utf8Len)

namespace Operator

def symbol : Operator → Char
  | plus => '+'
  | minus => '-'
  | times => '*'
  | divide => '/'

def kind : Operator → Kind
  | plus => .plus
  | minus => .minus
  | times => .star
  | divide => .slash

theorem ofChar?_symbol (op : Operator) : Kind.ofChar? op.symbol = some op.kind := by
  cases op <;> rfl

theorem operator?_kind (op : Operator) : op.kind.operator? = some op := by
  cases op <;> rfl

theorem kind_ne_number (op : Operator) : op.kind ≠ .number := by
  cases op <;> decide

theorem utf8Size_symbol (op : Operator) : op.symbol.utf8Size = 1 := by
  cases op <;> rfl

end Operator

def Token.symbol (kind : Kind) (c : Char) (offset : Nat) : Token :=
  ⟨kind, String.singleton c, ⟨offset, offset + 1⟩⟩

theorem Token.kind_symbol (kind : Kind) (c : Char) (offset : Nat) :
    (symbol kind c offset).kind = kind := rfl

/-- Two sources in parentheses with an operator between them. -/
def composed (left : String) (op : Operator) (right : String) : String :=
  "(" ++ left ++ ")" ++ String.singleton op.symbol ++ "(" ++ right ++ ")"

theorem toList_composed (left : String) (op : Operator) (right : String) :
    (composed left op right).toList =
      '(' :: (left.toList ++ ')' :: op.symbol :: '(' :: (right.toList ++ [')'])) := by
  simp [composed]

namespace Laid

variable {offset stop : Nat} {cs rest : List Char} {c : Char} {kind : Kind} {ts us : List Token}

theorem ne_nil (laid : Laid offset cs ts) : ts ≠ [] := by
  cases laid with
  | marker => exact List.cons_ne_nil _ _
  | word => exact List.cons_ne_nil _ _

/-- Blanks in front of a text. -/
theorem after_blanks {blanks : List Char} (blank : ∀ d ∈ blanks, isBlank d = true)
    (laid : Laid (offset + utf8Len blanks) cs ts) : Laid offset (blanks ++ cs) ts := by
  generalize place : offset + utf8Len blanks = start at laid
  cases laid with
  | marker blank' =>
    have both := List.forall_mem_append.mpr ⟨blank, blank'⟩
    have size : start + utf8Len cs = offset + utf8Len (blanks ++ cs) := by
      rw [String.utf8Len_append]
      omega
    rw [size]
    exact .marker both
  | @word _ start _ blanks' _ _ _ _ _ blank' visible begins whole ends first last tail =>
    have both := List.forall_mem_append.mpr ⟨blank, blank'⟩
    have first' : start = offset + utf8Len (blanks ++ blanks') := by
      rw [String.utf8Len_append]
      omega
    rw [← List.append_assoc]
    exact .word both visible begins whole ends first' last tail

/-- One text behind another. The last token of the first is its end marker and is lost. Nothing else
changes, for no number goes on into the second. -/
theorem dropLast_append (laid : Laid offset cs ts) (behind : Laid (offset + utf8Len cs) rest us)
    (parted : ∀ d, rest.head? = some d → d.isDigit = false) :
    Laid offset (cs ++ rest) (ts.dropLast ++ us) := by
  induction laid with
  | marker blank => exact behind.after_blanks blank
  | @word offset start stop blanks more inner c kind ts blank visible begins whole ends first last
      tail ih =>
    have place : offset + utf8Len (blanks ++ c :: (more ++ inner)) = stop + utf8Len inner := by
      rw [last, first]
      simp only [String.utf8Len_append, String.utf8Len_cons]
      omega
    rw [place] at behind
    rw [List.dropLast_cons_of_ne_nil tail.ne_nil, List.append_assoc, List.cons_append,
      List.append_assoc]
    exact .word blank visible begins whole (Kind.ends_append ends parted) first last (ih behind)

/-- What lies in two texts lies in the one behind the other, without the first end marker. -/
theorem append {marker : Token} (laid : Laid offset cs (ts ++ [marker]))
    (behind : Laid (offset + utf8Len cs) rest us)
    (parted : ∀ d, rest.head? = some d → d.isDigit = false) :
    Laid offset (cs ++ rest) (ts ++ us) := by
  have both := laid.dropLast_append behind parted
  rw [List.dropLast_concat] at both
  exact both

/-- A symbol in front of a text. -/
theorem symbol (begins : Kind.ofChar? c = some kind) (other : kind ≠ .number)
    (size : c.utf8Size = 1) (tail : Laid (offset + 1) rest us) :
    Laid offset (c :: rest) (.symbol kind c offset :: us) := by
  have visible := isBlank_eq_false_of_ofChar? begins
  have ends : ∀ d, rest.head? = some d → kind.continues d = false :=
    fun d _ => Kind.continues_eq_false other d
  have last : offset + 1 = offset + utf8Len [c] := by
    rw [String.utf8Len_cons, String.utf8Len_nil, size]
  rw [Token.symbol, String.singleton_eq_ofList]
  exact @word offset offset (offset + 1) [] [] rest c kind us (List.forall_mem_nil _) visible begins
    (List.forall_mem_nil _) ends rfl last tail

/-- A text in parentheses is a group, wherever it stands. -/
theorem group {d : Derivation .expr} (inside : Laid 0 cs (d.yield ++ [.endMarker stop]))
    (behind : Laid (offset + utf8Len cs + 2) rest us) :
    ∃ g : Derivation .factor, g.tree = d.tree.shift (offset + 1) ∧
      Laid offset ('(' :: (cs ++ ')' :: rest)) (g.yield ++ us) := by
  -- Behind the opening parenthesis the text stands one byte further on.
  have inner := inside.shift (offset + 1)
  rw [List.map_append, List.map_singleton, ← d.yield_shift, Nat.zero_add] at inner
  have place : offset + utf8Len cs + 2 = offset + 1 + utf8Len cs + 1 := by omega
  rw [place] at behind
  have closed := behind.symbol (c := ')') rfl (by decide) rfl
  have parted : ∀ d, (')' :: rest).head? = some d → d.isDigit = false := by
    intro d first
    cases first
    rfl
  have opened := (inner.append closed parted).symbol (c := '(') rfl (by decide) rfl
  refine ⟨.group (.symbol .lparen '(' offset) (Token.kind_symbol _ _ _) (d.shift (offset + 1))
    (.symbol .rparen ')' (offset + 1 + utf8Len cs)) (Token.kind_symbol _ _ _),
    d.tree_shift (offset + 1), ?_⟩
  rw [Derivation.yield_group, List.append_assoc]
  exact opened

end Laid

theorem beforeEnd_concat {words : List Token} {marker : Token} (others : ∀ t ∈ words, t.kind ≠ .eof)
    (ended : marker.kind = .eof) : beforeEnd (words ++ [marker]) = words := by
  have inside : ∀ t ∈ words, decide (t.kind ≠ .eof) = true :=
    fun t member => decide_eq_true (others t member)
  rw [beforeEnd, List.takeWhile_append_of_pos inside]
  simp [ended]

namespace Tree

/-- A source has a tree where a derivation of it lies in the text. -/
theorem ofSource_eq_ok_iff {source : String} {t : Tree} :
    ofSource source = .ok t ↔ ∃ d : Derivation .expr,
      Laid 0 source.toList (d.yield ++ [.endMarker source.utf8ByteSize]) ∧ d.tree = t := by
  constructor
  · intro read
    cases accepted : tokenize source with
    | error e =>
      rw [ofSource_of_foreign accepted] at read
      cases read
    | ok ts =>
      obtain ⟨words, rfl, others⟩ := (tiling_of_tokenize accepted).ended
      have strict := strict_of_ofSource accepted read
      obtain ⟨kept, clean⟩ := Outcome.strict_eq_ok_iff.mp strict
      obtain ⟨d, yields, stands⟩ := (parsing _).derivation_of_clean clean
      rw [beforeEnd_concat others rfl] at yields
      rw [kept] at stands
      refine ⟨d, ?_, (Option.some.inj stands).symm⟩
      rw [yields]
      exact laid_of_tokenize accepted
  · rintro ⟨d, laid, rfl⟩
    have yields : d.yield = beforeEnd (d.yield ++ [.endMarker source.utf8ByteSize]) :=
      (beforeEnd_concat d.no_eof_yield rfl).symm
    exact ofSource_of_strict (tokenize_eq_ok_iff_laid.mpr laid) (strict_of_derivation d yields)

end Tree

namespace Derivation

/-- Two factors with an operator between them are an expression, whatever the operator. -/
theorem exists_joined (left : Derivation .factor) (op : Token) (right : Derivation .factor)
    {operator : Operator} (known : op.kind.operator? = some operator) :
    ∃ d : Derivation .expr, d.yield = left.yield ++ op :: right.yield ∧
      d.tree = .node left.tree op right.tree := by
  have either : (op.kind.isAdditive || op.kind.isMultiplicative) = true := by
    rw [← Kind.operator?_isSome, known, Option.isSome_some]
  rcases Bool.or_eq_true_iff.mp either with additive | multiplicative
  · have joins := (joins_expr op.kind).mpr additive
    exact ⟨.binary .expr (.unit .expr (.unit .term left)) op joins (.unit .term right), rfl, rfl⟩
  · have joins := (joins_term op.kind).mpr multiplicative
    exact ⟨.unit .expr (.binary .term (.unit .term left) op joins right), rfl, rfl⟩

end Derivation

variable {left right : String} {l r : Tree}

theorem utf8ByteSize_composed (left : String) (op : Operator) (right : String) :
    (composed left op right).utf8ByteSize = left.utf8ByteSize + right.utf8ByteSize + 5 := by
  rw [← String.utf8Len_toList, toList_composed, ← String.utf8Len_toList, ← String.utf8Len_toList]
  simp only [String.utf8Len_cons, String.utf8Len_append, String.utf8Len_nil, op.utf8Size_symbol]
  have opening : '('.utf8Size = 1 := rfl
  have closing : ')'.utf8Size = 1 := rfl
  omega

/-- The tree of a composed source. -/
theorem Tree.ofSource_composed (readLeft : ofSource left = .ok l)
    (readRight : ofSource right = .ok r) (op : Operator) :
    ofSource (composed left op right) = .ok (.node (l.shift 1)
      (.symbol op.kind op.symbol (left.utf8ByteSize + 2)) (r.shift (left.utf8ByteSize + 4))) := by
  obtain ⟨d, inLeft, rfl⟩ := ofSource_eq_ok_iff.mp readLeft
  obtain ⟨d', inRight, rfl⟩ := ofSource_eq_ok_iff.mp readRight
  have size : (composed left op right).utf8ByteSize =
      left.utf8ByteSize + 3 + utf8Len right.toList + 2 := by
    rw [utf8ByteSize_composed, String.utf8Len_toList]
    omega
  -- Each part has to know what lies behind it, so the text is put together from its end.
  have ended : Laid (left.utf8ByteSize + 3 + utf8Len right.toList + 2) []
      [.endMarker (composed left op right).utf8ByteSize] := by
    rw [size]
    exact .marker (List.forall_mem_nil _)
  obtain ⟨g', tree', laid'⟩ := inRight.group ended
  have behind := laid'.symbol op.ofChar?_symbol op.kind_ne_number op.utf8Size_symbol
  have place : left.utf8ByteSize + 2 = 0 + utf8Len left.toList + 2 := by
    rw [String.utf8Len_toList]
    omega
  rw [place] at behind
  obtain ⟨g, tree, laid⟩ := inLeft.group behind
  obtain ⟨e, yields, stands⟩ := Derivation.exists_joined g
    (.symbol op.kind op.symbol (0 + utf8Len left.toList + 2)) g' op.operator?_kind
  refine ofSource_eq_ok_iff.mpr ⟨e, ?_, ?_⟩
  · rw [yields, toList_composed, List.append_assoc]
    exact laid
  · rw [stands, tree, tree', place]

/-- An operator joins two values, or divides by zero. -/
theorem Operator.join_symbol (op : Operator) (offset : Nat) (whole : Span) (a b : Float) :
    (op = .divide ∧ (b == 0) = true ∧
        (Token.symbol op.kind op.symbol offset).join whole a b = .error ⟨.divisionByZero, whole⟩) ∨
      ∃ v, Arithmetic op.kind a b v ∧
        (Token.symbol op.kind op.symbol offset).join whole a b = .ok v := by
  cases joined : (Token.symbol op.kind op.symbol offset).join whole a b with
  | ok v => exact .inr ⟨v, Token.join_eq_ok_iff.mp joined, rfl⟩
  | error e =>
    have known := op.operator?_kind
    rcases Token.join_error joined with ⟨none, _⟩ | ⟨slash, zero, rfl⟩
    · rw [Token.kind_symbol, known] at none
      cases none
    · rw [Token.kind_symbol, ← Kind.operator?_eq_divide_iff, known] at slash
      exact .inl ⟨Option.some.inj slash, zero, rfl⟩

/-- Two sources in parentheses with an operator between them are read as one node over their trees,
each moved to where its source stands, whatever is in them. The first of them that fails fails the
whole, at the place moved likewise. Else the operator joins the two values, unless it divides by
zero. -/
theorem evaluate_composed (left right : String) (l r : Tree) (op : Operator)
    (readLeft : Tree.ofSource left = .ok l) (readRight : Tree.ofSource right = .ok r) :
    Tree.ofSource (composed left op right) = .ok (.node (l.shift 1)
        ⟨op.kind, String.singleton op.symbol, ⟨left.utf8ByteSize + 2, left.utf8ByteSize + 3⟩⟩
        (r.shift (left.utf8ByteSize + 4))) ∧
      (∀ e, evaluate left = .error e → ∃ e', e = .evaluation e' ∧
        evaluate (composed left op right) = .error (.evaluation (e'.shift 1))) ∧
      (∀ a e, evaluate left = .ok a → evaluate right = .error e → ∃ e', e = .evaluation e' ∧
        evaluate (composed left op right) =
          .error (.evaluation (e'.shift (left.utf8ByteSize + 4)))) ∧
      ∀ a b, evaluate left = .ok a → evaluate right = .ok b →
        (op = .divide ∧ (b == 0) = true ∧
          evaluate (composed left op right) = .error (.evaluation
            ⟨.divisionByZero, ⟨l.span.start + 1, r.span.stop + left.utf8ByteSize + 4⟩⟩)) ∨
        ∃ v, Arithmetic op.kind a b v ∧ evaluate (composed left op right) = .ok v := by
  have read := Tree.ofSource_composed readLeft readRight op
  refine ⟨read, ?_, ?_, ?_⟩
  · intro e failed
    obtain ⟨e', known, rfl⟩ := (evaluate_eq_error_iff readLeft).mp failed
    refine ⟨e', rfl, (evaluate_eq_error_iff read).mpr ⟨_, ?_, rfl⟩⟩
    rw [Tree.eval, Tree.eval_shift, known]
    rfl
  · intro a e valueLeft failed
    have knownLeft := (evaluate_eq_ok_iff readLeft).mp valueLeft
    obtain ⟨e', known, rfl⟩ := (evaluate_eq_error_iff readRight).mp failed
    refine ⟨e', rfl, (evaluate_eq_error_iff read).mpr ⟨_, ?_, rfl⟩⟩
    rw [Tree.eval, Tree.eval_shift, Tree.eval_shift, knownLeft, known]
    rfl
  · intro a b valueLeft valueRight
    have knownLeft := (evaluate_eq_ok_iff readLeft).mp valueLeft
    have knownRight := (evaluate_eq_ok_iff readRight).mp valueRight
    have place : (l.shift 1).span.through (r.shift (left.utf8ByteSize + 4)).span =
        ⟨l.span.start + 1, r.span.stop + left.utf8ByteSize + 4⟩ := by
      rw [Tree.span_shift, Tree.span_shift]
      rfl
    have joins := op.join_symbol (left.utf8ByteSize + 2)
      ((l.shift 1).span.through (r.shift (left.utf8ByteSize + 4)).span) a b
    rcases joins with ⟨divides, zero, failed⟩ | ⟨v, result, joined⟩
    · refine .inl ⟨divides, zero, (evaluate_eq_error_iff read).mpr ⟨_, ?_, rfl⟩⟩
      rw [Tree.eval, Tree.eval_shift, Tree.eval_shift, knownLeft, knownRight, ← place]
      exact failed
    · refine .inr ⟨v, result, (evaluate_eq_ok_iff read).mpr ?_⟩
      rw [Tree.eval, Tree.eval_shift, Tree.eval_shift, knownLeft, knownRight]
      exact joined

/-- The words of `z-3` behind a blank. -/
def difference : Tree :=
  .node (.leaf ⟨.identifier, "z", ⟨1, 2⟩⟩) ⟨.minus, "-", ⟨2, 3⟩⟩ (.leaf ⟨.number, "3", ⟨3, 4⟩⟩)

/-- A divisor that is zero, and blanks inside both pairs of parentheses. -/
theorem evaluate_composed_zero :
    Tree.ofSource "x " = .ok (.leaf ⟨.identifier, "x", ⟨0, 1⟩⟩) ∧
      Tree.ofSource " z-3" = .ok difference ∧ composed "x " .divide " z-3" = "(x )/( z-3)" ∧
      evaluate "(x )/( z-3)" = .error (.evaluation ⟨.divisionByZero, ⟨1, 10⟩⟩) := by
  have readLeft : Tree.ofSource "x " = .ok (.leaf ⟨.identifier, "x", ⟨0, 1⟩⟩) :=
    eq_ok_of_toOption (by decide +kernel)
  have readRight : Tree.ofSource " z-3" = .ok difference := eq_ok_of_toOption (by decide +kernel)
  have whole : composed "x " .divide " z-3" = "(x )/( z-3)" := by decide +kernel
  have valueLeft : evaluate "x " = .ok 10 := (evaluate_eq_ok_iff readLeft).mpr rfl
  have valueRight : evaluate " z-3" = .ok 0 := (evaluate_eq_ok_iff readRight).mpr rfl
  refine ⟨readLeft, readRight, whole, ?_⟩
  rw [← whole]
  have joined := (evaluate_composed "x " " z-3" _ _ .divide readLeft readRight).2.2.2 _ _
    valueLeft valueRight
  rcases joined with ⟨_, _, failed⟩ | ⟨v, result, _⟩
  · exact failed
  · cases result with
    | divide other => cases other

end Calculator
