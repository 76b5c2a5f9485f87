import Calculator.Calculate
import Calculator.Proofs.Acceptance
import Calculator.Proofs.Spacing
import Calculator.Proofs.Words

set_option autoImplicit false

namespace Calculator

def Word.run (ws : List Word) : List Char := ws.flatMap fun w => w.lexeme.toList

def Kind.tightness (k : Kind) : Nat := if k.isMultiplicative then 2 else 1

namespace Tree

/-- How tightly the root of a tree binds. A word on its own binds more tightly than all operators. -/
def tightness : Tree → Nat
  | leaf _ => 3
  | node _ op _ => op.kind.tightness

def inParens (ws : List Word) : List Word := ⟨.lparen, "("⟩ :: (ws ++ [⟨.rparen, ")"⟩])

/-- The words of a tree in infix. The left side of an operator stands in parentheses only if its own
operator binds less tightly, the right side only if its own binds less tightly or as tightly. -/
def written : Tree → List Word
  | leaf t => [t.word]
  | node l op r =>
    (if l.tightness < op.kind.tightness then inParens l.written else l.written) ++
      op.word :: if r.tightness ≤ op.kind.tightness then inParens r.written else r.written

def source (t : Tree) : String := String.ofList (Word.run t.written)

end Tree

/-- The words need no blanks between them, nor behind them if what follows may follow a number. -/
def Tight (ws : List Word) : Prop :=
  ∀ (more : List Word) (rest : Spacing true more),
    ∃ s : Spacing false (ws ++ more), s.chars = Word.run ws ++ rest.chars

/-- What may follow a number may follow anything. -/
theorem Spacing.exists_of_behind {ws : List Word} (s : Spacing true ws) (b : Bool) :
    ∃ s' : Spacing b ws, s'.chars = s.chars := by
  cases s with
  | last blanks blank => exact ⟨.last blanks blank, rfl⟩
  | word blanks blank w spelled apart rest =>
    exact ⟨.word blanks blank w spelled (fun _ => apart rfl) rest, rfl⟩

theorem tight_nil : Tight [] := fun _ rest => rest.exists_of_behind false

theorem tight_singleton {w : Word} (spelled : w.Spelled) : Tight [w] := by
  intro more rest
  obtain ⟨behind, text⟩ := rest.exists_of_behind (decide (w.kind = .number))
  refine ⟨.word [] (List.forall_mem_nil _) w spelled (fun number => by cases number) behind, ?_⟩
  simp only [Spacing.chars, text, Word.run, List.flatMap_singleton, List.nil_append]

/-- A word that is no number parts any others. -/
theorem tight_append_cons {front back : List Word} {w : Word} (inFront : Tight front)
    (spelled : w.Spelled) (other : w.kind ≠ .number) (behind : Tight back) :
    Tight (front ++ w :: back) := by
  intro more rest
  have following : ∃ s : Spacing (decide (w.kind = .number)) (back ++ more),
      s.chars = Word.run back ++ rest.chars := by
    rw [decide_eq_false other]
    exact behind more rest
  obtain ⟨following, text⟩ := following
  obtain ⟨s, whole⟩ := inFront (w :: (back ++ more))
    (.word [] (List.forall_mem_nil _) w spelled (fun _ number => (other number).elim) following)
  rw [List.append_assoc, List.cons_append]
  refine ⟨s, ?_⟩
  simp only [whole, Spacing.chars, text, Word.run, List.flatMap_append, List.flatMap_cons,
    List.nil_append, List.append_assoc]

theorem tight_inParens {ws : List Word} (tight : Tight ws) : Tight (Tree.inParens ws) := by
  have closed : Tight (ws ++ [⟨.rparen, ")"⟩]) :=
    tight_append_cons tight ⟨by decide, rfl⟩ (by decide) tight_nil
  exact @tight_append_cons [] _ ⟨.lparen, "("⟩ tight_nil ⟨by decide, rfl⟩ (by decide) closed

theorem Tight.exists_spacing {ws : List Word} (tight : Tight ws) :
    ∃ s : Spacing false ws, s.source = String.ofList (Word.run ws) := by
  have spaced := tight [] (.last [] (List.forall_mem_nil _))
  rw [List.append_nil] at spaced
  obtain ⟨s, text⟩ := spaced
  simp only [Spacing.chars, List.append_nil] at text
  exact ⟨s, congrArg String.ofList text⟩

theorem Kind.ne_of_operator {k k' : Kind} (operator : k.operator?.isSome = true)
    (none : k'.operator? = none) : k ≠ k' := by
  rintro rfl
  rw [none] at operator
  cases operator

namespace Tree

theorem Formed.tight {t : Tree} (formed : t.Formed) (spelled : ∀ u ∈ t.words, u.Spelled) :
    Tight t.written := by
  induction formed with
  | @leaf t operand =>
    have word : t.kind ≠ .eof := by
      rcases operand with number | identifier
      · simp [number]
      · simp [identifier]
    exact tight_singleton ⟨word, spelled t List.mem_cons_self⟩
  | @node l r op left operator right ihLeft ihRight =>
    obtain ⟨spelledLeft, spelled⟩ := List.forall_mem_append.mp spelled
    obtain ⟨spelledOp, spelledRight⟩ := List.forall_mem_cons.mp spelled
    have side : ∀ (enclosed : Prop) [Decidable enclosed] {ws : List Word}, Tight ws →
        Tight (if enclosed then inParens ws else ws) := by
      intro enclosed _ ws tight
      split
      · exact tight_inParens tight
      · exact tight
    exact tight_append_cons (side _ (ihLeft spelledLeft))
      ⟨Kind.ne_of_operator operator rfl, spelledOp⟩ (Kind.ne_of_operator operator rfl)
      (side _ (ihRight spelledRight))

end Tree

def Phrase.tightness : Phrase → Nat
  | .expr => 1
  | .term => 2
  | .factor => 3

/-- A derivation of the tokens stands for the tree, wherever its words stand. -/
def Derives (phrase : Phrase) (ts : List Token) (t : Tree) : Prop :=
  ∃ d : Derivation phrase, d.yield = ts ∧ d.tree.Same t

theorem Derives.unit {upper lower : Phrase} {ts : List Token} {t : Tree} (level : Above upper lower)
    (derives : Derives lower ts t) : Derives upper ts t := by
  obtain ⟨d, yields, same⟩ := derives
  exact ⟨.unit level d, yields, same⟩

/-- What a phrase derives, all phrases above it derive. -/
theorem Derives.widen {phrase phrase' : Phrase} {ts : List Token} {t : Tree}
    (looser : phrase'.tightness ≤ phrase.tightness) (derives : Derives phrase ts t) :
    Derives phrase' ts t := by
  cases phrase' with
  | factor =>
    cases phrase with
    | factor => exact derives
    | expr | term => simp [Phrase.tightness] at looser
  | term =>
    cases phrase with
    | factor => exact derives.unit .term
    | term => exact derives
    | expr => simp [Phrase.tightness] at looser
  | expr =>
    cases phrase with
    | factor => exact (derives.unit .term).unit .expr
    | term => exact derives.unit .expr
    | expr => exact derives

theorem Kind.exists_joins {k : Kind} (operator : k.operator?.isSome = true) :
    ∃ upper lower, Above upper lower ∧ Joins upper k ∧ upper.tightness = k.tightness ∧
      lower.tightness = k.tightness + 1 := by
  cases k with
  | plus => exact ⟨.expr, .term, .expr, .plus, rfl, rfl⟩
  | minus => exact ⟨.expr, .term, .expr, .minus, rfl, rfl⟩
  | star => exact ⟨.term, .factor, .term, .star, rfl, rfl⟩
  | slash => exact ⟨.term, .factor, .term, .slash, rfl, rfl⟩
  | number | identifier | lparen | rparen | eof => cases operator

namespace Tree

theorem expr_tightness_le (t : Tree) : Phrase.tightness .expr ≤ t.tightness := by
  cases t with
  | leaf t => exact (by decide : 1 ≤ 3)
  | node l op r =>
    rw [tightness, Kind.tightness]
    split
    · decide
    · decide

/-- The side of an operator, in parentheses if it binds less tightly than the phrase in its place. -/
theorem derives_side {t : Tree} {phrase : Phrase} {ts : List Token}
    (written : ∀ us phrase, us.map Token.word = t.written → phrase.tightness ≤ t.tightness →
      Derives phrase us t)
    (words : ts.map Token.word =
      if t.tightness < phrase.tightness then inParens t.written else t.written) :
    Derives phrase ts t := by
  split at words
  · obtain ⟨opening, behind, rfl, opens, words⟩ := List.map_eq_cons_iff.mp words
    obtain ⟨inside, last, rfl, inner, words⟩ := List.map_eq_append_iff.mp words
    obtain ⟨closing, none, rfl, closes, nothing⟩ := List.map_eq_cons_iff.mp words
    obtain rfl := List.map_eq_nil_iff.mp nothing
    obtain ⟨d, yields, same⟩ := written inside .expr inner t.expr_tightness_le
    have group : Derives .factor (opening :: (inside ++ [closing])) t := by
      refine ⟨.group opening (congrArg Word.kind opens) d closing (congrArg Word.kind closes), ?_,
        same⟩
      simp only [Derivation.yield, yields]
    have loosest : phrase.tightness ≤ Phrase.tightness .factor := by
      cases phrase <;> decide
    exact group.widen loosest
  · rename_i tight
    exact written ts phrase words (Nat.le_of_not_lt tight)

/-- The words of a tree, wherever they stand, derive the tree from every phrase that is loose enough
for its root. -/
theorem Formed.derives {t : Tree} (formed : t.Formed) (ts : List Token) (phrase : Phrase)
    (words : ts.map Token.word = t.written) (loose : phrase.tightness ≤ t.tightness) :
    Derives phrase ts t := by
  induction formed generalizing ts phrase with
  | @leaf t operand =>
    obtain ⟨u, none, rfl, same, nothing⟩ := List.map_eq_cons_iff.mp words
    obtain rfl := List.map_eq_nil_iff.mp nothing
    have kind : u.kind = t.kind := congrArg Word.kind same
    have alone : Derives .factor [u] (.leaf t) :=
      ⟨.operand u (kind ▸ operand), rfl, (Token.same_iff_word_eq u t).mpr same⟩
    have leaf : phrase.tightness ≤ Phrase.tightness .factor := loose
    exact alone.widen leaf
  | @node l r op left operator right ihLeft ihRight =>
    obtain ⟨upper, lower, level, joins, ofUpper, ofLower⟩ := op.kind.exists_joins operator
    obtain ⟨front, back, rfl, inFront, behind⟩ := List.map_eq_append_iff.mp words
    obtain ⟨u, back, rfl, same, behind⟩ := List.map_eq_cons_iff.mp behind
    have kind : u.kind = op.kind := congrArg Word.kind same
    have fromUpper : Derives upper front l := derives_side ihLeft (by rw [ofUpper]; exact inFront)
    have fromLower : Derives lower back r := by
      refine derives_side ihRight ?_
      simp only [ofLower, Nat.lt_succ_iff]
      exact behind
    obtain ⟨d, yields, sameLeft⟩ := fromUpper
    obtain ⟨d', yields', sameRight⟩ := fromLower
    have joined : Derives upper (front ++ u :: back) (.node l op r) := by
      refine ⟨.binary level d u (kind ▸ joins) d', ?_, sameLeft,
        (Token.same_iff_word_eq u op).mpr same, sameRight⟩
      rw [Derivation.yield, yields, yields']
    rw [tightness, ← ofUpper] at loose
    exact joined.widen loose

/-- A tree of operands and operators, all spelled as their kinds are, is written so that its text is
read strictly as the same tree. -/
theorem ofSource_source (t : Tree) (formed : t.Formed) (spelled : ∀ u ∈ t.words, u.Spelled) :
    ∃ t', Tree.ofSource t.source = .ok t' ∧ t'.Same t := by
  obtain ⟨s, text⟩ := (formed.tight spelled).exists_spacing
  have accepted := s.tokenize_eq_ok
  obtain ⟨d, yields, same⟩ :=
    formed.derives (s.tokens 0) .expr (s.map_word_tokens 0) t.expr_tightness_le
  have ended : ∀ u, [Token.endMarker s.source.utf8ByteSize].head? = some u → u.kind = .eof := by
    intro u first
    cases first
    rfl
  have front := d.beforeEnd_yield ended
  rw [yields] at front
  have strict := strict_of_derivation d (yields.trans front.symm)
  have read := Tree.ofSource_of_strict accepted strict
  rw [text] at read
  exact ⟨d.tree, read, same⟩

def quotient : Tree :=
  .node
    (.node
      (.node (.leaf ⟨.number, "1", .point 0⟩) ⟨.minus, "-", .point 0⟩
        (.node (.leaf ⟨.identifier, "x", .point 0⟩) ⟨.minus, "-", .point 0⟩
          (.leaf ⟨.number, "20", .point 0⟩)))
      ⟨.star, "*", .point 0⟩ (.leaf ⟨.number, "3", .point 0⟩))
    ⟨.slash, "/", .point 0⟩
    (.node (.leaf ⟨.identifier, "y", .point 0⟩) ⟨.star, "*", .point 0⟩
      (.leaf ⟨.number, "007", .point 0⟩))

theorem ofSource_source_quotient :
    quotient.Formed ∧ (∀ u ∈ quotient.words, u.Spelled) ∧
      quotient.source = "(1-(x-20))*3/(y*007)" ∧
      ∃ t', Tree.ofSource "(1-(x-20))*3/(y*007)" = .ok t' ∧ t'.Same quotient := by
  have formed : quotient.Formed :=
    .node (.node (.node (.leaf (.inl rfl)) rfl (.node (.leaf (.inr rfl)) rfl (.leaf (.inl rfl)))) rfl
      (.leaf (.inl rfl))) rfl (.node (.leaf (.inr rfl)) rfl (.leaf (.inl rfl)))
  have spelled : ∀ u ∈ quotient.words, u.Spelled := by
    simp [quotient, words, Token.Spelled, Kind.Spells]
  have text : quotient.source = "(1-(x-20))*3/(y*007)" := by decide
  have read := ofSource_source quotient formed spelled
  rw [text] at read
  exact ⟨formed, spelled, text, read⟩

end Tree

end Calculator
