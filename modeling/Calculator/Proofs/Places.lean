import Calculator.Evaluation
import Calculator.Proofs.Outline
import Calculator.Proofs.Parsing
import Calculator.Proofs.Spacing

set_option autoImplicit false

namespace Calculator

/-- Two answers that are both values or both failures, and agree as such. -/
inductive Agree {ε α : Type} (failure : ε → ε → Prop) (value : α → α → Prop) :
    Except ε α → Except ε α → Prop
  | ok {a b : α} (same : value a b) : Agree failure value (.ok a) (.ok b)
  | error {d e : ε} (same : failure d e) : Agree failure value (.error d) (.error e)

def Diagnostic.Same (d e : Diagnostic) : Prop := d.fault = e.fault ∧ d.found = e.found

def EvalError.Same (d e : EvalError) : Prop := d.fault = e.fault

section Words

variable {ts us : List Token} (same : List.Forall₂ Token.Same ts us)
include same

theorem listing_eq_of_same : listing ts = listing us := by
  have ofWords : ∀ vs : List Token, listing vs = String.join
      (((vs.map Token.word).filter (·.kind ≠ .eof)).map fun w =>
        column 10 w.lexeme ++ " " ++ column 20 w.kind.name ++ "\n") := by
    intro vs
    rw [List.filter_map, List.map_map]
    rfl
  rw [ofWords, ofWords, (forall₂_same_iff ts us).mp same]

theorem countP_eq_of_same (k : Kind) : ts.countP (·.kind = k) = us.countP (·.kind = k) := by
  have ofWords : ∀ vs : List Token,
      vs.countP (·.kind = k) = (vs.map Token.word).countP (·.kind = k) := by
    intro vs
    rw [List.countP_map]
    rfl
  rw [ofWords, ofWords, (forall₂_same_iff ts us).mp same]

theorem Diagnostic.ofRest_same (fault : Fault) :
    (Diagnostic.ofRest fault ts).Same (.ofRest fault us) := by
  cases same with
  | nil => exact ⟨rfl, rfl⟩
  | cons word _ => exact ⟨rfl, word.2⟩

end Words

namespace Diagnostics

/-- Either nothing was reported, or the first reports are the same. -/
def SameFirst (ds es : Diagnostics) : Prop := Option.Rel Diagnostic.Same ds.head? es.head?

variable {ds es : Diagnostics}

theorem SameFirst.eq_nil_iff (first : SameFirst ds es) : ds = [] ↔ es = [] := by
  cases ds with
  | nil =>
    cases es with
    | nil => exact Iff.rfl
    | cons => cases first
  | cons =>
    cases es with
    | nil => cases first
    | cons => simp

/-- A report is first or leaves the first one as it is, wherever it is. -/
theorem SameFirst.report (first : SameFirst ds es) {d e : Diagnostic} (same : d.Same e) :
    SameFirst (ds.report d) (es.report e) := by
  cases ds with
  | nil =>
    obtain rfl := first.eq_nil_iff.mp rfl
    exact .some same
  | cons d' ds =>
    cases es with
    | nil => cases first
    | cons e' es =>
      -- Places decide whether these two are kept, but not what stands in front of them.
      rw [SameFirst, head?_report rfl, head?_report rfl]
      exact first

end Diagnostics

namespace Grammar

open Diagnostics

variable {ts us : List Token} {ds es : Diagnostics}

/-- Two results of a rule that differ in places at most, and in the reports behind the first. -/
inductive Agrees : Option (Parsed ts) × Diagnostics → Option (Parsed us) × Diagnostics → Prop
  | gaveUp {ds es : Diagnostics} (first : SameFirst ds es) : Agrees (none, ds) (none, es)
  | read {p : Parsed ts} {q : Parsed us} {ds es : Diagnostics} (tree : p.tree.Same q.tree)
      (rest : List.Forall₂ Token.Same p.rest q.rest) (first : SameFirst ds es) :
      Agrees (some p, ds) (some q, es)

def Blind (rule : Rule) : Prop :=
  ∀ ⦃ts us : List Token⦄ ⦃ds es : Diagnostics⦄, List.Forall₂ Token.Same ts us → SameFirst ds es →
    Agrees (rule ts ds) (rule us es)

theorem closeParen_blind (same : List.Forall₂ Token.Same ts us) (first : SameFirst ds es) :
    List.Forall₂ Token.Same (closeParen ts ds).1 (closeParen us es).1 ∧
      SameFirst (closeParen ts ds).2 (closeParen us es).2 := by
  have missing := first.report (Diagnostic.ofRest_same same .missingParen)
  cases same with
  | nil => exact ⟨.nil, missing⟩
  | cons word rest =>
    simp only [closeParen, word.1]
    split
    · exact ⟨rest, first⟩
    · exact ⟨.cons word rest, missing⟩

theorem factor_blind {inner : Rule} (blind : Blind inner) : Blind (factor inner) := by
  intro ts us ds es same first
  have missing := first.report (Diagnostic.ofRest_same same .missingOperand)
  cases same with
  | nil => exact .gaveUp missing
  | @cons t u ts us word rest =>
    by_cases operand : t.kind = .number ∨ t.kind = .identifier
    · rw [factor_of_operand operand, factor_of_operand (word.1 ▸ operand)]
      exact .read word rest first
    · by_cases opens : t.kind = .lparen
      · have within := blind rest first
        generalize result : inner ts ds = o, result' : inner us es = o' at within
        cases within with
        | gaveUp first =>
          -- Reported once more, at the `(`: dropped or not, it is not the first.
          rw [factor_of_none opens result, factor_of_none (word.1 ▸ opens) result']
          exact .gaveUp (first.report (Diagnostic.ofRest_same (.cons word rest) .missingOperand))
        | @read p q ds es tree rest first =>
          obtain ⟨behind, first⟩ := closeParen_blind rest first
          have shorter := Nat.lt_of_le_of_lt (closeParen_length_le p.rest ds) p.rest_lt
          have shorter' := Nat.lt_of_le_of_lt (closeParen_length_le q.rest es) q.rest_lt
          rw [factor_of_some opens result rfl (Nat.lt_succ_of_lt shorter),
            factor_of_some (word.1 ▸ opens) result' rfl (Nat.lt_succ_of_lt shorter')]
          exact .read tree behind first
      · have absent : ∀ v vs, v.kind = t.kind → NoOperand (v :: vs) := by
          intro v vs kind w next
          cases next
          rw [kind]
          exact ⟨operand, opens⟩
        rw [factor_of_noOperand (absent t ts rfl), factor_of_noOperand (absent u us word.1.symm)]
        exact .gaveUp missing

section Loop

variable {joins : Kind → Bool} {unit : Rule}

/-- Both loops go the same number of rounds: what follows is joined to both trees or to neither. -/
theorem extend_blind (blind : Blind unit) {p : Parsed ts} {q : Parsed us} {ds es : Diagnostics}
    (tree : p.tree.Same q.tree) (rest : List.Forall₂ Token.Same p.rest q.rest)
    (first : SameFirst ds es) :
    Agrees (some (extend joins unit p ds).1, (extend joins unit p ds).2)
      (some (extend joins unit q es).1, (extend joins unit q es).2) := by
  have words := rest
  generalize next : p.rest = left, next' : q.rest = right at words
  cases words with
  | nil =>
    rw [extend_of_outside ds (by simp [next]), extend_of_outside es (by simp [next'])]
    exact .read tree rest first
  | @cons op op' operand operand' word behind =>
    by_cases joined : joins op.kind = true
    · have joined' : joins op'.kind = true := word.1 ▸ joined
      have operands := blind behind first
      generalize result : unit operand ds = o, result' : unit operand' es = o' at operands
      cases operands with
      | gaveUp first =>
        rw [extend_of_none next joined result, extend_of_none next' joined' result']
        exact .read tree rest first
      | @read r r' ds es further behind first =>
        have shorter : r.rest.length < p.rest.length := by
          rw [next]
          exact Nat.lt_succ_of_lt r.rest_lt
        have shorter' : r'.rest.length < q.rest.length := by
          rw [next']
          exact Nat.lt_succ_of_lt r'.rest_lt
        rw [extend_of_some next joined result (Nat.lt_trans shorter p.rest_lt),
          extend_of_some next' joined' result' (Nat.lt_trans shorter' q.rest_lt)]
        have joint : (Tree.node p.tree op r.tree).Same (.node q.tree op' r'.tree) :=
          ⟨tree, word, further⟩
        exact extend_blind blind joint behind first
    · have joined' : ¬ joins op'.kind = true := word.1 ▸ joined
      rw [extend_of_outside ds (by simp [next, joined]),
        extend_of_outside es (by simp [next', joined'])]
      exact .read tree rest first
termination_by p.rest.length

theorem chain_blind (blind : Blind unit) : Blind (chain joins unit) := by
  intro ts us ds es same first
  have units := blind same first
  unfold chain
  generalize unit ts ds = o, unit us es = o' at units
  cases units with
  | gaveUp first => exact .gaveUp first
  | read tree rest first => exact extend_blind blind tree rest first

end Loop

theorem sum_blind {inner : Rule} (blind : Blind inner) : Blind (sum inner) :=
  chain_blind (chain_blind (factor_blind blind))

theorem expr_blind (depth : Nat) : Blind (expr depth) := by
  induction depth with
  | zero => exact sum_blind fun _ _ _ _ _ first => .gaveUp first
  | succ depth ih => exact sum_blind ih

theorem checkEnd_blind (same : List.Forall₂ Token.Same ts us) (first : SameFirst ds es) :
    SameFirst (checkEnd ts ds) (checkEnd us es) := by
  have more := first.report (Diagnostic.ofRest_same same .leftover)
  cases same with
  | nil => exact first
  | cons word _ =>
    simp only [checkEnd, word.1, ne_eq, first.eq_nil_iff]
    split
    · exact first
    · exact more

end Grammar

/-- What a parse keeps and what it reports first is the same for the same words. -/
theorem parse_same {ts us : List Token} (same : List.Forall₂ Token.Same ts us) :
    Option.Rel Tree.Same (parse ts).tree (parse us).tree ∧
      Diagnostics.SameFirst (parse ts).diagnostics (parse us).diagnostics := by
  have silent : Diagnostics.SameFirst [] [] := .none
  -- The same words have as many `(`, so both are read to one depth.
  have read := Grammar.expr_blind (us.countP (·.kind = .lparen)) same silent
  generalize result' : Grammar.expr _ us [] = o' at read
  rw [← countP_eq_of_same same] at read
  generalize result : Grammar.expr _ ts [] = o at read
  cases read with
  | gaveUp first =>
    obtain ⟨gone, reports⟩ := parse_of_none result
    obtain ⟨gone', reports'⟩ := parse_of_none result'
    rw [gone, gone', reports, reports']
    exact ⟨.none, first⟩
  | read tree rest first =>
    obtain ⟨kept, reports⟩ := parse_of_some result
    obtain ⟨kept', reports'⟩ := parse_of_some result'
    rw [kept, kept', reports, reports']
    exact ⟨.some tree, Grammar.checkEnd_blind rest first⟩

/-- The strict reading of an outcome is its tree, or its first report. -/
theorem Outcome.strict_agree {o o' : Outcome} (trees : Option.Rel Tree.Same o.tree o'.tree)
    (first : Diagnostics.SameFirst o.diagnostics o'.diagnostics) :
    Agree Diagnostic.Same Tree.Same o.strict o'.strict := by
  generalize answer : o.strict = r, answer' : o'.strict = r'
  cases r with
  | ok t =>
    obtain ⟨kept, clean⟩ := strict_eq_ok_iff.mp answer
    have clean' := first.eq_nil_iff.mp clean
    rw [kept] at trees
    cases r' with
    | ok t' =>
      rw [(strict_eq_ok_iff.mp answer').1] at trees
      cases trees with
      | some same => exact .ok same
    | error e =>
      have known := strict_eq_error_iff.mp answer'
      rw [clean'] at known
      cases known
  | error d =>
    have known := strict_eq_error_iff.mp answer
    cases r' with
    | ok t' =>
      rw [first.eq_nil_iff.mpr (strict_eq_ok_iff.mp answer').2] at known
      cases known
    | error e =>
      rw [Diagnostics.SameFirst, known, strict_eq_error_iff.mp answer'] at first
      cases first with
      | some same => exact .error same

section Evaluation

variable (env : Environment)

theorem Token.Same.value {t u : Token} (same : t.Same u) :
    Agree EvalError.Same Eq (t.value env) (u.value env) := by
  obtain ⟨kind, lexeme, place⟩ := t
  obtain ⟨_, _, place'⟩ := u
  obtain ⟨rfl, rfl⟩ := same
  cases kind with
  | identifier =>
    simp only [Token.value]
    split
    · exact .ok rfl
    · exact .error rfl
  | number =>
    simp only [Token.value]
    split
    · exact .ok rfl
    · exact .error rfl
  | plus | minus | star | slash | lparen | rparen | eof => exact .error rfl

theorem Token.Same.join {op op' : Token} (same : op.Same op') (whole whole' : Span) (a b : Float) :
    Agree EvalError.Same Eq (op.join whole a b) (op'.join whole' a b) := by
  obtain ⟨kind, lexeme, place⟩ := op
  obtain ⟨_, _, place'⟩ := op'
  obtain ⟨rfl, rfl⟩ := same
  simp only [Token.join]
  split
  · exact .error rfl
  · split
    · exact .error rfl
    · exact .ok rfl

theorem Tree.Same.eval {a b : Tree} (same : a.Same b) :
    Agree EvalError.Same Eq (a.eval env) (b.eval env) := by
  induction same using Tree.Same.induction with
  | leaf t u same => exact same.value env
  | node l op r l' op' r' _ operator _ left right =>
    rw [Tree.eval, Tree.eval]
    generalize l.eval env = x, l'.eval env = x' at left
    cases left with
    | error same => exact .error same
    | ok same =>
      subst same
      generalize r.eval env = y, r'.eval env = y' at right
      cases right with
      | error same => exact .error same
      | ok same =>
        subst same
        exact operator.join _ _ _ _

end Evaluation

theorem Tree.Same.alike {a b : Tree} (same : a.Same b) : a.Alike b := by
  induction same using Tree.Same.induction with
  | leaf t u same => exact ⟨⟨by rw [same.1], by rw [same.1]⟩, same.2⟩
  | node l op r l' op' r' _ operator _ left right => exact ⟨left, operator.2, right⟩

/-- Words decide alone what is listed, read and computed, and how it fails. Tokens with the same
words have the same listing, and they are read as the same tree or fail with the same fault at the
same lexeme. Trees with the same words are written in the same way, on one line and as an outline,
and in any environment they have the same value or fail with the same fault and the same texts. Only
the places of what fails differ. -/
theorem words_decide :
    (∀ ts us : List Token, List.Forall₂ Token.Same ts us → listing ts = listing us ∧
      Agree Diagnostic.Same Tree.Same (parse ts).strict (parse us).strict) ∧
    ∀ a b : Tree, a.Same b → a.text = b.text ∧ a.outline = b.outline ∧
      ∀ env, Agree EvalError.Same Eq (a.eval env) (b.eval env) := by
  refine ⟨fun ts us same => ⟨listing_eq_of_same same, ?_⟩, fun a b same => ⟨same.text_eq, ?_, ?_⟩⟩
  · obtain ⟨trees, first⟩ := parse_same same
    exact Outcome.strict_agree trees first
  · exact same.alike.outline_eq
  · exact fun env => same.eval env

/-- The words `(x+*y`, at places that are numbered from the left. -/
def brokenGroup (place : Nat → Span) : List Token :=
  [⟨.lparen, "(", place 0⟩, ⟨.identifier, "x", place 1⟩, ⟨.plus, "+", place 2⟩,
    ⟨.star, "*", place 3⟩, ⟨.identifier, "y", place 4⟩]

def zeroQuotient (place : Nat → Span) : Tree :=
  .node (.leaf ⟨.identifier, "x", place 0⟩) ⟨.slash, "/", place 1⟩ (.leaf ⟨.number, "0", place 2⟩)

def falling (n : Nat) : Span := ⟨9 - n, n⟩

/-- Where places fall, a report is kept that is dropped where they rise. It is not the first one. -/
theorem words_decide_falling :
    List.Forall₂ Token.Same (brokenGroup .point) (brokenGroup falling) ∧
      (parse (brokenGroup .point)).diagnostics.length = 1 ∧
      (parse (brokenGroup falling)).diagnostics.length = 2 ∧
      listing (brokenGroup .point) = listing (brokenGroup falling) ∧
      Agree Diagnostic.Same Tree.Same (parse (brokenGroup .point)).strict
        (parse (brokenGroup falling)).strict ∧
      (zeroQuotient .point).Same (zeroQuotient falling) ∧
      (zeroQuotient .point).text = (zeroQuotient falling).text ∧
      (zeroQuotient .point).outline = (zeroQuotient falling).outline ∧
      Agree EvalError.Same Eq ((zeroQuotient .point).eval .initial)
        ((zeroQuotient falling).eval .initial) := by
  have sameWords : List.Forall₂ Token.Same (brokenGroup .point) (brokenGroup falling) := by
    simp [brokenGroup, Token.Same]
  have sameTree : (zeroQuotient .point).Same (zeroQuotient falling) := by
    simp [Tree.Same, zeroQuotient, Token.Same]
  obtain ⟨ofTokens, ofTrees⟩ := words_decide
  obtain ⟨listed, read⟩ := ofTokens _ _ sameWords
  obtain ⟨text, outline, computed⟩ := ofTrees _ _ sameTree
  exact ⟨sameWords, by decide +kernel, by decide +kernel, listed, read, sameTree, text, outline,
    computed .initial⟩

end Calculator
