import Calculator.Proofs.Spelling
import Calculator.Proofs.Words

set_option autoImplicit false

namespace Calculator

/-- Two words are cut from one text in the same way, where neither text goes on with a digit. -/
theorem Token.Spelled.append_inj {t u : Token} (spelledLeft : t.Spelled) (wordLeft : t.kind ≠ .eof)
    (spelledRight : u.Spelled) (wordRight : u.kind ≠ .eof) {rest rest' : List Char}
    (parted : ∀ c, rest.head? = some c → c.isDigit = false)
    (parted' : ∀ c, rest'.head? = some c → c.isDigit = false)
    (same : t.lexeme.toList ++ rest = u.lexeme.toList ++ rest') : t.Same u ∧ rest = rest' := by
  obtain ⟨c, more, lexeme, begins, inside⟩ := spelledLeft.begins wordLeft
  obtain ⟨c', more', lexeme', begins', inside'⟩ := spelledRight.begins wordRight
  rw [lexeme, lexeme', String.toList_ofList, String.toList_ofList, List.cons_append,
    List.cons_append, List.cons.injEq] at same
  obtain ⟨rfl, behind⟩ := same
  have kinds : t.kind = u.kind := Option.some.inj (begins.symm.trans begins')
  have left := takeWhile_append inside fun d next =>
    t.kind.continues_eq_false_of_isDigit (parted d next)
  have right := takeWhile_append inside' fun d next =>
    u.kind.continues_eq_false_of_isDigit (parted' d next)
  rw [← kinds, ← behind] at right
  obtain rfl : more = more' := left.1.symm.trans right.1
  exact ⟨⟨kinds, lexeme.trans lexeme'.symm⟩, left.2.symm.trans right.2⟩

namespace Tree

/-- A tree of operands that are joined by operators, with every word spelled as its kind is. -/
structure Legible (t : Tree) : Prop where
  formed : t.Formed
  spelled : ∀ u ∈ t.words, u.Spelled

namespace Legible

variable {l r : Tree} {op t : Token}

theorem left (legible : (node l op r).Legible) : l.Legible where
  formed := by cases legible.formed with | node left operator right => exact left
  spelled u member := legible.spelled u (List.mem_append_left _ member)

theorem right (legible : (node l op r).Legible) : r.Legible where
  formed := by cases legible.formed with | node left operator right => exact right
  spelled u member :=
    legible.spelled u (List.mem_append_right _ (List.mem_cons_of_mem op member))

theorem operator (legible : (node l op r).Legible) : op.Spelled ∧ op.kind ≠ .eof := by
  refine ⟨legible.spelled op (List.mem_append_right _ List.mem_cons_self), fun ended => ?_⟩
  cases legible.formed with
  | node left operator right =>
    rw [ended] at operator
    cases operator

theorem operand (legible : (leaf t).Legible) : t.Spelled ∧ t.kind ≠ .eof ∧ t.kind ≠ .lparen := by
  refine ⟨legible.spelled t List.mem_cons_self, ?_⟩
  cases legible.formed with
  | leaf operand => rcases operand with kind | kind <;> simp [kind]

/-- An operand does not begin as a group does. -/
theorem unopened (legible : (leaf t).Legible) (rest more : List Char) :
    t.lexeme.toList ++ rest ≠ '(' :: more := by
  intro opened
  obtain ⟨spelled, word, other⟩ := legible.operand
  obtain ⟨c, behind, lexeme, begins, _⟩ := spelled.begins word
  rw [lexeme, String.toList_ofList, List.cons_append, List.cons.injEq] at opened
  rw [opened.1] at begins
  exact other (Option.some.inj begins).symm

end Legible

theorem toList_text_node (l r : Tree) (op : Token) (rest : List Char) :
    (node l op r).text.toList ++ rest =
      '(' :: (op.lexeme.toList ++ ' ' ::
        (l.text.toList ++ ' ' :: (r.text.toList ++ ')' :: rest))) := by
  simp [text, String.toList_append]

/-- Two trees in front of texts that do not go on with a digit: what is written tells where the
trees end, and which trees they are. -/
theorem text_append_inj {a b : Tree} (legible : a.Legible) (legible' : b.Legible)
    {rest rest' : List Char} (parted : ∀ c, rest.head? = some c → c.isDigit = false)
    (parted' : ∀ c, rest'.head? = some c → c.isDigit = false)
    (same : a.text.toList ++ rest = b.text.toList ++ rest') : a.Same b ∧ rest = rest' := by
  induction a generalizing b rest rest' with
  | leaf t =>
    cases b with
    | leaf u =>
      obtain ⟨spelled, word, _⟩ := legible.operand
      obtain ⟨spelled', word', _⟩ := legible'.operand
      exact spelled.append_inj word spelled' word' parted parted' same
    | node l' op' r' =>
      rw [toList_text_node] at same
      exact (legible.unopened _ _ same).elim
  | node l op r left right =>
    rw [toList_text_node] at same
    cases b with
    | leaf u => exact (legible'.unopened _ _ same.symm).elim
    | node l' op' r' =>
      rw [toList_text_node, List.cons.injEq] at same
      -- A blank or a `)` follows each part of a group, so no number runs on behind it.
      obtain ⟨spelled, word⟩ := legible.operator
      obtain ⟨spelled', word'⟩ := legible'.operator
      obtain ⟨operators, same⟩ := spelled.append_inj word spelled' word' (by simp) (by simp) same.2
      obtain ⟨lefts, same⟩ := left legible.left legible'.left (by simp) (by simp)
        (List.cons.inj same).2
      obtain ⟨rights, same⟩ := right legible.right legible'.right (by simp) (by simp)
        (List.cons.inj same).2
      exact ⟨⟨lefts, operators, rights⟩, (List.cons.inj same).2⟩

theorem legible_of_tokenize {source : String} {ts : List Token} {t : Tree}
    (accepted : tokenize source = .ok ts) (kept : (parse ts).tree = some t) : t.Legible where
  formed := formed_of_parse kept
  spelled u member := spelled_of_tokenize accepted u ((words_sublist_of_parse kept).subset member)

/-- The one-line forms of two trees are the same exactly if the trees have the same shape and the
same words. This is so of all trees of operands and operators whose words are spelled as their kinds
are, and whatever tree a parse of a source keeps is one of these. -/
theorem text_eq_iff_same :
    (∀ a b : Tree, a.Legible → b.Legible → (a.text = b.text ↔ a.Same b)) ∧
      ∀ source ts t, tokenize source = .ok ts → (parse ts).tree = some t → t.Legible := by
  refine ⟨fun a b legible legible' => ⟨fun same => ?_, Same.text_eq⟩, ?_⟩
  · have none : ∀ c, ([] : List Char).head? = some c → c.isDigit = false := by simp
    have chars : a.text.toList ++ [] = b.text.toList ++ [] := by rw [same]
    exact (text_append_inj legible legible' none none chars).1
  · exact fun source ts t accepted kept => legible_of_tokenize accepted kept

/-- The tree of `12-3-x`. -/
def fromLeft : Tree :=
  .node
    (.node (.leaf ⟨.number, "12", ⟨0, 2⟩⟩) ⟨.minus, "-", ⟨2, 3⟩⟩ (.leaf ⟨.number, "3", ⟨3, 4⟩⟩))
    ⟨.minus, "-", ⟨4, 5⟩⟩ (.leaf ⟨.identifier, "x", ⟨5, 6⟩⟩)

def fromRight : Tree :=
  .node (.leaf ⟨.number, "1", ⟨0, 1⟩⟩) ⟨.minus, "-", ⟨1, 2⟩⟩
    (.node (.leaf ⟨.number, "23", ⟨3, 5⟩⟩) ⟨.minus, "-", ⟨5, 6⟩⟩ (.leaf ⟨.identifier, "x", ⟨6, 7⟩⟩))

theorem text_eq_iff_same_differences :
    fromLeft.Legible ∧ fromRight.Legible ∧ ¬ fromLeft.Same fromRight ∧
      fromLeft.text ≠ fromRight.text := by
  have left : fromLeft.Legible := by
    refine ⟨.node (.node (.leaf (.inl rfl)) rfl (.leaf (.inl rfl))) rfl (.leaf (.inr rfl)), ?_⟩
    simp [fromLeft, words, Token.Spelled, Kind.Spells]
  have right : fromRight.Legible := by
    refine ⟨.node (.leaf (.inl rfl)) rfl (.node (.leaf (.inl rfl)) rfl (.leaf (.inr rfl))), ?_⟩
    simp [fromRight, words, Token.Spelled, Kind.Spells]
  have other : ¬ fromLeft.Same fromRight := by decide
  exact ⟨left, right, other, fun same => other ((text_eq_iff_same.1 _ _ left right).mp same)⟩

end Tree

end Calculator
