import Calculator.Proofs.Division
import Calculator.Proofs.Tiling

set_option autoImplicit false

namespace Calculator

/-- A span lies in another one, and is not all of it. -/
def Span.Inside (inner outer : Span) : Prop :=
  outer.start ≤ inner.start ∧ inner.stop ≤ outer.stop ∧ inner ≠ outer

theorem Span.inside_of_start {inner outer : Span} (behind : outer.start < inner.start)
    (inside : inner.stop ≤ outer.stop) : inner.Inside outer := by
  refine ⟨Nat.le_of_lt behind, inside, ?_⟩
  rintro rfl
  exact Nat.lt_irrefl _ behind

theorem Span.inside_of_stop {inner outer : Span} (inside : outer.start ≤ inner.start)
    (before : inner.stop < outer.stop) : inner.Inside outer := by
  refine ⟨inside, Nat.le_of_lt before, ?_⟩
  rintro rfl
  exact Nat.lt_irrefl _ before

namespace Tree

/-- No word is empty, and every operator stands behind its left side and in front of its right
side. -/
inductive Ordered : Tree → Prop
  | leaf {t : Token} (known : t.span.start < t.span.stop) : Ordered (leaf t)
  | node {l r : Tree} {op : Token} (left : Ordered l) (behind : l.span.stop ≤ op.span.start)
      (known : op.span.start < op.span.stop) (before : op.span.stop ≤ r.span.start)
      (right : Ordered r) : Ordered (node l op r)

/-- A tree covers from its leftmost leaf to its rightmost one. -/
theorem span_eq_leaves (t : Tree) : ∃ first last, t.leaves.head? = some first ∧
    t.leaves.getLast? = some last ∧ t.span = ⟨first.span.start, last.span.stop⟩ :=
  ⟨t.leftmost, t.rightmost, t.head?_leaves, t.getLast?_leaves, t.span_eq_edges⟩

theorem mem_words_of_leaves {t : Tree} {u : Token} (member : u ∈ t.leaves) : u ∈ t.words := by
  induction t with
  | leaf t => exact member
  | node l op r left right =>
    rcases List.mem_append.mp member with inLeft | inRight
    · exact List.mem_append_left _ (left inLeft)
    · exact List.mem_append_right _ (List.mem_cons_of_mem op (right inRight))

/-- What holds of the places of all words holds of where a tree starts. -/
theorem exists_word_start (t : Tree) : ∃ u ∈ t.words, u.span.start = t.span.start := by
  obtain ⟨first, last, head, getLast, covers⟩ := t.span_eq_leaves
  exact ⟨first, mem_words_of_leaves (List.mem_of_head? head), by rw [covers]⟩

theorem exists_word_stop (t : Tree) : ∃ u ∈ t.words, u.span.stop = t.span.stop := by
  obtain ⟨first, last, head, getLast, covers⟩ := t.span_eq_leaves
  exact ⟨last, mem_words_of_leaves (List.mem_of_getLast? getLast), by rw [covers]⟩

theorem ordered_of_words {t : Tree}
    (apart : t.words.Pairwise fun a b => a.span.stop ≤ b.span.start)
    (known : ∀ u ∈ t.words, u.span.start < u.span.stop) : t.Ordered := by
  induction t with
  | leaf t => exact .leaf (known t List.mem_cons_self)
  | node l op r left right =>
    obtain ⟨inLeft, behind, across⟩ := List.pairwise_append.mp apart
    obtain ⟨before, inRight⟩ := List.pairwise_cons.mp behind
    obtain ⟨knownLeft, knownBehind⟩ := List.forall_mem_append.mp known
    obtain ⟨knownOp, knownRight⟩ := List.forall_mem_cons.mp knownBehind
    obtain ⟨last, memberLast, stops⟩ := l.exists_word_stop
    obtain ⟨first, memberFirst, starts⟩ := r.exists_word_start
    have behindLeft : l.span.stop ≤ op.span.start := by
      rw [← stops]
      exact across last memberLast op List.mem_cons_self
    have beforeRight : op.span.stop ≤ r.span.start := by
      rw [← starts]
      exact before first memberFirst
    exact .node (left inLeft knownLeft) behindLeft knownOp beforeRight (right inRight knownRight)

namespace Ordered

variable {t l r n : Tree} {op : Token}

theorem start_lt_stop (ordered : t.Ordered) : t.span.start < t.span.stop := by
  induction ordered with
  | leaf known => exact known
  | @node l r op left behind known before right ihLeft ihRight =>
    show l.span.start < r.span.stop
    omega

theorem subtree (ordered : t.Ordered) (inside : n ∈ t.subtrees) : n.Ordered := by
  induction ordered with
  | leaf known =>
    rw [List.mem_singleton.mp inside]
    exact .leaf known
  | node left behind known before right ihLeft ihRight =>
    rcases List.mem_cons.mp inside with rfl | below
    · exact .node left behind known before right
    · rcases List.mem_append.mp below with inLeft | inRight
      · exact ihLeft inLeft
      · exact ihRight inRight

/-- A tree covers all that hangs below it. -/
theorem covers (ordered : t.Ordered) (inside : n ∈ t.subtrees) :
    t.span.start ≤ n.span.start ∧ n.span.stop ≤ t.span.stop := by
  induction ordered with
  | leaf known =>
    rw [List.mem_singleton.mp inside]
    exact ⟨Nat.le_refl _, Nat.le_refl _⟩
  | @node l r op left behind known before right ihLeft ihRight =>
    have knownLeft := left.start_lt_stop
    have knownRight := right.start_lt_stop
    rcases List.mem_cons.mp inside with rfl | below
    · exact ⟨Nat.le_refl _, Nat.le_refl _⟩
    · show l.span.start ≤ n.span.start ∧ n.span.stop ≤ r.span.stop
      rcases List.mem_append.mp below with inLeft | inRight
      · have := ihLeft inLeft
        omega
      · have := ihRight inRight
        omega

theorem left_inside (ordered : (Tree.node l op r).Ordered) :
    l.span.Inside (Tree.node l op r).span := by
  cases ordered with
  | node left behind known before right =>
    have knownRight := right.start_lt_stop
    have shorter : l.span.stop < r.span.stop := by omega
    exact Span.inside_of_stop (Nat.le_refl _) shorter

theorem right_inside (ordered : (Tree.node l op r).Ordered) :
    r.span.Inside (Tree.node l op r).span := by
  cases ordered with
  | node left behind known before right =>
    have knownLeft := left.start_lt_stop
    have later : l.span.start < r.span.start := by omega
    exact Span.inside_of_start later (Nat.le_refl _)

/-- Two nodes of which the first hangs above the second or to its left. -/
theorem nested (ordered : t.Ordered) : t.subtrees.Pairwise fun a b =>
    b.span.Inside a.span ∨ a.span.stop ≤ b.span.start := by
  induction ordered with
  | leaf known => exact List.pairwise_singleton _ _
  | @node l r op left behind known before right ihLeft ihRight =>
    have whole : (Tree.node l op r).Ordered := .node left behind known before right
    have knownLeft := left.start_lt_stop
    have knownRight := right.start_lt_stop
    -- A node comes before all that hangs below it, and its left side before its right side.
    refine List.pairwise_cons.mpr ⟨fun n below => .inl ?_, List.pairwise_append.mpr
      ⟨ihLeft, ihRight, fun a inLeft b inRight => .inr ?_⟩⟩
    · rcases List.mem_append.mp below with inLeft | inRight
      · have within := left.covers inLeft
        have shorter : n.span.stop < r.span.stop := by omega
        exact Span.inside_of_stop within.1 shorter
      · have within := right.covers inRight
        have later : l.span.start < n.span.start := by omega
        exact Span.inside_of_start later within.2
    · have onLeft := left.covers inLeft
      have onRight := right.covers inRight
      omega

theorem nodup_spans (ordered : t.Ordered) : (t.subtrees.map span).Nodup := by
  refine List.pairwise_map.mpr (ordered.nested.imp_of_mem ?_)
  intro a b memberA memberB nested same
  rcases nested with inside | apart
  · exact inside.2.2 same.symm
  · have known := (ordered.subtree memberA).start_lt_stop
    rw [same] at known apart
    omega

/-- The span of a node is that of no other node. -/
theorem index_unique (ordered : t.Ordered) {i j : Nat} {m : Tree} (here : t.subtrees[i]? = some n)
    (there : t.subtrees[j]? = some m) (same : m.span = n.span) : j = i := by
  obtain ⟨bound, _⟩ := List.getElem?_eq_some_iff.mp there
  have inBounds : j < (t.subtrees.map span).length := by
    rw [List.length_map]
    exact bound
  apply (List.getElem?_inj inBounds ordered.nodup_spans).mp
  rw [List.getElem?_map, List.getElem?_map, here, there, Option.map_some, Option.map_some, same]

end Ordered

theorem Formed.no_eof {t : Tree} (formed : t.Formed) : ∀ u ∈ t.words, u.kind ≠ .eof := by
  induction formed with
  | leaf operand =>
    refine List.forall_mem_singleton.mpr fun marker => ?_
    simp [marker] at operand
  | node left operator right ihLeft ihRight =>
    refine List.forall_mem_append.mpr ⟨ihLeft, List.forall_mem_cons.mpr ⟨fun marker => ?_, ihRight⟩⟩
    rw [marker] at operator
    cases operator

end Tree

/-- A word covers some bytes of its source. -/
theorem Tiling.word_covers {source : String} {offset : Nat} {ts : List Token}
    (tiling : Tiling source offset ts) {t : Token} (member : t ∈ ts) (word : t.kind ≠ .eof) :
    t.span.start < t.span.stop ∧ t.span.stop ≤ source.utf8ByteSize := by
  constructor
  · obtain ⟨before, after, cut, _⟩ := tiling.cut t member
    obtain ⟨c, more, lexeme, _⟩ := (tiling.spelled t member).begins word
    have some := c.utf8Size_pos
    have last := cut.last
    rw [lexeme, String.toList_ofList, String.utf8Len_cons] at last
    omega
  · obtain ⟨words, rfl, _⟩ := tiling.ended
    rcases List.mem_append.mp member with inside | final
    · exact (tiling.of_concat.2 t inside).2
    · rw [List.mem_singleton.mp final] at word
      exact (word rfl).elim

section Parse

variable {source : String} {ts : List Token} {t : Tree} (accepted : tokenize source = .ok ts)
  (kept : (parse ts).tree = some t)

include accepted kept

theorem words_cover_of_tokenize :
    ∀ u ∈ t.words, u.span.start < u.span.stop ∧ u.span.stop ≤ source.utf8ByteSize := by
  intro u member
  have within := (words_sublist_of_parse kept).subset member
  have word := (formed_of_parse kept).no_eof u member
  exact (tiling_of_tokenize accepted).word_covers within word

theorem ordered_of_tokenize : t.Ordered := by
  have covers := words_cover_of_tokenize accepted kept
  have apart := (tiling_of_tokenize accepted).ordered.sublist (words_sublist_of_parse kept)
  apply Tree.ordered_of_words apart
  intro u member
  exact (covers u member).1

theorem span_stop_le_of_tokenize : t.span.stop ≤ source.utf8ByteSize := by
  obtain ⟨u, member, stops⟩ := t.exists_word_stop
  rw [← stops]
  exact (words_cover_of_tokenize accepted kept u member).2

end Parse

/-- In the trees that a parse of a source keeps, a node covers some bytes of the source, from its
leftmost leaf to its rightmost one, and an operator stands between its sides, each of which covers
less than the node. Of two nodes, the one that comes later lies inside the other or behind it, and no
two have the same span. So where a value is missing, the place in the error names one division by
zero. -/
theorem nested_of_tokenize (source : String) (ts : List Token) (accepted : tokenize source = .ok ts)
    (t : Tree) (kept : (parse ts).tree = some t) :
    (∀ n ∈ t.subtrees, n.span.start < n.span.stop ∧ n.span.stop ≤ source.utf8ByteSize ∧
      ∃ first last, n.leaves.head? = some first ∧ n.leaves.getLast? = some last ∧
        n.span = ⟨first.span.start, last.span.stop⟩) ∧
    (∀ l op r, Tree.node l op r ∈ t.subtrees →
      l.span.stop ≤ op.span.start ∧ op.span.start < op.span.stop ∧ op.span.stop ≤ r.span.start ∧
        l.span.Inside (Tree.node l op r).span ∧ r.span.Inside (Tree.node l op r).span) ∧
    (t.subtrees.Pairwise fun a b => b.span.Inside a.span ∨ a.span.stop ≤ b.span.start) ∧
    (t.subtrees.map Tree.span).Nodup ∧
    ∀ env e, t.eval env = .error e →
      ∃ (i : Nat) (l r : Tree) (op : Token),
        t.subtrees[i]? = some (.node l op r) ∧ op.kind = .slash ∧
        (∃ b, r.eval env = .ok b ∧ (b == 0) = true) ∧
        e = ⟨.divisionByZero, (Tree.node l op r).span⟩ ∧
        ∀ (j : Nat) (n : Tree), t.subtrees[j]? = some n → n.span = e.position → j = i := by
  have ordered := ordered_of_tokenize accepted kept
  refine ⟨?_, ?_, ordered.nested, ordered.nodup_spans, ?_⟩
  · intro n inside
    have bound := span_stop_le_of_tokenize accepted kept
    have within := (ordered.covers inside).2
    exact ⟨(ordered.subtree inside).start_lt_stop, Nat.le_trans within bound, n.span_eq_leaves⟩
  · intro l op r inside
    have here := ordered.subtree inside
    have onLeft := here.left_inside
    have onRight := here.right_inside
    cases here with
    | node left behind known before right => exact ⟨behind, known, before, onLeft, onRight⟩
  · intro env e failed
    have member := (words_sublist_of_parse kept).subset
    have spelled : ∀ u ∈ t.words, u.Spelled :=
      fun u inside => spelled_of_tokenize accepted u (member inside)
    obtain ⟨l, op, r, inside, slash, zero, rfl⟩ :=
      (formed_of_parse kept).dividesByZero spelled failed
    obtain ⟨i, here⟩ := List.mem_iff_getElem?.mp inside
    exact ⟨i, l, r, op, here, slash, zero, rfl, fun j n there same =>
      ordered.index_unique here there same⟩

/-- The division of `1/(x-x)+(2*` is the second of the seven nodes that are kept, and no other covers
what it covers, although it is the left side of the first. -/
theorem nested_of_tokenize_uneven :
    tokenize "1/(x-x)+(2*" = .ok uneven ∧ (parse uneven).tree = some unevenTree ∧
      unevenTree.eval .initial = .error ⟨.divisionByZero, ⟨0, 6⟩⟩ ∧
      ∃ i, ∀ (j : Nat) (n : Tree), unevenTree.subtrees[j]? = some n → n.span = ⟨0, 6⟩ → j = i := by
  have accepted : tokenize "1/(x-x)+(2*" = .ok uneven := eq_ok_of_toOption (by decide +kernel)
  have kept : (parse uneven).tree = some unevenTree := by decide +kernel
  have failed : unevenTree.eval .initial = .error ⟨.divisionByZero, ⟨0, 6⟩⟩ := rfl
  obtain ⟨_, _, _, _, named⟩ := nested_of_tokenize _ _ accepted _ kept
  obtain ⟨i, l, r, op, here, slash, zero, what, alone⟩ := named .initial _ failed
  exact ⟨accepted, kept, failed, i, alone⟩

end Calculator
