import Calculator.Proofs.Lexing
import Calculator.Proofs.Words

set_option autoImplicit false

namespace Calculator

inductive Side where
  | left
  | right

abbrev Path := List Side

/-- The order of a walk that goes down the left side of every node first. A node comes before all
below it. -/
inductive Path.Before : Path → Path → Prop
  | inside (side : Side) (path : Path) : Before [] (side :: path)
  | apart (path path' : Path) : Before (.left :: path) (.right :: path')
  | step {path path' : Path} (side : Side) (before : Before path path') :
      Before (side :: path) (side :: path')

/-- The same class of leaf: numbers, identifiers, and words of all other kinds. -/
def Kind.SameClass (a b : Kind) : Prop :=
  (a = .number ↔ b = .number) ∧ (a = .identifier ↔ b = .identifier)

/-- A text parts in one way only at the first place of a character. -/
theorem append_cons_inj {c : Char} {front front' back back' : List Char} (absent : c ∉ front)
    (absent' : c ∉ front') (same : front ++ c :: back = front' ++ c :: back') :
    front = front' ∧ back = back' := by
  have stops : ∀ back d, (c :: back).head? = some d → (d != c) = false := by simp
  have other : ∀ {cs : List Char}, c ∉ cs → ∀ d ∈ cs, (d != c) = true := by
    intro cs absent d inside
    simp only [bne_iff_ne]
    rintro rfl
    exact absent inside
  have cut := takeWhile_append (other absent) (stops back)
  have cut' := takeWhile_append (other absent') (stops back')
  rw [← same] at cut'
  exact ⟨cut.1.symm.trans cut'.1, (List.cons.inj (cut.2.symm.trans cut'.2)).2⟩

/-- Lines are told apart by the line feeds behind them. -/
theorem flatMap_newline_inj {ls ls' : List (List Char)} (plain : ∀ l ∈ ls, '\n' ∉ l)
    (plain' : ∀ l ∈ ls', '\n' ∉ l)
    (same : ls.flatMap (· ++ ['\n']) = ls'.flatMap (· ++ ['\n'])) : ls = ls' := by
  induction ls generalizing ls' with
  | nil => cases ls' <;> simp at same ⊢
  | cons l ls ih =>
    cases ls' with
    | nil => simp at same
    | cons l' ls' =>
      obtain ⟨first, others⟩ := List.forall_mem_cons.mp plain
      obtain ⟨first', others'⟩ := List.forall_mem_cons.mp plain'
      simp only [List.flatMap_cons, List.append_assoc, List.singleton_append] at same
      obtain ⟨rfl, behind⟩ := append_cons_inj first first' same
      rw [ih others others' behind]

namespace Tree

def at? : Tree → Path → Option Tree
  | leaf t, [] => some (leaf t)
  | leaf _, _ :: _ => none
  | node l op r, [] => some (node l op r)
  | node l _ _, .left :: path => l.at? path
  | node _ _ r, .right :: path => r.at? path

/-- All subtrees of a tree, each behind the path to it. -/
def nodes : Tree → List (Path × Tree)
  | leaf t => [([], leaf t)]
  | node l op r =>
    ([], node l op r) ::
      (l.nodes.map (Prod.map (.left :: ·) id) ++ r.nodes.map (Prod.map (.right :: ·) id))

def root : Tree → Token
  | leaf t => t
  | node _ op _ => op

def nodeClass : Tree → String
  | leaf t => leafClass t.kind
  | node .. => "BinaryOp"

/-- The line of a tree that hangs at a depth, without its line feed: two spaces for each level, then
the class of the root and its lexeme in quotes. -/
def line (depth : Nat) (t : Tree) : List Char :=
  List.replicate (2 * depth) ' ' ++ (t.nodeClass ++ " '" ++ t.root.lexeme ++ "'").toList

def Plain (t : Tree) : Prop := ∀ u ∈ t.words, '\n' ∉ u.lexeme.toList

/-- A text with one line for each node of a tree, in preorder, and nothing else. -/
structure Outlined (t : Tree) (text : List Char) : Prop where
  whole : text = t.nodes.flatMap fun n => n.2.line n.1.length ++ ['\n']
  lines : ∀ n ∈ t.nodes, '\n' ∉ n.2.line n.1.length
  preorder : t.nodes.Pairwise fun n n' => Path.Before n.1 n'.1
  complete : ∀ path n, (path, n) ∈ t.nodes ↔ t.at? path = some n

/-- The same shape, with the same lexeme at every node and the same class at every leaf. -/
def Alike : Tree → Tree → Prop
  | leaf a, leaf b => a.kind.SameClass b.kind ∧ a.lexeme = b.lexeme
  | node l op r, node l' op' r' => l.Alike l' ∧ op.lexeme = op'.lexeme ∧ r.Alike r'
  | leaf _, node .. => False
  | node .., leaf _ => False

section Nodes

theorem mem_nodes_iff (t : Tree) (path : Path) (n : Tree) :
    (path, n) ∈ t.nodes ↔ t.at? path = some n := by
  induction t generalizing path with
  | leaf t => cases path <;> simp [nodes, at?, eq_comm]
  | node l op r left right =>
    cases path with
    | nil => simp [nodes, at?, eq_comm]
    | cons side path => cases side <;> simp [nodes, at?, left, right]

theorem nodes_preorder (t : Tree) : t.nodes.Pairwise fun n n' => Path.Before n.1 n'.1 := by
  induction t with
  | leaf t => exact List.pairwise_singleton _ _
  | node l op r left right =>
    have step : ∀ (side : Side) {t : Tree}, t.nodes.Pairwise (fun n n' => Path.Before n.1 n'.1) →
        (t.nodes.map (Prod.map (side :: ·) id)).Pairwise fun n n' => Path.Before n.1 n'.1 :=
      fun side t order => List.pairwise_map.mpr (order.imp (.step side))
    refine List.pairwise_cons.mpr ⟨?_, List.pairwise_append.mpr ⟨step _ left, step _ right, ?_⟩⟩
    · intro n below
      rcases List.mem_append.mp below with inLeft | inRight
      · obtain ⟨n, _, rfl⟩ := List.mem_map.mp inLeft
        exact .inside _ _
      · obtain ⟨n, _, rfl⟩ := List.mem_map.mp inRight
        exact .inside _ _
    · intro n inLeft n' inRight
      obtain ⟨n, _, rfl⟩ := List.mem_map.mp inLeft
      obtain ⟨n', _, rfl⟩ := List.mem_map.mp inRight
      exact .apart _ _

theorem root_mem_words {t n : Tree} {path : Path} (found : t.at? path = some n) :
    n.root ∈ t.words := by
  induction t generalizing path with
  | leaf t =>
    cases path with
    | nil =>
      cases found
      exact List.mem_cons_self
    | cons side path => cases found
  | node l op r left right =>
    cases path with
    | nil =>
      cases found
      exact List.mem_append_right _ List.mem_cons_self
    | cons side path =>
      cases side with
      | left => exact List.mem_append_left _ (left found)
      | right => exact List.mem_append_right _ (List.mem_cons_of_mem op (right found))

end Nodes

section Lines

def lines (depth : Nat) (t : Tree) : List (List Char) :=
  t.nodes.map fun n => n.2.line (depth + n.1.length)

theorem lines_leaf (depth : Nat) (t : Token) : (leaf t).lines depth = [(leaf t).line depth] := rfl

theorem lines_node (depth : Nat) (l r : Tree) (op : Token) :
    (node l op r).lines depth =
      (node l op r).line depth :: (l.lines (depth + 1) ++ r.lines (depth + 1)) := by
  have further : ∀ (side : Side) (t : Tree),
      (t.nodes.map (Prod.map (side :: ·) id)).map (fun n => n.2.line (depth + n.1.length)) =
        t.lines (depth + 1) := by
    intro side t
    rw [List.map_map]
    refine List.map_congr_left fun n _ => ?_
    have deeper : depth + (side :: n.1).length = depth + 1 + n.1.length := by
      simp only [List.length_cons]
      omega
    rw [← deeper]
    rfl
  rw [lines, nodes, List.map_cons, List.map_append, further, further]
  rfl

theorem toList_outlineLine (depth : Nat) (t : Tree) :
    (outlineLine depth t.nodeClass t.root.lexeme).toList = t.line depth ++ ['\n'] := by
  simp [outlineLine, line, String.toList_append]

theorem toList_outlineLines (depth : Nat) (t : Tree) :
    (outlineLines depth t).map String.toList = (t.lines depth).map (· ++ ['\n']) := by
  induction t generalizing depth with
  | leaf t => exact congrArg (· :: []) (toList_outlineLine depth (leaf t))
  | node l op r left right =>
    have first := toList_outlineLine depth (node l op r)
    rw [outlineLines, lines_node, List.map_cons, List.map_append, left, right, List.map_cons,
      List.map_append]
    exact congrArg (· :: _) first

theorem toList_outline (t : Tree) : t.outline.toList = (t.lines 0).flatMap (· ++ ['\n']) := by
  rw [outline, String.toList_join, List.flatMap_def, toList_outlineLines, ← List.flatMap_def]

theorem leafClass_word (k : Kind) : ' ' ∉ (leafClass k).toList ∧ '\n' ∉ (leafClass k).toList := by
  cases k <;> decide

theorem nodeClass_word (t : Tree) : ' ' ∉ t.nodeClass.toList ∧ '\n' ∉ t.nodeClass.toList := by
  cases t with
  | leaf t => exact leafClass_word t.kind
  | node l op r => exact (by decide : ' ' ∉ "BinaryOp".toList ∧ '\n' ∉ "BinaryOp".toList)

theorem newline_not_mem_line {t : Tree} (plain : '\n' ∉ t.root.lexeme.toList) (depth : Nat) :
    '\n' ∉ t.line depth := by
  simp [line, String.toList_append, t.nodeClass_word.2, plain]

theorem newline_not_mem_lines {t : Tree} (plain : t.Plain) (depth : Nat) :
    ∀ l ∈ t.lines depth, '\n' ∉ l := by
  intro l member
  obtain ⟨⟨path, n⟩, inside, rfl⟩ := List.mem_map.mp member
  exact newline_not_mem_line (plain _ (root_mem_words ((mem_nodes_iff t path n).mp inside))) _

theorem outlined {t : Tree} (plain : t.Plain) : t.Outlined t.outline.toList where
  whole := by simp only [toList_outline, lines, List.flatMap_map, Nat.zero_add]
  lines n inside := by
    have line := newline_not_mem_lines plain 0 _ (List.mem_map.mpr ⟨n, inside, rfl⟩)
    rw [Nat.zero_add] at line
    exact line
  preorder := t.nodes_preorder
  complete := t.mem_nodes_iff

end Lines

section Decoding

theorem line_inj {a b : Tree} {depth : Nat} (same : a.line depth = b.line depth) :
    a.nodeClass = b.nodeClass ∧ a.root.lexeme = b.root.lexeme := by
  have shape : ∀ t : Tree, (t.nodeClass ++ " '" ++ t.root.lexeme ++ "'").toList =
      t.nodeClass.toList ++ ' ' :: ('\'' :: (t.root.lexeme.toList ++ ['\''])) := by
    simp [String.toList_append]
  have words := List.append_cancel_left same
  rw [shape, shape] at words
  -- No class has a blank in it, so the first blank is where the class ends.
  obtain ⟨classes, behind⟩ := append_cons_inj a.nodeClass_word.1 b.nodeClass_word.1 words
  exact ⟨String.toList_inj.mp classes,
    String.toList_inj.mp (List.append_cancel_right (List.cons.inj behind).2)⟩

theorem leafClass_eq_iff (k k' : Kind) : leafClass k = leafClass k' ↔ k.SameClass k' := by
  cases k <;> cases k' <;> simp [leafClass, Kind.SameClass]

theorem leafClass_ne (k : Kind) : leafClass k ≠ "BinaryOp" := by
  cases k <;> decide

/-- Two trees at one depth in front of further lines: what is written tells where the lines of the
trees end, and what the trees are. -/
theorem lines_append_inj {a b : Tree} {depth : Nat} {rest rest' : List (List Char)}
    (same : a.lines depth ++ rest = b.lines depth ++ rest') : a.Alike b ∧ rest = rest' := by
  induction a generalizing b depth rest rest' with
  | leaf t =>
    rw [lines_leaf, List.singleton_append] at same
    cases b with
    | leaf u =>
      rw [lines_leaf, List.singleton_append, List.cons.injEq] at same
      obtain ⟨classes, lexemes⟩ := line_inj same.1
      exact ⟨⟨(leafClass_eq_iff _ _).mp classes, lexemes⟩, same.2⟩
    | node l' op' r' =>
      -- Whatever the lexemes are, the classes of a leaf and of an operator differ.
      rw [lines_node, List.cons_append, List.cons.injEq] at same
      exact (leafClass_ne _ (line_inj same.1).1).elim
  | node l op r left right =>
    rw [lines_node, List.cons_append, List.append_assoc] at same
    cases b with
    | leaf u =>
      rw [lines_leaf, List.singleton_append, List.cons.injEq] at same
      exact (leafClass_ne _ (line_inj same.1).1.symm).elim
    | node l' op' r' =>
      rw [lines_node, List.cons_append, List.append_assoc, List.cons.injEq] at same
      obtain ⟨lefts, behind⟩ := left same.2
      obtain ⟨rights, behind⟩ := right behind
      exact ⟨⟨lefts, (line_inj same.1).2, rights⟩, behind⟩

theorem Alike.lines_eq {a b : Tree} (alike : a.Alike b) (depth : Nat) :
    a.lines depth = b.lines depth := by
  induction a generalizing b depth with
  | leaf t =>
    cases b with
    | leaf u =>
      rw [lines_leaf, lines_leaf, line, line, nodeClass, nodeClass,
        (leafClass_eq_iff _ _).mpr alike.1, root, root, alike.2]
    | node => exact alike.elim
  | node l op r left right =>
    cases b with
    | leaf => exact alike.elim
    | node l' op' r' =>
      obtain ⟨lefts, operators, rights⟩ := alike
      rw [lines_node, lines_node, left lefts, right rights, line, line, nodeClass, nodeClass, root,
        root, operators]

theorem Alike.outline_eq {a b : Tree} (alike : a.Alike b) : a.outline = b.outline := by
  rw [← String.toList_inj, toList_outline, toList_outline, alike.lines_eq]

end Decoding

/-- No lexeme of the trees has a line feed in it. Then the outline of a tree has one line for each
node, in preorder and two spaces further in for each level, and the outlines of two trees are the
same exactly if the trees have the same shape, the same lexemes and the same classes of leaves. -/
theorem outline_decodes :
    (∀ t : Tree, t.Plain → t.Outlined t.outline.toList) ∧
      ∀ a b : Tree, a.Plain → b.Plain → (a.outline = b.outline ↔ a.Alike b) := by
  refine ⟨fun t plain => outlined plain, fun a b plain plain' => ⟨fun same => ?_, Alike.outline_eq⟩⟩
  have texts : (a.lines 0).flatMap (· ++ ['\n']) = (b.lines 0).flatMap (· ++ ['\n']) := by
    rw [← toList_outline, ← toList_outline, same]
  have lines := flatMap_newline_inj (newline_not_mem_lines plain 0)
    (newline_not_mem_lines plain' 0) texts
  have ended : a.lines 0 ++ [] = b.lines 0 ++ [] := by rw [lines]
  exact (lines_append_inj ended).1

/-- Lexemes that look like parts of an outline, below a word that is no operator. -/
def lookalike (kind : Kind) : Tree :=
  .node (.leaf ⟨kind, "x'  Number 'y", .point 7⟩) ⟨.eof, "BinaryOp '+'", .point 3⟩
    (.leaf ⟨.number, "", .point 0⟩)

theorem outline_decodes_lookalike :
    (lookalike .star).Plain ∧ (lookalike .rparen).Plain ∧ (lookalike .number).Plain ∧
      (lookalike .star).Outlined (lookalike .star).outline.toList ∧
      (lookalike .star).outline = (lookalike .rparen).outline ∧
      (lookalike .star).outline ≠ (lookalike .number).outline := by
  have plain : ∀ kind, (lookalike kind).Plain := by simp [Plain, lookalike, words]
  obtain ⟨lines, decodes⟩ := outline_decodes
  refine ⟨plain _, plain _, plain _, lines _ (plain _), ?_, fun same => ?_⟩
  · exact (decodes _ _ (plain _) (plain _)).mpr (by simp [Alike, lookalike, Kind.SameClass])
  · have alike := (decodes _ _ (plain _) (plain _)).mp same
    simp [Alike, lookalike, Kind.SameClass] at alike

end Tree

end Calculator
