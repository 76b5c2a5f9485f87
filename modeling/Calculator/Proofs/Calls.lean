import Calculator.Proofs.Parsing

set_option autoImplicit false

namespace Calculator

namespace Grammar

inductive Level where
  | sum
  | product

/-- The calls of a parse. One that goes on behind something that was read has its tree. -/
inductive Call where
  | whole
  | chain (level : Level)
  | loop (level : Level) (left : Tree)
  | round (level : Level) (left : Tree)
  | factor
  | group
  | closing (inner : Tree)
  | ending (inner : Tree)

def Level.joins : Level → Kind → Bool
  | sum => Kind.isAdditive
  | product => Kind.isMultiplicative

def Level.unit : Level → Call
  | sum => .chain .product
  | product => .factor

/-- What a call comes back with: a tree and the tokens behind it unless it gave up, and the
diagnostics as they are then. -/
abbrev Answer := Option (Tree × List Token) × Diagnostics

/-- What is left to do in a call: nothing, or to call and go on with the answer. -/
inductive Code where
  | done (a : Answer)
  | call (callee : Call) (ts : List Token) (ds : Diagnostics) (next : Answer → Code)

/-- Goes on behind what was read. Where nothing was, the caller gives up too. -/
def andThen (next : Tree → List Token → Diagnostics → Code) : Answer → Code
  | (some (t, rest), ds) => next t rest ds
  | (none, ds) => .done (none, ds)

def orElse (other : Diagnostics → Code) : Answer → Code
  | (some found, ds) => .done (some found, ds)
  | (none, ds) => other ds

/-- The first token, if it is of a kind that is asked for, and the tokens behind it. -/
def front? (asked : Kind → Bool) : List Token → Option (Token × List Token)
  | [] => none
  | t :: ts => if asked t.kind then some (t, ts) else none

/-- What each call does. The tokens are all that the caller has left, and the diagnostics all that
was reported before. -/
def body : Call → List Token → Diagnostics → Code
  | .whole, ts, ds =>
    .call (.chain .sum) ts ds (andThen fun t rest ds => .call (.ending t) rest ds .done)
  | .chain level, ts, ds =>
    .call level.unit ts ds (andThen fun t rest ds => .call (.loop level t) rest ds .done)
  | .loop level left, ts, ds =>
    .call (.round level left) ts ds fun
      | (some (t, rest), ds) => .call (.loop level t) rest ds .done
      | (none, ds) => .done (some (left, ts), ds)
  | .round level left, ts, ds =>
    match front? level.joins ts with
    | some (op, operand) =>
      .call level.unit operand ds (andThen fun right rest ds =>
        .done (some (.node left op right, rest), ds))
    | none => .done (none, ds)
  | .factor, ts, ds =>
    match front? Kind.isOperand ts with
    | some (t, rest) => .done (some (.leaf t, rest), ds)
    | none =>
      .call .group ts ds (orElse fun ds => .done (none, ds.report (.ofRest .missingOperand ts)))
  | .group, ts, ds =>
    match front? (· = .lparen) ts with
    | some (_, inside) =>
      .call (.chain .sum) inside ds (andThen fun t rest ds => .call (.closing t) rest ds .done)
    | none => .done (none, ds)
  | .closing inner, ts, ds =>
    match front? (· = .rparen) ts with
    | some (_, rest) => .done (some (inner, rest), ds)
    | none => .done (some (inner, ts), ds.report (.ofRest .missingParen ts))
  | .ending inner, ts, ds =>
    match front? (· = .eof) ts with
    | some (_, rest) => .done (some (inner, rest), ds)
    | none => .done (some (inner, ts), checkEnd ts ds)

/-- How many groups a call adds to those that the calls it makes lie in. -/
def Call.groups : Call → Nat
  | .group => 1
  | _ => 0

/-- `Runs caller code n a`: what is left of a call of `caller` comes back with `a`, and `n` is the
greatest number of groups that a call made on the way lies in, the caller among them. No call lies
in a group that finds no `(`, as it makes none. -/
inductive Runs : Call → Code → Nat → Answer → Prop
  | done {caller : Call} (a : Answer) : Runs caller (.done a) 0 a
  | call {caller callee : Call} {us : List Token} {ds : Diagnostics} {next : Answer → Code}
      {n m : Nat} {a b : Answer} (inner : Runs callee (body callee us ds) n a)
      (outer : Runs caller (next a) m b) :
      Runs caller (.call callee us ds next) (max (caller.groups + n) m) b

/-- `Returns call ts ds n a`: on these tokens and diagnostics the call comes back with `a`, and its
groups lie `n` deep. -/
def Returns (call : Call) (ts : List Token) (ds : Diagnostics) (n : Nat) (a : Answer) : Prop :=
  Runs call (body call ts ds) n a

theorem Runs.unique {caller : Call} {code : Code} {n m : Nat} {a b : Answer}
    (run : Runs caller code n a) (other : Runs caller code m b) : m = n ∧ b = a := by
  induction run generalizing m b with
  | done a =>
    cases other
    exact ⟨rfl, rfl⟩
  | call inner outer ihInner ihOuter =>
    cases other with
    | call inner' outer' =>
      obtain ⟨rfl, rfl⟩ := ihInner inner'
      obtain ⟨rfl, rfl⟩ := ihOuter outer'
      exact ⟨rfl, rfl⟩

/-- The tokens that a call reads at least where it succeeds. What recovers from a missing word reads
none. -/
def Call.least : Call → Nat
  | .whole | .chain _ | .factor | .group => 1
  | .round _ _ => 2
  | .loop _ _ | .closing _ | .ending _ => 0

/-- Where a call succeeds, it leaves an end of its tokens that is shorter by those it reads. -/
def Call.Leaves (call : Call) (ts : List Token) (a : Answer) : Prop :=
  ∀ t rest, a.1 = some (t, rest) → rest <:+ ts ∧ rest.length + call.least ≤ ts.length

/-- Calls on the same tokens go from the rules for more to those for less. -/
def Call.rank : Call → Nat
  | .whole => 4
  | .chain .sum => 3
  | .chain .product => 2
  | .factor | .loop _ _ => 1
  | .group | .round _ _ | .closing _ | .ending _ => 0

/-- What gets smaller from a call to those it makes. With a token less there may be any call, and no
rank is above four. -/
def Call.measure (call : Call) (ts : List Token) : Nat := 5 * ts.length + call.rank

structure Admits (caller : Call) (ts : List Token) (callee : Call) (us : List Token) : Prop where
  part : us <:+ ts
  smaller : callee.measure us < caller.measure ts
  nested : caller.groups + us.countP (·.kind = .lparen) ≤ ts.countP (·.kind = .lparen)

/-- What is left of a call on `ts` does as it should, as long as the calls it makes do. -/
def Code.Meets (caller : Call) (ts : List Token) : Code → Prop
  | .done a => caller.Leaves ts a
  | .call callee us _ next =>
    Admits caller ts callee us ∧ ∀ a, callee.Leaves us a → (next a).Meets caller ts

section Bodies

variable {caller callee : Call} {ts us : List Token}

theorem Call.leaves_none (ds : Diagnostics) : caller.Leaves ts (none, ds) := by
  intro t rest found
  cases found

theorem Call.leaves_some {t : Tree} {rest : List Token} {ds : Diagnostics} (part : rest <:+ ts)
    (shorter : rest.length + caller.least ≤ ts.length) :
    caller.Leaves ts (some (t, rest), ds) := by
  intro t' rest' found
  cases found
  exact ⟨part, shorter⟩

/-- The answer of the last call is the answer of its caller. -/
theorem Call.Leaves.within {a : Answer} (left : callee.Leaves us a) (part : us <:+ ts)
    (shorter : us.length + caller.least ≤ ts.length + callee.least) : caller.Leaves ts a := by
  intro t rest found
  obtain ⟨inside, fewer⟩ := left t rest found
  exact ⟨inside.trans part, by omega⟩

theorem Call.rank_le (call : Call) : call.rank ≤ 4 := by
  cases call with
  | chain level => cases level <;> decide
  | whole | loop | round | factor | group | closing | ending => simp [rank]

theorem Call.measure_lt (shorter : us.length < ts.length) :
    callee.measure us < caller.measure ts := by
  have bounded := callee.rank_le
  unfold Call.measure
  omega

theorem Admits.of_rank (outside : caller.groups = 0) (lower : callee.rank < caller.rank) :
    Admits caller ts callee ts where
  part := List.suffix_rfl
  smaller := Nat.add_lt_add_left lower _
  nested := by simp [outside]

theorem Admits.of_shorter (outside : caller.groups = 0) (part : us <:+ ts)
    (shorter : us.length < ts.length) : Admits caller ts callee us where
  part := part
  smaller := Call.measure_lt shorter
  nested := by
    rw [outside, Nat.zero_add]
    exact part.sublist.countP_le

/-- Behind its `(`, a group has one fewer of them. -/
theorem Admits.of_group {t : Token} (opens : t.kind = .lparen) (part : us <:+ ts) :
    Admits .group (t :: ts) callee us where
  part := part.trans (List.suffix_cons t ts)
  smaller := Call.measure_lt (Nat.lt_succ_of_le part.length_le)
  nested := by
    rw [List.countP_cons_of_pos (by simp [opens]), Nat.add_comm]
    exact Nat.succ_le_succ part.sublist.countP_le

theorem meets_andThen {next : Tree → List Token → Diagnostics → Code}
    (goesOn : ∀ t rest ds, rest <:+ us → rest.length + callee.least ≤ us.length →
      (next t rest ds).Meets caller ts) (a : Answer) (left : callee.Leaves us a) :
    (andThen next a).Meets caller ts := by
  obtain ⟨_ | ⟨t, rest⟩, ds⟩ := a
  · exact Call.leaves_none ds
  · obtain ⟨part, shorter⟩ := left t rest rfl
    exact goesOn t rest ds part shorter

theorem front?_eq_some {asked : Kind → Bool} {t : Token}
    (front : front? asked ts = some (t, us)) : ts = t :: us ∧ asked t.kind = true := by
  cases ts with
  | nil => cases front
  | cons u ts =>
    simp only [front?] at front
    split at front
    · cases front
      exact ⟨rfl, ‹_›⟩
    · cases front

theorem Level.unit_least (level : Level) : level.unit.least = 1 := by
  cases level <;> rfl

theorem Level.unit_rank_lt (level : Level) : level.unit.rank < (Call.chain level).rank := by
  cases level <;> decide

/-- A call behind what another has read is the last that its caller makes. -/
theorem meets_sequence {next : Tree → Call} {ds : Diagnostics}
    (admits : Admits caller ts callee us)
    (goesOn : ∀ t rest, rest <:+ us → rest.length + callee.least ≤ us.length →
      Admits caller ts (next t) rest ∧
        rest.length + caller.least ≤ ts.length + (next t).least) :
    (Code.call callee us ds (andThen fun t rest ds => .call (next t) rest ds .done)).Meets
      caller ts := by
  refine ⟨admits, meets_andThen ?_⟩
  intro t rest ds part shorter
  obtain ⟨admits', fewer⟩ := goesOn t rest part shorter
  exact ⟨admits', fun a left => left.within admits'.part fewer⟩

theorem whole_meets (ts : List Token) (ds : Diagnostics) : (body .whole ts ds).Meets .whole ts := by
  refine meets_sequence (.of_rank rfl (by decide)) ?_
  intro t rest part shorter
  exact ⟨.of_shorter rfl part shorter, shorter⟩

theorem chain_meets (level : Level) (ts : List Token) (ds : Diagnostics) :
    (body (.chain level) ts ds).Meets (.chain level) ts := by
  refine meets_sequence (.of_rank rfl level.unit_rank_lt) ?_
  intro t rest part shorter
  rw [level.unit_least] at shorter
  exact ⟨.of_shorter rfl part shorter, shorter⟩

/-- A round that succeeds has read an operator and an operand, so less is left for the next. -/
theorem loop_meets (level : Level) (left : Tree) (ts : List Token) (ds : Diagnostics) :
    (body (.loop level left) ts ds).Meets (.loop level left) ts := by
  refine ⟨.of_rank rfl Nat.zero_lt_one, ?_⟩
  rintro ⟨_ | ⟨t, rest⟩, ds⟩ found
  · exact Call.leaves_some List.suffix_rfl (Nat.le_refl _)
  · obtain ⟨part, shorter⟩ := found t rest rfl
    exact ⟨.of_shorter rfl part (Nat.lt_of_succ_lt shorter),
      fun a left => left.within part part.length_le⟩

theorem round_meets (level : Level) (left : Tree) (ts : List Token) (ds : Diagnostics) :
    (body (.round level left) ts ds).Meets (.round level left) ts := by
  simp only [body]
  split
  · rename_i op operand front
    obtain ⟨rfl, -⟩ := front?_eq_some front
    have part := List.suffix_cons op operand
    refine ⟨.of_shorter rfl part (Nat.lt_succ_self _), meets_andThen ?_⟩
    intro t rest ds inside shorter
    rw [level.unit_least] at shorter
    exact Call.leaves_some (inside.trans part) (Nat.succ_le_succ shorter)
  · exact Call.leaves_none ds

theorem factor_meets (ts : List Token) (ds : Diagnostics) :
    (body .factor ts ds).Meets .factor ts := by
  simp only [body]
  split
  · rename_i t rest front
    obtain ⟨rfl, -⟩ := front?_eq_some front
    exact Call.leaves_some (List.suffix_cons t rest) (Nat.le_refl _)
  · refine ⟨.of_rank rfl Nat.zero_lt_one, ?_⟩
    rintro ⟨_ | found, ds⟩ left
    · exact Call.leaves_none _
    · exact left

theorem group_meets (ts : List Token) (ds : Diagnostics) :
    (body .group ts ds).Meets .group ts := by
  simp only [body]
  split
  · rename_i t inside front
    obtain ⟨rfl, asked⟩ := front?_eq_some front
    have opens : t.kind = .lparen := of_decide_eq_true asked
    refine meets_sequence (.of_group opens List.suffix_rfl) ?_
    intro inner rest part shorter
    exact ⟨.of_group opens part, Nat.le_succ_of_le shorter⟩
  · exact Call.leaves_none ds

/-- What recovers from a missing word succeeds with or without it. -/
theorem recovery_meets {asked : Kind → Bool} (least : caller.least = 0)
    (inner : Tree) (ds ds' : Diagnostics) :
    (match front? asked ts with
      | some (_, rest) => Code.done (some (inner, rest), ds)
      | none => .done (some (inner, ts), ds')).Meets caller ts := by
  split
  · rename_i t rest front
    obtain ⟨rfl, -⟩ := front?_eq_some front
    exact Call.leaves_some (List.suffix_cons t rest) (by simp [least])
  · exact Call.leaves_some List.suffix_rfl (by simp [least])

theorem body_meets (call : Call) (ts : List Token) (ds : Diagnostics) :
    (body call ts ds).Meets call ts := by
  cases call with
  | whole => exact whole_meets ts ds
  | chain level => exact chain_meets level ts ds
  | loop level left => exact loop_meets level left ts ds
  | round level left => exact round_meets level left ts ds
  | factor => exact factor_meets ts ds
  | group => exact group_meets ts ds
  | closing inner => exact recovery_meets rfl inner ds _
  | ending inner => exact recovery_meets rfl inner ds _

end Bodies

/-- A call that comes back has left what it should, and has gone no deeper than the `(` of its
tokens. -/
theorem Runs.outcome {caller : Call} {code : Code} {n : Nat} {a : Answer}
    (run : Runs caller code n a) {ts : List Token} (meets : code.Meets caller ts) :
    caller.Leaves ts a ∧ n ≤ ts.countP (·.kind = .lparen) := by
  induction run generalizing ts with
  | done a => exact ⟨meets, Nat.zero_le _⟩
  | @call caller callee us ds next n m a b inner outer ihInner ihOuter =>
    obtain ⟨admits, goesOn⟩ := meets
    obtain ⟨left, deep⟩ := ihInner (body_meets callee us ds)
    obtain ⟨left', deep'⟩ := ihOuter (goesOn a left)
    have nested : caller.groups + n ≤ ts.countP (·.kind = .lparen) :=
      Nat.le_trans (Nat.add_le_add_left deep _) admits.nested
    exact ⟨left', Nat.max_le.mpr ⟨nested, deep'⟩⟩

theorem Returns.leaves {call : Call} {ts : List Token} {ds : Diagnostics} {n : Nat} {a : Answer}
    (returns : Returns call ts ds n a) : call.Leaves ts a :=
  (returns.outcome (body_meets call ts ds)).1

/-- What is left of a call comes back if all smaller calls do. -/
theorem Code.Meets.exists_run {caller : Call} {ts : List Token}
    (smaller : ∀ callee us ds, callee.measure us < caller.measure ts →
      ∃ n a, Returns callee us ds n a)
    {code : Code} (meets : code.Meets caller ts) : ∃ n a, Runs caller code n a := by
  induction code with
  | done a => exact ⟨0, a, .done a⟩
  | call callee us ds next ih =>
    obtain ⟨admits, goesOn⟩ := meets
    obtain ⟨n, a, inner⟩ := smaller callee us ds admits.smaller
    obtain ⟨m, b, outer⟩ := ih a (goesOn a inner.leaves)
    exact ⟨_, b, .call inner outer⟩

theorem exists_returns (call : Call) (ts : List Token) (ds : Diagnostics) :
    ∃ n a, Returns call ts ds n a :=
  (body_meets call ts ds).exists_run fun callee us ds _ => exists_returns callee us ds
termination_by call.measure ts

def answer {ts : List Token} : Option (Parsed ts) × Diagnostics → Answer
  | (some p, ds) => (some (p.tree, p.rest), ds)
  | (none, ds) => (none, ds)

/-- A rule gives the answer that a call comes back with, where fewer `(` than `bound` lie ahead. -/
def Computes (call : Call) (bound : Nat) (rule : Rule) : Prop :=
  ∀ ts ds, ts.countP (·.kind = .lparen) < bound → ∃ n, Returns call ts ds n (answer (rule ts ds))

theorem front?_of_next {asked : Kind → Bool} {ts : List Token}
    (absent : Next (fun t => asked t.kind = false) ts) : front? asked ts = none := by
  cases ts with
  | nil => rfl
  | cons t ts => simp [front?, absent t rfl]

theorem front?_cons {asked : Kind → Bool} {t : Token} (present : asked t.kind = true)
    (ts : List Token) : front? asked (t :: ts) = some (t, ts) := by
  simp [front?, present]

theorem Returns.of_body {call : Call} {ts : List Token} {ds : Diagnostics} {code : Code} {n : Nat}
    {a : Answer} (does : body call ts ds = code) (run : Runs call code n a) :
    Returns call ts ds n a := by
  rw [Returns, does]
  exact run

theorem closing_returns (inner : Tree) (ts : List Token) (ds : Diagnostics) :
    Returns (.closing inner) ts ds 0
      (some (inner, (closeParen ts ds).1), (closeParen ts ds).2) := by
  by_cases absent : NoClose ts
  · have front : front? (· = .rparen) ts = none :=
      front?_of_next fun t first => decide_eq_false (absent t first)
    rw [closeParen_of_noClose absent]
    exact .of_body (by rw [body, front]) (.done _)
  · obtain ⟨t, rest, rfl, present⟩ := exists_of_not_next absent
    have closes : t.kind = .rparen := Classical.not_not.mp present
    rw [closeParen_of_rparen closes]
    exact .of_body (by rw [body, front?_cons (by simp [closes])]) (.done _)

theorem ending_returns (inner : Tree) (ts : List Token) (ds : Diagnostics) :
    ∃ rest, Returns (.ending inner) ts ds 0 (some (inner, rest), checkEnd ts ds) ∧
      (rest = ts ↔ Next (fun t => t.kind ≠ .eof) ts) := by
  by_cases absent : Next (fun t => t.kind ≠ .eof) ts
  · have front : front? (· = .eof) ts = none :=
      front?_of_next fun t first => decide_eq_false (absent t first)
    exact ⟨ts, .of_body (by rw [body, front]) (.done _), iff_of_true rfl absent⟩
  · obtain ⟨t, rest, rfl, present⟩ := exists_of_not_next absent
    have marker : t.kind = .eof := Classical.not_not.mp present
    refine ⟨rest, ?_, iff_of_false (List.ne_cons_self) absent⟩
    rw [checkEnd_atEnd (by simp [Next, marker])]
    exact .of_body (by rw [body, front?_cons (by simp [marker])]) (.done _)

section Loop

variable {level : Level} {left right : Tree} {op : Token} {ts operand rest : List Token}
  {ds ds' : Diagnostics} {n : Nat}

theorem round_outside (outside : Next (fun t => level.joins t.kind = false) ts) :
    Returns (.round level left) ts ds 0 (none, ds) :=
  .of_body (by rw [body, front?_of_next outside]) (.done _)

theorem body_round (shape : ts = op :: operand) (joined : level.joins op.kind = true) :
    body (.round level left) ts ds =
      .call level.unit operand ds (andThen fun right rest ds =>
        .done (some (.node left op right, rest), ds)) := by
  rw [body, shape, front?_cons joined]

/-- A round whose operand is missing leaves its operator unread. -/
theorem round_gives_up (left : Tree) (shape : ts = op :: operand)
    (joined : level.joins op.kind = true)
    (failed : Returns level.unit operand ds n (none, ds')) :
    ∃ n, Returns (.round level left) ts ds n (none, ds') :=
  ⟨_, .of_body (body_round shape joined) (.call failed (.done _))⟩

theorem round_joins (left : Tree) (shape : ts = op :: operand) (joined : level.joins op.kind = true)
    (read : Returns level.unit operand ds n (some (right, rest), ds')) :
    ∃ n, Returns (.round level left) ts ds n (some (.node left op right, rest), ds') :=
  ⟨_, .of_body (body_round shape joined) (.call read (.done _))⟩

theorem loop_ends (gaveUp : Returns (.round level left) ts ds n (none, ds')) :
    ∃ n, Returns (.loop level left) ts ds n (some (left, ts), ds') :=
  ⟨_, .call gaveUp (.done _)⟩

theorem loop_goes_on {m : Nat} {a : Answer}
    (round : Returns (.round level left) ts ds n (some (right, rest), ds'))
    (further : Returns (.loop level right) rest ds' m a) :
    ∃ n, Returns (.loop level left) ts ds n a :=
  ⟨_, .call round (.call further (.done _))⟩

variable {unit : Rule} {bound : Nat}

theorem loop_computes (units : Computes level.unit bound unit) (p : Parsed ts) (ds : Diagnostics)
    (few : p.rest.countP (·.kind = .lparen) < bound) :
    ∃ n, Returns (.loop level p.tree) p.rest ds n
      (answer (some (extend level.joins unit p ds).1, (extend level.joins unit p ds).2)) := by
  by_cases outside : Next (fun t => level.joins t.kind = false) p.rest
  · rw [extend_of_outside ds outside]
    exact loop_ends (round_outside outside)
  · obtain ⟨op, operand, shape, present⟩ := exists_of_not_next outside
    have joined : level.joins op.kind = true := Bool.of_not_eq_false present
    have behind : operand <:+ p.rest := shape ▸ List.suffix_cons op operand
    have fewer := Nat.lt_of_le_of_lt behind.sublist.countP_le few
    obtain ⟨n, read⟩ := units operand ds fewer
    match result : unit operand ds with
    | (none, ds') =>
      rw [result] at read
      rw [extend_of_none shape joined result]
      obtain ⟨n, gaveUp⟩ := round_gives_up p.tree shape joined read
      exact loop_ends gaveUp
    | (some q, ds') =>
      rw [result] at read
      have smaller : q.rest.length < p.rest.length := by
        rw [shape]
        exact Nat.lt_succ_of_lt q.rest_lt
      have part : q.rest <:+ operand := (read.leaves q.tree q.rest rfl).1
      have fewest := Nat.lt_of_le_of_lt (part.trans behind).sublist.countP_le few
      rw [extend_of_some shape joined result (Nat.lt_trans smaller p.rest_lt)]
      obtain ⟨n, round⟩ := round_joins p.tree shape joined read
      obtain ⟨m, further⟩ := loop_computes units ⟨.node p.tree op q.tree, q.rest, _⟩ ds' fewest
      exact loop_goes_on round further
termination_by p.rest.length

theorem chain_computes (units : Computes level.unit bound unit) :
    Computes (.chain level) bound (chain level.joins unit) := by
  intro ts ds few
  obtain ⟨n, read⟩ := units ts ds few
  unfold chain
  match result : unit ts ds with
  | (none, ds') =>
    rw [result] at read
    exact ⟨_, .call read (.done _)⟩
  | (some p, ds') =>
    rw [result] at read
    have part : p.rest <:+ ts := (read.leaves p.tree p.rest rfl).1
    have fewer := Nat.lt_of_le_of_lt part.sublist.countP_le few
    obtain ⟨m, further⟩ := loop_computes units p ds' fewer
    exact ⟨_, .call read (.call further (.done _))⟩

end Loop

section Group

variable {t : Token} {ts rest : List Token} {inner : Tree} {ds ds' : Diagnostics} {n : Nat}

theorem group_absent (absent : Next (fun t => t.kind ≠ .lparen) ts) :
    Returns .group ts ds 0 (none, ds) := by
  have front : front? (· = .lparen) ts = none :=
    front?_of_next fun t first => decide_eq_false (absent t first)
  exact .of_body (by rw [body, front]) (.done _)

theorem body_group (opens : t.kind = .lparen) :
    body .group (t :: ts) ds =
      .call (.chain .sum) ts ds (andThen fun t rest ds => .call (.closing t) rest ds .done) := by
  rw [body, front?_cons (by simp [opens])]

theorem group_gives_up (opens : t.kind = .lparen)
    (failed : Returns (.chain .sum) ts ds n (none, ds')) :
    ∃ n, Returns .group (t :: ts) ds n (none, ds') :=
  ⟨_, .of_body (body_group opens) (.call failed (.done _))⟩

/-- A group ends in front of a `)` that is missing. -/
theorem group_closes (opens : t.kind = .lparen)
    (read : Returns (.chain .sum) ts ds n (some (inner, rest), ds')) :
    ∃ n, Returns .group (t :: ts) ds n
      (some (inner, (closeParen rest ds').1), (closeParen rest ds').2) :=
  ⟨_, .of_body (body_group opens) (.call read (.call (closing_returns inner rest ds') (.done _)))⟩

theorem factor_reads_operand (word : t.kind.isOperand = true) :
    Returns .factor (t :: ts) ds 0 (some (.leaf t, ts), ds) :=
  .of_body (by rw [body, front?_cons word]) (.done _)

theorem body_factor (absent : Next (fun t => t.kind.isOperand = false) ts) :
    body .factor ts ds = .call .group ts ds
      (orElse fun ds => .done (none, ds.report (.ofRest .missingOperand ts))) := by
  rw [body, front?_of_next absent]

theorem factor_gives_up (absent : Next (fun t => t.kind.isOperand = false) ts)
    (failed : Returns .group ts ds n (none, ds')) :
    ∃ n, Returns .factor ts ds n (none, ds'.report (.ofRest .missingOperand ts)) :=
  ⟨_, .of_body (body_factor absent) (.call failed (.done _))⟩

theorem factor_groups (absent : Next (fun t => t.kind.isOperand = false) ts)
    (read : Returns .group ts ds n (some (inner, rest), ds')) :
    ∃ n, Returns .factor ts ds n (some (inner, rest), ds') :=
  ⟨_, .of_body (body_factor absent) (.call read (.done _))⟩

/-- The rule inside a group has one fewer `(` in front of it. -/
theorem factor_computes {inner : Rule} {bound : Nat}
    (computes : Computes (.chain .sum) bound inner) :
    Computes .factor (bound + 1) (factor inner) := by
  intro ts ds few
  by_cases absent : NoOperand ts
  · rw [factor_of_noOperand absent]
    have empty : Returns .group ts ds 0 (none, ds) :=
      group_absent fun t first => (absent t first).2
    exact factor_gives_up
      (fun t first => t.kind.isOperand_eq_false_iff.mpr (absent t first).1) empty
  · obtain ⟨t, rest, rfl, present⟩ := exists_of_not_next absent
    by_cases kind : t.kind = .number ∨ t.kind = .identifier
    · have word : t.kind.isOperand = true := t.kind.isOperand_iff.mpr kind
      rw [factor_of_operand kind]
      exact ⟨0, factor_reads_operand word⟩
    · have opens : t.kind = .lparen := Classical.not_not.mp fun other => present ⟨kind, other⟩
      have fewer : rest.countP (·.kind = .lparen) < bound := by simpa [opens] using few
      have noWord : Next (fun t => t.kind.isOperand = false) (t :: rest) := by
        intro u first
        cases first
        exact t.kind.isOperand_eq_false_iff.mpr kind
      obtain ⟨n, read⟩ := computes rest ds fewer
      match result : inner rest ds with
      | (none, ds') =>
        rw [result] at read
        rw [factor_of_none opens result]
        obtain ⟨n, failed⟩ := group_gives_up opens read
        exact factor_gives_up noWord failed
      | (some p, ds') =>
        rw [result] at read
        have shorter := Nat.lt_of_le_of_lt (closeParen_length_le p.rest ds') p.rest_lt
        rw [factor_of_some opens result rfl (Nat.lt_succ_of_lt shorter)]
        obtain ⟨n, closed⟩ := group_closes opens read
        exact factor_groups noWord closed

end Group

theorem sum_computes {inner : Rule} {bound : Nat} (computes : Computes (.chain .sum) bound inner) :
    Computes (.chain .sum) (bound + 1) (sum inner) := by
  have terms : Computes (.chain .product) (bound + 1) (term inner) :=
    chain_computes (factor_computes computes)
  exact chain_computes terms

theorem expr_computes (depth : Nat) : Computes (.chain .sum) (depth + 1) (expr depth) := by
  induction depth with
  | zero => exact sum_computes fun ts ds few => (Nat.not_lt_zero _ few).elim
  | succ depth ih => exact sum_computes ih

theorem whole_computes (ts : List Token) :
    ∃ n rest, Returns .whole ts [] n
      ((parse ts).tree.map (fun t => (t, rest)), (parse ts).diagnostics) := by
  obtain ⟨n, read⟩ := expr_computes _ ts [] (Nat.lt_succ_self (ts.countP (·.kind = .lparen)))
  match result : expr (ts.countP (·.kind = .lparen)) ts [] with
  | (none, ds) =>
    rw [result] at read
    obtain ⟨gone, reports⟩ := parse_of_none result
    rw [gone, reports]
    exact ⟨_, [], .call read (.done _)⟩
  | (some p, ds) =>
    rw [result] at read
    obtain ⟨kept, reports⟩ := parse_of_some result
    obtain ⟨rest, ended, -⟩ := ending_returns p.tree p.rest ds
    rw [kept, reports]
    exact ⟨_, rest, .call read (.call ended (.done _))⟩

theorem closeParen_eq_iff (ts : List Token) (ds : Diagnostics) :
    (closeParen ts ds).1 = ts ↔ NoClose ts := by
  by_cases absent : NoClose ts
  · rw [closeParen_of_noClose absent]
    exact iff_of_true rfl absent
  · obtain ⟨t, rest, rfl, present⟩ := exists_of_not_next absent
    rw [closeParen_of_rparen (Classical.not_not.mp present)]
    exact iff_of_false List.ne_cons_self absent

/-- Every call returns, on any tokens and whatever was reported before, with one answer. Its groups lie
no deeper in one another than the tokens have `(`, where a call of a group that finds no `(` counts
for none, as no call lies in it. A call leaves a shorter end of its tokens where it has read something.
What recovers from a missing `)` or from words left over always succeeds, also without reading. The
rules and the parse give the answers of their calls. -/
theorem calls_return (ts : List Token) (ds : Diagnostics) :
    (∀ call : Call, ∃ n a, Returns call ts ds n a ∧
      (∀ m b, Returns call ts ds m b → m = n ∧ b = a) ∧
      n ≤ ts.countP (·.kind = .lparen) ∧
      ∀ t rest, a.1 = some (t, rest) → rest <:+ ts ∧ rest.length + call.least ≤ ts.length) ∧
    (∀ inner, ∃ n rest ds', Returns (.closing inner) ts ds n (some (inner, rest), ds') ∧
      (rest = ts ↔ NoClose ts)) ∧
    (∀ inner, ∃ n rest ds', Returns (.ending inner) ts ds n (some (inner, rest), ds') ∧
      (rest = ts ↔ Next (fun t => t.kind ≠ .eof) ts)) ∧
    (∀ depth, ts.countP (·.kind = .lparen) ≤ depth →
      (∃ n, Returns (.chain .sum) ts ds n (answer (expr depth ts ds))) ∧
      (∃ n, Returns (.chain .product) ts ds n (answer (term (expr depth) ts ds))) ∧
      ∃ n, Returns .factor ts ds n (answer (factor (expr depth) ts ds))) ∧
    ∃ n rest, Returns .whole ts [] n
      ((parse ts).tree.map (fun t => (t, rest)), (parse ts).diagnostics) := by
  refine ⟨?returns, ?closing, ?ending, ?rules, whole_computes ts⟩
  case returns =>
    intro call
    obtain ⟨n, a, run⟩ := exists_returns call ts ds
    obtain ⟨left, few⟩ := run.outcome (body_meets call ts ds)
    exact ⟨n, a, run, fun m b other => run.unique other, few, left⟩
  case closing =>
    intro inner
    exact ⟨0, _, _, closing_returns inner ts ds, closeParen_eq_iff ts ds⟩
  case ending =>
    intro inner
    obtain ⟨rest, ended, reads⟩ := ending_returns inner ts ds
    exact ⟨0, rest, _, ended, reads⟩
  case rules =>
    intro depth few
    have below := Nat.lt_succ_of_le few
    have factors := factor_computes (expr_computes depth)
    have terms : Computes (.chain .product) (depth + 2) (term (expr depth)) :=
      chain_computes factors
    exact ⟨expr_computes depth ts ds below, terms ts ds (Nat.lt_succ_of_lt below),
      factors ts ds (Nat.lt_succ_of_lt below)⟩

/-- The tokens of `(1*` without an end marker. The group is read up to its operator. -/
def cut : List Token := [⟨.lparen, "(", ⟨0, 1⟩⟩, ⟨.number, "1", ⟨1, 2⟩⟩, ⟨.star, "*", ⟨2, 3⟩⟩]

theorem calls_return_cut :
    (∃ n rest, n ≤ 1 ∧ Returns .whole cut [] n (some (.leaf ⟨.number, "1", ⟨1, 2⟩⟩, rest),
      [⟨.missingOperand, "", ⟨0, 0⟩⟩, ⟨.missingParen, "*", ⟨2, 3⟩⟩])) ∧
    cut.countP (·.kind = .lparen) ≤ 1 ∧
    ∃ n, Returns .factor cut [] n (answer (factor (expr 1) cut [])) := by
  obtain ⟨returns, _, _, rules, n, rest, run⟩ := calls_return cut []
  have kept : (parse cut).tree = some (.leaf ⟨.number, "1", ⟨1, 2⟩⟩) := by decide +kernel
  have reports : (parse cut).diagnostics =
      [⟨.missingOperand, "", ⟨0, 0⟩⟩, ⟨.missingParen, "*", ⟨2, 3⟩⟩] := by decide +kernel
  rw [kept, reports] at run
  obtain ⟨m, a, _, unique, shallow, _⟩ := returns .whole
  obtain ⟨rfl, rfl⟩ := unique n _ run
  have few : cut.countP (·.kind = .lparen) ≤ 1 := by decide
  exact ⟨⟨n, rest, Nat.le_trans shallow few, run⟩, few, (rules 1 few).2.2⟩

end Grammar

end Calculator
