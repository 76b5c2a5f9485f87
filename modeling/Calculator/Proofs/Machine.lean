set_option autoImplicit false

namespace Calculator

/-- The state behind a request, and the reply to it. -/
structure Machine (State Request Reply : Type) where
  next : State → Request → State
  reply : State → Request → Reply

namespace Machine

variable {State Request Reply : Type} (m : Machine State Request Reply)

def after (s : State) (history : List Request) : State := history.foldl m.next s

def replies (s : State) : List Request → List Reply
  | [] => []
  | request :: later => m.reply s request :: replies (m.next s request) later

/-- What is replied to a request depends on the state that the requests in front of it have left, and
on nothing that follows. -/
theorem getElem?_replies (s : State) (before later : List Request) (request : Request) :
    (m.replies s (before ++ request :: later))[before.length]? =
      some (m.reply (m.after s before) request) := by
  induction before generalizing s with
  | nil => rfl
  | cons first before ih => exact ih (m.next s first)

theorem after_append (s : State) (before later : List Request) :
    m.after s (before ++ later) = m.after (m.after s before) later := List.foldl_append

theorem after_of_idle {request : Request} (idle : ∀ s, m.next s request = s) (s : State)
    (before later : List Request) :
    m.after s (before ++ request :: later) = m.after s (before ++ later) := by
  rw [after_append, after_append]
  exact congrArg (m.after · later) (idle (m.after s before))

end Machine

section Last

variable {α β : Type}

def lastOf (name : Char) : List (Char × α) → Option α
  | [] => none
  | (other, a) :: rest => (lastOf name rest).or (if other = name then some a else none)

theorem ite_some_or {p : Prop} [Decidable p] (a : α) (o : Option α) :
    (if p then some a else none).or o = if p then some a else o := by
  split
  · rfl
  · exact Option.none_or

theorem lastOf_append (name : Char) (front back : List (Char × α)) :
    lastOf name (front ++ back) = (lastOf name back).or (lastOf name front) := by
  induction front with
  | nil => simp [lastOf]
  | cons entry front ih => rw [List.cons_append, lastOf, lastOf, ih, Option.or_assoc]

theorem lastOf_isSome_iff (name : Char) (bindings : List (Char × α)) :
    (lastOf name bindings).isSome = true ↔ name ∈ bindings.map Prod.fst := by
  induction bindings with
  | nil => simp [lastOf]
  | cons entry rest ih =>
    obtain ⟨other, a⟩ := entry
    rw [lastOf, Option.isSome_or, Bool.or_eq_true, ih, List.map_cons, List.mem_cons, or_comm]
    by_cases same : other = name
    · simp [same]
    · have apart : name ≠ other := fun equal => same equal.symm
      simp only [same, apart, ↓reduceIte, Option.isSome_none, Bool.false_eq_true, false_or]

theorem lastOf_eq_none {name : Char} {bindings : List (Char × α)}
    (absent : name ∉ bindings.map Prod.fst) : lastOf name bindings = none := by
  rw [← Option.not_isSome_iff_eq_none, lastOf_isSome_iff]
  exact absent

theorem mem_of_lastOf {name : Char} {a : α} {bindings : List (Char × α)}
    (known : lastOf name bindings = some a) : (name, a) ∈ bindings := by
  induction bindings with
  | nil => cases known
  | cons entry rest ih =>
    obtain ⟨other, b⟩ := entry
    rw [lastOf, Option.or_eq_some_iff] at known
    rcases known with later | ⟨_, here⟩
    · exact List.mem_cons_of_mem _ (ih later)
    · by_cases same : other = name
      · rw [if_pos same] at here
        cases here
        rw [same]
        exact List.mem_cons_self
      · rw [if_neg same] at here
        cases here

/-- Where no name is bound twice, a binding is the last one of its name. -/
theorem mem_iff_lastOf {bindings : List (Char × α)}
    (distinct : (bindings.map Prod.fst).Nodup) (name : Char) (a : α) :
    (name, a) ∈ bindings ↔ lastOf name bindings = some a := by
  refine ⟨fun member => ?_, mem_of_lastOf⟩
  induction bindings with
  | nil => cases member
  | cons entry rest ih =>
    obtain ⟨alone, distinct⟩ := List.nodup_cons.mp distinct
    rw [lastOf]
    rcases List.mem_cons.mp member with rfl | later
    · rw [lastOf_eq_none alone, if_pos rfl, Option.none_or]
    · rw [ih distinct later, Option.some_or]

theorem lastOf_map (f : α → β) (name : Char) (bindings : List (Char × α)) :
    lastOf name (bindings.map fun (other, a) => (other, f a)) = (lastOf name bindings).map f := by
  induction bindings with
  | nil => rfl
  | cons entry rest ih =>
    obtain ⟨other, a⟩ := entry
    rw [List.map_cons, lastOf, lastOf, ih, Option.map_or]
    by_cases same : other = name <;> simp [same]

/-- Where no name is bound twice, leaving bindings out does not bring older ones back. -/
theorem lastOf_filterMap (f : Char → α → Option β) (name : Char) {bindings : List (Char × α)}
    (distinct : (bindings.map Prod.fst).Nodup) :
    lastOf name (bindings.filterMap fun entry => (f entry.1 entry.2).map (entry.1, ·)) =
      (lastOf name bindings).bind (f name) := by
  induction bindings with
  | nil => rfl
  | cons entry rest ih =>
    obtain ⟨other, a⟩ := entry
    obtain ⟨alone, distinct⟩ := List.nodup_cons.mp distinct
    have behind := ih distinct
    cases known : f other a with
    | none =>
      simp only [List.filterMap_cons, known, Option.map_none, behind, lastOf]
      by_cases same : other = name
      · subst same
        simp [lastOf_eq_none alone, known]
      · simp [same]
    | some b =>
      simp only [List.filterMap_cons, known, Option.map_some, behind, lastOf]
      by_cases same : other = name
      · subst same
        simp [lastOf_eq_none alone, known]
      · simp [same]

/-- Names that are bound by a function are bound to its values, however often each is named. -/
theorem lastOf_filterMap_names (f : Char → Option α) (name : Char) (names : List Char) :
    lastOf name (names.filterMap fun other => (f other).map (other, ·)) =
      if name ∈ names then f name else none := by
  induction names with
  | nil => rfl
  | cons other rest ih =>
    by_cases same : other = name
    · subst same
      cases known : f other with
      | none => simp [known, ih]
      | some a =>
        simp only [List.filterMap_cons, known, Option.map_some, lastOf, ih, List.mem_cons, true_or,
          ↓reduceIte]
        split
        · rfl
        · rfl
    · have apart : name ≠ other := fun equal => same equal.symm
      cases known : f other with
      | none => simp [known, ih, apart]
      | some a => simp [known, ih, apart, lastOf, same]

end Last

end Calculator
