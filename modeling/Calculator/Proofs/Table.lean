import Mathlib
import Calculator.Proofs.Bindings

set_option autoImplicit false

namespace Calculator

namespace Environment

def after (start : Environment) (history : List (Char × Float)) : Environment :=
  history.foldl (fun env (name, value) => env.insert name value) start

/-- What a name is defined as behind a sequence of definitions: as it was last defined in it, or
else as it was from the start. -/
def defined? (start : Environment) (history : List (Char × Float)) (name : Char) : Option Float :=
  (lastOf name history).or (start.binding? name)

def names (env : Environment) : List Char := env.toList.map Prod.fst

/-- All ways to look into a table agree that it holds `bound`: a name without a value reads as zero,
and the listing goes through all others by code point. -/
structure Holds (env : Environment) (bound : Char → Option Float) : Prop where
  lookup_eq : ∀ name, env.lookup name = (bound name).getD 0
  contains_iff : ∀ name, env.contains name = true ↔ (bound name).isSome = true
  sorted : env.toList.Pairwise fun a b => a.1 < b.1
  mem_iff : ∀ name value,
    (name, value) ∈ env.toList ↔ env.contains name = true ∧ env.lookup name = value

theorem contains_eq_binding? (env : Environment) (name : Char) :
    env.contains name = (env.binding? name).isSome := Std.TreeMap.contains_eq_isSome_getElem?

theorem mem_toList_iff (env : Environment) (name : Char) (value : Float) :
    (name, value) ∈ env.toList ↔ env.binding? name = some value :=
  Std.TreeMap.mem_toList_iff_getElem?_eq_some

theorem binding?_eq_some_iff (env : Environment) (name : Char) (value : Float) :
    env.binding? name = some value ↔ env.contains name = true ∧ env.lookup name = value := by
  rw [contains_eq_binding?, lookup_eq_binding?]
  cases env.binding? name with
  | none => simp
  | some known => simp

theorem mem_toList_iff_lookup (env : Environment) (name : Char) (value : Float) :
    (name, value) ∈ env.toList ↔ env.contains name = true ∧ env.lookup name = value := by
  rw [mem_toList_iff, binding?_eq_some_iff]

theorem holds_binding? (env : Environment) : env.Holds env.binding? where
  lookup_eq := env.lookup_eq_binding?
  contains_iff name := by rw [contains_eq_binding?]
  sorted := env.toList_sorted
  mem_iff := env.mem_toList_iff_lookup

theorem binding?_after (start : Environment) (history : List (Char × Float)) (name : Char) :
    (start.after history).binding? name = start.defined? history name :=
  binding?_insertAll history start name

theorem mem_names_iff (env : Environment) (name : Char) :
    name ∈ env.names ↔ env.contains name = true := by
  rw [names, List.mem_map]
  constructor
  · rintro ⟨⟨_, value⟩, listed, rfl⟩
    exact ((env.mem_toList_iff_lookup _ value).mp listed).1
  · intro known
    exact ⟨(name, env.lookup name), (env.mem_toList_iff_lookup _ _).mpr ⟨known, rfl⟩, rfl⟩

theorem toList_eq_map (env : Environment) :
    env.toList = env.names.map fun name => (name, env.lookup name) := by
  have same : ∀ entry ∈ env.toList, entry = (entry.1, env.lookup entry.1) := by
    rintro ⟨name, value⟩ listed
    rw [((env.mem_toList_iff_lookup name value).mp listed).2]
  calc
    env.toList = env.toList.map id := (List.map_id _).symm
    _ = env.toList.map fun entry => (entry.1, env.lookup entry.1) := List.map_congr_left same
    _ = env.names.map fun name => (name, env.lookup name) := by rw [names, List.map_map]; rfl

/-- Their order leaves no choice in listing some names. -/
theorem names_eq_iff (a b : Environment) :
    a.names = b.names ↔ ∀ name, a.contains name = b.contains name := by
  constructor
  · intro same name
    rw [Bool.eq_iff_iff, ← mem_names_iff, ← mem_names_iff, same]
  · intro same
    have sorted : ∀ env : Environment, env.names.Pairwise (· < ·) :=
      fun env => List.pairwise_map.mpr env.toList_sorted
    refine (sorted a).eq_of_mem_iff (sorted b) fun name => ?_
    rw [mem_names_iff, mem_names_iff, same]

theorem toList_congr {a b : Environment} (same : ∀ name, a.binding? name = b.binding? name) :
    a.toList = b.toList := by
  have known : a.names = b.names := by
    rw [names_eq_iff]
    intro name
    rw [contains_eq_binding?, contains_eq_binding?, same]
  rw [toList_eq_map, toList_eq_map, known]
  refine List.map_congr_left fun name _ => ?_
  rw [lookup_eq_binding?, lookup_eq_binding?, same]

/-- Lists of names with their values are compared name by name and value by value. -/
theorem beq_map_iff (f g : Char → Float) (ns ms : List Char) :
    (ns.map (fun name => (name, f name)) == ms.map (fun name => (name, g name))) = true ↔
      ns = ms ∧ ∀ name ∈ ns, (f name == g name) = true := by
  induction ns generalizing ms with
  | nil => cases ms <;> simp
  | cons n ns ih =>
    cases ms with
    | nil => simp
    | cons m ms =>
      have first : ((n, f n) == (m, g m)) = (n == m && f n == g m) := rfl
      rw [List.map_cons, List.map_cons, List.cons_beq_cons, first, Bool.and_eq_true,
        Bool.and_eq_true, beq_iff_eq, ih, List.cons.injEq, List.forall_mem_cons]
      constructor
      · rintro ⟨⟨rfl, value⟩, rfl, values⟩
        exact ⟨⟨rfl, rfl⟩, value, values⟩
      · rintro ⟨⟨rfl, rfl⟩, value, values⟩
        exact ⟨⟨rfl, value⟩, rfl, values⟩

theorem beq_iff (a b : Environment) :
    (a == b) = true ↔ (∀ name, a.contains name = b.contains name) ∧
      ∀ name, a.contains name = true → (a.lookup name == b.lookup name) = true := by
  have compared : (a == b) = (a.toList == b.toList) := rfl
  rw [compared, toList_eq_map, toList_eq_map, beq_map_iff, names_eq_iff]
  simp only [mem_names_iff]

/-- What is not a number is all that does not equal itself. -/
theorem beq_self_eq_false_iff (a : Environment) :
    (a == a) = false ↔ ∃ name, a.contains name = true ∧ (a.lookup name).isNaN = true := by
  rw [← Bool.not_eq_true, beq_iff]
  constructor
  · intro differs
    by_contra none
    refine differs ⟨fun _ => rfl, fun name known => ?_⟩
    by_contra unequal
    refine none ⟨name, known, ?_⟩
    rw [Float.isNaN_eq_decide_eq_nan, decide_eq_true_iff, ← Float.beq_self_eq_false_iff]
    exact Bool.not_eq_true _ ▸ unequal
  · rintro ⟨name, known, nan⟩ ⟨_, equal⟩
    rw [Float.isNaN_eq_decide_eq_nan, decide_eq_true_iff] at nan
    have unequal := Float.beq_self_eq_false_iff.mpr nan
    rw [equal name known] at unequal
    cases unequal

/-- Equal values for one name leave equal tables equal, whatever the name was bound to before. -/
theorem insert_beq_insert {a b : Environment} {x y : Float} (tables : (a == b) = true)
    (values : (x == y) = true) (name : Char) : (a.insert name x == b.insert name y) = true := by
  obtain ⟨known, equal⟩ := (beq_iff a b).mp tables
  refine (beq_iff _ _).mpr ⟨fun other => ?_, fun other bound => ?_⟩
  · rw [Bool.eq_iff_iff, contains_insert, contains_insert, known]
  · rw [contains_insert] at bound
    rw [lookup_insert, lookup_insert]
    split
    · exact values
    · rename_i apart
      exact equal other (bound.resolve_left apart)

/-- Let names be defined one after the other, from a table with no names or the initial one or any
other. The table then holds what was last defined for each name, or else what it held for it at the
start. Only the last values count: where two sequences of definitions have the same ones, their
tables cannot be told apart. Tables are equal if they hold equal values for the same names. So a
table differs from itself if it holds what is not a number, and only then, and the two zeros make no
difference. -/
theorem table_of_definitions :
    (∀ (start : Environment) history, (start.after history).Holds (start.defined? history)) ∧
      (∀ name, empty.binding? name = none ∧
        initial.binding? name = (lastOf name initialBindings).map Float.ofNat) ∧
      (∀ (start : Environment) history history',
        (∀ name, lastOf name history = lastOf name history') →
        (∀ name, (start.after history).lookup name = (start.after history').lookup name ∧
          (start.after history).contains name = (start.after history').contains name) ∧
        (start.after history).toList = (start.after history').toList) ∧
      (∀ a b : Environment, (a == b) = true ↔ (∀ name, a.contains name = b.contains name) ∧
        ∀ name, a.contains name = true → (a.lookup name == b.lookup name) = true) ∧
      (∀ a : Environment, (a == a) = false ↔
        ∃ name, a.contains name = true ∧ (a.lookup name).isNaN = true) ∧
      (0 : Float) ≠ -0 ∧
      ∀ (a b : Environment) (name : Char), (a == b) = true →
        (a.insert name 0 == b.insert name (-0)) = true := by
  refine ⟨?_, ?_, ?_, beq_iff, beq_self_eq_false_iff, by decide, ?_⟩
  · intro start history
    rw [← funext (binding?_after start history)]
    exact (start.after history).holds_binding?
  · intro name
    exact ⟨binding?_empty name, binding?_initial name⟩
  · intro start history history' same
    have bound : ∀ name,
        (start.after history).binding? name = (start.after history').binding? name := by
      intro name
      rw [binding?_after, binding?_after, defined?, defined?, same]
    refine ⟨fun name => ⟨?_, ?_⟩, toList_congr bound⟩
    · rw [lookup_eq_binding?, lookup_eq_binding?, bound]
    · rw [contains_eq_binding?, contains_eq_binding?, bound]
  · intro a b name equal
    exact insert_beq_insert equal (by decide) name

/-- The name `a` is defined twice in one sequence and once in the other, on the other side of `x`.
-/
theorem table_of_definitions_reordered :
    (initial.after [('a', 1), ('x', 2), ('a', 0 / 0)]).toList =
        (initial.after [('a', 0 / 0), ('x', 2)]).toList ∧
      (initial.after [('a', 0 / 0), ('x', 2)] ==
        initial.after [('a', 0 / 0), ('x', 2)]) = false := by
  obtain ⟨holds, _, order, _, self, _⟩ := table_of_definitions
  constructor
  · refine (order initial _ _ fun name => ?_).2
    by_cases a : 'a' = name
    · subst a
      rfl
    · by_cases x : 'x' = name
      · subst x
        rfl
      · simp [lastOf, a, x]
  · refine (self _).mpr ⟨'a', ?_, ?_⟩
    · exact ((holds initial _).contains_iff 'a').mpr rfl
    · rw [(holds initial _).lookup_eq 'a']
      decide

end Environment

end Calculator
