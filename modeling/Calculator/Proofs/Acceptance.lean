import Calculator.Proofs.Parsing

set_option autoImplicit false

namespace Calculator

namespace Parsing

variable {ts : List Token} {o : Outcome}

/-- A parse reports something exactly where a scan stops, and the scan says what comes first. -/
theorem diagnosed (p : Parsing ts o) :
    scan true 0 ts = .accepts ∧ o.tree.isSome = true ∧ o.diagnostics = [] ∨
      ∃ fault rest, scan true 0 ts = .stops fault rest ∧
        o.diagnostics.head? = some (.ofRest fault rest) := by
  cases p with
  | accepted d shape ended tree clean =>
    refine .inl ⟨?_, by rw [tree]; rfl, clean⟩
    rw [shape, d.scan_yield, scan_atEnd ended]
  | rejected shape verdict kept echoes => exact .inr ⟨_, _, verdict, echoes.head?_eq rfl⟩

/-- Without a diagnostic, the tokens up to the end are a derivation's. -/
theorem derivation_of_clean (p : Parsing ts o) (clean : o.diagnostics = []) :
    ∃ d : Derivation .expr, d.yield = beforeEnd ts ∧ o.tree = some d.tree := by
  cases p with
  | accepted d shape ended tree _ => exact ⟨d, by rw [shape, d.beforeEnd_yield ended], tree⟩
  | rejected shape verdict kept echoes => exact (echoes.ne_nil clean).elim

end Parsing

theorem beforeEnd_append (ts : List Token) : ∃ rest, ts = beforeEnd ts ++ rest ∧ AtEnd rest := by
  refine ⟨ts.dropWhile (·.kind ≠ .eof), List.takeWhile_append_dropWhile.symm, ?_⟩
  intro t first
  have marker := List.head?_dropWhile_not (·.kind ≠ .eof) ts
  rw [first] at marker
  simpa using marker

theorem strict_of_derivation {ts : List Token} (d : Derivation .expr)
    (yields : d.yield = beforeEnd ts) : (parse ts).strict = .ok d.tree := by
  obtain ⟨rest, shape, ended⟩ := beforeEnd_append ts
  have accepted : scan true 0 ts = .accepts := by
    rw [shape, ← yields, d.scan_yield, scan_atEnd ended]
  rw [Outcome.strict_eq_ok_iff]
  rcases (parsing ts).diagnosed with ⟨_, _, clean⟩ | ⟨fault, stop, stops, _⟩
  · obtain ⟨d', yields', stands⟩ := (parsing ts).derivation_of_clean clean
    obtain rfl := Derivation.yield_injective .expr (yields.trans yields'.symm)
    exact ⟨stands, clean⟩
  · rw [accepted] at stops
    cases stops

/-- Tokens parse strictly to a tree exactly where those in front of the first end marker derive it.
No two derivations derive the same tokens. -/
theorem accepts_iff_derivation :
    (∀ ts t, (parse ts).strict = .ok t ↔
      ∃ d : Derivation .expr, d.yield = beforeEnd ts ∧ d.tree = t) ∧
    Function.Injective (Derivation.yield : Derivation .expr → List Token) := by
  refine ⟨?_, Derivation.yield_injective .expr⟩
  intro ts t
  constructor
  · intro accepted
    obtain ⟨tree, clean⟩ := Outcome.strict_eq_ok_iff.mp accepted
    obtain ⟨d, yields, stands⟩ := (parsing ts).derivation_of_clean clean
    rw [tree] at stands
    cases stands
    exact ⟨d, yields, rfl⟩
  · rintro ⟨d, yields, rfl⟩
    exact strict_of_derivation d yields

theorem Diagnostic.ofRest_eq (fault : Fault) (rest : List Token) :
    ofRest fault rest =
      match rest with
      | [] => ⟨fault, "", ⟨0, 0⟩⟩
      | t :: _ => ⟨fault, t.lexeme, t.span⟩ := by
  cases rest with
  | nil => rfl
  | cons t rest => rfl

theorem strict_of_stops {ts rest : List Token} {fault : Fault}
    (stops : scan true 0 ts = .stops fault rest) :
    (parse ts).strict = .error (.ofRest fault rest) := by
  rw [Outcome.strict_eq_error_iff]
  rcases (parsing ts).diagnosed with ⟨accepted, _, _⟩ | ⟨fault', rest', verdict, first⟩
  · rw [accepted] at stops
    cases stops
  · rw [stops] at verdict
    cases verdict
    exact first

/-- The strict reading of a parse is the verdict of a scan. It accepts where the scan does, and then
nothing is reported; else it fails with the scan's fault at the token where the scan stops, and that
is the first diagnostic. So every parse leaves a tree or a diagnostic. -/
theorem strict_eq_scan (ts : List Token) :
    (match scan true 0 ts with
    | .accepts =>
      (∃ t, (parse ts).strict = .ok t) ∧ (parse ts).diagnostics = [] ∧ (parse ts).isClean = true
    | .stops fault rest =>
      let d : Diagnostic :=
        match rest with
        | [] => ⟨fault, "", ⟨0, 0⟩⟩
        | t :: _ => ⟨fault, t.lexeme, t.span⟩
      (parse ts).strict = .error d ∧ (parse ts).diagnostics.head? = some d ∧
        (parse ts).isClean = false) ∧
      ¬ ((parse ts).tree = none ∧ (parse ts).diagnostics = []) := by
  rcases (parsing ts).diagnosed with ⟨accepted, some, clean⟩ | ⟨fault, rest, stops, first⟩
  · obtain ⟨t, tree⟩ := Option.isSome_iff_exists.mp some
    rw [accepted]
    refine ⟨⟨⟨t, Outcome.strict_eq_ok_iff.mpr ⟨tree, clean⟩⟩, clean, ?_⟩, ?_⟩
    · rw [Outcome.isClean, some, clean]
      rfl
    · rintro ⟨gone, _⟩
      rw [gone] at tree
      cases tree
  · have reported : (parse ts).diagnostics ≠ [] := by
      intro empty
      rw [empty] at first
      cases first
    rw [stops]
    have strict := strict_of_stops stops
    rw [Diagnostic.ofRest_eq] at strict first
    refine ⟨⟨strict, first, ?_⟩, fun failed => reported failed.2⟩
    rw [Outcome.isClean, List.isEmpty_eq_false_iff.mpr reported, Bool.and_false]

end Calculator
