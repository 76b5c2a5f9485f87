import Mathlib.Data.List.Induction
import Calculator.Proofs.Parsing

set_option autoImplicit false

namespace Calculator

namespace Diagnostics

/-- What is kept of some reports that are made one after the other. -/
def ofReports (reports : List Diagnostic) : Diagnostics := reports.foldl report []

/-- The reports that start behind every report in front of them. -/
def leaders (reports : List Diagnostic) : List Diagnostic :=
  (reports.zipIdx.filter fun entry =>
    (reports.take entry.2).all fun earlier =>
      earlier.position.start < entry.1.position.start).map Prod.fst

theorem ofReports_append (reports : List Diagnostic) (d : Diagnostic) :
    ofReports (reports ++ [d]) = (ofReports reports).report d := List.foldl_append

/-- Whether a report leads does not depend on those behind it. -/
theorem leaders_append (reports : List Diagnostic) (d : Diagnostic) :
    leaders (reports ++ [d]) =
      leaders reports ++ if reports.all (·.position.start < d.position.start) then [d] else [] := by
  have earlier : ∀ entry ∈ reports.zipIdx,
      (reports ++ [d]).take entry.2 = reports.take entry.2 := by
    intro entry member
    obtain ⟨_, inside, _⟩ := List.mem_zipIdx member
    exact List.take_append_of_le_length (by omega)
  rw [leaders, List.zipIdx_append, List.filter_append, List.map_append, leaders]
  congr 1
  · congr 1
    apply List.filter_congr
    intro entry member
    rw [earlier entry member]
  · by_cases leads : reports.all (·.position.start < d.position.start) = true
    · simp [leads]
    · simp [leads]

theorem max?_append_singleton (ns : List Nat) (n : Nat) :
    (ns ++ [n]).max? = some (ns.max?.elim n (max · n)) := by
  cases ns with
  | nil => rfl
  | cons first ns =>
    rw [List.cons_append, List.max?_cons', List.max?_cons', List.foldl_append]
    rfl

/-- The last report kept is the farthest of all. -/
theorem getLast?_report {ds : Diagnostics} {farthest : Option Nat}
    (known : ds.getLast?.map (·.position.start) = farthest) (d : Diagnostic) :
    (ds.report d).getLast?.map (·.position.start) =
      some (farthest.elim d.position.start (max · d.position.start)) := by
  subst known
  unfold report
  split
  · rename_i empty
    simp [empty]
  · rename_i last final
    split
    · rename_i inFront
      simp only [final, Option.map_some, Option.elim_some, Nat.max_eq_left inFront]
    · rename_i behind
      have further : last.position.start ≤ d.position.start := by omega
      simp only [final, List.getLast?_concat, Option.map_some, Option.elim_some,
        Nat.max_eq_right further]

theorem getLast?_ofReports (reports : List Diagnostic) :
    (ofReports reports).getLast?.map (·.position.start) =
      (reports.map (·.position.start)).max? := by
  induction reports using List.reverseRecOn with
  | nil => rfl
  | append_singleton reports d ih =>
    rw [ofReports_append, List.map_append, List.map_singleton, max?_append_singleton]
    exact getLast?_report ih d

/-- A report lies behind the last one kept exactly if it lies behind all reports before it. -/
theorem report_of_farthest {ds : Diagnostics} {reports : List Diagnostic}
    (farthest : ds.getLast?.map (·.position.start) = (reports.map (·.position.start)).max?)
    (d : Diagnostic) :
    ds.report d =
      ds ++ if reports.all (·.position.start < d.position.start) then [d] else [] := by
  unfold report
  split
  · rename_i empty
    rw [empty, Option.map_none, eq_comm, List.max?_eq_none_iff, List.map_eq_nil_iff] at farthest
    rw [List.getLast?_eq_none_iff.mp empty, farthest]
    rfl
  · rename_i last final
    rw [final, Option.map_some, eq_comm, List.max?_eq_some_iff] at farthest
    obtain ⟨reached, bounded⟩ := farthest
    obtain ⟨e, member, same⟩ := List.mem_map.mp reached
    split
    · rename_i inFront
      have dropped : ¬ reports.all (·.position.start < d.position.start) = true := by
        intro leads
        have before := of_decide_eq_true (List.all_eq_true.mp leads e member)
        omega
      rw [if_neg dropped, List.append_nil]
    · rename_i behind
      have leads : reports.all (·.position.start < d.position.start) = true := by
        refine List.all_eq_true.mpr fun e' member' => decide_eq_true ?_
        have := bounded _ (List.mem_map_of_mem member')
        omega
      rw [if_pos leads]

theorem ofReports_eq_leaders (reports : List Diagnostic) : ofReports reports = leaders reports := by
  induction reports using List.reverseRecOn with
  | nil => rfl
  | append_singleton reports d ih =>
    rw [ofReports_append, report_of_farthest (getLast?_ofReports reports), leaders_append, ih]

example (lexeme : String) :
    (ofReports ([4, 1, 4, 6].map fun n => ⟨.leftover, lexeme, .point n⟩)).map (·.position.start) =
      [4, 6] := rfl

theorem rising_ofReports (reports : List Diagnostic) : Rising (ofReports reports) := by
  induction reports using List.reverseRecOn with
  | nil => exact List.Pairwise.nil
  | append_singleton reports d ih =>
    rw [ofReports_append]
    exact report_rising ih d

/-- Nothing lies in front of the first report. -/
theorem head?_ofReports (reports : List Diagnostic) :
    (ofReports reports).head? = reports.head? := by
  induction reports using List.reverseRecOn with
  | nil => rfl
  | append_singleton reports d ih =>
    rw [ofReports_append]
    cases reports with
    | nil => rfl
    | cons first reports => exact head?_report ih d

end Diagnostics

/-- Further reports add to what was kept as reports do. -/
theorem Echoes.exists_reports {blocked stop : List Token} {ds ds' : Diagnostics}
    (echoes : Echoes blocked stop ds ds') :
    ∃ reports : List Diagnostic,
      (∀ d ∈ reports, ∃ fault rest, rest <:+ blocked ∧ d = .ofRest fault rest) ∧
        ds' = reports.foldl Diagnostics.report ds := by
  induction echoes with
  | none => exact ⟨[], List.forall_mem_nil _, rfl⟩
  | @report _ _ fault rest front _ ih =>
    obtain ⟨reports, places, rfl⟩ := ih
    refine ⟨reports ++ [.ofRest fault rest], ?_, ?_⟩
    · rw [List.forall_mem_append]
      exact ⟨places, List.forall_mem_singleton.mpr ⟨fault, rest, front, rfl⟩⟩
    · rw [List.foldl_append]
      rfl

/-- All that a parse leaves in its diagnostics was reported, at places in the tokens. -/
theorem parse_reports (ts : List Token) :
    ∃ reports : List Diagnostic,
      (∀ d ∈ reports, ∃ fault rest, rest <:+ ts ∧ d = .ofRest fault rest) ∧
        (parse ts).diagnostics = Diagnostics.ofReports reports := by
  have parsed := parsing ts
  generalize parse ts = o at parsed
  cases parsed with
  | accepted d shape ended tree clean => exact ⟨[], List.forall_mem_nil _, clean⟩
  | @rejected front stop fault shape verdict kept echoes =>
    obtain ⟨later, places, known⟩ := echoes.exists_reports
    refine ⟨.ofRest fault stop :: later, ?_, ?_⟩
    · exact List.forall_mem_cons.mpr ⟨⟨fault, stop, ⟨front, shape.symm⟩, rfl⟩, places⟩
    · rw [known, ← Diagnostics.report_nil]
      rfl

/-- Of any reports, those are kept that lie behind every report in front of them. The first one is
kept, the places of those kept rise strictly, and no report is farther than the last one kept. The
diagnostics of a parse are what is kept of its reports, so their places rise for any tokens. -/
theorem reports_keep_leaders :
    (∀ reports : List Diagnostic,
      let kept := Diagnostics.ofReports reports
      kept = Diagnostics.leaders reports ∧ kept.head? = reports.head? ∧ kept.Rising ∧
        kept.getLast?.map (·.position.start) = (reports.map (·.position.start)).max?) ∧
      ∀ ts : List Token, ∃ reports : List Diagnostic,
        (∀ d ∈ reports, ∃ fault rest, rest <:+ ts ∧ d = .ofRest fault rest) ∧
          (parse ts).diagnostics = Diagnostics.ofReports reports ∧ (parse ts).diagnostics.Rising := by
  constructor
  · intro reports kept
    exact ⟨Diagnostics.ofReports_eq_leaders reports, Diagnostics.head?_ofReports reports,
      Diagnostics.rising_ofReports reports, Diagnostics.getLast?_ofReports reports⟩
  · intro ts
    obtain ⟨reports, places, known⟩ := parse_reports ts
    refine ⟨reports, places, known, ?_⟩
    rw [known]
    exact Diagnostics.rising_ofReports reports

end Calculator
