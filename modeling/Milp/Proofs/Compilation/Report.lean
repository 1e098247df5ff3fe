import Milp.Proofs.Compilation.Rows

/-! What a delivered plan looks like from the outside. Where no two rows share a key, a lookup gives
the one instance at a key; the rows of a constraint are those that were planned for it, and the
report counts them. -/
namespace Milp

/-- A row is found exactly under its own key. -/
theorem CompiledModel.row?_eq_some {s : CompiledModel} (h : (s.rows.map Row.key).Nodup)
    {name : String} {index : Tuple} {r : Row} :
    s.row? name index = some r ↔ r ∈ s.rows ∧ r.key = (name, index) :=
  find?_key_eq_some h

theorem Planned.mem_rows {qs : List (Planned Member)} {r : Row} :
    r ∈ qs.flatMap Planned.rows ↔
      ∃ q ∈ qs, ∃ i ∈ q.expansion.instances, r = ⟨q.name, i⟩ := by
  rw [List.mem_flatMap]
  constructor
  · rintro ⟨q, hq, hr⟩
    obtain ⟨i, hi, rfl⟩ := List.mem_map.mp hr
    exact ⟨q, hq, i, hi, rfl⟩
  · rintro ⟨q, hq, i, hi, rfl⟩
    exact ⟨q, hq, List.mem_map_of_mem hi⟩

private theorem filter_rows (q : Planned Member) (name : String) :
    q.rows.filter (fun r => r.constraint == name) = if q.name = name then q.rows else [] := by
  by_cases h : q.name = name
  · rw [if_pos h, List.filter_eq_self]
    intro r hr
    rw [Planned.constraint_of_mem_rows hr, beq_iff_eq]
    exact h
  · rw [if_neg h, List.filter_eq_nil_iff]
    intro r hr
    rw [Planned.constraint_of_mem_rows hr, beq_iff_eq]
    exact h

private theorem filter_rows_of_notMem {qs : List (Planned Member)} {name : String}
    (h : name ∉ qs.map Planned.name) :
    (qs.flatMap Planned.rows).filter (fun r => r.constraint == name) = [] := by
  rw [List.filter_eq_nil_iff]
  intro r hr
  obtain ⟨q, hq, hr⟩ := List.mem_flatMap.mp hr
  rw [Planned.constraint_of_mem_rows hr, beq_iff_eq]
  rintro rfl
  exact h (List.mem_map_of_mem hq)

/-- Of planned constraints with unique names, each owns the rows that were planned for it. -/
theorem filter_flatMap_rows {qs : List (Planned Member)} (hnames : (qs.map Planned.name).Nodup)
    {q : Planned Member} (hq : q ∈ qs) :
    (qs.flatMap Planned.rows).filter (fun r => r.constraint == q.name) = q.rows := by
  induction qs with
  | nil => cases hq
  | cons p ps ih =>
    rw [List.map_cons, List.nodup_cons] at hnames
    rw [List.flatMap_cons, List.filter_append, filter_rows]
    rcases List.mem_cons.mp hq with rfl | hq
    · rw [if_pos rfl, filter_rows_of_notMem hnames.1, List.append_nil]
    · have hne : p.name ≠ q.name := fun he => hnames.1 (he ▸ List.mem_map_of_mem hq)
      rw [if_neg hne, ih hnames.2 hq, List.nil_append]

theorem Report.instances_eq_sum (r : Report) :
    r.instances = (r.constraints.map ConstraintReport.instances).sum := by
  rw [instances, List.sum_eq_foldl, List.foldl_map]

/-- The report counts as many instances as there are planned rows. -/
theorem Model.instances_report (m : Model) (qs : List (Planned Member)) (value : Resolved Member) :
    (m.report qs value).instances = (qs.flatMap Planned.rows).length := by
  rw [Report.instances_eq_sum, List.length_flatMap, report, List.map_map]
  congr 1
  refine List.map_congr_left fun q _ => ?_
  exact (List.length_map _).symm

end Milp
