import Datacenter.MigrationPlan

/-!
# What a plan contains

A plan moves a machine if one of its moves does. Of the moves that are planned one after the other,
a plan has the first one of every machine (`exists_moves_insertAll`, `contains_insertAll`); so moves
of different machines that the plan does not move yet are planned as they are (`moves_insertAll`).
-/

namespace Datacenter.MigrationPlan

theorem contains_iff {plan : MigrationPlan} {vm : Nat} :
    plan.contains vm = true ↔ vm ∈ plan.moves.map Prod.fst := by
  rw [contains, find?, Option.isSome_map, List.find?_isSome, List.mem_map]
  simp only [beq_iff_eq]

/-- Machines that do not move yet keep the destinations they are given. -/
theorem moves_insertAll {plan : MigrationPlan} {moves : List (Nat × Nat)}
    (h : ((plan.moves ++ moves).map Prod.fst).Nodup) :
    (plan.insertAll moves).moves = plan.moves ++ moves := by
  induction moves generalizing plan with
  | nil => simp [insertAll]
  | cons m moves ih =>
    have hnew : plan.contains m.1 = false := by
      rw [Bool.eq_false_iff, ne_eq, contains_iff]
      intro hmem
      rw [List.map_append, List.nodup_append] at h
      exact h.2.2 _ hmem _ List.mem_cons_self rfl
    have hinsert : plan.insert m.1 m.2 = { plan with moves := plan.moves ++ [m] } := by
      rw [insert, insert?, hnew]
      rfl
    rw [insertAll, List.foldl_cons, hinsert, ← insertAll, ih (by simpa using h)]
    simp

/-- A move that is planned comes last, unless the machine moves already. -/
theorem moves_insert (plan : MigrationPlan) (vm host : Nat) :
    (plan.insert vm host).moves
      = if plan.contains vm then plan.moves else plan.moves ++ [(vm, host)] := by
  rw [insert, insert?]
  split <;> rfl

/-- What is planned after some moves depends on these moves only. -/
theorem moves_insertAll_congr {plan plan' : MigrationPlan} (h : plan.moves = plan'.moves)
    (moves : List (Nat × Nat)) : (plan.insertAll moves).moves = (plan'.insertAll moves).moves := by
  induction moves generalizing plan plan' with
  | nil => exact h
  | cons m moves ih =>
    apply ih
    rw [moves_insert, moves_insert, contains, contains, find?, find?, h]

theorem insertAll_append (plan : MigrationPlan) (moves more : List (Nat × Nat)) :
    plan.insertAll (moves ++ more) = (plan.insertAll moves).insertAll more :=
  List.foldl_append

/-- Some of the moves are planned, in their order. -/
theorem exists_moves_insertAll (plan : MigrationPlan) (moves : List (Nat × Nat)) :
    ∃ planned, planned.Sublist moves ∧ (plan.insertAll moves).moves = plan.moves ++ planned := by
  induction moves generalizing plan with
  | nil => exact ⟨[], .slnil, (List.append_nil _).symm⟩
  | cons m moves ih =>
    obtain ⟨planned, hsub, hplanned⟩ := ih (plan.insert m.1 m.2)
    rw [moves_insert] at hplanned
    split at hplanned
    · exact ⟨planned, hsub.cons m, hplanned⟩
    · refine ⟨m :: planned, hsub.cons_cons m, ?_⟩
      rw [insertAll, List.foldl_cons, ← insertAll, hplanned, List.append_assoc,
        List.singleton_append]

theorem contains_insertAll (plan : MigrationPlan) (moves : List (Nat × Nat)) (vm : Nat) :
    (plan.insertAll moves).contains vm = true
      ↔ plan.contains vm = true ∨ vm ∈ moves.map Prod.fst := by
  induction moves generalizing plan with
  | nil => simp [insertAll]
  | cons m moves ih =>
    have hinsert : (plan.insert m.1 m.2).contains vm = true
        ↔ plan.contains vm = true ∨ vm = m.1 := by
      rw [contains_iff, contains_iff, moves_insert]
      split
      case isTrue hold =>
        rw [contains_iff] at hold
        exact ⟨.inl, fun h => h.elim id fun hvm => hvm ▸ hold⟩
      case isFalse => simp
    rw [insertAll, List.foldl_cons, ← insertAll, ih, hinsert, List.map_cons, List.mem_cons, or_assoc]

theorem switchOff_insertAll (plan : MigrationPlan) (moves : List (Nat × Nat)) :
    (plan.insertAll moves).switchOff = plan.switchOff := by
  induction moves generalizing plan with
  | nil => rfl
  | cons m moves ih =>
    rw [insertAll, List.foldl_cons, ← insertAll, ih, insert, insert?]
    split <;> rfl

end Datacenter.MigrationPlan
