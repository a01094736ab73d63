import Datacenter.Proofs.Processor.Isolation

/-!
# Capacity that belongs to nobody

What a processor under space sharing reports as available is meant to be the capacity of the working
cores that belong to no machine, its *spare* capacity. Free cores are looked for on behalf of a
machine, whose own cores count as free, and the largest id stands for nobody there. A machine may
have this id all the same, and then its cores are reported as available although it holds them
(`Processor.exists_available_held`). As long as no such machine is registered the report is exact,
and what it is made up of are the idle cores (`Processor.reports_spare`).

Cores of a negative capacity are no help to anybody. They are left out of the sum, and they do not
matter for the maximum, which is not negative.
-/

namespace Datacenter

variable {α : Type} [Scalar α]

open Scalar

/-- What is below zero does not matter for the largest of some numbers and zero. -/
theorem Scalar.largest_filter_nonneg [OrderedScalar α] (xs : List α) :
    largest (xs.filter fun x => decide (0 ≤ x)) = largest xs := by
  have hfold : ∀ x : α, 0 ≤ x →
      (xs.filter fun x => decide (0 ≤ x)).foldl larger x = xs.foldl larger x := by
    induction xs with
    | nil => exact fun _ _ => rfl
    | cons y ys ih =>
      intro x hx
      have hlarger : larger x y = if x < y then y else x := by
        rw [larger, OrderedScalar.beq_of_le hx, Bool.not_true, Bool.or_false]
        simp only [decide_eq_true_eq]
      rw [List.filter_cons, List.foldl_cons, hlarger]
      by_cases hxy : x < y
      · have hy : 0 ≤ y := LawfulScalar.le_trans hx (OrderedScalar.le_of_lt hxy)
        rw [if_pos (decide_eq_true hy), List.foldl_cons, hlarger, if_pos hxy]
        exact ih y hy
      · rw [if_neg hxy, ← ih x hx]
        split
        · rw [List.foldl_cons, hlarger, if_neg hxy]
        · rfl
  exact hfold 0 OrderedScalar.zero_le_zero

namespace SpaceShared

variable {cores : List (Core α)} {a : Assignment}

omit [Scalar α] in
/-- The capacities of the working cores that belong to no machine. -/
def spare (cores : List (Core α)) (a : Assignment) : List α :=
  (cores.zipIdx.filter fun (core, i) => core.isWorking && !(held a).contains i).map (·.1.capacity)

/-- To leave a machine out is to go by the assignment without it. -/
theorem contains_taken (a : Assignment) (except i : Nat) :
    (taken a except).contains i = (held (a.erase except)).contains i := by
  rw [Bool.eq_iff_iff, List.contains_iff_mem, List.contains_iff_mem, mem_taken_iff, mem_held_iff]
  refine exists_congr fun id => exists_congr fun is => ?_
  rw [IdMap.find?_erase]
  by_cases hid : id = except <;> simp [hid]

/-- The free capacities are those that would be spare without the machine of the largest id. -/
theorem freeCapacities_eq (cores : List (Core α)) (a : Assignment) :
    freeCapacities cores a = (spare cores (a.erase nobody)).filter fun x => decide (0 ≤ x) := by
  have hlookUp : ∀ e ∈ cores.zipIdx.filter (fun (core, i) =>
      !(taken a nobody).contains i && core.isWorking && decide (0 ≤ core.capacity)),
      cores[e.2]?.map (·.capacity) = some e.1.capacity := by
    intro e he
    rw [List.mem_zipIdx_iff_getElem?.mp (List.mem_of_mem_filter he)]
    rfl
  have hread : freeCapacities cores a = (cores.zipIdx.filter fun (core, i) =>
      !(taken a nobody).contains i && core.isWorking && decide (0 ≤ core.capacity)).map
        (·.1.capacity) := by
    rw [freeCapacities, freeCores, List.filterMap_map, ← List.filterMap_eq_map]
    exact List.filterMap_congr hlookUp
  rw [hread, spare, List.filter_map, List.filter_filter]
  congr 1
  refine List.filter_congr fun e _ => ?_
  simp only [contains_taken, Function.comp_apply, Bool.and_comm]

end SpaceShared

namespace Processor

open SpaceShared

variable {p : Processor α} {a : Assignment}

/-- Some capacities are what the processor reports as available. -/
structure Reports (p : Processor α) (free : List α) : Prop where
  available : p.available = sum (free.filter fun x => decide (0 ≤ x))
  maxAvailable : p.maxAvailable = largest free

theorem reports_of_spaceShared [OrderedScalar α] (hd : p.discipline = .spaceShared a) :
    p.Reports (spare p.cores (a.erase nobody)) := by
  have hfree := freeCapacities_eq p.cores a
  constructor
  · rw [available, hd, ← hfree]
  · rw [← largest_filter_nonneg, ← hfree, maxAvailable, hd]

/-- The cores that belong to no machine are the idle ones. -/
theorem spare_eq_idle [Std.Irrefl (α := α) (· < ·)] (hp : p.Reachable)
    (hd : p.discipline = .spaceShared a) :
    spare p.cores a = (p.cores.filter (·.isFree)).map (·.capacity) := by
  have hidle : ∀ e ∈ p.cores.zipIdx,
      (e.1.isWorking && !(held a).contains e.2) = e.1.isFree := by
    intro e he
    have hstatus := status_of_reachable hp hd (List.mem_zipIdx_iff_getElem?.mp he)
    rw [Core.isFree, hstatus]
    cases e.1.isWorking with
    | false => rfl
    | true => by_cases hheld : e.2 ∈ held a <;> simp [hheld]
  have hcores : (p.cores.zipIdx.map Prod.fst).filter (·.isFree)
      = (p.cores.zipIdx.filter fun e => e.1.isFree).map Prod.fst := List.filter_map
  rw [List.zipIdx_map_fst] at hcores
  rw [spare, List.filter_congr hidle, hcores, List.map_map]
  rfl

/-- After every run of a processor under space sharing, over numbers that may be rounded, the
capacity reported as available is that of the working cores that belong to no machine, or to the
machine with the largest id. If no machine of this id is registered, the report is made up of the
cores that belong to no machine, and these are the idle ones. -/
theorem reports_spare [OrderedScalar α] {capacities : List α} {overhead : α}
    {ops : List (Operation α)}
    (fraction : checkFraction .migrationOverhead overhead = .ok overhead)
    (hp : (new (capacities.map .new) (.spaceShared ∅) overhead).performAll ops = .ok p) :
    ∃ a, p.discipline = .spaceShared a ∧ p.Reports (spare p.cores (a.erase nobody))
      ∧ (p.ledger.contains nobody = false → p.Reports (spare p.cores a)
        ∧ spare p.cores a = (p.cores.filter (·.isFree)).map (·.capacity)) := by
  obtain ⟨hreach, -, -, hdedicated⟩ := outcome_of_run (.inr rfl) fraction hp
  obtain ⟨a, ha⟩ := discipline_of_dedicated hdedicated
  refine ⟨a, ha, reports_of_spaceShared ha, fun hnobody => ⟨?_, spare_eq_idle hreach ha⟩⟩
  have habsent : a.find? nobody = none := by
    have hcontains := (dedicates_of_reachable hreach ha).registered nobody
    rwa [hnobody, IdMap.contains_eq_isSome, Option.isSome_eq_false_iff, Option.isNone_iff_eq_none]
      at hcontains
  have hreports := reports_of_spaceShared ha
  rwa [IdMap.erase_of_find?_eq_none habsent] at hreports

/-- A machine takes the first core that is fast enough, and another core fails. -/
def sparseRun : List (Operation Binary64) :=
  [.request (.new 1 1 1000 10 10 10 (.constant 1)) [900], .failCore 3]

/-- The core without speed is not reported, nor is the one that has failed. -/
theorem reports_spare_sample : ∃ p : Processor Binary64,
    (new (List.map .new [1000, 2000, -5, 500]) (.spaceShared ∅) 0.1).performAll sparseRun = .ok p
      ∧ p.available = 2000 ∧ p.maxAvailable = 2000 := by
  have hcheck : (((new (List.map .new [1000, 2000, -5, 500]) (.spaceShared ∅) 0.1 :
      Processor Binary64).performAll sparseRun).toOption.any fun p =>
        !p.ledger.contains nobody
        && decide ((p.cores.filter (·.isFree)).map (·.capacity) = [2000, -5])) = true := by
    decide +kernel
  simp only [Option.any_eq_true, Fault.toOption_eq_some, Bool.and_eq_true, Bool.not_eq_true',
    decide_eq_true_eq] at hcheck
  obtain ⟨p, hp, hnobody, hidle⟩ := hcheck
  obtain ⟨a, -, -, hexact⟩ := reports_spare (if_pos (by decide +kernel)) hp
  obtain ⟨⟨havailable, hmax⟩, hspare⟩ := hexact hnobody
  rw [hspare, hidle] at havailable hmax
  exact ⟨p, hp, havailable.trans (by decide +kernel), hmax.trans (by decide +kernel)⟩

/-- The core of the machine with the largest id is reported as available. -/
theorem exists_available_held : ∃ (p : Processor Binary64) (a : Assignment),
    (new (List.map .new [1000]) (.spaceShared ∅) 0.1).performAll
        [.request (.new nobody 1 1000 10 10 10 (.constant 1)) [1000]] = .ok p
      ∧ p.discipline = .spaceShared a ∧ p.ledger.contains nobody = true
      ∧ assigned a nobody = [0] ∧ p.allocatedTo nobody = [1000]
      ∧ spare p.cores a = [] ∧ p.available = 1000 ∧ p.maxAvailable = 1000 := by
  have hcheck : (((new (List.map .new [1000]) (.spaceShared ∅) 0.1 :
      Processor Binary64).performAll
        [.request (.new nobody 1 1000 10 10 10 (.constant 1)) [1000]]).toOption.any fun p =>
          p.isDedicated && p.ledger.contains nobody
          && decide (assigned p.discipline.assignment nobody = [0])
          && decide (p.allocatedTo nobody = [1000])
          && decide (spare p.cores p.discipline.assignment = [])
          && decide (p.available = 1000) && decide (p.maxAvailable = 1000)) = true := by
    decide +kernel
  simp only [Option.any_eq_true, Fault.toOption_eq_some, Bool.and_eq_true, decide_eq_true_eq]
    at hcheck
  obtain ⟨p, hp, ⟨⟨⟨⟨⟨hdedicated, hnobody⟩, hcores⟩, hreceived⟩, hspare⟩, havailable⟩, hmax⟩ :=
    hcheck
  obtain ⟨a, ha⟩ := discipline_of_dedicated hdedicated
  rw [ha] at hcores hspare
  exact ⟨p, a, hp, ha, hnobody, hcores, hreceived, hspare, havailable, hmax⟩

end Processor

end Datacenter
