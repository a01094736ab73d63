import Datacenter.Binary64.Basic
import Datacenter.Proofs.Binary64.Rounding
import Datacenter.Proofs.Host.Receiving
import Datacenter.Proofs.Pool.Evolution
import Datacenter.Proofs.Processor.Superseding

/-!
# Admission and refusal

Before a machine is created or its migration started, the host is asked whether the machine fits,
and then the processor whether it admits the machine. The two go by different figures: the check by
the machine at full speed, the processor by what the machine asks for at the moment. By
`Pool.admission_agrees` the second answer adds nothing to the first one, unless a machine has a
negative speed, and an operation that is refused leaves the pool as it was.

The processor that refuses a machine on its way would leave a trace, since the machine is flagged as
arriving before the processor is asked and struck from the ledger afterwards. This never happens.
-/

namespace Datacenter

variable {α : Type} [Scalar α]

/-- A machine that passes the check is admitted when it is created. -/
theorem Host.exists_create? [LawfulScalar α] {h : Host α} {v : Vm α}
    (hp : h.processor.Reachable) (hcheck : h.check v = .ok .success) (hspeed : 0 ≤ v.speed)
    (time : α) : ∃ h', h.create? v (v.request time) = some h' := by
  have hfits := fits_of_check hcheck
  have hadmission := Processor.isSome_admission? hfits.suitable hfits.cores hspeed rfl rfl time
  -- machines are admitted with and without a flag alike
  rw [Processor.admission?_markArriving hp rfl rfl] at hadmission
  obtain ⟨discipline, hdiscipline⟩ := Option.isSome_iff_exists.mp hadmission
  rw [create?, admit?, Processor.admit?, hdiscipline]
  exact ⟨_, rfl⟩

namespace Pool

variable {p q : Pool α}

/-! ## What is granted -/

/-- Every registered machine has a speed of at least zero. -/
def SpeedsNonneg (p : Pool α) : Prop :=
  ∀ v ∈ p.vms.values, 0 ≤ v.speed

section

variable [LawfulScalar α]

theorem create_iff_check (hp : p.Reachable) (hspeed : p.SpeedsNonneg) (vm host : Nat) :
    (∃ q, p.create vm host = .ok (true, q)) ↔ ∃ v h, p.vms.find? vm = some v ∧ v.host = none
      ∧ p.hosts[host]? = some h ∧ h.check v = .ok .success := by
  constructor
  · rintro ⟨q, hq⟩
    rcases create_outcome hq with ⟨hrefused, -⟩ | ⟨-, v, h, -, hv, hplaced, hh, hcheck, -⟩
    · contradiction
    · exact ⟨v, h, hv, hplaced, hh, hcheck⟩
  · rintro ⟨v, h, hv, hplaced, hh, hcheck⟩
    have hfast : 0 ≤ v.speed := hspeed v (IdMap.mem_values_iff.mpr ⟨vm, hv⟩)
    obtain ⟨h', hcreate⟩ := Host.exists_create? (processor_of_reachable hp hh) hcheck hfast p.time
    exact ⟨_, create_of_check hv hplaced hh hcheck hcreate⟩

theorem startMigration_iff_check (hspeed : p.SpeedsNonneg) (vm target : Nat) :
    (∃ q, p.startMigration vm target = .ok (true, q)) ↔ ∃ v source h, p.vms.find? vm = some v
      ∧ v.host = some source ∧ source ≠ target ∧ v.migration = .settled
      ∧ p.hosts[target]? = some h ∧ h.check v = .ok .success := by
  constructor
  · rintro ⟨q, hq⟩
    rcases startMigration_outcome hq with
      ⟨hrefused, -⟩ | ⟨v, source, h, -, hv, hs, hsettled, hne, hh, hcheck, -⟩
    · contradiction
    · exact ⟨v, source, h, hv, hs, hne, hsettled, hh, hcheck⟩
  · rintro ⟨v, source, h, hv, hs, hne, hsettled, hh, hcheck⟩
    have hfast : 0 ≤ v.speed := hspeed v (IdMap.mem_values_iff.mpr ⟨vm, hv⟩)
    have hexpect := Host.expect_of_check hcheck hfast p.time
    exact ⟨_, startMigration_of_check hv hs hsettled hne hh hcheck (Prod.ext hexpect rfl)⟩

end

/-! ## What is refused -/

/-- An operation on `p` has been refused, with `q` as the pool after it. -/
inductive Refuses (p q : Pool α) : Prop where
  | create {vm host : Nat} : p.create vm host = .ok (false, q) → Refuses p q
  | destroy {vm : Nat} : p.destroy vm = (false, q) → Refuses p q
  | startMigration {vm target : Nat} : p.startMigration vm target = .ok (false, q) → Refuses p q
  | finishMigration {vm : Nat} : p.finishMigration vm = (false, q) → Refuses p q
  | addVm {vm : Vm α} : p.addVm vm = .ok (false, q) → Refuses p q
  | setHostActive {host : Nat} {on : Bool} : p.setHostActive host on = .ok (false, q) → Refuses p q

/-- The processor of a target refuses no machine that passes the check, so a migration that is not
started leaves no trace. -/
theorem eq_of_startMigration_refused [LawfulScalar α] (hspeed : p.SpeedsNonneg) {vm target : Nat}
    (hq : p.startMigration vm target = .ok (false, q)) : q = p := by
  rcases startMigration_outcome hq with
    ⟨-, rfl⟩ | ⟨v, source, h, h', hv, -, -, -, -, hcheck, hexpect, -⟩
  · rfl
  · have hfast : 0 ≤ v.speed := hspeed v (IdMap.mem_values_iff.mpr ⟨vm, hv⟩)
    have hadmitted := Host.expect_of_check hcheck hfast p.time
    rw [hexpect] at hadmitted
    contradiction

/-- Only a machine that does not migrate is refused to have its migration finished. -/
theorem eq_of_finishMigration_refused (hp : p.Bookkeeping) {vm : Nat}
    (hq : p.finishMigration vm = (false, q)) : q = p := by
  cases hmig : p.migrations.find? vm with
  | none =>
    rw [finishMigration_of_none hmig] at hq
    exact (Prod.mk.inj hq).2.symm
  | some target =>
    obtain ⟨-, v, source, hv, hs, -⟩ := (hp.registered vm).target target hmig
    rw [finishMigration_of_some hmig hv hs] at hq
    exact absurd (Prod.mk.inj hq).1 Bool.noConfusion

theorem Refuses.unchanged [LawfulScalar α] (hrefuses : p.Refuses q) (hp : p.Reachable)
    (hspeed : p.SpeedsNonneg) : q = p := by
  cases hrefuses with
  | create hq =>
    rcases create_outcome hq with ⟨-, hsame⟩ | ⟨hgranted, -⟩
    · exact hsame
    · contradiction
  | @destroy vm hq =>
    cases hloc : p.location? vm with
    | none =>
      rw [destroy_of_not_placed hloc] at hq
      exact (Prod.mk.inj hq).2.symm
    | some source =>
      rw [destroy_of_placed hloc] at hq
      exact absurd (Prod.mk.inj hq).1 Bool.noConfusion
  | startMigration hq => exact eq_of_startMigration_refused hspeed hq
  | finishMigration hq => exact eq_of_finishMigration_refused (bookkeeping_of_reachable hp) hq
  | addVm hq =>
    rcases addVm_outcome hq with ⟨-, hsame⟩ | ⟨hgranted, -⟩
    · exact hsame
    · contradiction
  | setHostActive hq =>
    rcases setHostActive_outcome hq with ⟨-, hsame⟩ | ⟨hgranted, -⟩
    · exact hsame
    · contradiction

/-! ## Check and answer -/

/-- A machine is created exactly if it waits for a place and fits on the host. A migration is
started exactly if the machine is settled on another host and fits on the target. What is refused
leaves the pool as it was. -/
theorem admission_agrees [LawfulScalar α] (hp : p.Reachable) (hspeed : p.SpeedsNonneg) :
    (∀ vm host, (∃ q, p.create vm host = .ok (true, q)) ↔ ∃ v h, p.vms.find? vm = some v
        ∧ v.host = none ∧ p.hosts[host]? = some h ∧ h.check v = .ok .success)
      ∧ (∀ vm target, (∃ q, p.startMigration vm target = .ok (true, q)) ↔ ∃ v source h,
        p.vms.find? vm = some v ∧ v.host = some source ∧ source ≠ target
          ∧ v.migration = .settled ∧ p.hosts[target]? = some h ∧ h.check v = .ok .success)
      ∧ ∀ q, p.Refuses q → q = p :=
  ⟨create_iff_check hp hspeed, startMigration_iff_check hspeed,
    fun _ hrefuses => hrefuses.unchanged hp hspeed⟩

/-- In the sample the machine on the third host fits on the second one and not on the first one. -/
theorem admission_agrees_sample : ∃ p : Pool Binary64, (Pool.new 0 5).performAll sampleRun = .ok p
    ∧ (∃ q, p.startMigration 13 1 = .ok (true, q)) ∧ (¬ ∃ q, p.startMigration 13 0 = .ok (true, q))
    ∧ ∀ q, p.Refuses q → q = p := by
  have hops : ∀ op ∈ (sampleRun : List (Operation Binary64)), op.IsAdmissible :=
    isAdmissible_of_mem_sampleRun (by decide +kernel)
  obtain ⟨p, hrun, hp, hcheck⟩ := exists_of_run (fun p =>
    p.vms.values.all (fun v => decide (0 ≤ v.speed))
      && (p.vms.find? 13).any fun v => v.host == some 2 && v.migration == .settled
        && p.hosts[1]?.any (fun h => (h.check v).toOption == some .success)
        && p.hosts[0]?.any (fun h => (h.check v).toOption != some .success))
    hops (by decide +kernel)
  simp only [Bool.and_eq_true, Option.any_eq_true, List.all_eq_true, beq_iff_eq, bne_iff_ne,
    decide_eq_true_eq] at hcheck
  obtain ⟨hspeed, v, hv, ⟨⟨hplaced, hsettled⟩, h, hh, hfits⟩, h₀, hh₀, hshort⟩ := hcheck
  obtain ⟨-, hstart, hrefused⟩ := admission_agrees hp hspeed
  refine ⟨p, hrun, (hstart 13 1).mpr ?_, fun hstarted => ?_, hrefused⟩
  · exact ⟨v, 2, h, hv, hplaced, by decide, hsettled, hh, Fault.toOption_eq_some.mp hfits⟩
  · obtain ⟨v', -, h', hv', -, -, -, hh', hfits'⟩ := (hstart 13 0).mp hstarted
    obtain rfl := Option.some.inj (hv.symm.trans hv')
    obtain rfl := Option.some.inj (hh₀.symm.trans hh')
    exact hshort (Fault.toOption_eq_some.mpr hfits')

end Pool

end Datacenter
