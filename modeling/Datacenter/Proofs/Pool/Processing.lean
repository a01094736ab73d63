import Mathlib.Data.Nat.Cast.Defs
import Datacenter.Proofs.Pool.CoreCounts
import Datacenter.Proofs.Pool.Evolution

/-!
# Periodic processing is a stable snapshot

Processing a pool twice without moving the clock leaves it as processing it once does, and the order
in which machines are visited does not matter (`Pool.updateProcessing_stable`).

Both come down to single processors (`Datacenter/Proofs/Processor/Renewing.lean`). The machines that
run on a host are on file there for as many cores as they have, so asking for them is one new sharing
whose ledger depends neither on their order nor on how often they are asked for. Recording does not
interfere: it changes histories only, no request depends on these, and a sample taken at the time of
the latest one takes its place.
-/

namespace Datacenter

variable {α : Type} [Scalar α] {time : α}

/-! ## Recording -/

/-- A sample that is taken again takes its own place. -/
theorem UtilizationHistory.add_add (htime : (time == time) = true) (h : UtilizationHistory α)
    (value : α) : (h.add time value).add time value = h.add time value := by
  obtain ⟨samples, limit⟩ := h
  -- with no room for samples none is kept, and otherwise the sample stands at the front
  cases limit with
  | zero =>
    cases samples with
    | nil => rfl
    | cons s older => by_cases hs : (s.1 == time) = true <;> simp [add, hs]
  | succ n =>
    cases samples with
    | nil => simp [add, htime]
    | cons s older => by_cases hs : (s.1 == time) = true <;> simp [add, hs, htime]

theorem Host.recordUtilization_again (htime : (time == time) = true) (h : Host α) :
    (h.recordUtilization time).recordUtilization time = h.recordUtilization time :=
  congrArg (fun history => { h with history := history })
    (h.history.add_add htime (Scalar.smaller h.utilization 1))

namespace Pool

variable {p : Pool α} {v : Vm α} {i : Nat} {h : Host α}

theorem recordVm_again (htime : (time == time) = true) (v : Vm α) :
    recordVm time (recordVm time v) = recordVm time v := by
  cases hplaced : v.isPlaced with
  | false => simp [recordVm, hplaced]
  | true =>
    have hrecord : recordVm time v = v.recordUtilization time (v.utilization time) := by
      rw [recordVm, hplaced, if_pos rfl]
    rw [hrecord]
    show (if v.isPlaced then _ else _) = _
    rw [hplaced, if_pos rfl]
    exact congrArg (fun history => { v with history := history })
      (v.history.add_add htime (v.utilization time))

theorem recordAll_again (htime : (p.time == p.time) = true) :
    p.recordAll.recordAll = p.recordAll := by
  have hvms : (p.vms.map fun _ v => recordVm p.time v).map (fun _ v => recordVm p.time v)
      = p.vms.map fun _ v => recordVm p.time v := by
    refine IdMap.ext_find? fun k => ?_
    simp only [IdMap.find?_map, Option.map_map, Function.comp_def, recordVm_again htime]
  have hhosts : (p.hosts.map (·.recordUtilization p.time)).map (·.recordUtilization p.time)
      = p.hosts.map (·.recordUtilization p.time) := by
    simp only [List.map_map, Function.comp_def, Host.recordUtilization_again htime]
  simp only [recordAll, hvms, hhosts]

/-- What a processor is asked for a machine does not depend on the machine's history. -/
theorem renew_recordVm (t : α) (q : Processor α) (v : Vm α) :
    q.renew time (recordVm t v) = q.renew time v := by
  unfold recordVm
  split <;> rfl

theorem renewAll_map_recordVm (t : α) (vms : List (Vm α)) (h : Host α) :
    h.renewAll time (vms.map (recordVm t)) = h.renewAll time vms := by
  rw [Host.renewAll, Host.renewAll, List.foldl_map]
  simp only [renew_recordVm]

/-- Recording does not change who runs where. -/
theorem guests_recordAll (vms : List (Vm α)) (t : α) (i : Nat) :
    p.recordAll.guests i (vms.map (recordVm t)) = (p.guests i vms).map (recordVm t) := by
  have hhosts : ∀ v, p.recordAll.hostsOf (recordVm t v) = p.hostsOf v := by
    intro v
    obtain ⟨hid, hhost, -⟩ := Bookkeeping.recordVm_fields t v
    rw [hostsOf, hostsOf, hid, hhost]
    rfl
  rw [guests, guests, List.filter_map]
  simp only [Function.comp_def, hhosts]

/-! ## Machines on file -/

/-- A machine is on file on every host it runs on, for as many cores as it has. -/
theorem knows_of_mem_hostsOf (hp : p.Reachable) (hh : p.hosts[i]? = some h)
    (hv : p.vms.find? v.id = some v) (hon : i ∈ p.hostsOf v) : h.processor.Knows v := by
  have hb := bookkeeping_of_reachable hp
  have hseat := hb.isSeated_of_mem_hostsOf hv hh hon
  rw [← (hb.agrees i h hh v.id).request, Option.isSome_iff_exists] at hseat
  obtain ⟨r, hr⟩ := hseat
  exact ⟨r, hr, countsCores_of_reachable hp i h hh v.id r v hr hv⟩

theorem knows_of_mem_guests (hp : p.Reachable) (hh : p.hosts[i]? = some h)
    (hv : v ∈ p.guests i p.vms.values) : h.processor.Knows v := by
  obtain ⟨hmem, hon⟩ := List.mem_filter.mp hv
  exact knows_of_mem_hostsOf hp hh ((bookkeeping_of_reachable hp).find?_of_mem_values hmem)
    (of_decide_eq_true hon)

theorem isUnambiguous_guests (hb : p.Bookkeeping) (i : Nat) :
    IsUnambiguous (p.guests i p.vms.values) := by
  intro v hv w hw hid
  have hfind := hb.find?_of_mem_values (List.mem_of_mem_filter hv)
  rw [hid, hb.find?_of_mem_values (List.mem_of_mem_filter hw)] at hfind
  exact (Option.some.inj hfind).symm

omit [Scalar α] in
/-- Only placed machines run anywhere. -/
theorem guests_placed (p : Pool α) (i : Nat) (vms : List (Vm α)) :
    p.guests i (vms.filter (·.isPlaced)) = p.guests i vms := by
  rw [guests, guests, List.filter_filter]
  refine List.filter_congr fun v _ => ?_
  cases hhost : v.host with
  | none => simp [hostsOf, hhost]
  | some host => simp [Vm.isPlaced, hhost]

variable [OrderedScalar α]

/-- A host that has been asked for the machines that run on it has nothing to change when it is
asked for them again. -/
theorem renewAll_again (hp : p.Reachable) (hh : p.hosts[i]? = some h) (time : α) :
    (h.renewAll time (p.guests i p.vms.values)).renewAll time (p.guests i p.vms.values)
      = h.renewAll time (p.guests i p.vms.values) := by
  have hagain := Processor.foldl_renew_again (processor_of_reachable hp hh)
    (fun _ => knows_of_mem_guests hp hh) (isUnambiguous_guests (bookkeeping_of_reachable hp) i) time
  exact congrArg (fun processor => { h with processor := processor }) hagain

/-- A host may be asked for its machines in any order. -/
theorem renewAll_perm (hp : p.Reachable) (hh : p.hosts[i]? = some h) {order : List (Vm α)}
    (horder : order.Perm (p.vms.values.filter (·.isPlaced))) :
    h.renewAll time (p.guests i order) = h.renewAll time (p.guests i p.vms.values) := by
  have hguests : (p.guests i order).Perm (p.guests i p.vms.values) := by
    rw [← guests_placed p i p.vms.values]
    exact horder.filter _
  have hperm := Processor.foldl_renew_perm (processor_of_reachable hp hh)
    (fun _ => knows_of_mem_guests hp hh) (isUnambiguous_guests (bookkeeping_of_reachable hp) i)
    hguests.symm time
  exact congrArg (fun processor => { h with processor := processor }) hperm.symm

/-- The hosts of a pool that has been processed have nothing to change when their machines are
refreshed again. -/
theorem mapIdx_renewAll_updateProcessing (hp : p.Reachable) :
    p.updateProcessing.hosts.mapIdx (fun i h => h.renewAll p.time
      (p.recordAll.guests i (p.vms.values.map (recordVm p.time)))) = p.updateProcessing.hosts := by
  refine mapIdx_eq_self fun i h' hh' => ?_
  rw [guests_recordAll, renewAll_map_recordVm]
  rw [(bookkeeping_of_reachable hp).getElem?_updateProcessing] at hh'
  obtain ⟨h, hh, rfl⟩ := Option.map_eq_some_iff.mp hh'
  -- recording has left the processor of the host alone
  have hagain := congrArg Host.processor (renewAll_again hp hh p.time)
  exact congrArg (fun processor => { (h.renewAll p.time
    (p.guests i p.vms.values)).recordUtilization p.time with processor := processor }) hagain

theorem updateProcessing_again (hp : p.Reachable) (htime : (p.time == p.time) = true) :
    p.updateProcessing.updateProcessing = p.updateProcessing := by
  have hb := bookkeeping_of_reachable hp
  have hvalues : p.recordAll.vms.values = p.vms.values.map (recordVm p.time) := by
    simp only [recordAll, IdMap.values, IdMap.map, List.map_map, Function.comp_def]
  have hhosts := mapIdx_renewAll_updateProcessing hp
  rw [← hvalues] at hhosts
  -- the clock, the machines and their places are those of the pool before
  have hsame : p.updateProcessing.updateProcessing = p.updateProcessing.recordAll := by
    rw [hb.updateProcessing.updateProcessing_eq]
    refine congrArg (fun hosts => recordAll { p.updateProcessing with hosts := hosts })
      (Eq.trans ?_ hhosts)
    rw [hb.updateProcessing_eq]
    rfl
  rw [hsame, hb.updateProcessing_eq]
  exact recordAll_again htime

/-- The placed machines may be visited in any order. -/
theorem recordAll_refreshAll_perm (hp : p.Reachable) {order : List (Vm α)}
    (horder : order.Perm (p.vms.values.filter (·.isPlaced))) :
    (p.refreshAll order).recordAll = p.updateProcessing := by
  have hb := bookkeeping_of_reachable hp
  have hregistered : ∀ v ∈ order, p.vms.find? v.id = some v := fun v hv =>
    hb.find?_of_mem_values (List.mem_of_mem_filter (horder.mem_iff.mp hv))
  rw [hb.refreshAll_eq hregistered, hb.updateProcessing_eq]
  refine congrArg (fun hosts => recordAll { p with hosts := hosts })
    (List.ext_getElem? fun i => ?_)
  rw [List.getElem?_mapIdx, List.getElem?_mapIdx]
  cases hh : p.hosts[i]? with
  | none => rfl
  | some h => rw [Option.map_some, Option.map_some, renewAll_perm hp hh horder]

/-- Processing a pool again without moving the clock changes nothing at all, and the result of
processing it once does not depend on the order in which the placed machines are visited. -/
theorem updateProcessing_stable (hp : p.Reachable) (htime : (p.time == p.time) = true) :
    p.updateProcessing.updateProcessing = p.updateProcessing
      ∧ ∀ order : List (Vm α), order.Perm (p.vms.values.filter (·.isPlaced)) →
        (p.refreshAll order).recordAll = p.updateProcessing :=
  ⟨updateProcessing_again hp htime, fun _ => recordAll_refreshAll_perm hp⟩

omit [OrderedScalar α] in
/-- What a host has on file as the request of a machine. -/
def requestOn? (p : Pool α) (host vm : Nat) : Option (List α) :=
  p.hosts[host]?.map fun h => h.processor.ledger.requestOf vm

/-- A run with both ways of sharing, a migration under way, a load that depends on the age, and a
failed core that a machine would need to be asked for again. -/
def mixedRun : List (Operation α) :=
  [.addHost (sampleHost "a"),
    .addHost (.new "b" (.new (List.map .new [1000, 1000]) (.spaceShared ∅) 0) 100 100 100),
    .addVm (.new 1 2 300 10 10 10 (.traceByAge [(0, 1), (5, 0.5)])), .addVm (sampleVm 2 500),
    .create 1 0, .create 2 1, .startMigration 2 0, .failCore 0 0, .setTime 10]

/-- The first machine keeps the request it came with, however often and in whatever order it is asked
for. -/
theorem updateProcessing_stable_sample : ∃ p : Pool Binary64,
    (Pool.new 0 5).performAll mixedRun = .ok p ∧ p.migrations.find? 2 = some 0
      ∧ p.requestOn? 0 1 = some [300, 300] ∧ p.updateProcessing.requestOn? 0 1 = some [300, 300]
      ∧ p.updateProcessing.updateProcessing = p.updateProcessing
      ∧ (p.refreshAll (p.vms.values.filter (·.isPlaced)).reverse).recordAll
        = p.updateProcessing := by
  have hops : ∀ op ∈ (mixedRun : List (Operation Binary64)), op.IsAdmissible := by
    simp only [mixedRun, List.forall_mem_cons, Operation.IsAdmissible]
    exact ⟨isFresh_sampleHost (by decide +kernel) "a",
      isFresh_of_capacities (by decide +kernel) "b" [1000, 1000] (.inr rfl),
      Vm.isWaiting_new .., Vm.isWaiting_new .., trivial, trivial, trivial, trivial, trivial,
      List.forall_mem_nil _⟩
  obtain ⟨p, hrun, hp, hcheck⟩ := exists_of_run (fun p : Pool Binary64 =>
    p.time == p.time && p.migrations.find? 2 == some 0
      && decide (p.requestOn? 0 1 = some [300, 300])
      && decide (p.updateProcessing.requestOn? 0 1 = some [300, 300]))
    hops (by decide +kernel)
  simp only [Bool.and_eq_true, beq_iff_eq, decide_eq_true_eq] at hcheck
  obtain ⟨⟨⟨htime, hmigrating⟩, hbefore⟩, hafter⟩ := hcheck
  obtain ⟨htwice, horder⟩ := updateProcessing_stable hp htime
  exact ⟨p, hrun, hmigrating, hbefore, hafter, htwice, horder _ (List.reverse_perm _)⟩

end Pool

end Datacenter
