import Datacenter.Proofs.Consolidation.Turns
import Datacenter.Proofs.Host.Serving
import Datacenter.Proofs.Pool.Evolution
import Datacenter.Proofs.Threshold

/-!
# Targets where all machines share all cores

A plan counts on the speed that is left on such a target: it takes off the capacity what the
machines there have received, and the peak of every machine that is to come. The target itself looks
at its cores, after the shares have been computed anew. Over exact numbers the target has what the
plan has counted on (`fresh_plan_shares`), for it has been accepted at a threshold of at most one
and so is not oversubscribed, and then what is left on its cores is known (`Processor.Serves`).

What is left may be a sliver on each core, which nobody has received. A plan could give that away
twice; but all slivers together are less than one unit, and the machines have a peak of at least
one.
-/

namespace Datacenter

/-- Exact numbers with some written form. -/
@[reducible] def Rational.textScalar (read : String → Option ℚ) (write : ℚ → String) :
    TextScalar ℚ where
  ofText? := read
  toText := write

/-! ## What has been accepted -/

/-- Machines have been accepted one after the other, the last one beside all others. -/
structure Estimate.Carries (e : Estimate ℚ) (time : ℚ) (vs : List (Vm ℚ)) : Prop where
  capacity : 0 < e.capacity
  peaks : e.isDedicated = false →
    e.allocated + (vs.map (·.peak)).sum ≤ e.capacity + tolerance
  loads : (e.load + (vs.map (·.loadAt time)).sum) / e.capacity ≤ e.threshold

namespace Estimate.Carries

variable {e : Estimate ℚ} {time : ℚ} {v : Vm ℚ} {vs : List (Vm ℚ)}

theorem cons (haccept : e.canAccept v (v.loadAt time) = true)
    (hvs : vs ≠ [] → (e.add v (v.loadAt time)).Carries time vs) : e.Carries time (v :: vs) := by
  cases vs with
  | nil =>
    simp only [canAccept, Bool.and_eq_true, decide_eq_true_eq] at haccept
    obtain ⟨⟨⟨⟨⟨⟨-, hroom⟩, -⟩, -⟩, -⟩, hcapacity⟩, hload⟩ := haccept
    refine ⟨hcapacity, fun hshared => ?_, ?_⟩
    · have hpeak : v.peak ≤ e.capacity - e.allocated + tolerance := by
        simpa [hasRoom, hshared] using hroom
      rw [List.map_singleton, List.sum_singleton]
      linarith
    · rw [List.map_singleton, List.sum_singleton]
      exact hload
  | cons v' vs =>
    have hrest := hvs (List.cons_ne_nil v' vs)
    refine ⟨hrest.capacity, fun hshared => ?_, ?_⟩
    · rw [List.map_cons, List.sum_cons, ← add_assoc]
      exact hrest.peaks hshared
    · rw [List.map_cons, List.sum_cons, ← add_assoc]
      exact hrest.loads

end Estimate.Carries

/-- The ledgers of a reachable pool are proper, as long as no machine has a negative speed. -/
theorem Pool.isProper_of_reachable {p : Pool ℚ} (hp : p.Reachable) (hspeed : p.NonnegativeSpeeds)
    {i : Nat} {h : Host ℚ} (hh : p.hosts[i]? = some h) : h.processor.ledger.IsProper where
  requests e he := by
    have hrequest : (h.entry e.1).request = some e.2 := IdMap.find?_eq_some_iff.mpr he
    obtain ⟨v, hv, hof⟩ := ((bookkeeping_of_reachable hp).agrees i h hh e.1).asked e.2 hrequest
    exact hof.nonneg (hspeed e.1 v hv)
  overhead := (checkFraction_eq_ok.mp (processor_of_reachable hp hh).overhead).1.2

namespace Consolidation

namespace Turn

variable {p q : Pool ℚ} {ms : List (Vm ℚ × Nat)} {v : Vm ℚ} {t : Nat} {h₀ h : Host ℚ}
  {vs : List (Vm ℚ)} {e : Estimate ℚ}

theorem carries (hturn : Turn p q ms v t h₀ h vs e) : e.Carries p.time (arrivals ms t ++ [v]) := by
  refine hturn.of_accepted (motive := fun e vs => vs ≠ [] → e.Carries p.time vs) ?_ ?_ ?_
  · exact fun _ hne => absurd rfl hne
  · exact fun _ _ _ haccept hvs _ => .cons haccept hvs
  · simp

/-- The machines that were to come before are registered, and so is the one whose turn it is. -/
theorem mem_values (hturn : Turn p q ms v t h₀ h vs e) :
    (∀ v ∈ arrivals ms t, v ∈ p.vms.values) ∧ v ∈ p.vms.values := by
  have hregistered := List.forall_mem_append.mp hturn.registered
  refine ⟨fun v' hv' => ?_, ?_⟩
  · obtain ⟨m, hm, rfl⟩ := List.mem_map.mp hv'
    exact IdMap.mem_values_iff.mpr ⟨_, hregistered.1 m (List.mem_filter.mp hm).1⟩
  · exact IdMap.mem_values_iff.mpr ⟨_, hregistered.2 _ (List.mem_singleton_self _)⟩

/-- Not all of the machines that were to come need have come. -/
theorem sum_came_le (hturn : Turn p q ms v t h₀ h vs e) {part : Vm ℚ → ℚ}
    (hpart : ∀ v ∈ p.vms.values, 0 ≤ part v) :
    (vs.map part).sum ≤ ((arrivals ms t).map part).sum :=
  (hturn.arrived.map _).sum_le_sum <| List.forall_mem_map.mpr fun v hv =>
    hpart v (hturn.mem_values.1 v hv)

/-- The target is not oversubscribed, not even with all machines that were to come before. -/
theorem load_le (hturn : Turn p q ms v t h₀ h vs e) (hspeed : ∀ v ∈ p.vms.values, 0 ≤ v.speed)
    (hthreshold : e.threshold ≤ 1) :
    h₀.load + ((arrivals ms t).map (·.loadAt p.time)).sum ≤ h₀.processor.capacity := by
  obtain ⟨hcapacity, -, hloads⟩ := hturn.carries
  have hloads := (div_le_one hcapacity).mp (hloads.trans hthreshold)
  rw [hturn.measures.capacity, hturn.measures.load, List.map_append, List.sum_append,
    List.map_singleton, List.sum_singleton] at hloads
  have hown := Vm.loadAt_nonneg (hspeed v hturn.mem_values.2) p.time
  linarith

/-- There was room for the peaks beside what the machines on the target have received. -/
theorem peaks_le (hturn : Turn p q ms v t h₀ h vs e)
    (hshared : h₀.processor.isDedicated = false) :
    h₀.processor.totalAllocated + ((arrivals ms t).map (·.peak)).sum + v.peak
      ≤ h₀.processor.capacity + TimeShared.sliver := by
  have hpeaks := hturn.carries.peaks (hturn.measures.isDedicated.trans hshared)
  have htolerance : (Estimate.tolerance : ℚ) = TimeShared.sliver := rfl
  rw [hturn.measures.capacity, hturn.measures.allocated, htolerance, List.map_append,
    List.sum_append, List.map_singleton, List.sum_singleton, ← add_assoc] at hpeaks
  exact hpeaks

/-- Under time sharing the processor of the target finds the machine suitable. -/
theorem isSuitable_of_shared (hturn : Turn p q ms v t h₀ h vs e) (hp : p.Reachable)
    (hcount : h₀.processor.cores.length < 10 ^ 9)
    (hcores : ∀ c ∈ h₀.processor.cores, 0 ≤ c.capacity)
    (hspeed : ∀ v ∈ p.vms.values, 0 ≤ v.speed) (hpeak : ∀ v ∈ p.vms.values, 1 ≤ v.peak)
    (hthreshold : e.threshold ≤ 1) (hshared : h₀.processor.isDedicated = false) :
    h.processor.isSuitable v = true := by
  have hspeeds : p.NonnegativeSpeeds := fun k v hv => hspeed v (IdMap.mem_values_iff.mpr ⟨k, hv⟩)
  have hproper := Pool.isProper_of_reachable hp hspeeds hturn.before
  have hreachable := Pool.processor_of_reachable hp hturn.before
  have hload := hturn.load_le hspeed hthreshold
  have hpeaks := hturn.peaks_le hshared
  have hnonneg : ∀ v ∈ p.vms.values, 0 ≤ v.peak := fun v hv => (zero_le_one' ℚ).trans (hpeak v hv)
  have hcameLoad := hturn.sum_came_le fun v hv => Vm.loadAt_nonneg (hspeed v hv) p.time
  have hcamePeak := hturn.sum_came_le hnonneg
  obtain ⟨hearlier, hlast⟩ := hturn.mem_values
  have hserves : h₀.processor.Serves := by
    have hpositive : 0 ≤ ((arrivals ms t).map (·.loadAt p.time)).sum :=
      List.sum_nonneg <| List.forall_mem_map.mpr fun v hv =>
        Vm.loadAt_nonneg (hspeed v (hearlier v hv)) _
    refine hreachable.serves hshared hproper hcores ?_
    rw [← Host.load_eq]
    linarith
  have hleft : vs = [] ∨ ¬ TimeShared.IsFull h₀.processor.cores := by
    cases hnone : arrivals ms t with
    | nil => exact .inl (List.sublist_nil.mp (hnone ▸ hturn.arrived))
    | cons v' rest =>
      -- with another machine before this one, there was room for two peaks
      right
      have hmem : v' ∈ arrivals ms t := by simp [hnone]
      have hfirst : v'.peak ≤ ((arrivals ms t).map (·.peak)).sum :=
        List.single_le_sum (List.forall_mem_map.mpr fun v hv => hnonneg v (hearlier v hv)) _
          (List.mem_map_of_mem hmem)
      have hsliver : (TimeShared.sliver : ℚ) ≤ 1 := by
        unfold TimeShared.sliver
        norm_num
      refine hserves.not_isFull hcount ?_
      linarith [hpeak v' (hearlier v' hmem), hpeak v hlast]
  have hroom := hturn.received.peak_le_room hreachable hshared hproper hcores hserves
    (fun v hv => hspeed v (hearlier v (hturn.arrived.subset hv))) (by linarith) (by linarith) hleft
  have hworking := hturn.measures.working ▸ hturn.holds.working v (by simp)
  have hfast := hturn.measures.fastest ▸ hturn.holds.fastest v (by simp)
  rw [← Processor.workingCount_congr hturn.received.makeup] at hworking
  rw [← Processor.fastest_congr hturn.received.makeup] at hfast
  exact Processor.isSuitable_of_room (hturn.received.isDedicated.trans hshared) hworking hfast hroom

end Turn

/-- A machine that a fresh plan sends to a target where all machines share all cores finds the speed
it needs there at its turn. The rule of the plan is one that a text designates under some settings,
however numbers are written. -/
theorem fresh_plan_shares {σ : Type} {rule : Rule ℚ} {choose : Selector σ ℚ} {s s' : σ} {p : Pool ℚ}
    {eligible : List Nat} {plan : MigrationPlan} {before after : List (Nat × Nat)} {k t : Nat}
    {v : Vm ℚ} {h₀ : Host ℚ} {read : String → Option ℚ} {write : ℚ → String} {text : String}
    {settings : Settings ℚ} {selection : SelectionPolicy} (hp : p.Reachable)
    (hrange : ∀ h ∈ p.hosts, h.InRange)
    (hcores : ∀ h ∈ p.hosts, h.processor.cores.length < 10 ^ 9
      ∧ ∀ c ∈ h.processor.cores, 0 ≤ c.capacity)
    (hvms : ∀ v ∈ p.vms.values, 0 ≤ v.speed ∧ 1 ≤ v.peak)
    (hrule : @AllocationPolicy.ofText ℚ (Rational.textScalar read write) text settings
      = .ok (.consolidating rule selection))
    (hplan : Consolidation.plan rule choose s p eligible = .ok (plan, s'))
    (hmoves : plan.moves = before ++ (k, t) :: after)
    (hv : p.vms.find? k = some v) (hh : p.hosts[t]? = some h₀)
    (hshared : h₀.processor.isDedicated = false) :
    ∃ count kept q h r, Pool.startAll before p = .ok (count, kept, q) ∧ q.hosts[t]? = some h
      ∧ h.check v = .ok .success ∧ q.startMigration k t = .ok (true, r) := by
  obtain ⟨count, kept, q, earlier, v', h₁, h, vs, e, rfl, hq, hturn, hfind, hof⟩ :=
    exists_turn hp hrange (fun v hv => (hvms v hv).1) hplan hmoves
  obtain rfl := Option.some.inj (hv.symm.trans hfind)
  obtain rfl := Option.some.inj (hh.symm.trans hturn.before)
  have hmem : h₀ ∈ p.hosts := List.mem_of_getElem? hh
  have hchecked : rule.upper.IsChecked := @AllocationPolicy.isChecked_of_ofText ℚ
    (Rational.textScalar read write) settings rule selection text hrule
  have hsuitable := hturn.isSuitable_of_shared hp (hcores h₀ hmem).1 (hcores h₀ hmem).2
    (fun v hv => (hvms v hv).1) (fun v hv => (hvms v hv).2) (UpperThreshold.le_one hchecked hof)
    hshared
  obtain ⟨hcheck, r, hr⟩ := hturn.exists_granted (hrange h₀ hmem)
    (hvms v hturn.mem_values.2).1 hsuitable
  exact ⟨count, kept, q, h, r, hq, hturn.now, hcheck, hr⟩

/-- Settings under which the rule of the sample is designated. -/
def sampleSettings : Settings ℚ :=
  { Settings.default with
    overThreshold := 0.8
    underThreshold := 0.3
    parallelThreshold := maxQuantity }

/-- The second move of the sample finds the speed that the first one has left. -/
theorem fresh_plan_shares_sample : ∃ (p : Pool ℚ) (plan : MigrationPlan), p.Reachable
      ∧ plan.moves = [(10, 1), (14, 1)] ∧ (∃ h₀, p.hosts[1]? = some h₀
      ∧ h₀.processor.isDedicated = false)
      ∧ ∃ count kept q h r, Pool.startAll [(10, 1)] p = .ok (count, kept, q)
        ∧ q.hosts[1]? = some h ∧ (∃ v, p.vms.find? 14 = some v ∧ h.check v = .ok .success)
        ∧ q.startMigration 14 1 = .ok (true, r) := by
  obtain ⟨p, plan, next, hp, hplan, hcheck⟩ := exists_samplePlan
    (fun r : Pool ℚ × MigrationPlan × SelectionPolicy => r.2.1.moves == [(10, 1), (14, 1)]
      && decide (∀ h ∈ r.1.hosts, h.InRange)
      && decide (∀ h ∈ r.1.hosts, h.processor.cores.length < 10 ^ 9
        ∧ ∀ c ∈ h.processor.cores, 0 ≤ c.capacity)
      && decide (∀ v ∈ r.1.vms.values, 0 ≤ v.speed ∧ 1 ≤ v.peak)
      && (r.1.vms.find? 14).isSome
      && r.1.hosts[1]?.any fun h : Host ℚ => !h.processor.isDedicated)
    (by decide +kernel) (by decide +kernel)
  simp only [Bool.and_eq_true, beq_iff_eq, decide_eq_true_eq, Option.any_eq_true,
    Option.isSome_iff_exists, Bool.not_eq_true'] at hcheck
  obtain ⟨⟨⟨⟨⟨hmoves, hrange⟩, hcores⟩, hvms⟩, v, hv⟩, h₀, hh, hshared⟩ := hcheck
  have hrule : (@AllocationPolicy.ofText ℚ (Rational.textScalar (fun _ => none) fun _ => "")
      "MigrationBestFit" sampleSettings).toOption
      = some (.consolidating sampleRule .minimumUtilization) := by decide +kernel
  have hsplit : plan.moves = [(10, 1)] ++ (14, 1) :: [] := hmoves
  obtain ⟨count, kept, q, h, r, hq, hh', hcheck, hr⟩ := fresh_plan_shares hp hrange hcores hvms
    (Fault.toOption_eq_some.mp hrule) hplan hsplit hv hh hshared
  exact ⟨p, plan, hp, hmoves, ⟨h₀, hh, hshared⟩, count, kept, q, h, r, hq, hh', ⟨v, hv, hcheck⟩, hr⟩

end Consolidation

end Datacenter
