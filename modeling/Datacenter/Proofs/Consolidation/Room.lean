import Datacenter.Proofs.Consolidation.Settling
import Datacenter.Proofs.Rational

/-!
# The room that a plan has counted

An estimate starts from what is free on a host (`Estimate.Measures`) and goes down with every
machine that is planned to come. So the machines that a plan sends to a host fit there together, in
memory, bandwidth, storage and, where every virtual core has a core of its own, in cores:
`Consolidation.Settled.holds` says so of any number of settled machines.
-/

namespace Datacenter

variable {α : Type} [Scalar α]

namespace Estimate

/-- The estimate says what is there and what is free on the host. -/
structure Measures (e : Estimate α) (h : Host α) : Prop where
  isDedicated : e.isDedicated = h.processor.isDedicated
  capacity : e.capacity = h.processor.capacity
  fastest : e.fastest = h.processor.fastest
  working : e.working = h.processor.workingCount
  free : e.free = h.processor.freeCount
  allocated : e.allocated = h.processor.totalAllocated
  load : e.load = h.load
  ram : h.availableRam = .ok e.ram
  bandwidth : h.availableBandwidth = .ok e.bandwidth
  storage : h.availableStorage = .ok e.storage

theorem measures_of_ofHost {e : Estimate α} {h : Host α} {threshold : α}
    (he : ofHost h threshold = .ok e) : e.Measures h := by
  obtain ⟨ram, hram, he⟩ := Fault.bind_eq_ok.mp he
  obtain ⟨bandwidth, hbandwidth, he⟩ := Fault.bind_eq_ok.mp he
  obtain ⟨storage, hstorage, he⟩ := Fault.bind_eq_ok.mp he
  cases he
  exact ⟨rfl, rfl, rfl, rfl, rfl, rfl, rfl, hram, hbandwidth, hstorage⟩

/-- There is room for all the machines together, and every core is fast enough for them that need
it. -/
structure Holds (e : Estimate α) (vs : List (Vm α)) : Prop where
  working : ∀ v ∈ vs, v.vcpus ≤ e.working
  fastest : ∀ v ∈ vs, v.speed ≤ e.fastest
  free : e.isDedicated = true → (vs.map (·.vcpus)).sum ≤ e.free
  ram : (vs.map (·.ram)).sum ≤ e.ram
  bandwidth : (vs.map (·.bandwidth)).sum ≤ e.bandwidth
  storage : (vs.map (·.storage)).sum ≤ e.storage

namespace Holds

variable {e : Estimate α} {v : Vm α} {vs : List (Vm α)}

theorem nil (e : Estimate α) : e.Holds [] where
  working _ hv := nomatch hv
  fastest _ hv := nomatch hv
  free _ := Nat.zero_le _
  ram := Nat.zero_le _
  bandwidth := Nat.zero_le _
  storage := Nat.zero_le _

/-- There is room for a machine that is accepted, together with those for which there is room once
it has come. -/
theorem cons {load : α} (haccept : e.canAccept v load = true) (hvs : (e.add v load).Holds vs) :
    e.Holds (v :: vs) := by
  simp only [canAccept, Bool.and_eq_true, decide_eq_true_eq] at haccept
  obtain ⟨⟨⟨⟨⟨⟨⟨hworking, hfastest⟩, hroom⟩, hram⟩, hbandwidth⟩, hstorage⟩, -⟩, -⟩ := haccept
  have hramRest : (vs.map (·.ram)).sum ≤ e.ram - v.ram := hvs.ram
  have hbandwidthRest : (vs.map (·.bandwidth)).sum ≤ e.bandwidth - v.bandwidth := hvs.bandwidth
  have hstorageRest : (vs.map (·.storage)).sum ≤ e.storage - v.storage := hvs.storage
  constructor
  case working => exact List.forall_mem_cons.mpr ⟨hworking, hvs.working⟩
  case fastest => exact List.forall_mem_cons.mpr ⟨hfastest, hvs.fastest⟩
  case free =>
    intro hdedicated
    have hfreeRest : (vs.map (·.vcpus)).sum ≤ e.free - v.vcpus := hvs.free hdedicated
    have hfree : v.vcpus ≤ e.free := by simpa [hasRoom, hdedicated] using hroom
    rw [List.map_cons, List.sum_cons]
    omega
  case ram =>
    rw [List.map_cons, List.sum_cons]
    omega
  case bandwidth =>
    rw [List.map_cons, List.sum_cons]
    omega
  case storage =>
    rw [List.map_cons, List.sum_cons]
    omega

end Holds

end Estimate

namespace Consolidation

variable {rule : Rule α} {p : Pool α} {time : α} {ms ms' : List (Vm α × Nat)}
  {es es' : List (Estimate α)}

/-- The estimates that a round starts from say what is free on the hosts. -/
theorem measures_of_getElem? (hes : estimatesOf rule p = .ok es) {i : Nat} {h : Host α}
    {e : Estimate α} (hh : p.hosts[i]? = some h) (he : es[i]? = some e) :
    e.Measures h ∧ rule.upper.of h = .ok e.threshold := by
  rcases Fault.getElem?_of_mapM hes i with ⟨hnone, -⟩ | ⟨h', e', hh', he', hof⟩
  · rw [hh] at hnone
    contradiction
  · obtain rfl := Option.some.inj (hh.symm.trans hh')
    obtain rfl := Option.some.inj (he.symm.trans he')
    obtain ⟨threshold, hthreshold, hof⟩ := Fault.bind_eq_ok.mp hof
    exact ⟨Estimate.measures_of_ofHost hof,
      (Estimate.IsOf.of_ofHost hthreshold hof).threshold⟩

omit [Scalar α] in
/-- The machines that go to host `i`, in the order of their moves. -/
def arrivals (ms : List (Vm α × Nat)) (i : Nat) : List (Vm α) :=
  (ms.filter fun m => m.2 = i).map Prod.fst

omit [Scalar α] in
theorem arrivals_append (ms ms' : List (Vm α × Nat)) (i : Nat) :
    arrivals (ms ++ ms') i = arrivals ms i ++ arrivals ms' i := by
  rw [arrivals, List.filter_append, List.map_append]
  rfl

omit [Scalar α] in
theorem arrivals_cons (v : Vm α) (t : Nat) (ms : List (Vm α × Nat)) (i : Nat) :
    arrivals ((v, t) :: ms) i = if t = i then v :: arrivals ms i else arrivals ms i := by
  unfold arrivals
  split <;> simp [*]

namespace Settled

/-- What holds of settled machines holds of the first ones of them. -/
theorem of_append (h : Settled time (ms ++ ms') es es') : ∃ es₁, Settled time ms es es₁ := by
  induction ms generalizing es with
  | nil => exact ⟨es, .nil es⟩
  | cons m ms ih =>
    cases h with
    | cons he haccept hrest =>
      obtain ⟨es₁, hes₁⟩ := ih hrest
      exact ⟨es₁, .cons he haccept hes₁⟩

/-- What is known of an estimate that accepts a machine, and of the estimate after it if others come
later, is known of the estimate from the start for all machines that come. -/
theorem of_accepted {motive : Estimate α → List (Vm α) → Prop} (hnil : ∀ e, motive e [])
    (hcons : ∀ e v vs, e.canAccept v (v.loadAt time) = true →
      motive (e.add v (v.loadAt time)) vs → motive e (v :: vs))
    (h : Settled time ms es es') {i : Nat} {e : Estimate α} (he : es[i]? = some e) :
    motive e (arrivals ms i) := by
  induction h generalizing e with
  | nil es => exact hnil e
  | @cons vm target e₀ ms es es' he₀ haccept _ ih =>
    have hnext : (es.modify target (·.add vm (vm.loadAt time)))[i]?
        = some (if target = i then e.add vm (vm.loadAt time) else e) := by
      rw [List.getElem?_modify, he]
      rfl
    rw [arrivals_cons]
    split
    · rename_i htarget
      have hsame : e = e₀ := Option.some.inj (he.symm.trans (htarget ▸ he₀))
      rw [if_pos htarget] at hnext
      exact hcons e vm _ (hsame ▸ haccept) (ih hnext)
    · rename_i htarget
      rw [if_neg htarget] at hnext
      exact ih hnext

/-- There is room for all machines that are settled on a host. -/
theorem holds (h : Settled time ms es es') {i : Nat} {e : Estimate α} (he : es[i]? = some e) :
    e.Holds (arrivals ms i) :=
  h.of_accepted .nil (fun _ _ _ haccept hvs => .cons haccept hvs) he

end Settled

end Consolidation

end Datacenter
