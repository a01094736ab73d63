import Datacenter.Binary64.Basic
import Datacenter.Proofs.Binary64.Rounding
import Datacenter.Proofs.Consolidation.Choosing
import Datacenter.Proofs.Consolidation.Room
import Datacenter.Proofs.Pool.Capacity
import Datacenter.Proofs.Pool.Coherence

/-!
# Sums of quantities

What is set aside on a host never exceeds what the host has, throughout every run from the empty
pool (`Consolidation.capacity_never_exceeded`). So wherever quantities are added up, the sum stays
within the capacity of a host: when what is left is told, when a machine is checked or scaled, and
when consolidation estimates what would be left without some of the machines
(`Consolidation.SumsInRange`). If capacities have sixty-four bits, no such sum overflows.

The estimate of a host that is relieved goes up with every machine that is chosen to leave it. The
machines chosen are different residents, so all that is added has been set aside on the host.
-/

namespace Datacenter

variable {α : Type} [Scalar α]

/-! ## What is set aside, machine by machine -/

omit [Scalar α] in
theorem Host.used_eq_sum_keys (h : Host α) (r : WholeUnit) :
    h.used r.part = (h.provisions.keys.map fun k => r.part (h.provisionOf k)).sum := by
  have hparts : ∀ e ∈ h.provisions.toList, r.part e.2 = r.part (h.provisionOf e.1) := by
    intro e he
    have hfind : h.provisions.find? e.1 = some e.2 := IdMap.find?_eq_some_iff.mpr he
    rw [provisionOf, hfind]
    rfl
  rw [used, IdMap.values, IdMap.keys, List.map_map, List.map_map]
  exact congrArg List.sum (List.map_congr_left hparts)

/-- What is set aside is set aside for the residents of a host and for the machines on their way
there. -/
theorem Pool.Bookkeeping.used_eq_sum_seated {p : Pool α} (hp : p.Bookkeeping) {i : Nat}
    {h : Host α} (hh : p.hosts[i]? = some h) (r : WholeUnit) :
    h.used r.part
      = ((h.residents.keys ++ h.incoming.keys).map fun k => r.part (h.provisionOf k)).sum := by
  have hcoherent := hp.coherent
  -- no machine is both a resident and on its way
  have hdisjoint : ∀ k ∈ h.residents.keys, ∀ j ∈ h.incoming.keys, k ≠ j := by
    rintro k hk _ hj rfl
    obtain ⟨v, hv, hi⟩ := (hcoherent.resident_iff i h hh k).mp (IdMap.mem_keys_iff.mp hk)
    have ht := (hcoherent.incoming_iff i h hh k).mp (IdMap.mem_keys_iff.mp hj)
    exact hp.target_ne (by rw [Pool.location?, hv, Option.bind_some, hi]) ht
  have hnodup : (h.residents.keys ++ h.incoming.keys).Nodup :=
    List.nodup_append.mpr ⟨h.residents.nodup_keys, h.incoming.nodup_keys, hdisjoint⟩
  have hperm : h.provisions.keys.Perm (h.residents.keys ++ h.incoming.keys) := by
    refine (List.perm_ext_iff_of_nodup h.provisions.nodup_keys hnodup).mpr fun k => ?_
    rw [List.mem_append, IdMap.mem_keys_iff, IdMap.mem_keys_iff, IdMap.mem_keys_iff]
    exact hcoherent.provision_iff i h hh k
  rw [h.used_eq_sum_keys, (hperm.map _).sum_nat]

/-! ## Estimates -/

namespace Estimate

/-- What an estimate says is left of a resource. -/
def left (e : Estimate α) : WholeUnit → Nat
  | .ram => e.ram
  | .bandwidth => e.bandwidth
  | .storage => e.storage

theorem Measures.available {e : Estimate α} {h : Host α} (he : e.Measures h) (r : WholeUnit) :
    h.available r = .ok (e.left r) := by
  cases r with
  | ram => exact he.ram
  | bandwidth => exact he.bandwidth
  | storage => exact he.storage

theorem left_remove (e : Estimate α) (v : Vm α) (processor : Processor α) (r : WholeUnit) :
    (e.remove v processor).left r = e.left r + v.need r := by
  cases r <;> rfl

/-- What machines need becomes free when they leave. -/
theorem left_foldl_remove (e : Estimate α) (vs : List (Vm α)) (processor : Processor α)
    (r : WholeUnit) :
    (vs.foldl (fun e v => e.remove v processor) e).left r
      = e.left r + (vs.map fun v => v.need r).sum := by
  induction vs generalizing e with
  | nil => rfl
  | cons v vs ih =>
    rw [List.foldl_cons, ih, left_remove, List.map_cons, List.sum_cons, Nat.add_assoc]

end Estimate

namespace Consolidation

/-- The estimate after a relief is that of the host without the machines chosen. -/
theorem relieve_estimate {σ : Type} (choose : Selector σ α) (time : α) (processor : Processor α)
    (s : σ) (e : Estimate α) (candidates : List (Vm α)) :
    (relieve choose time processor s e candidates).estimate
      = (relieve choose time processor s e candidates).selected.foldl
        (fun e v => e.remove v processor) e := by
  fun_induction relieve choose time processor s e candidates with
  | case1 => rfl
  | case2 s e candidates hover chosen s' hchoose vm hfind rest ih => exact ih
  | case3 => rfl

/-! ## Sums in range -/

/-- No sum of a resource that is formed on host `i` exceeds the greatest quantity. -/
structure SumsInRange (p : Pool α) (i : Nat) (h : Host α) (r : WholeUnit) : Prop where
  /-- What is set aside is added up to tell what is left. -/
  available : h.available r = .ok (h.total r - h.used r.part)
  /-- What is set aside for a machine counts as left when the machine is checked. -/
  check : ∀ n k, h.available r = .ok n → n + r.part (h.provisionOf k) ≤ maxQuantity
  /-- A machine grows in place. -/
  scaling : ∀ k v delta n, p.vms.find? k = some v → v.host = some i →
    Pool.scaledQuantity? (h.available r) (v.need r) delta = .ok (some n) → n ≤ maxQuantity
  /-- Machines on the host are taken off its estimate, one after the other. -/
  removal : ∀ threshold e (vs : List (Vm α)), Estimate.ofHost h threshold = .ok e →
    (vs.map (·.id)).Nodup → (∀ v ∈ vs, p.vms.find? v.id = some v ∧ v.host = some i) →
    (vs.foldl (fun e v => e.remove v h.processor) e).left r ≤ maxQuantity
  /-- The machines that a selector chooses are taken off the estimate. -/
  relief : ∀ {σ : Type} (choose : Selector σ α) (s : σ) (eligible : IdSet) threshold e,
    Estimate.ofHost h threshold = .ok e →
    (relieve choose p.time h.processor s e (candidatesOn p eligible h)).estimate.left r
      ≤ maxQuantity

/-- On a host within its capacity sums stay within the capacity. -/
theorem sumsInRange_of_withinCapacity {p : Pool α} (hp : p.Bookkeeping) {i : Nat} {h : Host α}
    (hh : p.hosts[i]? = some h) (hw : h.WithinCapacity) {r : WholeUnit}
    (hrange : h.total r ≤ maxQuantity) : SumsInRange p i h r := by
  have hneed : ∀ {k : Nat} {v : Vm α}, p.vms.find? k = some v → v.host = some i →
      v.need r = r.part (h.provisionOf k) := by
    intro k v hv hi
    rw [hp.provisionOf_resident hh hv hi]
    rfl
  have hremoval : ∀ threshold e (vs : List (Vm α)), Estimate.ofHost h threshold = .ok e →
      (vs.map (·.id)).Nodup → (∀ v ∈ vs, p.vms.find? v.id = some v ∧ v.host = some i) →
      (vs.foldl (fun e v => e.remove v h.processor) e).left r ≤ maxQuantity := by
    intro threshold e vs he hids hvs
    have hleft := Host.of_available_eq_ok ((Estimate.measures_of_ofHost he).available r)
    have hneeds : vs.map (fun v => v.need r)
        = (vs.map (·.id)).map fun k => r.part (h.provisionOf k) := by
      rw [List.map_map]
      exact List.map_congr_left fun v hv => hneed (hvs v hv).1 (hvs v hv).2
    rw [Estimate.left_foldl_remove, hleft, hneeds]
    exact (hw.left_add_sum_le hids r).trans hrange
  -- one machine is a list of machines
  have hone : ∀ k, h.total r - h.used r.part + r.part (h.provisionOf k) ≤ h.total r := by
    intro k
    have hsingle : [k].Nodup := by simp
    simpa using hw.left_add_sum_le hsingle r
  constructor
  case available => exact hw.available_eq_ok hrange
  case check =>
    intro n k hn
    rw [Host.of_available_eq_ok hn]
    exact (hone k).trans hrange
  case scaling =>
    intro k v delta n hv hi hn
    have hroom := hone k
    rw [← hneed hv hi] at hroom
    have hunit : 1 ≤ maxQuantity := by decide
    rcases Pool.scaledQuantity?_outcome hn with ⟨m, havailable, hle, rfl⟩ | rfl
    · rw [Host.of_available_eq_ok havailable] at hle
      omega
    · omega
  case removal => exact hremoval
  case relief =>
    intro σ choose s eligible threshold e he
    obtain ⟨hmem, hids, -⟩ := relieve_outcome choose p.time h.processor s e
      (candidatesOn p eligible h)
    rw [relieve_estimate]
    refine hremoval threshold e _ he hids fun v hv => ?_
    obtain ⟨hfind, hi, -⟩ := of_mem_candidatesOn hp hh (hmem v hv)
    exact ⟨hfind, hi⟩

/-- If every machine asks for one unit of memory and of bandwidth at least throughout a run from the
empty pool, then what is set aside on a host for its residents and for the machines on their way
there never exceeds its capacity, and no sum of quantities overflows where the capacity has
sixty-four bits. -/
theorem capacity_never_exceeded {ops : List (Operation α)} {time : α} {size : Nat} {p : Pool α}
    (hops : ∀ op ∈ ops, op.IsAdmissible)
    (hunits : ∀ n q, (Pool.new time size).performAll (ops.take n) = .ok q → q.AsksUnits)
    (hp : (Pool.new time size).performAll ops = .ok p) {i : Nat} {h : Host α}
    (hh : p.hosts[i]? = some h) (r : WholeUnit) :
    ((h.residents.keys ++ h.incoming.keys).map fun k => r.part (h.provisionOf k)).sum ≤ h.total r
      ∧ (h.total r ≤ maxQuantity → SumsInRange p i h r) := by
  have hbook := Pool.bookkeeping_of_reachable ((Pool.Reachable.new time size).performAll hops hp)
  have hwithin : p.WithinCapacity := by
    refine Pool.withinCapacity_throughout hops hunits ops.length ?_
    rwa [List.take_length]
  have hw := hwithin i h hh
  refine ⟨?_, sumsInRange_of_withinCapacity hbook hh hw⟩
  rw [← hbook.used_eq_sum_seated hh]
  exact hw r

/-- The sample with a machine under way to the third host. On the first one a machine has been
shrunk to one unit of memory, and the other one has taken what was left. -/
def fillingRun : List (Operation α) :=
  Pool.sampleRun ++ [.startMigration 12 2, .scale 11 .ram (-20), .scale 10 .ram 89]

/-- The memory of the first host is set aside to the last unit, and the third one sets some aside
for a machine that is still on its way. -/
theorem capacity_never_exceeded_sample : ∃ (p : Pool Binary64) (h h' : Host Binary64),
    (Pool.new 0 5).performAll fillingRun = .ok p
      ∧ p.hosts[0]? = some h ∧ h.availableRam = .ok 0 ∧ SumsInRange p 0 h .ram
      ∧ p.hosts[2]? = some h' ∧ h'.incoming.keys = [12]
      ∧ ((h'.residents.keys ++ h'.incoming.keys).map fun k => (h'.provisionOf k).ram).sum
        ≤ h'.ram := by
  have hops : ∀ op ∈ (fillingRun : List (Operation Binary64)), op.IsAdmissible := by
    intro op hop
    rcases List.mem_append.mp hop with hop | hop
    · exact Pool.isAdmissible_of_mem_sampleRun (by decide +kernel) op hop
    · simp only [List.mem_cons, List.not_mem_nil, or_false] at hop
      rcases hop with rfl | rfl | rfl <;> trivial
  have hunits : ∀ op ∈ (fillingRun : List (Operation Binary64)), op.AsksUnits := by
    simp [fillingRun, Pool.sampleRun, Pool.sampleVm, Operation.AsksUnits, Vm.new]
  obtain ⟨p, hrun, -, hcheck⟩ := Pool.exists_of_run (fun p =>
    p.hosts[0]?.any (fun h : Host Binary64 =>
        h.availableRam.toOption == some 0 && decide (h.ram ≤ maxQuantity))
      && p.hosts[2]?.any fun h : Host Binary64 => decide (h.incoming.keys = [12]))
    hops (by decide +kernel)
  simp only [Bool.and_eq_true, Option.any_eq_true, beq_iff_eq, decide_eq_true_eq] at hcheck
  obtain ⟨⟨h, hh, hfull, hrange⟩, h', hh', hcoming⟩ := hcheck
  have hthroughout : ∀ n (q : Pool Binary64),
      (Pool.new 0 5).performAll (fillingRun.take n) = .ok q → q.AsksUnits :=
    Pool.asksUnits_throughout hops hunits
  obtain ⟨-, hsums⟩ := capacity_never_exceeded hops hthroughout hrun hh .ram
  obtain ⟨hwithin, -⟩ := capacity_never_exceeded hops hthroughout hrun hh' .ram
  exact ⟨p, h, h', hrun, hh, Fault.toOption_eq_some.mp hfull, hsums hrange, hh', hcoming, hwithin⟩

end Consolidation

end Datacenter
