import Datacenter.Proofs.Processor.Covering
import Datacenter.Proofs.Processor.Renewing

/-!
# Machines that keep their cores

Under space sharing the cores of a machine are chosen when it is admitted: they work, and each of
them is fast enough for what the machine asks for at that moment (`Processor.coresOf_admit?`). From
then on the machine keeps them (`Processor.KeepsCoresOf`) for as long as it is on file for the same
number of virtual cores, whatever happens to other machines and whatever it asks for itself. What it
asks for may rise in the meantime; whether its cores are fast enough for it is not looked at again.
-/

namespace Datacenter.Processor

variable {α : Type} [Scalar α] {p q r : Processor α} {vm : Vm α} {requested : List α}
  {id count : Nat}

omit [Scalar α] in
/-- A machine is on file for some number of virtual cores. -/
def Registers (p : Processor α) (id count : Nat) : Prop :=
  ∃ r, p.ledger.requests.find? id = some r ∧ r.share.length = count

omit [Scalar α] in
theorem Registers.contains (h : p.Registers id count) : p.ledger.contains id = true := by
  obtain ⟨r, hr, -⟩ := h
  exact IdMap.contains_iff.mpr ⟨r, hr⟩

/-! ## Where the cores of a machine are -/

/-- A new sharing leaves their cores to the machines that are registered. -/
theorem placesOf_reshare (h : p.ledger.contains id = true) :
    p.reshare.placesOf id = p.placesOf id := by
  cases hd : p.discipline with
  | timeShared =>
    have hshared : p.reshare.discipline = .timeShared :=
      discipline_of_shared ((isDedicated_reshare p).trans (by rw [isDedicated, hd]))
    rw [placesOf, placesOf, hshared, hd]
  | spaceShared a =>
    have hfind : (a.filter fun id _ => p.ledger.contains id).find? id = a.find? id := by
      rw [IdMap.find?_filter]
      cases a.find? id with
      | none => rfl
      | some is => exact Option.filter_eq_some_iff.mpr ⟨rfl, h⟩
    rw [placesOf, placesOf, discipline_reshare hd, hd, Discipline.assignment, Discipline.assignment,
      SpaceShared.assigned, SpaceShared.assigned, hfind]

/-- A machine that asks for as many cores as it is on file for keeps those it has, and so do all
others. -/
theorem assigned_admission? [OrderedScalar α] (hp : p.Reachable) {discipline : Discipline}
    (hadmission : p.admission? vm requested = some discipline)
    (hsame : id = vm.id → p.Registers id requested.length) :
    SpaceShared.assigned discipline.assignment id = p.placesOf id := by
  cases hd : p.discipline with
  | timeShared => rw [(admission?_of_timeShared hd hadmission).2, placesOf, hd]
  | spaceShared a =>
    obtain ⟨a', rfl, hadmit⟩ := admission?_of_spaceShared hd hadmission
    rw [placesOf, hd, Discipline.assignment, Discipline.assignment]
    by_cases hid : id = vm.id
    · obtain ⟨r, hr, hcount⟩ := hsame hid
      rw [hid] at hr
      have hdedicates := dedicates_of_reachable hp hd
      obtain ⟨is, his⟩ : ∃ is, a.find? vm.id = some is := IdMap.contains_iff.mp <| by
        rw [hdedicates.registered]
        exact IdMap.contains_iff.mpr ⟨r, hr⟩
      have hkept : (a.find? vm.id).map List.length = some requested.length := by
        rw [his, Option.map_some, hdedicates.length vm.id is r his hr, hcount]
      rw [SpaceShared.admit?, if_pos hkept] at hadmit
      rw [Option.some.inj hadmit]
    · rw [SpaceShared.assigned, SpaceShared.assigned, (SpaceShared.contains_admit? hadmit).2 id hid]

/-! ## From one processor to another -/

/-- From `p` to `q` a machine keeps its cores. -/
structure KeepsCoresOf (id : Nat) (p q : Processor α) : Prop extends p.SameBuild q where
  /-- The cores of the machine are where they were. -/
  places : q.placesOf id = p.placesOf id

namespace KeepsCoresOf

omit [Scalar α] in
theorem refl (p : Processor α) : p.KeepsCoresOf id p :=
  ⟨.refl p, rfl⟩

omit [Scalar α] in
theorem trans (hpq : p.KeepsCoresOf id q) (hqr : q.KeepsCoresOf id r) : p.KeepsCoresOf id r :=
  ⟨hpq.toSameBuild.trans hqr.toSameBuild, hqr.places.trans hpq.places⟩

omit [Scalar α] in
/-- The cores of the machine are as fast as they were. -/
theorem capacities_coresOf (hkeeps : p.KeepsCoresOf id q) :
    (q.coresOf id).map (·.capacity) = (p.coresOf id).map (·.capacity) := by
  have hread : ∀ p : Processor α, (p.coresOf id).map (·.capacity)
      = (p.placesOf id).filterMap ((p.cores.map (·.capacity))[·]?) := by
    intro p
    simp only [coresOf, List.map_filterMap, List.getElem?_map]
  rw [hread, hread, hkeeps.capacities, hkeeps.places]

/-- An operation leaves its cores to a machine that is on file before and after it for as many
virtual cores. -/
theorem perform [OrderedScalar α] (hp : p.Reachable) {op : Operation α} (hq : p.perform op = .ok q)
    (hbefore : p.Registers id count) (hafter : q.Registers id count) : p.KeepsCoresOf id q := by
  refine ⟨SameBuild.perform hq, ?_⟩
  rcases perform_outcome hq with rfl | ⟨discipline, ledger, rfl, -, -, hd⟩ | ⟨i, -, rfl⟩
  · rfl
  · have hcontains := hafter.contains
    rw [withLedger_ledger] at hcontains
    refine (placesOf_reshare (p := { p with discipline := discipline, ledger := ledger })
      hcontains).trans ?_
    rcases hd with rfl | ⟨vm, requested, rfl, hadmission⟩
    · rfl
    · refine assigned_admission? hp hadmission fun hid => ?_
      -- the machine is on file afterwards for what it has asked for
      have hledger : ledger = p.ledger.register vm requested := by
        have hledgers := congrArg Processor.ledger (Except.ok.inj hq)
        rwa [admit?, hadmission, Option.map_some, Option.getD_some, withLedger_ledger,
          withLedger_ledger, eq_comm] at hledgers
      obtain ⟨r, hr, hcount⟩ := hafter
      rw [withLedger_ledger, hledger, Ledger.register, IdMap.find?_insert, if_pos hid] at hr
      obtain rfl := Option.some.inj hr
      obtain rfl : requested.length = count := hcount
      exact hbefore
  · exact placesOf_reshare (p := { p with cores := p.cores.modify i (·.fail) }) hbefore.contains

/-- A machine keeps its cores when it is asked for together with others, each of which is on file
for as many cores as it has. -/
theorem foldl_renew [OrderedScalar α] (hp : p.Reachable) {vms : List (Vm α)}
    (hvms : ∀ v ∈ vms, p.Knows v) (hids : IsUnambiguous vms) (time : α)
    (hregisters : p.Registers id count) : p.KeepsCoresOf id (vms.foldl (renew time) p) := by
  rw [Processor.foldl_renew hp hvms hids]
  have hcontains : (p.ledger.registerAll time (vms.filter p.serves)).contains id = true := by
    rw [Ledger.contains_registerAll fun v hv => (hvms v (List.mem_of_mem_filter hv)).contains]
    exact hregisters.contains
  refine ⟨⟨capacities_reshare _, ?_, isDedicated_reshare _⟩, placesOf_reshare hcontains⟩
  rw [withLedger_ledger]
  exact List.foldlRecOn (motive := fun l : Ledger α => l.overhead = p.ledger.overhead) _ _ rfl
    fun _ hl _ _ => hl

end KeepsCoresOf

/-- The cores that a machine is given when it is admitted, other than for as many virtual cores as
it is on file for, work, and they are fast enough for all that is asked for then. -/
theorem coresOf_admit? [Std.Irrefl (α := α) (· < ·)] (hp : p.Reachable)
    (hgranted : p.admit? vm requested = some q) (hdedicated : q.isDedicated = true)
    (hnew : ¬ p.Registers vm.id requested.length) :
    ∀ c ∈ q.coresOf vm.id, c.isWorking = true ∧ Scalar.largest requested ≤ c.capacity := by
  intro c hc
  obtain ⟨i, hi, hget⟩ := mem_coresOf.mp hc
  obtain ⟨discipline, hadmission, hq⟩ := Option.map_eq_some_iff.mp hgranted
  obtain ⟨a, ha⟩ := discipline_of_dedicated ((isDedicated_admit? hgranted).symm.trans hdedicated)
  obtain ⟨a', rfl, hadmit⟩ := admission?_of_spaceShared ha hadmission
  obtain ⟨-, hsame⟩ | ⟨-, rfl⟩ := SpaceShared.admit?_outcome hadmit
  · obtain ⟨is, his, hlength⟩ := Option.map_eq_some_iff.mp hsame
    obtain ⟨r, hr, hcount⟩ := holdsRequests_of_reachable hp a ha vm.id is his
    exact absurd ⟨r, hr, hcount.trans hlength⟩ hnew
  -- the assignment is the one of the admission, the machine being registered
  have hregistered : (p.ledger.register vm requested).contains vm.id = true := by
    simp [Ledger.contains, Ledger.register]
  rw [← hq, withLedger, placesOf_reshare hregistered, placesOf, Discipline.assignment,
    SpaceShared.assigned, IdMap.find?_insert, if_pos rfl, Option.getD_some] at hi
  obtain ⟨c', hc', -, hworking, hfast⟩ := SpaceShared.mem_freeCores.mp (List.mem_of_mem_take hi)
  obtain ⟨c'', hc'', hcapacity, hworking'⟩ := exists_of_makeup (makeup_admit? hgranted) hc'
  obtain rfl := Option.some.inj (hc''.symm.trans hget)
  exact ⟨hworking'.trans hworking, hcapacity ▸ hfast⟩

/-- So a machine that is admitted in this way receives all that it asks for, less the overhead, if
that is the same for all of its virtual cores. -/
theorem allocatedTo_admit? [FractionScalar α] {x : α} (hp : p.Reachable)
    (hgranted : p.admit? vm (List.replicate count x) = some q) (hdedicated : q.isDedicated = true)
    (hnew : ¬ p.Registers vm.id count) (hfinite : Scalar.isFinite x = true) (hnonneg : 0 ≤ x) :
    q.allocatedTo vm.id = (List.replicate count x).map (· * q.ledger.factor vm.id) := by
  have hq : q.Reachable := hp.grant hgranted
  have hrequest : q.ledger.requests.find? vm.id
      = some ⟨List.replicate count x, vm.isMigrating⟩ := by
    rw [admit?_ledger hgranted, Ledger.register, IdMap.find?_insert, if_pos rfl]
  have hcores := coresOf_admit? hp hgranted hdedicated (by rwa [List.length_replicate])
  obtain ⟨hlength, -⟩ := allocatedTo_of_dedicated hq hdedicated hrequest hfinite hnonneg
    fun c hc => (hcores c hc).1
  refine allocatedTo_of_fast hq hdedicated hrequest hfinite hnonneg fun c hc => ?_
  have hcount : count ≠ 0 := hlength ▸ List.length_pos_of_mem hc |>.ne'
  obtain ⟨hworking, hlargest⟩ := hcores c hc
  exact ⟨hworking, LawfulScalar.le_trans (Scalar.le_largest_replicate hcount hnonneg) hlargest⟩

end Datacenter.Processor
