import Datacenter.Proofs.Host.Capacity
import Datacenter.Proofs.Pool.Preservation

/-!
# Pools within their capacity

On no host of a pool is more set aside than it has: `Pool.withinCapacity_throughout` says so of all
runs from the empty pool in which every machine asks for one unit of memory and of bandwidth at
least (`Pool.AsksUnits`). A machine that asked for less would grow when it is shrunk, since
shrinking leaves one unit; that machines never come to ask for less is `asksUnits_throughout`.

Most operations set nothing aside. A machine that comes has been checked against what is left, on
the target of a migration, too, and a machine that grows takes no more than what is left.
-/

namespace Datacenter

variable {α : Type} [Scalar α]

namespace Host.WithinCapacity

variable {h h' : Host α}

theorem new_of_isFresh (hfresh : h.IsFresh) (id size : Nat) :
    ({ h with id := id }.withHistory (.empty size)).WithinCapacity := by
  cases hfresh
  exact fun r => Nat.zero_le _

theorem admit? (hw : h.WithinCapacity) {vm : Vm α} {requested : List α}
    (hgranted : h.admit? vm requested = some h') : h'.WithinCapacity := by
  obtain ⟨p, -, rfl⟩ := Option.map_eq_some_iff.mp hgranted
  exact hw

theorem update (hw : h.WithinCapacity) (vm : Vm α) (requested : List α) :
    (h.update vm requested).WithinCapacity := by
  unfold Host.update
  cases hgranted : h.admit? vm requested with
  | none => exact hw
  | some h' => exact hw.admit? hgranted

theorem receive (hw : h.WithinCapacity) (id : Nat) : (h.receive id).WithinCapacity := by
  unfold Host.receive
  split <;> exact hw

theorem remove (hw : h.WithinCapacity) (id : Nat) : (h.remove id).WithinCapacity :=
  hw.of_erase (h.unchanged_remove id).1 rfl

theorem failCore (hw : h.WithinCapacity) {i : Nat} (hfail : h.failCore i = .ok h') :
    h'.WithinCapacity := by
  obtain ⟨p, -, hfail⟩ := Fault.bind_eq_ok.mp hfail
  cases hfail
  exact hw

end Host.WithinCapacity

omit [Scalar α] in
/-- A quantity of one unit at least becomes greater by no more than what is left. -/
theorem Host.scaledQuantity?_le {h : Host α} {r : WholeUnit} {quantity n : Nat} {delta : Int}
    (hunit : 1 ≤ quantity)
    (hn : Pool.scaledQuantity? (h.available r) quantity delta = .ok (some n)) :
    n ≤ h.total r - h.used r.part + quantity := by
  rcases Pool.scaledQuantity?_outcome hn with ⟨m, havailable, hle, rfl⟩ | rfl
  · rw [of_available_eq_ok havailable] at hle
    omega
  · omega

namespace Pool

/-- What is set aside for a resident is what it needs. -/
theorem Bookkeeping.find?_provisions_resident {p : Pool α} (hp : p.Bookkeeping) {i : Nat}
    {h : Host α} (hh : p.hosts[i]? = some h) {v : Vm α} {k : Nat} (hv : p.vms.find? k = some v)
    (hi : v.host = some i) : h.provisions.find? k = some (.of v) := by
  have hagrees := hp.agrees i h hh k
  have hseat : (h.entry k).isSeated = true := by
    simp [Entry.isSeated, hagrees.resident, hv, hi]
  have hprovision := hagrees.provision
  rw [hseat, if_pos rfl, hv] at hprovision
  exact hprovision

theorem Bookkeeping.provisionOf_resident {p : Pool α} (hp : p.Bookkeeping) {i : Nat} {h : Host α}
    (hh : p.hosts[i]? = some h) {v : Vm α} {k : Nat} (hv : p.vms.find? k = some v)
    (hi : v.host = some i) : h.provisionOf k = .of v :=
  congrArg (·.getD .none) (hp.find?_provisions_resident hh hv hi)

/-- On no host is more set aside than it has. -/
def WithinCapacity (p : Pool α) : Prop :=
  ∀ (i : Nat) (h : Host α), p.hosts[i]? = some h → h.WithinCapacity

/-- Every registered machine asks for one unit of memory and of bandwidth at least. -/
def AsksUnits (p : Pool α) : Prop :=
  ∀ v ∈ p.vms.values, 1 ≤ v.ram ∧ 1 ≤ v.bandwidth

variable {p q : Pool α} {b : Bool}

namespace WithinCapacity

omit [Scalar α] in
theorem setHost (hp : p.WithinCapacity) {i : Nat} {h h' : Host α} (hh : p.hosts[i]? = some h)
    (hw : h'.WithinCapacity) (hhosts : q.hosts = p.hosts.set i h') : q.WithinCapacity := by
  intro j h₁ hh₁
  rw [hhosts, getElem?_setHost hh] at hh₁
  split at hh₁
  · cases hh₁
    exact hw
  · exact hp j h₁ hh₁

omit [Scalar α] in
theorem modifyHost (hp : p.WithinCapacity) {i : Nat} {f : Host α → Host α}
    (hf : ∀ h, p.hosts[i]? = some h → h.WithinCapacity → (f h).WithinCapacity) :
    (p.modifyHost i f).WithinCapacity := by
  intro j h' hh'
  rw [getElem?_modifyHost] at hh'
  split at hh'
  · rename_i hj
    subst hj
    obtain ⟨h, hh, rfl⟩ := Option.map_eq_some_iff.mp hh'
    exact hf h hh (hp j h hh)
  · exact hp j h' hh'

omit [Scalar α] in
theorem switchOffIfPending (hp : p.WithinCapacity) (i : Nat) :
    (p.switchOffIfPending i).WithinCapacity := by
  intro j h' hh'
  obtain ⟨h, hh, rfl | ⟨-, -, rfl⟩⟩ := switchOffIfPending_host p i hh'
  · exact hp j h' hh
  · exact hp j h hh

/-! ## Operations -/

omit [Scalar α] in
theorem new (time : α) (size : Nat) : (Pool.new time size).WithinCapacity :=
  fun _ _ hh => nomatch hh

theorem addHost (hp : p.WithinCapacity) {h : Host α} (hfresh : h.IsFresh) {id : Nat}
    (hq : p.addHost h = .ok (id, q)) : q.WithinCapacity := by
  obtain ⟨-, rfl⟩ := addHost_outcome hq
  intro i h' hh'
  rw [List.getElem?_append] at hh'
  split at hh'
  · exact hp i h' hh'
  · rw [List.getElem?_singleton] at hh'
    split at hh'
    · cases hh'
      exact .new_of_isFresh hfresh _ _
    · contradiction

theorem create (hp : p.WithinCapacity) {vm host : Nat} (hq : p.create vm host = .ok (b, q)) :
    q.WithinCapacity := by
  rcases create_outcome hq with ⟨-, rfl⟩ | ⟨-, v, h, h', -, -, hh, hcheck, hcreate, rfl⟩
  · exact hp
  · exact hp.setHost hh ((hp host h hh).create? hcheck hcreate) rfl

theorem destroy (hp : p.WithinCapacity) (hbook : p.Bookkeeping) (vm : Nat) :
    (p.destroy vm).2.WithinCapacity := by
  cases hloc : p.location? vm with
  | none =>
    rw [destroy_of_not_placed hloc]
    exact hp
  | some source =>
    rw [destroy_of_placed hloc]
    apply switchOffIfPending
    intro i h' hh'
    rw [getElem?_vacate (hbook.target_ne hloc)] at hh'
    split at hh'
    · obtain ⟨h, hh, rfl⟩ := Option.map_eq_some_iff.mp hh'
      exact (hp i h hh).remove vm
    · exact hp i h' hh'

theorem startMigration (hp : p.WithinCapacity) {vm target : Nat}
    (hq : p.startMigration vm target = .ok (b, q)) : q.WithinCapacity := by
  rcases startMigration_outcome hq with
    ⟨-, rfl⟩ | ⟨v, source, h, h', -, -, -, -, hh, hcheck, hexpect, hq⟩
  · exact hp
  have htarget : ({ p with hosts := p.hosts.set target h' } : Pool α).WithinCapacity :=
    hp.setHost hh ((hp target h hh).expect hcheck hexpect) rfl
  rcases hq with ⟨-, rfl⟩ | ⟨-, rfl⟩
  · exact htarget
  · exact htarget.modifyHost fun _ _ hw => hw

theorem finishMigration (hp : p.WithinCapacity) (hbook : p.Bookkeeping) (vm : Nat) :
    (p.finishMigration vm).2.WithinCapacity := by
  cases hmig : p.migrations.find? vm with
  | none =>
    rw [finishMigration_of_none hmig]
    exact hp
  | some target =>
    obtain ⟨-, v, source, hv, hs, -⟩ := (hbook.registered vm).target target hmig
    rw [finishMigration_of_some hmig hv hs]
    apply switchOffIfPending
    refine modifyHost (modifyHost ?_ fun _ _ hw => hw.remove vm) fun _ _ hw => hw.receive vm
    exact hp

theorem execute (hp : p.WithinCapacity) {plan : MigrationPlan} {count : Nat}
    (hq : p.execute plan = .ok (count, q)) : q.WithinCapacity := by
  obtain ⟨kept, r, hstart, hmark⟩ := execute_outcome hq
  have hr : r.WithinCapacity := startAll_induction hstart (fun hq hp => hp.startMigration hq) hp
  refine markAllOff_induction hmark (fun {r i h} _ hr => ?_) hr
  have hmarked : ({ r with pendingOff := r.pendingOff.add i } : Pool α).WithinCapacity := hr
  exact hmarked.switchOffIfPending i

/-- A machine that grows takes no more than what is left, and one that shrinks asks for less. -/
theorem scale (hp : p.WithinCapacity) (hbook : p.Bookkeeping) (hunits : p.AsksUnits) {vm : Nat}
    {resource : Resource} {delta : Int} (hq : p.scale vm resource delta = .ok (b, q)) :
    q.WithinCapacity := by
  rcases scale_outcome hq with rfl | ⟨v, host, h, hv, hplaced, hsettled, hh, hcase⟩
  · exact hp
  have hw := hp host h hh
  rcases hcase with ⟨count, h', -, hgranted, rfl⟩ | ⟨-, rfl⟩
    | ⟨ram, bandwidth, -, hram, hbandwidth, rfl⟩
  · exact hp.setHost hh (hw.admit? hgranted) rfl
  · exact hp.setHost hh (hw.update v _) rfl
  obtain ⟨hramUnit, hbandwidthUnit⟩ := hunits v (IdMap.mem_values_iff.mpr ⟨vm, hv⟩)
  obtain rfl : v.id = vm := (hbook.registered vm).id v hv
  have hseat := hbook.provisionOf_resident hh hv hplaced
  have hresized : (h.reprovision { v with ram := ram, bandwidth := bandwidth }).WithinCapacity := by
    refine hw.reprovision (v := v) rfl hseat ?_
    rintro (_ | _ | _)
    · rcases hram with rfl | hram
      · exact Nat.le_add_left ..
      · exact Host.scaledQuantity?_le hramUnit hram
    · rcases hbandwidth with rfl | hbandwidth
      · exact Nat.le_add_left ..
      · exact Host.scaledQuantity?_le (r := .bandwidth) hbandwidthUnit hbandwidth
    · exact Nat.le_add_left ..
  exact hp.setHost hh hresized rfl

theorem updateProcessing (hp : p.WithinCapacity) : p.updateProcessing.WithinCapacity := by
  have hrefresh : (p.refreshAll p.vms.values).WithinCapacity :=
    refreshAll_induction _ (fun v _ hq => hq.modifyHost fun _ _ hw => hw.update v _) hp
  intro i h' hh'
  rw [Pool.updateProcessing, recordAll, List.getElem?_map] at hh'
  obtain ⟨h, hh, rfl⟩ := Option.map_eq_some_iff.mp hh'
  exact hrefresh i h hh

/-- No operation takes a pool out of its capacity. -/
theorem perform (hp : p.WithinCapacity) (hbook : p.Bookkeeping) (hunits : p.AsksUnits)
    {op : Operation α} (hop : op.IsAdmissible) (hq : p.perform op = .ok q) : q.WithinCapacity := by
  cases op with
  | setTime time =>
    obtain rfl := Except.ok.inj hq
    exact hp
  | advance duration =>
    obtain rfl := Except.ok.inj hq
    exact hp
  | addHost host =>
    obtain ⟨⟨id, _⟩, hdone, rfl⟩ := Fault.map_eq_ok.mp hq
    exact hp.addHost hop hdone
  | addVm vm =>
    obtain ⟨⟨b, _⟩, hdone, rfl⟩ := Fault.map_eq_ok.mp hq
    rcases addVm_outcome hdone with ⟨-, rfl⟩ | ⟨-, -, rfl⟩ <;> exact hp
  | create vm host =>
    obtain ⟨⟨b, _⟩, hdone, rfl⟩ := Fault.map_eq_ok.mp hq
    exact hp.create hdone
  | destroy vm =>
    obtain rfl := Except.ok.inj hq
    exact hp.destroy hbook vm
  | startMigration vm target =>
    obtain ⟨⟨b, _⟩, hdone, rfl⟩ := Fault.map_eq_ok.mp hq
    exact hp.startMigration hdone
  | finishMigration vm =>
    obtain rfl := Except.ok.inj hq
    exact hp.finishMigration hbook vm
  | execute plan =>
    obtain ⟨⟨count, _⟩, hdone, rfl⟩ := Fault.map_eq_ok.mp hq
    exact hp.execute hdone
  | scale vm resource delta =>
    obtain ⟨⟨b, _⟩, hdone, rfl⟩ := Fault.map_eq_ok.mp hq
    exact hp.scale hbook hunits hdone
  | setHostActive host on =>
    obtain ⟨⟨b, _⟩, hdone, rfl⟩ := Fault.map_eq_ok.mp hq
    rcases setHostActive_outcome hdone with ⟨-, rfl⟩ | ⟨-, h, -, -, hhosts, -⟩
    · exact hp
    · intro i h hh
      rw [hhosts] at hh
      exact hp.modifyHost (f := fun h => { h with isActive := on }) (fun _ _ hw => hw) i h hh
  | failCore host core =>
    obtain ⟨h, h', hh, hfail, rfl⟩ := failCore_outcome hq
    exact hp.modifyHost fun _ _ _ => (hp host h hh).failCore hfail
  | updateProcessing =>
    obtain rfl := Except.ok.inj hq
    exact hp.updateProcessing

end WithinCapacity

/-! ## What machines ask for -/

namespace AsksUnits

omit [Scalar α] in
theorem of_find?
    (h : ∀ (k : Nat) (v : Vm α), p.vms.find? k = some v → 1 ≤ v.ram ∧ 1 ≤ v.bandwidth) :
    p.AsksUnits := by
  intro v hv
  obtain ⟨k, hk⟩ := IdMap.mem_values_iff.mp hv
  exact h k v hk

omit [Scalar α] in
theorem find? (hp : p.AsksUnits) {k : Nat} {v : Vm α} (hv : p.vms.find? k = some v) :
    1 ≤ v.ram ∧ 1 ≤ v.bandwidth :=
  hp v (IdMap.mem_values_iff.mpr ⟨k, hv⟩)

omit [Scalar α] in
theorem of_sameVms (hp : p.AsksUnits) (hvms : q.vms = p.vms) : q.AsksUnits := by
  rw [AsksUnits, hvms]
  exact hp

omit [Scalar α] in
theorem insert (hp : p.AsksUnits) {k : Nat} {v : Vm α} (hv : 1 ≤ v.ram ∧ 1 ≤ v.bandwidth)
    (hvms : q.vms = p.vms.insert k v) : q.AsksUnits := by
  refine of_find? fun j w hw => ?_
  rw [hvms, IdMap.find?_insert] at hw
  split at hw
  · cases hw
    exact hv
  · exact hp.find? hw

theorem destroy (hp : p.AsksUnits) (vm : Nat) : (p.destroy vm).2.AsksUnits := by
  cases hloc : p.location? vm with
  | none =>
    rw [destroy_of_not_placed hloc]
    exact hp
  | some source =>
    rw [destroy_of_placed hloc]
    refine of_find? fun k w hw => ?_
    rw [switchOffIfPending_vms, find?_vacate_vms] at hw
    split at hw
    · obtain ⟨v, hv, rfl⟩ := Option.map_eq_some_iff.mp hw
      have hunit := hp.find? hv
      exact hunit
    · exact hp.find? hw

theorem startMigration (hp : p.AsksUnits) {vm target : Nat}
    (hq : p.startMigration vm target = .ok (b, q)) : q.AsksUnits := by
  rcases startMigration_outcome hq with
    ⟨-, rfl⟩ | ⟨v, source, h, h', hv, -, -, -, -, -, -, ⟨-, rfl⟩ | ⟨-, rfl⟩⟩
  · exact hp
  · exact hp
  · have hunit := hp.find? hv
    exact hp.insert (v := leaving v) hunit rfl

theorem finishMigration (hp : p.AsksUnits) (hbook : p.Bookkeeping) (vm : Nat) :
    (p.finishMigration vm).2.AsksUnits := by
  cases hmig : p.migrations.find? vm with
  | none =>
    rw [finishMigration_of_none hmig]
    exact hp
  | some target =>
    obtain ⟨-, v, source, hv, hs, -⟩ := (hbook.registered vm).target target hmig
    rw [finishMigration_of_some hmig hv hs]
    have hunit := hp.find? hv
    exact hp.insert (v := { v with migration := .settled }.moveTo (some target) p.time) hunit
      (switchOffIfPending_vms ..)

theorem execute (hp : p.AsksUnits) {plan : MigrationPlan} {count : Nat}
    (hq : p.execute plan = .ok (count, q)) : q.AsksUnits := by
  obtain ⟨kept, r, hstart, hmark⟩ := execute_outcome hq
  have hr : r.AsksUnits := startAll_induction hstart (fun hq hp => hp.startMigration hq) hp
  exact markAllOff_induction hmark (fun _ hr => of_sameVms hr (switchOffIfPending_vms ..)) hr

theorem scale (hp : p.AsksUnits) {vm : Nat} {resource : Resource} {delta : Int}
    (hq : p.scale vm resource delta = .ok (b, q)) : q.AsksUnits := by
  rcases scale_outcome hq with rfl | ⟨v, host, h, hv, -, -, -, hcase⟩
  · exact hp
  obtain ⟨hram, hbandwidth⟩ := hp.find? hv
  -- one unit remains of what is shrunk
  have hunit : ∀ {available : Except Fault Nat} {quantity n : Nat}, 1 ≤ quantity →
      n = quantity ∨ scaledQuantity? available quantity delta = .ok (some n) → 1 ≤ n := by
    intro available quantity n hquantity hn
    rcases hn with rfl | hn
    · exact hquantity
    · rcases scaledQuantity?_outcome hn with ⟨m, -, -, rfl⟩ | rfl <;> omega
  rcases hcase with ⟨count, h', -, -, rfl⟩ | ⟨-, rfl⟩ | ⟨ram, bandwidth, -, hram', hbandwidth', rfl⟩
  · exact hp.insert (v := { v with vcpus := count }) ⟨hram, hbandwidth⟩ rfl
  · exact hp
  · exact hp.insert (v := { v with ram := ram, bandwidth := bandwidth })
      ⟨hunit hram hram', hunit hbandwidth hbandwidth'⟩ rfl

theorem updateProcessing (hp : p.AsksUnits) : p.updateProcessing.AsksUnits := by
  have hrefresh : (p.refreshAll p.vms.values).AsksUnits :=
    refreshAll_induction _ (fun _ _ hq => of_sameVms hq rfl) hp
  refine of_find? fun k w hw => ?_
  rw [Pool.updateProcessing, recordAll, IdMap.find?_map] at hw
  obtain ⟨v, hv, rfl⟩ := Option.map_eq_some_iff.mp hw
  obtain ⟨-, -, -, hneeds, -⟩ := Bookkeeping.recordVm_fields (p.refreshAll p.vms.values).time v
  obtain ⟨hram, hbandwidth, -⟩ := Provision.mk.inj hneeds
  rw [hram, hbandwidth]
  exact hrefresh.find? hv

end AsksUnits

end Pool

/-- A machine that is added asks for one unit of memory and of bandwidth at least. -/
def Operation.AsksUnits : Operation α → Prop
  | addVm vm => 1 ≤ vm.ram ∧ 1 ≤ vm.bandwidth
  | _ => True

namespace Pool

variable {p q : Pool α}

/-- Machines never come to ask for less than one unit. -/
theorem AsksUnits.perform (hp : p.AsksUnits) (hbook : p.Bookkeeping) {op : Operation α}
    (hop : op.AsksUnits) (hq : p.perform op = .ok q) : q.AsksUnits := by
  cases op with
  | setTime time =>
    obtain rfl := Except.ok.inj hq
    exact hp
  | advance duration =>
    obtain rfl := Except.ok.inj hq
    exact hp
  | addHost host =>
    obtain ⟨⟨id, _⟩, hdone, rfl⟩ := Fault.map_eq_ok.mp hq
    obtain ⟨-, rfl⟩ := addHost_outcome hdone
    exact hp
  | addVm vm =>
    obtain ⟨⟨b, _⟩, hdone, rfl⟩ := Fault.map_eq_ok.mp hq
    rcases addVm_outcome hdone with ⟨-, rfl⟩ | ⟨-, -, rfl⟩
    · exact hp
    · exact hp.insert (v := vm.withHistory (.empty p.historySize)) hop rfl
  | create vm host =>
    obtain ⟨⟨b, _⟩, hdone, rfl⟩ := Fault.map_eq_ok.mp hq
    rcases create_outcome hdone with ⟨-, rfl⟩ | ⟨-, v, h, h', hv, -, -, -, -, rfl⟩
    · exact hp
    · have hunit := hp.find? hv
      exact hp.insert (v := v.moveTo (some host) p.time) hunit rfl
  | destroy vm =>
    obtain rfl := Except.ok.inj hq
    exact hp.destroy vm
  | startMigration vm target =>
    obtain ⟨⟨b, _⟩, hdone, rfl⟩ := Fault.map_eq_ok.mp hq
    exact hp.startMigration hdone
  | finishMigration vm =>
    obtain rfl := Except.ok.inj hq
    exact hp.finishMigration hbook vm
  | execute plan =>
    obtain ⟨⟨count, _⟩, hdone, rfl⟩ := Fault.map_eq_ok.mp hq
    exact hp.execute hdone
  | scale vm resource delta =>
    obtain ⟨⟨b, _⟩, hdone, rfl⟩ := Fault.map_eq_ok.mp hq
    exact hp.scale hdone
  | setHostActive host on =>
    obtain ⟨⟨b, _⟩, hdone, rfl⟩ := Fault.map_eq_ok.mp hq
    rcases setHostActive_outcome hdone with ⟨-, rfl⟩ | ⟨-, h, -, -, -, hvms, -⟩
    · exact hp
    · exact hp.of_sameVms hvms
  | failCore host core =>
    obtain ⟨h, h', -, -, rfl⟩ := failCore_outcome hq
    exact hp
  | updateProcessing =>
    obtain rfl := Except.ok.inj hq
    exact hp.updateProcessing

/-! ## Runs -/

section

variable {ops : List (Operation α)} {time : α} {size : Nat}

theorem reachable_of_take (hops : ∀ op ∈ ops, op.IsAdmissible) {n : Nat}
    (hq : (Pool.new time size).performAll (ops.take n) = .ok q) : q.Reachable :=
  (Reachable.new time size).performAll (fun op hop => hops op (List.mem_of_mem_take hop)) hq

/-- If every machine that is added asks for one unit at least, all machines do throughout. -/
theorem asksUnits_throughout (hops : ∀ op ∈ ops, op.IsAdmissible)
    (hunits : ∀ op ∈ ops, op.AsksUnits) (n : Nat) (q : Pool α)
    (hq : (Pool.new time size).performAll (ops.take n) = .ok q) : q.AsksUnits := by
  refine throughout_induction (fun _ hv => nomatch hv) (fun n op q r hop hq hp hr => ?_) n hq
  exact hp.perform (bookkeeping_of_reachable (reachable_of_take hops hq))
    (hunits op (List.mem_of_getElem? hop)) hr

/-- If all machines ask for one unit at least throughout a run, it stays within the capacity of all
hosts. -/
theorem withinCapacity_throughout (hops : ∀ op ∈ ops, op.IsAdmissible)
    (hunits : ∀ n q, (Pool.new time size).performAll (ops.take n) = .ok q → q.AsksUnits) (n : Nat)
    (hq : (Pool.new time size).performAll (ops.take n) = .ok q) : q.WithinCapacity := by
  refine throughout_induction (.new time size) (fun n op q r hop hq hp hr => ?_) n hq
  exact hp.perform (bookkeeping_of_reachable (reachable_of_take hops hq)) (hunits n q hq)
    (hops op (List.mem_of_getElem? hop)) hr

end

end Pool

end Datacenter
