import Mathlib.Data.Nat.Cast.Defs
import Datacenter.Proofs.Binary64.Rounding
import Datacenter.Proofs.Pool.Capacity
import Datacenter.Proofs.Pool.Refreshing

/-!
# Machines that are shrunk

A machine that is shrunk is not looked up against what its host has left, because shrinking only
gives back. One unit always remains, however, and a machine that had no unit at all is given one.
So a shrunk machine takes at most one unit more than before (`Pool.TakesAtMost`), and it takes no
more than before exactly unless its size in the resource was zero and the change is made
(`Pool.shrinking_takes_no_more_iff`). `Pool.exists_grown_by_shrinking` is a host that comes to set
aside more than it has in this way.

All that a change of size does to memory, bandwidth and storage is said by one machine and one host:
the record of the machine is replaced, and with it what its host sets aside for it
(`Pool.ResizesTo`).
-/

namespace Datacenter

variable {α : Type}

/-! ## Sizes -/

namespace Vm

/-- How much of a resource a machine has. -/
def amount (v : Vm α) : Resource → Nat
  | .cores => v.vcpus
  | .ram => v.ram
  | .bandwidth => v.bandwidth

/-- A machine with another amount of a resource. -/
def withAmount (v : Vm α) (n : Nat) : Resource → Vm α
  | .cores => { v with vcpus := n }
  | .ram => { v with ram := n }
  | .bandwidth => { v with bandwidth := n }

@[simp] theorem withAmount_id (v : Vm α) (n : Nat) (s : Resource) :
    (v.withAmount n s).id = v.id := by
  cases s <;> rfl

@[simp] theorem storage_withAmount (v : Vm α) (n : Nat) (s : Resource) :
    (v.withAmount n s).storage = v.storage := by
  cases s <;> rfl

theorem amount_withAmount (v : Vm α) (n : Nat) (r s : Resource) :
    (v.withAmount n r).amount s = if s = r then n else v.amount s := by
  cases r <;> cases s <;> rfl

/-- What a machine is left with of a resource when that is shrunk. Core counts have thirty-two bits,
so a greater change is cut off. -/
def shrunk (v : Vm α) (resource : Resource) (delta : Int) : Nat :=
  let change := if resource = .cores then min delta.natAbs maxCount else delta.natAbs
  max (v.amount resource - change) 1

theorem one_le_shrunk (v : Vm α) (resource : Resource) (delta : Int) :
    1 ≤ v.shrunk resource delta :=
  Nat.le_max_right ..

theorem shrunk_le (v : Vm α) (resource : Resource) (delta : Int) :
    v.shrunk resource delta ≤ max (v.amount resource) 1 :=
  max_le_max_right 1 (Nat.sub_le ..)

/-- What is left fits into what was there and what is added, if that makes a unit at least. -/
theorem amount_shrunk_le {v : Vm α} {resource : Resource} {extra : Nat}
    (hunit : 1 ≤ v.amount resource + extra) (delta : Int) (s : Resource) :
    (v.withAmount (v.shrunk resource delta) resource).amount s ≤ v.amount s + extra := by
  rw [amount_withAmount]
  split
  · rename_i hs
    rw [hs]
    exact (v.shrunk_le resource delta).trans (max_le (Nat.le_add_right ..) hunit)
  · exact Nat.le_add_right ..

end Vm

/-! ## What a change of size replaces -/

namespace Pool

variable {p q : Pool α} {vm host : Nat} {v v' : Vm α} {h : Host α} {extra : Nat}

/-- The record of one machine is replaced, and so is what its host sets aside for it. -/
structure ResizesTo (p q : Pool α) (host : Nat) (h : Host α) (v' : Vm α) : Prop where
  vms : q.vms = p.vms.insert v'.id v'
  hosts : ∃ h', q.hosts = p.hosts.set host h' ∧ h.Unchanged h'
    ∧ h'.provisions = h.provisions.insert v'.id (.of v')

/-- From `p` to `q` no size, and nothing that is set aside on a host, grows by more than `extra`. A
host within its capacity exceeds it by no more than that. -/
structure TakesAtMost (p q : Pool α) (extra : Nat) : Prop where
  sizes : ∀ k v', q.vms.find? k = some v' →
    ∃ v, p.vms.find? k = some v ∧ ∀ s, v'.amount s ≤ v.amount s + extra
  totals : ∀ (i : Nat) (h' : Host α), q.hosts[i]? = some h' → ∃ h, p.hosts[i]? = some h ∧
    ∀ r : WholeUnit, h'.used r.part ≤ h.used r.part + extra
      ∧ (h.WithinCapacity → h'.used r.part ≤ h'.total r + extra)

theorem TakesAtMost.refl (p : Pool α) : p.TakesAtMost p 0 where
  sizes _ v hv := ⟨v, hv, fun _ => le_rfl⟩
  totals _ h hh := ⟨h, hh, fun r => ⟨le_rfl, fun hw => hw r⟩⟩

theorem TakesAtMost.mono {extra' : Nat} (hle : extra ≤ extra') (htakes : p.TakesAtMost q extra) :
    p.TakesAtMost q extra' where
  sizes k v' hv' := by
    obtain ⟨v, hv, hsize⟩ := htakes.sizes k v' hv'
    exact ⟨v, hv, fun s => (hsize s).trans (Nat.add_le_add_left hle _)⟩
  totals i h' hh' := by
    obtain ⟨h, hh, htotal⟩ := htakes.totals i h' hh'
    exact ⟨h, hh, fun r => ⟨(htotal r).1.trans (Nat.add_le_add_left hle _), fun hw =>
      ((htotal r).2 hw).trans (Nat.add_le_add_left hle _)⟩⟩

namespace ResizesTo

theorem find? (hresizes : p.ResizesTo q host h v') : q.vms.find? v'.id = some v' := by
  rw [hresizes.vms, IdMap.find?_insert, if_pos rfl]

theorem length_hosts (hresizes : p.ResizesTo q host h v') : q.hosts.length = p.hosts.length := by
  obtain ⟨h', hhosts, -⟩ := hresizes.hosts
  rw [hhosts, List.length_set]

/-- A machine whose needs do not grow by more than `extra` takes no more than that from its host. -/
theorem takesAtMost (hresizes : p.ResizesTo q host h v') (hv : p.vms.find? v'.id = some v)
    (hh : p.hosts[host]? = some h) (hseat : h.provisionOf v'.id = .of v)
    (hsizes : ∀ s, v'.amount s ≤ v.amount s + extra) (hstorage : v'.storage = v.storage) :
    p.TakesAtMost q extra where
  sizes k w hw := by
    rw [hresizes.vms, IdMap.find?_insert] at hw
    split at hw
    · rename_i hk
      obtain rfl := Option.some.inj hw
      exact ⟨v, hk ▸ hv, hsizes⟩
    · exact ⟨w, hw, fun _ => Nat.le_add_right ..⟩
  totals i h₁ hh₁ := by
    obtain ⟨h', hhosts, hsame, hprovisions⟩ := hresizes.hosts
    rw [hhosts, getElem?_setHost hh] at hh₁
    split at hh₁
    · rename_i hi
      obtain rfl := Option.some.inj hh₁
      refine ⟨h, hi ▸ hh, fun r => ?_⟩
      have hneed : v'.need r ≤ v.need r + extra := by
        cases r with
        | ram => exact hsizes .ram
        | bandwidth => exact hsizes .bandwidth
        | storage => exact hstorage.trans_le (Nat.le_add_right ..)
      -- what is set aside for the machine takes the place of what was
      have hused : h'.used r.part + v.need r = h.used r.part + v'.need r := by
        have hinsert := Host.used_insert_add hprovisions r
        rwa [hseat] at hinsert
      refine ⟨by omega, fun hw => ?_⟩
      have hroom := hw r
      rw [hsame.total]
      omega
    · exact ⟨h₁, hh₁, fun r =>
        ⟨Nat.le_add_right .., fun hw => (hw r).trans (Nat.le_add_right ..)⟩⟩

/-- A host on which a machine is on file adapts what is set aside for it. -/
theorem of_resize (hfile : h.provisions.contains v'.id = true) :
    p.ResizesTo (p.resize host h v') host h v' :=
  ⟨rfl, h.reprovision v', rfl, (h.unchanged_reprovision v').1,
    by rw [Host.reprovision, if_pos hfile]⟩

/-- A host on which nothing else is set aside for a machine than before. -/
theorem of_provisions {h' : Host α} (hfile : h.provisions.find? v'.id = some (.of v'))
    (hsame : h.Unchanged h') (hprovisions : h'.provisions = h.provisions)
    (hhosts : q.hosts = p.hosts.set host h') (hvms : q.vms = p.vms.insert v'.id v') :
    p.ResizesTo q host h v' :=
  ⟨hvms, h', hhosts, hsame, by rw [hprovisions, IdMap.insert_of_find?_eq_some hfile]⟩

end ResizesTo

/-! ## Shrinking -/

variable [Scalar α] {resource : Resource} {delta : Int}

omit [Scalar α] in
theorem scaledQuantity?_of_neg (hneg : delta < 0) (available : Except Fault Nat) (quantity : Nat) :
    scaledQuantity? available quantity delta = .ok (some (max (quantity - delta.natAbs) 1)) := by
  unfold scaledQuantity?
  rw [if_neg (Int.not_lt.mpr hneg.le)]
  rfl

theorem scaledCores?_of_neg (hneg : delta < 0) (h : Host α) (v : Vm α) :
    scaledCores? h v delta = some (v.shrunk .cores delta) := by
  unfold scaledCores?
  rw [if_neg (Int.not_lt.mpr hneg.le)]
  rfl

/-- A settled machine is shrunk, unless the processor refuses it a smaller number of cores. -/
theorem exists_resizesTo_of_shrinking (hp : p.Reachable) (hv : p.vms.find? vm = some v)
    (hhost : v.host = some host) (hsettled : v.migration = .settled) (hh : p.hosts[host]? = some h)
    (hneg : delta < 0) (resource : Resource) :
    ∃ b q, p.scale vm resource delta = .ok (b, q) ∧ p.ResizesTo q host h
      (if b = true then v.withAmount (v.shrunk resource delta) resource else v) := by
  have hb := bookkeeping_of_reachable hp
  obtain rfl : v.id = vm := (hb.registered vm).id v hv
  have hfile := hb.find?_provisions_resident hh hv hhost
  have hcontains : h.provisions.contains v.id = true := IdMap.contains_iff.mpr ⟨_, hfile⟩
  rw [scale_of_settled hv hhost hsettled hh hneg.ne]
  cases resource with
  | cores =>
    dsimp only
    rw [scaleCores, scaledCores?_of_neg hneg]
    dsimp only
    split
    · rename_i h' hgranted
      obtain ⟨processor, -, rfl⟩ := Option.map_eq_some_iff.mp hgranted
      exact ⟨true, _, rfl,
        ResizesTo.of_provisions hfile (Host.unchanged_admit? hgranted).1 rfl rfl rfl⟩
    · refine ⟨false, _, rfl, ResizesTo.of_provisions hfile (h.unchanged_update v _).1 ?_ rfl
        (IdMap.insert_of_find?_eq_some hv).symm⟩
      rw [Host.update_eq_renew]
  | ram =>
    dsimp only
    rw [scaledQuantity?_of_neg hneg]
    exact ⟨true, p.resize host h (v.withAmount (v.shrunk .ram delta) .ram), rfl,
      ResizesTo.of_resize hcontains⟩
  | bandwidth =>
    dsimp only
    rw [scaledQuantity?_of_neg hneg]
    exact ⟨true, p.resize host h (v.withAmount (v.shrunk .bandwidth delta) .bandwidth), rfl,
      ResizesTo.of_resize hcontains⟩

/-- Shrinking a placed machine never fails, and it takes at most one unit more than before. It takes
no more than before exactly unless there was nothing to take from and the change is made. -/
theorem shrinking_takes_no_more_iff (hp : p.Reachable) (hv : p.vms.find? vm = some v)
    (hplaced : v.isPlaced = true) (hneg : delta < 0) (resource : Resource) :
    ∃ b q, p.scale vm resource delta = .ok (b, q)
      ∧ q.vms.find? vm
        = some (if b = true then v.withAmount (v.shrunk resource delta) resource else v)
      ∧ q.hosts.length = p.hosts.length ∧ p.TakesAtMost q 1
      ∧ (p.TakesAtMost q 0 ↔ ¬ (b = true ∧ v.amount resource = 0)) := by
  have hb := bookkeeping_of_reachable hp
  obtain ⟨host, hhost⟩ := Option.isSome_iff_exists.mp hplaced
  obtain rfl := (hb.registered vm).id v hv
  by_cases hsettled : v.migration = .settled
  · obtain ⟨h, hh⟩ : ∃ h, p.hosts[host]? = some h :=
      ⟨_, List.getElem?_eq_getElem ((hb.registered v.id).placed v host hv hhost)⟩
    have hseat := hb.provisionOf_resident hh hv hhost
    obtain ⟨b, q, hq, hresizes⟩ :=
      exists_resizesTo_of_shrinking hp hv hhost hsettled hh hneg resource
    have hlength := hresizes.length_hosts
    have hafter := hresizes.find?
    cases b with
    | false =>
      have htakes : p.TakesAtMost q 0 := hresizes.takesAtMost hv hh hseat (fun _ => le_rfl) rfl
      exact ⟨false, q, hq, hafter, hlength, htakes.mono (Nat.zero_le 1),
        fun _ hgrown => Bool.false_ne_true hgrown.1, fun _ => htakes⟩
    | true =>
      rw [if_pos rfl] at hresizes hafter
      rw [Vm.withAmount_id] at hafter
      have htakes : ∀ extra, 1 ≤ v.amount resource + extra → p.TakesAtMost q extra :=
        fun extra hunit => hresizes.takesAtMost ((v.withAmount_id ..).symm ▸ hv) hh
          ((v.withAmount_id ..).symm ▸ hseat) (Vm.amount_shrunk_le hunit delta)
          (v.storage_withAmount ..)
      refine ⟨true, q, hq, hafter, hlength, htakes 1 (Nat.le_add_left ..),
        fun hnomore hgrown => ?_, fun hgrown => htakes 0 ?_⟩
      · -- what had no unit has one now
        obtain ⟨w, hw, hnomore⟩ := hnomore.sizes v.id _ hafter
        obtain rfl := Option.some.inj (hv.symm.trans hw)
        have hle := hnomore resource
        have hunit := v.one_le_shrunk resource delta
        rw [Vm.amount_withAmount, if_pos rfl, hgrown.2] at hle
        omega
      · exact Nat.pos_of_ne_zero fun hnone => hgrown ⟨rfl, hnone⟩
  · -- a machine on its way is not changed
    have hrefused : p.scale v.id resource delta = .ok (false, p) := by
      have hmigrating : v.isMigrating = true := by simpa [Vm.isMigrating] using hsettled
      unfold scale
      simp [hv, hhost, hmigrating, pure, Except.pure]
    exact ⟨false, p, hrefused, hv, rfl, (TakesAtMost.refl p).mono (Nat.zero_le 1),
      fun _ hgrown => Bool.false_ne_true hgrown.1, fun _ => .refl p⟩

/-- Machines whose memory fills a host, the second one because it has none. -/
def fullRun : List (Operation α) :=
  [.addHost (sampleHost "a"), .addVm (.new 1 1 1000 100 10 10 (.constant 1)),
    .addVm (.new 2 1 1000 0 10 10 (.constant 1)), .create 1 0, .create 2 0]

theorem isAdmissible_of_mem_fullRun
    (hzero : (Scalar.isFinite (0 : α) && 0 ≤ (0 : α) && (0 : α) ≤ 1) = true) :
    ∀ op ∈ (fullRun : List (Operation α)), op.IsAdmissible := by
  simp only [fullRun, List.forall_mem_cons, Operation.IsAdmissible]
  exact ⟨isFresh_sampleHost hzero "a", Vm.isWaiting_new .., Vm.isWaiting_new .., trivial, trivial,
    List.forall_mem_nil _⟩

/-- The smallest number of sixty-four bits takes all the memory of a machine but one unit. -/
theorem shrinking_takes_no_more_iff_sample : ∃ (p q : Pool Binary64) (b : Bool) (v : Vm Binary64),
    (Pool.new 0 5).performAll fullRun = .ok p ∧ p.scale 1 .ram (-9223372036854775808) = .ok (b, q)
      ∧ p.vms.find? 1 = some v ∧ v.shrunk .ram (-9223372036854775808) = 1 ∧ p.TakesAtMost q 0 := by
  obtain ⟨p, hrun, hp, hcheck⟩ := exists_of_run (fun p : Pool Binary64 =>
    (p.vms.find? 1).any fun v : Vm Binary64 => v.isPlaced && decide (v.amount .ram = 100)
      && decide (v.shrunk .ram (-9223372036854775808) = 1))
    (isAdmissible_of_mem_fullRun (by decide +kernel)) (by decide +kernel)
  simp only [Option.any_eq_true, Bool.and_eq_true, decide_eq_true_eq] at hcheck
  obtain ⟨v, hv, ⟨hplaced, hram⟩, hshrunk⟩ := hcheck
  have hneg : (-9223372036854775808 : Int) < 0 := by decide
  obtain ⟨b, q, hq, -, -, -, hnomore⟩ := shrinking_takes_no_more_iff hp hv hplaced hneg .ram
  refine ⟨p, q, b, v, hrun, hq, hv, hshrunk, hnomore.mpr fun hgrown => ?_⟩
  rw [hram] at hgrown
  exact absurd hgrown.2 (by decide)

/-- A machine without memory is shrunk by one unit and has one unit then. Its host, which was full,
has come to set aside more than it has. -/
theorem exists_grown_by_shrinking : ∃ (p q : Pool Binary64) (v v' : Vm Binary64)
    (h h' : Host Binary64), p.Reachable ∧ (Pool.new 0 5).performAll fullRun = .ok p
    ∧ p.scale 2 .ram (-1) = .ok (true, q) ∧ p.vms.find? 2 = some v ∧ q.vms.find? 2 = some v'
    ∧ v.ram = 0 ∧ v'.ram = 1 ∧ p.hosts[0]? = some h ∧ q.hosts[0]? = some h'
    ∧ h.used WholeUnit.ram.part = 100 ∧ h'.used WholeUnit.ram.part = 101 ∧ h.WithinCapacity
    ∧ ¬ h'.WithinCapacity := by
  obtain ⟨p, hrun, hp, hcheck⟩ := exists_of_run (fun p : Pool Binary64 =>
    (p.scale 2 .ram (-1)).toOption.any fun r => r.1
      && (p.vms.find? 2).any fun v : Vm Binary64 => decide (v.ram = 0)
      && (r.2.vms.find? 2).any fun v' : Vm Binary64 => decide (v'.ram = 1)
      && p.hosts[0]?.any fun h : Host Binary64 => decide (h.used WholeUnit.ram.part = 100)
      && decide (h.ram = 100)
      && decide (h.used WholeUnit.bandwidth.part ≤ h.bandwidth)
      && decide (h.used WholeUnit.storage.part ≤ h.storage)
      && r.2.hosts[0]?.any fun h' : Host Binary64 => decide (h'.used WholeUnit.ram.part = 101)
      && decide (h'.ram = 100))
    (isAdmissible_of_mem_fullRun (by decide +kernel)) (by decide +kernel)
  simp only [Option.any_eq_true, Bool.and_eq_true, decide_eq_true_eq,
    Fault.toOption_eq_some] at hcheck
  obtain ⟨⟨b, q⟩, hq, rfl, v, hv, hnone, v', hv', hone, h, hh,
    ⟨⟨⟨hused, hram⟩, hbandwidth⟩, hstorage⟩, h', hh', hused', hram'⟩ := hcheck
  refine ⟨p, q, v, v', h, h', hp, hrun, hq, hv, hv', hnone, hone, hh, hh', hused, hused', ?_,
    fun hwithin => ?_⟩
  · rintro (_ | _ | _)
    · exact (hused.trans hram.symm).le
    · exact hbandwidth
    · exact hstorage
  · have hle : h'.used WholeUnit.ram.part ≤ h'.ram := hwithin .ram
    omega

end Pool

end Datacenter
