import Datacenter.Proofs.Host.Entry
import Datacenter.Proofs.Host.Frame
import Datacenter.Proofs.Pool.Outcome
import Datacenter.Proofs.Processor.Dedicated

/-!
# Hosts that receive machines

`Host.Received` follows a host on which machines arrive one after the other, each of which has
passed the check of the host. Nothing else happens to the host, so of every whole-unit resource
exactly what these machines need is set aside in addition (`Received.used_eq`).

A machine that passes the check is always admitted (`Host.expect_of_check`): the check asks for its
peak, and what the machine asks for when it is expected is a fraction of that.
-/

namespace Datacenter

variable {α : Type} [Scalar α]

/-! ## What is set aside -/

namespace Host

omit [Scalar α] in
/-- What is set aside of a resource for all machines together. -/
def used (h : Host α) (part : Provision → Nat) : Nat :=
  (h.provisions.values.map part).sum

omit [Scalar α] in
theorem left_eq (h : Host α) (total : Nat) (part : Provision → Nat) :
    h.left total part
      = if h.used part ≤ maxQuantity then .ok (total - h.used part) else .error .overflow := by
  have hsum : (h.provisions.values.map part).foldr (· + ·) 0 = h.used part := rfl
  unfold left sumQuantities
  dsimp only
  rw [hsum]
  split <;> rfl

omit [Scalar α] in
theorem left_eq_ok {h : Host α} {total n : Nat} {part : Provision → Nat} :
    h.left total part = .ok n ↔ h.used part ≤ maxQuantity ∧ n = total - h.used part := by
  rw [left_eq]
  split
  · simp [*, eq_comm]
  · simp [*]

omit [Scalar α] in
/-- A machine for which nothing is set aside yet adds what it needs. -/
theorem used_insert {h h' : Host α} {id : Nat} {provision : Provision}
    (hnew : h.provisions.find? id = none)
    (hprovisions : h'.provisions = h.provisions.insert id provision) (part : Provision → Nat) :
    h'.used part = h.used part + part provision := by
  have hperm := (IdMap.toList_insert_perm hnew provision).map fun e => part e.2
  have hvalues : ∀ g : Host α, g.used part = (g.provisions.toList.map fun e => part e.2).sum := by
    intro g
    rw [used, IdMap.values, List.map_map]
    rfl
  rw [hvalues, hvalues, hprovisions, hperm.sum_nat, List.map_cons, List.sum_cons, Nat.add_comm]

omit [Scalar α] in
/-- The quantities of a host have sixty-four bits. -/
structure InRange (h : Host α) : Prop where
  ram : h.ram ≤ maxQuantity
  bandwidth : h.bandwidth ≤ maxQuantity
  storage : h.storage ≤ maxQuantity

omit [Scalar α] in
instance (h : Host α) : Decidable h.InRange :=
  decidable_of_iff (h.ram ≤ maxQuantity ∧ h.bandwidth ≤ maxQuantity ∧ h.storage ≤ maxQuantity)
    ⟨fun ⟨hram, hbandwidth, hstorage⟩ => ⟨hram, hbandwidth, hstorage⟩,
      fun hrange => ⟨hrange.ram, hrange.bandwidth, hrange.storage⟩⟩

/-! ## The check -/

variable {h h' : Host α} {v : Vm α}

/-- What a host has checked of a machine that fits. -/
structure Fits (h : Host α) (v : Vm α) : Prop where
  cores : v.vcpus ≤ h.processor.workingCount
  suitable : h.processor.isSuitable v = true
  ram : ∃ n, h.availableRam = .ok n ∧ v.ram ≤ n + (h.provisionOf v.id).ram
  bandwidth : ∃ n, h.availableBandwidth = .ok n ∧ v.bandwidth ≤ n + (h.provisionOf v.id).bandwidth
  storage : ∃ n, h.availableStorage = .ok n ∧ v.storage ≤ n + (h.provisionOf v.id).storage

theorem fits_of_check (hcheck : h.check v = .ok .success) : h.Fits v := by
  unfold check at hcheck
  dsimp only at hcheck
  split at hcheck
  · cases hcheck
  rename_i hcores
  split at hcheck
  · cases hcheck
  rename_i hsuitable
  obtain ⟨ram, hram, hcheck⟩ := Fault.bind_eq_ok.mp hcheck
  split at hcheck
  · cases hcheck
  rename_i hramEnough
  obtain ⟨bandwidth, hbandwidth, hcheck⟩ := Fault.bind_eq_ok.mp hcheck
  split at hcheck
  · cases hcheck
  rename_i hbandwidthEnough
  obtain ⟨storage, hstorage, hcheck⟩ := Fault.bind_eq_ok.mp hcheck
  split at hcheck
  · cases hcheck
  rename_i hstorageEnough
  exact ⟨Nat.not_lt.mp hcores, by simpa using hsuitable, ⟨ram, hram, Nat.not_lt.mp hramEnough⟩,
    ⟨bandwidth, hbandwidth, Nat.not_lt.mp hbandwidthEnough⟩,
    ⟨storage, hstorage, Nat.not_lt.mp hstorageEnough⟩⟩

/-- Where there are enough cores, memory, bandwidth and storage, only the speed is in question. -/
theorem check_eq {ram bandwidth storage : Nat} (hcores : v.vcpus ≤ h.processor.workingCount)
    (hram : h.availableRam = .ok ram) (hbandwidth : h.availableBandwidth = .ok bandwidth)
    (hstorage : h.availableStorage = .ok storage) (hramEnough : v.ram ≤ ram)
    (hbandwidthEnough : v.bandwidth ≤ bandwidth) (hstorageEnough : v.storage ≤ storage) :
    h.check v = .ok (if h.processor.isSuitable v then .success else .notEnoughSpeed) := by
  unfold check
  rw [hram, hbandwidth, hstorage]
  have hcores : ¬ h.processor.workingCount < v.vcpus := by omega
  have hramEnough : ¬ ram + (h.provisionOf v.id).ram < v.ram := by omega
  have hbandwidthEnough : ¬ bandwidth + (h.provisionOf v.id).bandwidth < v.bandwidth := by omega
  have hstorageEnough : ¬ storage + (h.provisionOf v.id).storage < v.storage := by omega
  cases h.processor.isSuitable v <;>
    simp [hcores, hramEnough, hbandwidthEnough, hstorageEnough, bind, Except.bind, pure,
      Except.pure]

/-- A machine that passes the check is admitted when it is expected, be it marked as leaving by
then. -/
theorem expect_of_check [LawfulScalar α] (hcheck : h.check v = .ok .success)
    (hspeed : 0 ≤ v.speed) (time : α) :
    (h.expect (Pool.leaving v) (v.request time)).1 = true := by
  have hfits := fits_of_check hcheck
  have hadmission : ((h.flag v.id).processor.admission? (Pool.leaving v)
      (v.request time)).isSome :=
    Processor.isSome_admission? hfits.suitable hfits.cores hspeed rfl rfl time
  obtain ⟨discipline, hdiscipline⟩ := Option.isSome_iff_exists.mp hadmission
  rw [expect_eq, show (Pool.leaving v).id = v.id from rfl, admit?, Processor.admit?, hdiscipline]
  rfl

/-- A machine that is expected has been admitted, and what it needs is set aside. -/
theorem of_expect {requested : List α} (hexpect : h.expect v requested = (true, h')) :
    (h.processor.markArriving v.id).admit? v requested = some h'.processor
      ∧ h'.provisions = h.provisions.insert v.id (.of v) := by
  rw [expect_eq] at hexpect
  split at hexpect
  · rename_i h₁ hgranted
    obtain ⟨q, hq, rfl⟩ := Option.map_eq_some_iff.mp hgranted
    cases hexpect
    exact ⟨hq, rfl⟩
  · cases hexpect

/-! ## One machine after the other -/

/-- The machines `vs` have passed the check of a host and are expected there, one after the other,
and nothing else has happened to the host. -/
inductive Received (time : α) (h : Host α) : List (Vm α) → Host α → Prop where
  /-- No machine has come. -/
  | nil : Received time h [] h
  /-- One more machine comes, for which the host has nothing on file. -/
  | snoc {h₁ h₂ : Host α} {vs : List (Vm α)} {v : Vm α} : Received time h vs h₁ →
      h₁.entry v.id = .blank → h₁.check v = .ok .success →
      h₁.expect (Pool.leaving v) (v.request time) = (true, h₂) →
      Received time h (vs ++ [v]) h₂

namespace Received

variable {time : α} {vs : List (Vm α)}

theorem unchanged (hr : h.Received time vs h') : h.Unchanged h' := by
  induction hr with
  | nil => exact .refl h
  | snoc _ _ _ hexpect ih => exact ih.trans (unchanged_expect hexpect).1

theorem makeup [Std.Irrefl (α := α) (· < ·)] (hr : h.Received time vs h') :
    Datacenter.makeup h'.processor.cores = Datacenter.makeup h.processor.cores := by
  induction hr with
  | nil => rfl
  | snoc _ _ _ hexpect ih => exact (makeup_expect hexpect).trans ih

/-- Exactly what the machines need has been set aside in addition. -/
theorem used_eq (hr : h.Received time vs h') (part : Provision → Nat) :
    h'.used part = h.used part + (vs.map fun v => part (.of v)).sum := by
  induction hr with
  | nil => simp
  | @snoc h₁ h₂ vs v _ hblank _ hexpect ih =>
    have hnew := congrArg Entry.provision hblank
    have hprovisions : h₂.provisions = h₁.provisions.insert v.id (.of v) := (of_expect hexpect).2
    rw [used_insert hnew hprovisions part, ih, List.map_append, List.sum_append_nat, Nat.add_assoc]
    simp

/-- Machines take no more cores of their own than they have virtual ones. -/
theorem held (hr : h.Received time vs h') {a : SpaceShared.Assignment}
    (hd : h.processor.discipline = .spaceShared a) :
    ∃ (a' : SpaceShared.Assignment) (extra : List Nat), h'.processor.discipline = .spaceShared a'
      ∧ extra.length ≤ (vs.map (·.vcpus)).sum
      ∧ ∀ i ∈ SpaceShared.held a', i ∈ SpaceShared.held a ∨ i ∈ extra := by
  induction hr with
  | nil => exact ⟨a, [], hd, Nat.zero_le _, fun _ hi => .inl hi⟩
  | @snoc h₁ h₂ vs v _ _ _ hexpect ih =>
    obtain ⟨a₁, extra, hd₁, hlength, hheld⟩ := ih
    obtain ⟨a₂, hd₂, hsub⟩ := Processor.markArriving_discipline hd₁ v.id
    obtain ⟨a₃, extra', hd₃, hlength', hheld'⟩ :=
      Processor.held_admit? (of_expect hexpect).1 hd₂
    have hrequest : (v.request time).length = v.vcpus := List.length_replicate
    refine ⟨a₃, extra ++ extra', hd₃, ?_, fun i hi => ?_⟩
    · rw [List.length_append, List.map_append, List.sum_append_nat, List.map_singleton,
        List.sum_singleton]
      omega
    · rw [List.mem_append]
      rcases hheld' i hi with hi | hi
      · obtain ⟨k, is, his, hi⟩ := SpaceShared.mem_held_iff.mp hi
        exact (hheld i (SpaceShared.mem_held_iff.mpr ⟨k, is, hsub k is his, hi⟩)).imp_right .inl
      · exact .inr (.inr hi)

/-- Where every virtual core has a core of its own there is one for each virtual core of a machine,
if there were enough free cores for all machines together, each of them fast enough for this one. -/
theorem isSuitable_of_isDedicated [Std.Irrefl (α := α) (· < ·)] (hr : h.Received time vs h')
    (hreachable : h.processor.Reachable) (hdedicated : h.processor.isDedicated = true)
    (hfast : ∀ c ∈ h.processor.cores, c.isFree = true → v.speed ≤ c.capacity)
    (hroom : (vs.map (·.vcpus)).sum + v.vcpus ≤ h.processor.freeCount) :
    h'.processor.isSuitable v = true := by
  obtain ⟨a, ha⟩ : ∃ a, h.processor.discipline = .spaceShared a := by
    cases hd : h.processor.discipline with
    | timeShared => simp [Processor.isDedicated, hd] at hdedicated
    | spaceShared a => exact ⟨a, rfl⟩
  obtain ⟨a', extra, ha', hlength, hheld⟩ := hr.held ha
  -- what was free is still free, unless one of the machines that have come has taken it
  have hfree : (SpaceShared.idle h.processor.cores).Subperm
      (extra ++ SpaceShared.freeCores h'.processor.cores a' v.id v.speed) := by
    apply List.subperm_of_subset (SpaceShared.nodup_idle h.processor.cores)
    intro i hi
    by_cases hextra : i ∈ extra
    · exact List.mem_append_left _ hextra
    apply List.mem_append_right
    obtain ⟨c, hc, hfree⟩ := SpaceShared.mem_idle.mp hi
    obtain ⟨hworking, hnot⟩ := Processor.not_held_of_isFree hreachable ha hc hfree
    obtain ⟨c', hc', hcapacity, hworking'⟩ := exists_of_makeup hr.makeup hc
    refine SpaceShared.mem_freeCores.mpr ⟨c', hc', fun htaken => ?_, hworking'.trans hworking, ?_⟩
    · rcases hheld i (SpaceShared.mem_held_of_mem_taken htaken) with hi | hi
      · exact hnot hi
      · exact hextra hi
    · rw [hcapacity]
      exact hfast c (List.mem_of_getElem? hc) hfree
  have hcount := hfree.length_le
  rw [List.length_append, SpaceShared.length_idle] at hcount
  unfold Processor.freeCount at hroom
  simp only [Processor.isSuitable, ha', SpaceShared.isSuitable, decide_eq_true_eq]
  omega

end Received

end Host

end Datacenter
