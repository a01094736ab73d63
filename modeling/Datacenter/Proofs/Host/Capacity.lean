import Datacenter.Proofs.Host.Receiving

/-!
# The capacity of hosts

Memory, bandwidth and storage are set aside in whole units. `Host.WithinCapacity` says that no more
of them is set aside on a host than it has.

A change keeps this if there is room for what it sets aside (`WithinCapacity.of_insert`). What is
left of a resource is a difference that is cut off at zero, so it says how much room there is only
as long as the host is within its capacity. Then what is left and what is set aside for different
machines do not add up to more than the capacity (`WithinCapacity.left_add_sum_le`).
-/

namespace Datacenter

variable {α : Type}

/-- The resources that are set aside in whole units. -/
inductive WholeUnit where
  /-- The memory. -/
  | ram
  /-- The bandwidth. -/
  | bandwidth
  /-- The storage. -/
  | storage
deriving DecidableEq, Repr

/-- What a provision holds of a resource. -/
def WholeUnit.part : WholeUnit → Provision → Nat
  | .ram => (·.ram)
  | .bandwidth => (·.bandwidth)
  | .storage => (·.storage)

@[simp] theorem WholeUnit.part_none (r : WholeUnit) : r.part .none = 0 := by
  cases r <;> rfl

/-- What a machine needs of a resource. -/
def Vm.need (vm : Vm α) (r : WholeUnit) : Nat :=
  r.part (.of vm)

namespace Host

/-- What a host has of a resource. -/
def total (h : Host α) : WholeUnit → Nat
  | .ram => h.ram
  | .bandwidth => h.bandwidth
  | .storage => h.storage

/-- What is left of a resource on a host. -/
def available (h : Host α) : WholeUnit → Except Fault Nat
  | .ram => h.availableRam
  | .bandwidth => h.availableBandwidth
  | .storage => h.availableStorage

theorem available_eq (h : Host α) (r : WholeUnit) : h.available r = h.left (h.total r) r.part := by
  cases r <;> rfl

variable {h h' : Host α} {id : Nat} {provision : Provision} {r : WholeUnit}

theorem Unchanged.total (hsame : h.Unchanged h') (r : WholeUnit) : h'.total r = h.total r := by
  cases r with
  | ram => exact hsame.ram
  | bandwidth => exact hsame.bandwidth
  | storage => exact hsame.storage

/-! ## What is set aside -/

/-- A host with nothing set aside for a machine. -/
def strike (h : Host α) (id : Nat) : Host α :=
  { h with provisions := h.provisions.erase id }

/-- A machine that is struck off gives back what is set aside for it. -/
theorem used_erase (hprovisions : h'.provisions = h.provisions.erase id) (r : WholeUnit) :
    h'.used r.part + r.part (h.provisionOf id) = h.used r.part := by
  cases hold : h.provisions.find? id with
  | none =>
    have hsame : h'.provisions = h.provisions :=
      hprovisions.trans (IdMap.erase_of_find?_eq_none hold)
    simp [used, provisionOf, hsame, hold]
  | some old =>
    have hback : h.provisions = h'.provisions.insert id old := by
      rw [hprovisions, IdMap.insert_erase, IdMap.insert_of_find?_eq_some hold]
    have hgone : h'.provisions.find? id = none := by
      rw [hprovisions, IdMap.find?_erase, if_pos rfl]
    rw [used_insert hgone hback, provisionOf, hold]
    rfl

/-- What is newly set aside for a machine takes the place of what was. -/
theorem used_insert_add (hprovisions : h'.provisions = h.provisions.insert id provision)
    (r : WholeUnit) :
    h'.used r.part + r.part (h.provisionOf id) = h.used r.part + r.part provision := by
  have hgone : (h.strike id).provisions.find? id = none := by
    rw [strike, IdMap.find?_erase, if_pos rfl]
  have hagain : h'.provisions = (h.strike id).provisions.insert id provision := by
    rw [hprovisions, strike, IdMap.insert_erase]
  have hstruck : (h.strike id).used r.part + r.part (h.provisionOf id) = h.used r.part :=
    used_erase rfl r
  have hnew : h'.used r.part = (h.strike id).used r.part + r.part provision :=
    used_insert hgone hagain r.part
  omega

/-- Of what is set aside altogether, part is set aside for the machines in a list. -/
theorem sum_provisionOf_le {ks : List Nat} (hks : ks.Nodup) (r : WholeUnit) :
    (ks.map fun k => r.part (h.provisionOf k)).sum ≤ h.used r.part := by
  induction ks generalizing h with
  | nil => exact Nat.zero_le _
  | cons k ks ih =>
    obtain ⟨hk, hks⟩ := List.nodup_cons.mp hks
    -- once the first machine is struck off, what is set aside for the others is still there
    have hothers : ∀ j ∈ ks, r.part (h.provisionOf j) = r.part ((h.strike k).provisionOf j) := by
      intro j hj
      have hne : j ≠ k := fun hjk => hk (hjk ▸ hj)
      rw [provisionOf, provisionOf, strike, IdMap.find?_erase, if_neg hne]
    have hstruck : (h.strike k).used r.part + r.part (h.provisionOf k) = h.used r.part :=
      used_erase rfl r
    have hrest := ih (h := h.strike k) hks
    rw [List.map_cons, List.sum_cons, List.map_congr_left hothers]
    omega

/-! ## Within the capacity -/

/-- No more is set aside on a host than it has. -/
def WithinCapacity (h : Host α) : Prop :=
  ∀ r : WholeUnit, h.used r.part ≤ h.total r

namespace WithinCapacity

theorem of_same (hw : h.WithinCapacity) (hsame : h.Unchanged h')
    (hprovisions : h'.provisions = h.provisions) : h'.WithinCapacity := by
  intro r
  have hused : h'.used r.part = h.used r.part := by rw [used, hprovisions, used]
  rw [hused, hsame.total]
  exact hw r

theorem of_erase (hw : h.WithinCapacity) (hsame : h.Unchanged h')
    (hprovisions : h'.provisions = h.provisions.erase id) : h'.WithinCapacity := by
  intro r
  have hback := used_erase hprovisions r
  have hroom := hw r
  rw [hsame.total]
  omega

/-- A host with room for what a machine needs in addition stays within its capacity. -/
theorem of_insert (hw : h.WithinCapacity) (hsame : h.Unchanged h')
    (hprovisions : h'.provisions = h.provisions.insert id provision)
    (hroom : ∀ r : WholeUnit,
      r.part provision ≤ h.total r - h.used r.part + r.part (h.provisionOf id)) :
    h'.WithinCapacity := by
  intro r
  have hinsert := used_insert_add hprovisions r
  have hbefore := hw r
  have hroom := hroom r
  rw [hsame.total]
  omega

theorem left_add_sum_le (hw : h.WithinCapacity) {ks : List Nat} (hks : ks.Nodup) (r : WholeUnit) :
    h.total r - h.used r.part + (ks.map fun k => r.part (h.provisionOf k)).sum ≤ h.total r := by
  have hsum := sum_provisionOf_le (h := h) hks r
  have hroom := hw r
  omega

/-- What is left can be told if the capacity has sixty-four bits. -/
theorem available_eq_ok (hw : h.WithinCapacity) (hrange : h.total r ≤ maxQuantity) :
    h.available r = .ok (h.total r - h.used r.part) := by
  rw [available_eq]
  exact left_eq_ok.mpr ⟨(hw r).trans hrange, rfl⟩

end WithinCapacity

theorem of_available_eq_ok {n : Nat} (havailable : h.available r = .ok n) :
    n = h.total r - h.used r.part := by
  rw [available_eq] at havailable
  exact (left_eq_ok.mp havailable).2

/-! ## Changes that set something aside -/

variable [Scalar α] {vm : Vm α} {requested : List α}

/-- A machine that fits finds room. -/
theorem Fits.room (hfits : h.Fits vm) (r : WholeUnit) :
    vm.need r ≤ h.total r - h.used r.part + r.part (h.provisionOf vm.id) := by
  have hroom : ∃ n, h.available r = .ok n ∧ vm.need r ≤ n + r.part (h.provisionOf vm.id) := by
    cases r with
    | ram => exact hfits.ram
    | bandwidth => exact hfits.bandwidth
    | storage => exact hfits.storage
  obtain ⟨n, havailable, hn⟩ := hroom
  rwa [of_available_eq_ok havailable] at hn

namespace WithinCapacity

theorem create? (hw : h.WithinCapacity) (hcheck : h.check vm = .ok .success)
    (hcreate : h.create? vm requested = some h') : h'.WithinCapacity := by
  obtain ⟨hsame, -⟩ := unchanged_create? hcreate
  obtain ⟨h₁, hgranted, rfl⟩ := Option.map_eq_some_iff.mp hcreate
  obtain ⟨p, -, rfl⟩ := Option.map_eq_some_iff.mp hgranted
  exact hw.of_insert hsame rfl (fits_of_check hcheck).room

theorem expect (hw : h.WithinCapacity) {v : Vm α} (hcheck : h.check v = .ok .success) {b : Bool}
    (hexpect : h.expect (Pool.leaving v) requested = (b, h')) : h'.WithinCapacity := by
  obtain ⟨hsame, -⟩ := unchanged_expect hexpect
  cases b with
  | true => exact hw.of_insert hsame (of_expect hexpect).2 (fits_of_check hcheck).room
  | false =>
    rw [expect_eq] at hexpect
    split at hexpect
    · cases hexpect
    · cases hexpect
      exact hw.of_same hsame rfl

omit [Scalar α] in
/-- A machine may grow by what is left, and it may shrink. -/
theorem reprovision (hw : h.WithinCapacity) {v : Vm α} (hid : vm.id = v.id)
    (hseat : h.provisionOf v.id = .of v)
    (hroom : ∀ r : WholeUnit, vm.need r ≤ h.total r - h.used r.part + v.need r) :
    (h.reprovision vm).WithinCapacity := by
  have hsame := (h.unchanged_reprovision vm).1
  by_cases hfile : h.provisions.contains vm.id = true
  · have hprovisions : (h.reprovision vm).provisions = h.provisions.insert vm.id (.of vm) := by
      rw [Host.reprovision, if_pos hfile]
    refine hw.of_insert hsame hprovisions fun r => ?_
    rw [hid, hseat]
    exact hroom r
  · refine hw.of_same hsame ?_
    rw [Host.reprovision, if_neg hfile]

end WithinCapacity

end Host

end Datacenter
