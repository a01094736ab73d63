import Datacenter.Proofs.Host.Receiving
import Datacenter.Proofs.Pool.Execution
import Datacenter.Proofs.Processor.Serving

/-!
# Hosts that serve what they receive

Over exact numbers a host on which machines arrive one after the other (`Host.Received`) is loaded
with what they ask for and is to give them no more than that. So under time sharing there is room
for one more machine if there was room for the peaks of all of them together
(`Host.Received.peak_le_room`).
-/

namespace Datacenter

/-! ## Ledgers -/

namespace Ledger

/-- `l'` is `l` after the arrival of a machine with a request. -/
structure Arrived (l l' : Ledger ℚ) (id : Nat) (request : Request ℚ) : Prop where
  requests : l'.requests = l.requests.insert id request
  arriving : ∀ k, k ≠ id → l'.arriving.contains k = l.arriving.contains k
  leaving : l'.leaving = l.leaving
  overhead : l'.overhead = l.overhead

namespace Arrived

variable {l l' : Ledger ℚ} {id : Nat} {r : Request ℚ}

theorem factor_eq (h : l.Arrived l' id r) {k : Nat} (hk : k ≠ id) : l'.factor k = l.factor k := by
  have hmigrating : l'.isMigrating k = l.isMigrating k := by
    rw [isMigrating, h.requests, IdMap.find?_insert, if_neg hk, h.arriving k hk, h.leaving]
    rfl
  rw [factor, hmigrating, h.overhead]
  rfl

theorem toList_perm (h : l.Arrived l' id r) (hnew : l.requests.find? id = none) :
    l'.requests.toList.Perm ((id, r) :: l.requests.toList) := by
  rw [h.requests]
  exact IdMap.toList_insert_perm hnew r

theorem isProper (h : l.Arrived l' id r) (hnew : l.requests.find? id = none) (hl : l.IsProper)
    (hr : ∀ x ∈ r.share, 0 ≤ x) : l'.IsProper where
  requests e he := by
    rcases List.mem_cons.mp ((h.toList_perm hnew).mem_iff.mp he) with rfl | he
    · exact hr
    · exact hl.requests e he
  overhead := by
    rw [h.overhead]
    exact hl.overhead

/-- A machine that arrives is to receive no more than it asks for, and the others what they were to
receive before. -/
theorem entitlement_le (h : l.Arrived l' id r) (hnew : l.requests.find? id = none)
    (hl : l.IsProper) (hr : ∀ x ∈ r.share, 0 ≤ x) {fastest : ℚ} (hfastest : 0 ≤ fastest) :
    l'.entitlement fastest ≤ l.entitlement fastest + r.share.sum := by
  have hothers : (l.requests.toList.map fun e => e.2.demanded fastest * l'.factor e.1).sum
      = l.entitlement fastest := by
    unfold entitlement
    congr 1
    apply List.map_congr_left
    intro e he
    have hne : e.1 ≠ id := by
      intro heq
      have hfind : l.requests.find? id = some e.2 := IdMap.find?_eq_some_iff.mpr (heq ▸ he)
      rw [hnew] at hfind
      contradiction
    rw [h.factor_eq hne]
  obtain ⟨hnonneg, hdemanded⟩ := TimeShared.demanded_bounds hr hfastest
  have hown := mul_le_of_le_one_right hnonneg (factor_le_one (h.isProper hnew hl hr).overhead.1 id)
  rw [entitlement, ((h.toList_perm hnew).map _).sum_eq, List.map_cons, List.sum_cons, hothers]
  linarith

end Arrived

end Ledger

/-! ## Hosts -/

namespace Vm

/-- A machine asks for no more than its peak. -/
theorem loadAt_le_peak {v : Vm ℚ} (hspeed : 0 ≤ v.speed) (time : ℚ) : v.loadAt time ≤ v.peak := by
  have hload : v.loadAt time = (v.vcpus : ℚ) * (v.speed * v.utilization time) := by
    rw [loadAt, Rational.sum_eq, request, List.sum_replicate, nsmul_eq_mul]
  rw [hload]
  exact mul_le_mul_of_nonneg_left (Rational.mul_clamp_le hspeed _) (Nat.cast_nonneg v.vcpus)

end Vm

namespace Host

variable {h h' : Host ℚ} {v : Vm ℚ}

theorem arrived_of_expect {requested : List ℚ} (hexpect : h.expect v requested = (true, h')) :
    h.processor.ledger.Arrived h'.processor.ledger v.id (.of v requested) := by
  have hledger := Processor.admit?_ledger (of_expect hexpect).1
  rw [hledger, Processor.markArriving_ledger]
  split
  · exact ⟨rfl, fun _ _ => rfl, rfl, rfl⟩
  · refine ⟨rfl, fun k hk => ?_, rfl, rfl⟩
    simp [Ledger.register, Ledger.markArriving, hk]

/-! ## One machine after the other -/

namespace Received

variable {time : ℚ} {vs : List (Vm ℚ)}

theorem eq_of_nil (hr : h.Received time vs h') (hvs : vs = []) : h' = h := by
  cases hr with
  | nil => rfl
  | snoc => simp at hvs

theorem reachable (hr : h.Received time vs h') (hreachable : h.processor.Reachable) :
    h'.processor.Reachable := by
  induction hr with
  | nil => exact hreachable
  | snoc _ _ _ hexpect ih => exact .grant (.markArriving _ ih) (of_expect hexpect).1

theorem isDedicated (hr : h.Received time vs h') :
    h'.processor.isDedicated = h.processor.isDedicated := by
  induction hr with
  | nil => rfl
  | snoc _ _ _ hexpect ih =>
    rw [Processor.isDedicated_admit? (of_expect hexpect).1, Processor.isDedicated_markArriving, ih]

/-- A host is loaded with what the machines ask for, and is to give them no more. -/
theorem demand (hr : h.Received time vs h') (hproper : h.processor.ledger.IsProper)
    (hspeed : ∀ v ∈ vs, 0 ≤ v.speed) {fastest : ℚ} (hfastest : 0 ≤ fastest) :
    h'.processor.ledger.IsProper ∧ h'.load = h.load + (vs.map (·.loadAt time)).sum
      ∧ h'.processor.ledger.entitlement fastest
        ≤ h.processor.ledger.entitlement fastest + (vs.map (·.loadAt time)).sum := by
  induction hr with
  | nil => simp [hproper]
  | @snoc h₁ h₂ vs v _ hblank _ hexpect ih =>
    rw [List.forall_mem_append] at hspeed
    obtain ⟨hproper₁, hload₁, hentitled₁⟩ := ih hspeed.1
    have hpositive := (Request.isOf_of v time).nonneg (hspeed.2 v (List.mem_singleton_self v))
    have harrived := arrived_of_expect hexpect
    have hnew := congrArg Entry.request hblank
    have hload : h₂.load = h₁.load + (v.request time).sum :=
      Ledger.total_insert hnew harrived.requests
    have hentitled : h₂.processor.ledger.entitlement fastest
        ≤ h₁.processor.ledger.entitlement fastest + (v.request time).sum :=
      harrived.entitlement_le hnew hproper₁ hpositive hfastest
    have hsum : ((vs ++ [v]).map (·.loadAt time)).sum
        = (vs.map (·.loadAt time)).sum + (v.request time).sum := by
      rw [List.map_append, List.sum_append, List.map_singleton, List.sum_singleton, Vm.loadAt,
        Rational.sum_eq]
    rw [hsum]
    refine ⟨harrived.isProper hnew hproper₁ hpositive, ?_, ?_⟩ <;> linarith

/-- Under time sharing there is room for a machine, if there was room for the peaks of all machines
together, and either none of them has come yet or the cores were not used up. -/
theorem peak_le_room (hr : h.Received time vs h') (hreachable : h.processor.Reachable)
    (hshared : h.processor.isDedicated = false) (hproper : h.processor.ledger.IsProper)
    (hcores : ∀ c ∈ h.processor.cores, 0 ≤ c.capacity) (hserves : h.processor.Serves)
    (hspeed : ∀ v ∈ vs, 0 ≤ v.speed)
    (hload : h.load + (vs.map (·.loadAt time)).sum ≤ h.processor.capacity)
    (hpeak : h.processor.totalAllocated + (vs.map (·.peak)).sum + v.peak
      ≤ h.processor.capacity + TimeShared.sliver)
    (hleft : vs = [] ∨ ¬ TimeShared.IsFull h.processor.cores) :
    v.peak ≤ TimeShared.room h'.processor.cores + TimeShared.sliver := by
  rcases hleft with hnone | hfull
  · obtain rfl := hr.eq_of_nil hnone
    have hreceived := hserves.received
    rw [hnone, List.map_nil, List.sum_nil] at hpeak
    linarith
  · have hcapacity := Processor.capacity_congr hr.makeup
    obtain ⟨hproper', hload', hentitled⟩ := hr.demand hproper hspeed h.processor.fastest_nonneg
    have hcores' : ∀ c ∈ h'.processor.cores, 0 ≤ c.capacity := by
      intro c' hc'
      obtain ⟨i, hi⟩ := List.mem_iff_getElem?.mp hc'
      obtain ⟨c, hc, hsame, -⟩ := exists_of_makeup hr.makeup.symm hi
      exact hsame ▸ hcores c (List.mem_of_getElem? hc)
    have hserves' : h'.processor.Serves :=
      (hr.reachable hreachable).serves (hr.isDedicated.trans hshared) hproper' hcores'
        (by rw [← load_eq]; linarith)
    -- everything was received that was wanted, and the machines want no more than their peaks
    have hcomplete := hserves.complete.resolve_right hfull
    have hwanted := hserves'.wanted
    rw [hcapacity, Processor.fastest_congr hr.makeup] at hwanted
    have hpeaks : (vs.map (·.loadAt time)).sum ≤ (vs.map (·.peak)).sum :=
      List.sum_le_sum fun v hv => Vm.loadAt_le_peak (hspeed v hv) time
    linarith

end Received

end Host

end Datacenter
