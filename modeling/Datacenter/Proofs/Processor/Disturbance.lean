import Datacenter.Proofs.Processor.Keeping
import Datacenter.Proofs.Processor.Tolerance
import Datacenter.Proofs.WaterFilling

/-!
# What a new machine costs the others

A machine is suitable for a processor if the cores have room for its peak beside what they carry.
Its admission does not fill this room, though. It has the capacity divided anew among all machines,
and the division goes by what they demand. A migrating machine demands as much as it would otherwise
and carries less: what it loses to the overhead looks free and is not. A newcomer that is suitable
because of this room *overcommits* the processor, and then everybody is cut (`exists_disturbed`).

The damage is bounded by what is demanded beyond the capacity, and so there is none worth mentioning
as long as all demands fit (`suitable_accommodated`). Under space sharing there is none at all, since
a newcomer takes free cores only.

## Shape of the proof

What a machine would receive if there were enough for everybody (`TimeShared.wanted`) does not
depend on the other machines. All machines together fall short of it by what is overcommitted and by
slivers (`Processor.received_within_wanted`), and so no machine falls short by more, neither the
newcomer nor the others. Before the admission nobody receives more than is wanted.
-/

namespace Datacenter

open Scalar

/-! ## What is cut off when a capacity is divided -/

/-- Whatever the capacity, nobody gets more than they ask for, and all shares together fall short of
the requests by what is asked for beyond the capacity. -/
theorem shareCapacity_cut {requests : List ℚ} (hrequests : ∀ r ∈ requests, 0 ≤ r) (capacity : ℚ) :
    List.Forall₂ (fun r s => 0 ≤ s ∧ s ≤ r) requests (shareCapacity requests capacity)
      ∧ requests.sum - (shareCapacity requests capacity).sum ≤ max 0 (requests.sum - capacity) := by
  rcases le_or_gt 0 capacity with hcapacity | hnegative
  · obtain ⟨hbetween, hsum⟩ := shareCapacity_exact hrequests hcapacity
    refine ⟨hbetween, ?_⟩
    rw [hsum]
    rcases le_total requests.sum capacity with h | h
    · rw [min_eq_left h, sub_self]
      exact le_max_left _ _
    · rw [min_eq_right h]
      exact le_max_right _ _
  · -- there is nothing to share, so everybody gets nothing
    obtain ⟨hnonneg, hsum⟩ := shareCapacity_bounds hrequests capacity
    rw [max_eq_right hnegative.le] at hsum
    have htotal : (shareCapacity requests capacity).sum = 0 :=
      le_antisymm hsum (List.sum_nonneg hnonneg)
    have hzero : ∀ s ∈ shareCapacity requests capacity, s = 0 :=
      fun s hs => List.all_zero_of_le_zero_le_of_sum_eq_zero hnonneg htotal hs
    refine ⟨List.forall₂_iff_zip.mpr ⟨(length_shareCapacity requests capacity).symm, ?_⟩, ?_⟩
    · intro r s hmem
      obtain ⟨hr, hs⟩ := List.of_mem_zip hmem
      rw [hzero s hs]
      exact ⟨le_refl 0, hrequests r hr⟩
    · rw [htotal, sub_zero]
      exact le_max_of_le_right (by linarith)

namespace TimeShared

variable {received due due' : List (Nat × ℚ)} {t : ℚ} {l : Ledger ℚ}

/-! ## What is wanted -/

/-- What all virtual cores would receive if there were enough for everybody. -/
def wanted (cores : List (Core ℚ)) (l : Ledger ℚ) : List (Nat × ℚ) :=
  (demands cores l).map fun d => (d.1, d.2 * l.factor d.1)

theorem Within.trans (h : Within received due) (h' : Within due due') : Within received due' := by
  induction h generalizing due' with
  | nil => exact h'
  | cons hhead _ ih =>
    cases h' with
    | cons hhead' htail' =>
      exact .cons ⟨hhead.1.trans hhead'.1, hhead.2.trans hhead'.2⟩ (ih htail')

theorem Within.shortfall_trans (h : Within received due) (h' : Within due due') :
    shortfall received due' = shortfall received due + shortfall due due' := by
  rw [(h.trans h').shortfall_eq, h.shortfall_eq, h'.shortfall_eq]
  ring

/-- Who is due the same receives between that and what all fall short by. -/
theorem Within.bounds (h : Within received due) (ht : shortfall received due ≤ t) :
    List.Forall₂ (fun x y => y ≤ x ∧ x ≤ y + t) (due.map Prod.snd) (received.map Prod.snd) := by
  have hdue := h.due_le ht
  clear ht
  induction h with
  | nil => exact .nil
  | cons hhead _ ih =>
    cases hdue with
    | cons hhead' htail' => exact .cons ⟨hhead.2, hhead'⟩ (ih htail')

/-- Entitlements fall short of what is wanted by what is demanded beyond the capacity, or less. -/
theorem entitlements_within_wanted (hoverhead : 0 ≤ l.overhead ∧ l.overhead ≤ 1)
    (cores : List (Core ℚ)) : Within (entitlements cores l) (wanted cores l)
      ∧ shortfall (entitlements cores l) (wanted cores l)
        ≤ max 0 (((demands cores l).map Prod.snd).sum - capacity cores) := by
  have hfraction : ∀ (ds : List (Nat × ℚ)) (ss : List ℚ),
      List.Forall₂ (fun r s => 0 ≤ s ∧ s ≤ r) (ds.map Prod.snd) ss →
      Within (List.zipWith (fun d s => (d.1, s * l.factor d.1)) ds ss)
          (ds.map fun d => (d.1, d.2 * l.factor d.1))
        ∧ shortfall (List.zipWith (fun d s => (d.1, s * l.factor d.1)) ds ss)
            (ds.map fun d => (d.1, d.2 * l.factor d.1)) ≤ (ds.map Prod.snd).sum - ss.sum := by
    intro ds ss h
    rw [List.forall₂_map_left_iff] at h
    induction h with
    | nil => exact ⟨.nil, by simp [shortfall]⟩
    | @cons d s ds ss hhead _ ih =>
      obtain ⟨hwithin, hshort⟩ := ih
      have hnonneg := Ledger.factor_nonneg hoverhead.2 d.1
      have hone := Ledger.factor_le_one hoverhead.1 d.1
      have hcut : d.2 * l.factor d.1 - s * l.factor d.1 ≤ d.2 - s := by
        rw [← sub_mul]
        exact mul_le_of_le_one_right (sub_nonneg.mpr hhead.2) hone
      refine ⟨.cons ⟨rfl, mul_le_mul_of_nonneg_right hhead.2 hnonneg⟩ hwithin, ?_⟩
      have hcons : shortfall (List.zipWith (fun d s => (d.1, s * l.factor d.1)) (d :: ds) (s :: ss))
          ((d :: ds).map fun d => (d.1, d.2 * l.factor d.1))
            = (d.2 * l.factor d.1 - s * l.factor d.1)
              + shortfall (List.zipWith (fun d s => (d.1, s * l.factor d.1)) ds ss)
                (ds.map fun d => (d.1, d.2 * l.factor d.1)) := rfl
      rw [hcons, List.map_cons, List.sum_cons, List.sum_cons]
      linarith
  obtain ⟨hbetween, hcut⟩ := shareCapacity_cut
    (List.forall_mem_map.mpr (demands_nonneg cores l)) (capacity cores)
  obtain ⟨hwithin, hshort⟩ := hfraction _ _ hbetween
  exact ⟨hwithin, hshort.trans hcut⟩

/-! ## What one machine wants -/

/-- What is listed under one owner are the amounts of this owner. -/
theorem filter_flatMap_owner {β : Type} (amounts : β → List ℚ) {entries : List (Nat × β)}
    (hnodup : (entries.map Prod.fst).Nodup) (k : Nat) :
    (entries.flatMap fun e => (amounts e.2).map fun x => (e.1, x)).filter (·.1 == k)
      = (((entries.find? (·.1 == k)).map fun e => amounts e.2).getD []).map fun x => (k, x) := by
  induction entries with
  | nil => rfl
  | cons e entries ih =>
    obtain ⟨he, hentries⟩ := List.nodup_cons.mp hnodup
    rw [List.flatMap_cons, List.filter_append, ih hentries, List.find?_cons]
    by_cases hk : e.1 = k
    · subst hk
      have hothers : entries.find? (·.1 == e.1) = none :=
        List.find?_eq_none.mpr fun e' he' hsame =>
          he (beq_iff_eq.mp hsame ▸ List.mem_map_of_mem he')
      have hown : ((amounts e.2).map fun x => (e.1, x)).filter (·.1 == e.1)
          = (amounts e.2).map fun x => (e.1, x) :=
        List.filter_eq_self.mpr (List.forall_mem_map.mpr fun _ _ => beq_self_eq_true e.1)
      rw [hothers, hown, beq_self_eq_true]
      simp
    · have hnone : ((amounts e.2).map fun x => (e.1, x)).filter (·.1 == k) = [] :=
        List.filter_eq_nil_iff.mpr (List.forall_mem_map.mpr fun _ _ => by simpa using hk)
      rw [hnone, beq_false_of_ne hk, List.nil_append]

theorem filter_demands (cores : List (Core ℚ)) (l : Ledger ℚ) (k : Nat) :
    (demands cores l).filter (·.1 == k)
      = (l.requestOf k).map fun x => (k, clamp x 0 (fastest cores)) := by
  have hflat : demands cores l = l.requests.toList.flatMap fun e =>
      (e.2.share.map (clamp · 0 (fastest cores))).map fun x => (e.1, x) := by
    rw [demands]
    simp only [List.map_map, Function.comp_def]
  rw [hflat, filter_flatMap_owner (fun r : Request ℚ => r.share.map (clamp · 0 (fastest cores)))
    l.requests.nodup_keys, Ledger.requestOf, IdMap.find?]
  cases l.requests.toList.find? (·.1 == k) with
  | none => rfl
  | some e => exact List.map_map ..

/-- What a machine wants follows from its own request and its own flags. -/
theorem filter_wanted (cores : List (Core ℚ)) (l : Ledger ℚ) (k : Nat) :
    (wanted cores l).filter (·.1 == k)
      = (l.requestOf k).map fun x => (k, clamp x 0 (fastest cores) * l.factor k) := by
  have hfilter : (wanted cores l).filter (·.1 == k)
      = ((demands cores l).filter (·.1 == k)).map fun d => (d.1, d.2 * l.factor d.1) :=
    List.filter_map
  rw [hfilter, filter_demands, List.map_map]
  rfl

end TimeShared

namespace Processor

variable {p q : Processor ℚ} {vm : Vm ℚ}

/-! ## Demands -/

/-- What all virtual cores demand together. -/
def demand (p : Processor ℚ) : ℚ :=
  ((TimeShared.demands p.cores p.ledger).map Prod.snd).sum

theorem demand_eq (p : Processor ℚ) :
    p.demand = (p.ledger.requests.toList.map fun e => e.2.demanded p.fastest).sum := by
  have hsum := TimeShared.sum_demands p.cores p.ledger fun _ => 1
  simp only [mul_one] at hsum
  exact hsum

/-- Nobody receives more than is wanted, and all together fall short of it by what is demanded
beyond the capacity and by slivers. -/
theorem received_within_wanted (hp : p.Reachable) (hd : p.discipline = .timeShared) :
    TimeShared.Within p.received (TimeShared.wanted p.cores p.ledger)
      ∧ TimeShared.shortfall p.received (TimeShared.wanted p.cores p.ledger)
        ≤ p.tolerance + max 0 (p.demand - p.capacity) := by
  obtain ⟨-, hlow, hhigh⟩ := (checkFraction_eq_ok.mp hp.overhead).1
  obtain ⟨hreceived, hslivers⟩ := received_within hp hd
  obtain ⟨hentitled, hcut⟩ := TimeShared.entitlements_within_wanted ⟨hlow, hhigh⟩ p.cores
  refine ⟨hreceived.trans hentitled, ?_⟩
  rw [hreceived.shortfall_trans hentitled]
  exact add_le_add hslivers hcut

/-! ## Newcomers -/

/-- A machine is admitted with its peak request, and neither the machine nor any other one loses
more than some amount by it. -/
structure Accommodates (p q : Processor ℚ) (vm : Vm ℚ) (loss : ℚ) : Prop where
  admitted : p.admit? vm vm.peakRequest = some q
  newcomer : List.Forall₂ (fun x y => y ≤ x ∧ x ≤ y + loss) vm.peakRequest (q.allocatedTo vm.id)
  total : q.totalAllocatedTo vm.id ≤ vm.peak ∧ vm.peak ≤ q.totalAllocatedTo vm.id + loss
  others : ∀ k, k ≠ vm.id →
    List.Forall₂ (fun x y => x ≤ y + loss) (p.allocatedTo k) (q.allocatedTo k)
      ∧ p.totalAllocatedTo k ≤ q.totalAllocatedTo k + loss

theorem sum_peakRequest (vm : Vm ℚ) : vm.peakRequest.sum = vm.peak := by
  rw [Vm.peakRequest, List.sum_replicate, nsmul_eq_mul]
  rfl

/-- A machine that is not flagged receives all of its share when it asks while it is settled. -/
theorem factor_of_settled (hledger : q.ledger = p.ledger.register vm vm.peakRequest)
    (hflags : p.ledger.isMigrating vm.id = false) (hsettled : vm.isMigrating = false) :
    q.ledger.factor vm.id = 1 := by
  simp only [Ledger.isMigrating, Bool.or_eq_false_iff] at hflags
  have hmigrating : q.ledger.isMigrating vm.id = false := by
    simp [hledger, Ledger.isMigrating, Ledger.register, hflags.1.1, hflags.1.2, hsettled]
  rw [Ledger.factor, hmigrating, if_neg Bool.false_ne_true]

/-- A newcomer adds its peak to what is demanded. -/
theorem demand_of_newcomer (hledger : q.ledger = p.ledger.register vm vm.peakRequest)
    (hfastest : q.fastest = p.fastest) (hnew : p.ledger.requests.find? vm.id = none)
    (hspeed : 0 ≤ vm.speed) (hfast : vm.speed ≤ p.fastest) : q.demand = p.demand + vm.peak := by
  have hentries := IdMap.toList_insert_perm hnew
    (⟨vm.peakRequest, vm.isMigrating⟩ : Request ℚ)
  have hpeak : Request.demanded ⟨vm.peakRequest, vm.isMigrating⟩ p.fastest = vm.peak := by
    rw [← sum_peakRequest, Request.demanded, Vm.peakRequest, List.map_replicate,
      clamp_eq_self hspeed hfast]
  rw [demand_eq, demand_eq, hfastest, hledger]
  show ((p.ledger.requests.insert vm.id ⟨vm.peakRequest, vm.isMigrating⟩).toList.map
    fun e => e.2.demanded p.fastest).sum = _
  rw [(hentries.map _).sum_eq, List.map_cons, List.sum_cons, hpeak, add_comm]

/-- What is asked of a processor under time sharing by a suitable machine. -/
theorem room_of_suitable (hd : p.discipline = .timeShared) (hsuitable : p.isSuitable vm = true) :
    vm.vcpus ≤ p.workingCount ∧ vm.speed ≤ p.fastest
      ∧ vm.peak ≤ TimeShared.room p.cores + TimeShared.sliver := by
  have hsum : sum (p.cores.map (·.available)) = TimeShared.room p.cores := Rational.sum_eq _
  unfold isSuitable TimeShared.isSuitable at hsuitable
  rw [hd] at hsuitable
  dsimp only at hsuitable
  rw [hsum, Bool.and_eq_true, Bool.and_eq_true, decide_eq_true_eq, decide_eq_true_eq,
    decide_eq_true_eq] at hsuitable
  exact ⟨hsuitable.1.1, hsuitable.1.2, hsuitable.2⟩

/-- Under time sharing nobody loses more by a newcomer than is demanded beyond the capacity, and
slivers. -/
theorem exists_accommodates_of_shared (hp : p.Reachable) (hd : p.discipline = .timeShared)
    (hnew : p.ledger.requests.find? vm.id = none) (hflags : p.ledger.isMigrating vm.id = false)
    (hsettled : vm.isMigrating = false) (hspeed : 0 ≤ vm.speed)
    (hsuitable : p.isSuitable vm = true) :
    ∃ q, p.Accommodates q vm (p.tolerance + max 0 (p.demand + vm.peak - p.capacity)) := by
  obtain ⟨hcount, hfast, -⟩ := room_of_suitable hd hsuitable
  have hgranted : p.admit? vm vm.peakRequest
      = some (p.withLedger (p.ledger.register vm vm.peakRequest)) := by
    have hlength : vm.peakRequest.length = vm.vcpus := List.length_replicate
    have hadmits : TimeShared.admits p.cores vm vm.peakRequest = true := by
      rw [TimeShared.admits, hlength, Bool.and_self]
      exact decide_eq_true hcount
    simp only [admit?, admission?, hd, hadmits, if_true, Option.map_some]
    rw [← hd]
  generalize p.withLedger (p.ledger.register vm vm.peakRequest) = q at hgranted
  have hledger := admit?_ledger hgranted
  have hmakeup := makeup_admit? hgranted
  have hq : q.Reachable := hp.grant hgranted
  have hd' : q.discipline = .timeShared := discipline_of_shared <| by
    rw [isDedicated_admit? hgranted, isDedicated, hd]
  obtain ⟨hbefore, -⟩ := received_within_wanted hp hd
  obtain ⟨hafter, hshort⟩ := received_within_wanted hq hd'
  have htolerance : q.tolerance = p.tolerance := by
    rw [tolerance, tolerance, workingCount_congr hmakeup]
  rw [htolerance, demand_of_newcomer hledger (fastest_congr hmakeup) hnew hspeed hfast,
    capacity_congr hmakeup] at hshort
  set loss := p.tolerance + max 0 (p.demand + vm.peak - p.capacity) with hloss
  have hshort_of : ∀ k, TimeShared.shortfall (q.received.filter (·.1 == k))
      ((TimeShared.wanted q.cores q.ledger).filter (·.1 == k)) ≤ loss := fun k =>
    (hafter.shortfall_filter_le k).trans hshort
  -- the newcomer wants its peak request
  have hown : ((TimeShared.wanted q.cores q.ledger).filter (·.1 == vm.id)).map Prod.snd
      = vm.peakRequest := by
    have hrequest : q.ledger.requestOf vm.id = vm.peakRequest := by
      simp [hledger, Ledger.requestOf, Ledger.register]
    have hclamp : clamp vm.speed 0 (TimeShared.fastest q.cores) = vm.speed :=
      clamp_eq_self hspeed (hfast.trans_eq (fastest_congr hmakeup).symm)
    rw [TimeShared.filter_wanted, factor_of_settled hledger hflags hsettled, hrequest, List.map_map,
      Vm.peakRequest, List.map_replicate]
    simp only [Function.comp_apply, mul_one, hclamp]
  have hwithin := hafter.filter_owner vm.id
  refine ⟨q, hgranted, ?_, ?_, fun k hk => ?_⟩
  · rw [← hown, allocatedTo_of_shared hq hd']
    exact hwithin.bounds (hshort_of vm.id)
  · have hnonneg := hwithin.shortfall_nonneg
    have hle := hshort_of vm.id
    rw [hwithin.shortfall_eq, hown, sum_peakRequest] at hnonneg hle
    rw [totalAllocatedTo_eq, allocatedTo_of_shared hq hd']
    constructor <;> linarith
  · -- what the others want stays the same
    have hperform : p.perform (.request vm vm.peakRequest) = .ok q := by
      rw [perform, hgranted, Option.getD_some]
    have hbooks := (perform_others rfl hperform).2 k hk
    have hfactor := hbooks.factor_eq (SameBuild.perform hperform).overhead
    have hsame : (TimeShared.wanted q.cores q.ledger).filter (·.1 == k)
        = (TimeShared.wanted p.cores p.ledger).filter (·.1 == k) := by
      rw [TimeShared.filter_wanted, TimeShared.filter_wanted, hfactor, Ledger.requestOf,
        Ledger.requestOf, hbooks.request]
      rw [show TimeShared.fastest q.cores = TimeShared.fastest p.cores from fastest_congr hmakeup]
    exact share_kept_of_due hp hd hq hd' (hbefore.filter_owner k)
      (hsame ▸ hafter.filter_owner k) (hsame ▸ hshort_of k)

/-- Under space sharing nobody loses anything by a newcomer. -/
theorem exists_accommodates_of_spaceShared {a : SpaceShared.Assignment} (hp : p.Reachable)
    (hd : p.discipline = .spaceShared a) (hnew : p.ledger.requests.find? vm.id = none)
    (hflags : p.ledger.isMigrating vm.id = false) (hsettled : vm.isMigrating = false)
    (hspeed : 0 ≤ vm.speed) (hsuitable : p.isSuitable vm = true) : ∃ q, p.Accommodates q vm 0 := by
  have hlength : vm.peakRequest.length = vm.vcpus := List.length_replicate
  have hnone : a.find? vm.id = none := by
    have hregistered := (dedicates_of_reachable hp hd).registered vm.id
    rwa [Ledger.contains, IdMap.contains_eq_isSome, IdMap.contains_eq_isSome, hnew,
      Option.isSome_none, Option.isSome_eq_false_iff, Option.isNone_iff_eq_none] at hregistered
  -- the free cores that made the machine suitable are fast enough for its peak request
  have hslower : ∀ c, vm.speed ≤ c → largest vm.peakRequest ≤ c := by
    intro c hc
    rcases largest_replicate vm.vcpus vm.speed with hlargest | ⟨-, hlargest⟩
    · exact hlargest.trans_le (hspeed.trans hc)
    · exact hlargest.trans_le hc
  have henough : vm.peakRequest.length
      ≤ (SpaceShared.freeCores p.cores a vm.id (largest vm.peakRequest)).length := by
    simp only [isSuitable, hd, SpaceShared.isSuitable, decide_eq_true_eq] at hsuitable
    exact hlength ▸ hsuitable.trans (SpaceShared.length_freeCores_le rfl (fun _ h => h) hslower)
  obtain ⟨q, hgranted⟩ : ∃ q, p.admit? vm vm.peakRequest = some q := by
    rw [admit?, admission?, hd]
    dsimp only
    rw [SpaceShared.admit?, hnone, if_neg (by simp)]
    dsimp only
    rw [if_neg (Nat.not_lt.mpr henough)]
    exact ⟨_, rfl⟩
  have hdedicated : q.isDedicated = true := by rw [isDedicated_admit? hgranted, isDedicated, hd]
  have hperform : p.perform (.request vm vm.peakRequest) = .ok q := by
    rw [perform, hgranted, Option.getD_some]
  have hown : q.allocatedTo vm.id = vm.peakRequest := by
    have hunregistered : ¬ p.Registers vm.id vm.vcpus := by
      rintro ⟨r, hr, -⟩
      rw [hnew] at hr
      contradiction
    have hgiven := allocatedTo_admit? hp hgranted hdedicated hunregistered rfl hspeed
    rw [factor_of_settled (admit?_ledger hgranted) hflags hsettled] at hgiven
    rw [hgiven, Vm.peakRequest, List.map_replicate, mul_one]
  refine ⟨q, hgranted, ?_, ?_, fun k hk => ?_⟩
  · rw [hown]
    exact List.forall₂_same.mpr fun x _ => ⟨le_refl x, le_add_of_nonneg_right (le_refl 0)⟩
  · rw [totalAllocatedTo_eq, hown, sum_peakRequest, add_zero]
    exact ⟨le_refl _, le_refl _⟩
  · have hsame := allocations_perform hp hd rfl hperform hk
    rw [allocatedTo, allocatedTo, totalAllocatedTo, totalAllocatedTo, hsame]
    refine ⟨List.forall₂_same.mpr fun x _ => le_add_of_nonneg_right (le_refl 0), ?_⟩
    exact le_add_of_nonneg_right (le_refl 0)

/-! ## Suitable machines -/

/-- What the migrating machines lose to the overhead as long as there is enough for everybody. -/
def overheadLoss (p : Processor ℚ) : ℚ :=
  p.demand - p.ledger.entitlement p.fastest

theorem sum_wanted (p : Processor ℚ) :
    ((TimeShared.wanted p.cores p.ledger).map Prod.snd).sum = p.ledger.entitlement p.fastest := by
  rw [TimeShared.wanted, List.map_map]
  exact TimeShared.sum_demands p.cores p.ledger p.ledger.factor

theorem overheadLoss_nonneg (hp : p.Reachable) : 0 ≤ p.overheadLoss := by
  obtain ⟨-, hlow, -⟩ := (checkFraction_eq_ok.mp hp.overhead).1
  have hle : ((TimeShared.wanted p.cores p.ledger).map Prod.snd).sum ≤ p.demand := by
    rw [TimeShared.wanted, List.map_map]
    exact List.sum_le_sum fun d hd => mul_le_of_le_one_right
      (TimeShared.demands_nonneg p.cores p.ledger d hd) (Ledger.factor_le_one hlow d.1)
  rw [overheadLoss, ← sum_wanted]
  exact sub_nonneg.mpr hle

/-- What a suitable machine overcommits is no more than what the migrating machines lose, as long as
what is demanded without it fits. -/
theorem overcommitment_le (hp : p.Reachable) (hd : p.discipline = .timeShared)
    (hcores : ∀ c ∈ p.cores, 0 ≤ c.capacity) (hfits : p.demand ≤ p.capacity)
    (hsuitable : p.isSuitable vm = true) :
    max 0 (p.demand + vm.peak - p.capacity)
      ≤ p.overheadLoss + (p.workingCount + p.received.length + 1) * TimeShared.sliver := by
  obtain ⟨-, -, hpeak⟩ := room_of_suitable hd hsuitable
  have haccounts := accounts_of_reachable hp hd hcores
  obtain ⟨hwithin, hshort⟩ := received_within_wanted hp hd
  have hroom : TimeShared.room p.cores + (p.cores.map (·.allocated)).sum = p.capacity :=
    TimeShared.room_add_allocated haccounts.cores
  have hcarried := (abs_le.mp haccounts.carried).1
  have hloss := overheadLoss_nonneg hp
  have hslivers : 0 ≤ ((p.workingCount : ℚ) + p.received.length + 1) * TimeShared.sliver :=
    mul_nonneg (by positivity) TimeShared.sliver_pos.le
  rw [hwithin.shortfall_eq, sum_wanted, max_eq_left (sub_nonpos.mpr hfits), add_zero,
    tolerance] at hshort
  refine max_le (add_nonneg hloss hslivers) ?_
  rw [overheadLoss]
  linarith

/-- What a newcomer may cost anybody: nothing under space sharing; under time sharing a sliver for
each working core, and what is demanded beyond the capacity. -/
def disturbance (p : Processor ℚ) (vm : Vm ℚ) : ℚ :=
  if p.isDedicated then 0 else p.tolerance + max 0 (p.demand + vm.peak - p.capacity)

/-- After every run of a processor, over exact numbers, a suitable machine that is new and not
migrating is admitted with its peak request, and costs nobody more than the `disturbance`. This is
at most a sliver for each core under space sharing and wherever all demands fit, the new one
included. If those of the others fit, it is at most what the migrating machines lose to the
overhead, but for slivers. -/
theorem suitable_accommodated {capacities : List ℚ} {discipline : Discipline} {overhead : ℚ}
    {ops : List (Operation ℚ)}
    (unassigned : discipline = .timeShared ∨ discipline = .spaceShared ∅)
    (fraction : checkFraction .migrationOverhead overhead = .ok overhead)
    (hp : (new (capacities.map .new) discipline overhead).performAll ops = .ok p)
    (hnew : p.ledger.contains vm.id = false) (hflags : p.ledger.isMigrating vm.id = false)
    (hsettled : vm.isMigrating = false) (hspeed : 0 ≤ vm.speed)
    (hsuitable : p.isSuitable vm = true) :
    (∃ q, p.Accommodates q vm (p.disturbance vm))
      ∧ (p.isDedicated = true ∨ p.demand + vm.peak ≤ p.capacity →
          p.disturbance vm ≤ capacities.length * TimeShared.sliver)
      ∧ (p.isDedicated = false → (∀ c ∈ capacities, 0 ≤ c) → p.demand ≤ p.capacity →
          p.disturbance vm ≤ p.overheadLoss
            + (2 * p.workingCount + p.received.length + 1) * TimeShared.sliver) := by
  obtain ⟨hreach, hsame, -, -⟩ := outcome_of_run unassigned fraction hp
  have hunknown : p.ledger.requests.find? vm.id = none := by
    rwa [Ledger.contains, IdMap.contains_eq_isSome, Option.isSome_eq_false_iff,
      Option.isNone_iff_eq_none] at hnew
  have htolerance : p.tolerance ≤ capacities.length * TimeShared.sliver := by
    have hcount : p.workingCount ≤ capacities.length := by
      rw [← hsame, List.length_map]
      exact List.length_filter_le ..
    exact mul_le_mul_of_nonneg_right (by exact_mod_cast hcount) TimeShared.sliver_pos.le
  have hnonneg : 0 ≤ (capacities.length : ℚ) * TimeShared.sliver :=
    mul_nonneg (Nat.cast_nonneg _) TimeShared.sliver_pos.le
  cases hdedicated : p.isDedicated with
  | false =>
    have hd := discipline_of_shared hdedicated
    have hdisturbance : p.disturbance vm
        = p.tolerance + max 0 (p.demand + vm.peak - p.capacity) := by
      rw [disturbance, hdedicated, if_neg Bool.false_ne_true]
    rw [hdisturbance]
    refine ⟨exists_accommodates_of_shared hreach hd hunknown hflags hsettled hspeed hsuitable,
      fun hfits => ?_, fun _ hcapacities hfits => ?_⟩
    · have hfits := hfits.resolve_left Bool.false_ne_true
      rw [max_eq_left (sub_nonpos.mpr hfits), add_zero]
      exact htolerance
    · have hcores : ∀ c ∈ p.cores, 0 ≤ c.capacity :=
        List.forall_mem_map.mp (hsame ▸ hcapacities)
      have hover := overcommitment_le hreach hd hcores hfits hsuitable
      rw [tolerance]
      linarith
  | true =>
    obtain ⟨a, ha⟩ := discipline_of_dedicated hdedicated
    rw [disturbance, hdedicated, if_pos rfl]
    exact ⟨exists_accommodates_of_spaceShared hreach ha hunknown hflags hsettled hspeed hsuitable,
      fun _ => hnonneg, fun hshared => absurd hshared.symm Bool.false_ne_true⟩

/-- A machine that has the core to itself and is about to leave it. -/
def leavingRun : List (Operation ℚ) :=
  [.request (.new 0 1 1000 10 10 10 (.constant 1)) [600], .markLeaving 0]

/-- A newcomer for which there is enough beside what is demanded. -/
theorem suitable_accommodated_sample : ∃ p q : Processor ℚ,
    (new (List.map .new [1000]) .timeShared 0.1).performAll leavingRun = .ok p
      ∧ p.isSuitable (.new 1 1 400 10 10 10 (.constant 1)) = true
      ∧ p.Accommodates q (.new 1 1 400 10 10 10 (.constant 1)) TimeShared.sliver := by
  have hcheck : (((new (List.map .new [1000]) .timeShared 0.1 :
      Processor ℚ).performAll leavingRun).toOption.any fun p =>
        !p.ledger.contains 1 && !p.ledger.isMigrating 1
        && p.isSuitable (.new 1 1 400 10 10 10 (.constant 1))
        && decide (p.disturbance (.new 1 1 400 10 10 10 (.constant 1)) = TimeShared.sliver))
      = true := by
    decide +kernel
  simp only [Option.any_eq_true, Fault.toOption_eq_some, Bool.and_eq_true, Bool.not_eq_true',
    decide_eq_true_eq] at hcheck
  obtain ⟨p, hp, ⟨⟨hnew, hflags⟩, hsuitable⟩, hdisturbance⟩ := hcheck
  obtain ⟨⟨q, hq⟩, -, -⟩ := suitable_accommodated (.inl rfl) (if_pos (by decide +kernel)) hp hnew
    hflags rfl (by decide +kernel) hsuitable
  exact ⟨p, q, hp, hsuitable, hdisturbance ▸ hq⟩

/-- The core is demanded in full, but its machine loses a tenth of it to the migration. A newcomer
is suitable because of this tenth, and takes a tenth of what the machine has left. -/
theorem exists_disturbed : ∃ p q : Processor ℚ,
    (new (List.map .new [1000]) .timeShared 0.1).performAll
        [.request (.new 0 1 1000 10 10 10 (.constant 1)) [1000], .markLeaving 0] = .ok p
      ∧ p.ledger.contains 1 = false ∧ p.ledger.isMigrating 1 = false
      ∧ p.isSuitable (.new 1 1 100 10 10 10 (.constant 1)) = true
      ∧ p.admit? (.new 1 1 100 10 10 10 (.constant 1)) [100] = some q
      ∧ p.totalAllocatedTo 0 = 900 ∧ q.totalAllocatedTo 0 = 810 := by
  have hcheck : (((new (List.map .new [1000]) .timeShared 0.1 : Processor ℚ).performAll
      [.request (.new 0 1 1000 10 10 10 (.constant 1)) [1000], .markLeaving 0]).toOption.any
        fun p => !p.ledger.contains 1 && !p.ledger.isMigrating 1
          && p.isSuitable (.new 1 1 100 10 10 10 (.constant 1))
          && decide (p.totalAllocatedTo 0 = 900)
          && (p.admit? (.new 1 1 100 10 10 10 (.constant 1)) [100]).any fun q =>
            decide (q.totalAllocatedTo 0 = 810)) = true := by
    decide +kernel
  simp only [Option.any_eq_true, Fault.toOption_eq_some, Bool.and_eq_true, Bool.not_eq_true',
    decide_eq_true_eq] at hcheck
  obtain ⟨p, hp, ⟨⟨⟨hnew, hflags⟩, hsuitable⟩, hbefore⟩, q, hq, hafter⟩ := hcheck
  exact ⟨p, q, hp, hnew, hflags, hsuitable, hq, hbefore, hafter⟩

end Processor

end Datacenter
