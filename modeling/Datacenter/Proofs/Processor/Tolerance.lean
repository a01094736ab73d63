import Datacenter.Proofs.Processor.Accounting

/-!
# Flags that others hardly feel

A flag takes the overhead off the share of one machine. What the virtual cores demand, and so how
the capacity is divided, does not depend on flags, so all other machines are entitled to what they
were entitled to before. What they receive may still change, since the shares are poured onto the
cores one after the other. But nobody receives more than is due, and nobody falls short by more than
all virtual cores together; so a flag costs no other machine more than a sliver for each working
core (`Processor.shares_accounted`).
-/

namespace Datacenter

open Scalar

/-! ## Due and received -/

namespace TimeShared

variable {received received' due : List (Nat × ℚ)} {t : ℚ}

theorem Within.shortfall_nonneg (h : Within received due) : 0 ≤ shortfall received due := by
  induction h with
  | nil => exact le_refl (0 : ℚ)
  | cons hhead _ ih => exact add_nonneg (sub_nonneg.mpr hhead.2) ih

theorem Within.filter_owner (h : Within received due) (w : Nat) :
    Within (received.filter (·.1 == w)) (due.filter (·.1 == w)) :=
  List.rel_filter (fun r d hrd => by dsimp only; rw [hrd.1]) h

/-- One machine falls short by no more than all machines together. -/
theorem Within.shortfall_filter_le (h : Within received due) (w : Nat) :
    shortfall (received.filter (·.1 == w)) (due.filter (·.1 == w)) ≤ shortfall received due := by
  induction h with
  | nil => exact le_refl (0 : ℚ)
  | @cons r d received due hhead htail ih =>
    have hcons : shortfall (r :: received) (d :: due) = d.2 - r.2 + shortfall received due := rfl
    rw [List.filter_cons, List.filter_cons, hhead.1, hcons]
    split
    · exact add_le_add_right ih _
    · exact ih.trans (le_add_of_nonneg_left (sub_nonneg.mpr hhead.2))

/-- One virtual core falls short by no more than all of them together. -/
theorem Within.due_le (h : Within received due) (ht : shortfall received due ≤ t) :
    List.Forall₂ (fun r d => d.2 ≤ r.2 + t) received due := by
  induction h with
  | nil => exact .nil
  | @cons r d received due hhead htail ih =>
    have hcons : shortfall (r :: received) (d :: due) = d.2 - r.2 + shortfall received due := rfl
    have hrest := Within.shortfall_nonneg htail
    rw [hcons] at ht
    have hle := hhead.2
    exact .cons (by linarith) (ih (by linarith))

theorem Within.le_of_due_le (h : Within received due)
    (h' : List.Forall₂ (fun r d => d.2 ≤ r.2 + t) received' due) :
    List.Forall₂ (fun x y => x ≤ y + t) (received.map Prod.snd) (received'.map Prod.snd) := by
  induction h generalizing received' with
  | nil =>
    cases h'
    exact .nil
  | cons hhead _ ih =>
    cases h' with
    | cons hhead' htail' => exact .cons (hhead.2.trans hhead') (ih htail')

/-! ## What flags do not change -/

/-- The demands follow from what is asked for. -/
theorem demands_congr {l l' : Ledger ℚ} (h : ∀ id, (l'.requests.find? id).map (·.share)
      = (l.requests.find? id).map (·.share)) (cores : List (Core ℚ)) :
    demands cores l' = demands cores l := by
  have hshares : l'.requests.map (fun _ r => r.share) = l.requests.map (fun _ r => r.share) :=
    IdMap.ext_find? fun id => by rw [IdMap.find?_map, IdMap.find?_map]; exact h id
  have hdemands : ∀ m : Ledger ℚ, demands cores m
      = (m.requests.map fun _ r => r.share).toList.flatMap fun e =>
        e.2.map fun mips => (e.1, clamp mips 0 (fastest cores)) := by
    intro m
    rw [IdMap.map, List.flatMap_map]
    rfl
  rw [hdemands, hdemands, hshares]

/-- A machine is entitled to the same share as long as the demands and its own factor stay. -/
theorem filter_entitlements_congr {l l' : Ledger ℚ} {cores cores' : List (Core ℚ)} {w : Nat}
    (hdemands : demands cores' l' = demands cores l) (hcapacity : capacity cores' = capacity cores)
    (hfactor : l'.factor w = l.factor w) :
    (entitlements cores' l').filter (·.1 == w) = (entitlements cores l).filter (·.1 == w) := by
  have hshares : shares cores' l' = shares cores l := by rw [shares, shares, hdemands, hcapacity]
  rw [entitlements_eq_map, entitlements_eq_map, hdemands, hshares, List.filter_map, List.filter_map]
  refine List.map_congr_left fun x hx => ?_
  have howner : x.1.1 = w := beq_iff_eq.mp (List.mem_filter.mp hx).2
  rw [howner, hfactor]

end TimeShared

namespace Processor

/-- The operation flags machine `k` as migrating: as arriving, as leaving, or by registering its
request again while it migrates. -/
def Operation.Flags {α : Type} (l : Ledger α) (k : Nat) : Operation α → Prop
  | markArriving id => id = k
  | markLeaving id => id = k
  | request vm requested => vm.id = k ∧ vm.isMigrating = true
    ∧ (l.requests.find? k).map (·.share) = some requested
  | _ => False

variable {p q : Processor ℚ} {op : Operation ℚ} {k w : Nat}

theorem Operation.Flags.subject? (h : op.Flags p.ledger k) : op.subject? = some k := by
  cases op with
  | markArriving id => exact congrArg some h
  | markLeaving id => exact congrArg some h
  | request vm requested => exact congrArg some h.1
  | _ => exact h.elim

/-- A flag does not change what anybody asks for. -/
theorem Operation.Flags.share_eq (h : op.Flags p.ledger k) (hq : p.perform op = .ok q) (id : Nat) :
    (q.ledger.requests.find? id).map (·.share) = (p.ledger.requests.find? id).map (·.share) := by
  cases op with
  | markArriving _ =>
    obtain rfl := Except.ok.inj hq
    rw [markArriving_ledger]
    split <;> rfl
  | markLeaving _ =>
    obtain rfl := Except.ok.inj hq
    rw [markLeaving_ledger]
    split <;> rfl
  | request vm requested =>
    obtain ⟨rfl, -, hshare⟩ := h
    obtain rfl := Except.ok.inj hq
    cases hgranted : p.admit? vm requested with
    | none => rfl
    | some q =>
      rw [Option.getD_some, admit?_ledger hgranted, Ledger.register, IdMap.find?_insert]
      split
      · rename_i hid
        rw [hid, hshare]
        rfl
      · rfl
  | _ => exact h.elim

/-! ## What machines receive -/

theorem allocatedTo_of_shared (hp : p.Reachable) (hd : p.discipline = .timeShared) (w : Nat) :
    p.allocatedTo w = (p.received.filter (·.1 == w)).map Prod.snd := by
  have hfind : p.allocations.find? w = (p.ledger.requests.find? w).map
      fun _ => (p.received.filter (·.1 == w)).map Prod.snd := by
    rw [received_of_shared hp hd, allocations_of_shared hp hd]
    exact IdMap.find?_map ..
  rw [allocatedTo, hfind]
  cases hr : p.ledger.requests.find? w with
  | some r => rfl
  | none =>
    -- who is not registered is not entitled to anything
    have hnone : p.received.filter (·.1 == w) = [] := by
      rw [List.filter_eq_nil_iff, received_of_shared hp hd]
      intro a ha hw
      have hmem := List.mem_map_of_mem (f := Prod.fst) ha
      rw [TimeShared.map_fst_layOut, beq_iff_eq.mp hw] at hmem
      obtain ⟨d, hdue, rfl⟩ := List.mem_map.mp hmem
      obtain ⟨r, hr'⟩ := IdMap.contains_iff.mp
        (IdMap.mem_keys_iff.mp (TimeShared.mem_entitlements hdue).1)
      rw [hr] at hr'
      contradiction
    rw [hnone]
    rfl

theorem totalAllocatedTo_eq (p : Processor ℚ) (w : Nat) :
    p.totalAllocatedTo w = (p.allocatedTo w).sum := by
  rw [totalAllocatedTo, allocatedTo]
  cases p.allocations.find? w with
  | none => rfl
  | some share => exact Rational.sum_eq share

/-- A machine of which the same is due loses no more than it falls short by afterwards. -/
theorem share_kept_of_due {due : List (Nat × ℚ)} {t : ℚ} (hp : p.Reachable)
    (hd : p.discipline = .timeShared) (hq : q.Reachable) (hd' : q.discipline = .timeShared)
    (hbefore : TimeShared.Within (p.received.filter (·.1 == w)) due)
    (hafter : TimeShared.Within (q.received.filter (·.1 == w)) due)
    (hshort : TimeShared.shortfall (q.received.filter (·.1 == w)) due ≤ t) :
    List.Forall₂ (fun x y => x ≤ y + t) (p.allocatedTo w) (q.allocatedTo w)
      ∧ p.totalAllocatedTo w ≤ q.totalAllocatedTo w + t := by
  rw [totalAllocatedTo_eq, totalAllocatedTo_eq, allocatedTo_of_shared hp hd,
    allocatedTo_of_shared hq hd']
  refine ⟨hbefore.le_of_due_le (hafter.due_le hshort), ?_⟩
  have hnonneg := hbefore.shortfall_nonneg
  rw [hbefore.shortfall_eq] at hnonneg
  rw [hafter.shortfall_eq] at hshort
  linarith

/-- A machine whose entitlement stays loses no more than all virtual cores fall short by. -/
theorem share_kept (hp : p.Reachable) (hd : p.discipline = .timeShared) (hp' : p.Accounts)
    (hq : q.Reachable) (hd' : q.discipline = .timeShared) (hq' : q.Accounts)
    (hsame : (TimeShared.entitlements q.cores q.ledger).filter (·.1 == w)
      = (TimeShared.entitlements p.cores p.ledger).filter (·.1 == w)) :
    List.Forall₂ (fun x y => x ≤ y + q.tolerance) (p.allocatedTo w) (q.allocatedTo w)
      ∧ p.totalAllocatedTo w ≤ q.totalAllocatedTo w + q.tolerance := by
  have hafter := hq'.within.filter_owner w
  have hshort := (hq'.within.shortfall_filter_le w).trans hq'.shortfall
  rw [hsame] at hafter hshort
  exact share_kept_of_due hp hd hq hd' (hp'.within.filter_owner w) hafter hshort

/-- After every run of a processor under time sharing, over exact numbers and with capacities that
are not negative, cores, shares and entitlements agree up to slivers, and flagging a machine as
migrating costs no other machine more than a sliver for each working core. -/
theorem shares_accounted {capacities : List ℚ} {overhead : ℚ} {ops : List (Operation ℚ)}
    (hcapacities : ∀ c ∈ capacities, 0 ≤ c)
    (fraction : checkFraction .migrationOverhead overhead = .ok overhead)
    (hp : (new (capacities.map .new) .timeShared overhead).performAll ops = .ok p) :
    p.Accounts ∧ ∀ (op : Operation ℚ) (k : Nat) (q : Processor ℚ), op.Flags p.ledger k →
      p.perform op = .ok q → ∀ w, w ≠ k →
        List.Forall₂ (fun x y => x ≤ y + p.tolerance) (p.allocatedTo w) (q.allocatedTo w)
        ∧ p.totalAllocatedTo w ≤ q.totalAllocatedTo w + p.tolerance := by
  obtain ⟨hreach, hsame, -, hshared⟩ := outcome_of_run (.inl rfl) fraction hp
  have hd := discipline_of_shared hshared
  have hcores : ∀ c ∈ p.cores, 0 ≤ c.capacity :=
    List.forall_mem_map.mp (hsame ▸ hcapacities)
  refine ⟨accounts_of_reachable hreach hd hcores, fun op k q hflags hq w hw => ?_⟩
  obtain ⟨hmakeup, hbooks⟩ := perform_others hflags.subject? hq
  have hbuild := SameBuild.perform hq
  have hreach' := hreach.perform hq
  have hd' := discipline_of_shared (hbuild.isDedicated.trans hshared)
  have hcores' : ∀ c ∈ q.cores, 0 ≤ c.capacity :=
    List.forall_mem_map.mp (hbuild.capacities ▸ hsame ▸ hcapacities)
  have hdemands : TimeShared.demands q.cores q.ledger = TimeShared.demands p.cores p.ledger := by
    rw [TimeShared.demands_congr (hflags.share_eq hq)]
    unfold TimeShared.demands
    rw [show TimeShared.fastest q.cores = _ from fastest_congr hmakeup]
    rfl
  have hentitled := TimeShared.filter_entitlements_congr hdemands (capacity_congr hmakeup)
    ((hbooks w hw).factor_eq hbuild.overhead)
  have htolerance : q.tolerance = p.tolerance := by
    rw [tolerance, tolerance, workingCount_congr hmakeup]
  rw [← htolerance]
  exact share_kept hreach hd (accounts_of_reachable hreach hd hcores) hreach' hd'
    (accounts_of_reachable hreach' hd' hcores') hentitled

/-- Two machines that ask for more than the cores that are left have. -/
def crowdedRun : List (Operation ℚ) :=
  [.request (.new 1 2 2000 10 10 10 (.constant 1)) [1200, 900], .failCore 2,
    .request (.new 2 1 2000 10 10 10 (.constant 1)) [1800]]

/-- The machine that is flagged loses the overhead, the other one at most two slivers. -/
theorem shares_accounted_sample : ∃ p q : Processor ℚ,
    (new (List.map .new [1000, 2000, 500]) .timeShared 0.1).performAll crowdedRun = .ok p
      ∧ p.Accounts ∧ p.perform (.markLeaving 1) = .ok q
      ∧ p.totalAllocatedTo 1 = 1740 ∧ q.totalAllocatedTo 1 = 1566
      ∧ p.totalAllocatedTo 2 ≤ q.totalAllocatedTo 2 + 2 * TimeShared.sliver := by
  have hcheck : (((new (List.map .new [1000, 2000, 500]) .timeShared 0.1 :
      Processor ℚ).performAll crowdedRun).toOption.any fun p =>
        decide (p.workingCount = 2) && decide (p.totalAllocatedTo 1 = 1740)
        && (p.perform (.markLeaving 1)).toOption.any fun q =>
          decide (q.totalAllocatedTo 1 = 1566)) = true := by
    decide +kernel
  simp only [Option.any_eq_true, Fault.toOption_eq_some, Bool.and_eq_true, decide_eq_true_eq]
    at hcheck
  obtain ⟨p, hp, ⟨hcount, hbefore⟩, q, hq, hafter⟩ := hcheck
  obtain ⟨haccounts, hothers⟩ :=
    shares_accounted (by decide +kernel) (if_pos (by decide +kernel)) hp
  have hkept := (hothers (.markLeaving 1) 1 q rfl hq 2 (by decide)).2
  rw [tolerance, hcount] at hkept
  exact ⟨p, q, hp, haccounts, hq, hbefore, hafter, hkept⟩

end Processor

end Datacenter
