import Datacenter.Proofs.Processor.Assignments
import Datacenter.Proofs.Processor.History
import Datacenter.Proofs.Processor.Superseding

/-!
# Requests that are renewed

Periodic processing asks a processor again for machines that are on file, with the requests of the
moment (`Processor.renew`). Every admission computes the shares of all machines anew, so the sharing
that the first machines bring about is gone once the last one has been asked for, and some machines
may be refused on the way. Still the result of asking for any number of machines is that of a single
new sharing (`Processor.foldl_renew`).

## Shape of the proof

A machine that is on file for as many cores as it has is answered in a way that nothing in between
can change (`Processor.admit?_of_knows`): under space sharing it keeps its cores, and under time
sharing the number of working cores decides. So it is known beforehand who is admitted, and what is
left are the changes of the ledger. These concern one machine each, so they can be made in any order
(`Ledger.registerAll_perm`), and making them again changes nothing (`Ledger.registerAll_again`).
-/

namespace Datacenter

variable {α : Type} [Scalar α] {time : α} {vms vms' : List (Vm α)}

/-- Among some machines, no two have the same id. -/
def IsUnambiguous (vms : List (Vm α)) : Prop :=
  ∀ v ∈ vms, ∀ w ∈ vms, v.id = w.id → v = w

omit [Scalar α] in
theorem IsUnambiguous.subset (h : IsUnambiguous vms) (hsub : vms' ⊆ vms) : IsUnambiguous vms' :=
  fun v hv w hw => h v (hsub hv) w (hsub hw)

/-! ## Ledgers -/

namespace Ledger

/-- The ledger with the requests that machines have at a time, registered one after the other. -/
def registerAll (time : α) (vms : List (Vm α)) (l : Ledger α) : Ledger α :=
  vms.foldl (fun l v => l.register v (v.request time)) l

variable {l : Ledger α} {v : Vm α}

theorem find?_registerAll_of_forall_ne {id : Nat} (h : ∀ v ∈ vms, v.id ≠ id) (l : Ledger α) :
    (l.registerAll time vms).requests.find? id = l.requests.find? id := by
  induction vms generalizing l with
  | nil => rfl
  | cons v vms ih =>
    have hhead : id ≠ v.id := Ne.symm (h v List.mem_cons_self)
    calc ((l.register v (v.request time)).registerAll time vms).requests.find? id
        = (l.register v (v.request time)).requests.find? id :=
          ih (fun w hw => h w (List.mem_cons_of_mem v hw)) _
      _ = l.requests.find? id := by rw [register, IdMap.find?_insert, if_neg hhead]

theorem find?_registerAll (h : IsUnambiguous vms) (hv : v ∈ vms) (l : Ledger α) :
    (l.registerAll time vms).requests.find? v.id = some ⟨v.request time, v.isMigrating⟩ := by
  induction vms generalizing l with
  | nil => contradiction
  | cons w vms ih =>
    show ((l.register w (w.request time)).registerAll time vms).requests.find? v.id = _
    by_cases hlater : v ∈ vms
    · exact ih (h.subset (List.subset_cons_self w vms)) hlater _
    · obtain rfl : v = w := (List.mem_cons.mp hv).resolve_right hlater
      -- the machine comes only once, so nothing that is registered later has its id
      rw [find?_registerAll_of_forall_ne, register, IdMap.find?_insert, if_pos rfl]
      intro w hw hid
      exact hlater (h w (List.mem_cons_of_mem v hw) v List.mem_cons_self hid ▸ hw)

theorem contains_registerAll (hvms : ∀ v ∈ vms, l.contains v.id = true) (id : Nat) :
    (l.registerAll time vms).contains id = l.contains id := by
  induction vms generalizing l with
  | nil => rfl
  | cons v vms ih =>
    have hhead : ∀ id, (l.register v (v.request time)).contains id = l.contains id := by
      intro id
      rw [contains, register, IdMap.contains_insert]
      by_cases hid : id = v.id
      · rw [hid, decide_eq_true rfl, Bool.true_or, hvms v List.mem_cons_self]
      · rw [decide_eq_false hid, Bool.false_or, contains]
    calc ((l.register v (v.request time)).registerAll time vms).contains id
        = (l.register v (v.request time)).contains id := ih fun w hw => by
          rw [hhead]
          exact hvms w (List.mem_cons_of_mem v hw)
      _ = l.contains id := hhead id

/-- Registering what is registered already changes nothing. -/
theorem registerAll_of_registered
    (h : ∀ v ∈ vms, l.requests.find? v.id = some ⟨v.request time, v.isMigrating⟩) :
    l.registerAll time vms = l := by
  induction vms with
  | nil => rfl
  | cons v vms ih =>
    have hhead : l.register v (v.request time) = l := by
      rw [register, IdMap.insert_of_find?_eq_some (h v List.mem_cons_self)]
    show (l.register v (v.request time)).registerAll time vms = l
    rw [hhead]
    exact ih fun w hw => h w (List.mem_cons_of_mem v hw)

/-- Registering the same requests again changes nothing. -/
theorem registerAll_again (h : IsUnambiguous vms) (l : Ledger α) :
    (l.registerAll time vms).registerAll time vms = l.registerAll time vms :=
  registerAll_of_registered fun _ hv => find?_registerAll h hv l

/-- The requests of different machines can be registered in any order. -/
theorem registerAll_perm (h : IsUnambiguous vms) (horder : vms.Perm vms') (l : Ledger α) :
    l.registerAll time vms = l.registerAll time vms' := by
  refine horder.foldl_eq' (fun v hv w hw l => ?_) l
  by_cases hid : v.id = w.id
  · rw [h v hv w hw hid]
  · have hcomm := (IdMap.changesAt_insert v.id (⟨v.request time, v.isMigrating⟩ : Request α)).comm
      (IdMap.changesAt_insert w.id ⟨w.request time, w.isMigrating⟩) hid l.requests
    simp only [register, hcomm]

end Ledger

/-! ## Processors -/

namespace Processor

variable {p : Processor α} {v : Vm α}

/-- Asks for the request that a machine has at a time; a refusal leaves everything as it is. -/
def renew (time : α) (p : Processor α) (v : Vm α) : Processor α :=
  (p.admit? v (v.request time)).getD p

/-- Whether a machine that is on file is admitted again. -/
def serves (p : Processor α) (v : Vm α) : Bool :=
  p.isDedicated || v.vcpus ≤ p.workingCount

/-- A machine is on file, for as many cores as it has. -/
def Knows (p : Processor α) (v : Vm α) : Prop :=
  ∃ r, p.ledger.requests.find? v.id = some r ∧ r.share.length = v.vcpus

omit [Scalar α] in
theorem Knows.contains (h : p.Knows v) : p.ledger.contains v.id = true := by
  obtain ⟨r, hr, -⟩ := h
  exact IdMap.contains_iff.mpr ⟨r, hr⟩

/-- Machines stay on file when others, or they themselves, are registered. -/
theorem Knows.register {l : Ledger α} {w : Vm α} (h : p.Knows v) (hsame : v.id = w.id → v = w)
    (hl : l = p.ledger.register w (w.request time)) : (p.withLedger l).Knows v := by
  rw [Knows, withLedger_ledger, hl, Ledger.register, IdMap.find?_insert]
  split
  · obtain rfl := hsame ‹_›
    exact ⟨_, rfl, List.length_replicate⟩
  · exact h

section

variable [OrderedScalar α]

theorem admission?_of_knows (hp : p.Reachable) (hv : p.Knows v) (time : α) :
    p.admission? v (v.request time) = if p.serves v then some p.discipline else none := by
  have hlength : (v.request time).length = v.vcpus := List.length_replicate
  obtain ⟨r, hr, hcount⟩ := hv
  unfold admission? serves
  cases hd : p.discipline with
  | timeShared =>
    have hadmits : TimeShared.admits p.cores v (v.request time)
        = (p.isDedicated || decide (v.vcpus ≤ p.workingCount)) := by
      simp only [TimeShared.admits, hlength, Bool.and_self, isDedicated, hd, Bool.false_or]
      rfl
    simp only [hadmits]
  | spaceShared a =>
    have hdedicates := dedicates_of_reachable hp hd
    obtain ⟨is, his⟩ : ∃ is, a.find? v.id = some is := IdMap.contains_iff.mp <| by
      rw [hdedicates.registered]
      exact IdMap.contains_iff.mpr ⟨r, hr⟩
    -- the machine has as many cores already as it asks for, so it keeps them
    have hkept : (a.find? v.id).map List.length = some (v.request time).length := by
      rw [his, Option.map_some, hdedicates.length v.id is r his hr, hcount, hlength]
    simp only [SpaceShared.admit?, if_pos hkept, isDedicated, hd, Bool.true_or, if_true,
      Option.map_some]

/-- A machine that is on file for as many cores as it has is admitted exactly if it is served, and
the assignment stays as it is. -/
theorem admit?_of_knows (hp : p.Reachable) (hv : p.Knows v) (time : α) :
    p.admit? v (v.request time) = if p.serves v then
      some (p.withLedger (p.ledger.register v (v.request time))) else none := by
  rw [admit?, admission?_of_knows hp hv]
  split <;> rfl

theorem renew_of_serves (hp : p.Reachable) (hv : p.Knows v) (hserves : p.serves v = true) :
    p.renew time v = p.withLedger (p.ledger.register v (v.request time)) := by
  rw [renew, admit?_of_knows hp hv, if_pos hserves, Option.getD_some]

theorem renew_of_not_serves (hp : p.Reachable) (hv : p.Knows v) (hserves : ¬ p.serves v = true) :
    p.renew time v = p := by
  rw [renew, admit?_of_knows hp hv, if_neg hserves, Option.getD_none]

theorem serves_withLedger (p : Processor α) (l : Ledger α) : (p.withLedger l).serves = p.serves := by
  funext v
  rw [serves, serves, workingCount_congr (makeup_withLedger p l), withLedger, isDedicated_reshare]
  rfl

/-- However many machines are asked for, the result is that of one new sharing. -/
theorem foldl_renew (hp : p.Reachable) (hvms : ∀ v ∈ vms, p.Knows v) (hids : IsUnambiguous vms)
    (time : α) :
    vms.foldl (renew time) p = p.withLedger (p.ledger.registerAll time (vms.filter p.serves)) := by
  induction vms generalizing p with
  | nil => exact (reshare_of_reachable hp).symm
  | cons v vms ih =>
    have hv := hvms v List.mem_cons_self
    have hrest : ∀ w ∈ vms, p.Knows w := fun w hw => hvms w (List.mem_cons_of_mem v hw)
    have hids' := hids.subset (List.subset_cons_self v vms)
    rw [List.foldl_cons, List.filter_cons]
    by_cases hserves : p.serves v = true
    · have hnext : (p.renew time v).Reachable := by
        rw [renew_of_serves hp hv hserves]
        have hgranted : p.admit? v (v.request time) = some _ :=
          (admit?_of_knows hp hv time).trans (if_pos hserves)
        exact hp.grant hgranted
      rw [renew_of_serves hp hv hserves] at hnext ⊢
      rw [if_pos hserves, ih hnext (fun w hw => (hrest w hw).register (fun hid =>
        hids w (List.mem_cons_of_mem v hw) v List.mem_cons_self hid) rfl) hids',
        serves_withLedger, withLedger_ledger, withLedger_withLedger]
      · rfl
      · -- those who are asked for later are on file already
        intro id hid
        rw [Ledger.contains_registerAll] at hid
        · exact hid
        · intro w hw
          rw [Ledger.contains, Ledger.register, IdMap.contains_insert]
          have hw := (hrest w (List.mem_of_mem_filter hw)).contains
          rw [Ledger.contains] at hw
          rw [hw, Bool.or_true]
    · rw [renew_of_not_serves hp hv hserves, if_neg hserves]
      exact ih hp hrest hids'

/-- The order in which machines are asked for does not matter. -/
theorem foldl_renew_perm (hp : p.Reachable) (hvms : ∀ v ∈ vms, p.Knows v)
    (hids : IsUnambiguous vms) (horder : vms.Perm vms') (time : α) :
    vms.foldl (renew time) p = vms'.foldl (renew time) p := by
  rw [foldl_renew hp hvms hids,
    foldl_renew hp (fun v hv => hvms v (horder.mem_iff.mpr hv)) (hids.subset horder.symm.subset),
    Ledger.registerAll_perm (hids.subset (List.filter_subset_self ..)) (horder.filter _)]

/-- Asking for the same machines again changes nothing. -/
theorem foldl_renew_again (hp : p.Reachable) (hvms : ∀ v ∈ vms, p.Knows v)
    (hids : IsUnambiguous vms) (time : α) :
    vms.foldl (renew time) (vms.foldl (renew time) p) = vms.foldl (renew time) p := by
  have htwice : vms ++ vms ⊆ vms := fun v hv => or_self_iff.mp (List.mem_append.mp hv)
  have hagain : p.ledger.registerAll time (vms.filter p.serves ++ vms.filter p.serves)
      = p.ledger.registerAll time (vms.filter p.serves) :=
    (List.foldl_append ..).trans
      (Ledger.registerAll_again (hids.subset (List.filter_subset_self ..)) p.ledger)
  rw [← List.foldl_append, foldl_renew hp (fun v hv => hvms v (htwice hv)) (hids.subset htwice),
    foldl_renew hp hvms hids, List.filter_append, hagain]

end

end Processor

end Datacenter
