import Datacenter.Proofs.Pool.Preservation
import Datacenter.Proofs.Processor.Renewing

/-!
# Refreshing requests

Bringing requests up to date changes the processors of hosts and nothing else, each of them by the
machines that run on it, in the order in which they are visited (`Pool.refreshAll_eq`). So what one
processor makes of its machines can be looked at without the others.
-/

namespace Datacenter

variable {α : Type} [Scalar α]

/-- The host once the requests of machines have been brought up to date. -/
def Host.renewAll (time : α) (vms : List (Vm α)) (h : Host α) : Host α :=
  { h with processor := vms.foldl (Processor.renew time) h.processor }

theorem Host.update_eq_renew (h : Host α) (v : Vm α) (time : α) :
    h.update v (v.request time) = { h with processor := h.processor.renew time v } := by
  unfold Host.update Host.admit? Processor.renew
  cases h.processor.admit? v (v.request time) <;> rfl

theorem Host.renewAll_cons (time : α) (v : Vm α) (vms : List (Vm α)) (h : Host α) :
    h.renewAll time (v :: vms) = (h.update v (v.request time)).renewAll time vms := by
  rw [update_eq_renew]
  rfl

namespace Pool

variable {p : Pool α} {v : Vm α} {vms : List (Vm α)}

omit [Scalar α] in
/-- Those of some machines that run on a host. -/
def guests (p : Pool α) (host : Nat) (vms : List (Vm α)) : List (Vm α) :=
  vms.filter fun v => host ∈ p.hostsOf v

omit [Scalar α] in
/-- Changes at all positions that change nothing. -/
theorem mapIdx_eq_self {hosts : List (Host α)} {f : Nat → Host α → Host α}
    (h : ∀ i h, hosts[i]? = some h → f i h = h) : hosts.mapIdx f = hosts := by
  refine List.ext_getElem? fun i => ?_
  rw [List.getElem?_mapIdx]
  cases hi : hosts[i]? with
  | none => rfl
  | some h₀ => rw [Option.map_some, h i h₀ hi]

omit [Scalar α] in
/-- A change of hosts that are named once each. -/
theorem foldl_modifyHost {f : Host α → Host α} {ids : List Nat} (hids : ids.Nodup) (p : Pool α) :
    ids.foldl (fun q i => q.modifyHost i f) p
      = { p with hosts := p.hosts.mapIdx fun i h => if i ∈ ids then f h else h } := by
  induction ids generalizing p with
  | nil =>
    refine congrArg (fun hosts => { p with hosts := hosts }) (Eq.symm ?_)
    exact mapIdx_eq_self fun i h _ => if_neg List.not_mem_nil
  | cons i ids ih =>
    obtain ⟨hi, hids⟩ := List.nodup_cons.mp hids
    rw [List.foldl_cons, ih hids]
    refine congrArg (fun hosts => { p with hosts := hosts }) (List.ext_getElem? fun j => ?_)
    rw [List.getElem?_mapIdx, List.getElem?_mapIdx, getElem?_modifyHost]
    by_cases hj : j = i
    · subst hj
      simp [hi, Function.comp_def]
    · simp [hj]

theorem refresh_eq (hv : (p.hostsOf v).Nodup) :
    p.refresh v = { p with
      hosts := p.hosts.mapIdx fun i h =>
        if i ∈ p.hostsOf v then h.update v (v.request p.time) else h } := by
  have hclock : ∀ (ids : List Nat) (q : Pool α), q.time = p.time →
      ids.foldl (fun q i => q.modifyHost i (·.update v (v.request q.time))) q
        = ids.foldl (fun q i => q.modifyHost i (·.update v (v.request p.time))) q := by
    intro ids q hq
    induction ids generalizing q with
    | nil => rw [List.foldl_nil, List.foldl_nil]
    | cons i ids ih =>
      rw [List.foldl_cons, List.foldl_cons, hq]
      exact ih _ hq
  rw [refresh, hclock _ _ rfl, foldl_modifyHost hv]

theorem refreshAll_eq (hvms : ∀ v ∈ vms, (p.hostsOf v).Nodup) :
    p.refreshAll vms
      = { p with hosts := p.hosts.mapIdx fun i h => h.renewAll p.time (p.guests i vms) } := by
  induction vms generalizing p with
  | nil =>
    refine congrArg (fun hosts => { p with hosts := hosts }) (Eq.symm ?_)
    exact mapIdx_eq_self fun _ _ _ => rfl
  | cons v vms ih =>
    have hfirst := refresh_eq (hvms v List.mem_cons_self)
    have hrest : (p.refresh v).refreshAll vms = _ := ih fun w hw => by
      rw [hfirst]
      exact hvms w (List.mem_cons_of_mem v hw)
    show (p.refresh v).refreshAll vms = _
    rw [hrest, hfirst]
    refine congrArg (fun hosts => { p with hosts := hosts }) ?_
    rw [List.mapIdx_mapIdx]
    refine congrArg (fun f => p.hosts.mapIdx f) (funext fun i => funext fun h => ?_)
    show (if i ∈ p.hostsOf v then h.update v (v.request p.time) else h).renewAll p.time
      (p.guests i vms) = h.renewAll p.time (p.guests i (v :: vms))
    rw [guests, guests, List.filter_cons]
    by_cases hi : i ∈ p.hostsOf v
    · rw [if_pos hi, if_pos (decide_eq_true hi), Host.renewAll_cons]
    · rw [if_neg hi, if_neg (by simpa using hi)]

namespace Bookkeeping

/-- A machine runs on its host and on the target of its migration, which is another one. -/
theorem nodup_hostsOf (hp : p.Bookkeeping) (hv : p.vms.find? v.id = some v) :
    (p.hostsOf v).Nodup := by
  unfold hostsOf
  split
  · rename_i host hhost
    have hloc : p.location? v.id = some host := by simp [location?, hv, hhost]
    cases ht : p.migrations.find? v.id with
    | none => simp
    | some t =>
      have hne : host ≠ t := fun h => hp.target_ne hloc (h ▸ ht)
      simpa using hne
  · exact List.nodup_nil

theorem find?_of_mem_values (hp : p.Bookkeeping) (hv : v ∈ p.vms.values) :
    p.vms.find? v.id = some v := by
  obtain ⟨k, hk⟩ := IdMap.mem_values_iff.mp hv
  rwa [(hp.registered k).id v hk]

/-- Refreshing registered machines changes each host by those that run on it. -/
theorem refreshAll_eq (hp : p.Bookkeeping) (hvms : ∀ v ∈ vms, p.vms.find? v.id = some v) :
    p.refreshAll vms
      = { p with hosts := p.hosts.mapIdx fun i h => h.renewAll p.time (p.guests i vms) } :=
  Pool.refreshAll_eq fun v hv => hp.nodup_hostsOf (hvms v hv)

/-- Periodic processing refreshes each host by those that run on it, and then it records. -/
theorem updateProcessing_eq (hp : p.Bookkeeping) :
    p.updateProcessing = Pool.recordAll { p with
      hosts := p.hosts.mapIdx fun i h => h.renewAll p.time (p.guests i p.vms.values) } := by
  rw [Pool.updateProcessing, hp.refreshAll_eq fun v hv => hp.find?_of_mem_values hv]

theorem getElem?_updateProcessing (hp : p.Bookkeeping) (i : Nat) :
    p.updateProcessing.hosts[i]? = p.hosts[i]?.map fun h =>
      (h.renewAll p.time (p.guests i p.vms.values)).recordUtilization p.time := by
  rw [hp.updateProcessing_eq, Pool.recordAll, List.getElem?_map, List.getElem?_mapIdx,
    Option.map_map]
  rfl

end Bookkeeping

end Pool

end Datacenter
