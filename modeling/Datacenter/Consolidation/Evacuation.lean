import Datacenter.Consolidation.Target
import Datacenter.MigrationPlan
import Datacenter.Pool.Basic

/-!
# Evacuation of underloaded hosts

Hosts are evacuated one after the other, the least utilized one first. A host is evacuated only if
all its machines find targets; otherwise none of them moves. Its machines go to hosts that are on,
and a host that takes some is not evacuated any more. An evacuated host is to be switched off.

`evacuate` keeps the list of the hosts that are still *open*, that is, that may be evacuated. Each
of them is tried at most once, so the list shrinks.
-/

namespace Datacenter.Consolidation

variable {α : Type} [Scalar α]

/-- Settles all machines on hosts that are on and not excluded: the moves and the estimates after
them, unless one of the machines finds no target. -/
def settleAll? (find : Search (HostRank α) (Estimate α)) (fit : TargetFit) (time : α)
    (excluded : IdSet) :
    List (Vm α) → List (Estimate α) → Option (List (Nat × Nat) × List (Estimate α))
  | [], estimates => some ([], estimates)
  | vm :: rest, estimates => do
    let (target, estimates) ← settle? find fit time excluded false estimates vm
    let (moves, estimates) ← settleAll? find fit time excluded rest estimates
    return ((vm.id, target) :: moves, estimates)

/-- The moves that evacuate a host and the estimates after them, if all its machines may leave and
find targets. -/
def evacuation? (find : Search (HostRank α) (Estimate α)) (fit : TargetFit) (p : Pool α)
    (eligible excluded : IdSet) (h : Host α) (estimates : List (Estimate α)) :
    Option (List (Nat × Nat) × List (Estimate α)) :=
  let residents := p.residentsOf h
  if residents.any fun vm => vm.isMigrating || !eligible.contains vm.id then none
  else settleAll? find fit p.time excluded (heaviestFirst p.time residents) estimates

/-- Whether a host is evacuated before another one: the one with the lower utilization, and of equal
ones the one with the lower id. -/
def isLighter (a b : Estimate α) : Bool :=
  ((compare a.utilization b.utilization).then (compare a.id b.id)).isLE

/-- The host to evacuate next: the least utilized one of the open hosts that are underloaded. -/
def nextSource? (lower : α) (openHosts : List Nat) (estimates : List (Estimate α)) :
    Option (Estimate α) :=
  least? isLighter
    (estimates.filter fun e => openHosts.contains e.id && e.isUnderloaded lower)

theorem id_mem_of_nextSource? {lower : α} {openHosts : List Nat} {estimates : List (Estimate α)}
    {e : Estimate α} (h : nextSource? lower openHosts estimates = some e) : e.id ∈ openHosts := by
  have := (List.mem_filter.mp (mem_of_least? h)).2
  simp only [Bool.and_eq_true, List.contains_iff_mem] at this
  exact this.1

/-- Evacuates hosts as long as there are open ones that are underloaded. -/
def evacuate (find : Search (HostRank α) (Estimate α)) (fit : TargetFit) (lower : α) (p : Pool α)
    (eligible : IdSet) (excluded : IdSet) (openHosts : List Nat) (estimates : List (Estimate α))
    (plan : MigrationPlan) : MigrationPlan :=
  match _h : nextSource? lower openHosts estimates with
  | none => plan
  | some source =>
    let excluded := excluded.add source.id
    let remaining := openHosts.erase source.id
    match p.hosts[source.id]?.bind (evacuation? find fit p eligible excluded · estimates) with
    | none => evacuate find fit lower p eligible excluded remaining estimates plan
    | some (moves, estimates) =>
      evacuate find fit lower p eligible excluded (remaining.removeAll (moves.map Prod.snd))
        estimates ((plan.insertAll moves).markOff source.id)
termination_by openHosts.length
decreasing_by
  all_goals
    have hmem := id_mem_of_nextSource? _h
    have hpos := List.length_pos_of_mem hmem
    have hlt : (openHosts.erase source.id).length < openHosts.length := by
      rw [List.length_erase_of_mem hmem]
      omega
  · exact hlt
  · exact Nat.lt_of_le_of_lt (List.length_filter_le _ _) hlt

end Datacenter.Consolidation
