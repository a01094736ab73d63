import Datacenter.Consolidation.Target
import Datacenter.Pool.Basic
import Datacenter.Selection.Policy

/-!
# Relief of overloaded hosts

A relief chooses machines to leave the overloaded hosts. It goes through these hosts, and a selector
chooses one machine after the other from each of them, until the estimate of the host is no longer
above its threshold or the selector finds none. It is offered the machines that may leave the host
and have not been chosen yet. `reliefStep?` is a step of this loop.

Nothing keeps a selector from answering with another machine than those it is offered. The loop goes
on with that one, and it need not come to an end. A selector that keeps to what it is offered, as
all selection policies do, makes at most as many choices as there are machines: for such selectors
`select` computes what the loop comes to.

`settleSelected` then settles the chosen machines on hosts that were not overloaded, which may have
to be switched on. A machine without a target stays where it is.
-/

namespace Datacenter.Consolidation

variable {α σ : Type} [Scalar α]

/-- The machines that may leave a host: those that take no part in a migration and are eligible. -/
def candidatesOn (p : Pool α) (eligible : IdSet) (h : Host α) : List (Vm α) :=
  (p.migratable h).filter fun vm => eligible.contains vm.id

/-! ## The loop -/

omit [Scalar α] in
/-- The machines among some that have not been selected. -/
def unselected (selected vms : List (Vm α)) : List (Vm α) :=
  vms.filter fun v => !selected.any fun w => w.id == v.id

/-- The machines that a selector is offered: those that may leave a host and have not been selected
yet. -/
def offered (p : Pool α) (eligible : IdSet) (h : Host α) (selected : List (Vm α)) : List (Vm α) :=
  unselected selected (candidatesOn p eligible h)

/-- How far a relief has come. -/
structure Progress (σ α : Type) where
  /-- The hosts to relieve, of which the first one comes next. -/
  hosts : List Nat
  /-- The machines selected so far, on all hosts. -/
  selected : List (Vm α)
  /-- The estimates of the hosts without them. -/
  estimates : List (Estimate α)
  /-- The state of the selector. -/
  state : σ

/-- A step of a relief, whatever the selector answers. There is none if no host is left to relieve,
nor if the answer is the id of no machine. -/
def reliefStep? (choose : Selector σ α) (p : Pool α) (eligible : IdSet) :
    Progress σ α → Option (Progress σ α)
  | ⟨[], _, _, _⟩ => none
  | ⟨i :: rest, selected, es, s⟩ => do
    let h ← p.hosts[i]?
    let e ← es[i]?
    if e.isOverloaded then
      match choose s (offered p eligible h selected) p.time with
      | (none, s) => return ⟨rest, selected, es, s⟩
      | (some k, s) =>
        let v ← p.vms.find? k
        return ⟨i :: rest, selected ++ [v], es.set i (e.remove v h.processor), s⟩
    else return ⟨rest, selected, es, s⟩

/-! ## Selectors that keep to what they are offered -/

/-- What is chosen in a relief. -/
structure Choice (σ α : Type) where
  /-- The machines that are to leave, in the order in which they were chosen. -/
  selected : List (Vm α)
  /-- The estimate of the host without them. -/
  estimate : Estimate α
  /-- The state of the selector after the choices. -/
  state : σ

omit [Scalar α] in
/-- The machines that have another id. -/
def others (id : Nat) (vms : List (Vm α)) : List (Vm α) :=
  vms.filter fun vm => vm.id != id

omit [Scalar α] in
theorem length_others_lt {vm : Vm α} {vms : List (Vm α)} (h : vm ∈ vms) :
    (others vm.id vms).length < vms.length :=
  List.length_filter_lt_length_iff_exists.mpr ⟨vm, h, by simp⟩

/-- Chooses machines among candidates to leave a host, with a selector that answers with one of them
or none. An answer that is not among them ends the choice here, but not the loop. -/
def relieve (select : Selector σ α) (time : α) (processor : Processor α) (s : σ) (e : Estimate α)
    (candidates : List (Vm α)) : Choice σ α :=
  if e.isOverloaded then
    let (chosen, s) := select s candidates time
    match _h : candidates.find? (fun vm => chosen == some vm.id) with
    | none => { selected := [], estimate := e, state := s }
    | some vm =>
      let rest := relieve select time processor s (e.remove vm processor)
        (others vm.id candidates)
      { rest with selected := vm :: rest.selected }
  else { selected := [], estimate := e, state := s }
termination_by candidates.length
decreasing_by exact length_others_lt (List.mem_of_find?_eq_some _h)

/-- Chooses machines to leave the given hosts, one host after the other: the machines, the estimates
without them, and the state of the selector after it. -/
def select (choose : Selector σ α) (p : Pool α) (eligible : IdSet) :
    List Nat → List (Estimate α) → σ → List (Vm α) × List (Estimate α) × σ
  | [], estimates, s => ([], estimates, s)
  | host :: rest, estimates, s =>
    match p.hosts[host]?, estimates[host]? with
    | some h, some e =>
      let choice := relieve choose p.time h.processor s e (candidatesOn p eligible h)
      let (more, estimates, s) :=
        select choose p eligible rest (estimates.set host choice.estimate) choice.state
      (choice.selected ++ more, estimates, s)
    | _, _ => select choose p eligible rest estimates s

/-! ## Settling -/

/-- Settles machines on hosts that are not excluded, one after the other: the moves, and the
estimates after them. -/
def settleSelected (find : Search (HostRank α) (Estimate α)) (fit : TargetFit) (time : α)
    (excluded : IdSet) :
    List (Vm α) → List (Estimate α) → List (Nat × Nat) × List (Estimate α)
  | [], estimates => ([], estimates)
  | vm :: rest, estimates =>
    match settle? find fit time excluded true estimates vm with
    | some (target, estimates) =>
      let (moves, estimates) := settleSelected find fit time excluded rest estimates
      ((vm.id, target) :: moves, estimates)
    | none => settleSelected find fit time excluded rest estimates

end Datacenter.Consolidation
