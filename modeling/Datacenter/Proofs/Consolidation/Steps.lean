import Datacenter.Consolidation.Round
import Datacenter.Proofs.Consolidation.Estimates
import Datacenter.Proofs.Pool.Bookkeeping
import Mathlib.Logic.Relation

/-!
# The steps of a relief

`Consolidation.reliefStep?` is a step of the loop that relieves overloaded hosts, whatever the
selector answers. The selector may name a machine that it is not offered, one that resides on
another host, or the same one over and over; then the loop need not come to an end. `ReliefRun` is
any number of steps, and `Plans` says what a round plans if its relief comes to an end.

Some of what a round relies on holds for selectors of any kind: the machines that are selected are
registered, and the estimates of hosts that are not overloaded stay as they are (`UnderRelief`).
This is carried over one step by `UnderRelief.step`, with the ways on told by `reliefStep?_cases`,
and over all steps by `UnderRelief.run`.
-/

namespace Datacenter.Consolidation

variable {α σ : Type} [Scalar α]

/-- The steps of a relief, one after the other. -/
def ReliefRun (choose : Selector σ α) (p : Pool α) (eligible : IdSet) :
    Progress σ α → Progress σ α → Prop :=
  Relation.ReflTransGen fun r r' => reliefStep? choose p eligible r = some r'

/-- What a round plans with a selector of any kind: its relief comes to an end, and the plan goes on
with the machines selected by then. The selector ends up in the state `s'`. -/
def Plans (rule : Rule α) (choose : Selector σ α) (s : σ) (p : Pool α) (eligible : List Nat)
    (plan : MigrationPlan) (s' : σ) : Prop :=
  ∃ start selected es, estimatesOf rule p = .ok start
    ∧ ReliefRun choose p (.ofList eligible) ⟨overloaded start, [], start, s⟩
      ⟨[], selected, es, s'⟩
    ∧ plan = planFor rule.search.findMax rule.fit rule.lower p (.ofList eligible)
      (overloaded start) selected es

variable {choose : Selector σ α} {p : Pool α} {eligible : IdSet} {h : Host α} {e : Estimate α}
  {i : Nat} {rest : List Nat} {r r' : Progress σ α} {v : Vm α} {s s' : σ} {selected : List (Vm α)}
  {start es : List (Estimate α)}

/-! ## One step -/

/-- A host that is not above its threshold is left. -/
theorem reliefStep?_relieved (hh : p.hosts[i]? = some h) (he : es[i]? = some e)
    (hload : e.isOverloaded = false) :
    reliefStep? choose p eligible ⟨i :: rest, selected, es, s⟩ = some ⟨rest, selected, es, s⟩ := by
  simp [reliefStep?, hh, he, hload]

/-- A host of which the selector chooses no machine is left. -/
theorem reliefStep?_exhausted (hh : p.hosts[i]? = some h) (he : es[i]? = some e)
    (hload : e.isOverloaded = true)
    (hchoose : choose s (offered p eligible h selected) p.time = (none, s')) :
    reliefStep? choose p eligible ⟨i :: rest, selected, es, s⟩
      = some ⟨rest, selected, es, s'⟩ := by
  simp [reliefStep?, hh, he, hload, hchoose]

/-- A machine that the selector chooses is selected. -/
theorem reliefStep?_chosen (hh : p.hosts[i]? = some h) (he : es[i]? = some e)
    (hload : e.isOverloaded = true)
    (hchoose : choose s (offered p eligible h selected) p.time = (some v.id, s'))
    (hv : p.vms.find? v.id = some v) :
    reliefStep? choose p eligible ⟨i :: rest, selected, es, s⟩
      = some ⟨i :: rest, selected ++ [v], es.set i (e.remove v h.processor), s'⟩ := by
  simp [reliefStep?, hh, he, hload, hchoose, hv]

/-- The ways on. The first host is left because it is not above its threshold or because the
selector chooses none of its machines, or a registered machine is selected, from wherever it is. -/
theorem reliefStep?_cases (hstep : reliefStep? choose p eligible r = some r') :
    ∃ i rest h e, r.hosts = i :: rest ∧ p.hosts[i]? = some h ∧ r.estimates[i]? = some e
      ∧ (e.isOverloaded = false ∧ r' = { r with hosts := rest }
        ∨ e.isOverloaded = true ∧ ∃ answer s',
          choose r.state (offered p eligible h r.selected) p.time = (answer, s')
            ∧ (answer = none ∧ r' = { r with hosts := rest, state := s' }
              ∨ ∃ k v, answer = some k ∧ p.vms.find? k = some v
                ∧ r' = ⟨r.hosts, r.selected ++ [v],
                  r.estimates.set i (e.remove v h.processor), s'⟩)) := by
  obtain ⟨hosts, selected, es, s⟩ := r
  cases hosts with
  | nil => cases hstep
  | cons i rest =>
    obtain ⟨h, hh, hstep⟩ := Option.bind_eq_some_iff.mp hstep
    obtain ⟨e, he, hstep⟩ := Option.bind_eq_some_iff.mp hstep
    refine ⟨i, rest, h, e, rfl, hh, he, ?_⟩
    split at hstep
    case isTrue hload =>
      cases hchoose : choose s (offered p eligible h selected) p.time with
      | mk answer s' =>
        refine .inr ⟨hload, answer, s', rfl, ?_⟩
        rw [hchoose] at hstep
        cases answer with
        | none => exact .inl ⟨rfl, (Option.some.inj hstep).symm⟩
        | some k =>
          obtain ⟨v, hv, hstep⟩ := Option.bind_eq_some_iff.mp hstep
          exact .inr ⟨k, v, rfl, hv, (Option.some.inj hstep).symm⟩
    case isFalse hload =>
      exact .inl ⟨Bool.eq_false_iff.mpr hload, (Option.some.inj hstep).symm⟩

/-- There is only one way on at every step, so all steps lead to an end if some do. -/
theorem ReliefRun.to_end (h : ReliefRun choose p eligible r ⟨[], selected, es, s⟩)
    (hr : ReliefRun choose p eligible r r') :
    ReliefRun choose p eligible r' ⟨[], selected, es, s⟩ := by
  have hunique : Relator.RightUnique fun r r' => reliefStep? choose p eligible r = some r' :=
    fun _ _ _ h₁ h₂ => Option.some.inj (h₁.symm.trans h₂)
  rcases Relation.ReflTransGen.total_of_right_unique hunique hr h with h' | h'
  · exact h'
  · rcases Relation.ReflTransGen.cases_head h' with rfl | ⟨_, hnext, -⟩
    · exact .refl
    · cases hnext

/-! ## What every relief keeps -/

/-- What choosing machines to relieve overloaded hosts does to the estimates. -/
structure Relieved (start chosen : List (Estimate α)) : Prop where
  aligned : Aligned start
  sameHosts : SameHosts start chosen
  elsewhere : ∀ i, i ∉ overloaded start → chosen[i]? = start[i]?

/-- A relief that started from the estimates `start` has come to `r`. -/
structure UnderRelief (p : Pool α) (start : List (Estimate α)) (r : Progress σ α) : Prop where
  /-- Only overloaded hosts are still to come. -/
  hosts : ∀ i ∈ r.hosts, i ∈ overloaded start
  /-- All selected machines are registered. -/
  registered : ∀ v ∈ r.selected, p.vms.find? v.id = some v
  /-- Only the estimates of overloaded hosts have changed. -/
  relieved : Relieved start r.estimates

theorem UnderRelief.init (s : σ) (hstart : Aligned start) :
    UnderRelief p start ⟨overloaded start, [], start, s⟩ where
  hosts _ hi := hi
  registered _ hv := nomatch hv
  relieved := ⟨hstart, .refl start, fun _ _ => rfl⟩

theorem UnderRelief.step (hp : p.Bookkeeping) (hr : UnderRelief p start r)
    (hstep : reliefStep? choose p eligible r = some r') : UnderRelief p start r' := by
  obtain ⟨i, rest, h, e, hhosts, hh, he, hcases⟩ := reliefStep?_cases hstep
  have hover : ∀ j ∈ i :: rest, j ∈ overloaded start := hhosts ▸ hr.hosts
  have hrest : ∀ j ∈ rest, j ∈ overloaded start :=
    fun j hj => hover j (List.mem_cons_of_mem i hj)
  rcases hcases with ⟨-, rfl⟩ | ⟨-, answer, s', -, ⟨-, rfl⟩ | ⟨k, v, -, hv, rfl⟩⟩
  · exact ⟨hrest, hr.registered, hr.relieved⟩
  · exact ⟨hrest, hr.registered, hr.relieved⟩
  · constructor
    case hosts => exact hr.hosts
    case registered =>
      intro w hw
      rcases List.mem_append.mp hw with hw | hw
      · exact hr.registered w hw
      · obtain rfl := List.mem_singleton.mp hw
        rw [(hp.registered k).id w hv, hv]
    case relieved =>
      have hkin := Estimate.Kin.remove e v h.processor
      refine ⟨hr.relieved.aligned, hr.relieved.sameHosts.trans (.of_set he hkin), fun j hj => ?_⟩
      have hne : i ≠ j := fun hij => hj (hij ▸ hover i List.mem_cons_self)
      rw [List.getElem?_set_ne hne, hr.relieved.elsewhere j hj]

theorem UnderRelief.run (hp : p.Bookkeeping) (hr : UnderRelief p start r)
    (hsteps : ReliefRun choose p eligible r r') : UnderRelief p start r' := by
  induction hsteps with
  | refl => exact hr
  | tail _ hstep ih => exact ih.step hp hstep

end Datacenter.Consolidation
