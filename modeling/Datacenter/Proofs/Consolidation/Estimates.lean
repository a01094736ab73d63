import Datacenter.Consolidation.Round
import Datacenter.Proofs.Fault

/-!
# Estimates and the hosts they stand for

A round of consolidation starts from the estimates of all hosts as they are. `Estimate.IsOf` is
what such an estimate says of its host, and `getElem?_estimatesOf` that there is one of every host,
at the position of the host. An estimate and its host agree on what overloaded and underloaded mean.

Moves change an estimate in what decides about further moves only. `Estimate.Kin` relates the
estimates of one host at different moments: they differ in what is given away and what is left.
-/

namespace Datacenter

open Fault Consolidation

variable {α : Type} [Scalar α]

/-- What the estimate of a host as it is says. -/
structure Estimate.IsOf (e : Estimate α) (rule : Rule α) (h : Host α) : Prop where
  id : e.id = h.id
  isActive : e.isActive = h.isActive
  hasMigrations : e.hasMigrations = h.hasMigrations
  utilization : e.utilization = h.utilization
  capacity : e.capacity = h.processor.capacity
  load : e.load = h.load
  threshold : rule.upper.of h = .ok e.threshold

namespace Estimate.IsOf

variable {e : Estimate α} {rule : Rule α} {h : Host α}

theorem of_ofHost {threshold : α} (hof : rule.upper.of h = .ok threshold)
    (he : Estimate.ofHost h threshold = .ok e) : e.IsOf rule h := by
  obtain ⟨ram, -, he⟩ := bind_eq_ok.mp he
  obtain ⟨bandwidth, -, he⟩ := bind_eq_ok.mp he
  obtain ⟨storage, -, he⟩ := bind_eq_ok.mp he
  cases he
  exact ⟨rfl, rfl, rfl, rfl, rfl, rfl, hof⟩

theorem isOverloaded (he : e.IsOf rule h) :
    rule.isOverloaded h = .ok (e.isActive && e.isOverloaded) := by
  unfold Rule.isOverloaded Estimate.isOverloaded
  rw [he.isActive, he.threshold, he.utilization]
  cases h.isActive <;> rfl

theorem isUnderloaded (he : e.IsOf rule h) :
    rule.isUnderloaded h = (e.isActive && e.isUnderloaded rule.lower) := by
  rw [Rule.isUnderloaded, Estimate.isUnderloaded, he.isActive, he.utilization]

end Estimate.IsOf

namespace Consolidation

/-- Every host has its estimate. -/
theorem getElem?_estimatesOf {rule : Rule α} {p : Pool α} {estimates : List (Estimate α)}
    (hes : estimatesOf rule p = .ok estimates) (i : Nat) :
    (p.hosts[i]? = none ∧ estimates[i]? = none)
      ∨ ∃ h e, p.hosts[i]? = some h ∧ estimates[i]? = some e ∧ e.IsOf rule h := by
  rcases getElem?_of_mapM hes i with hnone | ⟨h, e, hh, he, hof⟩
  · exact .inl hnone
  · obtain ⟨threshold, hthreshold, hof⟩ := bind_eq_ok.mp hof
    exact .inr ⟨h, e, hh, he, .of_ofHost hthreshold hof⟩

theorem exists_estimate {rule : Rule α} {p : Pool α} {estimates : List (Estimate α)}
    (hes : estimatesOf rule p = .ok estimates) {i : Nat} {h : Host α}
    (hh : p.hosts[i]? = some h) : ∃ e, estimates[i]? = some e ∧ e.IsOf rule h := by
  rcases getElem?_estimatesOf hes i with ⟨hnone, -⟩ | ⟨h', e, hh', he, hof⟩
  · rw [hh] at hnone
    contradiction
  · obtain rfl := Option.some.inj (hh.symm.trans hh')
    exact ⟨e, he, hof⟩

theorem exists_host {rule : Rule α} {p : Pool α} {estimates : List (Estimate α)}
    (hes : estimatesOf rule p = .ok estimates) {i : Nat} {e : Estimate α}
    (he : estimates[i]? = some e) : ∃ h, p.hosts[i]? = some h ∧ e.IsOf rule h := by
  rcases getElem?_estimatesOf hes i with ⟨-, hnone⟩ | ⟨h, e', hh, he', hof⟩
  · rw [he] at hnone
    contradiction
  · obtain rfl := Option.some.inj (he.symm.trans he')
    exact ⟨h, hh, hof⟩

end Consolidation

/-! ## Estimates of one host -/

/-- The two estimates are of one host. -/
structure Estimate.Kin (e e' : Estimate α) : Prop where
  id : e'.id = e.id
  isActive : e'.isActive = e.isActive
  hasMigrations : e'.hasMigrations = e.hasMigrations
  capacity : e'.capacity = e.capacity
  threshold : e'.threshold = e.threshold

namespace Estimate.Kin

variable {e e' e'' : Estimate α}

omit [Scalar α] in
theorem refl (e : Estimate α) : e.Kin e :=
  ⟨rfl, rfl, rfl, rfl, rfl⟩

omit [Scalar α] in
theorem trans (h : e.Kin e') (h' : e'.Kin e'') : e.Kin e'' :=
  ⟨h'.id.trans h.id, h'.isActive.trans h.isActive, h'.hasMigrations.trans h.hasMigrations,
    h'.capacity.trans h.capacity, h'.threshold.trans h.threshold⟩

theorem add (e : Estimate α) (vm : Vm α) (load : α) : e.Kin (e.add vm load) :=
  ⟨rfl, rfl, rfl, rfl, rfl⟩

theorem remove (e : Estimate α) (vm : Vm α) (processor : Processor α) :
    e.Kin (e.remove vm processor) :=
  ⟨rfl, rfl, rfl, rfl, rfl⟩

end Estimate.Kin

namespace Consolidation

/-- Lists of estimates of the same hosts. -/
def SameHosts (es es' : List (Estimate α)) : Prop :=
  ∀ i : Nat, (es[i]? = none ∧ es'[i]? = none)
    ∨ ∃ e e' : Estimate α, es[i]? = some e ∧ es'[i]? = some e' ∧ e.Kin e'

variable {es es' es'' : List (Estimate α)}

omit [Scalar α] in
theorem SameHosts.refl (es : List (Estimate α)) : SameHosts es es := by
  intro i
  cases h : es[i]? with
  | none => exact .inl ⟨rfl, rfl⟩
  | some e => exact .inr ⟨e, e, rfl, rfl, .refl e⟩

omit [Scalar α] in
/-- Estimates from before know the host of a later one. -/
theorem SameHosts.before (h : SameHosts es es') {i : Nat} {e' : Estimate α}
    (he' : es'[i]? = some e') : ∃ e, es[i]? = some e ∧ e.Kin e' := by
  rcases h i with ⟨-, hnone⟩ | ⟨e, e₁, he, he₁, hkin⟩
  · rw [he'] at hnone
    contradiction
  · obtain rfl := Option.some.inj (he'.symm.trans he₁)
    exact ⟨e, he, hkin⟩

omit [Scalar α] in
/-- Estimates from later know the host of an earlier one. -/
theorem SameHosts.after (h : SameHosts es es') {i : Nat} {e : Estimate α}
    (he : es[i]? = some e) : ∃ e', es'[i]? = some e' ∧ e.Kin e' := by
  rcases h i with ⟨hnone, -⟩ | ⟨e₁, e', he₁, he', hkin⟩
  · rw [he] at hnone
    contradiction
  · obtain rfl := Option.some.inj (he.symm.trans he₁)
    exact ⟨e', he', hkin⟩

omit [Scalar α] in
theorem SameHosts.trans (h : SameHosts es es') (h' : SameHosts es' es'') : SameHosts es es'' := by
  intro i
  rcases h i with ⟨hnone, hnone'⟩ | ⟨e, e', he, he', hkin⟩
  · rcases h' i with ⟨-, hnone''⟩ | ⟨e', e'', he', -, -⟩
    · exact .inl ⟨hnone, hnone''⟩
    · rw [hnone'] at he'
      contradiction
  · obtain ⟨e'', he'', hkin'⟩ := h'.after he'
    exact .inr ⟨e, e'', he, he'', hkin.trans hkin'⟩

omit [Scalar α] in
/-- A change of one estimate that keeps it in the kin. -/
theorem SameHosts.of_modify {f : Estimate α → Estimate α} (hf : ∀ e : Estimate α, e.Kin (f e))
    (i : Nat) :
    SameHosts es (es.modify i f) := by
  intro j
  rw [List.getElem?_modify]
  cases h : es[j]? with
  | none => exact .inl ⟨rfl, rfl⟩
  | some e =>
    refine .inr ⟨e, if i = j then f e else e, rfl, rfl, ?_⟩
    split
    · exact hf e
    · exact .refl e

omit [Scalar α] in
theorem SameHosts.of_set {i : Nat} {e e' : Estimate α} (he : es[i]? = some e) (hkin : e.Kin e') :
    SameHosts es (es.set i e') := by
  intro j
  have hlt : i < es.length := (List.getElem?_eq_some_iff.mp he).1
  rw [List.getElem?_set]
  by_cases hij : i = j
  · subst hij
    rw [if_pos rfl, if_pos hlt]
    exact .inr ⟨e, e', he, rfl, hkin⟩
  · rw [if_neg hij]
    exact SameHosts.refl es j

/-- Every estimate stands at the position that is its id. -/
def Aligned (es : List (Estimate α)) : Prop :=
  ∀ (i : Nat) (e : Estimate α), es[i]? = some e → e.id = i

omit [Scalar α] in
theorem Aligned.of_sameHosts (hes : Aligned es) (h : SameHosts es es') : Aligned es' := by
  intro i e' he'
  obtain ⟨e, he, hkin⟩ := h.before he'
  rw [hkin.id, hes i e he]

omit [Scalar α] in
/-- In aligned estimates, the ids of some are their positions. -/
theorem Aligned.mem_map_id_iff (hes : Aligned es) (q : Estimate α → Bool) {i : Nat} :
    i ∈ (es.filter q).map (·.id) ↔ ∃ e, es[i]? = some e ∧ q e = true := by
  simp only [List.mem_map, List.mem_filter]
  constructor
  · rintro ⟨e, ⟨hmem, hq⟩, rfl⟩
    obtain ⟨j, hj⟩ := List.mem_iff_getElem?.mp hmem
    rw [hes j e hj]
    exact ⟨e, hj, hq⟩
  · rintro ⟨e, he, hq⟩
    exact ⟨e, ⟨List.mem_of_getElem? he, hq⟩, hes i e he⟩

omit [Scalar α] in
/-- In aligned estimates, ids are listed once. -/
theorem Aligned.nodup_map_id (hes : Aligned es) (q : Estimate α → Bool) :
    ((es.filter q).map (·.id)).Nodup := by
  have hids : es.map (·.id) = List.range es.length := by
    apply List.ext_getElem?
    intro i
    rw [List.getElem?_map]
    cases he : es[i]? with
    | none =>
      have hge : es.length ≤ i := List.getElem?_eq_none_iff.mp he
      rw [List.getElem?_eq_none (by simpa using hge)]
      rfl
    | some e =>
      rw [List.getElem?_range (List.getElem?_eq_some_iff.mp he).1, Option.map_some, hes i e he]
  have hsub : ((es.filter q).map (·.id)).Sublist (es.map (·.id)) :=
    (List.filter_sublist ..).map _
  rw [hids] at hsub
  exact hsub.nodup List.nodup_range

end Consolidation

end Datacenter
