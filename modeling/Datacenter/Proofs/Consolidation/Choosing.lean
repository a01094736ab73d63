import Datacenter.Proofs.Consolidation.Estimates
import Datacenter.Proofs.Pool.Bookkeeping

/-!
# Choosing machines to relieve hosts

`Consolidation.select` chooses among the machines that it offers to a selector, so the machines that
are chosen are residents of the hosts to relieve that may leave them, and each is chosen once.
Choosing changes the estimates of those hosts only. Of selectors that answer with other machines the
steps of a relief tell more (`Datacenter/Proofs/Consolidation/Steps.lean`).
-/

namespace Datacenter.Consolidation

variable {α σ : Type} [Scalar α]

/-- What is known of the machines that may leave a host. -/
theorem of_mem_candidatesOn {p : Pool α} (hp : p.Bookkeeping) {eligible : IdSet} {i : Nat}
    {h : Host α} (hh : p.hosts[i]? = some h) {v : Vm α} (hv : v ∈ candidatesOn p eligible h) :
    p.vms.find? v.id = some v ∧ v.host = some i ∧ v.migration = .settled
      ∧ eligible.contains v.id = true := by
  obtain ⟨hv, heligible⟩ := List.mem_filter.mp hv
  obtain ⟨hv, hfree⟩ := List.mem_filter.mp hv
  obtain ⟨hfind, hhost⟩ := (hp.mem_residentsOf hh).mp hv
  simp only [Vm.isMigrating, Bool.and_eq_true, Bool.not_eq_true', bne_eq_false_iff_eq] at hfree
  exact ⟨hfind, hhost, hfree.2, heligible⟩

/-- Machines that may leave different hosts are different: each of them resides on one host. -/
theorem id_ne_of_candidatesOn {p : Pool α} (hp : p.Bookkeeping) {eligible : IdSet} {i j : Nat}
    {h h' : Host α} (hi : p.hosts[i]? = some h) (hj : p.hosts[j]? = some h') (hne : i ≠ j)
    {v w : Vm α} (hv : v ∈ candidatesOn p eligible h) (hw : w ∈ candidatesOn p eligible h') :
    v.id ≠ w.id := by
  intro hid
  obtain ⟨hfind, hvi, -⟩ := of_mem_candidatesOn hp hi hv
  obtain ⟨hfind', hwj, -⟩ := of_mem_candidatesOn hp hj hw
  rw [hid, hfind'] at hfind
  obtain rfl := Option.some.inj hfind
  exact hne (Option.some.inj (hvi.symm.trans hwj))

/-! ## One host -/

omit [Scalar α] in
theorem of_mem_others {id : Nat} {vms : List (Vm α)} {v : Vm α} (h : v ∈ others id vms) :
    v ∈ vms ∧ v.id ≠ id := by
  simpa [others] using h

/-- Each choice is a candidate that has not been chosen yet. -/
theorem relieve_outcome (choose : Selector σ α) (time : α) (processor : Processor α) (s : σ)
    (e : Estimate α) (candidates : List (Vm α)) :
    (∀ v ∈ (relieve choose time processor s e candidates).selected, v ∈ candidates)
      ∧ ((relieve choose time processor s e candidates).selected.map (·.id)).Nodup
      ∧ e.Kin (relieve choose time processor s e candidates).estimate := by
  fun_induction relieve choose time processor s e candidates with
  | case1 s e candidates hover chosen s' hchoose hnone =>
    exact ⟨fun _ hv => (nomatch hv), List.nodup_nil, .refl e⟩
  | case2 s e candidates hover chosen s' hchoose vm hfind rest ih =>
    -- the choice leaves the candidates, so no later one repeats it
    obtain ⟨hmem, hnodup, hkin⟩ := ih
    refine ⟨fun v hv => ?_, ?_, (Estimate.Kin.remove e vm processor).trans hkin⟩
    · rcases List.mem_cons.mp hv with rfl | hv
      · exact List.mem_of_find?_eq_some hfind
      · exact (of_mem_others (hmem v hv)).1
    · refine List.nodup_cons.mpr ⟨fun hid => ?_, hnodup⟩
      obtain ⟨v, hv, hvid⟩ := List.mem_map.mp hid
      exact (of_mem_others (hmem v hv)).2 hvid
  | case3 s e candidates hover => exact ⟨fun _ hv => (nomatch hv), List.nodup_nil, .refl e⟩

/-! ## One host after the other -/

theorem select_outcome {choose : Selector σ α} {p : Pool α} (hp : p.Bookkeeping) {eligible : IdSet}
    {sources : List Nat} {es es' : List (Estimate α)} {s s' : σ} {selected : List (Vm α)}
    (hsources : sources.Nodup)
    (h : select choose p eligible sources es s = (selected, es', s')) :
    (∀ v ∈ selected, ∃ i ∈ sources, ∃ host, p.hosts[i]? = some host
        ∧ v ∈ candidatesOn p eligible host)
      ∧ (selected.map (·.id)).Nodup ∧ SameHosts es es'
      ∧ ∀ i, i ∉ sources → es'[i]? = es[i]? := by
  induction sources generalizing es s selected es' s' with
  | nil =>
    cases h
    exact ⟨fun _ hv => (nomatch hv), List.nodup_nil, .refl _, fun _ _ => rfl⟩
  | cons i rest ih =>
    obtain ⟨hi, hrest⟩ := List.nodup_cons.mp hsources
    unfold select at h
    split at h
    · rename_i host e hhost he
      obtain ⟨hcandidates, hnodup, hkin⟩ :=
        relieve_outcome choose p.time host.processor s e (candidatesOn p eligible host)
      cases hmore : select choose p eligible rest
          (es.set i (relieve choose p.time host.processor s e
            (candidatesOn p eligible host)).estimate)
          (relieve choose p.time host.processor s e (candidatesOn p eligible host)).state with
      | mk more r =>
        obtain ⟨es₁, s₁⟩ := r
        dsimp only at h
        rw [hmore] at h
        cases h
        obtain ⟨hmem, hids, hsame, hothers⟩ := ih hrest hmore
        refine ⟨fun v hv => ?_, ?_, (SameHosts.of_set he hkin).trans hsame, fun j hj => ?_⟩
        · rcases List.mem_append.mp hv with hv | hv
          · exact ⟨i, List.mem_cons_self, host, hhost, hcandidates v hv⟩
          · obtain ⟨j, hj, host', hhost', hv⟩ := hmem v hv
            exact ⟨j, List.mem_cons_of_mem i hj, host', hhost', hv⟩
        · -- what is chosen here differs from what is chosen on other hosts
          rw [List.map_append, List.nodup_append]
          refine ⟨hnodup, hids, ?_⟩
          intro k hk k' hk'
          obtain ⟨v, hv, rfl⟩ := List.mem_map.mp hk
          obtain ⟨w, hw, rfl⟩ := List.mem_map.mp hk'
          obtain ⟨j, hj, host', hhost', hw⟩ := hmem w hw
          refine id_ne_of_candidatesOn hp hhost hhost' ?_ (hcandidates v hv) hw
          exact fun hij => hi (hij ▸ hj)
        · rw [List.mem_cons, not_or] at hj
          rw [hothers j hj.2, List.getElem?_set_ne (Ne.symm hj.1)]
    · obtain ⟨hmem, hids, hsame, hothers⟩ := ih hrest h
      refine ⟨fun v hv => ?_, hids, hsame, fun j hj => ?_⟩
      · obtain ⟨j, hj, host', hhost', hv⟩ := hmem v hv
        exact ⟨j, List.mem_cons_of_mem i hj, host', hhost', hv⟩
      · exact hothers j fun hmem => hj (List.mem_cons_of_mem i hmem)

end Datacenter.Consolidation
