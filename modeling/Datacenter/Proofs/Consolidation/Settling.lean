import Datacenter.Proofs.Consolidation.Estimates

/-!
# Settling machines on targets

Both phases of a round settle machines one after the other. `Settled` is what they have in common:
each machine has gone to a host whose estimate could take it at that moment, and only that estimate
has changed. `settleSelected_outcome` and `settleAll?_outcome` say which machines a phase settles
and which hosts it takes as targets.

A search finds one of its candidates (`HostSearch.exists_of_findMax`); which of them it prefers does
not matter here.
-/

namespace Datacenter

variable {α : Type}

/-! ## Searching -/

namespace HostSearch

variable {κ : Type} [Ord κ]

theorem better_eq (a b : κ × Nat) : better a b = a ∨ better a b = b := by
  unfold better
  split
  · exact .inr rfl
  · exact .inl rfl
  · split
    · exact .inr rfl
    · exact .inl rfl

/-- The better one of two candidates is one of them. -/
theorem better?_eq_some {a b : Option (κ × Nat)} {c : κ × Nat} (h : better? a b = some c) :
    a = some c ∨ b = some c := by
  cases a with
  | none => exact .inr h
  | some a =>
    cases b with
    | none => exact .inl h
    | some b =>
      have hc : better a b = c := Option.some.inj h
      rcases better_eq a b with ha | hb
      · exact .inl (by rw [← hc, ha])
      · exact .inr (by rw [← hc, hb])

theorem mem_of_bestInOrder {candidates : List (κ × Nat)} {c : κ × Nat}
    (h : bestInOrder candidates = some c) : c ∈ candidates := by
  -- the invariant of the fold: the best so far is a candidate, or it was there at the start
  have hfold : ∀ (cs : List (κ × Nat)) (best : Option (κ × Nat)),
      cs.foldl (fun best c => better? best (some c)) best = some c → c ∈ cs ∨ best = some c := by
    intro cs
    induction cs with
    | nil => exact fun best hbest => .inr hbest
    | cons d cs ih =>
      intro best hbest
      rcases ih _ hbest with hmem | hbetter
      · exact .inl (List.mem_cons_of_mem d hmem)
      · rcases better?_eq_some hbetter with hold | hnew
        · exact .inr hold
        · cases hnew
          exact .inl List.mem_cons_self
  rcases hfold candidates none h with hmem | hnone
  · exact hmem
  · contradiction

theorem mem_of_bestByHalves {candidates : List (κ × Nat)} {c : κ × Nat}
    (h : bestByHalves candidates = some c) : c ∈ candidates := by
  fun_induction bestByHalves candidates with
  | case1 candidates hshort => exact List.mem_of_head? h
  | case2 candidates hlong half ihl ihr =>
    rcases better?_eq_some h with hl | hr
    · exact List.mem_of_mem_take (ihl hl)
    · exact List.mem_of_mem_drop (ihr hr)

/-- What is found is the id of an item that has a key. -/
theorem exists_of_findMax {β : Type} {s : HostSearch} {items : List β}
    {key : β → Option (κ × Nat)} {id : Nat} (h : s.findMax items key = some id) :
    ∃ x ∈ items, ∃ k, key x = some (k, id) := by
  obtain ⟨c, hc, rfl⟩ := Option.map_eq_some_iff.mp h
  have hmem : c ∈ items.filterMap key := by
    split at hc
    · exact mem_of_bestByHalves hc
    · exact mem_of_bestInOrder hc
  obtain ⟨x, hx, hkey⟩ := List.mem_filterMap.mp hmem
  exact ⟨x, hx, c.1, hkey⟩

end HostSearch

namespace Consolidation

variable [Scalar α]

/-! ## One machine -/

/-- The target of a machine is a host that is not excluded and can take it. -/
theorem settle?_outcome {search : HostSearch} {fit : TargetFit} {time : α}
    {excluded : IdSet} {allowInactive : Bool}
    {es es' : List (Estimate α)} {vm : Vm α} {target : Nat} (hes : Aligned es)
    (h : settle? search.findMax fit time excluded allowInactive es vm = some (target, es')) :
    ∃ e, es[target]? = some e ∧ excluded.contains target = false
      ∧ (allowInactive = true ∨ e.isActive = true) ∧ e.canAccept vm (vm.loadAt time) = true
      ∧ es' = es.modify target (·.add vm (vm.loadAt time)) := by
  obtain ⟨t, ht, heq⟩ := Option.map_eq_some_iff.mp h
  cases heq
  obtain ⟨e, hmem, k, hkey⟩ := HostSearch.exists_of_findMax ht
  unfold rank? at hkey
  split at hkey
  · contradiction
  · rename_i hcond
    cases hkey
    obtain ⟨j, hj⟩ := List.mem_iff_getElem?.mp hmem
    simp only [Bool.or_eq_true, Bool.and_eq_true, Bool.not_eq_true', not_or, not_and,
      Bool.not_eq_false, Bool.not_eq_true] at hcond
    -- aligned estimates stand where the id that was found points
    refine ⟨e, by rw [hes j e hj]; exact hj, hcond.1.1, ?_, hcond.2, rfl⟩
    cases hallow : allowInactive with
    | true => exact .inl rfl
    | false => exact .inr (hcond.1.2 hallow)

/-! ## One after the other -/

/-- The moves that a plan has for settled machines. -/
def movesOf (ms : List (Vm α × Nat)) : List (Nat × Nat) :=
  ms.map fun m => (m.1.id, m.2)

omit [Scalar α] in
@[simp] theorem movesOf_append (ms ns : List (Vm α × Nat)) :
    movesOf (ms ++ ns) = movesOf ms ++ movesOf ns :=
  List.map_append

omit [Scalar α] in
@[simp] theorem map_fst_movesOf (ms : List (Vm α × Nat)) :
    (movesOf ms).map Prod.fst = ms.map (·.1.id) :=
  List.map_map ..

omit [Scalar α] in
@[simp] theorem map_snd_movesOf (ms : List (Vm α × Nat)) :
    (movesOf ms).map Prod.snd = ms.map Prod.snd :=
  List.map_map ..

/-- Machines have gone, one after the other, to hosts that could take them. -/
inductive Settled (time : α) :
    List (Vm α × Nat) → List (Estimate α) → List (Estimate α) → Prop where
  /-- No machine has gone anywhere. -/
  | nil (es : List (Estimate α)) : Settled time [] es es
  /-- The first machine has gone to a host, and others have gone to hosts after it. -/
  | cons {vm : Vm α} {target : Nat} {e : Estimate α} {ms : List (Vm α × Nat)}
      {es es' : List (Estimate α)} : es[target]? = some e →
      e.canAccept vm (vm.loadAt time) = true →
      Settled time ms (es.modify target (·.add vm (vm.loadAt time))) es' →
      Settled time ((vm, target) :: ms) es es'

namespace Settled

variable {time : α} {ms ms' : List (Vm α × Nat)} {es es' es'' : List (Estimate α)}

theorem append (h : Settled time ms es es') (h' : Settled time ms' es' es'') :
    Settled time (ms ++ ms') es es'' := by
  induction h with
  | nil es => exact h'
  | cons he haccept _ ih => exact .cons he haccept (ih h')

theorem sameHosts (h : Settled time ms es es') : SameHosts es es' := by
  induction h with
  | nil es => exact .refl es
  | cons he haccept _ ih => exact (SameHosts.of_modify (fun e => .add e _ _) _).trans ih

/-- Only the estimates of targets change. -/
theorem getElem?_of_ne (h : Settled time ms es es') {i : Nat} (hi : ∀ m ∈ ms, m.2 ≠ i) :
    es'[i]? = es[i]? := by
  induction h with
  | nil es => rfl
  | @cons vm target e ms es es' he haccept _ ih =>
    have hne : target ≠ i := hi (vm, target) List.mem_cons_self
    rw [ih fun m hm => hi m (List.mem_cons_of_mem _ hm), List.getElem?_modify_ne _ _ hne]

/-- Targets have estimates. -/
theorem exists_of_mem (h : Settled time ms es es') {m : Vm α × Nat} (hm : m ∈ ms) :
    ∃ e, es[m.2]? = some e := by
  induction h with
  | nil es => cases hm
  | @cons vm target e ms es es' he haccept _ ih =>
    rcases List.mem_cons.mp hm with rfl | hm
    · exact ⟨e, he⟩
    · obtain ⟨e', he'⟩ := ih hm
      obtain ⟨e, he, -⟩ := (SameHosts.of_modify (fun e => .add e _ _) _).before he'
      exact ⟨e, he⟩

end Settled

/-- The first phase settles some of the machines on hosts that are not excluded. -/
theorem settleSelected_outcome {search : HostSearch} {fit : TargetFit} {time : α}
    {excluded : IdSet} {vms : List (Vm α)} {es es' : List (Estimate α)}
    {moves : List (Nat × Nat)} (hes : Aligned es)
    (h : settleSelected search.findMax fit time excluded vms es = (moves, es')) :
    ∃ ms, moves = movesOf ms ∧ (ms.map Prod.fst).Sublist vms ∧ Settled time ms es es'
      ∧ ∀ m ∈ ms, excluded.contains m.2 = false := by
  induction vms generalizing es es' moves with
  | nil =>
    cases h
    exact ⟨[], rfl, .refl _, .nil _, fun _ hm => nomatch hm⟩
  | cons vm rest ih =>
    unfold settleSelected at h
    split at h
    · rename_i target es₁ hsettle
      obtain ⟨e, he, hexcluded, -, haccept, rfl⟩ := settle?_outcome hes hsettle
      have hes₁ := hes.of_sameHosts
        (SameHosts.of_modify (fun e => .add e vm (vm.loadAt time)) target)
      cases hrest : settleSelected search.findMax fit time excluded rest
          (es.modify target (·.add vm (vm.loadAt time))) with
      | mk moves' es₂ =>
        obtain ⟨ms, rfl, hsub, hsettled, hall⟩ := ih hes₁ hrest
        rw [hrest] at h
        cases h
        refine ⟨(vm, target) :: ms, rfl, hsub.cons_cons vm, .cons he haccept hsettled, ?_⟩
        intro m hm
        rcases List.mem_cons.mp hm with rfl | hm
        · exact hexcluded
        · exact hall m hm
    · obtain ⟨ms, hmoves, hsub, hsettled, hall⟩ := ih hes h
      exact ⟨ms, hmoves, hsub.cons vm, hsettled, hall⟩

/-- The second phase settles all of the machines on hosts that are on and not excluded. -/
theorem settleAll?_outcome {search : HostSearch} {fit : TargetFit} {time : α}
    {excluded : IdSet} {vms : List (Vm α)} {es es' : List (Estimate α)}
    {moves : List (Nat × Nat)} (hes : Aligned es)
    (h : settleAll? search.findMax fit time excluded vms es = some (moves, es')) :
    ∃ ms, moves = movesOf ms ∧ ms.map Prod.fst = vms ∧ Settled time ms es es'
      ∧ ∀ m ∈ ms, excluded.contains m.2 = false
        ∧ ∃ e, es[m.2]? = some e ∧ e.isActive = true := by
  induction vms generalizing es moves with
  | nil =>
    cases h
    exact ⟨[], rfl, rfl, .nil _, fun _ hm => nomatch hm⟩
  | cons vm rest ih =>
    obtain ⟨⟨target, es₁⟩, hsettle, h⟩ := Option.bind_eq_some_iff.mp h
    obtain ⟨⟨moves', es₂⟩, hrest, h⟩ := Option.bind_eq_some_iff.mp h
    cases h
    obtain ⟨e, he, hexcluded, hactive, haccept, rfl⟩ := settle?_outcome hes hsettle
    have hsame : SameHosts es (es.modify target (·.add vm (vm.loadAt time))) :=
      .of_modify (fun e => .add e vm (vm.loadAt time)) target
    obtain ⟨ms, rfl, rfl, hsettled, hall⟩ := ih (hes.of_sameHosts hsame) hrest
    refine ⟨(vm, target) :: ms, rfl, rfl, .cons he haccept hsettled, ?_⟩
    intro m hm
    rcases List.mem_cons.mp hm with rfl | hm
    · exact ⟨hexcluded, e, he, by simpa using hactive⟩
    · obtain ⟨hexcluded, e', he', hactive⟩ := hall m hm
      obtain ⟨e, he, hkin⟩ := hsame.before he'
      exact ⟨hexcluded, e, he, hkin.isActive ▸ hactive⟩

end Consolidation

end Datacenter
