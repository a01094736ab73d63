import Datacenter.Binary64.Basic
import Datacenter.Proofs.Binary64.Rounding
import Datacenter.Proofs.Host.Moving
import Datacenter.Proofs.Pool.SwitchingOff

/-!
# The order in which migrations are finished

Migrations that are finished one after the other may share their sources and targets, a machine may
come to the host that another one leaves, and hosts may wait to be switched off.
`Pool.finishing_order_irrelevant` says that the pool comes out the same in whatever order they are
finished.

## Shape of the proof

Finishing a migration takes two steps: the machine arrives (`Pool.arrive`), and the host that it has
left is looked at again (`Pool.switchOffIfPending`). Arrivals of two machines may trade places
(`arrive_comm`), and so may looks at two hosts. A look at a host and an arrival may trade places if
the machine does not leave that very host (`switchOffIfPending_arrive`). If it does, then it still
resides there at the time of the look, which comes to nothing.
-/

namespace Datacenter.Pool

variable {α : Type} [Scalar α] {p : Pool α} {v w : Vm α} {source target source' target' : Nat}

/-! ## Migrations under way -/

omit [Scalar α] in
/-- The machine with the record `v` is on its way from one host to another. -/
structure Migrates (p : Pool α) (v : Vm α) (source target : Nat) : Prop where
  record : p.vms.find? v.id = some v
  leaves : v.host = some source
  goes : p.migrations.find? v.id = some target
  ne : source ≠ target

theorem Bookkeeping.exists_migrates (hp : p.Bookkeeping) {vm : Nat}
    (hmig : p.migrations.find? vm = some target) :
    ∃ v source, v.id = vm ∧ p.Migrates v source target := by
  obtain ⟨-, v, source, hv, hs, hne⟩ := (hp.registered vm).target target hmig
  obtain rfl : v.id = vm := (hp.registered vm).id v hv
  exact ⟨v, source, rfl, hv, hs, hmig, hne⟩

namespace Migrates

theorem finish (hv : p.Migrates v source target) :
    p.finishMigration v.id
      = (true, (p.arrive v.id v source target).switchOffIfPending source) :=
  finishMigration_of_some hv.goes hv.record hv.leaves

theorem arrived (hv : p.Migrates v source target) (hp : p.Bookkeeping) :
    (p.arrive v.id v source target).Bookkeeping :=
  hp.arrived hv.goes hv.record hv.leaves hv.ne

omit [Scalar α] in
theorem switchOffIfPending (hv : p.Migrates v source target) (i : Nat) :
    (p.switchOffIfPending i).Migrates v source target where
  record := by rw [switchOffIfPending_vms, hv.record]
  leaves := hv.leaves
  goes := by rw [switchOffIfPending_migrations, hv.goes]
  ne := hv.ne

/-- The arrival of another machine makes no difference to a migration. -/
theorem arrive (hw : p.Migrates w source' target') (hvw : v.id ≠ w.id) :
    (p.arrive v.id v source target).Migrates w source' target' where
  record := by simp [Pool.arrive, modifyHost, hvw.symm, hw.record]
  leaves := hw.leaves
  goes := by simp [Pool.arrive, modifyHost, IdMap.find?_erase, hvw.symm, hw.goes]
  ne := hw.ne

/-- A machine on its way holds something on both hosts. -/
theorem isEmpty_eq_false (hv : p.Migrates v source target) (hp : p.Bookkeeping) {i : Nat}
    {h : Host α} (hh : p.hosts[i]? = some h) (hi : i = source ∨ i = target) :
    h.isEmpty = false := by
  have hagrees := hp.agrees i h hh v.id
  have hseat : (h.entry v.id).isSeated = true := by
    rw [Entry.isSeated, hagrees.resident, hagrees.incoming, hv.record, hv.goes, Option.bind_some,
      hv.leaves]
    rcases hi with rfl | rfl <;> simp
  refine Bool.eq_false_iff.mpr fun hempty => ?_
  rw [Host.isEmpty_iff.mp hempty v.id] at hseat
  contradiction

/-- A look at the host that a machine is about to leave comes to nothing. -/
theorem switchOffIfPending_eq (hv : p.Migrates v source target) (hp : p.Bookkeeping) :
    p.switchOffIfPending source = p := by
  have hwaits : p.waitsEmpty source = false := by
    unfold waitsEmpty
    cases hh : p.hosts[source]? with
    | none => simp
    | some h => simp [hv.isEmpty_eq_false hp hh (.inl rfl)]
  rw [Pool.switchOffIfPending_eq, hwaits]
  rfl

end Migrates

/-! ## Steps that trade places -/

/-- Two changes of hosts may trade places if they do on every host. -/
theorem modify_modify_comm {β : Type} {f g : β → β} (hfg : ∀ x, g (f x) = f (g x)) (i j : Nat)
    (xs : List β) : (xs.modify i f).modify j g = (xs.modify j g).modify i f := by
  by_cases hij : i = j
  · subst hij
    rw [List.modify_modify_eq, List.modify_modify_eq]
    exact congrArg (xs.modify i) (funext hfg)
  · exact List.modify_modify_ne f g xs hij

omit [Scalar α] in
/-- Two hosts may be looked at in either order. -/
theorem switchOffIfPending_comm (p : Pool α) (i j : Nat) :
    (p.switchOffIfPending j).switchOffIfPending i
      = (p.switchOffIfPending i).switchOffIfPending j := by
  by_cases hij : i = j
  · rw [hij]
  -- switching off one host makes no difference to the other one
  have hwaits : ∀ {i j : Nat}, i ≠ j → ∀ p : Pool α,
      (p.switchOff i).waitsEmpty j = p.waitsEmpty j := by
    intro i j hij p
    have hhost : (p.switchOff i).hosts[j]? = p.hosts[j]? := by
      show (p.modifyHost i _).hosts[j]? = _
      rw [getElem?_modifyHost, if_neg hij.symm]
    rw [waitsEmpty, hhost]
    simp [switchOff, waitsEmpty, hij.symm]
  have hoff : (p.switchOff j).switchOff i = (p.switchOff i).switchOff j := by
    have hpending := (IdMap.changesAt_erase j).comm (IdMap.changesAt_erase i) (Ne.symm hij)
      p.pendingOff
    simp only [switchOff, modifyHost, List.modify_modify_ne _ _ p.hosts hij, hpending]
  simp only [switchOffIfPending_eq]
  cases hi : p.waitsEmpty i <;> cases hj : p.waitsEmpty j <;>
    simp [hi, hj, hwaits hij, hwaits (Ne.symm hij), hoff]

section

variable [Std.Irrefl (α := α) (· < ·)]

/-- Two machines may arrive in either order. -/
theorem arrive_comm (hvw : v.id ≠ w.id) (p : Pool α) :
    (p.arrive v.id v source target).arrive w.id w source' target'
      = (p.arrive w.id w source' target').arrive v.id v source target := by
  have hmigrations := (IdMap.changesAt_erase v.id).comm (IdMap.changesAt_erase w.id) hvw
    p.migrations
  have hvms := fun x y : Vm α => (IdMap.changesAt_insert v.id x).comm
    (IdMap.changesAt_insert w.id y) hvw p.vms
  -- each of the two changes that come later passes both of the earlier ones
  have hhosts : ((((p.hosts.modify source (·.remove v.id)).modify target (·.receive v.id)).modify
      source' (·.remove w.id)).modify target' (·.receive w.id))
        = ((((p.hosts.modify source' (·.remove w.id)).modify target' (·.receive w.id)).modify
          source (·.remove v.id)).modify target (·.receive v.id)) := by
    rw [modify_modify_comm (Host.remove_receive hvw) target source',
      modify_modify_comm (Host.receive_comm hvw) target target',
      modify_modify_comm (Host.remove_comm hvw) source source',
      modify_modify_comm (fun h => (Host.remove_receive hvw.symm h).symm) source target']
  simp only [arrive, modifyHost, hmigrations, hvms, hhosts]

end

/-- A host may as well be looked at before a machine arrives, unless it is the one that the machine
leaves. -/
theorem switchOffIfPending_arrive (hp : p.Bookkeeping) (hw : p.Migrates w source' target') {i : Nat}
    (hi : i ≠ source') :
    (p.arrive w.id w source' target').switchOffIfPending i
      = (p.switchOffIfPending i).arrive w.id w source' target' := by
  refine switchOffIfPending_apply (f := fun p => p.arrive w.id w source' target') ?_ ?_
  · -- the target holds the machine before and after
    have hget : (p.arrive w.id w source' target').hosts[i]? = _ := getElem?_arrive hw.ne i
    rw [if_neg hi] at hget
    rw [waitsEmpty, waitsEmpty, hget]
    show (p.pendingOff.contains i && _) = _
    split
    · rename_i ht
      cases hh : p.hosts[i]? with
      | none => rfl
      | some h =>
        have hbefore := hw.isEmpty_eq_false hp hh (.inr ht)
        have hafter := (h.keeps_receive w.id).isEmpty hbefore
        simp [hbefore, hafter]
    · rfl
  · have hreceive : ∀ h : Host α, { h.receive w.id with isActive := false }
        = Host.receive { h with isActive := false } w.id := by
      intro h
      unfold Host.receive
      split <;> rfl
    have hhosts : (((p.hosts.modify source' (·.remove w.id)).modify target'
        (·.receive w.id)).modify i fun h => { h with isActive := false })
          = (((p.hosts.modify i fun h => { h with isActive := false }).modify source'
            (·.remove w.id)).modify target' (·.receive w.id)) := by
      rw [modify_modify_comm hreceive target' i,
        modify_modify_comm (g := fun h : Host α => { h with isActive := false }) (fun _ => rfl)
          source' i]
    simp only [arrive, switchOff, modifyHost, hhosts]

/-! ## Orders of finishing -/

variable [Std.Irrefl (α := α) (· < ·)]

/-- Two migrations may be finished in either order. -/
theorem Migrates.finish_comm (hv : p.Migrates v source target) (hw : p.Migrates w source' target')
    (hp : p.Bookkeeping) (hvw : v.id ≠ w.id) :
    ((p.finishMigration v.id).2.finishMigration w.id).2
      = ((p.finishMigration w.id).2.finishMigration v.id).2 := by
  have hv' : (p.arrive w.id w source' target').Migrates v source target := hv.arrive hvw.symm
  have hw' : (p.arrive v.id v source target).Migrates w source' target' := hw.arrive hvw
  rw [hv.finish, hw.finish, (hw'.switchOffIfPending source).finish,
    (hv'.switchOffIfPending source').finish]
  by_cases hs : source = source'
  · -- the one who goes first leaves the other one behind
    subst hs
    rw [hw'.switchOffIfPending_eq (hv.arrived hp), hv'.switchOffIfPending_eq (hw.arrived hp),
      arrive_comm hvw]
  · rw [← switchOffIfPending_arrive (hv.arrived hp) hw' hs,
      ← switchOffIfPending_arrive (hw.arrived hp) hv' (Ne.symm hs), arrive_comm hvw,
      switchOffIfPending_comm]

theorem finishMigration_comm (hp : p.Bookkeeping) (a b : Nat) :
    ((p.finishMigration a).2.finishMigration b).2
      = ((p.finishMigration b).2.finishMigration a).2 := by
  -- what does not migrate does not do so after another machine has arrived either
  have hnone : ∀ {a : Nat}, p.migrations.find? a = none → ∀ b,
      ((p.finishMigration a).2.finishMigration b).2
        = ((p.finishMigration b).2.finishMigration a).2 := by
    intro a ha b
    have hafter : (p.finishMigration b).2.migrations.find? a = none := by
      cases hb : p.migrations.find? b with
      | none => rw [finishMigration_of_none hb, ha]
      | some target =>
        obtain ⟨v, source, rfl, hv⟩ := hp.exists_migrates hb
        rw [hv.finish, switchOffIfPending_migrations]
        simp [arrive, modifyHost, IdMap.find?_erase, ha]
    rw [finishMigration_of_none ha, finishMigration_of_none hafter]
  by_cases hab : a = b
  · rw [hab]
  cases ha : p.migrations.find? a with
  | none => exact hnone ha b
  | some target =>
    cases hb : p.migrations.find? b with
    | none => exact (hnone hb a).symm
    | some target' =>
      obtain ⟨v, source, rfl, hv⟩ := hp.exists_migrates ha
      obtain ⟨w, source', rfl, hw⟩ := hp.exists_migrates hb
      exact hv.finish_comm hw hp hab

/-- In whatever order migrations are finished, the pool comes out the same. -/
theorem finishing_order_irrelevant (hp : p.Reachable) {vms vms' : List Nat}
    (hperm : vms.Perm vms') : (finishAll vms p).2 = (finishAll vms' p).2 := by
  have hbook := bookkeeping_of_reachable hp
  clear hp
  induction hperm generalizing p with
  | nil => rfl
  | cons vm _ ih => exact ih (hbook.finishMigration vm)
  | swap a b vms => exact congrArg (fun q => (finishAll vms q).2) (finishMigration_comm hbook b a)
  | trans _ _ ih ih' => exact (ih hbook).trans (ih' hbook)

/-- The sample with four migrations under way. Two of them have one source and two have one target,
two go to a host that another machine leaves, and one of these hosts waits to be switched off. -/
def crossingRun : List (Operation α) :=
  sampleRun ++ [.execute ⟨[(12, 2), (10, 1), (11, 3), (14, 2)], .ofList [1]⟩]

theorem finishing_order_irrelevant_sample : ∃ p : Pool Binary64,
    (Pool.new 0 5).performAll crossingRun = .ok p ∧ p.migrations.keys = [10, 11, 12, 14]
      ∧ p.pendingOff.contains 1 = true
      ∧ (finishAll [10, 11, 12, 14] p).2 = (finishAll [14, 12, 11, 10] p).2 := by
  have hops : ∀ op ∈ (crossingRun : List (Operation Binary64)), op.IsAdmissible :=
    isAdmissible_of_mem_sampleRun_execute (by decide +kernel) _
  obtain ⟨p, hrun, hp, hcheck⟩ := exists_of_run
    (fun p => decide (p.migrations.keys = [10, 11, 12, 14]) && p.pendingOff.contains 1) hops
    (by decide +kernel)
  simp only [Bool.and_eq_true, decide_eq_true_eq] at hcheck
  exact ⟨p, hrun, hcheck.1, hcheck.2, finishing_order_irrelevant hp (by decide)⟩

end Datacenter.Pool
