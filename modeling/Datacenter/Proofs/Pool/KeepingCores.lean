import Datacenter.Proofs.Pool.Evolution
import Datacenter.Proofs.Pool.Processing
import Datacenter.Proofs.Processor.Keeping

/-!
# Cores that machines keep throughout a run

A machine that runs on a host keeps its cores there (`Pool.KeepsCores`) for as long as it stays and
the number of its virtual cores does not change: no operation takes them away or adds any
(`KeepsCores.perform`), and so no run does (`KeepsCores.performAll`).

Being on the host is what has to be known between any two operations, and also between the moves of
a plan; what a host may undergo is looked at in `Datacenter/Proofs/Pool/Evolution.lean`.
-/

namespace Datacenter

variable {α : Type} [Scalar α]

/-! ## Hosts -/

namespace Host

variable [OrderedScalar α] {h h' : Host α} {id count : Nat}

/-- Whatever happens to a host leaves its cores to a machine that is on file before and after it for
as many virtual cores. -/
theorem Change.keepsCoresOf (hchange : h.Change h') (hp : h.processor.Reachable)
    (hbefore : h.processor.Registers id count) (hafter : h'.processor.Registers id count) :
    h.processor.KeepsCoresOf id h'.processor := by
  have hgrant : ∀ {x q : Processor α} {vm : Vm α} {requested : List α},
      x.admit? vm requested = some q →
      x.Reachable → x.Registers id count → q.Registers id count → x.KeepsCoresOf id q := by
    intro x q vm requested hq hx hbefore hafter
    have hperform : x.perform (.request vm requested) = .ok q := by
      rw [Processor.perform, hq, Option.getD_some]
    exact .perform hx hperform hbefore hafter
  cases hchange with
  | enter i size => exact .refl _
  | grant hgranted =>
    obtain ⟨q, hq, rfl⟩ := Option.map_eq_some_iff.mp hgranted
    exact hgrant hq hp hbefore hafter
  | create hcreate =>
    obtain ⟨h₁, hgranted, rfl⟩ := Option.map_eq_some_iff.mp hcreate
    obtain ⟨q, hq, rfl⟩ := Option.map_eq_some_iff.mp hgranted
    exact hgrant hq hp hbefore hafter
  | expect vm requested =>
    -- the flag comes first, and it leaves all requests on file
    have hflagged : (h.flag vm.id).processor.Registers id count := by
      obtain ⟨r, hr, hcount⟩ := hbefore
      have hsame : ((h.flag vm.id).entry id).request = (h.entry id).request := by
        rw [entry_flag]
        split <;> rfl
      exact ⟨r, hsame.trans hr, hcount⟩
    have hflag : h.processor.KeepsCoresOf id (h.flag vm.id).processor :=
      have hperform : h.processor.perform (.markArriving vm.id) = .ok (h.flag vm.id).processor := rfl
      .perform hp hperform hbefore hflagged
    have hreach : (h.flag vm.id).processor.Reachable := hp.markArriving vm.id
    refine hflag.trans ?_
    rw [expect_eq] at hafter ⊢
    cases hgranted : (h.flag vm.id).admit? vm requested with
    | some h₁ =>
      rw [hgranted] at hafter
      obtain ⟨q, hq, rfl⟩ := Option.map_eq_some_iff.mp hgranted
      exact hgrant hq hreach hflagged hafter
    | none =>
      rw [hgranted] at hafter
      have hperform : (h.flag vm.id).processor.perform (.release vm.id) = .ok _ := rfl
      exact .perform hreach hperform hflagged hafter
  | markLeaving i =>
    have hperform : h.processor.perform (.markLeaving i) = .ok _ := rfl
    exact .perform hp hperform hbefore hafter
  | receive i =>
    unfold Host.receive at hafter ⊢
    by_cases hincoming : h.incoming.contains i = true
    · rw [if_pos hincoming] at hafter ⊢
      have hperform : h.processor.perform (.unmarkArriving i) = .ok _ := rfl
      exact .perform hp hperform hbefore hafter
    · rw [if_neg hincoming]
      exact .refl _
  | remove i =>
    have hperform : h.processor.perform (.release i) = .ok _ := rfl
    exact .perform hp hperform hbefore hafter
  | reprovision vm =>
    unfold Host.reprovision
    split <;> exact .refl _
  | failCore hfail =>
    obtain ⟨q, hq, hfail⟩ := Fault.bind_eq_ok.mp hfail
    cases hfail
    have hperform : h.processor.perform (.failCore _) = .ok q := hq
    exact .perform hp hperform hbefore hafter
  | switch on => exact .refl _
  | record time => exact .refl _

theorem ChangesOnce.keepsCoresOf (honce : h.ChangesOnce h') (hp : h.processor.Reachable)
    (hbefore : h.processor.Registers id count) (hafter : h'.processor.Registers id count) :
    h.processor.KeepsCoresOf id h'.processor := by
  obtain ⟨h₁, hchange, hoff⟩ := honce
  have hsame : h'.processor = h₁.processor := by rcases hoff with rfl | rfl <;> rfl
  rw [hsame] at hafter ⊢
  rcases hchange with rfl | hchange
  · exact .refl _
  · exact hchange.keepsCoresOf hp hbefore hafter

end Host

/-! ## Pools -/

namespace Pool

variable {p q r : Pool α} {b : Bool} {vm host count : Nat}

omit [Scalar α] in
/-- A machine runs on a host, with some number of virtual cores. -/
def RunsOn (p : Pool α) (vm host count : Nat) : Prop :=
  ∃ v, p.vms.find? vm = some v ∧ host ∈ p.hostsOf v ∧ v.vcpus = count

namespace RunsOn

/-- A machine runs on hosts that exist. -/
theorem exists_host (hb : p.Bookkeeping) (hruns : p.RunsOn vm host count) :
    ∃ h, p.hosts[host]? = some h := by
  obtain ⟨v, hv, hon, -⟩ := hruns
  obtain rfl : v.id = vm := (hb.registered vm).id v hv
  have hlt : host < p.hosts.length := by
    unfold hostsOf at hon
    split at hon
    · rename_i source hsource
      rcases List.mem_cons.mp hon with rfl | htarget
      · exact (hb.registered v.id).placed v host hv hsource
      · exact ((hb.registered v.id).target host (Option.mem_toList.mp htarget)).1
    · contradiction
  exact ⟨_, List.getElem?_eq_getElem hlt⟩

/-- A host has the machines that run on it on file, for as many virtual cores as they have. -/
theorem registers (hp : p.Reachable) (hruns : p.RunsOn vm host count) {h : Host α}
    (hh : p.hosts[host]? = some h) : h.processor.Registers vm count := by
  obtain ⟨v, hv, hon, rfl⟩ := hruns
  obtain rfl : v.id = vm := ((bookkeeping_of_reachable hp).registered vm).id v hv
  exact knows_of_mem_hostsOf hp hh hv hon

/-- A migration that is started takes no machine off the hosts it runs on. -/
theorem startMigration (hb : p.Bookkeeping) {vm' target : Nat}
    (hq : p.startMigration vm' target = .ok (b, q)) (hruns : p.RunsOn vm host count) :
    q.RunsOn vm host count := by
  rcases startMigration_outcome hq with
    ⟨-, rfl⟩ | ⟨w, source, h, h', hw, hsource, hsettled, -, -, -, -, hform⟩
  · exact hruns
  rcases hform with ⟨-, rfl⟩ | ⟨-, rfl⟩
  · exact hruns
  obtain ⟨v, hv, hon, hcount⟩ := hruns
  by_cases hvm : vm = vm'
  · subst hvm
    obtain rfl := Option.some.inj (hv.symm.trans hw)
    -- up to now the machine has run on its own host only
    have hid : v.id = vm := (hb.registered vm).id v hv
    have hnone : p.migrations.find? v.id = none := hid ▸ (hb.settled_iff hv).mp hsettled
    obtain rfl : host = source := by simpa [hostsOf, hsource, hnone] using hon
    exact ⟨leaving v, by simp [depart], by simp [hostsOf, leaving, hsource], hcount⟩
  · have hid : v.id ≠ vm' := fun h => hvm (((hb.registered vm).id v hv).symm.trans h)
    refine ⟨v, by simp [depart, hvm, hv], ?_, hcount⟩
    rw [hostsOf] at hon ⊢
    simpa [depart, hid] using hon

end RunsOn

omit [Scalar α] in
/-- From `p` to `q` a host keeps the cores of a machine for it. -/
def KeepsCores (p q : Pool α) (vm host : Nat) : Prop :=
  ∀ h', q.hosts[host]? = some h' →
    ∃ h, p.hosts[host]? = some h ∧ h.processor.KeepsCoresOf vm h'.processor

namespace KeepsCores

omit [Scalar α] in
theorem refl (p : Pool α) : p.KeepsCores p vm host :=
  fun h hh => ⟨h, hh, .refl h.processor⟩

omit [Scalar α] in
theorem trans (hpq : p.KeepsCores q vm host) (hqr : q.KeepsCores r vm host) :
    p.KeepsCores r vm host := by
  intro h'' hh''
  obtain ⟨h', hh', hkeeps'⟩ := hqr h'' hh''
  obtain ⟨h, hh, hkeeps⟩ := hpq h' hh'
  exact ⟨h, hh, hkeeps.trans hkeeps'⟩

omit [Scalar α] in
theorem switchOffIfPending (p : Pool α) (i : Nat) :
    p.KeepsCores (p.switchOffIfPending i) vm host := by
  intro h' hh'
  obtain ⟨h, hh, rfl | ⟨-, -, rfl⟩⟩ := switchOffIfPending_host p i hh'
  · exact ⟨h', hh, .refl _⟩
  · exact ⟨h, hh, .refl _⟩

variable [OrderedScalar α]

/-- A host that changes once at most keeps the cores of a machine that runs on it before and after
it. -/
theorem of_changes (hp : p.Reachable) (hq : q.Reachable) (hbefore : p.RunsOn vm host count)
    (hafter : q.RunsOn vm host count)
    (hchanges : ∀ h', q.hosts[host]? = some h' → ∃ h, p.hosts[host]? = some h ∧ h.ChangesOnce h') :
    p.KeepsCores q vm host := by
  intro h' hh'
  obtain ⟨h, hh, honce⟩ := hchanges h' hh'
  exact ⟨h, hh, honce.keepsCoresOf (processor_of_reachable hp hh) (hbefore.registers hp hh)
    (hafter.registers hq hh')⟩

/-- A plan leaves their cores to all machines. -/
theorem execute (hp : p.Reachable) (hruns : p.RunsOn vm host count) {plan : MigrationPlan} {n : Nat}
    (hq : p.execute plan = .ok (n, q)) : p.KeepsCores q vm host := by
  obtain ⟨kept, r, hstart, hmark⟩ := execute_outcome hq
  -- the machine runs on the host after each of the moves
  obtain ⟨-, -, hr⟩ : r.Reachable ∧ r.RunsOn vm host count ∧ p.KeepsCores r vm host := by
    refine startAll_induction hstart (motive := fun q : Pool α =>
      q.Reachable ∧ q.RunsOn vm host count ∧ p.KeepsCores q vm host) ?_ ⟨hp, hruns, .refl p⟩
    rintro q r b vm' target hmove ⟨hq, hruns, hkeeps⟩
    have hop : (Operation.startMigration vm' target : Operation α).IsAdmissible := trivial
    have hr : r.Reachable := hq.perform hop (by rw [Pool.perform, hmove]; rfl)
    have hruns' := hruns.startMigration (bookkeeping_of_reachable hq) hmove
    exact ⟨hr, hruns', hkeeps.trans
      (.of_changes hq hr hruns hruns' (Changes.startMigration hmove host))⟩
  refine markAllOff_induction hmark (motive := fun q => p.KeepsCores q vm host) ?_ hr
  intro q i h _ hq
  exact hq.trans (.switchOffIfPending { q with pendingOff := q.pendingOff.add i } i)

/-- Bringing all requests up to date leaves their cores to all machines. -/
theorem updateProcessing (hp : p.Reachable) (hruns : p.RunsOn vm host count) :
    p.KeepsCores p.updateProcessing vm host := by
  have hb := bookkeeping_of_reachable hp
  intro h' hh'
  rw [hb.getElem?_updateProcessing] at hh'
  obtain ⟨h, hh, rfl⟩ := Option.map_eq_some_iff.mp hh'
  exact ⟨h, hh, .foldl_renew (processor_of_reachable hp hh) (fun _ => knows_of_mem_guests hp hh)
    (isUnambiguous_guests hb host) p.time (hruns.registers hp hh)⟩

/-- One operation leaves its cores to a machine that runs on the host before and after it. -/
theorem perform (hp : p.Reachable) {op : Operation α} (hop : op.IsAdmissible)
    (hq : p.perform op = .ok q) (hbefore : p.RunsOn vm host count)
    (hafter : q.RunsOn vm host count) : p.KeepsCores q vm host := by
  have hb := bookkeeping_of_reachable hp
  cases hsingle : op.IsSequence with
  | false =>
    refine .of_changes hp (hp.perform hop hq) hbefore hafter fun h' hh' => ?_
    obtain ⟨h, hh | ⟨hnone, -⟩, honce⟩ := Changes.perform hb hop hsingle hq hh'
    · exact ⟨h, hh, honce⟩
    · obtain ⟨h, hh⟩ := hbefore.exists_host hb
      rw [hnone] at hh
      contradiction
  | true =>
    cases op with
    | execute plan =>
      obtain ⟨⟨n, _⟩, hdone, rfl⟩ := Fault.map_eq_ok.mp hq
      exact .execute hp hbefore hdone
    | updateProcessing =>
      obtain rfl := Except.ok.inj hq
      exact .updateProcessing hp hbefore
    | _ => contradiction

/-- A run leaves its cores to a machine that runs on the host throughout. -/
theorem performAll (hp : p.Reachable) {ops : List (Operation α)}
    (hops : ∀ op ∈ ops, op.IsAdmissible) (hq : p.performAll ops = .ok q)
    (hstays : ∀ n s, p.performAll (ops.take n) = .ok s → s.RunsOn vm host count) :
    p.KeepsCores q vm host := by
  induction ops generalizing p with
  | nil =>
    cases hq
    exact .refl _
  | cons op ops ih =>
    obtain ⟨p₁, hop, hrest⟩ := Fault.bind_eq_ok.mp hq
    have hadmissible := hops op List.mem_cons_self
    have hlater : ∀ n s, p₁.performAll (ops.take n) = .ok s → s.RunsOn vm host count :=
      fun n s hs => hstays (n + 1) s (Fault.bind_eq_ok.mpr ⟨p₁, hop, hs⟩)
    have hfirst := perform hp hadmissible hop (hstays 0 p rfl) (hlater 0 p₁ rfl)
    exact hfirst.trans (ih (hp.perform hadmissible hop)
      (fun op' hmem => hops op' (List.mem_cons_of_mem op hmem)) hrest hlater)

end KeepsCores

end Pool

end Datacenter
