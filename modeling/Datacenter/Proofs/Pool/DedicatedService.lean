import Mathlib.Data.Nat.Cast.Defs
import Datacenter.Proofs.Binary64.Fractions
import Datacenter.Proofs.Pool.FirstRequest
import Datacenter.Proofs.Pool.KeepingCores

/-!
# What machines with cores of their own receive

On a host that dedicates its cores, those of a machine are chosen when it is created there, when its
migration to the host is started, and when it is given more or fewer virtual cores
(`Pool.GivesCores`). They are fast enough for what the machine asks for at that moment
(`GivesCores.coresOf`), and it keeps them for as long as it stays. So from then on each update gives
it what its cores have of its request, less the overhead of a migration, and all of it if it does
not ask for more than it did at first (`Pool.dedicated_service`).

A machine that asks for more later on need not receive it. Whether a host is suitable for a machine
is judged by the peak of the machine, but the cores are chosen by what it asks for at the moment,
and are not exchanged when it asks for more. So it may sit on a slow core next to a fast one that is
free (`Pool.exists_underserved`).
-/

namespace Datacenter

variable {α : Type} [Scalar α]

/-- What a machine asks for is an amount, whatever its load, as long as that is a value. -/
theorem Vm.request_bounds [FractionScalar α] {v : Vm α} {time : α}
    (hfinite : Scalar.isFinite v.speed = true) (hspeed : 0 ≤ v.speed)
    (hload : (v.load.demand time (time - v.startTime) == v.load.demand time (time - v.startTime))
      = true) :
    Scalar.isFinite (v.speed * v.utilization time) = true ∧ 0 ≤ v.speed * v.utilization time := by
  obtain ⟨hlow, hhigh⟩ : 0 ≤ v.utilization time ∧ v.utilization time ≤ 1 :=
    Scalar.clamp_bounds hload LawfulScalar.zero_beq FractionScalar.zero_le_one
  obtain ⟨hnonneg, hle⟩ := FractionScalar.mul_bounds hfinite hspeed hlow hhigh
  exact ⟨FractionScalar.isFinite_of_le hfinite hnonneg hle, hnonneg⟩

/-- On a host a machine receives at a time what the cores of its own have of its request, less the
overhead of a migration. -/
structure Host.ServesAlone (h : Host α) (v : Vm α) (time : α) : Prop where
  /-- Every virtual core has a core. -/
  length : (h.processor.coresOf v.id).length = v.vcpus
  /-- What a core has of a request is bounded by its capacity. -/
  allocated : h.processor.allocatedTo v.id = (h.processor.coresOf v.id).map fun c =>
    Scalar.smaller (v.speed * v.utilization time) c.capacity * h.processor.ledger.factor v.id
  /-- Cores that are fast enough have all of it. -/
  full : (∀ c ∈ h.processor.coresOf v.id, v.speed * v.utilization time ≤ c.capacity) →
    h.processor.allocatedTo v.id = (v.request time).map (· * h.processor.ledger.factor v.id)

namespace Pool

variable {p q r : Pool α} {vm host count : Nat}

/-! ## Giving cores -/

/-- Cores of a host are chosen for a machine. -/
inductive GivesCores (p q : Pool α) (vm host : Nat) : Prop where
  /-- The machine is created on the host. -/
  | create (hq : p.create vm host = .ok (true, q))
  /-- The migration of the machine to the host is started. -/
  | startMigration (hq : p.startMigration vm host = .ok (true, q))
  /-- The machine, which resides on the host, is given more or fewer virtual cores. -/
  | scale {v v' : Vm α} {delta : Int} (hv : p.vms.find? vm = some v) (hhost : v.host = some host)
      (hq : p.scale vm .cores delta = .ok (true, q)) (hv' : q.vms.find? vm = some v')
      (hcount : v'.vcpus ≠ v.vcpus)

namespace GivesCores

theorem reachable (hp : p.Reachable) (hgives : p.GivesCores q vm host) : q.Reachable := by
  cases hgives with
  | create hq =>
    have hop : (Operation.create vm host : Operation α).IsAdmissible := trivial
    exact hp.perform hop (by rw [perform, hq]; rfl)
  | startMigration hq =>
    have hop : (Operation.startMigration vm host : Operation α).IsAdmissible := trivial
    exact hp.perform hop (by rw [perform, hq]; rfl)
  | scale hv hhost hq hv' hcount =>
    rename_i v v' delta
    have hop : (Operation.scale vm .cores delta : Operation α).IsAdmissible := trivial
    exact hp.perform hop (by rw [perform, hq]; rfl)

/-- A machine that is neither on a host nor on its way there is not on file there. -/
theorem not_registers (hb : p.Bookkeeping) {h : Host α} (hh : p.hosts[host]? = some h)
    (hloc : p.location? vm ≠ some host) (htarget : p.migrations.find? vm ≠ some host) :
    ¬ h.processor.Registers vm count := by
  rintro ⟨r, hr, -⟩
  have hrequest : (h.entry vm).request = some r := hr
  rw [hb.entry_eq_blank hh hloc htarget] at hrequest
  contradiction

/-- The machine is admitted by a processor on which it was not on file for as many virtual cores. -/
theorem exists_admission (hp : p.Reachable) (hgives : p.GivesCores q vm host) {h' : Host α}
    (hh' : q.hosts[host]? = some h') :
    ∃ (x : Processor α) (w : Vm α), w.id = vm ∧ x.Reachable ∧ ¬ x.Registers vm w.vcpus
      ∧ x.admit? w (w.request p.time) = some h'.processor := by
  have hb := bookkeeping_of_reachable hp
  cases hgives with
  | create hq =>
    rcases create_outcome hq with ⟨hrefused, -⟩ | ⟨-, v, h, h₁, hv, hwaits, hh, -, hcreate, rfl⟩
    · contradiction
    obtain rfl : h₁ = h' := Option.some.inj <| by rw [← hh', getElem?_setHost hh, if_pos rfl]
    obtain ⟨h₂, hgranted, rfl⟩ := Option.map_eq_some_iff.mp hcreate
    obtain ⟨x, hx, rfl⟩ := Option.map_eq_some_iff.mp hgranted
    have hloc : p.location? vm = none := by rw [location?, hv, Option.bind_some, hwaits]
    refine ⟨h.processor, v, (hb.registered vm).id v hv, processor_of_reachable hp hh, ?_, hx⟩
    exact not_registers hb hh (by simp [hloc]) (by simp [hb.not_migrating hloc])
  | startMigration hq =>
    rcases startMigration_outcome hq with
      ⟨hrefused, -⟩ | ⟨v, source, h, h₁, hv, hsource, hsettled, hne, hh, -, hexpect, hform⟩
    · contradiction
    rcases hform with ⟨hrefused, -⟩ | ⟨-, rfl⟩
    · contradiction
    obtain rfl : h₁ = h' := Option.some.inj <| by rw [← hh', getElem?_depart hh hne, if_pos rfl]
    have hfile : ¬ h.processor.Registers vm v.vcpus :=
      not_registers hb hh (by simpa [location?, hv, hsource] using hne)
        (by simp [(hb.settled_iff hv).mp hsettled])
    -- the flag comes first, and it leaves all requests on file
    have hrequests : (h.flag v.id).processor.ledger.requests.find? vm
        = h.processor.ledger.requests.find? vm := by
      have hentry := congrArg Entry.request (h.entry_flag v.id vm)
      refine hentry.trans ?_
      split <;> rfl
    have hflagged : ¬ (h.flag v.id).processor.Registers vm v.vcpus := by
      rintro ⟨r, hr, hcount⟩
      exact hfile ⟨r, hrequests ▸ hr, hcount⟩
    rw [Host.expect_eq] at hexpect
    split at hexpect
    · rename_i h₂ hgranted
      cases hexpect
      obtain ⟨x, hx, rfl⟩ := Option.map_eq_some_iff.mp hgranted
      exact ⟨(h.flag v.id).processor, leaving v, (hb.registered vm).id v hv,
        (processor_of_reachable hp hh).markArriving v.id, hflagged, hx⟩
    · cases hexpect
  | scale hv hhost hq hv' hcount =>
    rename_i v v' delta
    have hid : v.id = vm := (hb.registered vm).id v hv
    rcases scale_outcome hq with rfl | ⟨w, source, h, hw, hsource, -, hh, hform⟩
    · exact absurd (congrArg Vm.vcpus (Option.some.inj (hv'.symm.trans hv))) hcount
    obtain rfl := Option.some.inj (hw.symm.trans hv)
    obtain rfl := Option.some.inj (hsource.symm.trans hhost)
    rcases hform with ⟨n, h₁, -, hgranted, rfl⟩ | ⟨hrefused, -⟩ | ⟨ram, bandwidth, -, -, -, rfl⟩
    · obtain rfl : h₁ = h' := Option.some.inj <| by rw [← hh', getElem?_setHost hh, if_pos rfl]
      obtain ⟨x, hx, rfl⟩ := Option.map_eq_some_iff.mp hgranted
      have hn : v'.vcpus = n := by
        simp only [hid, IdMap.find?_insert, if_pos, Option.some.injEq] at hv'
        rw [← hv']
      refine ⟨h.processor, { w with vcpus := n }, hid, processor_of_reachable hp hh, ?_, hx⟩
      have hruns : p.RunsOn vm source w.vcpus := ⟨w, hv, by simp [hostsOf, hsource], rfl⟩
      obtain ⟨r, hr, hlength⟩ := hruns.registers hp hh
      rintro ⟨r', hr', hlength'⟩
      obtain rfl := Option.some.inj (hr.symm.trans hr')
      exact hcount (hn.trans (hlength'.symm.trans hlength))
    · contradiction
    · have hsame : v' = { w with ram := ram, bandwidth := bandwidth } := by
        simpa [resize, hid, eq_comm] using hv'
      exact absurd (congrArg Vm.vcpus hsame) hcount

/-- Cores that are given to a machine work, and they are fast enough for what it asks for then. -/
theorem coresOf [Std.Irrefl (α := α) (· < ·)] (hp : p.Reachable)
    (hgives : p.GivesCores q vm host) {h' : Host α} (hh' : q.hosts[host]? = some h')
    (hdedicated : h'.processor.isDedicated = true) :
    ∀ c ∈ h'.processor.coresOf vm, c.isWorking = true
      ∧ Scalar.largest (h'.processor.ledger.requestOf vm) ≤ c.capacity := by
  obtain ⟨x, w, rfl, hx, hnew, hgranted⟩ := hgives.exists_admission hp hh'
  have hlength : (w.request p.time).length = w.vcpus := List.length_replicate
  have hcores := Processor.coresOf_admit? hx hgranted hdedicated (hlength ▸ hnew)
  have hrequest : h'.processor.ledger.requestOf w.id = w.request p.time := by
    obtain ⟨discipline, -, hq⟩ := Option.map_eq_some_iff.mp hgranted
    rw [← hq, Processor.withLedger_ledger, Ledger.requestOf, Ledger.register, IdMap.find?_insert,
      if_pos rfl]
    rfl
  rw [hrequest]
  exact hcores

end GivesCores

/-! ## Service -/

variable [FractionScalar α]

/-- An update gives a machine what the cores of its own have of its request. -/
theorem servesAlone_updateProcessing (hp : p.Reachable) {v : Vm α} (hv : p.vms.find? v.id = some v)
    (hon : host ∈ p.hostsOf v) (hfinite : Scalar.isFinite v.speed = true) (hspeed : 0 ≤ v.speed)
    (hload : (v.load.demand p.time (p.time - v.startTime)
      == v.load.demand p.time (p.time - v.startTime)) = true)
    {h' : Host α} (hh' : p.updateProcessing.hosts[host]? = some h')
    (hdedicated : h'.processor.isDedicated = true)
    (hworking : ∀ c ∈ h'.processor.coresOf v.id, c.isWorking = true) :
    h'.ServesAlone v p.time := by
  have hruns : p.RunsOn v.id host v.vcpus := ⟨v, hv, hon, rfl⟩
  obtain ⟨h, hh, hkeeps⟩ := KeepsCores.updateProcessing hp hruns h' hh'
  have hserves : h.processor.serves v = true := by
    rw [Processor.serves, ← hkeeps.isDedicated, hdedicated, Bool.true_or]
  have hreach : p.updateProcessing.Reachable := by
    have hop : (Operation.updateProcessing : Operation α).IsAdmissible := trivial
    exact hp.perform hop rfl
  have hprocessor := processor_of_reachable hreach hh'
  have hrequest := find?_updateProcessing hp hv hh hon hserves hh'
  obtain ⟨hamount, hnonneg⟩ := Vm.request_bounds hfinite hspeed hload
  obtain ⟨hlength, hallocated⟩ :=
    Processor.allocatedTo_of_dedicated hprocessor hdedicated hrequest hamount hnonneg hworking
  exact ⟨hlength, hallocated, fun hfast => Processor.allocatedTo_of_fast hprocessor hdedicated
    hrequest hamount hnonneg fun c hc => ⟨hworking c hc, hfast c hc⟩⟩

/-- A machine that stays on a host that dedicates its cores keeps those it is given, and they are
fast enough for what it asks for at first. As long as they work, an update gives it what they have
of its request, less the overhead of a migration: all of it, if it does not ask for more than at
first. -/
theorem dedicated_service (hp : p.Reachable) (hgives : p.GivesCores q vm host)
    {ops : List (Operation α)} (hops : ∀ op ∈ ops, op.IsAdmissible) (hrun : q.performAll ops = .ok r)
    (hstays : ∀ n s, q.performAll (ops.take n) = .ok s → s.RunsOn vm host count)
    {h : Host α} (hh : q.hosts[host]? = some h) (hdedicated : h.processor.isDedicated = true)
    {v : Vm α} (hv : r.vms.find? vm = some v) (hfinite : Scalar.isFinite v.speed = true)
    (hspeed : 0 ≤ v.speed)
    (hload : (v.load.demand r.time (r.time - v.startTime)
      == v.load.demand r.time (r.time - v.startTime)) = true) :
    ∃ h', r.updateProcessing.hosts[host]? = some h'
      ∧ h'.processor.placesOf vm = h.processor.placesOf vm
      ∧ (∀ c ∈ h'.processor.coresOf vm,
        Scalar.largest (h.processor.ledger.requestOf vm) ≤ c.capacity)
      ∧ ((∀ c ∈ h'.processor.coresOf vm, c.isWorking = true) →
        h'.ServesAlone v r.time
        ∧ (v.speed * v.utilization r.time ≤ Scalar.largest (h.processor.ledger.requestOf vm) →
          h'.processor.allocatedTo vm
            = (v.request r.time).map (· * h'.processor.ledger.factor vm))) := by
  have hq := hgives.reachable hp
  have hr : r.Reachable := hq.performAll hops hrun
  have hruns : r.RunsOn vm host count := by
    refine hstays ops.length r ?_
    rwa [List.take_length]
  obtain ⟨v', hv', hon, -⟩ := hruns
  obtain rfl := Option.some.inj (hv'.symm.trans hv)
  obtain rfl : v'.id = vm := ((bookkeeping_of_reachable hr).registered vm).id v' hv
  obtain ⟨h', hh'⟩ : ∃ h', r.updateProcessing.hosts[host]? = some h' := by
    obtain ⟨h₁, hh₁⟩ := RunsOn.exists_host (bookkeeping_of_reachable hr) ⟨v', hv, hon, rfl⟩
    rw [(bookkeeping_of_reachable hr).getElem?_updateProcessing, hh₁]
    exact ⟨_, rfl⟩
  -- the run and the update after it leave the machine the cores it has been given
  obtain ⟨h₀, hh₀, hkeeps⟩ := ((KeepsCores.performAll hq hops hrun hstays).trans
    (.updateProcessing hr ⟨v', hv, hon, rfl⟩)) h' hh'
  obtain rfl := Option.some.inj (hh₀.symm.trans hh)
  have hfast : ∀ c ∈ h'.processor.coresOf v'.id,
      Scalar.largest (h₀.processor.ledger.requestOf v'.id) ≤ c.capacity := by
    intro c hc
    have hmem : c.capacity ∈ (h'.processor.coresOf v'.id).map (·.capacity) :=
      List.mem_map_of_mem hc
    rw [hkeeps.capacities_coresOf] at hmem
    obtain ⟨c₀, hc₀, hsame⟩ := List.mem_map.mp hmem
    exact hsame ▸ (hgives.coresOf hp hh hdedicated c₀ hc₀).2
  refine ⟨h', hh', hkeeps.places, hfast, fun hworking => ?_⟩
  have hserves := servesAlone_updateProcessing hr hv hon hfinite hspeed hload hh'
    (hkeeps.isDedicated.trans hdedicated) hworking
  exact ⟨hserves, fun hless =>
    hserves.full fun c hc => LawfulScalar.le_trans hless (hfast c hc)⟩

omit [FractionScalar α] in
/-- A host with a slow core and a fast one, to be dedicated, and a machine whose speed is that of
the fast one. -/
def unevenRun (samples : List (α × α)) : List (Operation α) :=
  [.addHost (.new "a" (.new (List.map .new [500, 1000]) (.spaceShared ∅) 0) 100 100 100),
    .addVm (.new 1 1 1000 10 10 10 (.trace samples))]

omit [FractionScalar α] in
theorem isAdmissible_of_mem_unevenRun
    (hzero : (Scalar.isFinite (0 : α) && 0 ≤ (0 : α) && (0 : α) ≤ 1) = true)
    (samples : List (α × α)) : ∀ op ∈ unevenRun samples, op.IsAdmissible := by
  simp only [unevenRun, List.forall_mem_cons, Operation.IsAdmissible]
  exact ⟨isFresh_of_capacities hzero "a" [500, 1000] (.inr rfl), Vm.isWaiting_new ..,
    List.forall_mem_nil _⟩

/-- A machine that starts at its peak is given the fast core and keeps it. -/
theorem dedicated_service_sample : ∃ (p q r : Pool Binary64) (h' : Host Binary64),
    (Pool.new 0 5).performAll (unevenRun [(0, 1), (10, 0.25)]) = .ok p
      ∧ p.create 1 0 = .ok (true, q) ∧ q.performAll [.setTime 10] = .ok r
      ∧ r.updateProcessing.hosts[0]? = some h' ∧ h'.processor.placesOf 1 = [1]
      ∧ h'.processor.allocatedTo 1 = [250] := by
  obtain ⟨p, q, hrun, hp, hq, hcheck⟩ := exists_of_run_create 1 0 (fun _ q : Pool Binary64 =>
    (q.hosts[0]?.any fun h : Host Binary64 => h.processor.isDedicated
        && decide (h.processor.placesOf 1 = [1])
        && decide (Scalar.largest (h.processor.ledger.requestOf 1) = 1000))
      && (q.vms.find? 1).any fun v : Vm Binary64 => decide (0 ∈ q.hostsOf v)
        && decide (v.vcpus = 1) && Scalar.isFinite v.speed && decide (0 ≤ v.speed)
        && v.load.demand 10 (10 - v.startTime) == v.load.demand 10 (10 - v.startTime)
        && decide (v.speed * v.utilization 10 ≤ 1000)
        && (q.setTime 10).updateProcessing.hosts[0]?.any fun h' : Host Binary64 =>
          (h'.processor.coresOf 1).all (·.isWorking)
            && decide ((v.request 10).map (· * h'.processor.ledger.factor 1) = [250]))
    (isAdmissible_of_mem_unevenRun (by decide +kernel) [(0, 1), (10, 0.25)]) (by decide +kernel)
  simp only [Option.any_eq_true, Bool.and_eq_true, decide_eq_true_eq, List.all_eq_true] at hcheck
  obtain ⟨⟨h, hh, ⟨hdedicated, hplaces⟩, hlargest⟩, v, hv,
    ⟨⟨⟨⟨⟨⟨hon, hcount⟩, hfinite⟩, hspeed⟩, hload⟩, hless⟩, h₁, hh₁, hworking, hgiven⟩⟩ := hcheck
  have hops : ∀ op ∈ [(.setTime 10 : Operation Binary64)], op.IsAdmissible :=
    List.forall_mem_singleton.mpr trivial
  have hlater : q.performAll [.setTime 10] = .ok (q.setTime 10) := rfl
  have hstays : ∀ n s, q.performAll ([Operation.setTime 10].take n) = .ok s → s.RunsOn 1 0 1 := by
    intro n s hs
    cases n with
    | zero =>
      obtain rfl := Except.ok.inj hs
      exact ⟨v, hv, hon, hcount⟩
    | succ n =>
      rw [List.take_succ_cons, List.take_nil] at hs
      obtain rfl := Except.ok.inj hs
      exact ⟨v, hv, hon, hcount⟩
  obtain ⟨h', hh', hsame, -, hservice⟩ := dedicated_service hp (.create hq) hops hlater
    hstays hh hdedicated hv hfinite hspeed hload
  obtain rfl := Option.some.inj (hh'.symm.trans hh₁)
  obtain ⟨-, hall⟩ := hservice hworking
  rw [hlargest] at hall
  exact ⟨p, q, q.setTime 10, h', hrun, hq, hlater, hh', hsame.trans hplaces,
    (hall hless).trans hgiven⟩

/-- A machine that starts with a quarter of its peak is given the slow core, and when it rises to
its peak it receives one half of it, even though no core has failed and the fast one is free. -/
theorem exists_underserved : ∃ (p q : Pool Binary64) (v : Vm Binary64) (h : Host Binary64),
    p.Reachable ∧ (Pool.new 0 5).performAll (unevenRun [(0, 0.25), (10, 1)]) = .ok p
      ∧ p.create 1 0 = .ok (true, q) ∧ (q.setTime 10).vms.find? 1 = some v
      ∧ v.request 10 = [1000] ∧ (q.setTime 10).updateProcessing.hosts[0]? = some h
      ∧ (∀ c ∈ h.processor.cores, c.isWorking = true) ∧ h.processor.maxAvailable = 1000
      ∧ h.processor.ledger.factor 1 = 1 ∧ h.processor.allocatedTo 1 = [500] := by
  obtain ⟨p, q, hrun, hp, hq, hcheck⟩ := exists_of_run_create 1 0 (fun _ q : Pool Binary64 =>
    (q.vms.find? 1).any fun v : Vm Binary64 => decide (v.request 10 = [1000])
      && (q.setTime 10).updateProcessing.hosts[0]?.any fun h : Host Binary64 =>
        h.processor.cores.all (·.isWorking) && decide (h.processor.maxAvailable = 1000)
          && decide (h.processor.ledger.factor 1 = 1)
          && decide (h.processor.allocatedTo 1 = [500]))
    (isAdmissible_of_mem_unevenRun (by decide +kernel) [(0, 0.25), (10, 1)]) (by decide +kernel)
  simp only [Option.any_eq_true, Bool.and_eq_true, decide_eq_true_eq, List.all_eq_true] at hcheck
  obtain ⟨v, hv, hrequest, h, hh, ⟨⟨hworking, hfree⟩, hfactor⟩, hallocated⟩ := hcheck
  exact ⟨p, q, v, h, hp, hrun, hq, hv, hrequest, hh, hworking, hfree, hfactor, hallocated⟩

end Pool

end Datacenter
