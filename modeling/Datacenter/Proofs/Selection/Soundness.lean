import Mathlib.Data.Nat.Cast.Defs
import Datacenter.Proofs.Binary64.Fractions
import Datacenter.Proofs.Pool.Preservation
import Datacenter.Proofs.Selection.Choosing

/-!
# Selection policies on pools

The machines that may leave a host are those that reside on it and are settled, in the order of
their ids (`Pool.Bookkeeping.mem_migratable`, `Pool.Bookkeeping.pairwise_migratable`). So whatever a
policy favors among them, it is the first one by id of several that are equally good, and a policy
finds a machine to migrate exactly if there is one (`Pool.selection_sound`). How a random choice is
drawn does not matter, as long as it finds an element of every list that has one.
-/

namespace Datacenter

variable {α : Type} [Scalar α]

/-- The utilization of a machine is a value if its demand is one. -/
theorem Vm.utilization_beq [FractionScalar α] {v : Vm α} {time : α}
    (hload : (v.load.demand time (time - v.startTime) == v.load.demand time (time - v.startTime))
      = true) : (v.utilization time == v.utilization time) = true := by
  have hone : ((1 : α) == 1) = true := OrderedScalar.beq_of_le FractionScalar.zero_le_one
  have hzero : (0 : α) ≤ v.utilization time :=
    (Scalar.clamp_bounds hload LawfulScalar.zero_beq FractionScalar.zero_le_one).1
  exact OrderedScalar.beq_of_le hzero

namespace Pool

variable {p : Pool α} {i : Nat} {h : Host α}
  {choose : Generator → List (Vm α) → Option (Vm α) × Generator}

/-- The machines that may leave a host. -/
theorem Bookkeeping.mem_migratable (hb : p.Bookkeeping) (hh : p.hosts[i]? = some h) {v : Vm α} :
    v ∈ p.migratable h
      ↔ p.vms.find? v.id = some v ∧ v.host = some i ∧ v.migration = .settled := by
  rw [migratable, List.mem_filter, hb.mem_residentsOf hh]
  simp only [Bool.and_eq_true, Bool.not_eq_true', Vm.isMigrating, bne_eq_false_iff_eq]
  constructor
  · rintro ⟨⟨hfind, hhost⟩, -, hsettled⟩
    exact ⟨hfind, hhost, hsettled⟩
  · rintro ⟨hfind, hhost, hsettled⟩
    refine ⟨⟨hfind, hhost⟩, ?_, hsettled⟩
    -- a machine without a target is not flagged as leaving
    have hleaving : h.outgoing.contains v.id = _ := (hb.agrees i h hh v.id).leaving
    rw [hleaving, (hb.settled_iff hfind).mp hsettled, Option.isSome_none, Bool.and_false]

/-- The machines that may leave a host come in the order of their ids. -/
theorem Bookkeeping.pairwise_migratable (hb : p.Bookkeeping) (hh : p.hosts[i]? = some h) :
    (p.migratable h).Pairwise fun v w => v.id < w.id := by
  have hkeys : (h.residents.keys).Pairwise (· < ·) := List.pairwise_map.mpr h.residents.sorted
  rw [← hb.map_id_residentsOf hh, List.pairwise_map] at hkeys
  exact hkeys.filter _

/-- What a policy that draws with `choose` makes of a host. The machines that may leave it are the
candidates, in the order of their ids. The policy finds one exactly if there is one, and the one it
finds is favored, the first by id of several that are equally good. If there are coefficients every
candidate has one, and if there are none, a policy that looks at correlations chooses what its
fallback chooses. -/
structure Selects (choose : Generator → List (Vm α) → Option (Vm α) × Generator) (p : Pool α)
    (i : Nat) (h : Host α) (policy : SelectionPolicy) : Prop where
  candidates : ∀ v, v ∈ p.migratable h
    ↔ p.vms.find? v.id = some v ∧ v.host = some i ∧ v.migration = .settled
  ordered : (p.migratable h).Pairwise fun v w => v.id < w.id
  none_iff : (policy.selectBy choose (p.migratable h) p.time).1 = none
    ↔ ∀ v, p.vms.find? v.id = some v → v.host = some i → v.migration ≠ .settled
  favored : ∀ k, (policy.selectBy choose (p.migratable h) p.time).1 = some k →
    ∃ v, p.vms.find? k = some v ∧ v.host = some i ∧ v.migration = .settled
      ∧ policy.Favors (p.migratable h) p.time v
  complete : ∀ coefficients,
    Regression.coefficients ((p.migratable h).map (·.history.values)) = some coefficients →
    coefficients.length = (p.migratable h).length
  fallback : ∀ fallback, policy = .maximumCorrelation fallback →
    Regression.coefficients ((p.migratable h).map (·.history.values)) = none →
    (policy.selectBy choose (p.migratable h) p.time).1
      = (fallback.selectBy choose (p.migratable h) p.time).1

/-- Every policy selects soundly from every host as long as what the machines there demand are
values. -/
theorem selection_sound [FractionScalar α] (hchoose : Generator.IsChoice choose)
    (hp : p.Reachable) (hh : p.hosts[i]? = some h)
    (hload : ∀ v, p.vms.find? v.id = some v → v.host = some i →
      (v.load.demand p.time (p.time - v.startTime) == v.load.demand p.time (p.time - v.startTime))
        = true) (policy : SelectionPolicy) : p.Selects choose i h policy := by
  have hb := bookkeeping_of_reachable hp
  have hmem : ∀ v, v ∈ p.migratable h
      ↔ p.vms.find? v.id = some v ∧ v.host = some i ∧ v.migration = .settled :=
    fun v => hb.mem_migratable hh
  have hvalues : ∀ w ∈ p.migratable h, (w.utilization p.time == w.utilization p.time) = true := by
    intro w hw
    obtain ⟨hfind, hhost, -⟩ := (hmem w).mp hw
    exact Vm.utilization_beq (hload w hfind hhost)
  have hchosen : p.migratable h ≠ [] →
      ∃ v, (policy.selectBy choose (p.migratable h) p.time).1 = some v.id
        ∧ policy.Favors (p.migratable h) p.time v :=
    fun hne => policy.selectBy_outcome hchoose hne hvalues
  constructor
  case candidates => exact hmem
  case ordered => exact hb.pairwise_migratable hh
  case none_iff =>
    constructor
    · intro hnone v hfind hhost hsettled
      obtain ⟨w, hw, -⟩ := hchosen (List.ne_nil_of_mem ((hmem v).mpr ⟨hfind, hhost, hsettled⟩))
      rw [hnone] at hw
      contradiction
    · intro hall
      have hempty : p.migratable h = [] := List.eq_nil_iff_forall_not_mem.mpr fun v hv => by
        obtain ⟨hfind, hhost, hsettled⟩ := (hmem v).mp hv
        exact hall v hfind hhost hsettled
      rw [hempty, SelectionPolicy.selectBy_nil hchoose]
  case favored =>
    intro k hk
    obtain ⟨v, hv, hfavors⟩ := hchosen fun hempty => by
      rw [hempty, SelectionPolicy.selectBy_nil hchoose] at hk
      contradiction
    obtain rfl := Option.some.inj (hv.symm.trans hk)
    obtain ⟨hfind, hhost, hsettled⟩ := (hmem v).mp hfavors.mem
    exact ⟨v, hfind, hhost, hsettled, hfavors⟩
  case complete =>
    intro coefficients hc
    rw [Regression.length_coefficients hc, List.length_map]
  case fallback =>
    rintro fallback rfl hnone
    exact SelectionPolicy.selectBy_maximumCorrelation hchoose hnone

/-- A run in which three machines of one host are recorded four times. -/
def recordingRun : List (Operation Binary64) :=
  [.addHost (sampleHost "a"),
    .addVm (.new 1 1 500 10 10 10 (.trace [(0, 0.5), (1, 0.25), (2, 0.5), (3, 0.75)])),
    .addVm (.new 2 1 500 10 10 10 (.trace [(0, 0.25), (1, 0.5), (2, 0.75), (3, 1)])),
    .addVm (.new 3 1 500 10 10 10 (.trace [(0, 0.5), (1, 0.5), (2, 1), (3, 1)])),
    .create 1 0, .create 2 0, .create 3 0, .updateProcessing, .setTime 1, .updateProcessing,
    .setTime 2, .updateProcessing, .setTime 3, .updateProcessing]

/-- Machines without a history are chosen by their utilization, by a fallback of a fallback, and of
machines with a history the last one is explained best by the others. -/
theorem selection_sound_sample :
    (∃ (p : Pool Binary64) (h : Host Binary64) (v : Vm Binary64),
      (Pool.new 0 5).performAll sampleRun = .ok p ∧ p.hosts[0]? = some h
        ∧ p.vms.find? 10 = some v ∧ v.host = some 0
        ∧ SelectionPolicy.IsFirstLeast (·.utilization p.time) (p.migratable h) v)
    ∧ ∃ (p : Pool Binary64) (h : Host Binary64) (v : Vm Binary64) (coefficients : List Binary64),
      (Pool.new 0 5).performAll recordingRun = .ok p ∧ p.hosts[0]? = some h
        ∧ p.vms.find? 3 = some v ∧ v.host = some 0
        ∧ Regression.coefficients ((p.migratable h).map (·.history.values)) = some coefficients
        ∧ coefficients.length = 3
        ∧ SelectionPolicy.IsMostCorrelated (p.migratable h) coefficients v := by
  constructor
  · obtain ⟨p, hrun, hp, hcheck⟩ := exists_of_run (fun p : Pool Binary64 =>
      p.vms.values.all (fun v : Vm Binary64 => v.load.demand p.time (p.time - v.startTime)
          == v.load.demand p.time (p.time - v.startTime))
        && p.hosts[0]?.any fun h : Host Binary64 =>
          (Regression.coefficients ((p.migratable h).map (·.history.values))).isNone
            && decide ((((SelectionPolicy.maximumCorrelation (.maximumCorrelation
              .minimumUtilization)).selectBy Generator.choose (p.migratable h) p.time).1)
              = some 10))
      (isAdmissible_of_mem_sampleRun (by decide +kernel)) (by decide +kernel)
    simp only [Option.any_eq_true, Bool.and_eq_true, decide_eq_true_eq, List.all_eq_true,
      Option.isNone_iff_eq_none] at hcheck
    obtain ⟨hload, h, hh, hnone, hten⟩ := hcheck
    have hsound := selection_sound Generator.isChoice_choose hp hh
      (fun v hfind _ => hload v (IdMap.mem_values_iff.mpr ⟨v.id, hfind⟩))
      (.maximumCorrelation (.maximumCorrelation .minimumUtilization))
    obtain ⟨v, hfind, hhost, -, hfavors⟩ := hsound.favored 10 hten
    simp only [SelectionPolicy.Favors, hnone] at hfavors
    exact ⟨p, h, v, hrun, hh, hfind, hhost, hfavors⟩
  · have hops : ∀ op ∈ recordingRun, op.IsAdmissible := by
      simp only [recordingRun, List.forall_mem_cons, Operation.IsAdmissible]
      exact ⟨isFresh_sampleHost (by decide +kernel) "a", Vm.isWaiting_new .., Vm.isWaiting_new ..,
        Vm.isWaiting_new .., trivial, trivial, trivial, trivial, trivial, trivial, trivial, trivial,
        trivial, trivial, List.forall_mem_nil _⟩
    obtain ⟨p, hrun, hp, hcheck⟩ := exists_of_run (fun p : Pool Binary64 =>
      p.vms.values.all (fun v : Vm Binary64 => v.load.demand p.time (p.time - v.startTime)
          == v.load.demand p.time (p.time - v.startTime))
        && p.hosts[0]?.any fun h : Host Binary64 => decide ((p.migratable h).length = 3)
          && (Regression.coefficients ((p.migratable h).map (·.history.values))).isSome
          && decide ((((SelectionPolicy.maximumCorrelation .minimumUtilization).selectBy
            Generator.choose (p.migratable h) p.time).1) = some 3)) hops (by decide +kernel)
    simp only [Option.any_eq_true, Bool.and_eq_true, decide_eq_true_eq, List.all_eq_true,
      Option.isSome_iff_exists] at hcheck
    obtain ⟨hload, h, hh, ⟨hthree, coefficients, hcoefficients⟩, hchosen⟩ := hcheck
    have hsound := selection_sound Generator.isChoice_choose hp hh
      (fun v hfind _ => hload v (IdMap.mem_values_iff.mpr ⟨v.id, hfind⟩))
      (.maximumCorrelation .minimumUtilization)
    obtain ⟨v, hfind, hhost, -, hfavors⟩ := hsound.favored 3 hchosen
    simp only [SelectionPolicy.Favors, hcoefficients] at hfavors
    exact ⟨p, h, v, coefficients, hrun, hh, hfind, hhost, hcoefficients,
      (hsound.complete coefficients hcoefficients).trans hthree, hfavors⟩

end Pool

end Datacenter
