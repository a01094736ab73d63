import Mathlib.Data.Nat.Cast.Defs
import Datacenter.Proofs.Host.Receiving
import Datacenter.Proofs.Pool.Processing

/-!
# The first request of a machine

A machine that is created on a host is asked for before it comes to the host, and its age is counted
from the moment at which it has come. So its first request is the one for the age that it would have
if it had never left: the time since it was placed before, or since time zero. The next update puts
this right, because from then on the age is counted from the moment of the creation. Whether there is
anything to put right depends on the load at these two ages only
(`Pool.first_request_current_iff`); `Pool.exists_stale_first_request` is a machine for which there
is.
-/

namespace Datacenter

variable {α : Type} [Scalar α]

/-- The request of each core at a time and an age. -/
def Vm.requestAt (v : Vm α) (time age : α) : List α :=
  List.replicate v.vcpus (v.speed * Scalar.clamp (v.load.demand time age) 0 1)

theorem Vm.request_eq_requestAt (v : Vm α) (time : α) :
    v.request time = v.requestAt time (time - v.startTime) :=
  rfl

/-- A machine that comes to a host is new there. -/
theorem Vm.request_moveTo {v : Vm α} (hwaits : v.host = none) (host : Nat) (time : α) :
    (v.moveTo (some host) time).request time = v.requestAt time (time - time) := by
  have hstart : (v.moveTo (some host) time).startTime = time := by simp [moveTo, hwaits]
  rw [request_eq_requestAt, hstart]
  rfl

/-- A host on which a machine is created serves it from then on. -/
theorem Host.serves_of_create? [Std.Irrefl (α := α) (· < ·)] {h h' : Host α} {v w : Vm α}
    {requested : List α} (hcheck : h.check v = .ok .success)
    (hcreate : h.create? v requested = some h') (hcount : w.vcpus = v.vcpus) :
    h'.processor.serves w = true := by
  obtain ⟨h₁, hgranted, rfl⟩ := Option.map_eq_some_iff.mp hcreate
  have hworking : h₁.processor.workingCount = h.processor.workingCount :=
    Processor.workingCount_congr (makeup_admit? hgranted)
  have hcores := (fits_of_check hcheck).cores
  show (h₁.processor.isDedicated || decide (w.vcpus ≤ h₁.processor.workingCount)) = true
  rw [hworking, hcount, decide_eq_true hcores, Bool.or_true]

namespace Pool

variable {p q : Pool α} {vm host : Nat} {v : Vm α}

/-- What a host has on file once a machine has been created there. -/
theorem requestOn?_create {h h' : Host α} {requested : List α} (hh : p.hosts[host]? = some h)
    (hcreate : h.create? v requested = some h') (hhosts : q.hosts = p.hosts.set host h') :
    q.requestOn? host v.id = some requested := by
  have hrequest := congrArg Entry.request (Host.entry_create? hcreate v.id)
  rw [if_pos rfl] at hrequest
  have hfile : h'.processor.ledger.requests.find? v.id = some (.of v requested) := hrequest
  rw [requestOn?, hhosts, getElem?_setHost hh, if_pos rfl, Option.map_some, Ledger.requestOf, hfile]
  rfl

variable [OrderedScalar α]

/-- An update puts every machine that the processor of its host serves on file anew. -/
theorem find?_updateProcessing (hp : p.Reachable) {h h' : Host α} (hv : p.vms.find? v.id = some v)
    (hh : p.hosts[host]? = some h) (hon : host ∈ p.hostsOf v) (hserves : h.processor.serves v = true)
    (hh' : p.updateProcessing.hosts[host]? = some h') :
    h'.processor.ledger.requests.find? v.id = some ⟨v.request p.time, v.isMigrating⟩ := by
  have hb := bookkeeping_of_reachable hp
  have hids : IsUnambiguous (p.guests host p.vms.values) := isUnambiguous_guests hb host
  have hguest : v ∈ p.guests host p.vms.values :=
    List.mem_filter.mpr ⟨IdMap.mem_values_iff.mpr ⟨v.id, hv⟩, decide_eq_true hon⟩
  have hserved : v ∈ (p.guests host p.vms.values).filter h.processor.serves :=
    List.mem_filter.mpr ⟨hguest, hserves⟩
  -- asking for all machines is one new sharing, in which this one takes part
  have hfold := Processor.foldl_renew (processor_of_reachable hp hh)
    (fun _ => knows_of_mem_guests hp hh) hids p.time
  rw [hb.getElem?_updateProcessing, hh] at hh'
  obtain rfl := Option.some.inj hh'
  show (List.foldl (Processor.renew p.time) h.processor _).ledger.requests.find? v.id = _
  rw [hfold, Processor.withLedger_ledger]
  exact Ledger.find?_registerAll (hids.subset (List.filter_subset_self ..)) hserved _

/-- An update asks for every machine that the processor of its host serves. -/
theorem requestOn?_updateProcessing (hp : p.Reachable) {h : Host α}
    (hv : p.vms.find? v.id = some v) (hh : p.hosts[host]? = some h) (hon : host ∈ p.hostsOf v)
    (hserves : h.processor.serves v = true) :
    p.updateProcessing.requestOn? host v.id = some (v.request p.time) := by
  obtain ⟨h', hh'⟩ : ∃ h', p.updateProcessing.hosts[host]? = some h' := by
    rw [(bookkeeping_of_reachable hp).getElem?_updateProcessing, hh]
    exact ⟨_, rfl⟩
  rw [requestOn?, hh', Option.map_some, Ledger.requestOf,
    find?_updateProcessing hp hv hh hon hserves hh']
  rfl

/-- The first request of a machine is the one for the age it would have if it had never left, and an
update replaces it by the one for a new machine. So the first request is that of a new machine, and
the update leaves it alone, exactly if the machine asks for the same at both ages. -/
theorem first_request_current_iff (hp : p.Reachable) (hq : p.create vm host = .ok (true, q)) :
    ∃ v v', p.vms.find? vm = some v ∧ q.vms.find? vm = some v' ∧ v'.host = some host
      ∧ q.requestOn? host vm = some (v.requestAt q.time (q.time - v.startTime))
      ∧ v'.request q.time = v.requestAt q.time (q.time - q.time)
      ∧ q.updateProcessing.requestOn? host vm = some (v'.request q.time)
      ∧ ((q.requestOn? host vm = some (v'.request q.time)
          ∧ q.updateProcessing.requestOn? host vm = q.requestOn? host vm)
        ↔ v.requestAt q.time (q.time - v.startTime) = v.requestAt q.time (q.time - q.time)) := by
  have hreach : q.Reachable := by
    have hop : (Operation.create vm host : Operation α).IsAdmissible := trivial
    exact hp.perform hop (by rw [perform, hq]; rfl)
  rcases create_outcome hq with ⟨hrefused, -⟩ | ⟨-, v, h, h', hv, hwaits, hh, hcheck, hcreate, hform⟩
  · contradiction
  obtain rfl : v.id = vm := ((bookkeeping_of_reachable hp).registered vm).id v hv
  obtain ⟨v', hv'⟩ : ∃ v', v' = v.moveTo (some host) p.time := ⟨_, rfl⟩
  have hid : v'.id = v.id := by rw [hv']; rfl
  have hhost : v'.host = some host := by rw [hv']; rfl
  have htime : q.time = p.time := by rw [hform]
  have hfind : q.vms.find? v.id = some v' := by rw [hform, hv', IdMap.find?_insert, if_pos rfl]
  have hhosts : q.hosts = p.hosts.set host h' := by rw [hform]
  -- the request is computed before the machine comes, and the age starts when it has come
  have hfirst : q.requestOn? host v.id = some (v.requestAt q.time (q.time - v.startTime)) := by
    rw [requestOn?_create hh hcreate hhosts, htime]
    rfl
  have hnew : v'.request q.time = v.requestAt q.time (q.time - q.time) := by
    rw [hv', htime, Vm.request_moveTo hwaits]
  have hupdate : q.updateProcessing.requestOn? host v.id = some (v'.request q.time) := by
    have hget : q.hosts[host]? = some h' := by rw [hhosts, getElem?_setHost hh, if_pos rfl]
    rw [← hid] at hfind ⊢
    exact requestOn?_updateProcessing hreach hfind hget (by simp [hostsOf, hhost])
      (Host.serves_of_create? hcheck hcreate (by rw [hv']; rfl))
  refine ⟨v, v', hv, hfind, hhost, hfirst, hnew, hupdate, ?_⟩
  rw [hupdate, hfirst, hnew, Option.some.injEq, Option.some.injEq]
  exact ⟨And.left, fun hsame => ⟨hsame, hsame.symm⟩⟩

omit [OrderedScalar α] in
/-- What a run and a creation after it pass a check for can be relied on. -/
theorem exists_of_run_create {ops : List (Operation α)} (vm host : Nat)
    (check : (before after : Pool α) → Bool)
    (hops : ∀ op ∈ ops, op.IsAdmissible)
    (hcheck : ((Pool.new 0 5).performAll ops).toOption.any (fun p =>
      (p.create vm host).toOption.any fun r => r.1 && check p r.2) = true) :
    ∃ p q, (Pool.new 0 5).performAll ops = .ok p ∧ p.Reachable
      ∧ p.create vm host = .ok (true, q) ∧ check p q = true := by
  obtain ⟨p, hrun, hp, hcheck⟩ := exists_of_run _ hops hcheck
  obtain ⟨⟨created, q⟩, hq, hcheck⟩ := Option.any_eq_true _ _ |>.mp hcheck
  obtain ⟨rfl, hcheck⟩ := Bool.and_eq_true_iff.mp hcheck
  exact ⟨p, q, hrun, hp, Fault.toOption_eq_some.mp hq, hcheck⟩

/-- A machine with a peak at the beginning of its life. -/
def peakVm : Vm Binary64 :=
  .new 1 1 1000 10 10 10 (.traceByAge [(0, 1), (5, 0.5)])

/-- A machine leaves the host on which it has been for seven units of time. -/
def leavingRun : List (Operation Binary64) :=
  [.addHost (sampleHost "a"), .addVm peakVm, .setTime 3, .create 1 0, .setTime 10, .destroy 1]

/-- A machine that comes back asks for what it would ask for if it had never left. -/
theorem first_request_current_iff_sample : ∃ p q : Pool Binary64,
    (Pool.new 0 5).performAll leavingRun = .ok p ∧ p.create 1 0 = .ok (true, q)
      ∧ q.requestOn? 0 1 = some (peakVm.requestAt 10 7)
      ∧ q.updateProcessing.requestOn? 0 1 = some (peakVm.requestAt 10 0) := by
  have hops : ∀ op ∈ leavingRun, op.IsAdmissible := by
    simp only [leavingRun, List.forall_mem_cons, Operation.IsAdmissible]
    exact ⟨isFresh_sampleHost (by decide +kernel) "a", Vm.isWaiting_new .., trivial, trivial,
      trivial, trivial, List.forall_mem_nil _⟩
  obtain ⟨p, q, hrun, hp, hq, hcheck⟩ := exists_of_run_create 1 0 (fun p q : Pool Binary64 =>
    (p.vms.find? 1).any fun v : Vm Binary64 =>
      decide (v.requestAt q.time (q.time - v.startTime) = peakVm.requestAt 10 7)
        && decide (v.requestAt q.time (q.time - q.time) = peakVm.requestAt 10 0))
    hops (by decide +kernel)
  obtain ⟨v, v', hv, -, -, hfirst, hnew, hupdate, -⟩ := first_request_current_iff hp hq
  rw [hv, Option.any_some, Bool.and_eq_true, decide_eq_true_eq, decide_eq_true_eq] at hcheck
  rw [hcheck.1] at hfirst
  rw [hnew, hcheck.2] at hupdate
  exact ⟨p, q, hrun, hq, hfirst, hupdate⟩

/-- A machine waits until time ten for its host. -/
def waitingRun : List (Operation Binary64) :=
  [.addHost (sampleHost "a"), .addVm peakVm, .setTime 10]

/-- Not every machine starts with the request of a new one: this one asks for what it would ask for
at the age of ten, and an update at the same time doubles its request. -/
theorem exists_stale_first_request : ∃ (p q : Pool Binary64) (v : Vm Binary64), p.Reachable
    ∧ (Pool.new 0 5).performAll waitingRun = .ok p ∧ p.create 1 0 = .ok (true, q)
    ∧ q.vms.find? 1 = some v ∧ v.request q.time = [1000]
    ∧ q.requestOn? 0 1 = some [500] ∧ q.updateProcessing.requestOn? 0 1 = some [1000]
    ∧ ¬ (q.requestOn? 0 1 = some (v.request q.time)
      ∧ q.updateProcessing.requestOn? 0 1 = q.requestOn? 0 1) := by
  have hops : ∀ op ∈ waitingRun, op.IsAdmissible := by
    simp only [waitingRun, List.forall_mem_cons, Operation.IsAdmissible]
    exact ⟨isFresh_sampleHost (by decide +kernel) "a", Vm.isWaiting_new .., trivial,
      List.forall_mem_nil _⟩
  obtain ⟨p, q, hrun, hp, hq, hcheck⟩ := exists_of_run_create 1 0 (fun _ q : Pool Binary64 =>
    (q.vms.find? 1).any fun v : Vm Binary64 =>
      decide (v.request q.time = [1000]) && decide (q.requestOn? 0 1 = some [500])
        && decide (q.updateProcessing.requestOn? 0 1 = some [1000]))
    hops (by decide +kernel)
  obtain ⟨v, hv, hcheck⟩ := Option.any_eq_true _ _ |>.mp hcheck
  simp only [Bool.and_eq_true, decide_eq_true_eq] at hcheck
  obtain ⟨⟨hnew, hfirst⟩, hupdate⟩ := hcheck
  refine ⟨p, q, v, hp, hrun, hq, hv, hnew, hfirst, hupdate, fun hcurrent => ?_⟩
  have hsame := hupdate.symm.trans (hcurrent.2.trans hfirst)
  exact absurd hsame (by decide +kernel)

end Pool

end Datacenter
