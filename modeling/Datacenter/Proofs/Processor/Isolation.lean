import Mathlib.Data.Nat.Cast.Defs
import Datacenter.Proofs.Binary64.Rounding
import Datacenter.Proofs.Processor.Assignments
import Datacenter.Proofs.Processor.Runs

/-!
# Machines that do not feel each other

Under space sharing a machine receives what its own request, its own flags and its own cores give,
whatever is registered beside it (`Processor.allocations_of_reachable`): no two virtual cores are
served on one core, so each of them finds its core idle. An operation about one machine changes
neither of the three for any other, and so the others do not notice it (`cores_isolated`).
-/

namespace Datacenter

variable {α : Type} [Scalar α]

namespace SpaceShared

/-! ## Serving one machine -/

/-- What is given depends on the one core that gives it. -/
theorem given_congr {cores cores' : List (Core α)} {i : Nat} (h : cores'[i]? = cores[i]?)
    (factor mips : α) :
    (serveCore factor mips i cores').1 = (serveCore factor mips i cores).1 := by
  unfold serveCore
  rw [h]
  split <;> rfl

theorem getElem?_serveCore_of_ne (factor mips : α) {i j : Nat} (hij : i ≠ j)
    (cores : List (Core α)) : (serveCore factor mips i cores).2[j]? = cores[j]? := by
  unfold serveCore
  split
  · exact List.getElem?_set_ne hij
  · rfl

theorem getElem?_serve_of_not_mem (factor : α) {demands : List (α × Nat)} {j : Nat}
    (hj : j ∉ demands.map Prod.snd) (cores : List (Core α)) :
    (serve factor demands cores).2[j]? = cores[j]? := by
  induction demands generalizing cores with
  | nil => rfl
  | cons d demands ih =>
    rw [List.map_cons, List.mem_cons, not_or] at hj
    calc (serve factor (d :: demands) cores).2[j]?
        = (serve factor demands (serveCore factor d.1 d.2 cores).2).2[j]? := rfl
      _ = (serveCore factor d.1 d.2 cores).2[j]? := ih hj.2 _
      _ = cores[j]? := getElem?_serveCore_of_ne factor d.1 (Ne.symm hj.1) cores

/-- What virtual cores are given on cores that none of the others uses. -/
def givenEach (factor : α) (demands : List (α × Nat)) (cores : List (Core α)) : List α :=
  demands.map fun d => (serveCore factor d.1 d.2 cores).1

theorem givenEach_congr (factor : α) {demands : List (α × Nat)} {cores cores' : List (Core α)}
    (h : ∀ i ∈ demands.map Prod.snd, cores'[i]? = cores[i]?) :
    givenEach factor demands cores' = givenEach factor demands cores :=
  List.map_congr_left fun d hd => given_congr (h d.2 (List.mem_map_of_mem hd)) factor d.1

theorem fst_serve (factor : α) {demands : List (α × Nat)} (hnodup : (demands.map Prod.snd).Nodup)
    (cores : List (Core α)) : (serve factor demands cores).1 = givenEach factor demands cores := by
  induction demands generalizing cores with
  | nil => rfl
  | cons d demands ih =>
    obtain ⟨hd, hdemands⟩ := List.nodup_cons.mp hnodup
    have hothers : givenEach factor demands (serveCore factor d.1 d.2 cores).2
        = givenEach factor demands cores :=
      givenEach_congr factor fun i hi =>
        getElem?_serveCore_of_ne factor d.1 (ne_of_mem_of_not_mem hi hd).symm cores
    show _ :: (serve factor demands (serveCore factor d.1 d.2 cores).2).1 = _
    rw [ih hdemands, hothers]
    rfl

/-! ## Serving all machines -/

/-- What the virtual cores of a machine ask of which cores. -/
def demandsOf (a : Assignment) (e : Nat × Request α) : List (α × Nat) :=
  e.2.share.zip (assigned a e.1)

omit [Scalar α] in
theorem mem_assigned_of_mem_demandsOf {a : Assignment} {e : Nat × Request α} {i : Nat}
    (hi : i ∈ (demandsOf a e).map Prod.snd) : i ∈ assigned a e.1 := by
  obtain ⟨d, hd, rfl⟩ := List.mem_map.mp hi
  exact (List.of_mem_zip hd).2

omit [Scalar α] in
theorem nodup_snd_zip {xs : List α} {is : List Nat} (h : is.Nodup) :
    ((xs.zip is).map Prod.snd).Nodup := by
  induction is generalizing xs with
  | nil => simp
  | cons i is ih =>
    cases xs with
    | nil => exact List.nodup_nil
    | cons x xs =>
      obtain ⟨hi, his⟩ := List.nodup_cons.mp h
      refine List.nodup_cons.mpr ⟨fun hmem => hi ?_, ih his⟩
      have hmem : i ∈ (xs.zip is).map Prod.snd := hmem
      obtain ⟨d, hd, rfl⟩ := List.mem_map.mp hmem
      exact (List.of_mem_zip hd).2

theorem Apart.nodup_assigned {a : Assignment} (ha : Apart a) (id : Nat) :
    (assigned a id).Nodup := by
  unfold assigned
  cases his : a.find? id with
  | none => exact List.nodup_nil
  | some is => exact ha.nodup id is his

theorem Apart.not_mem_assigned {a : Assignment} (ha : Apart a) {id k i : Nat} (hne : id ≠ k)
    (hi : i ∈ assigned a id) : i ∉ assigned a k := by
  intro hk
  obtain ⟨is, his, hi⟩ := mem_assigned_iff.mp hi
  obtain ⟨ks, hks, hk⟩ := mem_assigned_iff.mp hk
  exact ha.disjoint id is his k ks hks hne hi hk

theorem find?_serveAll_of_not_mem (ledger : Ledger α) (a : Assignment)
    {requests : List (Nat × Request α)} {id : Nat} (hid : id ∉ requests.map Prod.fst)
    (allocations : IdMap (List α)) (cores : List (Core α)) :
    (serveAll ledger a requests allocations cores).1.find? id = allocations.find? id := by
  induction requests generalizing allocations cores with
  | nil => rfl
  | cons e requests ih =>
    rw [List.map_cons, List.mem_cons, not_or] at hid
    unfold serveAll
    rw [ih hid.2, IdMap.find?_insert, if_neg hid.1]

/-- A machine is given what its virtual cores would be given on the cores as they were before, since
nobody else is served on its cores. -/
theorem find?_serveAll {ledger : Ledger α} {a : Assignment} (ha : Apart a)
    {requests : List (Nat × Request α)} (hkeys : (requests.map Prod.fst).Nodup)
    {e : Nat × Request α} (he : e ∈ requests) (allocations : IdMap (List α))
    (cores : List (Core α)) :
    (serveAll ledger a requests allocations cores).1.find? e.1
      = some (givenEach (ledger.factor e.1) (demandsOf a e) cores) := by
  induction requests generalizing allocations cores with
  | nil => exact absurd he List.not_mem_nil
  | cons first requests ih =>
    obtain ⟨hfirst, hrest⟩ := List.nodup_cons.mp hkeys
    unfold serveAll
    rcases List.mem_cons.mp he with rfl | he
    · rw [find?_serveAll_of_not_mem ledger a hfirst, IdMap.find?_insert, if_pos rfl]
      exact congrArg some (fst_serve _ (nodup_snd_zip (ha.nodup_assigned e.1)) cores)
    · have hne : e.1 ≠ first.1 := fun heq => hfirst (heq ▸ List.mem_map_of_mem he)
      rw [ih hrest he]
      refine congrArg some (givenEach_congr _ fun i hi => getElem?_serve_of_not_mem _ ?_ cores)
      exact fun hserved => ha.not_mem_assigned hne (mem_assigned_of_mem_demandsOf hi)
        (mem_assigned_of_mem_demandsOf (e := first) hserved)

end SpaceShared

/-- Which cores belong to whom; none to anybody where they are shared. -/
def Discipline.assignment : Discipline → SpaceShared.Assignment
  | .timeShared => ∅
  | .spaceShared a => a

namespace Processor

open SpaceShared

variable {p q : Processor α} {a : Assignment} {op : Operation α}

section

variable [OrderedScalar α]

/-- What a machine receives follows from its request, its flags and its cores. -/
theorem allocations_of_reachable (hp : p.Reachable) (hd : p.discipline = .spaceShared a) (k : Nat) :
    p.allocations.find? k = (p.ledger.requests.find? k).map fun r =>
      givenEach (p.ledger.factor k) (r.share.zip (assigned a k)) (p.cores.map Core.reset) := by
  have hshare : (SpaceShared.share p.cores p.ledger a).1 = p.allocations :=
    congrArg Prod.fst (share_of_reachable hp hd)
  have hkeys : (p.ledger.requests.toList.map Prod.fst).Nodup := p.ledger.requests.nodup_keys
  rw [← hshare, SpaceShared.share]
  cases hr : p.ledger.requests.find? k with
  | none =>
    refine find?_serveAll_of_not_mem _ _ (fun hmem => ?_) _ _
    obtain ⟨r, hr'⟩ := IdMap.contains_iff.mp (IdMap.mem_keys_iff.mp hmem)
    rw [hr] at hr'
    contradiction
  | some r =>
    have hmem : (k, r) ∈ p.ledger.requests.toList := IdMap.find?_eq_some_iff.mp hr
    exact find?_serveAll (assigns_of_reachable hp hd).apart hkeys hmem ∅ _

/-- An operation about one machine leaves the cores of the others as they are. -/
theorem discipline_perform (hp : p.Reachable) (hd : p.discipline = .spaceShared a) {id : Nat}
    (hid : op.subject? = some id) (hq : p.perform op = .ok q) :
    ∃ a', q.discipline = .spaceShared a' ∧ ∀ k, k ≠ id → a'.find? k = a.find? k := by
  have hbooks := (perform_others hid hq).2
  rcases perform_outcome hq with rfl | ⟨discipline, ledger, rfl, -, -, hdis⟩ | ⟨i, rfl, -⟩
  · exact ⟨a, hd, fun _ _ => rfl⟩
  · obtain ⟨a₁, rfl, hothers⟩ : ∃ a₁, discipline = .spaceShared a₁
        ∧ ∀ k, k ≠ id → a₁.find? k = a.find? k := by
      rcases hdis with rfl | ⟨vm, requested, rfl, hadmission⟩
      · exact ⟨a, hd, fun _ _ => rfl⟩
      · obtain rfl := Option.some.inj hid
        obtain ⟨a₁, rfl, hgranted⟩ := admission?_of_spaceShared hd hadmission
        exact ⟨a₁, rfl, (contains_admit? hgranted).2⟩
    refine ⟨_, discipline_reshare rfl, fun k hk => ?_⟩
    -- whoever has cores is registered, and still is
    rw [IdMap.find?_filter, hothers k hk]
    cases his : a.find? k with
    | none => rfl
    | some is =>
      obtain ⟨r, hr, -⟩ := holdsRequests_of_reachable hp a hd k is his
      have hrequest := (hbooks k hk).request.trans hr
      rw [withLedger_ledger] at hrequest
      exact Option.filter_eq_some_iff.mpr ⟨rfl, IdMap.contains_iff.mpr ⟨r, hrequest⟩⟩
  · contradiction

/-- An operation about one machine does not change what the others receive. -/
theorem allocations_perform (hp : p.Reachable) (hd : p.discipline = .spaceShared a) {id : Nat}
    (hid : op.subject? = some id) (hq : p.perform op = .ok q) {k : Nat} (hk : k ≠ id) :
    q.allocations.find? k = p.allocations.find? k := by
  obtain ⟨a', ha', hcores⟩ := discipline_perform hp hd hid hq
  obtain ⟨hmakeup, hbooks⟩ := perform_others hid hq
  have hassigned : assigned a' k = assigned a k := by rw [assigned, assigned, hcores k hk]
  rw [allocations_of_reachable (hp.perform hq) ha', allocations_of_reachable hp hd,
    (hbooks k hk).request, (hbooks k hk).factor_eq (SameBuild.perform hq).overhead, hassigned,
    map_reset_congr hmakeup]

/-- Under space sharing the cores of the registered machines are their own at every moment of a run
from a fresh processor, and no new sharing has looked for a core in vain. An operation about one
machine changes neither the cores nor the request nor the allocation of any other. -/
theorem cores_isolated {capacities : List α} {overhead : α} {ops : List (Operation α)}
    (fraction : checkFraction .migrationOverhead overhead = .ok overhead)
    (hp : (new (capacities.map .new) (.spaceShared ∅) overhead).performAll ops = .ok p) :
    ∃ a, p.discipline = .spaceShared a ∧ p.Dedicates a
      ∧ (∀ x : Processor α, x.reshare = p → x.ResharesSafely)
      ∧ ∀ (op : Operation α) (id : Nat) (q : Processor α), op.subject? = some id →
        p.perform op = .ok q → ∃ a', q.discipline = .spaceShared a' ∧ ∀ k, k ≠ id →
          a'.find? k = a.find? k ∧ q.ledger.requests.find? k = p.ledger.requests.find? k
            ∧ q.allocations.find? k = p.allocations.find? k := by
  obtain ⟨hreach, -, -, hdedicated⟩ := outcome_of_run (.inr rfl) fraction hp
  obtain ⟨a, ha⟩ : ∃ a, p.discipline = .spaceShared a := by
    cases hd : p.discipline with
    | timeShared => simp [isDedicated, hd, new] at hdedicated
    | spaceShared a => exact ⟨a, rfl⟩
  refine ⟨a, ha, dedicates_of_reachable hreach ha,
    fun x hx => resharesSafely_of_reachable hreach hx, fun op id q hid hq => ?_⟩
  obtain ⟨a', ha', hcores⟩ := discipline_perform hreach ha hid hq
  exact ⟨a', ha', fun k hk => ⟨hcores k hk, ((perform_others hid hq).2 k hk).request,
    allocations_perform hreach ha hid hq hk⟩⟩

end

/-- Two machines on cores of which one has no speed: the first one asks for too much in between, and
one of its cores fails; the second one asks for something that is no value. -/
def crampedRun : List (Operation Binary64) :=
  [.request (.new 1 2 1000 10 10 10 (.constant 1)) [700, 1000],
    .request (.new 2 1 1000 10 10 10 (.constant 1)) [.nan],
    .request (.new 1 2 1000 10 10 10 (.constant 1)) [700, 1000, 10], .failCore 0, .markLeaving 1]

/-- The second machine keeps its core while the first one gives one of its own back. -/
theorem cores_isolated_sample : ∃ (p q : Processor Binary64) (a a' : SpaceShared.Assignment),
    (new (List.map .new [1000, 2000, -5, 1000]) (.spaceShared ∅) 0.1).performAll crampedRun = .ok p
      ∧ p.discipline = .spaceShared a ∧ a.toList = [(1, [0, 1]), (2, [3])] ∧ p.Dedicates a
      ∧ p.perform (.request (.new 1 1 700 10 10 10 (.constant 1)) [300]) = .ok q
      ∧ q.discipline = .spaceShared a' ∧ a'.find? 2 = some [3]
      ∧ q.allocations.find? 2 = p.allocations.find? 2 := by
  have hcheck : (((new (List.map .new [1000, 2000, -5, 1000]) (.spaceShared ∅) 0.1 :
      Processor Binary64).performAll crampedRun).toOption.any fun p =>
        p.discipline.assignment.toList == [(1, [0, 1]), (2, [3])]
        && (p.perform (.request (.new 1 1 700 10 10 10 (.constant 1)) [300])).toOption.isSome)
      = true := by
    decide +kernel
  simp only [Option.any_eq_true, Fault.toOption_eq_some, Bool.and_eq_true, beq_iff_eq,
    Option.isSome_iff_exists] at hcheck
  obtain ⟨p, hp, hcores, q, hq⟩ := hcheck
  obtain ⟨a, ha, hdedicates, -, hothers⟩ := cores_isolated (if_pos (by decide +kernel)) hp
  obtain ⟨a', ha', hsame⟩ := hothers _ 1 q rfl hq
  obtain ⟨hkept, -, hallocation⟩ := hsame 2 (by decide)
  rw [ha] at hcores
  have htwo : a.find? 2 = some [3] := IdMap.find?_eq_some_iff.mpr (by
    rw [show a.toList = _ from hcores]
    simp)
  exact ⟨p, q, a, a', hp, ha, hcores, hdedicates, hq, ha', hkept.trans htwo, hallocation⟩

end Processor

end Datacenter
