import Datacenter.Proofs.Processor.Dedicated

/-!
# Which cores belong to whom

Under space sharing the assignment of a reachable processor is sound (`Processor.Assigns`): no core
belongs to two machines or twice to one of them, every core that belongs to a machine exists and has
no negative capacity, and every registered machine has its cores. An admission keeps this because
the cores it takes are free ones that are fast enough, and a new sharing because it only ends the
assignments of machines that are not registered.

So a new sharing never looks for a core that does not exist and never bounds a request by a negative
capacity (`Processor.ResharesSafely`). Neither can be seen from its result, which passes over
missing cores.
-/

namespace Datacenter

variable {α : Type} [Scalar α]

namespace SpaceShared

/-- No core belongs to two machines or twice to one of them. -/
structure Apart (a : Assignment) : Prop where
  nodup : ∀ id is, a.find? id = some is → is.Nodup
  disjoint : ∀ id is, a.find? id = some is → ∀ k ks, a.find? k = some ks → id ≠ k → is.Disjoint ks

/-- Every core that belongs to a machine exists, and its capacity is not negative. -/
def InRange (a : Assignment) (cores : List (Core α)) : Prop :=
  ∀ id is, a.find? id = some is → ∀ i ∈ is, ∃ c, cores[i]? = some c ∧ 0 ≤ c.capacity

variable {a a' : Assignment} {cores cores' : List (Core α)} {id : Nat} {requested : List α}

theorem Apart.mono (h : Apart a)
    (hsub : ∀ id is, a'.find? id = some is → a.find? id = some is) : Apart a' where
  nodup id is his := h.nodup id is (hsub id is his)
  disjoint id is his k ks hks := h.disjoint id is (hsub id is his) k ks (hsub k ks hks)

theorem InRange.mono (h : InRange a cores)
    (hsub : ∀ id is, a'.find? id = some is → a.find? id = some is) : InRange a' cores :=
  fun id is his => h id is (hsub id is his)

theorem InRange.congr (h : InRange a cores)
    (hcapacities : cores'.map (·.capacity) = cores.map (·.capacity)) : InRange a cores' := by
  intro id is his i hi
  obtain ⟨c, hc, hcapacity⟩ := h id is his i hi
  have hget := congrArg (fun l => l[i]?) hcapacities
  simp only [List.getElem?_map, hc, Option.map_some] at hget
  obtain ⟨c', hc', hsame⟩ := Option.map_eq_some_iff.mp hget
  exact ⟨c', hc', hsame ▸ hcapacity⟩

/-- The cores of an admitted machine are free ones, so they do not belong to anybody else. -/
theorem Apart.admit? (h : Apart a) (hgranted : admit? cores a id requested = some a') :
    Apart a' := by
  rcases admit?_outcome hgranted with ⟨rfl, -⟩ | ⟨-, rfl⟩
  · exact h
  have hfree : ∀ k ks, a.find? k = some ks → k ≠ id → ∀ i ∈ ks,
      i ∉ (freeCores cores a id (Scalar.largest requested)).take requested.length := by
    intro k ks hks hk i hi hmem
    obtain ⟨c, -, htaken, -⟩ := mem_freeCores.mp (List.mem_of_mem_take hmem)
    exact htaken (mem_taken_iff.mpr ⟨k, ks, hks, hk, hi⟩)
  constructor
  · intro k ks hks
    rw [IdMap.find?_insert] at hks
    split at hks
    · cases hks
      exact (nodup_freeCores ..).sublist (List.take_sublist ..)
    · exact h.nodup k ks hks
  · intro k ks hks k' ks' hks' hne i hi hi'
    rw [IdMap.find?_insert] at hks hks'
    split at hks <;> split at hks'
    · exact hne (by simp [*])
    · cases hks
      exact hfree k' ks' hks' ‹_› i hi' hi
    · cases hks'
      exact hfree k ks hks ‹_› i hi hi'
    · exact h.disjoint k ks hks k' ks' hks' hne hi hi'

/-- A core that is fast enough for the largest request has no negative capacity. -/
theorem InRange.admit? [OrderedScalar α] (h : InRange a cores)
    (hgranted : SpaceShared.admit? cores a id requested = some a') : InRange a' cores := by
  rcases admit?_outcome hgranted with ⟨rfl, -⟩ | ⟨-, rfl⟩
  · exact h
  intro k ks hks i hi
  rw [IdMap.find?_insert] at hks
  split at hks
  · cases hks
    obtain ⟨c, hc, -, -, hfast⟩ := mem_freeCores.mp (List.mem_of_mem_take hi)
    exact ⟨c, hc, LawfulScalar.le_trans (Scalar.zero_le_largest requested) hfast⟩
  · exact h k ks hks i hi

/-- An admitted machine has its cores, and the others keep theirs. -/
theorem contains_admit? (hgranted : SpaceShared.admit? cores a id requested = some a') :
    a'.contains id = true ∧ ∀ k, k ≠ id → a'.find? k = a.find? k := by
  rcases admit?_outcome hgranted with ⟨rfl, hsame⟩ | ⟨-, rfl⟩
  · obtain ⟨is, his, -⟩ := Option.map_eq_some_iff.mp hsame
    exact ⟨IdMap.contains_iff.mpr ⟨is, his⟩, fun _ _ => rfl⟩
  · exact ⟨by simp, fun k hk => by rw [IdMap.find?_insert, if_neg hk]⟩

end SpaceShared

namespace Processor

open SpaceShared

variable {p x : Processor α} {a : Assignment}

/-- The assignment is sound and covers all registered machines. -/
structure Assigns (p : Processor α) (a : Assignment) : Prop where
  apart : Apart a
  inRange : InRange a p.cores
  complete : ∀ id r, p.ledger.requests.find? id = some r → a.contains id = true

/-- A new sharing keeps the assignments of the registered machines and ends all others. -/
theorem assigns_reshare [Std.Irrefl (α := α) (· < ·)]
    (hx : ∀ a, x.discipline = .spaceShared a → x.Assigns a)
    (ha : x.reshare.discipline = .spaceShared a) : x.reshare.Assigns a := by
  obtain ⟨a₀, ha₀, rfl⟩ := reshare_discipline ha
  obtain ⟨hapart, hrange, hcomplete⟩ := hx a₀ ha₀
  have hsub : ∀ id is, (a₀.filter fun id _ => x.ledger.contains id).find? id = some is →
      a₀.find? id = some is := by
    intro id is his
    rw [IdMap.find?_filter, Option.filter_eq_some_iff] at his
    exact his.1
  refine ⟨hapart.mono hsub, (hrange.mono hsub).congr (capacities_reshare x), fun id r hr => ?_⟩
  rw [reshare_ledger] at hr
  obtain ⟨is, his⟩ := IdMap.contains_iff.mp (hcomplete id r hr)
  refine IdMap.contains_iff.mpr ⟨is, ?_⟩
  rw [IdMap.find?_filter, Option.filter_eq_some_iff]
  exact ⟨his, IdMap.contains_iff.mpr ⟨r, hr⟩⟩

theorem assigns_of_reachable [OrderedScalar α] (hp : p.Reachable)
    (hd : p.discipline = .spaceShared a) : p.Assigns a := by
  refine hp.invariant (motive := fun p => ∀ a, p.discipline = .spaceShared a → p.Assigns a)
    ?_ ?_ ?_ ?_ a hd
  · intro capacities discipline overhead unassigned _ a ha
    rcases unassigned with rfl | rfl
    · contradiction
    · cases ha
      exact ⟨⟨(fun _ _ h => nomatch h), (fun _ _ h => nomatch h)⟩, (fun _ _ h => nomatch h),
        (fun _ _ h => nomatch h)⟩
  · intro p vm requested discipline hp hadmission a ha
    refine assigns_reshare (fun a ha => ?_) ha
    obtain ⟨a₀, ha₀, hgranted⟩ := admit?_of_admission? (hadmission.trans (congrArg some ha))
    obtain ⟨hapart, hrange, hcomplete⟩ := hp a₀ ha₀
    obtain ⟨hown, hothers⟩ := contains_admit? hgranted
    refine ⟨hapart.admit? hgranted, hrange.admit? hgranted, fun id r hr => ?_⟩
    have hr : (p.ledger.requests.insert vm.id ⟨requested, vm.isMigrating⟩).find? id = some r := hr
    by_cases hid : id = vm.id
    · exact hid ▸ hown
    · rw [IdMap.find?_insert, if_neg hid] at hr
      rw [IdMap.contains_eq_isSome, hothers id hid, ← IdMap.contains_eq_isSome]
      exact hcomplete id r hr
  · intro p l hp _ hsame a ha
    refine assigns_reshare (fun a ha => ?_) ha
    obtain ⟨hapart, hrange, hcomplete⟩ := hp a ha
    refine ⟨hapart, hrange, fun id r hr => ?_⟩
    obtain ⟨r', hr', -⟩ := hsame id r hr
    exact hcomplete id r' hr'
  · intro p i hp a ha
    refine assigns_reshare (fun a ha => ?_) ha
    obtain ⟨hapart, hrange, hcomplete⟩ := hp a ha
    exact ⟨hapart, hrange.congr (capacities_modify_fail ..), hcomplete⟩

/-! ## Resharing -/

/-- Whenever a new sharing serves a virtual core, its core exists, and the capacity that bounds what
it is given is not negative. -/
def ResharesSafely (x : Processor α) : Prop :=
  ∀ a, x.discipline = .spaceShared a → ∀ id r, x.ledger.requests.find? id = some r →
    ∀ d ∈ r.share.zip (assigned a id), ∃ c, x.cores[d.2]? = some c ∧ 0 ≤ c.capacity

/-- Whatever a reachable processor has been computed from, the computation was safe. -/
theorem resharesSafely_of_reachable [OrderedScalar α] (hp : p.Reachable) (hx : x.reshare = p) :
    x.ResharesSafely := by
  intro a ha id r hr d hd
  obtain ⟨is, his, hi⟩ := mem_assigned_iff.mp (List.of_mem_zip hd).2
  have hdiscipline : p.discipline = .spaceShared (a.filter fun id _ => x.ledger.contains id) :=
    hx ▸ discipline_reshare ha
  have hkept : (a.filter fun id _ => x.ledger.contains id).find? id = some is := by
    rw [IdMap.find?_filter, Option.filter_eq_some_iff]
    exact ⟨his, IdMap.contains_iff.mpr ⟨r, hr⟩⟩
  have hrange : InRange (a.filter fun id _ => x.ledger.contains id) x.cores :=
    (assigns_of_reachable hp hdiscipline).inRange.congr (hx ▸ (capacities_reshare x).symm)
  exact hrange id is hkept d.2 hi

/-! ## Who has which cores -/

/-- Every machine that is registered on `p` has the cores that `a` says, as many as it asks for, and
has them to itself. -/
structure Dedicates (p : Processor α) (a : Assignment) : Prop where
  registered : ∀ id, a.contains id = p.ledger.contains id
  length : ∀ id is r, a.find? id = some is → p.ledger.requests.find? id = some r →
    is.length = r.share.length
  apart : Apart a
  inRange : ∀ id is, a.find? id = some is → ∀ i ∈ is, i < p.cores.length
  status : ∀ i c, p.cores[i]? = some c → c.isWorking = true →
    c.status = if i ∈ held a then .busy else .free

theorem dedicates_of_reachable [OrderedScalar α] (hp : p.Reachable)
    (hd : p.discipline = .spaceShared a) : p.Dedicates a := by
  obtain ⟨hapart, hrange, hcomplete⟩ := assigns_of_reachable hp hd
  have hholds := holdsRequests_of_reachable hp a hd
  refine ⟨fun id => ?_, fun id is r his hr => ?_, hapart, fun id is his i hi => ?_,
    fun i c hc hworking => ?_⟩
  · rw [Bool.eq_iff_iff]
    constructor
    · intro ha
      obtain ⟨is, his⟩ := IdMap.contains_iff.mp ha
      obtain ⟨r, hr, -⟩ := hholds id is his
      exact IdMap.contains_iff.mpr ⟨r, hr⟩
    · intro hregistered
      obtain ⟨r, hr⟩ := IdMap.contains_iff.mp hregistered
      exact hcomplete id r hr
  · obtain ⟨r', hr', hlength⟩ := hholds id is his
    obtain rfl := Option.some.inj (hr.symm.trans hr')
    exact hlength.symm
  · obtain ⟨c, hc, -⟩ := hrange id is his i hi
    exact (List.getElem?_eq_some_iff.mp hc).1
  · have hstatus := status_of_reachable hp hd hc
    rwa [hworking, if_pos rfl] at hstatus

end Processor

end Datacenter
