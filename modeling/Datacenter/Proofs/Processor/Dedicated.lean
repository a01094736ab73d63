import Datacenter.Proofs.IdMap
import Datacenter.Proofs.Processor.Reachable
import Datacenter.Proofs.Scalar

/-!
# Cores that belong to one machine

Under space sharing a core that belongs to a machine is busy, and any other working core is free:
`SpaceShared.status_share` says so of a computation of the shares, and
`Processor.not_held_of_isFree` of reachable processors. It takes that only registered machines have
cores, and as many as they have asked for (`Processor.HoldsRequests`); a core beyond the request
would be left free by the computation, and yet nobody else could have it.

A machine for which there are enough cores is admitted (`Processor.isSome_admission?`), and by that
no more cores become taken than it has asked for (`Processor.held_admission?`).
-/

namespace Datacenter

variable {α : Type} [Scalar α]

omit [Scalar α] in
/-- Of two processors of one make-up, cores at one position have one capacity and both work or both
do not. -/
theorem exists_of_makeup {cores cores' : List (Core α)} (h : makeup cores' = makeup cores) {i : Nat}
    {c : Core α} (hc : cores[i]? = some c) :
    ∃ c', cores'[i]? = some c' ∧ c'.capacity = c.capacity ∧ c'.isWorking = c.isWorking := by
  have hget := congrArg (fun l => l[i]?) h
  simp only [makeup, List.getElem?_map, hc, Option.map_some] at hget
  obtain ⟨c', hc', hprofile⟩ := Option.map_eq_some_iff.mp hget
  exact ⟨c', hc', (Prod.mk.inj hprofile).1, (Prod.mk.inj hprofile).2⟩

namespace SpaceShared

/-! ## Free cores -/

/-- The cores of all machines. -/
def held (a : Assignment) : List Nat :=
  a.toList.flatMap Prod.snd

theorem mem_held_iff {a : Assignment} {i : Nat} :
    i ∈ held a ↔ ∃ id is, a.find? id = some is ∧ i ∈ is := by
  simp only [held, List.mem_flatMap, Prod.exists, IdMap.find?_eq_some_iff]

theorem mem_assigned_iff {a : Assignment} {id i : Nat} :
    i ∈ assigned a id ↔ ∃ is, a.find? id = some is ∧ i ∈ is := by
  unfold assigned
  cases a.find? id <;> simp

theorem mem_taken_iff {a : Assignment} {except i : Nat} :
    i ∈ taken a except ↔ ∃ id is, a.find? id = some is ∧ id ≠ except ∧ i ∈ is := by
  simp only [taken, List.mem_flatMap, Prod.exists, IdMap.find?_eq_some_iff]
  refine exists_congr fun id => exists_congr fun is => and_congr_right fun _ => ?_
  split
  · simp [*]
  · simp [*]

theorem mem_held_of_mem_taken {a : Assignment} {except i : Nat} (h : i ∈ taken a except) :
    i ∈ held a := by
  obtain ⟨id, is, hfind, -, hi⟩ := mem_taken_iff.mp h
  exact mem_held_iff.mpr ⟨id, is, hfind, hi⟩

theorem mem_freeCores {cores : List (Core α)} {a : Assignment} {except i : Nat} {atLeast : α} :
    i ∈ freeCores cores a except atLeast ↔ ∃ c, cores[i]? = some c ∧ i ∉ taken a except
      ∧ c.isWorking = true ∧ atLeast ≤ c.capacity := by
  simp only [freeCores, List.mem_map, List.mem_filter, List.mem_zipIdx_iff_getElem?, Prod.exists,
    Bool.and_eq_true, Bool.not_eq_true', decide_eq_true_eq, List.contains_eq_mem,
    decide_eq_false_iff_not]
  constructor
  · rintro ⟨c, j, ⟨hc, hcond⟩, rfl⟩
    exact ⟨c, hc, hcond.1.1, hcond.1.2, hcond.2⟩
  · rintro ⟨c, hc, htaken, hworking, hspeed⟩
    exact ⟨c, i, ⟨hc, ⟨htaken, hworking⟩, hspeed⟩, rfl⟩

theorem nodup_freeCores (cores : List (Core α)) (a : Assignment) (except : Nat) (atLeast : α) :
    (freeCores cores a except atLeast).Nodup := by
  have hsub : (freeCores cores a except atLeast).Sublist (cores.zipIdx.map Prod.snd) :=
    (List.filter_sublist ..).map _
  refine hsub.nodup ?_
  rw [List.zipIdx_map_snd]
  exact List.nodup_range'

/-- There are at least as many free cores where fewer cores are taken and slower ones will do. -/
theorem length_freeCores_le {cores cores' : List (Core α)} (hmakeup : makeup cores' = makeup cores)
    {a a' : Assignment} {id : Nat} {x x' : α} (htaken : ∀ i ∈ taken a' id, i ∈ taken a id)
    (hspeed : ∀ c, x ≤ c → x' ≤ c) :
    (freeCores cores a id x).length ≤ (freeCores cores' a' id x').length := by
  apply (List.subperm_of_subset (nodup_freeCores cores a id x) ?_).length_le
  intro i hi
  obtain ⟨c, hc, hfree, hworking, hfast⟩ := mem_freeCores.mp hi
  obtain ⟨c', hc', hcapacity, hworking'⟩ := exists_of_makeup hmakeup hc
  refine mem_freeCores.mpr
    ⟨c', hc', fun hmem => hfree (htaken i hmem), hworking'.trans hworking, ?_⟩
  rw [hcapacity]
  exact hspeed c.capacity hfast

omit [Scalar α] in
/-- The positions of the free cores. -/
def idle (cores : List (Core α)) : List Nat :=
  (cores.zipIdx.filter fun c => c.1.isFree).map Prod.snd

omit [Scalar α] in
theorem mem_idle {cores : List (Core α)} {i : Nat} :
    i ∈ idle cores ↔ ∃ c, cores[i]? = some c ∧ c.isFree = true := by
  simp only [idle, List.mem_map, List.mem_filter, List.mem_zipIdx_iff_getElem?, Prod.exists]
  constructor
  · rintro ⟨c, j, hc, rfl⟩
    exact ⟨c, hc⟩
  · rintro ⟨c, hc⟩
    exact ⟨c, i, hc, rfl⟩

omit [Scalar α] in
theorem nodup_idle (cores : List (Core α)) : (idle cores).Nodup := by
  have hsub : (idle cores).Sublist (cores.zipIdx.map Prod.snd) := (List.filter_sublist ..).map _
  refine hsub.nodup ?_
  rw [List.zipIdx_map_snd]
  exact List.nodup_range'

omit [Scalar α] in
theorem length_idle (cores : List (Core α)) :
    (idle cores).length = (cores.filter (·.isFree)).length := by
  have hfilter : (cores.zipIdx.map Prod.fst).filter (·.isFree)
      = (cores.zipIdx.filter fun c => c.1.isFree).map Prod.fst := List.filter_map
  rw [List.zipIdx_map_fst] at hfilter
  rw [idle, List.length_map, hfilter, List.length_map]

/-! ## Busy cores -/

/-- The state of a core once it serves a machine. -/
def occupied : CoreStatus → CoreStatus
  | .failed => .failed
  | _ => .busy

section

variable [Std.Irrefl (α := α) (· < ·)]

theorem status_allocate (c : Core α) (amount : α) :
    (c.reserve.allocate amount).2.status = occupied c.status := by
  have hworking := congrArg Prod.snd (Core.profile_allocate c.reserve amount)
  simp only [Core.profile] at hworking
  unfold Core.allocate at hworking ⊢
  dsimp only at hworking ⊢
  cases hstatus : c.status with
  | failed =>
    -- a core that is out of order would have to work for anything to be taken from it
    have hreserve : c.reserve = c := by simp [Core.reserve, Core.isWorking, hstatus]
    rw [hreserve] at hworking ⊢
    split
    · rename_i htaken
      rw [if_pos htaken] at hworking
      simp [Core.isWorking, hstatus] at hworking
    · exact hstatus
  | free =>
    split
    · rfl
    · simp [Core.reserve, Core.isWorking, hstatus, occupied]
  | busy =>
    split
    · rfl
    · simp [Core.reserve, Core.isWorking, hstatus, occupied]

theorem statuses_serveCore (factor mips : α) (i : Nat) (cores : List (Core α)) :
    (serveCore factor mips i cores).2.map (·.status)
      = (cores.map (·.status)).modify i occupied := by
  unfold serveCore
  split
  · rename_i core hcore
    apply List.ext_getElem?
    intro j
    have hlt : i < cores.length := (List.getElem?_eq_some_iff.mp hcore).1
    rw [List.getElem?_modify, List.getElem?_map, List.getElem?_map, List.getElem?_set]
    by_cases hij : i = j
    · subst hij
      rw [if_pos rfl, if_pos hlt, hcore]
      simp [status_allocate]
    · simp [hij]
  · rename_i hnone
    rw [List.modify_eq_self]
    simpa using hnone

theorem getElem?_statuses_serve (factor : α) (demands : List (α × Nat)) (cores : List (Core α))
    (j : Nat) : ((serve factor demands cores).2.map (·.status))[j]?
      = (cores.map (·.status))[j]?.map
        fun s => if j ∈ demands.map Prod.snd then occupied s else s := by
  induction demands generalizing cores with
  | nil => simp [serve, Function.comp_def]
  | cons demand demands ih =>
    have hstep : (serve factor (demand :: demands) cores).2
        = (serve factor demands (serveCore factor demand.1 demand.2 cores).2).2 := rfl
    rw [hstep, ih, statuses_serveCore, List.getElem?_modify, Option.map_eq_map, Option.map_map]
    congr 1
    funext s
    -- serving a core twice is as good as serving it once
    have htwice : occupied (occupied s) = occupied s := by cases s <;> rfl
    simp only [Function.comp_apply, List.map_cons, List.mem_cons, eq_comm (a := j)]
    by_cases hfirst : demand.2 = j <;> by_cases hrest : j ∈ demands.map Prod.snd <;>
      simp only [hfirst, hrest, if_true, if_false, or_true, true_or, or_self, htwice]

/-- The positions of the cores that are served on behalf of some requests. -/
def served (a : Assignment) (requests : List (Nat × Request α)) : List Nat :=
  requests.flatMap fun e => (e.2.share.zip (assigned a e.1)).map Prod.snd

theorem getElem?_statuses_serveAll (ledger : Ledger α) (a : Assignment)
    (requests : List (Nat × Request α)) (allocations : IdMap (List α)) (cores : List (Core α))
    (j : Nat) : ((serveAll ledger a requests allocations cores).2.map (·.status))[j]?
      = (cores.map (·.status))[j]?.map
        fun s => if j ∈ served a requests then occupied s else s := by
  induction requests generalizing allocations cores with
  | nil => simp [serveAll, served, Function.comp_def]
  | cons request requests ih =>
    unfold serveAll
    rw [ih, getElem?_statuses_serve, Option.map_map]
    congr 1
    funext s
    have htwice : occupied (occupied s) = occupied s := by cases s <;> rfl
    have hserved : served a (request :: requests)
        = (request.2.share.zip (assigned a request.1)).map Prod.snd ++ served a requests := rfl
    simp only [Function.comp_apply, hserved, List.mem_append]
    by_cases hfirst : j ∈ (request.2.share.zip (assigned a request.1)).map Prod.snd <;>
      by_cases hrest : j ∈ served a requests <;>
      simp only [hfirst, hrest, if_true, if_false, or_true, true_or, or_self, htwice]

/-- After the shares have been computed a working core is busy if it is served and free if not. -/
theorem status_share {cores : List (Core α)} (ledger : Ledger α) (a : Assignment) {j : Nat}
    {c : Core α} (hc : (share cores ledger a).2[j]? = some c) :
    c.status = if c.isWorking then
      if j ∈ served a ledger.requests.toList then .busy else .free else .failed := by
  have hstatus := getElem?_statuses_serveAll ledger a ledger.requests.toList ∅
    (cores.map Core.reset) j
  rw [List.getElem?_map, show (serveAll ledger a ledger.requests.toList ∅
    (cores.map Core.reset)).2[j]? = some c from hc] at hstatus
  simp only [List.getElem?_map, Option.map_some] at hstatus
  obtain ⟨s, hs, hs'⟩ := Option.map_eq_some_iff.mp hstatus.symm
  obtain ⟨c₁, hc₁, rfl⟩ := Option.map_eq_some_iff.mp hs
  obtain ⟨c₀, -, rfl⟩ := Option.map_eq_some_iff.mp hc₁
  have hreset : c₀.reset.status = .free ∨ c₀.reset.status = .failed := by
    unfold Core.reset
    cases c₀.isWorking
    · exact .inr rfl
    · exact .inl rfl
  rw [Core.isWorking, ← hs']
  rcases hreset with hreset | hreset <;> rw [hreset] <;> split <;> simp [occupied]

end

/-! ## Admitted requests -/

/-- An admitted machine keeps its cores if they are as many as it asks for, and is given as many
free ones if they are not. -/
theorem admit?_outcome {cores : List (Core α)} {a a' : Assignment} {id : Nat} {requested : List α}
    (h : admit? cores a id requested = some a') :
    a' = a ∧ (a.find? id).map List.length = some requested.length
      ∨ requested.length ≤ (freeCores cores a id (Scalar.largest requested)).length
        ∧ a' = a.insert id
          ((freeCores cores a id (Scalar.largest requested)).take requested.length) := by
  unfold admit? at h
  split at h
  · cases h
    exact .inl ⟨rfl, ‹_›⟩
  · dsimp only at h
    split at h
    · contradiction
    · cases h
      exact .inr ⟨Nat.not_lt.mp ‹_›, rfl⟩

end SpaceShared

namespace Processor

open SpaceShared

variable {p q : Processor α} {a : Assignment} {vm : Vm α} {requested : List α}

/-- Only registered machines have cores, and as many as they have asked for. -/
def HoldsRequests (p : Processor α) : Prop :=
  ∀ a, p.discipline = .spaceShared a → ∀ id is, a.find? id = some is →
    ∃ r, p.ledger.requests.find? id = some r ∧ r.share.length = is.length

/-- Computing the shares anew ends the assignments of machines that are not registered. -/
theorem reshare_discipline (h : p.reshare.discipline = .spaceShared a) :
    ∃ a₀, p.discipline = .spaceShared a₀ ∧ a = a₀.filter fun id _ => p.ledger.contains id := by
  unfold reshare at h
  split at h
  · rename_i hd
    rw [show p.discipline = .spaceShared a from h] at hd
    contradiction
  · rename_i a₀ hd
    exact ⟨a₀, hd, (Discipline.spaceShared.inj h).symm⟩

theorem discipline_reshare (h : p.discipline = .spaceShared a) :
    p.reshare.discipline = .spaceShared (a.filter fun id _ => p.ledger.contains id) := by
  unfold reshare
  rw [h]

theorem holdsRequests_reshare (h : ∀ a, p.discipline = .spaceShared a → ∀ id is r,
    a.find? id = some is → p.ledger.requests.find? id = some r → r.share.length = is.length) :
    p.reshare.HoldsRequests := by
  intro a ha id is his
  obtain ⟨a₀, ha₀, rfl⟩ := reshare_discipline ha
  rw [IdMap.find?_filter, Option.filter_eq_some_iff] at his
  obtain ⟨r, hr⟩ := IdMap.contains_iff.mp his.2
  rw [reshare_ledger]
  exact ⟨r, hr, h a₀ ha₀ id is r his.1 hr⟩

/-- Under space sharing the assignment decides about an admission. -/
theorem admit?_of_admission? (h : p.admission? vm requested = some (.spaceShared a)) :
    ∃ a₀, p.discipline = .spaceShared a₀
      ∧ SpaceShared.admit? p.cores a₀ vm.id requested = some a := by
  unfold admission? at h
  split at h
  · split at h <;> cases h
  · rename_i a₀ ha₀
    obtain ⟨a', ha', hsame⟩ := Option.map_eq_some_iff.mp h
    obtain rfl := Discipline.spaceShared.inj hsame
    exact ⟨a₀, ha₀, ha'⟩

theorem admission?_of_spaceShared {discipline : Discipline} (hd : p.discipline = .spaceShared a)
    (h : p.admission? vm requested = some discipline) :
    ∃ a', discipline = .spaceShared a' ∧
      SpaceShared.admit? p.cores a vm.id requested = some a' := by
  unfold admission? at h
  rw [hd] at h
  obtain ⟨a', hgranted, rfl⟩ := Option.map_eq_some_iff.mp h
  exact ⟨a', rfl, hgranted⟩

theorem holdsRequests_of_reachable (hp : p.Reachable) : p.HoldsRequests := by
  refine hp.invariant (motive := HoldsRequests) ?_ ?_ ?_ ?_
  · intro capacities discipline overhead unassigned _ a ha
    rcases unassigned with rfl | rfl
    · contradiction
    · cases ha
      exact fun _ _ his => nomatch his
  · intro p vm requested discipline hp hadmission
    refine holdsRequests_reshare fun a ha id is r his hr => ?_
    have hr : (p.ledger.requests.insert vm.id ⟨requested, vm.isMigrating⟩).find? id = some r := hr
    rw [IdMap.find?_insert] at hr
    obtain ⟨a₀, ha₀, hgranted⟩ := admit?_of_admission? (hadmission.trans (congrArg some ha))
    have hother : a₀.find? id = some is → id ≠ vm.id → r.share.length = is.length := by
      intro his hid
      rw [if_neg hid] at hr
      obtain ⟨r', hr', hlength⟩ := hp a₀ ha₀ id is his
      obtain rfl := Option.some.inj (hr.symm.trans hr')
      exact hlength
    rcases admit?_outcome hgranted with ⟨rfl, hsame⟩ | ⟨henough, rfl⟩
    · by_cases hid : id = vm.id
      · rw [if_pos hid] at hr
        cases hr
        rw [← hid, his] at hsame
        exact (Option.some.inj hsame).symm
      · exact hother his hid
    · rw [IdMap.find?_insert] at his
      by_cases hid : id = vm.id
      · rw [if_pos hid] at hr his
        cases hr
        cases his
        rw [List.length_take, Nat.min_eq_left henough]
      · rw [if_neg hid] at his
        exact hother his hid
  · intro p l hp _ hsame
    refine holdsRequests_reshare fun a ha id is r his hr => ?_
    obtain ⟨r', hr', hshare⟩ := hsame id r hr
    obtain ⟨r'', hr'', hlength⟩ := hp a ha id is his
    obtain rfl := Option.some.inj (hr'.symm.trans hr'')
    rw [hshare, hlength]
  · intro p i hp
    refine holdsRequests_reshare fun a ha id is r his hr => ?_
    obtain ⟨r', hr', hlength⟩ := hp a ha id is his
    obtain rfl := Option.some.inj (hr.symm.trans hr')
    exact hlength

omit [Scalar α] in
/-- The cores on which the machines are served are those that belong to them. -/
theorem mem_served_iff (hp : p.HoldsRequests) (hd : p.discipline = .spaceShared a) {i : Nat} :
    i ∈ served a p.ledger.requests.toList ↔ i ∈ held a := by
  constructor
  · intro hi
    obtain ⟨e, -, hi⟩ := List.mem_flatMap.mp hi
    obtain ⟨d, hd, rfl⟩ := List.mem_map.mp hi
    obtain ⟨is, his, hi⟩ := mem_assigned_iff.mp (List.of_mem_zip hd).2
    exact mem_held_iff.mpr ⟨e.1, is, his, hi⟩
  · intro hi
    obtain ⟨id, is, his, hi⟩ := mem_held_iff.mp hi
    obtain ⟨r, hr, hlength⟩ := hp a hd id is his
    -- a machine is served on all of its cores, since they are as many as it has asked for
    refine List.mem_flatMap.mpr ⟨(id, r), IdMap.find?_eq_some_iff.mp hr, ?_⟩
    rw [show assigned a id = is by rw [assigned, his]; rfl,
      List.map_snd_zip (Nat.le_of_eq hlength.symm)]
    exact hi

section

variable [Std.Irrefl (α := α) (· < ·)]

/-- Only registered machines have cores on a reachable processor, and the shares are up to date. -/
theorem share_of_reachable (hp : p.Reachable) (hd : p.discipline = .spaceShared a) :
    SpaceShared.share p.cores p.ledger a = (p.allocations, p.cores) := by
  have hcurrent := reshare_of_reachable hp
  have hfilter : a.filter (fun id _ => p.ledger.contains id) = a := by
    have hdiscipline := discipline_reshare hd
    rw [hcurrent, hd] at hdiscipline
    exact (Discipline.spaceShared.inj hdiscipline).symm
  unfold reshare at hcurrent
  rw [hd] at hcurrent
  dsimp only at hcurrent
  rw [hfilter] at hcurrent
  exact Prod.ext (congrArg allocations hcurrent) (congrArg cores hcurrent)

/-- A working core is busy if it belongs to a machine and free if it does not. -/
theorem status_of_reachable (hp : p.Reachable) (hd : p.discipline = .spaceShared a) {i : Nat}
    {c : Core α} (hc : p.cores[i]? = some c) :
    c.status = if c.isWorking then if i ∈ held a then .busy else .free else .failed := by
  have hcore : (share p.cores p.ledger a).2[i]? = some c := by
    rw [share_of_reachable hp hd]
    exact hc
  have hstatus := status_share p.ledger a hcore
  simpa only [mem_served_iff (holdsRequests_of_reachable hp) hd] using hstatus

/-- A free core works and belongs to no machine. -/
theorem not_held_of_isFree (hp : p.Reachable) (hd : p.discipline = .spaceShared a) {i : Nat}
    {c : Core α} (hc : p.cores[i]? = some c) (hfree : c.isFree = true) :
    c.isWorking = true ∧ i ∉ held a := by
  have hfree : c.status = .free := by simpa [Core.isFree] using hfree
  refine ⟨by simp [Core.isWorking, hfree], fun hi => ?_⟩
  have hstatus := status_of_reachable hp hd hc
  rw [hfree, if_pos hi] at hstatus
  split at hstatus <;> contradiction

end

/-! ## Machines that are expected -/

theorem markArriving_discipline (hd : p.discipline = .spaceShared a) (id : Nat) :
    ∃ a', (p.markArriving id).discipline = .spaceShared a'
      ∧ ∀ k is, a'.find? k = some is → a.find? k = some is := by
  unfold markArriving
  split
  · exact ⟨a, hd, fun _ _ h => h⟩
  · refine ⟨_, discipline_reshare hd, fun k is his => ?_⟩
    rw [IdMap.find?_filter, Option.filter_eq_some_iff] at his
    exact his.1

theorem markArriving_timeShared (hd : p.discipline = .timeShared) (id : Nat) :
    (p.markArriving id).discipline = .timeShared := by
  unfold markArriving withLedger reshare
  split <;> simp [hd]

/-- A machine whose peak request the cores can serve is admitted with any fraction of it, also once
it is flagged as arriving. -/
theorem isSome_admission? [LawfulScalar α] (hsuitable : p.isSuitable vm = true)
    (hcount : vm.vcpus ≤ p.workingCount) (hspeed : 0 ≤ vm.speed) {vm' : Vm α}
    (hid : vm'.id = vm.id) (hvcpus : vm'.vcpus = vm.vcpus) (time : α) :
    ((p.markArriving vm.id).admission? vm' (vm.request time)).isSome = true := by
  have hmakeup := makeup_markArriving p vm.id
  have hlength : (vm.request time).length = vm.vcpus := List.length_replicate
  cases hd : p.discipline with
  | timeShared =>
    have hworking : (Core.working (p.markArriving vm.id).cores).length = p.workingCount :=
      workingCount_congr hmakeup
    have hadmits : TimeShared.admits (p.markArriving vm.id).cores vm' (vm.request time) = true := by
      simp [TimeShared.admits, hworking, hlength, hvcpus, hcount]
    simp [admission?, markArriving_timeShared hd, hadmits]
  | spaceShared a =>
    obtain ⟨a', hd', hsub⟩ := markArriving_discipline hd vm.id
    simp only [isSuitable, hd, SpaceShared.isSuitable, decide_eq_true_eq] at hsuitable
    have htaken : ∀ i ∈ taken a' vm.id, i ∈ taken a vm.id := by
      intro i hi
      obtain ⟨k, is, his, hk, hi⟩ := mem_taken_iff.mp hi
      exact mem_taken_iff.mpr ⟨k, is, hsub k is his, hk, hi⟩
    have hslower : ∀ c, vm.speed ≤ c → Scalar.largest (vm.request time) ≤ c := fun c hc =>
      Scalar.largest_replicate_le hspeed hc
    have hfree := length_freeCores_le hmakeup htaken hslower
    have hgranted : (SpaceShared.admit? (p.markArriving vm.id).cores a' vm'.id
        (vm.request time)).isSome = true := by
      unfold SpaceShared.admit?
      split
      · rfl
      · dsimp only
        rw [hlength, hid, if_neg (Nat.not_lt.mpr (Nat.le_trans hsuitable hfree))]
        rfl
    simp [admission?, hd', hgranted]

/-- An admitted machine takes no more cores than it asks for. -/
theorem held_admit? (hgranted : p.admit? vm requested = some q)
    (hd : p.discipline = .spaceShared a) :
    ∃ (a' : Assignment) (extra : List Nat), q.discipline = .spaceShared a'
      ∧ extra.length ≤ requested.length ∧ ∀ i ∈ held a', i ∈ held a ∨ i ∈ extra := by
  obtain ⟨discipline, hadmission, rfl⟩ := Option.map_eq_some_iff.mp hgranted
  obtain ⟨a₁, rfl, ha₁⟩ := admission?_of_spaceShared hd hadmission
  obtain ⟨extra, hlength, hextra⟩ : ∃ extra : List Nat, extra.length ≤ requested.length
      ∧ ∀ i ∈ held a₁, i ∈ held a ∨ i ∈ extra := by
    rcases admit?_outcome ha₁ with ⟨rfl, -⟩ | ⟨-, rfl⟩
    · exact ⟨[], Nat.zero_le _, fun _ hi => .inl hi⟩
    · refine ⟨(freeCores p.cores a vm.id (Scalar.largest requested)).take requested.length,
        List.length_take_le _ _, fun i hi => ?_⟩
      obtain ⟨k, is, his, hi⟩ := mem_held_iff.mp hi
      rw [IdMap.find?_insert] at his
      split at his
      · cases his
        exact .inr hi
      · exact .inl (mem_held_iff.mpr ⟨k, is, his, hi⟩)
  refine ⟨_, extra, discipline_reshare rfl, hlength, fun i hi => hextra i ?_⟩
  obtain ⟨k, is, his, hi⟩ := mem_held_iff.mp hi
  rw [IdMap.find?_filter, Option.filter_eq_some_iff] at his
  exact mem_held_iff.mpr ⟨k, is, his.1, hi⟩

end Processor

end Datacenter
