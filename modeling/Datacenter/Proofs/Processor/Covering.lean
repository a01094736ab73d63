import Datacenter.Proofs.Processor.Isolation
import Datacenter.Proofs.Threshold

/-!
# Cores that cover a request

Under space sharing a virtual core is served by one core. What it is given is its request, less the
overhead if the machine is migrating, but no more than the capacity of the core allows
(`SpaceShared.given_of_working`). This holds of rounded numbers as well, since all of the core is
there to give and a fraction of the request does not exceed it.

`Processor.allocatedTo_of_dedicated` says it of a whole machine, all virtual cores of which ask for
the same. Nothing is cut off if all of its cores are fast enough (`Processor.allocatedTo_of_fast`).
-/

namespace Datacenter

variable {α : Type} [Scalar α] [FractionScalar α]

open Scalar

/-- A number of the interval is not moved. -/
theorem Scalar.clamp_eq_self {x lo hi : α} (hlo : lo ≤ x) (hhi : x ≤ hi) : clamp x lo hi = x := by
  have hnot : ¬ x < lo := FractionScalar.not_lt_of_le hlo
  have hnot' : ¬ hi < x := FractionScalar.not_lt_of_le hhi
  unfold clamp
  rw [if_neg hnot, if_neg hnot']

/-- A value is moved into the interval. -/
theorem Scalar.clamp_bounds {x lo hi : α} (hx : (x == x) = true) (hlo : (lo == lo) = true)
    (hle : lo ≤ hi) : lo ≤ clamp x lo hi ∧ clamp x lo hi ≤ hi := by
  have hhi := OrderedScalar.beq_of_le hle
  have hself : ∀ {y : α}, (y == y) = true → y ≤ y := fun hy =>
    FractionScalar.le_of_not_lt hy hy (Std.Irrefl.irrefl _)
  -- the number itself, or the lower end in its place
  obtain ⟨y, hy, hylo, hyclamp⟩ : ∃ y : α, (y == y) = true ∧ lo ≤ y
      ∧ clamp x lo hi = if hi < y then hi else y := by
    by_cases hlt : x < lo
    · exact ⟨lo, hlo, hself hlo, by rw [clamp, if_pos hlt]⟩
    · exact ⟨x, hx, FractionScalar.le_of_not_lt hx hlo hlt, by rw [clamp, if_neg hlt]⟩
  rw [hyclamp]
  split
  · exact ⟨hle, hself hhi⟩
  · exact ⟨hylo, FractionScalar.le_of_not_lt hhi hy ‹_›⟩

/-- An amount that is bounded by a capacity is the smaller one of the two. -/
theorem Scalar.clamp_zero_eq_smaller {x c : α} (hx : 0 ≤ x) : clamp x 0 c = smaller x c := by
  unfold clamp smaller
  rw [if_neg (FractionScalar.not_lt_of_le hx), OrderedScalar.beq_of_le hx, Bool.not_true,
    Bool.or_false]
  simp only [decide_eq_true_eq]

theorem Scalar.smaller_bounds {x c : α} (hx : 0 ≤ x) (hc : 0 ≤ c) :
    0 ≤ smaller x c ∧ smaller x c ≤ x ∧ smaller x c ≤ c := by
  have hxvalue := OrderedScalar.beq_of_le hx
  have hcvalue := OrderedScalar.beq_of_le hc
  rw [← clamp_zero_eq_smaller hx, clamp, if_neg (FractionScalar.not_lt_of_le hx)]
  split
  · rename_i hlt
    exact ⟨hc, OrderedScalar.le_of_lt hlt,
      FractionScalar.le_of_not_lt hcvalue hcvalue (Std.Irrefl.irrefl c)⟩
  · rename_i hnot
    exact ⟨hx, FractionScalar.le_of_not_lt hxvalue hxvalue (Std.Irrefl.irrefl x),
      FractionScalar.le_of_not_lt hcvalue hxvalue hnot⟩

theorem Scalar.smaller_eq_left {x c : α} (hx : 0 ≤ x) (hle : x ≤ c) : smaller x c = x := by
  rw [← clamp_zero_eq_smaller hx, clamp_eq_self hx hle]

/-- An idle core gives any amount that does not exceed its capacity. -/
theorem Core.fst_allocate_of_le {c : Core α} (hworking : c.isWorking = true)
    (hidle : c.allocated = 0) {amount : α} (hamount : 0 ≤ amount) (hle : amount ≤ c.capacity) :
    (c.allocate amount).1 = amount := by
  have hcapacity : 0 ≤ c.capacity := LawfulScalar.le_trans hamount hle
  have hvalue := OrderedScalar.beq_of_le hamount
  have havailable : c.available = c.capacity := by
    rw [available, if_pos hworking, hidle, FractionScalar.sub_zero hcapacity, larger,
      OrderedScalar.beq_of_le hcapacity, decide_eq_false (FractionScalar.not_lt_of_le hcapacity)]
    rfl
  have hsmaller : smaller amount c.available = amount := by
    rw [smaller, havailable, hvalue, decide_eq_false (FractionScalar.not_lt_of_le hle)]
    rfl
  have hlarger : larger amount 0 = amount := by
    rw [larger, hvalue, decide_eq_false (FractionScalar.not_lt_of_le hamount)]
    rfl
  unfold allocate
  dsimp only
  rw [hsmaller, hlarger]
  split <;> rfl

/-- The share of a machine that the overhead leaves is a fraction. -/
theorem Ledger.factor_bounds {l : Ledger α} {parameter : Parameter}
    (hl : checkFraction parameter l.overhead = .ok l.overhead) (id : Nat) :
    0 ≤ l.factor id ∧ l.factor id ≤ 1 := by
  obtain ⟨-, hlow, hhigh⟩ := (checkFraction_eq_ok.mp hl).1
  have hone := FractionScalar.zero_le_one (α := α)
  have hvalue := OrderedScalar.beq_of_le hone
  unfold factor
  split
  · exact FractionScalar.complement_bounds hlow hhigh
  · exact ⟨hone, FractionScalar.le_of_not_lt hvalue hvalue (Std.Irrefl.irrefl 1)⟩

namespace SpaceShared

/-- What a working core gives is the request up to its capacity, less the overhead. -/
theorem given_of_working {cores : List (Core α)} {i : Nat} {c : Core α} (hc : cores[i]? = some c)
    (hworking : c.isWorking = true) (hcapacity : 0 ≤ c.capacity) {mips factor : α}
    (hfinite : isFinite mips = true) (hnonneg : 0 ≤ mips) (hfactor : 0 ≤ factor ∧ factor ≤ 1) :
    (serveCore factor mips i (cores.map Core.reset)).1 = smaller mips c.capacity * factor := by
  obtain ⟨hlow, hrequest, hspeed⟩ := smaller_bounds hnonneg hcapacity
  obtain ⟨hgiven, hless⟩ := FractionScalar.mul_bounds
    (FractionScalar.isFinite_of_le hfinite hlow hrequest) hlow hfactor.1 hfactor.2
  have hreset : c.reset.isWorking = true := (congrArg Prod.snd c.profile_reset).trans hworking
  have hreserve : c.reset.reserve = { c.reset with status := .busy } := if_pos hreset
  have hclamp : clamp mips 0 c.reset.capacity = smaller mips c.capacity :=
    clamp_zero_eq_smaller hnonneg
  unfold serveCore
  rw [List.getElem?_map, hc]
  show (c.reset.reserve.allocate (clamp mips 0 c.reset.capacity * factor)).1 = _
  rw [hclamp, hreserve]
  exact Core.fst_allocate_of_le rfl rfl hgiven (LawfulScalar.le_trans hless hspeed)

/-- Virtual cores that all ask for the same are each given what their core has of it. -/
theorem givenEach_replicate {cores : List (Core α)} {x factor : α} (hfinite : isFinite x = true)
    (hnonneg : 0 ≤ x) (hfactor : 0 ≤ factor ∧ factor ≤ 1) {is : List Nat}
    (his : ∀ i ∈ is, ∃ c, cores[i]? = some c ∧ c.isWorking = true ∧ 0 ≤ c.capacity) :
    (is.filterMap (cores[·]?)).length = is.length
      ∧ givenEach factor ((List.replicate is.length x).zip is) (cores.map Core.reset)
        = (is.filterMap (cores[·]?)).map fun c => smaller x c.capacity * factor := by
  induction is with
  | nil => exact ⟨rfl, rfl⟩
  | cons i is ih =>
    obtain ⟨c, hc, hworking, hcapacity⟩ := his i List.mem_cons_self
    obtain ⟨hlength, hgiven⟩ := ih fun j hj => his j (List.mem_cons_of_mem i hj)
    rw [List.filterMap_cons_some hc]
    refine ⟨by rw [List.length_cons, hlength, List.length_cons], ?_⟩
    rw [List.length_cons, List.replicate_succ, List.zip_cons_cons, List.map_cons, ← hgiven,
      ← given_of_working hc hworking hcapacity hfinite hnonneg hfactor]
    rfl

end SpaceShared

/-! ## Machines with cores of their own -/

namespace Processor

omit [Scalar α] [FractionScalar α] in
/-- The positions of the cores that belong to a machine. -/
def placesOf (p : Processor α) (id : Nat) : List Nat :=
  SpaceShared.assigned p.discipline.assignment id

omit [Scalar α] [FractionScalar α] in
/-- The cores that belong to a machine. -/
def coresOf (p : Processor α) (id : Nat) : List (Core α) :=
  (p.placesOf id).filterMap (p.cores[·]?)

omit [Scalar α] [FractionScalar α] in
theorem mem_coresOf {p : Processor α} {id : Nat} {c : Core α} :
    c ∈ p.coresOf id ↔ ∃ i ∈ p.placesOf id, p.cores[i]? = some c :=
  List.mem_filterMap

/-- A machine of which all virtual cores ask for the same receives from each of its cores what this
core has of it, less the overhead. -/
theorem allocatedTo_of_dedicated {p : Processor α} (hp : p.Reachable)
    (hdedicated : p.isDedicated = true) {id count : Nat} {x : α} {migrating : Bool}
    (hrequest : p.ledger.requests.find? id = some ⟨List.replicate count x, migrating⟩)
    (hfinite : isFinite x = true) (hnonneg : 0 ≤ x)
    (hworking : ∀ c ∈ p.coresOf id, c.isWorking = true) :
    (p.coresOf id).length = count
      ∧ p.allocatedTo id
        = (p.coresOf id).map fun c => smaller x c.capacity * p.ledger.factor id := by
  obtain ⟨a, ha⟩ := discipline_of_dedicated hdedicated
  have hdedicates := dedicates_of_reachable hp ha
  have hregistered : a.contains id = true :=
    (hdedicates.registered id).trans (IdMap.contains_iff.mpr ⟨_, hrequest⟩)
  obtain ⟨is, his⟩ := IdMap.contains_iff.mp hregistered
  have hlength : is.length = count :=
    (hdedicates.length id is _ his hrequest).trans List.length_replicate
  have hplaces : p.placesOf id = is := by
    rw [placesOf, ha, Discipline.assignment, SpaceShared.assigned, his, Option.getD_some]
  have hcores : ∀ i ∈ is, ∃ c, p.cores[i]? = some c ∧ c.isWorking = true ∧ 0 ≤ c.capacity := by
    intro i hi
    obtain ⟨c, hc, hcapacity⟩ := (assigns_of_reachable hp ha).inRange id is his i hi
    exact ⟨c, hc, hworking c (mem_coresOf.mpr ⟨i, hplaces ▸ hi, hc⟩), hcapacity⟩
  obtain ⟨hcount, hgiven⟩ := SpaceShared.givenEach_replicate hfinite hnonneg
    (Ledger.factor_bounds hp.overhead id) hcores
  have hassigned : SpaceShared.assigned a id = is := by
    rw [SpaceShared.assigned, his, Option.getD_some]
  rw [coresOf, hplaces, allocatedTo, allocations_of_reachable hp ha, hrequest, Option.map_some,
    Option.getD_some, hassigned, ← hlength]
  exact ⟨hcount, hgiven⟩

/-- A machine all cores of which are fast enough receives all that it asks for, less the
overhead. -/
theorem allocatedTo_of_fast {p : Processor α} (hp : p.Reachable)
    (hdedicated : p.isDedicated = true) {id count : Nat} {x : α} {migrating : Bool}
    (hrequest : p.ledger.requests.find? id = some ⟨List.replicate count x, migrating⟩)
    (hfinite : isFinite x = true) (hnonneg : 0 ≤ x)
    (hfast : ∀ c ∈ p.coresOf id, c.isWorking = true ∧ x ≤ c.capacity) :
    p.allocatedTo id = (List.replicate count x).map (· * p.ledger.factor id) := by
  obtain ⟨hlength, hallocated⟩ := allocatedTo_of_dedicated hp hdedicated hrequest hfinite hnonneg
    fun c hc => (hfast c hc).1
  have hall : ∀ c ∈ p.coresOf id,
      smaller x c.capacity * p.ledger.factor id = x * p.ledger.factor id := fun c hc => by
    rw [smaller_eq_left hnonneg (hfast c hc).2]
  rw [hallocated, List.map_congr_left hall, List.map_const', hlength, List.map_replicate]

end Processor

end Datacenter
