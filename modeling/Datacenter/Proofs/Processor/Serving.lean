import Datacenter.Proofs.Host.Load
import Datacenter.Proofs.Processor.LayingOut
import Datacenter.Proofs.Scalar
import Datacenter.Proofs.Sharing
import Mathlib.Algebra.BigOperators.Ring.List

/-!
# What time sharing serves

The *entitlement* of a ledger is what its machines are to receive together as long as there is
enough for all of them: each virtual core what it asks for, but no more than the fastest core can
give, and less the overhead if the machine is migrating.

Over exact numbers, and as long as the requests on a reachable processor fit together, its shares
are known well enough to say what is left on the cores (`Processor.Serves`). What is known of them
in general is that they are not negative and fit into the capacity (`TimeShared.shares_bounds`).
-/

namespace Datacenter

open Scalar

/-! ## Demands -/

/-- What a machine demands where the fastest core has a speed. -/
def Request.demanded (r : Request ℚ) (fastest : ℚ) : ℚ :=
  (r.share.map (clamp · 0 fastest)).sum

namespace TimeShared

/-- A virtual core demands something between nothing and all that it asks for. -/
theorem clamp_bounds {x fastest : ℚ} (hx : 0 ≤ x) (hfastest : 0 ≤ fastest) :
    0 ≤ clamp x 0 fastest ∧ clamp x 0 fastest ≤ x := by
  rw [Rational.clamp_eq, max_eq_right hx]
  exact ⟨le_min hfastest hx, min_le_right _ _⟩

theorem demanded_bounds {r : Request ℚ} {fastest : ℚ} (hr : ∀ x ∈ r.share, 0 ≤ x)
    (hfastest : 0 ≤ fastest) : 0 ≤ r.demanded fastest ∧ r.demanded fastest ≤ r.share.sum := by
  constructor
  · exact List.sum_nonneg <| List.forall_mem_map.mpr fun x hx =>
      (clamp_bounds (hr x hx) hfastest).1
  · have hle := List.sum_le_sum fun x hx => (clamp_bounds (hr x hx) hfastest).2
    rwa [List.map_id'] at hle

/-- The demands of all virtual cores, each weighed by its owner, are the demands of their owners. -/
theorem sum_demands (cores : List (Core ℚ)) (l : Ledger ℚ) (weight : Nat → ℚ) :
    ((demands cores l).map fun d => d.2 * weight d.1).sum
      = (l.requests.toList.map fun e => e.2.demanded (fastest cores) * weight e.1).sum := by
  rw [demands, List.map_flatMap, List.flatMap_def, List.sum_flatten, List.map_map]
  congr 1
  apply List.map_congr_left
  intro e _
  show ((e.2.share.map fun x => (e.1, clamp x 0 (fastest cores))).map
    fun d => d.2 * weight d.1).sum = _
  rw [List.map_map, Request.demanded, ← List.sum_map_mul_right]
  rfl

end TimeShared

/-! ## Entitlements -/

namespace Ledger

/-- What the machines are to receive together if there is enough for all of them. -/
def entitlement (l : Ledger ℚ) (fastest : ℚ) : ℚ :=
  (l.requests.toList.map fun e => e.2.demanded fastest * l.factor e.1).sum

/-- No machine asks for less than nothing, and a migrating one loses a fraction of its share. -/
structure IsProper (l : Ledger ℚ) : Prop where
  requests : ∀ e ∈ l.requests.toList, ∀ x ∈ e.2.share, 0 ≤ x
  overhead : 0 ≤ l.overhead ∧ l.overhead ≤ 1

variable {l : Ledger ℚ}

theorem factor_nonneg (hoverhead : l.overhead ≤ 1) (id : Nat) : 0 ≤ l.factor id := by
  unfold factor
  split
  · show (0 : ℚ) ≤ 1 - l.overhead
    linarith
  · exact zero_le_one' ℚ

theorem factor_le_one (hoverhead : 0 ≤ l.overhead) (id : Nat) : l.factor id ≤ 1 := by
  unfold factor
  split
  · show 1 - l.overhead ≤ (1 : ℚ)
    linarith
  · exact le_refl (1 : ℚ)

end Ledger

namespace TimeShared

variable {l : Ledger ℚ}

theorem demands_nonneg (cores : List (Core ℚ)) (l : Ledger ℚ) : ∀ d ∈ demands cores l, 0 ≤ d.2 := by
  intro d hd
  obtain ⟨e, -, hd⟩ := List.mem_flatMap.mp hd
  obtain ⟨x, -, rfl⟩ := List.mem_map.mp hd
  rw [Rational.clamp_eq]
  exact le_min (zero_le_largest _) (le_max_left 0 x)

theorem sum_demands_le (hl : l.IsProper) (cores : List (Core ℚ)) :
    ((demands cores l).map Prod.snd).sum ≤ l.total := by
  have hsum := sum_demands cores l fun _ => 1
  simp only [mul_one] at hsum
  rw [hsum, Ledger.total_eq]
  exact List.sum_le_sum fun e he =>
    (demanded_bounds (hl.requests e he) (zero_le_largest _)).2

/-- As long as there is enough for all, every virtual core is to have its demand, less the
overhead. -/
theorem entitlements_eq (hl : l.IsProper) {cores : List (Core ℚ)}
    (hfits : l.total ≤ capacity cores) :
    entitlements cores l = (demands cores l).map fun d => (d.1, d.2 * l.factor d.1) := by
  have hshares : shareCapacity ((demands cores l).map Prod.snd) (capacity cores)
      = (demands cores l).map Prod.snd := by
    unfold shareCapacity
    rw [Rational.sum_eq]
    exact if_pos ((sum_demands_le hl cores).trans hfits)
  unfold entitlements
  dsimp only
  rw [hshares, List.zipWith_map_right, List.zipWith_self]

theorem sum_entitlements (hl : l.IsProper) {cores : List (Core ℚ)}
    (hfits : l.total ≤ capacity cores) :
    ((entitlements cores l).map Prod.snd).sum = l.entitlement (fastest cores) := by
  rw [entitlements_eq hl hfits, List.map_map]
  exact sum_demands cores l l.factor

/-- What the virtual cores are to receive before the overhead is taken off. -/
def shares (cores : List (Core ℚ)) (l : Ledger ℚ) : List ℚ :=
  shareCapacity ((demands cores l).map Prod.snd) (capacity cores)

theorem shares_bounds (cores : List (Core ℚ)) (l : Ledger ℚ) :
    (∀ s ∈ shares cores l, 0 ≤ s) ∧ (shares cores l).sum ≤ max (capacity cores) 0 :=
  shareCapacity_bounds (List.forall_mem_map.mpr (demands_nonneg cores l)) (capacity cores)

theorem entitlements_eq_map (cores : List (Core ℚ)) (l : Ledger ℚ) :
    entitlements cores l = ((demands cores l).zip (shares cores l)).map
      fun x => (x.1.1, x.2 * l.factor x.1.1) :=
  List.map_uncurry_zip_eq_zipWith.symm

theorem mem_entitlements {cores : List (Core ℚ)} {d : Nat × ℚ} (hd : d ∈ entitlements cores l) :
    d.1 ∈ l.requests.keys ∧ ∃ s ∈ shares cores l, d.2 = s * l.factor d.1 := by
  rw [entitlements_eq_map] at hd
  obtain ⟨⟨a, share⟩, hmem, rfl⟩ := List.mem_map.mp hd
  obtain ⟨e, he, ha⟩ := List.mem_flatMap.mp (List.of_mem_zip hmem).1
  obtain ⟨x, -, rfl⟩ := List.mem_map.mp ha
  exact ⟨List.mem_map_of_mem he, share, (List.of_mem_zip hmem).2, rfl⟩

theorem entitlements_nonneg (hoverhead : l.overhead ≤ 1) (cores : List (Core ℚ)) :
    ∀ d ∈ entitlements cores l, 0 ≤ d.2 := by
  intro d hd
  obtain ⟨-, s, hs, hshare⟩ := mem_entitlements hd
  rw [hshare]
  exact mul_nonneg ((shares_bounds cores l).1 s hs) (Ledger.factor_nonneg hoverhead d.1)

/-! ## Shares -/

/-- What is put down for each of some keys is all that there is, if nothing has another key. -/
theorem sum_groups {keys : List Nat} (hnodup : keys.Nodup) {amounts : List (Nat × ℚ)}
    (hkeys : ∀ a ∈ amounts, a.1 ∈ keys) :
    (keys.map fun k => ((amounts.filter (·.1 == k)).map Prod.snd).sum).sum
      = (amounts.map Prod.snd).sum := by
  induction amounts with
  | nil => simp
  | cons a amounts ih =>
    obtain ⟨ha, hamounts⟩ := List.forall_mem_cons.mp hkeys
    have hgroup : ∀ k, (((a :: amounts).filter (·.1 == k)).map Prod.snd).sum
        = (if k = a.1 then a.2 else 0) + ((amounts.filter (·.1 == k)).map Prod.snd).sum := by
      intro k
      rw [List.filter_cons]
      by_cases h : a.1 = k
      · simp [h]
      · simp [h, Ne.symm h]
    have hone := List.sum_map_ite_eq keys (fun _ => a.2) (fun _ => (0 : ℚ)) a.1
    rw [hnodup.count, if_pos ha] at hone
    simp only [hgroup]
    rw [List.sum_map_add, ih hamounts, hone]
    simp

/-- All machines together have received what has been laid out. -/
theorem sum_share (cores : List (Core ℚ)) (l : Ledger ℚ) :
    sum ((share cores l).1.values.map sum)
      = ((layOut (entitlements cores l) (cores.map Core.reset)).1.map Prod.snd).sum := by
  have hkeys : ∀ a ∈ (layOut (entitlements cores l) (cores.map Core.reset)).1,
      a.1 ∈ l.requests.keys := by
    intro a ha
    have hmem := List.mem_map_of_mem (f := Prod.fst) ha
    rw [map_fst_layOut] at hmem
    obtain ⟨d, hd, hfst⟩ := List.mem_map.mp hmem
    exact hfst ▸ (mem_entitlements hd).1
  rw [← sum_groups l.requests.nodup_keys hkeys, Rational.sum_eq]
  unfold share IdMap.values IdMap.map IdMap.keys
  dsimp only
  rw [List.map_map, List.map_map, List.map_map]
  congr 1
  apply List.map_congr_left
  intro e _
  exact Rational.sum_eq _

/-- A core that has taken everything back has its capacity to give, if it works and has one. -/
theorem available_reset (c : Core ℚ) :
    c.reset.available = if c.isWorking then max c.capacity 0 else 0 := by
  have hreset : c.reset.isWorking = c.isWorking := congrArg Prod.snd c.profile_reset
  rw [Core.available_eq, hreset]
  show (if c.isWorking then max (c.capacity - 0) 0 else 0) = _
  rw [sub_zero]

/-- What is on idle cores is no less than their capacity. -/
theorem capacity_le_room_reset (cores : List (Core ℚ)) :
    max (capacity cores) 0 ≤ room (cores.map Core.reset) := by
  have hnonneg : 0 ≤ room (cores.map Core.reset) :=
    List.sum_nonneg <| List.forall_mem_map.mpr fun c _ => c.available_nonneg
  refine max_le ?_ hnonneg
  clear hnonneg
  rw [capacity, Rational.sum_eq]
  induction cores with
  | nil => exact le_refl (0 : ℚ)
  | cons c cores ih =>
    rw [List.map_cons, room_cons, available_reset, Core.working, List.filter_cons, ← Core.working]
    split
    · exact add_le_add (le_max_left _ _) ih
    · rwa [zero_add]

/-- What is on idle cores is their capacity. -/
theorem room_reset {cores : List (Core ℚ)} (hcores : ∀ c ∈ cores, 0 ≤ c.capacity) :
    room (cores.map Core.reset) = capacity cores := by
  rw [capacity, Rational.sum_eq]
  induction cores with
  | nil => rfl
  | cons c cores ih =>
    obtain ⟨hc, hcores⟩ := List.forall_mem_cons.mp hcores
    rw [List.map_cons, room_cons, ih hcores, available_reset, max_eq_left hc]
    cases h : c.isWorking <;> simp [Core.working, h]

end TimeShared

namespace Processor

theorem fastest_nonneg (p : Processor ℚ) : 0 ≤ p.fastest :=
  zero_le_largest _

/-- What is left on the cores of a processor whose machines are served together. -/
structure Serves (p : Processor ℚ) : Prop where
  wanted : p.capacity - p.ledger.entitlement p.fastest ≤ TimeShared.room p.cores
  received : p.capacity - p.totalAllocated ≤ TimeShared.room p.cores
  complete : p.totalAllocated = p.ledger.entitlement p.fastest ∨ TimeShared.IsFull p.cores

/-- The requests on a reachable processor are served together if they fit together. -/
theorem Reachable.serves {p : Processor ℚ} (hp : p.Reachable) (hshared : p.isDedicated = false)
    (hproper : p.ledger.IsProper) (hcores : ∀ c ∈ p.cores, 0 ≤ c.capacity)
    (hfits : p.ledger.total ≤ p.capacity) : p.Serves := by
  have hdiscipline := discipline_of_shared hshared
  -- the shares are those that a new computation would give
  have hshares := reshare_of_reachable hp
  simp only [reshare, hdiscipline] at hshares
  have hcores' : (TimeShared.layOut (TimeShared.entitlements p.cores p.ledger)
      (p.cores.map Core.reset)).2 = p.cores := congrArg Processor.cores hshares
  have hallocated : p.totalAllocated = ((TimeShared.layOut
      (TimeShared.entitlements p.cores p.ledger) (p.cores.map Core.reset)).1.map Prod.snd).sum := by
    rw [← TimeShared.sum_share]
    exact (congrArg totalAllocated hshares).symm
  have hwanted := TimeShared.sum_entitlements hproper hfits
  have hnonneg := TimeShared.entitlements_nonneg hproper.overhead.2 p.cores
  obtain ⟨hroom, hroom'⟩ := TimeShared.room_layOut hnonneg (p.cores.map Core.reset)
  rw [TimeShared.room_reset hcores, hcores', hwanted] at hroom
  rw [TimeShared.room_reset hcores, hcores', ← hallocated] at hroom'
  refine ⟨hroom, hroom', ?_⟩
  rcases TimeShared.layOut_eq_or_full hnonneg (p.cores.map Core.reset) with hall | hfull
  · left
    rw [hallocated, hall, hwanted]
    rfl
  · right
    rwa [hcores'] at hfull

/-- As long as one unit is left, the slivers that may be left on cores do not add up to it, unless
there are too many cores. -/
theorem Serves.not_isFull {p : Processor ℚ} (hserves : p.Serves) (hcount : p.cores.length < 10 ^ 9)
    (hleft : 1 ≤ p.capacity - p.totalAllocated) : ¬ TimeShared.IsFull p.cores := by
  intro hfull
  have hroom := (hleft.trans hserves.received).trans hfull.room_le
  have hworking : (Core.working p.cores).length ≤ p.cores.length := List.length_filter_le ..
  have hcount : ((Core.working p.cores).length : ℚ) < 10 ^ 9 := by
    exact_mod_cast hworking.trans_lt hcount
  have hslivers := mul_lt_mul_of_pos_right hcount TimeShared.sliver_pos
  have hone : (10 : ℚ) ^ 9 * TimeShared.sliver = 1 := by
    unfold TimeShared.sliver
    norm_num
  linarith

/-- Under time sharing a machine is suitable if there is room for its peak. -/
theorem isSuitable_of_room {p : Processor ℚ} {v : Vm ℚ} (hshared : p.isDedicated = false)
    (hworking : v.vcpus ≤ p.workingCount) (hfast : v.speed ≤ p.fastest)
    (hroom : v.peak ≤ TimeShared.room p.cores + TimeShared.sliver) : p.isSuitable v = true := by
  have hsum : sum (p.cores.map (·.available)) = TimeShared.room p.cores := Rational.sum_eq _
  unfold isSuitable TimeShared.isSuitable
  rw [discipline_of_shared hshared]
  dsimp only
  rw [hsum, Bool.and_eq_true, Bool.and_eq_true, decide_eq_true_eq, decide_eq_true_eq,
    decide_eq_true_eq]
  exact ⟨⟨hworking, hfast⟩, hroom⟩

end Processor

end Datacenter
