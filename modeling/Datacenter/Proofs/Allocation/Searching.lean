import Datacenter.Allocation.Policy
import Datacenter.Proofs.Consolidation.Round
import Datacenter.Proofs.HostSearch

/-!
# Policies find the same hosts however they search

All that a policy and a round of consolidation ask of a search is which item it finds, and ways to
search that find the best one are the same function (`HostSearch.findMax_eq`,
`Search.IsTournament.eq_findMax`). So a policy that searches in another way
(`AllocationPolicy.withSearch`), or that holds any tournament among the hosts
(`AllocationPolicy.findHostBy`, `AllocationPolicy.planBy`), finds the same host for every machine
and plans the same migrations, in the same order.
-/

namespace Datacenter

variable {α : Type}

/-- The rule with another search. -/
def Consolidation.Rule.withSearch (rule : Consolidation.Rule α) (s : HostSearch) :
    Consolidation.Rule α :=
  { rule with search := s }

/-- The policy with another search. -/
def AllocationPolicy.withSearch (policy : AllocationPolicy α) (s : HostSearch) :
    AllocationPolicy α :=
  match policy with
  | simple _ => simple s
  | firstFit _ => firstFit s
  | bestFit _ => bestFit s
  | consolidating rule selection => consolidating (rule.withSearch s) selection

namespace AllocationPolicy

variable [Scalar α] [Std.TransOrd α] {find find' : ∀ {κ β : Type} [Ord κ], Search κ β}

/-- Searches that find the same items make a policy find the same host. -/
theorem findHostBy_congr
    (hfind : ∀ (κ β : Type) [Ord κ] [Std.TransOrd κ], @find κ β _ = @find' κ β _)
    (policy : AllocationPolicy α) (p : Pool α) (vm : Vm α) :
    policy.findHostBy find p vm = policy.findHostBy find' p vm := by
  cases policy <;> simp only [findHostBy, hfind]

/-- Searches that find the same items make a policy plan the same migrations. -/
theorem planBy_congr
    (hfind : ∀ (κ β : Type) [Ord κ] [Std.TransOrd κ], @find κ β _ = @find' κ β _)
    (policy : AllocationPolicy α) (p : Pool α) (eligible : List Nat) :
    policy.planBy find p eligible = policy.planBy find' p eligible := by
  cases policy <;> simp only [planBy, hfind]

theorem findHost_withSearch (policy : AllocationPolicy α) (s : HostSearch) (p : Pool α)
    (vm : Vm α) : (policy.withSearch s).findHost p vm = policy.findHost p vm := by
  have hfind : policy.findHostBy s.findMax p vm = policy.findHost p vm :=
    findHostBy_congr (fun _ _ => HostSearch.findMax_eq s policy.search) policy p vm
  rw [← hfind]
  cases policy <;> rfl

theorem plan_withSearch (policy : AllocationPolicy α) (s : HostSearch) (p : Pool α)
    (eligible : List Nat) :
    (policy.withSearch s).plan p eligible
      = (policy.plan p eligible).map fun r => (r.1, r.2.withSearch s) := by
  have hfind : policy.planBy s.findMax p eligible = policy.plan p eligible :=
    planBy_congr (fun _ _ => HostSearch.findMax_eq s policy.search) policy p eligible
  rw [← hfind]
  cases policy with
  | simple search => rfl
  | firstFit search => rfl
  | bestFit search => rfl
  | consolidating rule selection =>
    -- the rule is asked for its search only, and answered with
    show (Consolidation.planBy s.findMax rule SelectionPolicy.select selection p eligible >>= _)
      = Except.map _
        (Consolidation.planBy s.findMax rule SelectionPolicy.select selection p eligible >>= _)
    cases Consolidation.planBy s.findMax rule SelectionPolicy.select selection p eligible <;> rfl

/-- Searching in parallel and searching in order agree. A search finds nothing exactly if no item
has a key, and otherwise the lowest id of the items whose key is the greatest; so does every
tournament among the items, whatever it does about equally good candidates. Hence policies find the
same hosts and plan the same migrations, in the same order, however they search, be it by any
tournaments among the hosts. -/
theorem searches_agree :
    (∀ (κ β : Type) [Ord κ] [Std.TransOrd κ] (s : HostSearch) (items : List β)
        (key : β → Option (κ × Nat)),
      (s.findMax items key = none ↔ ∀ x ∈ items, key x = none)
        ∧ (∀ id, s.findMax items key = some id ↔ HostSearch.IsBest items key id)
        ∧ ∀ pick, HostSearch.IsMaximum pick → ∀ t : HostSearch.Tournament β,
          t.entrants.Perm items → (t.winner pick key).map Prod.snd = s.findMax items key)
      ∧ (∀ (policy : AllocationPolicy α) (s : HostSearch) (p : Pool α),
        (∀ vm, (policy.withSearch s).findHost p vm = policy.findHost p vm)
          ∧ ∀ eligible, (policy.withSearch s).plan p eligible
            = (policy.plan p eligible).map fun r => (r.1, r.2.withSearch s))
      ∧ ∀ find : (∀ {κ β : Type} [Ord κ], Search κ β),
        (∀ (κ β : Type) [Ord κ] [Std.TransOrd κ], (@find κ β _).IsTournament) →
        ∀ (policy : AllocationPolicy α) (p : Pool α),
          (∀ vm, policy.findHostBy find p vm = policy.findHost p vm)
            ∧ ∀ eligible, policy.planBy find p eligible = policy.plan p eligible := by
  refine ⟨fun κ β _ _ s items key => ?_, fun policy s p => ?_, fun find hfind policy p => ?_⟩
  · exact ⟨s.findMax_eq_none_iff items key, s.findMax_eq_some_iff items key,
      fun _ hpick _ ht => s.winner_eq_findMax key hpick ht⟩
  · exact ⟨policy.findHost_withSearch s p, policy.plan_withSearch s p⟩
  · have hsame : ∀ (κ β : Type) [Ord κ] [Std.TransOrd κ],
        @find κ β _ = policy.search.findMax :=
      fun κ β _ _ => (hfind κ β).eq_findMax policy.search
    exact ⟨findHostBy_congr hsame policy p, planBy_congr hsame policy p⟩

/-- Numbers that are no values, both zeros, equal keys and repeated ids, in a tournament that keeps
the later one of equally good candidates; and a round that searches by halves or backwards. -/
theorem searches_agree_sample : ∃ p : Pool Binary64,
    (HostSearch.mk true 0).findMax
        [(Binary64.nan, 7), (Binary64.infinity, 1), (0, 2), (-0, 2), (Binary64.invalid, 0),
          (Binary64.nan, 3), (Binary64.nan, 3)] some = some 3
      ∧ (((consolidating Consolidation.sampleRule .minimumUtilization).withSearch
          (.mk true 0)).plan p [10, 11, 12, 13, 14]).map (·.1.moves) = .ok [(10, 1), (14, 1)]
      ∧ ((consolidating Consolidation.sampleRule .minimumUtilization).planBy Search.backwards p
          [10, 11, 12, 13, 14]).map (·.1.moves) = .ok [(10, 1), (14, 1)] := by
  obtain ⟨p, plan, next, hp, hplan, hcheck⟩ := Consolidation.exists_samplePlan
    (fun r : Pool Binary64 × MigrationPlan × SelectionPolicy => r.2.1.moves == [(10, 1), (14, 1)])
    (by decide +kernel) (by decide +kernel)
  obtain ⟨hsearch, hpolicy, htournament⟩ := @searches_agree Binary64 _ _
  obtain ⟨-, -, hwinner⟩ := hsearch Binary64 (Binary64 × Nat) (.mk true 0)
    [(.nan, 7), (.infinity, 1), (0, 2), (-0, 2), (.invalid, 0), (.nan, 3), (.nan, 3)] some
  obtain ⟨-, hround⟩ := hpolicy (consolidating Consolidation.sampleRule .minimumUtilization)
    (.mk true 0) p
  obtain ⟨-, hbackwards⟩ := htournament Search.backwards
    (fun _ _ => Search.isTournament_backwards)
    (consolidating Consolidation.sampleRule .minimumUtilization) p
  have hmade : (consolidating Consolidation.sampleRule .minimumUtilization).plan p
      [10, 11, 12, 13, 14] = .ok (plan, consolidating Consolidation.sampleRule next) :=
    Fault.bind_eq_ok.mpr ⟨_, hplan, rfl⟩
  refine ⟨p, ?_, ?_, ?_⟩
  · rw [← hwinner HostSearch.later HostSearch.isMaximum_later
      (.round (.round (.entrant (.nan, 3)) (.entrant (-0, 2)))
        (.round (.round (.entrant (.nan, 7)) (.entrant (.invalid, 0)))
          (.round (.round (.entrant (0, 2)) .nobody)
            (.round (.entrant (.infinity, 1)) (.entrant (.nan, 3)))))) (by decide +kernel)]
    decide +kernel
  · rw [hround, hmade]
    exact congrArg Except.ok (eq_of_beq hcheck)
  · rw [hbackwards, hmade]
    exact congrArg Except.ok (eq_of_beq hcheck)

end AllocationPolicy

end Datacenter
