import Datacenter.Pool.Basic

/-!
# Searching hosts

A search finds, among the items that have a key, one whose key is the greatest; of several such
items the one with the lowest id wins. Ids included, no two items are equally good, so it does not
matter in which order they are compared. Many items may therefore be searched by halves, which can
be done in parallel, instead of one after the other.

What is searched for hosts does not depend on the way in which it is done: a `Search` is an argument
of the definitions that look for hosts, and `HostSearch.findMax` is the one that settings ask for.
-/

namespace Datacenter

/-- The key of a host: hosts that are switched on come before all others. -/
structure HostRank (κ : Type) where
  /-- Whether the host is switched on. -/
  isActive : Bool
  /-- What decides among hosts that are both on or both off. -/
  score : κ
deriving DecidableEq, Repr

instance {κ : Type} [Ord κ] : Ord (HostRank κ) :=
  ⟨fun a b => (compare a.isActive b.isActive).then (compare a.score b.score)⟩

/-- A count of which less is better. -/
structure Fewest where
  /-- The count. -/
  count : Nat
deriving DecidableEq, Repr

instance : Ord Fewest :=
  ⟨fun a b => compare b.count a.count⟩

/-- A way to find the id of the best of the items that have a key, which is a key and an id. -/
abbrev Search (κ β : Type) := List β → (β → Option (κ × Nat)) → Option Nat

/-- The id of the best of the hosts that have a key. -/
def Search.findHost {α κ : Type} (find : Search κ (Option (κ × Nat))) (hosts : List (Host α))
    (key : Host α → Except Fault (Option κ)) : Except Fault (Option Nat) := do
  let keys ← hosts.mapM fun h => do return (← key h).map fun k => (k, h.id)
  return find keys id

/-- How hosts are searched. -/
structure HostSearch where
  /-- Whether items may be searched in parallel. -/
  parallel : Bool
  /-- The least number of items that are searched in parallel. -/
  threshold : Nat
deriving DecidableEq, Repr

namespace HostSearch

variable {κ : Type} [Ord κ]

/-- The search that goes through the items one after the other, however many there are. -/
def sequential : HostSearch :=
  { parallel := false, threshold := maxQuantity }

/-- Whether that many items are searched in parallel. -/
def isParallelFor (s : HostSearch) (items : Nat) : Bool :=
  s.parallel && s.threshold ≤ items

/-- The better one of two candidates, each a key and an id. -/
def better (a b : κ × Nat) : κ × Nat :=
  match compare a.1 b.1 with
  | .lt => b
  | .gt => a
  | .eq => if b.2 < a.2 then b else a

/-- The better one of two candidates that may be missing. -/
def better? : Option (κ × Nat) → Option (κ × Nat) → Option (κ × Nat)
  | some a, some b => some (better a b)
  | some a, none => some a
  | none, b => b

/-- The best candidate, found one after the other. -/
def bestInOrder (candidates : List (κ × Nat)) : Option (κ × Nat) :=
  candidates.foldl (fun best c => better? best (some c)) none

/-- The best candidate, found by halves. -/
def bestByHalves (candidates : List (κ × Nat)) : Option (κ × Nat) :=
  if _h : candidates.length ≤ 1 then candidates.head?
  else
    let half := candidates.length / 2
    better? (bestByHalves (candidates.take half)) (bestByHalves (candidates.drop half))
termination_by candidates.length
decreasing_by all_goals simp only [List.length_take, List.length_drop]; omega

/-- The id of the best of the items that have a key. -/
def findMax {β : Type} (s : HostSearch) : Search κ β := fun items key =>
  let candidates := items.filterMap key
  let best := if s.isParallelFor items.length then bestByHalves candidates
    else bestInOrder candidates
  best.map Prod.snd

end HostSearch

end Datacenter
