import Datacenter.Scalar

/-!
# Sharing a capacity

`shareCapacity requests capacity` divides a capacity among requests. If the requests fit, everybody
gets what they ask for. Otherwise the division goes in rounds: what is left of the capacity is split
equally among the requests still open, and every request that does not exceed this fair share is
granted in full. When no open request is that modest, the rest is divided in proportion to the open
requests.

Requests that are not above zero get nothing once the capacity does not suffice.
-/

namespace Datacenter

variable {α : Type} [Scalar α]

open Scalar

/-- The state of one request during the division. -/
inductive Portion (α : Type) where
  /-- A request that is still open. -/
  | pending (request : α)
  /-- A share that has been settled. -/
  | granted (share : α)
deriving DecidableEq, Repr

namespace Portion

/-- The request, while it is open. -/
def pending? : Portion α → Option α
  | pending r => some r
  | granted _ => none

/-- The share; nothing while the request is open. -/
def share : Portion α → α
  | pending _ => 0
  | granted s => s

/-- Grants an open request that does not exceed the fair share. -/
def grantUpTo (fair : α) : Portion α → Portion α
  | pending r => if r ≤ fair then granted r else pending r
  | granted s => granted s

/-- Settles an open request in proportion. -/
def scaleBy (factor : α) : Portion α → Portion α
  | pending r => granted (r * factor)
  | granted s => granted s

end Portion

/-- Grants every open request that does not exceed the fair share. -/
def grantRound (fair : α) (portions : List (Portion α)) : List (Portion α) :=
  portions.map (·.grantUpTo fair)

/-- The open requests. -/
def openRequests (portions : List (Portion α)) : List α :=
  portions.filterMap Portion.pending?

omit [Scalar α] in
@[simp] theorem openRequests_nil : openRequests ([] : List (Portion α)) = [] := rfl

omit [Scalar α] in
@[simp] theorem openRequests_pending (r : α) (ps : List (Portion α)) :
    openRequests (.pending r :: ps) = r :: openRequests ps := rfl

omit [Scalar α] in
@[simp] theorem openRequests_granted (s : α) (ps : List (Portion α)) :
    openRequests (.granted s :: ps) = openRequests ps := rfl

@[simp] theorem grantUpTo_pending (fair r : α) :
    (Portion.pending r).grantUpTo fair = if r ≤ fair then .granted r else .pending r := rfl

@[simp] theorem grantUpTo_granted (fair s : α) :
    (Portion.granted s).grantUpTo fair = .granted s := rfl

theorem length_openRequests_grantRound_le (fair : α) :
    ∀ ps : List (Portion α),
      (openRequests (grantRound fair ps)).length ≤ (openRequests ps).length
  | [] => Nat.le_refl _
  | .granted s :: ps => length_openRequests_grantRound_le fair ps
  | .pending r :: ps => by
    have ih := length_openRequests_grantRound_le fair ps
    rw [grantRound, List.map_cons, ← grantRound, grantUpTo_pending, openRequests_pending,
      List.length_cons]
    split
    · rw [openRequests_granted]; omega
    · rw [openRequests_pending, List.length_cons]; omega

/-- A round that grants anything leaves fewer requests open. -/
theorem length_openRequests_grantRound_lt (fair : α) :
    ∀ ps : List (Portion α), (openRequests ps).any (fun r => decide (r ≤ fair)) = true →
      (openRequests (grantRound fair ps)).length < (openRequests ps).length
  | [], h => by simp at h
  | .granted s :: ps, h => length_openRequests_grantRound_lt fair ps h
  | .pending r :: ps, h => by
    rw [grantRound, List.map_cons, ← grantRound, grantUpTo_pending, openRequests_pending,
      List.length_cons]
    by_cases hr : r ≤ fair
    · have := length_openRequests_grantRound_le fair ps
      rw [if_pos hr, openRequests_granted]; omega
    · have := length_openRequests_grantRound_lt fair ps (by simpa [hr] using h)
      rw [if_neg hr, openRequests_pending, List.length_cons]; omega

/-- Divides what is left of the capacity among the open requests. -/
def settle (remaining : α) (portions : List (Portion α)) : List (Portion α) :=
  let pending := openRequests portions
  let fair := remaining / (pending.length : α)
  if _h : pending.any (fun r => decide (r ≤ fair)) = true then
    let granted := pending.filter fun r => decide (r ≤ fair)
    settle (granted.foldl (· - ·) remaining) (grantRound fair portions)
  else
    portions.map (·.scaleBy (remaining / sum pending))
termination_by (openRequests portions).length
decreasing_by exact length_openRequests_grantRound_lt _ _ _h

/-- Divides a capacity among requests; the shares are in the order of the requests. -/
def shareCapacity (requests : List α) (capacity : α) : List α :=
  if sum requests ≤ capacity then requests
  else
    let portions := requests.map fun r =>
      if 0 < r then Portion.pending r else Portion.granted 0
    (settle (larger capacity 0) portions).map Portion.share

end Datacenter
