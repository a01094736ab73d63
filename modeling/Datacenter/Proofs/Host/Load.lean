import Datacenter.Proofs.Host.Entry
import Datacenter.Proofs.Host.Frame
import Datacenter.Proofs.IdMap
import Datacenter.Proofs.Rational

/-!
# The load of a host

The load of a host is the sum of all requests on its ledger. Over exact numbers a new request adds
what it asks for, and a machine that is removed takes away what it has asked for; flags do not
matter.

`Host.Bears` says that a host has become another one by changes of its machines which have added no
more than some amount to its load. It does not mention whether the hosts are on.
-/

namespace Datacenter

/-! ## Totals -/

namespace Ledger

theorem total_eq (l : Ledger ℚ) :
    l.total = (l.requests.toList.map fun e => e.2.share.sum).sum := by
  rw [total, Rational.sum_eq, IdMap.values, List.map_map]
  congr 1
  apply List.map_congr_left
  intro e _
  exact Rational.sum_eq e.2.share

/-- A new request adds what it asks for. -/
theorem total_insert {l l' : Ledger ℚ} {id : Nat} {r : Request ℚ}
    (hnew : l.requests.find? id = none) (hrequests : l'.requests = l.requests.insert id r) :
    l'.total = l.total + r.share.sum := by
  have hperm := IdMap.toList_insert_perm hnew r
  rw [total_eq, total_eq, hrequests, (hperm.map _).sum_eq, List.map_cons, List.sum_cons, add_comm]

/-- A machine that is struck takes away what it has asked for. -/
theorem total_remove {l : Ledger ℚ} {id : Nat} {r : Request ℚ}
    (hr : l.requests.find? id = some r) : l.total = (l.remove id).total + r.share.sum := by
  have hperm := IdMap.toList_erase_perm hr
  rw [total_eq, total_eq, remove, (hperm.map _).sum_eq, List.map_cons, List.sum_cons, add_comm]

theorem remove_total_of_none {l : Ledger ℚ} {id : Nat} (hnone : l.requests.find? id = none) :
    (l.remove id).total = l.total := by
  rw [total_eq, total_eq, remove, IdMap.erase_of_find?_eq_none hnone]

/-- What machines ask for does not depend on whether they were migrating when they asked. -/
theorem total_unmarkArriving (l : Ledger ℚ) (id : Nat) :
    (l.unmarkArriving id).total = l.total := by
  have hlist : (l.unmarkArriving id).requests.toList
      = l.requests.toList.map fun e =>
        (e.1, if e.1 = id then { e.2 with inMigration := false } else e.2) := rfl
  rw [total_eq, total_eq, hlist, List.map_map]
  congr 1
  apply List.map_congr_left
  intro e _
  show (if e.1 = id then { e.2 with inMigration := false } else e.2 : Request ℚ).share.sum
    = e.2.share.sum
  split <;> rfl

end Ledger

namespace Host

/-- `h'` is `h` after changes of its machines that have added at most `extra` to the load. -/
structure Bears (h h' : Host ℚ) (extra : ℚ) : Prop where
  history : h'.history = h.history
  capacity : h'.processor.capacity = h.processor.capacity
  load : h'.load ≤ h.load + extra

namespace Bears

variable {h h' h'' : Host ℚ} {x y : ℚ}

theorem refl (h : Host ℚ) : h.Bears h 0 :=
  ⟨rfl, rfl, by rw [add_zero]⟩

theorem trans (h₁ : h.Bears h' x) (h₂ : h'.Bears h'' y) : h.Bears h'' (x + y) where
  history := h₂.history.trans h₁.history
  capacity := h₂.capacity.trans h₁.capacity
  load := by
    have hx := h₁.load
    have hy := h₂.load
    linarith

theorem mono (h₁ : h.Bears h' x) (hxy : x ≤ y) : h.Bears h' y where
  history := h₁.history
  capacity := h₁.capacity
  load := by
    have hx := h₁.load
    linarith

end Bears

variable {h h' : Host ℚ} {vm : Vm ℚ} {requested : List ℚ}

theorem load_eq (h : Host ℚ) : h.load = h.processor.ledger.total :=
  rfl

/-- A host on which a machine arrives bears what the machine asks for. -/
theorem bears_expect {b : Bool} (hnew : (h.entry vm.id).request = none)
    (hrequested : 0 ≤ requested.sum) (hexpect : h.expect vm requested = (b, h')) :
    h.Bears h' requested.sum where
  history := (unchanged_expect hexpect).1.history
  capacity := Processor.capacity_congr (makeup_expect hexpect)
  load := by
    -- flagging a machine before it is admitted leaves all requests as they are
    have hflag : (h.flag vm.id).processor.ledger.total = h.load ∧
        (h.flag vm.id).processor.ledger.requests.find? vm.id = none := by
      rw [flag, Processor.markArriving_ledger]
      split
      · exact ⟨rfl, hnew⟩
      · exact ⟨rfl, hnew⟩
    rw [expect_eq] at hexpect
    cases hgranted : (h.flag vm.id).admit? vm requested with
    | some h₁ =>
      rw [hgranted] at hexpect
      cases hexpect
      obtain ⟨q, hq, rfl⟩ := Option.map_eq_some_iff.mp hgranted
      rw [load_eq, Processor.admit?_ledger hq, Ledger.total_insert hflag.2 rfl, hflag.1]
    | none =>
      rw [hgranted] at hexpect
      cases hexpect
      rw [load_eq, Processor.release_ledger, Ledger.remove_total_of_none hflag.2, hflag.1]
      exact le_add_of_nonneg_right hrequested

theorem bears_markLeaving (h : Host ℚ) (id : Nat) : h.Bears (h.markLeaving id) 0 where
  history := (h.unchanged_markLeaving id).1.history
  capacity := Processor.capacity_congr (Processor.makeup_markLeaving h.processor id)
  load := by
    rw [load_eq, load_eq, markLeaving, Processor.markLeaving_ledger, add_zero]
    split <;> exact le_refl _

/-- The request of a machine that is received stays what it is. -/
theorem bears_receive (h : Host ℚ) (id : Nat) : h.Bears (h.receive id) 0 where
  history := (h.unchanged_receive id).1.history
  capacity := Processor.capacity_congr (h.makeup_receive id)
  load := by
    rw [add_zero]
    unfold receive
    split
    · rw [load_eq, Processor.unmarkArriving_ledger, Ledger.total_unmarkArriving, load_eq]
    · exact le_refl _

/-- A machine that is removed leaves no more load behind than there was. -/
theorem bears_remove {id : Nat}
    (hrequest : ∀ r, (h.entry id).request = some r → 0 ≤ r.share.sum) :
    h.Bears (h.remove id) 0 where
  history := (h.unchanged_remove id).1.history
  capacity := Processor.capacity_congr (Processor.makeup_withLedger ..)
  load := by
    rw [load_eq, load_eq, remove, Processor.release_ledger, add_zero]
    cases hr : h.processor.ledger.requests.find? id with
    | none => rw [Ledger.remove_total_of_none hr]
    | some r =>
      have hnonneg := hrequest r hr
      rw [Ledger.total_remove hr]
      linarith

end Host

end Datacenter
