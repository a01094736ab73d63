import Datacenter.Proofs.Host.Entry
import Datacenter.Proofs.Processor.Superseding

/-!
# Machines that come to a host and leave it

When migrations are finished a host receives machines and removes machines. It does so in any order
with the same result (`Host.remove_comm` and its neighbours), since neither concerns what the host
has on file about another machine and the shares are computed anew each time.

A machine on its way to a host is expected there first and received later. Once it has been received
nothing tells the host from one on which the machine has been created (`Host.create?_eq_of_expect`),
and on the host that it leaves nothing tells that it has been marked as leaving
(`Host.remove_markLeaving`).
-/

namespace Datacenter.Host

variable {α : Type} [Scalar α] [Std.Irrefl (α := α) (· < ·)] {h : Host α} {a b : Nat}

/-! ## Machines that are received and removed -/

theorem remove_comm (hab : a ≠ b) (h : Host α) : (h.remove a).remove b = (h.remove b).remove a := by
  have hprocessor := h.processor.release_comm hab
  have hprovisions := (IdMap.changesAt_erase a).comm (IdMap.changesAt_erase b) hab h.provisions
  have hresidents := (IdMap.changesAt_erase a).comm (IdMap.changesAt_erase b) hab h.residents
  have hincoming := (IdMap.changesAt_erase a).comm (IdMap.changesAt_erase b) hab h.incoming
  simp only [remove, hprocessor, hprovisions, hresidents, hincoming]

theorem receive_comm (hab : a ≠ b) (h : Host α) :
    (h.receive a).receive b = (h.receive b).receive a := by
  have hprocessor := h.processor.unmarkArriving_comm hab
  have hresidents : (h.residents.add a).add b = (h.residents.add b).add a :=
    (IdMap.changesAt_insert a ()).comm (IdMap.changesAt_insert b ()) hab h.residents
  have hincoming := (IdMap.changesAt_erase a).comm (IdMap.changesAt_erase b) hab h.incoming
  cases ha : h.incoming.contains a <;> cases hb : h.incoming.contains b <;>
    simp [receive, ha, hb, hab, hab.symm, hprocessor, hresidents, hincoming]

theorem remove_receive (hab : a ≠ b) (h : Host α) :
    (h.receive a).remove b = (h.remove b).receive a := by
  have hprocessor := h.processor.release_unmarkArriving hab
  have hresidents : (h.residents.add a).erase b = IdSet.add (h.residents.erase b) a :=
    (IdMap.changesAt_insert a ()).comm (IdMap.changesAt_erase b) hab h.residents
  have hincoming := (IdMap.changesAt_erase a).comm (IdMap.changesAt_erase b) hab h.incoming
  cases ha : h.incoming.contains a <;>
    simp [receive, remove, ha, hab, hprocessor, hresidents, hincoming]

theorem remove_markLeaving (h : Host α) (id : Nat) :
    (h.markLeaving id).remove id = h.remove id := by
  have hprocessor := h.processor.release_markLeaving id
  simp only [remove, markLeaving, hprocessor]

/-! ## Machines that are expected and received -/

/-- A settled machine that a host has nothing on file about is created exactly if it would be
expected, and with the same result as if it had been received since. -/
theorem create?_eq_of_expect (hp : h.processor.Reachable) {v v' : Vm α}
    (hblank : h.entry v.id = .blank) (hid : v'.id = v.id) (hvcpus : v'.vcpus = v.vcpus)
    (hneeds : Provision.of v' = .of v) (hsettled : v.isMigrating = false) (requested : List α) :
    h.create? v requested
      = if (h.expect v' requested).1 then some ((h.expect v' requested).2.receive v.id)
        else none := by
  have hnew : h.processor.ledger.arriving.contains v.id = false := congrArg Entry.arriving hblank
  have hunknown : h.incoming.find? v.id = none := by
    have habsent : h.incoming.contains v.id = false := congrArg Entry.incoming hblank
    simpa [IdMap.contains_eq_isSome] using habsent
  have hincoming : (h.incoming.add v.id).erase v.id = h.incoming :=
    IdMap.erase_insert_self hunknown ()
  have hadmitted := Processor.admit?_eq_of_flagged hp hnew hid hvcpus hsettled requested
  rw [expect_eq, hid, create?, admit?, admit?, hadmitted]
  show Option.map _ (Option.map _ (Option.map _
    ((h.processor.markArriving v.id).admit? v' requested))) = _
  cases hflagged : (h.processor.markArriving v.id).admit? v' requested with
  | none => simp [flag, hflagged]
  | some p => simp [flag, hflagged, receive, hincoming, hneeds]

end Datacenter.Host
