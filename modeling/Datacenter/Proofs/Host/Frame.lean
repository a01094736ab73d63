import Datacenter.Host
import Datacenter.Proofs.Processor.Resharing

/-!
# What operations on a host leave alone

No operation on the machines of a host changes its id, its memory, bandwidth and storage, or its
history (`Host.Unchanged`), and only a failing core changes the make-up of its processor. A host is
switched on by the machines that come and is never switched off by those that go.
-/

namespace Datacenter.Host

variable {α : Type}

/-- What no change of its machines changes of a host. -/
structure Unchanged (h h' : Host α) : Prop where
  id : h'.id = h.id
  ram : h'.ram = h.ram
  bandwidth : h'.bandwidth = h.bandwidth
  storage : h'.storage = h.storage
  history : h'.history = h.history

theorem Unchanged.refl (h : Host α) : h.Unchanged h :=
  ⟨rfl, rfl, rfl, rfl, rfl⟩

theorem Unchanged.trans {h h' h'' : Host α} (h₁ : h.Unchanged h') (h₂ : h'.Unchanged h'') :
    h.Unchanged h'' :=
  ⟨h₂.id.trans h₁.id, h₂.ram.trans h₁.ram, h₂.bandwidth.trans h₁.bandwidth,
    h₂.storage.trans h₁.storage, h₂.history.trans h₁.history⟩

variable [Scalar α] {h h' : Host α} {vm : Vm α} {requested : List α}

theorem unchanged_admit? (hgranted : h.admit? vm requested = some h') :
    h.Unchanged h' ∧ h'.isActive = h.isActive := by
  obtain ⟨p, -, rfl⟩ := Option.map_eq_some_iff.mp hgranted
  exact ⟨⟨rfl, rfl, rfl, rfl, rfl⟩, rfl⟩

theorem unchanged_update (h : Host α) (vm : Vm α) (requested : List α) :
    h.Unchanged (h.update vm requested) ∧ (h.update vm requested).isActive = h.isActive := by
  unfold update
  cases hgranted : h.admit? vm requested with
  | none => exact ⟨.refl h, rfl⟩
  | some h' => exact unchanged_admit? hgranted

/-- A host that takes a machine is on. -/
theorem unchanged_create? (hcreate : h.create? vm requested = some h') :
    h.Unchanged h' ∧ h'.isActive = true := by
  obtain ⟨h₁, hgranted, rfl⟩ := Option.map_eq_some_iff.mp hcreate
  obtain ⟨hsame, -⟩ := unchanged_admit? hgranted
  exact ⟨⟨hsame.id, hsame.ram, hsame.bandwidth, hsame.storage, hsame.history⟩, rfl⟩

/-- A host that expects a machine is on, and one that refuses it stays as it was. -/
theorem unchanged_expect {b : Bool} (hexpect : h.expect vm requested = (b, h')) :
    h.Unchanged h' ∧ h'.isActive = (b || h.isActive) := by
  unfold expect at hexpect
  dsimp only at hexpect
  split at hexpect
  · rename_i h₁ hgranted
    obtain ⟨hsame, -⟩ := unchanged_admit? hgranted
    cases hexpect
    exact ⟨⟨hsame.id, hsame.ram, hsame.bandwidth, hsame.storage, hsame.history⟩, rfl⟩
  · cases hexpect
    exact ⟨⟨rfl, rfl, rfl, rfl, rfl⟩, rfl⟩

theorem unchanged_markLeaving (h : Host α) (id : Nat) :
    h.Unchanged (h.markLeaving id) ∧ (h.markLeaving id).isActive = h.isActive :=
  ⟨⟨rfl, rfl, rfl, rfl, rfl⟩, rfl⟩

theorem unchanged_receive (h : Host α) (id : Nat) :
    h.Unchanged (h.receive id) ∧ (h.receive id).isActive = h.isActive := by
  unfold receive
  split
  · exact ⟨⟨rfl, rfl, rfl, rfl, rfl⟩, rfl⟩
  · exact ⟨.refl h, rfl⟩

theorem unchanged_remove (h : Host α) (id : Nat) :
    h.Unchanged (h.remove id) ∧ (h.remove id).isActive = h.isActive :=
  ⟨⟨rfl, rfl, rfl, rfl, rfl⟩, rfl⟩

omit [Scalar α] in
theorem unchanged_reprovision (h : Host α) (vm : Vm α) :
    h.Unchanged (h.reprovision vm) ∧ (h.reprovision vm).isActive = h.isActive := by
  unfold reprovision
  split
  · exact ⟨⟨rfl, rfl, rfl, rfl, rfl⟩, rfl⟩
  · exact ⟨.refl h, rfl⟩

theorem unchanged_failCore {i : Nat} (hfail : h.failCore i = .ok h') :
    h.Unchanged h' ∧ h'.isActive = h.isActive := by
  unfold failCore at hfail
  cases hp : h.processor.failCore i with
  | error fault => rw [hp] at hfail; cases hfail
  | ok p =>
    rw [hp] at hfail
    cases hfail
    exact ⟨⟨rfl, rfl, rfl, rfl, rfl⟩, rfl⟩

/-! ## The make-up of the processor -/

section Makeup

variable [Std.Irrefl (α := α) (· < ·)]

theorem makeup_admit? (hgranted : h.admit? vm requested = some h') :
    makeup h'.processor.cores = makeup h.processor.cores := by
  obtain ⟨p, hp, rfl⟩ := Option.map_eq_some_iff.mp hgranted
  exact Processor.makeup_admit? hp

theorem makeup_expect {b : Bool} (hexpect : h.expect vm requested = (b, h')) :
    makeup h'.processor.cores = makeup h.processor.cores := by
  unfold expect at hexpect
  dsimp only at hexpect
  split at hexpect
  · rename_i h₁ hgranted
    cases hexpect
    exact (makeup_admit? hgranted).trans (Processor.makeup_markArriving ..)
  · cases hexpect
    exact (Processor.makeup_withLedger ..).trans (Processor.makeup_markArriving ..)

theorem makeup_receive (h : Host α) (id : Nat) :
    makeup (h.receive id).processor.cores = makeup h.processor.cores := by
  unfold receive
  split
  · exact Processor.makeup_withLedger ..
  · rfl

end Makeup

end Datacenter.Host
