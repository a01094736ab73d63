import Datacenter.Fault

/-!
# Computations without a fault

How a computation in `Except` that has a result came by it: a sequence went through all of its
steps, and a list was gone through element by element.
-/

namespace Datacenter.Fault

variable {ε β γ : Type}

theorem bind_eq_ok {x : Except ε β} {f : β → Except ε γ} {c : γ} :
    (x >>= f) = .ok c ↔ ∃ b, x = .ok b ∧ f b = .ok c := by
  cases x <;> simp [bind, Except.bind]

theorem map_eq_ok {x : Except ε β} {f : β → γ} {c : γ} :
    x.map f = .ok c ↔ ∃ b, x = .ok b ∧ f b = c := by
  cases x <;> simp [Except.map]

theorem elementAt_eq_ok {xs : List β} {i : Nat} {x : β} :
    elementAt xs i = .ok x ↔ xs[i]? = some x := by
  unfold elementAt
  cases xs[i]? <;> simp

theorem toOption_eq_some {x : Except ε β} {b : β} : x.toOption = some b ↔ x = .ok b := by
  cases x <;> simp [Except.toOption]

/-- The results stand at the positions of the elements they belong to. -/
theorem getElem?_of_mapM {f : β → Except ε γ} {xs : List β} {ys : List γ}
    (h : xs.mapM f = .ok ys) (i : Nat) :
    (xs[i]? = none ∧ ys[i]? = none)
      ∨ ∃ x y, xs[i]? = some x ∧ ys[i]? = some y ∧ f x = .ok y := by
  induction xs generalizing ys i with
  | nil =>
    cases h
    exact .inl ⟨rfl, rfl⟩
  | cons x xs ih =>
    rw [List.mapM_cons] at h
    obtain ⟨y, hy, h⟩ := bind_eq_ok.mp h
    obtain ⟨ys', hys, h⟩ := bind_eq_ok.mp h
    cases h
    cases i with
    | zero => exact .inr ⟨x, y, rfl, rfl, hy⟩
    | succ i => exact ih hys i

end Datacenter.Fault
