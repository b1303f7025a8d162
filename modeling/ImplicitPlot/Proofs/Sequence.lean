/-!
# Computations in sequence

When a sequence of two computations that may fail succeeds.
-/

namespace ImplicitPlot

variable {ε β γ : Type}

/-- What a computation succeeds with can be tested. -/
instance decidableForallOk {x : Except ε β} {P : β → Prop} [DecidablePred P] :
    Decidable (∀ b, x = .ok b → P b) :=
  match x with
  | .error _ => .isTrue nofun
  | .ok b => decidable_of_iff (P b) ⟨fun h _ hb ↦ Except.ok.inj hb ▸ h, fun h ↦ h b rfl⟩

/-- A sequence succeeds only if its first part does, and then as its second part does. -/
theorem exists_of_bind_eq_ok {x : Except ε β} {k : β → Except ε γ} {c : γ}
    (h : x >>= k = .ok c) : ∃ b, x = .ok b ∧ k b = .ok c := by
  cases x with
  | error e => cases h
  | ok b => exact ⟨b, rfl, h⟩

theorem cases_of_bind_eq_error {x : Except ε β} {k : β → Except ε γ} {e : ε}
    (h : x >>= k = .error e) : x = .error e ∨ ∃ b, x = .ok b ∧ k b = .error e := by
  cases x with
  | error e' =>
    cases h
    exact .inl rfl
  | ok b => exact .inr ⟨b, rfl, h⟩

theorem bind_congr_of_ok {x : Except ε β} {k k' : β → Except ε γ}
    (h : ∀ b, x = .ok b → k b = k' b) : x >>= k = x >>= k' := by
  cases x with
  | error e => rfl
  | ok b => exact h b rfl

theorem bind_eq_ok {x : Except ε β} {k : β → Except ε γ} {b : β} {c : γ} (hx : x = .ok b)
    (hk : k b = .ok c) : x >>= k = .ok c := by
  rw [hx]
  exact hk

end ImplicitPlot
