import Mrdl.Foundations.Runs

/-! # What a run costs

Every step of a run may cost something. A run costs no more than its first state allows, if every step pays
for itself out of what the state before it allows.
-/

namespace Mrdl.Runs
set_option autoImplicit false

variable {S A : Type*} {step : S → A → Option S} {f : S → A → ℕ} {s t : S}

/-- The cost of a run, where `f s a` is that of action `a` in state `s`. -/
def cost (step : S → A → Option S) (f : S → A → ℕ) : S → List A → ℕ
  | _, [] => 0
  | s, a :: as => f s a +
      match step s a with
      | none => 0
      | some t => cost step f t as

theorem cost_cons {a : A} {as : List A} (hs : step s a = some t) :
    cost step f s (a :: as) = f s a + cost step f t as := by
  rw [cost, hs]

/-- What is left of the allowance at the end was not spent. -/
theorem cost_le {P : S → Prop} (allowance : S → ℕ)
    (hstep : ∀ s a t, P s → step s a = some t → P t ∧ f s a + allowance t ≤ allowance s) {as : List A} (hs : P s)
    (hrun : exec step s as = some t) : cost step f s as + allowance t ≤ allowance s := by
  induction as generalizing s with
  | nil =>
    cases hrun
    exact Nat.le_of_eq (Nat.zero_add _)
  | cons a as ih =>
    obtain ⟨u, hu, hrest⟩ := exec_cons.mp hrun
    obtain ⟨hP, hpays⟩ := hstep s a u hs hu
    have hih := ih hP hrest
    rw [cost_cons hu]
    omega

end Mrdl.Runs
