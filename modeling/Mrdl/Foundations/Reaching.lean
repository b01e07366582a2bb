import Mrdl.Foundations.Runs

/-! # What a system can reach by itself

Some of the actions are under nobody's control, or are failures. `Leads` is reachability by the others.
A state that satisfies `P` gets to one that satisfies `Q` when every state of `P` short of `Q` has such an
action that stays in `P` and lowers a measure (`leads_of_measure`), and what is kept by all of them rules
out the states where it does not hold (`Leads.keeps`).
-/

namespace Mrdl.Runs
set_option autoImplicit false

variable {S T A B : Type*} {step : S → A → Option S} {K : S → A → Prop} {s t u : S}

/-- `t` is reached from `s` by actions of the kind `K`. -/
def Leads (step : S → A → Option S) (K : S → A → Prop) (s t : S) : Prop :=
  ∃ as, Guarded step K s as ∧ exec step s as = some t

theorem Leads.refl (s : S) : Leads step K s s := ⟨[], trivial, rfl⟩

theorem Leads.head {a : A} (ha : K s a) (hs : step s a = some t) (h : Leads step K t u) :
    Leads step K s u := by
  obtain ⟨as, has, hrun⟩ := h
  refine ⟨a :: as, ?_, exec_cons.mpr ⟨t, hs, hrun⟩⟩
  rw [Guarded, hs]
  exact ⟨ha, has⟩

theorem Leads.single {a : A} (ha : K s a) (hs : step s a = some t) : Leads step K s t := .head ha hs (.refl t)

theorem Leads.trans (h : Leads step K s t) (h' : Leads step K t u) : Leads step K s u := by
  obtain ⟨as, has, hrun⟩ := h
  obtain ⟨bs, hbs, hrun'⟩ := h'
  exact ⟨as ++ bs, (Guarded.append_iff hrun).mpr ⟨has, hbs⟩, exec_append.mpr ⟨t, hrun, hrun'⟩⟩

/-- What every action of the kind keeps holds wherever they lead. -/
theorem Leads.keeps {P : S → Prop} (h : Leads step K s t) (hs : P s)
    (hstep : ∀ s a t, P s → K s a → step s a = some t → P t) : P t := by
  obtain ⟨as, has, hrun⟩ := h
  exact exec_guarded hstep hs has hrun

variable (step) in
/-- Where every action of one kind is matched by actions of the other, so is what they lead to. -/
theorem Leads.simulates {step' : T → B → Option T} {K' : T → B → Prop} {R : T → S → Prop} {x y : T}
    (h : Leads step' K' x y) (hR : R x s)
    (hstep : ∀ x b y s, R x s → K' x b → step' x b = some y → ∃ t, Leads step K s t ∧ R y t) :
    ∃ t, Leads step K s t ∧ R y t := by
  obtain ⟨bs, hbs, hrun⟩ := h
  induction bs generalizing x s with
  | nil =>
    cases hrun
    exact ⟨s, .refl s, hR⟩
  | cons b bs ih =>
    obtain ⟨z, hz, hrest⟩ := exec_cons.mp hrun
    obtain ⟨hb, hbs⟩ := hbs.cons hz
    obtain ⟨u, hs, hu⟩ := hstep x b z s hR hb hz
    obtain ⟨t, ht, hy⟩ := ih hu hbs hrest
    exact ⟨t, hs.trans ht, hy⟩

theorem Leads.imp {K' : S → A → Prop} (h : Leads step K s t) (himp : ∀ s a, K s a → K' s a) :
    Leads step K' s t := by
  obtain ⟨u, hu, rfl⟩ := h.simulates step (K := K') (R := Eq) rfl fun x a y s hx ha hs => by
    subst hx
    exact ⟨y, .single (himp x a ha) hs, rfl⟩
  exact hu

variable (step) in
/-- Each round lowers the measure, or reaches `Q`. -/
theorem leads_of_rounds {P Q : S → Prop} (μ : S → ℕ)
    (hround : ∀ s, P s → ¬ Q s → ∃ t, Leads step K s t ∧ P t ∧ (Q t ∨ μ t < μ s)) (hs : P s) :
    ∃ t, Leads step K s t ∧ P t ∧ Q t := by
  induction h : μ s using Nat.strongRecOn generalizing s with
  | ind n ih =>
    by_cases hq : Q s
    · exact ⟨s, .refl s, hs, hq⟩
    · obtain ⟨t, hst, ht, hreached | hlt⟩ := hround s hs hq
      · exact ⟨t, hst, ht, hreached⟩
      · obtain ⟨u, hu, hpu, hqu⟩ := ih (μ t) (h ▸ hlt) ht rfl
        exact ⟨u, hst.trans hu, hpu, hqu⟩

variable (step) in
/-- The measure falls until `Q` is reached. -/
theorem leads_of_measure {P Q : S → Prop} (μ : S → ℕ)
    (hstep : ∀ s, P s → ¬ Q s → ∃ a t, K s a ∧ step s a = some t ∧ P t ∧ μ t < μ s) (hs : P s) :
    ∃ t, Leads step K s t ∧ P t ∧ Q t := by
  refine leads_of_rounds step μ (fun s hP hQ => ?_) hs
  obtain ⟨a, t, ha, hst, ht, hlt⟩ := hstep s hP hQ
  exact ⟨t, .single ha hst, ht, Or.inr hlt⟩

end Mrdl.Runs
