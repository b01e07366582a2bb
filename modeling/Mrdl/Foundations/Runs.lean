import Mathlib.Data.List.Basic

/-! # Executable labelled runs

A transition system is a guarded step function: `step s a` is `some t` when action `a` is enabled
in `s` and leads to `t`. `exec` replays a list of actions, so one definition serves concrete traces
and proofs about every interleaving. A property of all runs is proved once, from what one step
preserves (`exec_invariant`), possibly for the runs whose steps all meet a condition
(`exec_guarded`), and a run of one system is matched by a run of another when every step is
(`exec_simulates`).
-/

namespace Mrdl.Runs
set_option autoImplicit false

variable {S T A B : Type*}

/-- Replay a list of actions; `none` when one of them is not enabled. -/
def exec (step : S → A → Option S) : S → List A → Option S
  | s, [] => some s
  | s, a :: as => (step s a).bind fun t => exec step t as

@[simp] theorem exec_nil (step : S → A → Option S) (s : S) : exec step s [] = some s := rfl

theorem exec_cons {step : S → A → Option S} {s t : S} {a : A} {as : List A} :
    exec step s (a :: as) = some t ↔ ∃ u, step s a = some u ∧ exec step u as = some t := by
  simp only [exec, Option.bind_eq_some_iff]

theorem exec_append {step : S → A → Option S} {s t : S} {as bs : List A} :
    exec step s (as ++ bs) = some t ↔ ∃ u, exec step s as = some u ∧ exec step u bs = some t := by
  induction as generalizing s with
  | nil => simp
  | cons a as ih =>
    rw [List.cons_append, exec_cons]
    constructor
    · rintro ⟨u, hu, ht⟩
      obtain ⟨v, hv, ht⟩ := ih.mp ht
      exact ⟨v, exec_cons.mpr ⟨u, hu, hv⟩, ht⟩
    · rintro ⟨v, hv, ht⟩
      obtain ⟨u, hu, hv⟩ := exec_cons.mp hv
      exact ⟨u, hu, ih.mpr ⟨v, hv, ht⟩⟩

/-- What every step preserves holds at the end of every run. -/
theorem exec_invariant {step : S → A → Option S} {P : S → Prop}
    (hstep : ∀ s a t, P s → step s a = some t → P t) {s t : S} {as : List A}
    (hs : P s) (h : exec step s as = some t) : P t := by
  induction as generalizing s with
  | nil =>
    cases h
    exact hs
  | cons a as ih =>
    obtain ⟨u, hu, ht⟩ := exec_cons.mp h
    exact ih (hstep s a u hs hu) ht

/-! ## Runs whose steps all meet a condition -/

/-- Every step the run takes meets `G` in the state before it. -/
def Guarded (step : S → A → Option S) (G : S → A → Prop) : S → List A → Prop
  | _, [] => True
  | s, a :: as => G s a ∧
      match step s a with
      | none => True
      | some t => Guarded step G t as

instance Guarded.decidable (step : S → A → Option S) (G : S → A → Prop)
    [∀ s a, Decidable (G s a)] : ∀ (s : S) (as : List A), Decidable (Guarded step G s as)
  | _, [] => .isTrue trivial
  | s, a :: as => by
      unfold Guarded
      cases step s a with
      | none => exact inferInstanceAs (Decidable (_ ∧ True))
      | some t =>
        have := Guarded.decidable step G t as
        exact inferInstanceAs (Decidable (_ ∧ Guarded step G t as))

theorem Guarded.cons {step : S → A → Option S} {G : S → A → Prop} {s t : S} {a : A} {as : List A}
    (h : Guarded step G s (a :: as)) (hs : step s a = some t) : G s a ∧ Guarded step G t as := by
  simp only [Guarded, hs] at h
  exact h

theorem Guarded.of_mem {step : S → A → Option S} {G : S → A → Prop} {as : List A}
    (h : ∀ s, ∀ a ∈ as, G s a) (s : S) : Guarded step G s as := by
  induction as generalizing s with
  | nil => trivial
  | cons a as ih =>
    refine ⟨h s a (List.mem_cons_self ..), ?_⟩
    split
    · trivial
    · exact ih (fun u b hb => h u b (List.mem_cons_of_mem _ hb)) _

theorem Guarded.and {step : S → A → Option S} {G G' : S → A → Prop} {s : S} {as : List A}
    (h : Guarded step G s as) (h' : Guarded step G' s as) :
    Guarded step (fun s a => G s a ∧ G' s a) s as := by
  induction as generalizing s with
  | nil => trivial
  | cons a as ih =>
    rw [Guarded] at h h' ⊢
    refine ⟨⟨h.1, h'.1⟩, ?_⟩
    have h2 := h.2
    have h2' := h'.2
    split
    · trivial
    · rename_i t ht
      rw [ht] at h2 h2'
      exact ih h2 h2'

theorem Guarded.append_iff {step : S → A → Option S} {G : S → A → Prop} {s t : S} {as bs : List A}
    (hrun : exec step s as = some t) :
    Guarded step G s (as ++ bs) ↔ Guarded step G s as ∧ Guarded step G t bs := by
  induction as generalizing s with
  | nil =>
    cases hrun
    exact (and_iff_right trivial).symm
  | cons a as ih =>
    obtain ⟨u, hu, ht⟩ := exec_cons.mp hrun
    rw [List.cons_append, Guarded, Guarded, hu]
    exact (and_congr_right' (ih ht)).trans and_assoc.symm

theorem exec_guarded {step : S → A → Option S} {G : S → A → Prop} {P : S → Prop}
    (hstep : ∀ s a t, P s → G s a → step s a = some t → P t) {s t : S} {as : List A}
    (hs : P s) (hG : Guarded step G s as) (h : exec step s as = some t) : P t := by
  induction as generalizing s with
  | nil =>
    cases h
    exact hs
  | cons a as ih =>
    obtain ⟨u, hu, ht⟩ := exec_cons.mp h
    obtain ⟨hg, hrest⟩ := hG.cons hu
    exact ih (hstep s a u hs hg hu) hrest ht

/-- A run that does not meet the condition throughout has a first step that breaks it. -/
theorem exists_unguarded {step : S → A → Option S} {G : S → A → Prop} {s t : S} {as : List A}
    (hG : ¬ Guarded step G s as) (h : exec step s as = some t) :
    ∃ bs a cs u v, as = bs ++ a :: cs ∧ Guarded step G s bs ∧ exec step s bs = some u ∧ ¬ G u a ∧
      step u a = some v ∧ exec step v cs = some t := by
  induction as generalizing s with
  | nil => exact absurd trivial hG
  | cons a as ih =>
    obtain ⟨u, hu, ht⟩ := exec_cons.mp h
    by_cases ha : G s a
    · have hrest : ¬ Guarded step G u as := by
        intro hr
        apply hG
        simp only [Guarded, hu]
        exact ⟨ha, hr⟩
      obtain ⟨bs, b, cs, v, w, rfl, hgs, hbs, hb, hw, hcs⟩ := ih hrest ht
      refine ⟨a :: bs, b, cs, v, w, rfl, ?_, exec_cons.mpr ⟨u, hu, hbs⟩, hb, hw, hcs⟩
      simp only [Guarded, hu]
      exact ⟨ha, hgs⟩
    · exact ⟨[], a, as, s, u, rfl, trivial, rfl, ha, hu, ht⟩

/-! ## Simulation -/

/-- When every step is matched by a run of a second system, so is every run. -/
theorem exec_simulates {step : S → A → Option S} {step' : T → B → Option T} {R : S → T → Prop}
    (hstep : ∀ s a s' t, R s t → step s a = some s' → ∃ bs t', exec step' t bs = some t' ∧ R s' t')
    {s s' : S} {t : T} {as : List A} (hs : R s t) (h : exec step s as = some s') :
    ∃ bs t', exec step' t bs = some t' ∧ R s' t' := by
  induction as generalizing s t with
  | nil =>
    cases h
    exact ⟨[], t, rfl, hs⟩
  | cons a as ih =>
    obtain ⟨u, hu, hrest⟩ := exec_cons.mp h
    obtain ⟨bs, v, hbs, hv⟩ := hstep s a u t hs hu
    obtain ⟨cs, t', hcs, ht'⟩ := ih hv hrest
    exact ⟨bs ++ cs, t', exec_append.mpr ⟨v, hbs, hcs⟩, ht'⟩

end Mrdl.Runs
