import Mathlib.Algebra.BigOperators.Intervals
import Mathlib.Algebra.Order.BigOperators.Group.LocallyFinite
import Mathlib.Algebra.Order.BigOperators.Group.Finset
import Mathlib.Algebra.Order.Group.Defs
import Mathlib.Data.Finset.Max

/-! # Capped accumulation

`horizon a s e` accumulates the services `s k`, and never lags behind the floor `a k`: the recursion
of a single server whose k-th customer comes at `a k`, and of a bucket that is capped when it is
refilled. Its closed form is a maximum over the customers at which the accumulation last restarted
(`horizon_eq_sup`). A customer that comes at `d k` leaves at `release`, when the server is done or at
once. In a window of releases the service is at most the length of the window and, at its start, what
the floor leaves free or one single service (`window_le`).
-/

namespace Mrdl.Lindley
set_option autoImplicit false

open Finset

variable {α : Type*} [AddCommGroup α] [LinearOrder α]

/-- When the server is done with customer `k`, if it is done with everything before at `e`. -/
def horizon (a s : ℕ → α) (e : α) : ℕ → α
  | 0 => max (a 0) e + s 0
  | k + 1 => max (a (k + 1)) (horizon a s e k) + s (k + 1)

def release (a d s : ℕ → α) (e : α) (k : ℕ) : α := max (d k) (horizon a s e k)

variable {a d s : ℕ → α} {e : α}

/-- The accumulation restarted at some floor. -/
theorem exists_floor (h0 : e ≤ a 0) (k : ℕ) :
    ∃ j ≤ k, horizon a s e k = a j + ∑ i ∈ Icc j k, s i := by
  induction k with
  | zero => exact ⟨0, le_rfl, by simp [horizon, max_eq_left h0]⟩
  | succ k ih =>
    rcases le_total (horizon a s e k) (a (k + 1)) with hle | hle
    · exact ⟨k + 1, le_rfl, by simp [horizon, max_eq_left hle]⟩
    · obtain ⟨j, hj, heq⟩ := ih
      refine ⟨j, hj.trans (Nat.le_succ k), ?_⟩
      rw [horizon, max_eq_right hle, heq, sum_Icc_succ_top (hj.trans (Nat.le_succ k)), add_assoc]

variable [IsOrderedAddMonoid α]

theorem floor_add_le (a s : ℕ → α) (e : α) (k : ℕ) : a k + s k ≤ horizon a s e k := by
  cases k <;> exact add_le_add_left (le_max_left _ _) _

theorem horizon_add_le {j k : ℕ} (h : j ≤ k) :
    horizon a s e j + ∑ i ∈ Ioc j k, s i ≤ horizon a s e k := by
  induction k, h using Nat.le_induction with
  | base => simp
  | succ k hk ih =>
    rw [sum_Ioc_succ_top hk, ← add_assoc]
    exact add_le_add_left (ih.trans (le_max_right _ _)) _

/-- From any floor on, all the services since have to be done. -/
theorem floor_sum_le {j k : ℕ} (h : j ≤ k) : a j + ∑ i ∈ Icc j k, s i ≤ horizon a s e k := by
  rw [← add_sum_Ioc_eq_sum_Icc h, ← add_assoc]
  exact (add_le_add_left (floor_add_le a s e j) _).trans (horizon_add_le h)

theorem horizon_eq_sup (h0 : e ≤ a 0) (k : ℕ) :
    horizon a s e k =
      (range (k + 1)).sup' nonempty_range_add_one fun j => a j + ∑ i ∈ Icc j k, s i := by
  apply le_antisymm
  · obtain ⟨j, hj, heq⟩ := exists_floor (s := s) h0 k
    rw [heq]
    exact le_sup' (fun j => a j + ∑ i ∈ Icc j k, s i) (mem_range.mpr (Nat.lt_succ_of_le hj))
  · exact sup'_le _ _ fun j hj => floor_sum_le (Nat.le_of_lt_succ (mem_range.mp hj))

/-! ## Releases -/

/-- Customers leave in the order they came, one that has to wait strictly after those before it. -/
theorem release_lt {j k : ℕ} (h : j < k) (hd : d j ≤ d k) (hs : ∀ i ∈ Ioc j k, 0 < s i)
    (hwait : d k < release a d s e k) : release a d s e j < release a d s e k := by
  have hk : release a d s e k = horizon a s e k :=
    max_eq_right (le_of_lt ((lt_max_iff.mp hwait).resolve_left (lt_irrefl _)))
  have hpos : 0 < ∑ i ∈ Ioc j k, s i := sum_pos hs ⟨k, mem_Ioc.mpr ⟨h, le_rfl⟩⟩
  refine max_lt (hd.trans_lt hwait) ?_
  rw [hk]
  exact (lt_add_of_pos_right _ hpos).trans_le (horizon_add_le h.le)

theorem release_le {j k : ℕ} (h : j ≤ k) (hd : d j ≤ d k) (hs : ∀ i ∈ Ioc j k, 0 ≤ s i) :
    release a d s e j ≤ release a d s e k :=
  max_le_max hd ((le_add_of_nonneg_right (sum_nonneg hs)).trans (horizon_add_le h))

/-- The service of the customers that leave in the window from `u` to `v`. The floors trail the
arrivals by at most `c`, and `b` bounds every single service. -/
theorem window_le {m : ℕ} {b c u v : α} (hs : ∀ k < m, 0 ≤ s k) (hc : ∀ k < m, d k - c ≤ a k)
    (hb : ∀ k < m, s k ≤ b) (hc0 : 0 ≤ c) (huv : u ≤ v) :
    ∑ k ∈ (range m).filter (fun k => u < release a d s e k ∧ release a d s e k ≤ v), s k ≤
      max c b + (v - u) := by
  set W := (range m).filter fun k => u < release a d s e k ∧ release a d s e k ≤ v with hW
  rcases W.eq_empty_or_nonempty with hempty | hne
  · rw [hempty, sum_empty]
    exact add_nonneg (le_max_of_le_left hc0) (sub_nonneg.mpr huv)
  -- all of the window lies between its first and its last customer
  obtain ⟨hjm, hju, -⟩ : W.min' hne < m ∧ _ ∧ _ := by simpa [hW] using W.min'_mem hne
  obtain ⟨hkm, -, hkv⟩ : W.max' hne < m ∧ _ ∧ _ := by simpa [hW] using W.max'_mem hne
  have hjk : W.min' hne ≤ W.max' hne := W.min'_le_max' hne
  have hsub : ∑ k ∈ W, s k ≤ ∑ k ∈ Icc (W.min' hne) (W.max' hne), s k := by
    refine sum_le_sum_of_subset_of_nonneg (fun k hk => ?_) fun k hk _ => ?_
    · exact mem_Icc.mpr ⟨W.min'_le k hk, W.le_max' k hk⟩
    · exact hs k ((mem_Icc.mp hk).2.trans_lt hkm)
  have hv : horizon a s e (W.max' hne) ≤ v := (le_max_right _ _).trans hkv
  refine hsub.trans ?_
  rcases lt_or_ge (d (W.min' hne)) u with hearly | hlate
  · -- the first one waited, so the server was busy at `u`
    have hbusy : u ≤ horizon a s e (W.min' hne) :=
      le_of_lt ((lt_max_iff.mp hju).resolve_left (not_lt.mpr hearly.le))
    have hsum : ∑ i ∈ Ioc (W.min' hne) (W.max' hne), s i ≤ v - u := by
      have h := (add_le_add_left hbusy _).trans ((horizon_add_le hjk).trans hv)
      rwa [← le_sub_iff_add_le'] at h
    rw [← add_sum_Ioc_eq_sum_Icc hjk]
    exact add_le_add ((hb _ hjm).trans (le_max_right _ _)) hsum
  · have hfloor : u - c ≤ a (W.min' hne) := (sub_le_sub_right hlate c).trans (hc _ hjm)
    have hsum : ∑ i ∈ Icc (W.min' hne) (W.max' hne), s i ≤ v - (u - c) := by
      have h := (add_le_add_left hfloor _).trans ((floor_sum_le hjk).trans hv)
      rwa [← le_sub_iff_add_le'] at h
    refine hsum.trans ?_
    rw [sub_sub_eq_add_sub, add_comm v c, add_sub_assoc]
    exact add_le_add_left (le_max_left _ _) _

end Mrdl.Lindley
