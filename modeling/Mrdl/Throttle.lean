import Mathlib.Algebra.Order.Field.Rat
import Mathlib.Algebra.BigOperators.Field
import Mathlib.Algebra.Order.Field.Basic
import Mathlib.Algebra.Order.Group.MinMax
import Mathlib.Tactic.Linarith
import Mathlib.Tactic.NormNum
import Mathlib.Tactic.Positivity
import Mathlib.Tactic.Ring
import Mrdl.Foundations.Lindley

/-! # `TokenBucketThrottle`

The token bucket in exact arithmetic: times, rates and tokens are rationals. Nothing is awaited while
the lock is held, so a call of `consume` is one step that returns how long the caller then sleeps. The
time at which the bucket would be empty again is the horizon of `Lindley`: every call moves it by the
time its bytes take, and it never trails the clock by more than the burst.
-/

namespace Mrdl.Throttle
open Finset
set_option autoImplicit false

structure TokenBucketThrottle where
  burstSeconds : ℚ
  rateBps : Option ℚ := none
  capacity : ℚ := 0
  tokens : ℚ := 0
  lastRefill : ℚ := 0
  deriving DecidableEq, Repr

namespace TokenBucketThrottle

/-- `_refill`, at the time `now`. -/
def refill (t : TokenBucketThrottle) (now : ℚ) : TokenBucketThrottle :=
  match t.rateBps with
  | none => t
  | some rate =>
      { t with
        lastRefill := now
        tokens := min t.capacity (t.tokens + (now - t.lastRefill) * rate) }

/-- `update_rate`; `none` is its `ValueError`. -/
def updateRate (t : TokenBucketThrottle) (now : ℚ) (rateKbps : Option ℤ) : Option TokenBucketThrottle :=
  match rateKbps with
  | none => some { t.refill now with rateBps := none }
  | some kbps =>
      if kbps ≤ 0 then none
      else
        let newRate : ℚ := kbps * 1024
        let newCapacity := newRate * t.burstSeconds
        let t' : TokenBucketThrottle :=
          match t.rateBps with
          | none => { t with tokens := newCapacity, lastRefill := now }
          | some _ => { t.refill now with tokens := min (t.refill now).tokens newCapacity }
        some { t' with rateBps := some newRate, capacity := newCapacity }

/-- `__init__`, at the time `now`. -/
def new (now : ℚ) (rateKbps : Option ℤ) (burstSeconds : ℚ) :
    Option TokenBucketThrottle :=
  updateRate { burstSeconds } now rateKbps

/-- `consume`, entered at the time `now`: the state after the lock is released, and the sleep. -/
def consume (t : TokenBucketThrottle) (now : ℚ) (nBytes : ℤ) : TokenBucketThrottle × ℚ :=
  match t.rateBps with
  | none => (t, 0)
  | some rate =>
      if nBytes ≤ 0 then (t, 0)
      else
        let tokens := (t.refill now).tokens - nBytes
        ({ t.refill now with tokens },
          if tokens < 0 then -tokens / (if rate = 0 then 1 else rate) else 0)

/-! ## Sequences of calls -/

/-- The throttle before call `k`, when call `i` enters at `d i` and asks for `n i` bytes. -/
def after (t : TokenBucketThrottle) (d : ℕ → ℚ) (n : ℕ → ℤ) : ℕ → TokenBucketThrottle
  | 0 => t
  | k + 1 => ((after t d n k).consume (d k) (n k)).1

/-- When call `k` returns. -/
def returnTime (t : TokenBucketThrottle) (d : ℕ → ℚ) (n : ℕ → ℤ) (k : ℕ) : ℚ :=
  d k + ((after t d n k).consume (d k) (n k)).2

/-- A throttle of rate `R` and capacity `C` whose tokens are used up at the time `e`. -/
structure Running (R C e : ℚ) (t : TokenBucketThrottle) : Prop where
  rate : t.rateBps = some R
  capacity : t.capacity = C
  empty : t.lastRefill - t.tokens / R = e

theorem new_running {t : TokenBucketThrottle} {now burst : ℚ} {kbps : ℤ}
    (h : new now (some kbps) burst = some t) :
    0 < kbps ∧ Running (kbps * 1024) (kbps * 1024 * burst) (now - kbps * 1024 * burst / (kbps * 1024)) t := by
  simp only [new, updateRate] at h
  split at h
  · cases h
  · rename_i hpos
    cases h
    exact ⟨by omega, rfl, rfl, rfl⟩

/-- One call moves the horizon by the time its bytes take, and its caller sleeps until then. -/
theorem consume_running {R C e now : ℚ} {n : ℤ} {t : TokenBucketThrottle} (hR : 0 < R) (hn : 0 < n)
    (h : Running R C e t) :
    Running R C (max (now - C / R) e + n / R) (t.consume now n).1 ∧
      now + (t.consume now n).2 = max now (max (now - C / R) e + n / R) := by
  have hrefill : t.refill now =
      { t with lastRefill := now, tokens := min C (t.tokens + (now - t.lastRefill) * R) } := by
    simp only [refill, h.rate, h.capacity]
  have hempty : now - (min C (t.tokens + (now - t.lastRefill) * R) - n) / R =
      max (now - C / R) e + n / R := by
    have hmin : min C (t.tokens + (now - t.lastRefill) * R) / R =
        min (C / R) (t.tokens / R + (now - t.lastRefill)) := by
      rw [← min_div_div_right hR.le, add_div, mul_div_assoc, div_self hR.ne', mul_one]
    have hlag : now - (t.tokens / R + (now - t.lastRefill)) = e := by
      rw [← h.empty]
      ring
    rw [sub_div, hmin, sub_sub_eq_add_sub, add_sub_right_comm, ← max_sub_sub_left, hlag]
  have hconsume : t.consume now n =
      ({ t.refill now with tokens := (t.refill now).tokens - n },
        if (t.refill now).tokens - n < 0 then -((t.refill now).tokens - n) / R else 0) := by
    unfold consume
    simp only [h.rate, if_neg (not_le.mpr hn), if_neg hR.ne']
  rw [hconsume, hrefill]
  refine ⟨⟨h.rate, h.capacity, hempty⟩, ?_⟩
  rw [← hempty]
  simp only
  split
  · rename_i hneg
    rw [neg_div, ← sub_eq_add_neg]
    exact (max_eq_right (by linarith [div_neg_of_neg_of_pos hneg hR])).symm
  · rename_i hpos
    rw [add_zero]
    exact (max_eq_left (by linarith [div_nonneg (not_lt.mp hpos) hR.le])).symm

variable {R C e : ℚ} {t : TokenBucketThrottle} {d : ℕ → ℚ} {n : ℕ → ℤ} {m : ℕ}

theorem returnTime_eq (hR : 0 < R) (h : Running R C e t) (hn : ∀ k < m, 0 < n k) {k : ℕ} (hk : k < m) :
    Running R C (Lindley.horizon (fun k => d k - C / R) (fun k => n k / R) e k) (t.after d n (k + 1)) ∧
      t.returnTime d n k = Lindley.release (fun k => d k - C / R) d (fun k => n k / R) e k := by
  induction k with
  | zero => exact consume_running hR (hn 0 hk) h
  | succ k ih => exact consume_running hR (hn (k + 1) hk) (ih (by omega)).1

/-- A throttle that is never updated admits exactly what its rate allows: each call returns when the
tokens of all calls since some earlier one suffice, the returns keep the order of the entries, and a
window of length `v - u` sees at most the capacity, or the largest single call, beyond `R * (v - u)`. -/
theorem consume_exact {burst t₀ : ℚ} {kbps : ℤ} (hburst : 0 < burst)
    (hnew : new t₀ (some kbps) burst = some t) (hstart : ∀ k < m, t₀ ≤ d k)
    (hd : ∀ j k, j ≤ k → k < m → d j ≤ d k) (hn : ∀ k < m, 0 < n k) :
    let R : ℚ := kbps * 1024
    let C : ℚ := R * burst
    (∀ k < m, t.returnTime d n k = max (d k)
      ((range (k + 1)).sup' nonempty_range_add_one fun j => d j + (∑ i ∈ Icc j k, (n i : ℚ) - C) / R)) ∧
    (∀ j k, j < k → k < m → t.returnTime d n j ≤ t.returnTime d n k ∧
      (d k < t.returnTime d n k → t.returnTime d n j < t.returnTime d n k)) ∧
    (∀ u v, u ≤ v → ∀ largest : ℤ, (∀ k < m, n k ≤ largest) →
      ∑ k ∈ (range m).filter (fun k => u < t.returnTime d n k ∧ t.returnTime d n k ≤ v), (n k : ℚ) ≤
        max C largest + R * (v - u)) := by
  intro R C
  obtain ⟨hpos, hrun⟩ := new_running hnew
  have hR : 0 < R := by positivity
  have hC : 0 < C := mul_pos hR hburst
  have hret : ∀ k < m, t.returnTime d n k = _ := fun k hk => (returnTime_eq hR hrun hn hk).2
  have hs : ∀ k < m, (0 : ℚ) < n k / R := fun k hk => div_pos (by exact_mod_cast hn k hk) hR
  refine ⟨fun k hk => ?_, fun j k hjk hk => ?_, fun u v huv largest hlarge => ?_⟩
  · rw [hret k hk, Lindley.release,
      Lindley.horizon_eq_sup (sub_le_sub_right (hstart 0 (by omega)) _)]
    congr 2
    funext j
    rw [← sum_div, sub_div]
    ring
  · rw [hret k hk, hret j (hjk.trans hk)]
    have hsub : ∀ i ∈ Ioc j k, (0 : ℚ) < n i / R := fun i hi =>
      hs i ((mem_Ioc.mp hi).2.trans_lt hk)
    exact ⟨Lindley.release_le hjk.le (hd j k hjk.le hk) fun i hi => (hsub i hi).le,
      Lindley.release_lt hjk (hd j k hjk.le hk) hsub⟩
  · have hwin := Lindley.window_le (a := fun k => d k - C / R) (d := d) (s := fun k => (n k : ℚ) / R)
      (e := t₀ - C / R) (m := m) (b := (largest : ℚ) / R) (c := C / R) (fun k hk => (hs k hk).le)
      (fun k _ => le_rfl) (fun k hk => div_le_div_of_nonneg_right (by exact_mod_cast hlarge k hk) hR.le)
      (div_pos hC hR).le huv
    have hfilter : (range m).filter (fun k => u < t.returnTime d n k ∧ t.returnTime d n k ≤ v) =
        (range m).filter (fun k =>
          u < Lindley.release (fun k => d k - C / R) d (fun k => (n k : ℚ) / R) (t₀ - C / R) k ∧
          Lindley.release (fun k => d k - C / R) d (fun k => (n k : ℚ) / R) (t₀ - C / R) k ≤ v) :=
      filter_congr fun k hk => by rw [hret k (mem_range.mp hk)]
    rw [hfilter]
    rw [← sum_div, max_div_div_right hR.le, div_add' _ _ _ hR.ne', div_le_div_iff_of_pos_right hR] at hwin
    rwa [mul_comm (v - u)] at hwin

/-- Two calls of two seconds each on a bucket that holds one second: the second one returns after
three. -/
theorem consume_exact_two :
    ∃ t, new 0 (some 8) 1 = some t ∧ t.returnTime (fun _ => 0) (fun _ => 16384) 1 = 3 := by
  obtain ⟨t, ht⟩ : ∃ t, new 0 (some 8) 1 = some t := ⟨_, rfl⟩
  refine ⟨t, ht, ?_⟩
  have h := (consume_exact (m := 2) one_pos ht (fun _ _ => le_rfl) (fun _ _ _ _ => le_rfl)
    (fun _ _ => by norm_num : ∀ k < 2, 0 < (fun _ => (16384 : ℤ)) k)).1 1 one_lt_two
  rw [h]
  norm_num [range_add_one, sum_Icc_succ_top]

end TokenBucketThrottle

end Mrdl.Throttle
