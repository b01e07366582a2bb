import Mrdl.Foundations.Runs
import Mrdl.Throttle

/-! # `update_rate` on a live throttle

`consume`, `update_rate` and the clock in any order. `Accounted` counts the tokens together with what
has accrued since the last refill: the clock adds to that what the rate in force allows, a call of
`consume` takes its bytes from it, and a refill only moves the accrued part into the bucket.
-/

namespace Mrdl.Throttle
open Mrdl.Runs
set_option autoImplicit false

/-- A throttle and the monotonic clock it reads. -/
structure Live where
  throttle : TokenBucketThrottle
  now : ℚ
  deriving DecidableEq, Repr

inductive LiveAct where
  | consume (nBytes : ℤ)
  /-- `update_rate`, as `set_speed_limit` calls it. -/
  | updateRate (rateKbps : ℤ)
  | advance (elapsed : ℚ)
  deriving DecidableEq, Repr

/-- One call, or the clock moving on; a rate that raises `ValueError` is no step. -/
def liveStep (s : Live) : LiveAct → Option Live
  | .consume nBytes =>
      if 0 < nBytes then some { s with throttle := (s.throttle.consume s.now nBytes).1 } else none
  | .updateRate rateKbps =>
      (s.throttle.updateRate s.now (some rateKbps)).map fun t => { s with throttle := t }
  | .advance elapsed => if 0 ≤ elapsed then some { s with now := s.now + elapsed } else none

/-! ## What a run asks for, and what its rates allow -/

namespace LiveAct

/-- The rate in force after an action that is entered at the rate `kbps`. -/
def rate (kbps : ℤ) : LiveAct → ℤ
  | updateRate rateKbps => rateKbps
  | consume _ | advance _ => kbps

/-- The bytes that the rate in force allows while the action takes place. -/
def allowed (kbps : ℤ) : LiveAct → ℚ
  | advance elapsed => elapsed * (kbps * 1024)
  | consume _ | updateRate _ => 0

def deducted : LiveAct → ℤ
  | consume nBytes => nBytes
  | updateRate _ | advance _ => 0

end LiveAct

def currentRate (kbps : ℤ) (ops : List LiveAct) : ℤ := ops.foldl LiveAct.rate kbps

/-- The sum over time of the rate in force. -/
def allowance : ℤ → List LiveAct → ℚ
  | _, [] => 0
  | kbps, op :: ops => op.allowed kbps + allowance (op.rate kbps) ops

def deducted (ops : List LiveAct) : ℤ := (ops.map LiveAct.deducted).sum

/-! ## The accounting invariant -/

/-- The rate in force is `kbps`, and the bucket, with what has accrued since it was last filled, holds
at most `budget` bytes. -/
structure Accounted (burst : ℚ) (kbps : ℤ) (budget : ℚ) (s : Live) : Prop where
  positive : 0 < kbps
  rate : s.throttle.rateBps = some (kbps * 1024 : ℚ)
  burstSeconds : s.throttle.burstSeconds = burst
  capacity : s.throttle.capacity = kbps * 1024 * burst
  full : s.throttle.tokens ≤ s.throttle.capacity
  past : s.throttle.lastRefill ≤ s.now
  funded : s.throttle.tokens + (s.now - s.throttle.lastRefill) * (kbps * 1024) ≤ budget

section
variable {burst budget : ℚ} {kbps : ℤ} {s s' : Live}

theorem Accounted.rate_pos (h : Accounted burst kbps budget s) : (0 : ℚ) < kbps * 1024 :=
  mul_pos (by exact_mod_cast h.positive) (by norm_num)

theorem Accounted.refill (h : Accounted burst kbps budget s) :
    s.throttle.refill s.now = { s.throttle with
      lastRefill := s.now
      tokens := min s.throttle.capacity
        (s.throttle.tokens + (s.now - s.throttle.lastRefill) * (kbps * 1024)) } := by
  simp only [TokenBucketThrottle.refill, h.rate]

theorem Accounted.tokens_le (h : Accounted burst kbps budget s) : s.throttle.tokens ≤ budget := by
  have haccrued : 0 ≤ (s.now - s.throttle.lastRefill) * (kbps * 1024) :=
    mul_nonneg (sub_nonneg.mpr h.past) h.rate_pos.le
  linarith [h.funded]

theorem Accounted.consume {nBytes : ℤ} (h : Accounted burst kbps budget s) (hn : 0 < nBytes) :
    s.throttle.consume s.now nBytes =
      ({ s.throttle.refill s.now with tokens := (s.throttle.refill s.now).tokens - nBytes },
        max 0 (-((s.throttle.refill s.now).tokens - nBytes)) / (kbps * 1024)) := by
  have hpos := h.rate_pos
  simp only [TokenBucketThrottle.consume, h.rate, if_neg (not_le.mpr hn), if_neg hpos.ne']
  congr 1
  split
  · rename_i hneg
    rw [max_eq_right (by linarith)]
  · rename_i hpaid
    rw [max_eq_left (by linarith), zero_div]

theorem Accounted.updateRate {rateKbps : ℤ} {t : TokenBucketThrottle}
    (h : Accounted burst kbps budget s) (ht : s.throttle.updateRate s.now (some rateKbps) = some t) :
    0 < rateKbps ∧ t = { s.throttle.refill s.now with
      rateBps := some (rateKbps * 1024 : ℚ)
      capacity := rateKbps * 1024 * burst
      tokens := min (s.throttle.refill s.now).tokens (rateKbps * 1024 * burst) } := by
  simp only [TokenBucketThrottle.updateRate, h.rate, h.burstSeconds] at ht
  split at ht
  · cases ht
  · rename_i hpos
    exact ⟨not_le.mp hpos, (Option.some.inj ht).symm⟩

theorem accounted_step {op : LiveAct} (h : Accounted burst kbps budget s)
    (hs : liveStep s op = some s') :
    Accounted burst (op.rate kbps) (budget + op.allowed kbps - op.deducted) s' := by
  cases op with
  | consume nBytes =>
    simp only [liveStep, Option.ite_none_right_eq_some, Option.some.injEq] at hs
    obtain ⟨hn, rfl⟩ := hs
    rw [h.consume hn, h.refill]
    have hn' : (0 : ℚ) < nBytes := by exact_mod_cast hn
    have hmin := min_le_left s.throttle.capacity
      (s.throttle.tokens + (s.now - s.throttle.lastRefill) * (kbps * 1024))
    have hmin' := min_le_right s.throttle.capacity
      (s.throttle.tokens + (s.now - s.throttle.lastRefill) * (kbps * 1024))
    refine ⟨h.positive, h.rate, h.burstSeconds, h.capacity, ?_, le_rfl, ?_⟩
    · simp only
      linarith
    · simp only [LiveAct.allowed, LiveAct.deducted, LiveAct.rate, sub_self, zero_mul, add_zero]
      linarith [h.funded]
  | updateRate rateKbps =>
    simp only [liveStep, Option.map_eq_some_iff] at hs
    obtain ⟨t, ht, rfl⟩ := hs
    obtain ⟨hpos, rfl⟩ := h.updateRate ht
    rw [h.refill]
    have hmin := min_le_left (min s.throttle.capacity
      (s.throttle.tokens + (s.now - s.throttle.lastRefill) * (kbps * 1024))) (rateKbps * 1024 * burst)
    have hmin' := min_le_right s.throttle.capacity
      (s.throttle.tokens + (s.now - s.throttle.lastRefill) * (kbps * 1024))
    refine ⟨hpos, rfl, h.burstSeconds, rfl, min_le_right _ _, le_rfl, ?_⟩
    simp only [LiveAct.allowed, LiveAct.deducted, LiveAct.rate, sub_self, zero_mul, add_zero,
      Int.cast_zero, sub_zero]
    linarith [h.funded]
  | advance elapsed =>
    simp only [liveStep, Option.ite_none_right_eq_some, Option.some.injEq] at hs
    obtain ⟨hd, rfl⟩ := hs
    have hpast := h.past
    refine ⟨h.positive, h.rate, h.burstSeconds, h.capacity, h.full, by simp only; linarith, ?_⟩
    simp only [LiveAct.allowed, LiveAct.deducted, LiveAct.rate, Int.cast_zero, sub_zero]
    linarith [h.funded]

theorem accounted_exec {ops : List LiveAct} (h : Accounted burst kbps budget s)
    (hrun : exec liveStep s ops = some s') :
    Accounted burst (currentRate kbps ops) (budget + allowance kbps ops - deducted ops) s' := by
  induction ops generalizing s kbps budget with
  | nil =>
    cases hrun
    simpa [currentRate, allowance, deducted] using h
  | cons op ops ih =>
    obtain ⟨u, hu, hrest⟩ := exec_cons.mp hrun
    have hend := ih (accounted_step h hu) hrest
    have hbudget : budget + op.allowed kbps - op.deducted + allowance (op.rate kbps) ops - deducted ops =
        budget + allowance kbps (op :: ops) - deducted (op :: ops) := by
      simp only [allowance, deducted, List.map_cons, List.sum_cons, Int.cast_add]
      ring
    rw [hbudget] at hend
    exact hend

end

theorem accounted_new {t : TokenBucketThrottle} {t₀ burst : ℚ} {kbps : ℤ}
    (h : TokenBucketThrottle.new t₀ (some kbps) burst = some t) :
    Accounted burst kbps (kbps * 1024 * burst) ⟨t, t₀⟩ := by
  simp only [TokenBucketThrottle.new, TokenBucketThrottle.updateRate] at h
  split at h
  · cases h
  · rename_i hpos
    cases h
    exact ⟨not_le.mp hpos, rfl, rfl, rfl, le_rfl, le_rfl, by simp⟩

/-- Live rate changes never create tokens: after any calls the bucket holds at most the burst of the
rate in force, the bytes deducted are covered by the first burst and the rates over time, a debt that
is left at the old rate survives the change, and a call sleeps for what is missing. -/
theorem live_rate_exact {t : TokenBucketThrottle} {t₀ burst : ℚ} {kbps : ℤ} {ops : List LiveAct}
    {s : Live} (hnew : TokenBucketThrottle.new t₀ (some kbps) burst = some t)
    (hrun : exec liveStep ⟨t, t₀⟩ ops = some s) :
    let R : ℚ := currentRate kbps ops * 1024
    s.throttle.rateBps = some R ∧ s.throttle.tokens ≤ s.throttle.capacity ∧
      s.throttle.capacity = R * burst ∧
      deducted ops + s.throttle.tokens ≤ kbps * 1024 * burst + allowance kbps ops ∧
      (∀ rateKbps s', 0 ≤ burst → liveStep s (.updateRate rateKbps) = some s' →
        s.throttle.tokens + (s.now - s.throttle.lastRefill) * R < 0 →
        s'.throttle.tokens = s.throttle.tokens + (s.now - s.throttle.lastRefill) * R) ∧
      ∀ nBytes s', liveStep s (.consume nBytes) = some s' →
        (s.throttle.consume s.now nBytes).2 = max 0 (-s'.throttle.tokens) / R := by
  intro R
  have h := accounted_exec (accounted_new hnew) hrun
  refine ⟨h.rate, h.full, h.capacity, ?_, fun rateKbps s' hburst hs hdebt => ?_, fun nBytes s' hs => ?_⟩
  · linarith [h.tokens_le]
  · simp only [liveStep, Option.map_eq_some_iff] at hs
    obtain ⟨t', ht', rfl⟩ := hs
    obtain ⟨hpos, rfl⟩ := h.updateRate ht'
    have hold : 0 ≤ s.throttle.capacity := by
      rw [h.capacity]
      exact mul_nonneg h.rate_pos.le hburst
    have hnew : (0 : ℚ) ≤ rateKbps * 1024 * burst :=
      mul_nonneg (mul_nonneg (by exact_mod_cast hpos.le) (by norm_num)) hburst
    rw [h.refill]
    simp only
    rw [min_eq_right (hdebt.le.trans hold), min_eq_left (hdebt.le.trans hnew)]
  · simp only [liveStep, Option.ite_none_right_eq_some, Option.some.injEq] at hs
    obtain ⟨hn, rfl⟩ := hs
    rw [h.consume hn]

/-- Two seconds' bytes on a bucket of one second, and half a second later the rate is doubled: what
is missing for the other half second is still missing. -/
theorem live_rate_exact_debt :
    ∃ t s s', TokenBucketThrottle.new 0 (some 8) 1 = some t ∧
      exec liveStep ⟨t, 0⟩ [.consume 16384, .advance (1 / 2)] = some s ∧
      liveStep s (.updateRate 16) = some s' ∧ s'.throttle.tokens = -4096 := by
  have ht : TokenBucketThrottle.new 0 (some 8) 1 = some ⟨1, some 8192, 8192, 8192, 0⟩ := by
    decide +kernel
  have hs : exec liveStep ⟨⟨1, some 8192, 8192, 8192, 0⟩, 0⟩ [.consume 16384, .advance (1 / 2)] =
      some ⟨⟨1, some 8192, 8192, -8192, 0⟩, 1 / 2⟩ := by decide +kernel
  have hs' : liveStep ⟨⟨1, some 8192, 8192, -8192, 0⟩, 1 / 2⟩ (.updateRate 16) =
      some ⟨⟨1, some 16384, 16384, -4096, 1 / 2⟩, 1 / 2⟩ := by decide +kernel
  refine ⟨_, _, _, ht, hs, hs', ?_⟩
  rw [(live_rate_exact ht hs).2.2.2.2.1 16 _ (by norm_num) hs' (by norm_num [currentRate, LiveAct.rate])]
  norm_num [currentRate, LiveAct.rate]

end Mrdl.Throttle
