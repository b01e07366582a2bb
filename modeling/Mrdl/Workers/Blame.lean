import Mrdl.Workers.Hands

/-! # What the pool says about its end

`last_error` is set together with the stop events, so a run that is not stopped has none, and `run` answers
`False` only when the stop event was set. After a run that succeeded nothing is left that could set it.
-/

namespace Mrdl.Workers
set_option autoImplicit false

/-- `run` returns `False`, or has done so. -/
def RunPc.fails : RunPc → Bool
  | .leaving (.returned success) | .ended (.returned success) => !success
  | _ => false

/-- `run` was cancelled, or had no worker to wait for. -/
def RunPc.broken : RunPc → Bool
  | .leaving .cancelled | .ended .cancelled | .ended .valueError => true
  | _ => false

structure Blamed (ev : Events) (p : WorkerPool) : Prop where
  stopped : p.lastError ≠ none → ev.stopEvent = true
  clean : p.run.succeeds = true → p.joined = true ∧ p.lastError = none
  halted : p.run.fails = true → ev.stopEvent = true

section
variable {ev ev' : Events} {p q : WorkerPool} {chunks : List ℕ} {a : PoolAct}

theorem putSentinels_lastError (n : ℕ) (p : WorkerPool) : (p.putSentinels n).lastError = p.lastError := by
  induction n generalizing p with
  | zero => rfl
  | succ n ih => exact ih _

theorem leave_lastError (p : WorkerPool) (result : RunResult) : (p.leave result).lastError = p.lastError := by
  unfold WorkerPool.leave
  split
  · rfl
  · exact putSentinels_lastError _ _

theorem leave_fails {result : RunResult} (h : (p.leave result).run.fails = true) : result = .returned false := by
  unfold WorkerPool.leave at h
  split at h
  · cases h
  · cases result with
    | returned success =>
      cases success
      · rfl
      · cases h
    | _ => cases h

/-- The error is set by a worker that has a chunk of the run, and with it the stop events. -/
theorem poolStep_lastError (h : Conserved chunks ev p) (hs : poolStep ev p a = some (ev', q)) :
    q.lastError = p.lastError ∨
      (q.lastError ≠ none ∧ ev' = ev.stopBoth ∧ ∃ item ∈ p.tokens, item.chunkIdx ≠ stopSentinel) := by
  cases poolStep_moves hs with
  | allBanned w item rest banned allBanned here head =>
    by_cases hchunk : item.chunkIdx = stopSentinel
    · simp only [poolStep, here, head, takeItem, if_pos hchunk, Option.some.injEq, Prod.mk.injEq] at hs
      rw [← hs.2]
      exact Or.inl rfl
    · refine Or.inr ⟨Option.some_ne_none _, rfl, item, List.mem_append_left _ ?_, hchunk⟩
      rw [head]
      exact List.mem_cons_self ..
  | gaveUp w item t typeName message here =>
    obtain ⟨x, hx, hpc⟩ := pcOf_mem here
    have hmem : item ∈ p.tokens := List.mem_append_right _ (mem_hands_of_pcOf here)
    exact Or.inr ⟨Option.some_ne_none _, rfl, item, hmem, (h.due x hx item t hpc).2⟩
  | wakes | stopped => exact Or.inl (leave_lastError _ _)
  | _ => exact Or.inl rfl

theorem poolStep_fails (hs : poolStep ev p a = some (ev', q)) (hq : q.run.fails = true) :
    p.run.fails = true ∨ ev.stopEvent = true := by
  cases poolStep_moves hs with
  | wakes joinDone woken =>
    have hresult := leave_fails hq
    simp only [RunResult.returned.injEq, Bool.and_eq_false_iff, Bool.not_eq_false'] at hresult
    rcases hresult with hjoin | hstop
    · rw [hjoin] at woken
      exact Or.inr woken
    · exact Or.inr hstop
  | stopped => cases leave_fails hq
  | cancelled result run => cases hq
  | ends result run =>
    rw [run]
    exact Or.inl (by cases result <;> exact hq)
  | _ => exact Or.inl hq

theorem Blamed.le (h : Blamed ev p) (hle : ev.Le ev') : Blamed ev' p :=
  ⟨fun he => hle.stopEvent (h.stopped he), h.clean, fun hf => hle.stopEvent (h.halted hf)⟩

theorem poolStep_blamed (h : Conserved chunks ev p) (hb : Blamed ev p) (hs : poolStep ev p a = some (ev', q)) :
    Blamed ev' q := by
  have honward := poolStep_onward hs
  have herror := poolStep_lastError h hs
  have hno : p.lastError = none → p.joined = true → q.joined = true ∧ q.lastError = none := by
    intro hnone hjoined
    refine ⟨honward.stays hjoined, ?_⟩
    rcases herror with heq | ⟨-, -, item, hitem, hchunk⟩
    · rw [heq, hnone]
    · exact absurd (h.joined hjoined item hitem) hchunk
  refine ⟨fun he => ?_, fun hq => ?_, fun hq => ?_⟩
  · rcases herror with heq | ⟨-, rfl, -⟩
    · exact honward.le.stopEvent (hb.stopped (heq ▸ he))
    · rfl
  · rcases poolStep_succeeds hs hq with hold | ⟨hjoined, hstop⟩
    · exact hno (hb.clean hold).2 (hb.clean hold).1
    · refine hno (Classical.byContradiction fun hne => ?_) hjoined
      rw [hb.stopped hne] at hstop
      cases hstop
  · rcases poolStep_fails hs hq with hold | hstop
    · exact honward.le.stopEvent (hb.halted hold)
    · exact honward.le.stopEvent hstop

/-- The thread event is set by an error. Apart from that the stop event is set when `run` is cancelled. -/
theorem poolStep_gives_up (hs : poolStep ev p a = some (ev', q)) :
    (ev' = ev ∧ (p.run.broken = true → q.run.broken = true)) ∨
      (ev' = ev.stopBoth ∧ q.lastError ≠ none ∧ q.run = p.run) ∨
      (ev' = { ev with stopEvent := true } ∧ q.run.broken = true) := by
  have hleave : ∀ r : WorkerPool, p.run = .waiting → p.run.broken = true → r.run.broken = true := by
    intro r hrun hbroken
    rw [hrun] at hbroken
    cases hbroken
  cases poolStep_moves hs with
  | allBanned | gaveUp => exact Or.inr (Or.inl ⟨rfl, Option.some_ne_none _, rfl⟩)
  | wakes joinDone woken =>
    simp only [poolStep, Option.ite_none_right_eq_some] at hs
    exact Or.inl ⟨rfl, hleave _ hs.1.1⟩
  | stopped =>
    refine Or.inr (Or.inr ⟨rfl, ?_⟩)
    unfold WorkerPool.leave
    split <;> rfl
  | cancelled result run => exact Or.inl ⟨rfl, fun _ => rfl⟩
  | ends result run =>
    refine Or.inl ⟨rfl, fun hbroken => ?_⟩
    rw [run] at hbroken
    cases result <;> first | rfl | cases hbroken
  | _ => exact Or.inl ⟨rfl, id⟩

theorem Blamed.init (ev : Events) (sources : List String) (threadsPerSource : ℕ) (chunks completed : List ℕ) :
    Blamed ev (WorkerPool.init sources threadsPerSource chunks completed) :=
  ⟨fun h => absurd rfl h, fun h => (by cases h), fun h => (by cases h)⟩

end

end Mrdl.Workers
