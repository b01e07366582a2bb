import Mrdl.Foundations.Costs
import Mrdl.Workers.Hands
import Mathlib.Algebra.BigOperators.Ring.List

/-! # How often a chunk is fetched

An entry of the queue may be fetched six times, less the times it was retried, and an entry in the hands of a
worker once less. No action of the pool adds to that.
-/

namespace Mrdl.Workers
open Runs
set_option autoImplicit false

/-- What the rest of `n` attempts at an entry comes to, where an attempt at a chunk has its weight. -/
def worth (weight : ℕ → ℕ) (n : ℕ) (item : QueueItem) : ℕ :=
  if item.chunkIdx = stopSentinel then 0 else weight item.chunkIdx.toNat * (n - item.retries)

/-- The attempts that the pool has still to make, at most. -/
def WorkerPool.allowance (weight : ℕ → ℕ) (p : WorkerPool) : ℕ :=
  (p.queue.map (worth weight 6)).sum + ((hands p.workers).map (worth weight 5)).sum

/-- The weight of the chunk on which the action has a worker call `fetch`. -/
def fetchStarts (weight : ℕ → ℕ) (ev : Events) (p : WorkerPool) : PoolAct → ℕ
  | .get w banned allBanned =>
      match poolStep ev p (.get w banned allBanned) with
      | some (_, q) =>
          match q.pcOf w with
          | some (.fetching item _) => weight item.chunkIdx.toNat
          | _ => 0
      | none => 0
  | _ => 0

section
variable {weight : ℕ → ℕ} {ev ev' : Events} {p q : WorkerPool} {w : ℕ} {pc e : WorkerPc} {item : QueueItem}

theorem worth_mono (weight : ℕ → ℕ) (item : QueueItem) : worth weight 5 item ≤ worth weight 6 item := by
  unfold worth
  split
  · exact Nat.le_refl 0
  · exact Nat.mul_le_mul_left _ (by omega)

theorem worth_sentinel (weight : ℕ → ℕ) (n : ℕ) : worth weight n ⟨0, stopSentinel, 0⟩ = 0 := rfl

/-- A retry costs an attempt. -/
theorem worth_retried {retryTime : ℚ} :
    worth weight 6 ⟨retryTime, item.chunkIdx, item.retries + 1⟩ = worth weight 5 item := by
  rw [worth, worth, Nat.succ_sub_succ 5 item.retries]

theorem worth_started (weight : ℕ → ℕ) (hchunk : item.chunkIdx ≠ stopSentinel) (hretries : item.retries ≤ 5) :
    weight item.chunkIdx.toNat + worth weight 5 item = worth weight 6 item := by
  rw [worth, worth, if_neg hchunk, if_neg hchunk, Nat.succ_sub hretries, Nat.mul_succ, Nat.add_comm]

/-! ## The hands -/

theorem handsWorth_move (weight : ℕ → ℕ) (h : p.pcOf w = some pc) :
    (pc.item?.toList.map (worth weight 5)).sum + ((hands (p.move w e).workers).map (worth weight 5)).sum =
      (e.item?.toList.map (worth weight 5)).sum + ((hands p.workers).map (worth weight 5)).sum := by
  have hperm := ((move_hands (e := e) h).map (worth weight 5)).sum_nat
  rwa [List.map_append, List.map_append, List.sum_append, List.sum_append] at hperm

theorem handsWorth_down (weight : ℕ → ℕ) (h : p.pcOf w = some pc) (hpc : pc.item? = some item) (he : e.item? = none) :
    worth weight 5 item + ((hands (p.move w e).workers).map (worth weight 5)).sum =
      ((hands p.workers).map (worth weight 5)).sum := by
  have hmove := handsWorth_move weight (e := e) h
  rw [hpc, he] at hmove
  simpa using hmove

theorem handsWorth_up (weight : ℕ → ℕ) (h : p.pcOf w = some pc) (hpc : pc.item? = none) (he : e.item? = some item) :
    ((hands (p.move w e).workers).map (worth weight 5)).sum =
      worth weight 5 item + ((hands p.workers).map (worth weight 5)).sum := by
  have hmove := handsWorth_move weight (e := e) h
  rw [hpc, he] at hmove
  simpa using hmove

theorem handsWorth_le (weight : ℕ → ℕ) (h : p.pcOf w = some pc) (he : e.item? = none) :
    ((hands (p.move w e).workers).map (worth weight 5)).sum ≤ ((hands p.workers).map (worth weight 5)).sum := by
  have hmove := handsWorth_move weight (e := e) h
  rw [he, Option.toList_none, List.map_nil, List.sum_nil, Nat.zero_add] at hmove
  omega

theorem queueWorth_put (weight : ℕ → ℕ) (item : QueueItem) (p : WorkerPool) :
    ((p.put item).queue.map (worth weight 6)).sum = worth weight 6 item + (p.queue.map (worth weight 6)).sum := by
  have hperm := ((put_queue p item).map (worth weight 6)).sum_nat
  rwa [List.map_cons, List.sum_cons] at hperm

theorem leave_allowance (p : WorkerPool) (result : RunResult) :
    (p.leave result).allowance weight = p.allowance weight := by
  obtain ⟨n, hn⟩ := leave_spec p result
  have hperm := (hn.queue.map (worth weight 6)).sum_nat
  rw [List.map_append, List.sum_append, List.map_replicate, worth_sentinel, List.sum_replicate_nat,
    Nat.mul_zero, Nat.zero_add] at hperm
  rw [WorkerPool.allowance, WorkerPool.allowance, hperm, hn.workers]

theorem poolStep_allowance (weight : ℕ → ℕ) {a : PoolAct} (hs : poolStep ev p a = some (ev', q)) :
    q.allowance weight ≤ p.allowance weight := by
  unfold WorkerPool.allowance
  cases poolStep_moves hs with
  | idle a w pc e here free after other | pays a w pc e here debt after other down
  | dropped w item t typeName message healthRaises e here after why =>
    exact Nat.add_le_add_left (handsWorth_le weight here (item_of_owes after)) _
  | returned w item t here => exact Nat.add_le_add_left (handsWorth_le weight here (loopHead_item ev)) _
  | gaveUp w item t typeName message here => exact Nat.add_le_add_left (handsWorth_le weight here (loopHead_item _)) _
  | sentinel w item rest banned allBanned here head | allBanned w item rest banned allBanned here head =>
    have hmove := handsWorth_le weight (p := { p with queue := rest }) (e := .exited) here rfl
    rw [head, List.map_cons, List.sum_cons]
    dsimp only [WorkerPool.taskDone, WorkerPool.move] at hmove ⊢
    omega
  | putBack w item rest banned allBanned here head =>
    have hmove := handsWorth_le weight (p := { p with queue := rest }) (e := .backoff) here rfl
    have hput := queueWorth_put weight item { p with queue := rest }
    rw [head, List.map_cons, List.sum_cons]
    dsimp only [WorkerPool.move, WorkerPool.put] at hmove hput ⊢
    omega
  | starts w item rest banned allBanned here head chunk due =>
    have hmove := handsWorth_up weight (p := { p with queue := rest }) (e := .fetching item p.now) here
      rfl rfl
    have hworth := worth_mono weight item
    rw [head, List.map_cons, List.sum_cons]
    dsimp only [WorkerPool.move] at hmove ⊢
    omega
  | retried w item t typeName message here few =>
    have hmove := handsWorth_down weight (e := loopHead ev) here rfl (loopHead_item ev)
    have hput := queueWorth_put weight
      ⟨p.now + WorkerPool.backoffDelay item.retries, item.chunkIdx, item.retries + 1⟩ p
    rw [worth_retried] at hput
    dsimp only [WorkerPool.move, WorkerPool.taskDone, WorkerPool.put] at hmove hput ⊢
    omega
  | wakes | stopped => exact (leave_allowance p _).le
  | joined | cancelled | ends | tick => exact le_refl _

/-- A worker that comes out of `get` in its fetch has the entry that stood first in the queue. -/
theorem get_starts {banned allBanned : Bool} {t : ℚ} (hs : poolStep ev p (.get w banned allBanned) = some (ev', q))
    (hq : q.pcOf w = some (.fetching item t)) :
    ∃ rest, p.queue = item :: rest ∧ item.chunkIdx ≠ stopSentinel ∧ p.pcOf w = some .getting ∧
      q = { p with queue := rest }.move w (.fetching item p.now) := by
  simp only [poolStep] at hs
  split at hs
  · rename_i x rest here head
    have hidle : ∀ (r : WorkerPool) (e : WorkerPc), r.workers = p.workers → e.item? = none →
        (r.move w e).pcOf w ≠ some (.fetching item t) := by
      intro r e hr he heq
      have hgetting : r.pcOf w = some .getting := by
        rw [WorkerPool.pcOf, hr]
        exact here
      rw [move_pcOf_self hgetting] at heq
      rw [Option.some.inj heq] at he
      cases he
    unfold takeItem at hs
    split at hs
    · cases hs
      exact absurd hq (hidle { p with queue := rest } .exited rfl rfl)
    · rename_i hchunk
      split at hs
      · cases hs
        exact absurd hq (hidle ({ p with queue := rest }.put x) .backoff rfl rfl)
      · split at hs
        · split at hs <;> cases hs
          · exact absurd hq (hidle { p with queue := rest, lastError := _ } .exited rfl rfl)
          · exact absurd hq (hidle ({ p with queue := rest }.put x) .backoff rfl rfl)
        · cases hs
          rw [move_pcOf_self (p := { p with queue := rest }) here] at hq
          cases hq
          exact ⟨rest, head, hchunk, here, rfl⟩
  · cases hs

/-- A worker that calls `fetch` spends one of the attempts. -/
theorem fetchStarts_spends {chunks : List ℕ} {a : PoolAct} (h : Conserved chunks ev p)
    (hs : poolStep ev p a = some (ev', q)) :
    fetchStarts weight ev p a + q.allowance weight ≤ p.allowance weight := by
  have hle := poolStep_allowance weight hs
  cases a with
  | get w banned allBanned =>
    rw [fetchStarts, hs]
    dsimp only
    split
    · rename_i item t hq
      obtain ⟨rest, head, hchunk, here, rfl⟩ := get_starts hs hq
      have hretries : item.retries ≤ 5 := by
        have hmem : item ∈ p.tokens := List.mem_append_left _ (head ▸ List.mem_cons_self ..)
        obtain ⟨i, -, -, -, hle⟩ := (h.marked item hmem).resolve_left hchunk
        exact hle
      have hmove := handsWorth_up weight (p := { p with queue := rest }) (e := .fetching item p.now)
        here rfl rfl
      have hworth := worth_started weight hchunk hretries
      unfold WorkerPool.allowance
      rw [head, List.map_cons, List.sum_cons]
      dsimp only [WorkerPool.move] at hmove ⊢
      omega
    · rwa [Nat.zero_add]
  | _ => exact (Nat.zero_add _).le.trans hle

theorem init_allowance (weight : ℕ → ℕ) (sources : List String) (threadsPerSource : ℕ) (chunks completed : List ℕ) :
    (WorkerPool.init sources threadsPerSource chunks completed).allowance weight = 6 * (chunks.map weight).sum := by
  have hperm := ((List.perm_insertionSort Before (chunks.map fun i : ℕ => (⟨0, i, 0⟩ : QueueItem))).map
    (worth weight 6)).sum_nat
  have hworth : ∀ i : ℕ, worth weight 6 ⟨0, i, 0⟩ = 6 * weight i := by
    intro i
    have hchunk : (i : ℤ) ≠ stopSentinel := by
      unfold stopSentinel
      omega
    rw [worth, if_neg hchunk]
    exact Nat.mul_comm _ _
  rw [WorkerPool.allowance, init_hands, List.map_nil, List.sum_nil, Nat.add_zero]
  refine hperm.trans ?_
  rw [List.map_map, ← List.sum_map_mul_left]
  exact congrArg List.sum (List.map_congr_left fun i _ => hworth i)

end

end Mrdl.Workers
