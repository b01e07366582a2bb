import Mathlib.Tactic.Linarith
import Mrdl.Workers.Tracked

/-! # The order of the queue

The queue gives out its least tuple. A sentinel is due at time zero and its index is below every chunk, so
it comes before everything else: once `run` has put one for each worker, no worker gets a chunk any more.
-/

namespace Mrdl.Workers
open Runs
set_option autoImplicit false

/-! ## Tuples -/

instance : IsTrans QueueItem Before where
  trans a b c hab hbc := by
    unfold Before at *
    rcases hab with hab | ⟨hab, hab'⟩
    · rcases hbc with hbc | ⟨hbc, -⟩
      · exact .inl (hab.trans hbc)
      · exact .inl (hbc ▸ hab)
    · rcases hbc with hbc | ⟨hbc, hbc'⟩
      · exact .inl (hab ▸ hbc)
      · refine .inr ⟨hab.trans hbc, ?_⟩
        omega

instance : Std.Total Before where
  total a b := by
    unfold Before
    rcases lt_trichotomy a.retryTime b.retryTime with h | h | h
    · exact .inl (.inl h)
    · have hrest : a.chunkIdx < b.chunkIdx ∨ (a.chunkIdx = b.chunkIdx ∧ a.retries ≤ b.retries) ∨
          b.chunkIdx < a.chunkIdx ∨ (b.chunkIdx = a.chunkIdx ∧ b.retries ≤ a.retries) := by omega
      rcases hrest with h' | h' | h' | h'
      · exact .inl (.inr ⟨h, .inl h'⟩)
      · exact .inl (.inr ⟨h, .inr h'⟩)
      · exact .inr (.inr ⟨h.symm, .inl h'⟩)
      · exact .inr (.inr ⟨h.symm, .inr h'⟩)
    · exact .inr (.inl h)

/-- A sentinel as `run` puts it, or a chunk. -/
def Queued (item : QueueItem) : Prop :=
  item = ⟨0, stopSentinel, 0⟩ ∨ (0 ≤ item.retryTime ∧ 0 ≤ item.chunkIdx)

theorem Queued.chunk {item : QueueItem} (h : Queued item) (hne : item.chunkIdx ≠ stopSentinel) :
    0 ≤ item.retryTime ∧ 0 ≤ item.chunkIdx := by
  apply h.resolve_left
  rintro rfl
  exact hne rfl

/-- Nothing comes before a sentinel but a sentinel. -/
theorem Queued.before_sentinel {item : QueueItem} (h : Queued item)
    (hb : Before item ⟨0, stopSentinel, 0⟩) : item.chunkIdx = stopSentinel := by
  by_contra hne
  obtain ⟨htime, hidx⟩ := h.chunk hne
  unfold Before stopSentinel at hb
  rcases hb with hb | ⟨-, hb | ⟨hb, -⟩⟩
  · exact absurd hb (not_lt.mpr htime)
  · simp only at hb
    omega
  · exact hne hb

/-! ## One worker at a time -/

/-- Past the gate and without an entry: woken from the wait for the pause event, or in the queue's `get`. -/
def WorkerPc.past : WorkerPc → Bool
  | .pausing woken => woken
  | .getting => true
  | _ => false

theorem loopHead_past (ev : Events) : (loopHead ev).past = false := by
  unfold loopHead
  split <;> rfl

namespace WorkerPool

/-- The workers that have not ended. -/
def live (p : WorkerPool) : ℕ := p.workers.countP fun x => decide (x.pc ≠ .exited)

def sentinels (p : WorkerPool) : ℕ := p.queue.countP fun item => decide (item.chunkIdx = stopSentinel)

end WorkerPool

section
variable {ev ev' : Events} {p q : WorkerPool} {w : ℕ} {pc e : WorkerPc}

/-- A worker that has not ended goes from one await to another, and past the gate only while it is open. -/
structure Goes (ev : Events) (p q : WorkerPool) (w : ℕ) (pc e : WorkerPc) : Prop where
  here : p.pcOf w = some pc
  awake : pc ≠ .exited
  workers : q.workers = (p.move w e).workers
  gate : e.past = true → pc.past = true ∨ ev.pauseEvent = true

theorem Goes.aside (here : p.pcOf w = some pc) (awake : pc ≠ .exited)
    (workers : q.workers = (p.move w e).workers) (he : e.past = false) : Goes ev p q w pc e :=
  ⟨here, awake, workers, fun h => by rw [he] at h; cases h⟩

theorem takeItem_goes (ev : Events) (p : WorkerPool) (w : ℕ) (item : QueueItem) (banned allBanned : Bool) :
    ∃ e : WorkerPc, e.past = false ∧
      (takeItem ev p w item banned allBanned).2.workers = (p.move w e).workers := by
  unfold takeItem
  split
  · exact ⟨.exited, rfl, rfl⟩
  · split
    · exact ⟨.backoff, rfl, rfl⟩
    · split
      · split
        · exact ⟨.exited, rfl, rfl⟩
        · exact ⟨.backoff, rfl, rfl⟩
      · exact ⟨.fetching item p.now, rfl, rfl⟩

theorem failItem_goes (ev : Events) (p : WorkerPool) (w : ℕ) (item : QueueItem) (typeName message : String)
    (healthRaises : Bool) :
    ∃ e : WorkerPc, e.past = false ∧
      (failItem ev p w item typeName message healthRaises).2.workers = (p.move w e).workers := by
  unfold failItem
  split
  · exact ⟨.exited, rfl, rfl⟩
  · split
    · exact ⟨_, loopHead_past ev, rfl⟩
    · split
      · exact ⟨_, loopHead_past ev, rfl⟩
      · exact ⟨_, loopHead_past ev.stopBoth, rfl⟩

theorem poolStep_goes {a : PoolAct} (hs : poolStep ev p a = some (ev', q)) :
    q.workers = p.workers ∨ ∃ w pc e, Goes ev p q w pc e := by
  cases a with
  | wake w factoryRaises =>
    simp only [poolStep] at hs
    split at hs <;> cases hs
    rename_i hpc
    refine .inr ⟨w, _, _, .aside hpc (by simp) rfl ?_⟩
    split
    · rfl
    · exact loopHead_past ev
  | openGate w =>
    simp only [poolStep] at hs
    split at hs
    · rename_i hpc
      split at hs <;> cases hs
      rename_i hopen
      exact .inr ⟨w, _, _, hpc, by simp, rfl, fun _ => .inr hopen⟩
    · cases hs
  | passGate w =>
    simp only [poolStep] at hs
    split at hs <;> cases hs
    rename_i hpc
    exact .inr ⟨w, _, _, hpc, by simp, rfl, fun _ => .inl rfl⟩
  | workerCancelled w =>
    simp only [poolStep] at hs
    split at hs
    · rename_i pc hrun hpc
      split at hs
      · cases hs
      · rename_i hawake
        split at hs <;> cases hs
        · exact .inr ⟨w, _, _, .aside hpc hawake rfl rfl⟩
        · exact .inr ⟨w, _, _, .aside hpc hawake rfl rfl⟩
    · cases hs
  | getTimeout w | slept w | fetchReturned w =>
    simp only [poolStep] at hs
    split at hs <;> cases hs
    rename_i hpc
    exact .inr ⟨w, _, _, .aside hpc (by simp) rfl (loopHead_past ev)⟩
  | fetchStopped w =>
    simp only [poolStep] at hs
    split at hs
    · rename_i hpc
      split at hs <;> cases hs
      exact .inr ⟨w, _, _, .aside hpc (by simp) rfl (loopHead_past ev)⟩
    · cases hs
  | get w banned allBanned =>
    simp only [poolStep] at hs
    split at hs
    · rename_i item rest hpc hqueue
      obtain ⟨e, he, hworkers⟩ := takeItem_goes ev { p with queue := rest } w item banned allBanned
      rw [Option.some.inj hs] at hworkers
      exact .inr ⟨w, _, e, .aside hpc (by simp) hworkers he⟩
    · cases hs
  | fetchFailed w typeName message healthRaises =>
    simp only [poolStep] at hs
    split at hs
    · rename_i item t hpc
      obtain ⟨e, he, hworkers⟩ := failItem_goes ev p w item typeName message healthRaises
      rw [Option.some.inj hs] at hworkers
      exact .inr ⟨w, _, e, .aside hpc (by simp) hworkers he⟩
    · cases hs
  | runWakes joinDone =>
    simp only [poolStep, Option.ite_none_right_eq_some, Option.some.injEq, Prod.mk.injEq] at hs
    obtain ⟨-, -, rfl⟩ := hs
    obtain ⟨n, hn⟩ := leave_spec p (.returned (joinDone && !ev.stopEvent))
    exact .inl hn.workers
  | runCancelled =>
    simp only [poolStep] at hs
    split at hs <;> cases hs
    · obtain ⟨n, hn⟩ := leave_spec p .cancelled
      exact .inl hn.workers
    · exact .inl rfl
  | runEnds =>
    simp only [poolStep] at hs
    split at hs <;> cases hs
    exact .inl rfl
  | joinReturns | tick d =>
    simp only [poolStep, Option.ite_none_right_eq_some, Option.some.injEq, Prod.mk.injEq] at hs
    obtain ⟨-, -, rfl⟩ := hs
    exact .inl rfl

theorem Goes.live (h : Goes ev p q w pc e) :
    q.live + 1 = p.live + (decide (e ≠ .exited)).toNat := by
  have hcount : (p.move w e).live + (decide (pc ≠ .exited)).toNat = p.live + (decide (e ≠ .exited)).toNat :=
    countP_modify (f := fun pc => decide (pc ≠ .exited)) h.here
  rwa [decide_eq_true h.awake, WorkerPool.live, ← h.workers] at hcount

theorem poolStep_live {a : PoolAct} (hs : poolStep ev p a = some (ev', q)) : q.live ≤ p.live := by
  rcases poolStep_goes hs with hsame | ⟨w, pc, e, hgoes⟩
  · exact (congrArg _ hsame).le
  · have hlive := hgoes.live
    have hone := Bool.toNat_le (decide (e ≠ .exited))
    omega

/-! ## The queue -/

structure Tidy (queue : List QueueItem) : Prop where
  sorted : queue.Pairwise Before
  entries : ∀ item ∈ queue, Queued item

theorem Tidy.put {item : QueueItem} (h : Tidy p.queue) (hitem : Queued item) : Tidy (p.put item).queue := by
  refine ⟨List.Pairwise.orderedInsert item _ h.sorted, fun x hx => ?_⟩
  rcases mem_put hx with rfl | hx
  · exact hitem
  · exact h.entries x hx

theorem Tidy.tail {item : QueueItem} {rest : List QueueItem} (h : Tidy p.queue) (head : p.queue = item :: rest) :
    Tidy rest ∧ Queued item := by
  rw [head] at h
  exact ⟨⟨(List.pairwise_cons.mp h.sorted).2, fun x hx => h.entries x (List.mem_cons_of_mem _ hx)⟩,
    h.entries item (List.mem_cons_self ..)⟩

theorem Tidy.putSentinels (n : ℕ) (h : Tidy p.queue) : Tidy (p.putSentinels n).queue := by
  induction n generalizing p with
  | zero => exact h
  | succ n ih => exact ih (h.put (.inl rfl))

theorem Tidy.leave (h : Tidy p.queue) (result : RunResult) : Tidy (p.leave result).queue := by
  unfold WorkerPool.leave
  split
  · exact h
  · exact h.putSentinels _

theorem backoffDelay_nonneg (retries : ℕ) : 0 ≤ WorkerPool.backoffDelay retries :=
  le_min (by norm_num) (by positivity)

theorem poolStep_tidy {a : PoolAct} (h : Tidy p.queue) (hclock : 0 ≤ p.now)
    (hhands : ∀ w item t, p.pcOf w = some (.fetching item t) → 0 ≤ item.chunkIdx)
    (hs : poolStep ev p a = some (ev', q)) : Tidy q.queue := by
  cases poolStep_moves hs with
  | sentinel w item rest banned allBanned here head chunk => exact (h.tail head).1
  | putBack w item rest banned allBanned here head =>
    obtain ⟨hrest, hitem⟩ := h.tail head
    exact Tidy.put (p := { p with queue := rest }) hrest hitem
  | allBanned w item rest banned allBanned here head => exact (h.tail head).1
  | starts w item rest banned allBanned here head chunk due => exact (h.tail head).1
  | retried w item t typeName message here few =>
    have htime := add_nonneg hclock (backoffDelay_nonneg item.retries)
    exact Tidy.put (p := { p with failures := _ }) h (.inr ⟨htime, hhands w item t here⟩)
  | wakes | stopped => exact h.leave _
  | _ => exact h

/-! ## Who gets a chunk -/

/-- A fetch begins with the head of the queue, in the hands of a worker that was in `get`. -/
theorem poolStep_begins {a : PoolAct} {item : QueueItem} {t : ℚ} (hs : poolStep ev p a = some (ev', q))
    (hq : q.pcOf w = some (.fetching item t)) (hp : p.pcOf w ≠ some (.fetching item t)) :
    p.pcOf w = some .getting ∧ item.chunkIdx ≠ stopSentinel ∧ (∃ banned allBanned, a = .get w banned allBanned) ∧
      ∃ rest, p.queue = item :: rest := by
  have hget := (((poolStep_handling hs).takes w item t hq).resolve_left hp).1
  have hidle : ∀ (r : WorkerPool) (v : ℕ) (e : WorkerPc), r.workers = p.workers → e.item? = none →
      (r.move v e).pcOf w ≠ some (.fetching item t) := by
    intro r v e hr he heq
    have hpc : r.pcOf w = some .getting := by
      rw [WorkerPool.pcOf, hr]
      exact hget
    by_cases hv : w = v
    · subst hv
      rw [move_pcOf_self hpc] at heq
      rw [Option.some.inj heq] at he
      cases he
    · rw [move_pcOf_other hv, hpc] at heq
      cases heq
  have hstay : ∀ r : WorkerPool, r.workers = p.workers → r.pcOf w ≠ some (.fetching item t) := by
    intro r hr heq
    rw [WorkerPool.pcOf, hr] at heq
    exact hp heq
  have hleave : ∀ result, (p.leave result).pcOf w ≠ some (.fetching item t) := by
    intro result
    obtain ⟨n, hn⟩ := leave_spec p result
    exact hstay _ hn.workers
  cases poolStep_moves hs with
  | starts v item' rest banned allBanned here head chunk due =>
    by_cases hv : w = v
    · subst hv
      rw [move_pcOf_self (p := { p with queue := rest }) here] at hq
      cases hq
      exact ⟨hget, chunk, ⟨banned, allBanned, rfl⟩, rest, head⟩
    · rw [move_pcOf_other (p := { p with queue := rest }) hv] at hq
      exact absurd hq hp
  | idle a v pc e here free after other => exact absurd hq (hidle p v e rfl (item_of_owes after))
  | pays a v pc e here debt after other down => exact absurd hq (hidle p v e rfl (item_of_owes after))
  | dropped v item' u typeName message healthRaises e here after why =>
    exact absurd hq (hidle { p with failures := _ } v e rfl (item_of_owes after))
  | sentinel | allBanned => exact absurd hq (hidle _ _ .exited rfl rfl)
  | putBack => exact absurd hq (hidle _ _ .backoff rfl rfl)
  | returned | retried => exact absurd hq (hidle _ _ (loopHead ev) rfl (loopHead_item ev))
  | gaveUp => exact absurd hq (hidle _ _ (loopHead ev.stopBoth) rfl (loopHead_item _))
  | wakes | stopped => exact absurd hq (hleave _)
  | joined | cancelled | ends | tick => exact absurd hq (hstay _ rfl)

/-! ## The sentinels -/

theorem leave_left (p : WorkerPool) (result : RunResult) : (p.leave result).run ≠ .waiting := by
  unfold WorkerPool.leave
  split
  · exact fun h => RunPc.noConfusion h
  · exact fun h => RunPc.noConfusion h

theorem poolStep_left {a : PoolAct} (hs : poolStep ev p a = some (ev', q)) (h : p.run ≠ .waiting) :
    q.run ≠ .waiting := by
  cases poolStep_moves hs with
  | wakes | stopped => exact leave_left p _
  | cancelled | ends => exact fun hrun => RunPc.noConfusion hrun
  | _ => exact h

theorem leave_sentinels (p : WorkerPool) (result : RunResult) :
    (p.leave result).live ≤ (p.leave result).sentinels := by
  unfold WorkerPool.leave
  split
  · rename_i hnone
    simp [WorkerPool.live, hnone]
  · have hput := putSentinels_spec p.workers.length p
    have hqueue := hput.queue.countP_eq fun item => decide (item.chunkIdx = stopSentinel)
    rw [List.countP_append, List.countP_replicate] at hqueue
    calc (p.putSentinels p.workers.length).live
        ≤ (p.putSentinels p.workers.length).workers.length := List.countP_le_length
      _ = p.workers.length := congrArg List.length hput.workers
      _ ≤ (p.putSentinels p.workers.length).sentinels := by
          rw [WorkerPool.sentinels, hqueue]
          simp

theorem put_sentinels (p : WorkerPool) (item : QueueItem) :
    (p.put item).sentinels = p.sentinels + (decide (item.chunkIdx = stopSentinel)).toNat := by
  have hcount := (put_queue p item).countP_eq fun item => decide (item.chunkIdx = stopSentinel)
  rw [List.countP_cons] at hcount
  rw [WorkerPool.sentinels, hcount]
  cases decide (item.chunkIdx = stopSentinel) <;> rfl

theorem head_sentinels {item : QueueItem} {rest : List QueueItem} (head : p.queue = item :: rest) :
    p.sentinels = ({ p with queue := rest } : WorkerPool).sentinels +
      (decide (item.chunkIdx = stopSentinel)).toNat := by
  rw [WorkerPool.sentinels, head, List.countP_cons]
  cases decide (item.chunkIdx = stopSentinel) <;> rfl

theorem exit_live {r : WorkerPool} (here : p.pcOf w = some .getting) (hr : r.workers = p.workers) :
    (r.move w .exited).live + 1 = p.live := by
  have hgoes : Goes {} p (r.move w .exited) w .getting .exited :=
    .aside here (by simp) (congrArg (fun ws => List.modify ws w _) hr) rfl
  simpa using hgoes.live

/-- An action takes a sentinel only together with a worker. -/
theorem poolStep_sentinels {a : PoolAct} (hs : poolStep ev p a = some (ev', q)) (h : p.live ≤ p.sentinels) :
    q.live ≤ q.sentinels := by
  have hlive := poolStep_live hs
  cases poolStep_moves hs with
  | sentinel w item rest banned allBanned here head chunk =>
    have hlast := exit_live (r := { p with queue := rest }) here rfl
    have hhead := head_sentinels head
    have hone := Bool.toNat_le (decide (item.chunkIdx = stopSentinel))
    show ({ p with queue := rest }.move w .exited).live ≤ ({ p with queue := rest } : WorkerPool).sentinels
    omega
  | allBanned w item rest banned allBanned here head =>
    have hlast := exit_live (r := { p with queue := rest, lastError := some .allBanned }) here rfl
    have hhead := head_sentinels head
    have hone := Bool.toNat_le (decide (item.chunkIdx = stopSentinel))
    show ({ p with queue := rest, lastError := some .allBanned }.move w .exited).live ≤
      ({ p with queue := rest } : WorkerPool).sentinels
    omega
  | putBack w item rest banned allBanned here head =>
    have hhead := head_sentinels head
    have hput := put_sentinels { p with queue := rest } item
    refine hlive.trans (h.trans ?_)
    show p.sentinels ≤ (WorkerPool.put { p with queue := rest } item).sentinels
    omega
  | starts w item rest banned allBanned here head chunk due =>
    have hhead := head_sentinels head
    rw [decide_eq_false chunk] at hhead
    exact hlive.trans (h.trans hhead.le)
  | retried w item t typeName message here few =>
    have hput := put_sentinels { p with failures := p.failures ++ [item.chunkIdx.toNat] }
      ⟨p.now + WorkerPool.backoffDelay item.retries, item.chunkIdx, item.retries + 1⟩
    exact hlive.trans (h.trans (le_trans (Nat.le_add_right _ _) hput.ge))
  | wakes | stopped => exact leave_sentinels p _
  | _ => exact hlive.trans h

/-! ## Every run -/

/-- What holds of the queue in every run. Once `run` has left its wait, the sentinels in the queue are as
many as the workers that are left. -/
structure InOrder (p : WorkerPool) : Prop where
  tidy : Tidy p.queue
  hands : ∀ w item t, p.pcOf w = some (.fetching item t) → 0 ≤ item.chunkIdx
  clock : 0 ≤ p.now
  going : p.run = .waiting → ∀ item ∈ p.queue, item.chunkIdx ≠ stopSentinel
  left : p.run ≠ .waiting → p.live ≤ p.sentinels

theorem InOrder.step {a : PoolAct} (h : InOrder p) (hs : poolStep ev p a = some (ev', q)) : InOrder q where
  tidy := poolStep_tidy h.tidy h.clock h.hands hs
  hands w item t hq := by
    by_cases hp : p.pcOf w = some (.fetching item t)
    · exact h.hands w item t hp
    · obtain ⟨-, hchunk, -, rest, head⟩ := poolStep_begins hs hq hp
      exact ((h.tidy.tail head).2.chunk hchunk).2
  clock := h.clock.trans (poolStep_now hs)
  going hrun item hitem := by
    have hold := h.going (Classical.byContradiction fun hleft => poolStep_left hs hleft hrun)
    cases poolStep_moves hs with
    | sentinel w x rest banned allBanned here head chunk =>
      exact hold item (by rw [head]; exact List.mem_cons_of_mem _ hitem)
    | allBanned w x rest banned allBanned here head =>
      exact hold item (by rw [head]; exact List.mem_cons_of_mem _ hitem)
    | starts w x rest banned allBanned here head chunk due =>
      exact hold item (by rw [head]; exact List.mem_cons_of_mem _ hitem)
    | putBack w x rest banned allBanned here head =>
      refine hold item ?_
      rw [head]
      exact List.mem_cons.mpr (mem_put (p := { p with queue := rest }) hitem)
    | retried w x t typeName message here few =>
      rcases mem_put (p := { p with failures := p.failures ++ [x.chunkIdx.toNat] }) hitem with rfl | hitem
      · have hchunk := h.hands w x t here
        unfold stopSentinel
        simp only
        omega
      · exact hold item hitem
    | wakes | stopped => exact absurd hrun (leave_left p _)
    | _ => exact hold item hitem
  left hrun := by
    by_cases hleft : p.run = .waiting
    · cases poolStep_moves hs with
      | wakes | stopped => exact leave_sentinels p _
      | cancelled result run | ends result run =>
        rw [hleft] at run
        cases run
      | _ => exact absurd hleft hrun
    · exact poolStep_sentinels hs (h.left hleft)

/-- Once `run` has left its wait, no fetch begins. -/
theorem InOrder.no_start {a : PoolAct} {item : QueueItem} {t : ℚ} (h : InOrder p) (hleft : p.run ≠ .waiting)
    (hs : poolStep ev p a = some (ev', q)) (hq : q.pcOf w = some (.fetching item t)) :
    p.pcOf w = some (.fetching item t) := by
  by_contra hp
  obtain ⟨hget, hchunk, -, rest, head⟩ := poolStep_begins hs hq hp
  obtain ⟨x, hx, hxpc⟩ := pcOf_mem hget
  have hlive : 0 < p.live := List.countP_pos_iff.mpr ⟨x, hx, by simp [hxpc]⟩
  obtain ⟨s, hs, hsentinel⟩ := List.countP_pos_iff.mp (hlive.trans_le (h.left hleft))
  have hsentinel := of_decide_eq_true hsentinel
  -- the sentinel in the queue does not come before its head
  have hqueued := h.tidy.entries s hs
  have hput : s = ⟨0, stopSentinel, 0⟩ := by
    refine hqueued.resolve_right fun hchunk => ?_
    rw [hsentinel] at hchunk
    exact absurd hchunk.2 (by decide)
  have hsorted := h.tidy.sorted
  rw [head] at hs hsorted
  rcases List.mem_cons.mp hs with rfl | hs
  · exact hchunk hsentinel
  · have hbefore := (List.pairwise_cons.mp hsorted).1 s hs
    rw [hput] at hbefore
    exact hchunk ((h.tidy.tail head).2.before_sentinel hbefore)

end

end Mrdl.Workers
