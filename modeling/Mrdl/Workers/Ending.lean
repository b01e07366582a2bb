import Mrdl.Foundations.Reaching
import Mrdl.Workers.Blame
import Mrdl.Workers.Pause

/-! # The pool can always be brought to its end

Whatever has failed so far, was put back or waits for its time: as long as the stop event is not set and the
pause event is, the pool completes every chunk if from now on the fetches return. A worker ends early only
when its fetcher cannot be built or the health tracker raises.
-/

namespace Mrdl.Workers
open Runs
set_option autoImplicit false

/-- The worker ends with an exception. -/
def PoolAct.kills : PoolAct → Bool
  | .wake _ factoryRaises => factoryRaises
  | .fetchFailed _ _ _ healthRaises => healthRaises
  | _ => false

/-- Nothing fails, nobody is banned, and nothing is cancelled. -/
def PoolAct.smooth : PoolAct → Bool
  | .wake _ factoryRaises => !factoryRaises
  | .get _ banned _ => !banned
  | .fetchFailed .. | .fetchStopped _ | .workerCancelled _ | .runCancelled => false
  | _ => true

def MachineAct.kills : MachineAct → Bool
  | .pool a => a.kills
  | .events _ => false

def MachineAct.smooth : MachineAct → Bool
  | .pool a => a.smooth
  | .events _ => false

section
variable {ev ev' : Events} {p q : WorkerPool} {chunks : List ℕ} {w : ℕ}

/-! ## Nobody leaves -/

def Manned (ev : Events) (p : WorkerPool) : Prop :=
  ev.stopEvent = false → p.run = .waiting → ∀ x ∈ p.workers, x.pc ≠ .exited

theorem loopHead_running (h : ev.stopEvent = false) : loopHead ev = .pausing false := by
  rw [loopHead, h]
  rfl

/-- A worker that moves does not end. -/
theorem moved_awake {r : WorkerPool} {e : WorkerPc} (h : ∀ x ∈ p.workers, x.pc ≠ .exited)
    (hr : r.workers = (p.move w e).workers) (he : e ≠ .exited) : ∀ x ∈ r.workers, x.pc ≠ .exited := by
  intro x hx
  rw [hr] at hx
  rcases mem_move hx with heq | hold
  · rw [heq]
    exact he
  · exact h x hold

theorem poolStep_manned {a : PoolAct} (h : Manned ev p) (horder : InOrder p) (hkills : a.kills = false)
    (hs : poolStep ev p a = some (ev', q)) : Manned ev' q := by
  intro hstop hrun
  have hbefore : ev.stopEvent = false := Events.not_stopped_of_le (poolStep_onward hs).le hstop
  have hwaiting : p.run = .waiting := Classical.byContradiction fun hleft => poolStep_left hs hleft hrun
  have hawake := h hbefore hwaiting
  have hhead := loopHead_running hbefore
  cases a with
  | wake w factoryRaises =>
    simp only [PoolAct.kills] at hkills
    subst hkills
    simp only [poolStep] at hs
    split at hs <;> cases hs
    rw [hhead]
    exact moved_awake hawake rfl (by simp)
  | openGate w =>
    simp only [poolStep] at hs
    split at hs
    · split at hs <;> cases hs
      exact moved_awake hawake rfl (by simp)
    · cases hs
  | passGate w =>
    simp only [poolStep] at hs
    split at hs <;> cases hs
    exact moved_awake hawake rfl (by simp)
  | getTimeout w | slept w | fetchReturned w =>
    simp only [poolStep] at hs
    split at hs <;> cases hs
    exact moved_awake hawake rfl (by simp [hhead])
  | fetchStopped w =>
    simp only [poolStep, hbefore] at hs
    split at hs <;> cases hs
  | get w banned allBanned =>
    simp only [poolStep] at hs
    split at hs
    · rename_i item rest hpc hqueue
      have hchunk : item.chunkIdx ≠ stopSentinel :=
        horder.going hwaiting item (by rw [hqueue]; exact List.mem_cons_self ..)
      simp only [takeItem, if_neg hchunk, Option.some.injEq] at hs
      split at hs
      · cases hs
        exact moved_awake hawake rfl (by simp)
      · split at hs
        · split at hs <;> cases hs
          · cases hstop
          · exact moved_awake hawake rfl (by simp)
        · cases hs
          exact moved_awake hawake rfl (by simp)
    · cases hs
  | fetchFailed w typeName message healthRaises =>
    simp only [PoolAct.kills] at hkills
    subst hkills
    simp only [poolStep] at hs
    split at hs
    · simp only [failItem, hbefore, Bool.false_eq_true, if_false, Option.some.injEq] at hs
      split at hs <;> cases hs
      · exact moved_awake hawake rfl (by simp [hhead])
      · cases hstop
    · cases hs
  | workerCancelled w =>
    simp only [poolStep, hwaiting] at hs
    cases hs
  | runWakes joinDone =>
    simp only [poolStep, Option.ite_none_right_eq_some, Option.some.injEq, Prod.mk.injEq] at hs
    obtain ⟨-, -, rfl⟩ := hs
    exact absurd hrun (leave_left p _)
  | runCancelled =>
    simp only [poolStep, hwaiting, Option.some.injEq, Prod.mk.injEq] at hs
    obtain ⟨rfl, -⟩ := hs
    cases hstop
  | runEnds =>
    simp only [poolStep, hwaiting] at hs
    cases hs
  | joinReturns | tick d =>
    simp only [poolStep, Option.ite_none_right_eq_some, Option.some.injEq, Prod.mk.injEq] at hs
    obtain ⟨-, -, rfl⟩ := hs
    exact hawake

/-! ## The next step -/

/-- What holds before the pool has ended, as long as nobody stops it. -/
structure Going (chunks : List ℕ) (ev : Events) (p : WorkerPool) : Prop where
  conserved : Conserved chunks ev p
  kept : Kept chunks ev p
  order : InOrder p
  manned : Manned ev p

theorem Going.step {a : PoolAct} (h : Going chunks ev p) (hkills : a.kills = false)
    (hs : poolStep ev p a = some (ev', q)) : Going chunks ev' q := by
  have hcalm : a.lossy = false := by
    cases a <;> first | rfl | exact hkills
  exact ⟨poolStep_conserved h.conserved hs, poolStep_kept h.conserved h.kept hcalm hs, h.order.step hs,
    poolStep_manned h.manned h.order hkills hs⟩

theorem Going.le (h : Going chunks ev p) (hle : ev.Le ev') : Going chunks ev' p :=
  ⟨h.conserved.le hle, h.kept.le hle, h.order, fun hstop => h.manned (Events.not_stopped_of_le hle hstop)⟩

theorem Going.init (ev : Events) (sources : List String) (threadsPerSource : ℕ) {completed : List ℕ}
    (hnodup : chunks.Nodup) (hdisjoint : ∀ i ∈ chunks, i ∉ completed) :
    Going chunks ev (WorkerPool.init sources threadsPerSource chunks completed) := by
  refine ⟨init_conserved ev sources threadsPerSource hnodup hdisjoint,
    init_kept ev sources threadsPerSource hnodup hdisjoint, ?_, fun _ _ x hx => ?_⟩
  · have hpool : WorkerPool.init sources threadsPerSource chunks completed =
        (TrackedPool.init ev {} sources threadsPerSource (chunks.map fun i => (0, i, 0)) completed).pool := by
      simp only [TrackedPool.init, WorkerPool.init, List.map_map, List.length_map]
      rfl
    rw [hpool]
    exact init_inOrder ev {} sources threadsPerSource chunks completed
  · simp [init_startup hx]

/-- `run` waits, or returns. -/
def RunPc.answers : RunPc → Bool
  | .waiting | .leaving (.returned _) | .ended (.returned _) => true
  | _ => false

theorem leave_run (h : p.workers ≠ []) (result : RunResult) : (p.leave result).run = .leaving result := by
  rw [WorkerPool.leave, if_neg h]

theorem poolStep_answers {a : PoolAct} (h : p.run.answers = true) (hworkers : p.workers ≠ [])
    (ha : a ≠ .runCancelled) (hs : poolStep ev p a = some (ev', q)) : q.run.answers = true := by
  cases poolStep_moves hs with
  | wakes joinDone woken =>
    rw [leave_run hworkers]
    rfl
  | stopped | cancelled => exact absurd rfl ha
  | ends result run =>
    rw [run] at h
    cases result with
    | returned isComplete => rfl
    | _ => cases h
  | _ => exact h

theorem smooth_kills {a : PoolAct} (h : a.smooth = true) : a.kills = false := by
  cases a with
  | wake w factoryRaises => exact Bool.not_eq_true' factoryRaises |>.mp h
  | fetchFailed => cases h
  | _ => rfl

theorem smooth_events {a : PoolAct} (h : a.smooth = true) (hs : poolStep ev p a = some (ev', q)) : ev' = ev := by
  cases a with
  | get w banned allBanned =>
    have hbanned : banned = false := Bool.not_eq_true' banned |>.mp h
    subst hbanned
    simp only [poolStep] at hs
    split at hs
    · simp only [takeItem, Bool.false_eq_true, if_false, Option.some.injEq] at hs
      split at hs
      · cases hs
        rfl
      · split at hs <;> cases hs <;> rfl
    · cases hs
  | fetchFailed | fetchStopped | workerCancelled | runCancelled => cases h
  | _ => cases poolStep_moves hs <;> rfl

/-- How far the first worker is from its next fetch, when nobody owes the queue anything. -/
def approach (p : WorkerPool) : ℕ :=
  if p.owed = 0 then
    match p.pcOf 0 with
    | some .startup => 5
    | some (.pausing false) => 4
    | some (.pausing true) => 3
    | some .getting => if ∃ item ∈ p.queue.head?, p.now < item.retryTime then 2 else 1
    | _ => 0
  else 0

theorem approach_getting {item : QueueItem} {rest : List QueueItem} (howed : p.owed = 0)
    (hpc : p.pcOf 0 = some .getting) (hqueue : p.queue = item :: rest) :
    approach p = if p.now < item.retryTime then 2 else 1 := by
  simp only [approach, howed, hpc, if_true, hqueue, List.head?_cons, Option.mem_def, Option.some.injEq,
    exists_eq_left']

theorem approach_le (p : WorkerPool) : approach p ≤ 5 := by
  unfold approach
  split
  · split
    · omega
    · omega
    · omega
    · split <;> omega
    · omega
  · omega

def effort (p : WorkerPool) : ℕ := 6 * p.unfinished + approach p

theorem effort_of_paid (hpos : p.unfinished ≠ 0) (hq : q.unfinished = p.unfinished - 1) : effort q < effort p := by
  have hle := approach_le q
  unfold effort
  omega

theorem effort_of_nearer (hq : q.unfinished = p.unfinished) (h : approach q < approach p) :
    effort q < effort p := by
  unfold effort
  omega

/-- A worker that owes the queue a `task_done` can pay. -/
theorem pays_step (hpos : p.unfinished ≠ 0) (howed : p.owed ≠ 0) :
    ∃ a q, a.smooth = true ∧ poolStep ev p a = some (ev, q) ∧ q.run = p.run ∧ effort q < effort p := by
  obtain ⟨x, hx, howes⟩ := List.countP_pos_iff.mp (Nat.pos_of_ne_zero howed)
  obtain ⟨w, hw⟩ := List.mem_iff_getElem?.mp hx
  have hpc : p.pcOf w = some x.pc := by
    rw [WorkerPool.pcOf, hw]
    rfl
  cases hcase : x.pc with
  | fetching item t =>
    rw [hcase] at hpc
    refine ⟨.fetchReturned w, ((p.record item.chunkIdx.toNat).move w (loopHead ev)).taskDone, rfl, ?_, rfl,
      effort_of_paid hpos rfl⟩
    simp only [poolStep, hpc]
  | backoff =>
    rw [hcase] at hpc
    refine ⟨.slept w, (p.move w (loopHead ev)).taskDone, rfl, ?_, rfl, effort_of_paid hpos rfl⟩
    simp only [poolStep, hpc]
  | _ =>
    rw [hcase] at howes
    cases howes

/-- The first worker goes on to another await without taking an entry. -/
theorem moved_effort {pc e : WorkerPc} {k : ℕ} (hpc : p.pcOf 0 = some pc) (howed : p.owed = 0)
    (hfree : pc.owes = false) (he : e.owes = false) (hk : approach p = k)
    (hnearer : ∀ r : WorkerPool, r.owed = 0 → r.pcOf 0 = some e → approach r < k) :
    effort (p.move 0 e) < effort p := by
  refine effort_of_nearer rfl (hk ▸ hnearer _ ?_ (move_pcOf_self hpc e))
  have hm := move_owed (e := e) hpc
  rw [hfree, he, howed] at hm
  exact hm

/-- When nobody owes anything the first worker gets nearer to its next fetch. -/
theorem nears_step (h : Going chunks ev p) (hstop : ev.stopEvent = false) (hpause : ev.pauseEvent = true)
    (hwaiting : p.run = .waiting) (hworkers : p.workers ≠ []) (hpos : p.unfinished ≠ 0) (howed : p.owed = 0) :
    ∃ a q, a.smooth = true ∧ poolStep ev p a = some (ev, q) ∧ q.run = p.run ∧ effort q < effort p := by
  obtain ⟨x, rest, hcons⟩ := List.exists_cons_of_ne_nil hworkers
  have hpc : p.pcOf 0 = some x.pc := by
    rw [WorkerPool.pcOf, hcons]
    rfl
  have hx : x ∈ p.workers := by
    rw [hcons]
    exact List.mem_cons_self ..
  have hhead := loopHead_running hstop
  cases hcase : x.pc with
  | exited => exact absurd hcase (h.manned hstop hwaiting x hx)
  | startup =>
    rw [hcase] at hpc
    refine ⟨.wake 0 false, p.move 0 (.pausing false), rfl, ?_, rfl,
      moved_effort (k := 5) hpc howed rfl rfl ?_ fun r hr hpc => ?_⟩
    · simp only [poolStep, hpc, hhead, Bool.false_eq_true, if_false]
    · simp only [approach, howed, hpc, if_true]
    · simp only [approach, hr, hpc, if_true]
      omega
  | pausing woken =>
    rw [hcase] at hpc
    cases woken with
    | false =>
      refine ⟨.openGate 0, p.move 0 (.pausing true), rfl, ?_, rfl,
        moved_effort (k := 4) hpc howed rfl rfl ?_ fun r hr hpc => ?_⟩
      · simp only [poolStep, hpc, hpause, if_true]
      · simp only [approach, howed, hpc, if_true]
      · simp only [approach, hr, hpc, if_true]
        omega
    | true =>
      refine ⟨.passGate 0, p.move 0 .getting, rfl, ?_, rfl,
        moved_effort (k := 3) hpc howed rfl rfl ?_ fun r hr hpc => ?_⟩
      · simp only [poolStep, hpc]
      · simp only [approach, howed, hpc, if_true]
      · simp only [approach, hr, hpc, if_true]
        split <;> omega
  | getting =>
    rw [hcase] at hpc
    have hqueue : p.queue ≠ [] := by
      intro hnil
      have hbalance := h.conserved.balance
      rw [hnil, howed] at hbalance
      exact hpos hbalance
    obtain ⟨item, tail, hitem⟩ := List.exists_cons_of_ne_nil hqueue
    by_cases hfuture : p.now < item.retryTime
    · -- the entry's time has not come: the clock goes on
      refine ⟨.tick (item.retryTime - p.now), { p with now := p.now + (item.retryTime - p.now) }, rfl, ?_, rfl,
        effort_of_nearer rfl ?_⟩
      · simp only [poolStep, if_pos (sub_nonneg.mpr hfuture.le)]
      · rw [approach_getting (p := p) howed hpc hitem, if_pos hfuture,
          approach_getting (p := { p with now := p.now + (item.retryTime - p.now) }) howed hpc hitem, if_neg]
        · exact Nat.one_lt_two
        · rw [add_sub_cancel]
          exact lt_irrefl _
    · have hchunk : item.chunkIdx ≠ stopSentinel :=
        h.order.going hwaiting item (by rw [hitem]; exact List.mem_cons_self ..)
      refine ⟨.get 0 false false, ({ p with queue := tail } : WorkerPool).move 0 (.fetching item p.now), rfl, ?_,
        rfl, effort_of_nearer rfl ?_⟩
      · simp only [poolStep, hpc, hitem, takeItem, if_neg hchunk, if_neg hfuture, Bool.false_eq_true, if_false]
      · have hm := move_owed (p := { p with queue := tail }) (e := .fetching item p.now) hpc
        have hzero : ({ p with queue := tail } : WorkerPool).owed = 0 := howed
        have howes : (({ p with queue := tail } : WorkerPool).move 0 (.fetching item p.now)).owed ≠ 0 := by
          rw [hzero] at hm
          change _ + 0 = 0 + 1 at hm
          omega
        rw [approach_getting (p := p) howed hpc hitem, approach, if_neg howes, if_neg hfuture]
        exact Nat.one_pos
  | backoff | fetching =>
    have howes := List.countP_eq_zero.mp howed x hx
    rw [hcase] at howes
    exact absurd rfl howes

/-! ## Every run -/

theorem init_workers {sources : List String} {threadsPerSource : ℕ} {completed : List ℕ} (hsources : sources ≠ [])
    (hthreads : 0 < threadsPerSource) :
    (WorkerPool.init sources threadsPerSource chunks completed).workers ≠ [] := by
  obtain ⟨source, rest, rfl⟩ := List.exists_cons_of_ne_nil hsources
  apply List.ne_nil_of_length_pos
  simp only [WorkerPool.init, List.flatMap_cons, List.length_append, List.length_replicate]
  omega

theorem poolStep_workers {a : PoolAct} (hs : poolStep ev p a = some (ev', q)) :
    q.workers.length = p.workers.length := by
  rcases poolStep_goes hs with hsame | ⟨w, pc, e, hgoes⟩
  · rw [hsame]
  · rw [hgoes.workers]
    exact List.length_modify ..

/-- Up to the release of `join`. -/
theorem pool_joins (h : Going chunks ev p) (hstop : ev.stopEvent = false) (hpause : ev.pauseEvent = true)
    (hwaiting : p.run = .waiting) (hworkers : p.workers ≠ []) :
    ∃ q, Leads machineStep (fun _ a => a.smooth = true) (ev, p) (ev, q) ∧ Going chunks ev q ∧
      q.run = .waiting ∧ q.workers ≠ [] ∧ q.unfinished = 0 := by
  obtain ⟨⟨ev', q⟩, hleads, ⟨rfl, hq⟩, hzero⟩ := leads_of_measure machineStep
    (K := fun _ (a : MachineAct) => a.smooth = true) (s := (ev, p))
    (P := fun s => s.1 = ev ∧ Going chunks ev s.2 ∧ s.2.run = .waiting ∧ s.2.workers ≠ [])
    (Q := fun s => s.2.unfinished = 0) (fun s => effort s.2)
    (fun ⟨e, p⟩ ⟨hev, hgoing, hrun, hmanned⟩ hpos => by
      cases hev
      have hnext : ∃ a q, a.smooth = true ∧ poolStep e p a = some (e, q) ∧ q.run = p.run ∧
          effort q < effort p := by
        by_cases howed : p.owed = 0
        · exact nears_step hgoing hstop hpause hrun hmanned hpos howed
        · exact pays_step hpos howed
      obtain ⟨a, q, ha, hs, hq, hlt⟩ := hnext
      have hlength : q.workers ≠ [] := by
        rw [ne_eq, ← List.length_eq_zero_iff, poolStep_workers hs, List.length_eq_zero_iff]
        exact hmanned
      exact ⟨.pool a, (e, q), ha, hs, ⟨rfl, hgoing.step (smooth_kills ha) hs, hq.trans hrun, hlength⟩, hlt⟩)
    ⟨rfl, h, hwaiting, hworkers⟩
  exact ⟨q, hleads, hq.1, hq.2.1, hq.2.2, hzero⟩

/-- From there `run` wakes, sends the sentinels and returns. -/
theorem pool_returns (hstop : ev.stopEvent = false) (hwaiting : p.run = .waiting) (hworkers : p.workers ≠ [])
    (hzero : p.unfinished = 0) : ∃ q, Leads machineStep (fun _ a => a.smooth = true) (ev, p) (ev, q) ∧
      q.run = .ended (.returned true) ∧ q.completed = p.completed := by
  let joined : WorkerPool := { p with joined := true }
  let left := joined.leave (.returned true)
  have hleave : left.run = .leaving (.returned true) := leave_run (p := joined) hworkers _
  have hjoins : machineStep (ev, p) (.pool .joinReturns) = some (ev, joined) := if_pos ⟨hzero, hwaiting⟩
  have hwakes : machineStep (ev, joined) (.pool (.runWakes true)) = some (ev, left) := by
    refine (if_pos ⟨hwaiting, rfl⟩).trans ?_
    rw [hstop]
    rfl
  have hends : machineStep (ev, left) (.pool .runEnds) =
      some (ev, { left with run := .ended (.returned true) }) := by
    simp only [machineStep, poolStep, hleave]
  obtain ⟨n, hn⟩ := leave_spec joined (.returned true)
  exact ⟨_, .head rfl hjoins (.head rfl hwakes (.single rfl hends)), rfl, hn.completed⟩

/-- Wherever `run` stands, it can return `True` if it was not stopped or cancelled. -/
theorem pool_ends (h : Going chunks ev p) (hb : Blamed ev p) (hanswers : p.run.answers = true)
    (hstop : ev.stopEvent = false) (hpause : ev.pauseEvent = true) (hworkers : p.workers ≠ []) :
    ∃ q, Leads machineStep (fun _ a => a.smooth = true) (ev, p) (ev, q) ∧ q.run = .ended (.returned true) := by
  have hhalted : p.run.fails = true → False := fun hfails => by
    rw [hb.halted hfails] at hstop
    cases hstop
  cases hrun : p.run with
  | waiting =>
    obtain ⟨q, hq, -, hrunning, hleft, hzero⟩ := pool_joins h hstop hpause hrun hworkers
    obtain ⟨r, hr, hend, -⟩ := pool_returns hstop hrunning hleft hzero
    exact ⟨r, hq.trans hr, hend⟩
  | leaving result =>
    rw [hrun] at hanswers hhalted
    cases result with
    | returned success =>
      cases success with
      | true =>
        refine ⟨{ p with run := .ended (.returned true) }, .single (a := .pool .runEnds) rfl ?_, rfl⟩
        simp only [machineStep, poolStep, hrun]
      | false => exact absurd rfl hhalted
    | _ => cases hanswers
  | ended result =>
    rw [hrun] at hanswers hhalted
    cases result with
    | returned success =>
      cases success with
      | true => exact ⟨p, .refl _, hrun⟩
      | false => exact absurd rfl hhalted
    | _ => cases hanswers

end

end Mrdl.Workers
