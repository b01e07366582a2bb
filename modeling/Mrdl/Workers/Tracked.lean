import Mrdl.Workers.Hands
import Mrdl.Workers.Health

/-! # The pool with its health tracker

The pool's machine leaves open what a worker is told of the bans and whether `record_failure` raises. Here
both come from the tracker, at the pool's clock. Each step is one of the pool's, so what the pool keeps is
kept. The queue may begin with any entries: a chunk may be in it twice, with any retries, and may be completed
already.
-/

namespace Mrdl.Workers
open Runs
set_option autoImplicit false

/-- An entry of the queue `run` starts with: when it is due, its chunk, its retries. -/
abbrev Entry := ℚ × ℕ × ℕ

def Entry.item (e : Entry) : QueueItem := ⟨e.1, e.2.1, e.2.2⟩

structure TrackedPool where
  ev : Events
  pool : WorkerPool
  health : MirrorHealthTracker
  deriving DecidableEq, Repr

inductive TrackedAct
  | pool (a : PoolAct)
  | get (w : ℕ)
  | fetchFailed (w : ℕ) (e : FetchException)
  | events (ev : Events)
  deriving DecidableEq, Repr

/-- The actions of the pool whose outcome depends on the tracker. -/
def PoolAct.tracked : PoolAct → Bool
  | .get _ _ _ | .fetchFailed _ _ _ _ => true
  | _ => false

namespace TrackedPool

def init (ev : Events) (health : MirrorHealthTracker) (sources : List String) (threadsPerSource : ℕ)
    (entries : List Entry) (completed : List ℕ) : TrackedPool where
  ev := ev
  pool :=
    { WorkerPool.init sources threadsPerSource [] completed with
      queue := (entries.map Entry.item).insertionSort Before
      unfinished := entries.length }
  health := health

/-- The `source` of worker `w`. -/
def source (s : TrackedPool) (w : ℕ) : Option String := s.pool.workers[w]?.map Worker.source

def isBanned (s : TrackedPool) (source : String) : Bool := s.health.isBanned s.pool.now source

/-- `get_active_count`, now. -/
def activeCount (s : TrackedPool) (sources : List String) : ℕ := s.health.getActiveCount s.pool.now sources

/-- A step of the pool under the tracker. -/
def poolMove (s : TrackedPool) (health : MirrorHealthTracker) (a : PoolAct) : Option TrackedPool :=
  (poolStep s.ev s.pool a).map fun (ev, pool) => ⟨ev, pool, health⟩

end TrackedPool

def trackedStep (sources : List String) (s : TrackedPool) : TrackedAct → Option TrackedPool
  | .pool a => if a.tracked then none else s.poolMove s.health a
  | .get w =>
      match s.source w with
      | none => none
      | some source => s.poolMove s.health (.get w (s.isBanned source) (sources.all s.isBanned))
  | .fetchFailed w e =>
      match s.source w with
      | none => none
      | some source =>
          match s.health.recordFailure s.pool.now e.recorded source with
          | none => s.poolMove s.health (.fetchFailed w e.typeName e.message true)
          | some health => s.poolMove health (.fetchFailed w e.typeName e.message false)
  | .events ev => if s.ev.Le ev then some { s with ev := ev } else none

/-- A failure whose recording raises. -/
def TrackedAct.unreadable : TrackedAct → Bool
  | .fetchFailed _ e => e.recorded.unreadable
  | _ => false

/-! ## Each step is one of the pool -/

section
variable {sources : List String} {s t : TrackedPool}

/-- What a step is: one of the pool with the tracker's answers, or a change of the events. -/
inductive TrackedMove (sources : List String) (s t : TrackedPool) : TrackedAct → Prop
  | pool (a : PoolAct) (free : a.tracked = false) (step : poolStep s.ev s.pool a = some (t.ev, t.pool))
      (health : t.health = s.health) : TrackedMove sources s t (.pool a)
  | get (w : ℕ) (source : String) (here : s.source w = some source)
      (step : poolStep s.ev s.pool (.get w (s.isBanned source) (sources.all s.isBanned)) = some (t.ev, t.pool))
      (health : t.health = s.health) : TrackedMove sources s t (.get w)
  | failed (w : ℕ) (e : FetchException) (source : String) (here : s.source w = some source)
      (record : s.health.recordFailure s.pool.now e.recorded source = some t.health)
      (step : poolStep s.ev s.pool (.fetchFailed w e.typeName e.message false) = some (t.ev, t.pool)) :
      TrackedMove sources s t (.fetchFailed w e)
  | unreadable (w : ℕ) (e : FetchException) (header : e.recorded.unreadable = true)
      (step : poolStep s.ev s.pool (.fetchFailed w e.typeName e.message true) = some (t.ev, t.pool))
      (health : t.health = s.health) : TrackedMove sources s t (.fetchFailed w e)
  | events (ev : Events) (le : s.ev.Le ev) (next : t = { s with ev := ev }) :
      TrackedMove sources s t (.events ev)

theorem poolMove_some {health : MirrorHealthTracker} {a : PoolAct} (h : s.poolMove health a = some t) :
    poolStep s.ev s.pool a = some (t.ev, t.pool) ∧ t.health = health := by
  obtain ⟨r, hr, rfl⟩ := Option.map_eq_some_iff.mp h
  exact ⟨hr, rfl⟩

theorem trackedStep_moves {a : TrackedAct} (h : trackedStep sources s a = some t) :
    TrackedMove sources s t a := by
  cases a with
  | pool a =>
    simp only [trackedStep, Option.ite_none_left_eq_some, Bool.not_eq_true] at h
    obtain ⟨hstep, hhealth⟩ := poolMove_some h.2
    exact .pool a h.1 hstep hhealth
  | get w =>
    cases hsource : s.source w with
    | none => simp [trackedStep, hsource] at h
    | some source =>
      simp only [trackedStep, hsource] at h
      obtain ⟨hstep, hhealth⟩ := poolMove_some h
      exact .get w source hsource hstep hhealth
  | fetchFailed w e =>
    cases hsource : s.source w with
    | none => simp [trackedStep, hsource] at h
    | some source =>
      simp only [trackedStep, hsource] at h
      cases hrecord : s.health.recordFailure s.pool.now e.recorded source with
      | none =>
        simp only [hrecord] at h
        obtain ⟨hstep, hhealth⟩ := poolMove_some h
        exact .unreadable w e (recordFailure_eq_none.mp hrecord) hstep hhealth
      | some health =>
        simp only [hrecord] at h
        obtain ⟨hstep, rfl⟩ := poolMove_some h
        exact .failed w e source hsource hrecord hstep
  | events ev =>
    simp only [trackedStep, Option.ite_none_right_eq_some, Option.some.injEq] at h
    exact .events ev h.1 h.2.symm

theorem poolStep_sources {ev ev' : Events} {p q : WorkerPool} {a : PoolAct}
    (hs : poolStep ev p a = some (ev', q)) : q.workers.map Worker.source = p.workers.map Worker.source := by
  have hmove : ∀ (p : WorkerPool) (w : ℕ) (pc : WorkerPc),
      (p.move w pc).workers.map Worker.source = p.workers.map Worker.source := by
    intro p w pc
    apply List.ext_getElem?
    intro v
    simp only [WorkerPool.move, List.getElem?_map, List.getElem?_modify]
    split <;> cases p.workers[v]? <;> rfl
  have hleave : ∀ result, (p.leave result).workers.map Worker.source = p.workers.map Worker.source := by
    intro result
    obtain ⟨n, hn⟩ := leave_spec p result
    rw [hn.workers]
  cases poolStep_moves hs with
  | wakes | stopped => exact hleave _
  | joined | cancelled | ends | tick => rfl
  | _ => exact hmove _ _ _

theorem putSentinels_now (n : ℕ) (p : WorkerPool) : (p.putSentinels n).now = p.now := by
  induction n generalizing p with
  | zero => rfl
  | succ n ih => exact ih _

theorem poolStep_now {ev ev' : Events} {p q : WorkerPool} {a : PoolAct}
    (hs : poolStep ev p a = some (ev', q)) : p.now ≤ q.now := by
  have hleave : ∀ result, (p.leave result).now = p.now := by
    intro result
    unfold WorkerPool.leave
    split
    · rfl
    · exact putSentinels_now _ _
  cases poolStep_moves hs with
  | wakes | stopped => exact (hleave _).ge
  | tick d =>
    simp only [poolStep, Option.ite_none_right_eq_some] at hs
    exact le_add_of_nonneg_right hs.1
  | _ => exact le_refl _

theorem lossy_of_free {a : PoolAct} (h : a.tracked = false) : a.lossy = false := by
  cases a with
  | fetchFailed w typeName message healthRaises => cases h
  | _ => rfl

end

/-! ## No chunk is lost -/

/-- As long as the stop event is not set, every chunk is completed or still in the queue or in some
worker's hands. -/
def Covered (chunks : List ℕ) (ev : Events) (p : WorkerPool) : Prop :=
  ev.stopEvent = false → ∀ i ∈ chunks, i ∈ p.completed ∨ ∃ item ∈ p.tokens, item.chunkIdx = (i : ℤ)

section
variable {p q : WorkerPool} {ev ev' : Events} {chunks : List ℕ}

theorem not_sentinel (i : ℕ) : (i : ℤ) ≠ stopSentinel := by
  unfold stopSentinel
  omega

theorem Change.covers {lossy : Bool} (h : Change lossy ev p q) (hlossy : lossy = false)
    (hstop : ev.stopEvent = false) {i : ℕ}
    (hi : i ∈ p.completed ∨ ∃ item ∈ p.tokens, item.chunkIdx = (i : ℤ)) :
    i ∈ q.completed ∨ ∃ item ∈ q.tokens, item.chunkIdx = (i : ℤ) := by
  cases h with
  | same ht hc hf =>
    rw [hc]
    exact hi.imp id fun ⟨item, hmem, hidx⟩ => ⟨item, ht.symm.subset hmem, hidx⟩
  | sentinels n ht hc hf =>
    rw [hc]
    exact hi.imp id fun ⟨item, hmem, hidx⟩ => ⟨item, ht.symm.subset (List.mem_append_right _ hmem), hidx⟩
  | dropped item ht hc hf hwhy =>
    rw [hc]
    refine hi.imp id ?_
    rintro ⟨x, hx, hidx⟩
    rcases List.mem_cons.mp (ht.subset hx) with rfl | hx
    · rcases hwhy with hl | hs | hsentinel
      · rw [hlossy] at hl
        cases hl
      · rw [hstop] at hs
        cases hs
      · exact absurd (hidx.symm.trans hsentinel) (not_sentinel i)
    · exact ⟨x, hx, hidx⟩
  | retried item retryTime rest hb ha hc hf hfew hchunk =>
    rw [hc]
    refine hi.imp id ?_
    rintro ⟨x, hx, hidx⟩
    rcases List.mem_cons.mp (hb.subset hx) with rfl | hx
    · exact ⟨_, ha.symm.subset List.mem_cons_self, hidx⟩
    · exact ⟨x, ha.symm.subset (List.mem_cons_of_mem _ hx), hidx⟩
  | finished item ht hc hf hchunk =>
    rw [hc, mem_record]
    rcases hi with hi | ⟨x, hx, hidx⟩
    · exact .inl (.inl hi)
    · rcases List.mem_cons.mp (ht.subset hx) with rfl | hx
      · rw [hidx, Int.toNat_natCast]
        exact .inl (.inr rfl)
      · exact .inr ⟨x, hx, hidx⟩

/-- The queue's count, the chunks and the success of `run` agree. -/
structure Accounts (chunks : List ℕ) (ev : Events) (p : WorkerPool) : Prop where
  ledger : Ledger ev p
  covered : Covered chunks ev p
  finished : Finished chunks p

theorem poolStep_accounts {a : PoolAct} (h : Accounts chunks ev p) (hcalm : a.lossy = false)
    (hs : poolStep ev p a = some (ev', q)) : Accounts chunks ev' q := by
  refine ⟨poolStep_ledger h.ledger hs, fun hstop i hi => ?_, fun hq i hi => ?_⟩
  · have hbefore := Events.not_stopped_of_le (poolStep_onward hs).le hstop
    exact (poolStep_change h.ledger hs).covers hcalm hstop (h.covered hbefore i hi)
  · apply poolStep_completed_mono hs
    rcases poolStep_succeeds hs hq with hold | ⟨hjoin, hstop⟩
    · exact h.finished hold i hi
    · -- `join` was released: what is left in the queue or in hands are sentinels
      rcases h.covered hstop i hi with hdone | ⟨item, hitem, hidx⟩
      · exact hdone
      · exact absurd (hidx.symm.trans (h.ledger.joined hjoin item hitem)) (not_sentinel i)

theorem Ledger.le (h : Ledger ev p) (hle : ev.Le ev') : Ledger ev' p :=
  { h with leaving := fun hrun => (h.leaving hrun).imp id hle.stopEvent }

theorem trackedStep_accounts {sources : List String} {s t : TrackedPool} {a : TrackedAct}
    (h : Accounts chunks s.ev s.pool) (hread : a.unreadable = false)
    (hs : trackedStep sources s a = some t) : Accounts chunks t.ev t.pool := by
  cases trackedStep_moves hs with
  | pool a free step health => exact poolStep_accounts h (lossy_of_free free) step
  | get w source here step health => exact poolStep_accounts h rfl step
  | failed w e source here record step => exact poolStep_accounts h rfl step
  | unreadable w e header step health =>
    have hreadable : e.recorded.unreadable = false := hread
    rw [hreadable] at header
    cases header
  | events ev le next =>
    subst next
    exact ⟨h.ledger.le le, fun hstop => h.covered (Events.not_stopped_of_le le hstop), h.finished⟩

theorem init_queue (health : MirrorHealthTracker) (sources : List String) (threadsPerSource : ℕ)
    (entries : List Entry) (completed : List ℕ) :
    (TrackedPool.init ev health sources threadsPerSource entries completed).pool.tokens.Perm
      (entries.map Entry.item) := by
  rw [WorkerPool.tokens]
  show ((entries.map Entry.item).insertionSort Before ++
    hands (WorkerPool.init sources threadsPerSource [] completed).workers).Perm _
  rw [init_hands, List.append_nil]
  exact List.perm_insertionSort _ _

theorem init_accounts (health : MirrorHealthTracker) (sources : List String) (threadsPerSource : ℕ)
    (entries : List Entry) (completed : List ℕ) :
    Accounts (entries.map fun e => e.2.1) ev
      (TrackedPool.init ev health sources threadsPerSource entries completed).pool where
  ledger :=
    { due := fun x hx item t hpc => by
        have hstart : x ∈ (WorkerPool.init sources threadsPerSource [] completed).workers := hx
        rw [init_startup hstart] at hpc
        cases hpc
      balance := by
        have hlen := (List.perm_insertionSort Before (entries.map Entry.item)).length_eq
        have howed : (TrackedPool.init ev health sources threadsPerSource entries completed).pool.owed = 0 :=
          init_owed sources threadsPerSource [] completed
        rw [howed]
        exact ((List.length_map _).symm.trans hlen.symm)
      acked := rfl
      joined := fun h => by cases h
      leaving := fun h => absurd rfl h }
  covered _ i hi := by
    obtain ⟨e, he, rfl⟩ := List.mem_map.mp hi
    exact .inr ⟨e.item, (init_queue ..).symm.subset (List.mem_map_of_mem he), rfl⟩
  finished h := by cases h

end

/-- `run` returns `True` only with every chunk of its queue completed, whatever the fetches raise, the
tracker answers and the order of the workers, unless a 429 carries a `Retry-After` that `isdigit` lets through
to a `float` that rejects it. -/
theorem run_true_completes {sources : List String} {threadsPerSource : ℕ} {health : MirrorHealthTracker}
    {entries : List Entry} {completed : List ℕ} {ev : Events} {acts : List TrackedAct} {s : TrackedPool}
    (hrun : exec (trackedStep sources) (.init ev health sources threadsPerSource entries completed) acts =
      some s)
    (hread : ∀ a ∈ acts, a.unreadable = false) (hreturned : s.pool.run = .ended (.returned true)) :
    ∀ e ∈ entries, e.2.1 ∈ s.pool.completed := by
  have haccounts : Accounts (entries.map fun e => e.2.1) s.ev s.pool :=
    exec_guarded (P := fun s => Accounts (entries.map fun e => e.2.1) s.ev s.pool)
      (G := fun _ a => a.unreadable = false) (fun _ _ _ => trackedStep_accounts)
      (init_accounts health sources threadsPerSource entries completed) (Guarded.of_mem (fun _ => hread) _) hrun
  intro e he
  exact haccounts.finished (by rw [hreturned]; rfl) e.2.1 (List.mem_map_of_mem he)

/-- One worker, one chunk: the fetch ends, then `run` does. -/
private def oneFetch (last : TrackedAct) : List TrackedAct :=
  [.pool (.wake 0 false), .pool (.openGate 0), .pool (.passGate 0), .get 0, last, .pool .joinReturns,
    .pool (.runWakes true), .pool .runEnds]

theorem run_true_completes_one :
    ∃ s, exec (trackedStep ["a"]) (.init {} {} ["a"] 1 [(0, 0, 0)] []) (oneFetch (.pool (.fetchReturned 0))) =
        some s ∧ s.pool.run = .ended (.returned true) ∧ 0 ∈ s.pool.completed := by
  have hrun : exec (trackedStep ["a"]) (.init {} {} ["a"] 1 [(0, 0, 0)] []) (oneFetch (.pool (.fetchReturned 0))) =
      some ((exec (trackedStep ["a"]) (.init {} {} ["a"] 1 [(0, 0, 0)] [])
        (oneFetch (.pool (.fetchReturned 0)))).get (by decide +kernel)) := (Option.some_get _).symm
  exact ⟨_, hrun, by decide +kernel, run_true_completes hrun (by decide) (by decide +kernel) (0, 0, 0) (by simp)⟩

/-- A 429 whose `Retry-After` is a superscript two. -/
theorem superscript_loses_chunk :
    ∃ s, exec (trackedStep ["a"]) (.init {} {} ["a"] 1 [(0, 0, 0)] [])
        (oneFetch (.fetchFailed 0 (.fetchError (some (.clientResponse 429 (some "²"))) "429"))) = some s ∧
      s.pool.run = .ended (.returned true) ∧ 0 ∉ s.pool.completed := by
  refine ⟨(exec (trackedStep ["a"]) (.init {} {} ["a"] 1 [(0, 0, 0)] [])
    (oneFetch (.fetchFailed 0 (.fetchError (some (.clientResponse 429 (some "²"))) "429")))).get
      (by decide +kernel), (Option.some_get _).symm, ?_, ?_⟩
  · decide +kernel
  · decide +kernel

end Mrdl.Workers
