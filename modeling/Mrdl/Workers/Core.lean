import Mrdl.Events
import Mathlib.Data.List.Sort
import Mathlib.Algebra.Order.Field.Rat

/-! # `WorkerPool`

The pool as a machine. Every worker stands at one of its awaits, and an action moves one worker from
its await to the next; between two awaits nothing else runs. A worker holds a chunk while it fetches
it, and owes the queue a `task_done` from the moment it took an entry until its `finally` block.
`run` waits for the queue to be joined or the stop event to be set, sends every worker a sentinel,
and cancels the ones that do not end within two seconds.
-/

namespace Mrdl.Workers
set_option autoImplicit false

/-- `_STOP_SENTINEL`. -/
def stopSentinel : ℤ := -1

/-- The order of the tuples in the priority queue. -/
def Before (a b : QueueItem) : Prop :=
  a.retryTime < b.retryTime ∨ (a.retryTime = b.retryTime ∧
    (a.chunkIdx < b.chunkIdx ∨ (a.chunkIdx = b.chunkIdx ∧ a.retries ≤ b.retries)))

instance : DecidableRel Before := fun a b => by
  unfold Before
  infer_instance

/-- The awaits of a worker. `pausing` knows whether the pause event has woken it. -/
inductive WorkerPc
  | startup
  | pausing (woken : Bool)
  | getting
  | backoff
  | fetching (item : QueueItem) (startedAt : ℚ)
  | exited
  deriving DecidableEq, Repr

/-- The entry whose chunk the worker has in its hands. -/
def WorkerPc.item? : WorkerPc → Option QueueItem
  | .fetching item _ => some item
  | _ => none

/-- The worker has taken an entry and not called `task_done` for it. -/
def WorkerPc.owes : WorkerPc → Bool
  | .backoff | .fetching _ _ => true
  | _ => false

structure Worker where
  source : String
  pc : WorkerPc
  deriving DecidableEq, Repr

/-- How `run` ends. -/
inductive RunResult
  | returned (isComplete : Bool)
  | cancelled
  | valueError
  deriving DecidableEq, Repr

inductive RunPc
  | waiting
  | leaving (result : RunResult)
  | ended (result : RunResult)
  deriving DecidableEq, Repr

/-- The pool with its queue. `failures` lists the chunk of every failed fetch so far, `joined` tells
that the queue's `join()` has been released, `misacked` that `task_done` was called too often. -/
structure WorkerPool where
  queue : List QueueItem
  unfinished : ℕ
  workers : List Worker
  completed : List ℕ
  failures : List ℕ := []
  lastError : Option PoolError := none
  joined : Bool := false
  run : RunPc := .waiting
  now : ℚ := 0
  misacked : Bool := false
  deriving DecidableEq, Repr

namespace WorkerPool

/-- The pool as `run` starts it, on the queue of `build_chunk_queue`. -/
def init (sources : List String) (threadsPerSource : ℕ) (chunks completed : List ℕ) : WorkerPool where
  queue := (chunks.map fun i : ℕ => (⟨0, i, 0⟩ : QueueItem)).insertionSort Before
  unfinished := chunks.length
  workers := sources.flatMap fun s => List.replicate threadsPerSource ⟨s, .startup⟩
  completed := completed

def pcOf (p : WorkerPool) (w : ℕ) : Option WorkerPc := p.workers[w]?.map Worker.pc

def move (p : WorkerPool) (w : ℕ) (pc : WorkerPc) : WorkerPool :=
  { p with workers := p.workers.modify w fun x => { x with pc := pc } }

/-- `put`: the queue is unbounded, so it never waits. -/
def put (p : WorkerPool) (item : QueueItem) : WorkerPool :=
  { p with queue := p.queue.orderedInsert Before item, unfinished := p.unfinished + 1 }

/-- `task_done`; it raises when nothing is unfinished. -/
def taskDone (p : WorkerPool) : WorkerPool :=
  { p with unfinished := p.unfinished - 1, misacked := p.misacked || decide (p.unfinished = 0) }

def putSentinels : ℕ → WorkerPool → WorkerPool
  | 0, p => p
  | n + 1, p => putSentinels n (p.put ⟨0, stopSentinel, 0⟩)

/-- The beginning of the `finally` block of `run`. `asyncio.wait` raises on an empty set of tasks. -/
def leave (p : WorkerPool) (result : RunResult) : WorkerPool :=
  if p.workers = [] then { p with run := .ended .valueError }
  else { putSentinels p.workers.length p with run := .leaving result }

/-- `self._completed_set.add(chunk_idx)`. -/
def record (p : WorkerPool) (i : ℕ) : WorkerPool :=
  { p with completed := if i ∈ p.completed then p.completed else p.completed ++ [i] }

/-- The delay before a chunk is tried again. -/
def backoffDelay (retries : ℕ) : ℚ := min 30 (2 ^ retries)

end WorkerPool

inductive PoolAct
  | wake (w : ℕ) (factoryRaises : Bool)
  | openGate (w : ℕ)
  | passGate (w : ℕ)
  | getTimeout (w : ℕ)
  | get (w : ℕ) (banned allBanned : Bool)
  | slept (w : ℕ)
  | fetchReturned (w : ℕ)
  | fetchStopped (w : ℕ)
  | fetchFailed (w : ℕ) (typeName message : String) (healthRaises : Bool)
  | workerCancelled (w : ℕ)
  | joinReturns
  | runWakes (joinDone : Bool)
  | runCancelled
  | runEnds
  | tick (d : ℚ)
  deriving DecidableEq, Repr

/-- `while not self._stop_event.is_set()`, then the wait for the pause event. -/
def loopHead (ev : Events) : WorkerPc := if ev.stopEvent then .exited else .pausing false

/-- `_worker`, from the entry it got from the queue to its next await. -/
def takeItem (ev : Events) (p : WorkerPool) (w : ℕ) (item : QueueItem) (banned allBanned : Bool) :
    Events × WorkerPool :=
  if item.chunkIdx = stopSentinel then (ev, (p.move w .exited).taskDone)
  else if p.now < item.retryTime then (ev, (p.put item).move w .backoff)
  else if banned then
    if allBanned then
      (ev.stopBoth, ({ p with lastError := some .allBanned }.move w .exited).taskDone)
    else (ev, (p.put item).move w .backoff)
  else (ev, p.move w (.fetching item p.now))

/-- `_process_chunk` after a failed fetch, with `_handle_chunk_failure`. A health tracker that raises
ends the worker. -/
def failItem (ev : Events) (p : WorkerPool) (w : ℕ) (item : QueueItem) (typeName message : String)
    (healthRaises : Bool) : Events × WorkerPool :=
  let p' := { p with failures := p.failures ++ [item.chunkIdx.toNat] }
  if healthRaises then (ev, (p'.move w .exited).taskDone)
  else if ev.stopEvent then (ev, (p'.move w (loopHead ev)).taskDone)
  else if item.retries < 5 then
    (ev, ((p'.put ⟨p.now + WorkerPool.backoffDelay item.retries, item.chunkIdx, item.retries + 1⟩).move w
      (loopHead ev)).taskDone)
  else
    (ev.stopBoth, ({ p' with lastError := some (.fatal item.chunkIdx typeName message) }.move w
      (loopHead ev.stopBoth)).taskDone)

def poolStep (ev : Events) (p : WorkerPool) : PoolAct → Option (Events × WorkerPool)
  | .wake w factoryRaises =>
      match p.pcOf w with
      | some .startup => some (ev, p.move w (if factoryRaises then .exited else loopHead ev))
      | _ => none
  | .openGate w =>
      match p.pcOf w with
      | some (.pausing false) => if ev.pauseEvent then some (ev, p.move w (.pausing true)) else none
      | _ => none
  | .passGate w =>
      match p.pcOf w with
      | some (.pausing true) => some (ev, p.move w .getting)
      | _ => none
  | .getTimeout w =>
      match p.pcOf w with
      | some .getting => some (ev, p.move w (loopHead ev))
      | _ => none
  | .get w banned allBanned =>
      match p.pcOf w, p.queue with
      | some .getting, item :: rest => some (takeItem ev { p with queue := rest } w item banned allBanned)
      | _, _ => none
  | .slept w =>
      match p.pcOf w with
      | some .backoff => some (ev, (p.move w (loopHead ev)).taskDone)
      | _ => none
  | .fetchReturned w =>
      match p.pcOf w with
      | some (.fetching item _) =>
          some (ev, ((p.record item.chunkIdx.toNat).move w (loopHead ev)).taskDone)
      | _ => none
  | .fetchStopped w =>
      match p.pcOf w with
      | some (.fetching _ _) =>
          if ev.stopEvent then some (ev, (p.move w (loopHead ev)).taskDone) else none
      | _ => none
  | .fetchFailed w typeName message healthRaises =>
      match p.pcOf w with
      | some (.fetching item _) => some (failItem ev p w item typeName message healthRaises)
      | _ => none
  | .workerCancelled w =>
      match p.run, p.pcOf w with
      | .ended _, some pc =>
          if pc = .exited then none
          else if pc.owes then some (ev, (p.move w .exited).taskDone)
          else some (ev, p.move w .exited)
      | _, _ => none
  | .joinReturns =>
      if p.unfinished = 0 ∧ p.run = .waiting then some (ev, { p with joined := true }) else none
  | .runWakes joinDone =>
      if p.run = .waiting ∧ (if joinDone then p.joined = true else ev.stopEvent = true) then
        some (ev, p.leave (.returned (joinDone && !ev.stopEvent)))
      else none
  | .runCancelled =>
      match p.run with
      | .waiting => some ({ ev with stopEvent := true }, p.leave .cancelled)
      | .leaving _ => some (ev, { p with run := .ended .cancelled })
      | .ended _ => none
  | .runEnds =>
      match p.run with
      | .leaving result => some (ev, { p with run := .ended result })
      | _ => none
  | .tick d => if 0 ≤ d then some (ev, { p with now := p.now + d }) else none

end Mrdl.Workers
