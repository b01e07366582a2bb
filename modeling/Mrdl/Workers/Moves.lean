import Mrdl.Workers.Core

/-! # What an action of the pool can do

Every action of `poolStep` with what it needs and what it leaves. Two actions are one move where they
do the same to the worker's hands and to what it owes the queue. What the pool keeps is derived from
this list.
-/

namespace Mrdl.Workers
set_option autoImplicit false

/-- The action loses a chunk although the stop event is not set: the health tracker raises. -/
def PoolAct.lossy : PoolAct → Bool
  | .fetchFailed _ _ _ healthRaises => healthRaises
  | _ => false

/-- The action ends the fetch of worker `w`. -/
def PoolAct.settles (w : ℕ) : PoolAct → Bool
  | .fetchReturned v | .fetchStopped v | .fetchFailed v _ _ _ | .workerCancelled v => decide (v = w)
  | _ => false

inductive PoolMove (ev : Events) (p : WorkerPool) : PoolAct → Events → WorkerPool → Prop
  | idle (a : PoolAct) (w : ℕ) (pc e : WorkerPc) (here : p.pcOf w = some pc) (free : pc.owes = false)
      (after : e.owes = false) (other : ∀ v, v ≠ w → a.settles v = false) :
      PoolMove ev p a ev (p.move w e)
  | pays (a : PoolAct) (w : ℕ) (pc e : WorkerPc) (here : p.pcOf w = some pc) (debt : pc.owes = true)
      (after : e.owes = false) (other : ∀ v, v ≠ w → a.settles v = false)
      (down : pc.item? = none ∨ (a.settles w = true ∧ (ev.stopEvent = true ∨ p.run ≠ .waiting))) :
      PoolMove ev p a ev (p.move w e).taskDone
  | sentinel (w : ℕ) (item : QueueItem) (rest : List QueueItem) (banned allBanned : Bool)
      (here : p.pcOf w = some .getting) (head : p.queue = item :: rest)
      (chunk : item.chunkIdx = stopSentinel) :
      PoolMove ev p (.get w banned allBanned) ev (({ p with queue := rest }.move w .exited).taskDone)
  | putBack (w : ℕ) (item : QueueItem) (rest : List QueueItem) (banned allBanned : Bool)
      (here : p.pcOf w = some .getting) (head : p.queue = item :: rest) :
      PoolMove ev p (.get w banned allBanned) ev (({ p with queue := rest }.put item).move w .backoff)
  | allBanned (w : ℕ) (item : QueueItem) (rest : List QueueItem) (banned allBanned : Bool)
      (here : p.pcOf w = some .getting) (head : p.queue = item :: rest) :
      PoolMove ev p (.get w banned allBanned) ev.stopBoth
        (({ p with queue := rest, lastError := some .allBanned }.move w .exited).taskDone)
  | starts (w : ℕ) (item : QueueItem) (rest : List QueueItem) (banned allBanned : Bool)
      (here : p.pcOf w = some .getting) (head : p.queue = item :: rest)
      (chunk : item.chunkIdx ≠ stopSentinel) (due : ¬ p.now < item.retryTime) :
      PoolMove ev p (.get w banned allBanned) ev
        ({ p with queue := rest }.move w (.fetching item p.now))
  | returned (w : ℕ) (item : QueueItem) (t : ℚ) (here : p.pcOf w = some (.fetching item t)) :
      PoolMove ev p (.fetchReturned w) ev
        (((p.record item.chunkIdx.toNat).move w (loopHead ev)).taskDone)
  | dropped (w : ℕ) (item : QueueItem) (t : ℚ) (typeName message : String) (healthRaises : Bool)
      (e : WorkerPc) (here : p.pcOf w = some (.fetching item t)) (after : e.owes = false)
      (why : healthRaises = true ∨ ev.stopEvent = true) :
      PoolMove ev p (.fetchFailed w typeName message healthRaises) ev
        (({ p with failures := p.failures ++ [item.chunkIdx.toNat] }.move w e).taskDone)
  | retried (w : ℕ) (item : QueueItem) (t : ℚ) (typeName message : String)
      (here : p.pcOf w = some (.fetching item t)) (few : item.retries < 5) :
      PoolMove ev p (.fetchFailed w typeName message false) ev
        ((({ p with failures := p.failures ++ [item.chunkIdx.toNat] }.put
          ⟨p.now + WorkerPool.backoffDelay item.retries, item.chunkIdx, item.retries + 1⟩).move w
            (loopHead ev)).taskDone)
  | gaveUp (w : ℕ) (item : QueueItem) (t : ℚ) (typeName message : String)
      (here : p.pcOf w = some (.fetching item t)) :
      PoolMove ev p (.fetchFailed w typeName message false) ev.stopBoth
        (({ p with
            failures := p.failures ++ [item.chunkIdx.toNat]
            lastError := some (.fatal item.chunkIdx typeName message) }.move w
          (loopHead ev.stopBoth)).taskDone)
  | joined (zero : p.unfinished = 0) : PoolMove ev p .joinReturns ev { p with joined := true }
  | wakes (joinDone : Bool) (woken : if joinDone then p.joined = true else ev.stopEvent = true) :
      PoolMove ev p (.runWakes joinDone) ev (p.leave (.returned (joinDone && !ev.stopEvent)))
  | stopped : PoolMove ev p .runCancelled { ev with stopEvent := true } (p.leave .cancelled)
  | cancelled (result : RunResult) (run : p.run = .leaving result) :
      PoolMove ev p .runCancelled ev { p with run := .ended .cancelled }
  | ends (result : RunResult) (run : p.run = .leaving result) :
      PoolMove ev p .runEnds ev { p with run := .ended result }
  | tick (d : ℚ) : PoolMove ev p (.tick d) ev { p with now := p.now + d }

theorem loopHead_owes (ev : Events) : (loopHead ev).owes = false := by
  unfold loopHead
  split <;> rfl

theorem item_of_owes {pc : WorkerPc} (h : pc.owes = false) : pc.item? = none := by
  cases pc with
  | fetching item t => cases h
  | _ => rfl

section
variable {ev ev' : Events} {p q : WorkerPool} {w : ℕ}

theorem takeItem_moves (ev : Events) {item : QueueItem} {rest : List QueueItem}
    (here : p.pcOf w = some .getting) (head : p.queue = item :: rest) (banned allBanned : Bool) :
    PoolMove ev p (.get w banned allBanned)
      (takeItem ev { p with queue := rest } w item banned allBanned).1
      (takeItem ev { p with queue := rest } w item banned allBanned).2 := by
  unfold takeItem
  split
  · rename_i hchunk
    exact .sentinel w item rest banned allBanned here head hchunk
  · rename_i hchunk
    split
    · exact .putBack w item rest banned allBanned here head
    · rename_i hdue
      split
      · split
        · exact .allBanned w item rest _ _ here head
        · exact .putBack w item rest _ _ here head
      · exact .starts w item rest _ _ here head hchunk hdue

theorem failItem_moves (ev : Events) {item : QueueItem} {t : ℚ}
    (here : p.pcOf w = some (.fetching item t)) (typeName message : String) (healthRaises : Bool) :
    PoolMove ev p (.fetchFailed w typeName message healthRaises)
      (failItem ev p w item typeName message healthRaises).1
      (failItem ev p w item typeName message healthRaises).2 := by
  unfold failItem
  cases healthRaises with
  | true => exact .dropped w item t typeName message true .exited here rfl (Or.inl rfl)
  | false =>
    simp only [Bool.false_eq_true, if_false]
    split
    · rename_i hstop
      exact .dropped w item t typeName message false _ here (loopHead_owes ev) (Or.inr hstop)
    · split
      · rename_i hfew
        exact .retried w item t typeName message here hfew
      · exact .gaveUp w item t typeName message here

theorem poolStep_moves {a : PoolAct} (hs : poolStep ev p a = some (ev', q)) : PoolMove ev p a ev' q := by
  cases a with
  | wake w factoryRaises =>
    simp only [poolStep] at hs
    split at hs <;> cases hs
    rename_i hpc
    refine .idle _ w _ _ hpc rfl ?_ fun _ _ => rfl
    split
    · rfl
    · exact loopHead_owes ev
  | openGate w =>
    simp only [poolStep] at hs
    split at hs
    · rename_i hpc
      split at hs <;> cases hs
      exact .idle _ w _ _ hpc rfl rfl fun _ _ => rfl
    · cases hs
  | passGate w =>
    simp only [poolStep] at hs
    split at hs <;> cases hs
    rename_i hpc
    exact .idle _ w _ _ hpc rfl rfl fun _ _ => rfl
  | getTimeout w =>
    simp only [poolStep] at hs
    split at hs <;> cases hs
    rename_i hpc
    exact .idle _ w _ _ hpc rfl (loopHead_owes ev) fun _ _ => rfl
  | get w banned allBanned =>
    simp only [poolStep] at hs
    split at hs
    · rename_i item rest hpc hqueue
      have htake := takeItem_moves ev hpc hqueue banned allBanned
      rwa [Option.some.inj hs] at htake
    · cases hs
  | slept w =>
    simp only [poolStep] at hs
    split at hs <;> cases hs
    rename_i hpc
    exact .pays _ w _ _ hpc rfl (loopHead_owes ev) (fun _ _ => rfl) (Or.inl rfl)
  | fetchReturned w =>
    simp only [poolStep] at hs
    split at hs <;> cases hs
    rename_i item t hpc
    exact .returned w item t hpc
  | fetchStopped w =>
    simp only [poolStep] at hs
    split at hs
    · rename_i item t hpc
      split at hs <;> cases hs
      rename_i hstop
      exact .pays _ w _ _ hpc rfl (loopHead_owes ev) (fun v hv => decide_eq_false hv.symm)
        (Or.inr ⟨decide_eq_true rfl, Or.inl hstop⟩)
    · cases hs
  | fetchFailed w typeName message healthRaises =>
    simp only [poolStep] at hs
    split at hs
    · rename_i item t hpc
      have hfail := failItem_moves ev hpc typeName message healthRaises
      rwa [Option.some.inj hs] at hfail
    · cases hs
  | workerCancelled w =>
    simp only [poolStep] at hs
    split at hs
    · rename_i result pc hrun hpc
      have hleft : p.run ≠ .waiting := by
        rw [hrun]
        exact fun h => RunPc.noConfusion h
      split at hs
      · cases hs
      · split at hs <;> cases hs
        · rename_i howes
          exact .pays _ w _ _ hpc howes rfl (fun v hv => decide_eq_false hv.symm)
            (Or.inr ⟨decide_eq_true rfl, Or.inr hleft⟩)
        · rename_i hfree
          exact .idle _ w _ _ hpc (Bool.eq_false_of_not_eq_true hfree) rfl
            fun v hv => decide_eq_false hv.symm
    · cases hs
  | joinReturns =>
    simp only [poolStep, Option.ite_none_right_eq_some, Option.some.injEq, Prod.mk.injEq] at hs
    obtain ⟨⟨hzero, -⟩, rfl, rfl⟩ := hs
    exact .joined hzero
  | runWakes joinDone =>
    simp only [poolStep, Option.ite_none_right_eq_some, Option.some.injEq, Prod.mk.injEq] at hs
    obtain ⟨⟨-, hwoken⟩, rfl, rfl⟩ := hs
    exact .wakes joinDone hwoken
  | runCancelled =>
    simp only [poolStep] at hs
    split at hs <;> cases hs
    · exact .stopped
    · rename_i result hrun
      exact .cancelled result hrun
  | runEnds =>
    simp only [poolStep] at hs
    split at hs <;> cases hs
    rename_i result hrun
    exact .ends result hrun
  | tick d =>
    simp only [poolStep, Option.ite_none_right_eq_some, Option.some.injEq, Prod.mk.injEq] at hs
    obtain ⟨-, rfl, rfl⟩ := hs
    exact .tick d

end

end Mrdl.Workers
