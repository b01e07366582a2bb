import Mrdl.Workers.Attempts
import Mrdl.Workers.Ending
import Mrdl.Workers.SlowMirror

/-! # Whatever the fetches come to, the pool can end

Fetches may go on failing, for good and in any way, and their failures ban the mirrors. Each round takes a
chunk off, or one of the attempts that are left, or one of the workers out of its fetch; and where every
mirror is banned without an end, the worker that finds it stops the pool. So `run` comes to its answer, and
says `False` only with a reason.
-/

namespace Mrdl.Workers
open Runs
set_option autoImplicit false

/-- What the fetch that worker `w` awaits comes to: it returns, or raises. -/
abbrev Fate := TrackedPool → ℕ → Option FetchException

/-- A header that cannot be read never comes. -/
def Fate.Readable (fate : Fate) : Prop := ∀ s w e, fate s w = some e → e.recorded.unreadable = false

/-- A step that the pool takes by itself, if the fetches come to what `fate` says. -/
def Fated (fate : Fate) (s : TrackedPool) : TrackedAct → Prop
  | .pool (.fetchReturned w) => fate s w = none
  | .fetchFailed w e => fate s w = some e
  | .pool a => a.smooth = true
  | .get _ => True
  | .events _ => False

/-- An exception ends a worker, or `run`. -/
def TrackedAct.breaks : TrackedAct → Bool
  | .pool a => a.kills || decide (a = .runCancelled)
  | .fetchFailed _ e => e.recorded.unreadable
  | _ => false

section
variable {sources : List String} {chunks : List ℕ} {fate : Fate} {s t : TrackedPool} {p q : WorkerPool} {w : ℕ}

theorem move_move (p : WorkerPool) (w : ℕ) (e e' : WorkerPc) : (p.move w e).move w e' = p.move w e' := by
  unfold WorkerPool.move
  rw [List.modify_modify_eq]
  rfl

theorem move_self {e : WorkerPc} (h : p.pcOf w = some e) : p.move w e = p := by
  have hworkers : (p.workers.modify w fun x => { x with pc := e }) = p.workers := by
    apply List.ext_getElem?
    intro v
    rw [List.getElem?_modify]
    split
    · rename_i hv
      subst hv
      obtain ⟨x, hx, hpc⟩ := Option.map_eq_some_iff.mp h
      rw [hx, ← hpc]
      rfl
    · cases p.workers[v]? <;> rfl
  rw [WorkerPool.move, hworkers]

/-- An action under the tracker is one of the pool that does not end a worker. -/
theorem trackedStep_unbroken {a : TrackedAct} (hbreaks : a.breaks = false) (hno : ∀ ev, a ≠ .events ev)
    (hs : trackedStep sources s a = some t) :
    ∃ b, b.kills = false ∧ b ≠ .runCancelled ∧ poolStep s.ev s.pool b = some (t.ev, t.pool) := by
  cases trackedStep_moves hs with
  | pool b free step health =>
    obtain ⟨hkills, hcancel⟩ := Bool.or_eq_false_iff.mp hbreaks
    exact ⟨b, hkills, of_decide_eq_false hcancel, step⟩
  | get w source here step health => exact ⟨_, rfl, PoolAct.noConfusion, step⟩
  | failed w e source here record step => exact ⟨_, rfl, PoolAct.noConfusion, step⟩
  | unreadable w e header step health =>
    have hread : e.recorded.unreadable = false := hbreaks
    rw [header] at hread
    cases hread
  | events ev le next => exact absurd rfl (hno ev)

theorem Fated.breaks {a : TrackedAct} (hread : fate.Readable) (h : Fated fate s a) :
    a.breaks = false ∧ ∀ ev, a ≠ .events ev := by
  cases a with
  | pool b =>
    refine ⟨?_, fun _ => TrackedAct.noConfusion⟩
    have hsmooth : b.smooth = true := by
      cases b with
      | fetchReturned w => rfl
      | _ => exact h
    refine Bool.or_eq_false_iff.mpr ⟨smooth_kills hsmooth, decide_eq_false fun heq => ?_⟩
    rw [heq] at hsmooth
    cases hsmooth
  | get w => exact ⟨rfl, fun _ => TrackedAct.noConfusion⟩
  | fetchFailed w e => exact ⟨hread s w e h, fun _ => TrackedAct.noConfusion⟩
  | events ev => exact absurd h id

/-! ## What is kept -/

/-- Nobody was ended by an exception, and every mirror has a worker. -/
structure Standing (sources : List String) (chunks : List ℕ) (s : TrackedPool) : Prop where
  going : Going chunks s.ev s.pool
  blamed : Blamed s.ev s.pool
  finished : Finished chunks s.pool
  answers : s.pool.run.answers = true
  workers : s.pool.workers ≠ []
  manned : ∀ m ∈ sources, ∃ w, s.source w = some m

theorem Standing.step {a : TrackedAct} (h : Standing sources chunks s) (hbreaks : a.breaks = false)
    (hs : trackedStep sources s a = some t) : Standing sources chunks t := by
  have hmanned : ∀ m ∈ sources, ∃ w, t.source w = some m := by
    intro m hm
    obtain ⟨w, hw⟩ := h.manned m hm
    exact ⟨w, (trackedStep_source hs w).trans hw⟩
  cases a with
  | events ev =>
    simp only [trackedStep, Option.ite_none_right_eq_some, Option.some.injEq] at hs
    obtain ⟨hle, rfl⟩ := hs
    exact ⟨h.going.le hle, h.blamed.le hle, h.finished, h.answers, h.workers, hmanned⟩
  | _ =>
    obtain ⟨b, hkills, hcancel, hb⟩ := trackedStep_unbroken hbreaks (fun _ => TrackedAct.noConfusion) hs
    refine ⟨h.going.step hkills hb, poolStep_blamed h.going.conserved h.blamed hb,
      poolStep_finished h.going.conserved h.going.kept h.finished hb,
      poolStep_answers h.answers h.workers hcancel hb, ?_, hmanned⟩
    rw [ne_eq, ← List.length_eq_zero_iff, poolStep_workers hb, List.length_eq_zero_iff]
    exact h.workers

/-- The pool is not stopped without a reason. -/
def Reasoned (s : TrackedPool) : Prop := s.ev.stopEvent = true → s.pool.lastError ≠ none

theorem Reasoned.step {a : TrackedAct} (h : Reasoned s) (hstanding : Standing sources chunks s)
    (hread : fate.Readable) (ha : Fated fate s a) (hs : trackedStep sources s a = some t) : Reasoned t := by
  obtain ⟨hbreaks, hno⟩ := ha.breaks hread
  obtain ⟨b, -, hcancel, hb⟩ := trackedStep_unbroken hbreaks hno hs
  intro hstop
  rcases poolStep_gives_up hb with ⟨hev, -⟩ | ⟨-, herror, -⟩ | ⟨-, hbroken⟩
  · rcases poolStep_lastError hstanding.going.conserved hb with hsame | ⟨herror, -⟩
    · rw [hsame]
      exact h (hev ▸ hstop)
    · exact herror
  · exact herror
  · -- a run that still answers is not broken
    have hanswers := poolStep_answers hstanding.answers hstanding.workers hcancel hb
    cases hrun : t.pool.run with
    | waiting =>
      rw [hrun] at hbroken
      cases hbroken
    | leaving result | ended result =>
      rw [hrun] at hanswers hbroken
      cases result with
      | returned => cases hbroken
      | _ => cases hanswers

/-- While `run` waits with the gate open. -/
structure Trying (sources : List String) (chunks : List ℕ) (s : TrackedPool) : Prop where
  standing : Standing sources chunks s
  pause : s.ev.pauseEvent = true
  waiting : s.pool.run = .waiting

theorem Trying.step {a : TrackedAct} (h : Trying sources chunks s) (hread : fate.Readable) (ha : Fated fate s a)
    (hs : trackedStep sources s a = some t) (hwaiting : t.pool.run = .waiting) : Trying sources chunks t := by
  obtain ⟨hbreaks, hno⟩ := ha.breaks hread
  obtain ⟨b, -, -, hb⟩ := trackedStep_unbroken hbreaks hno hs
  exact ⟨h.standing.step hbreaks hs, (poolStep_pauseEvent hb).trans h.pause, hwaiting⟩

theorem pool_act {a : PoolAct} {ev : Events} (hfree : a.tracked = false)
    (hs : poolStep s.ev s.pool a = some (ev, q)) :
    trackedStep sources s (.pool a) = some ⟨ev, q, s.health⟩ := by
  simp only [trackedStep, hfree, Bool.false_eq_true, if_false, TrackedPool.poolMove, hs, Option.map_some]

/-- A step of the pool that the tracker has no say in. -/
theorem Trying.act {a : PoolAct} (h : Trying sources chunks s) (hread : fate.Readable) (hfree : a.tracked = false)
    (ha : Fated fate s (.pool a)) (hs : poolStep s.ev s.pool a = some (s.ev, q)) (hwaiting : q.run = .waiting) :
    Leads (trackedStep sources) (Fated fate) s { s with pool := q } ∧ Trying sources chunks { s with pool := q } :=
  ⟨.single ha (pool_act hfree hs), h.step hread ha (pool_act hfree hs) hwaiting⟩

/-- What the rounds wear down. -/
def trials (p : WorkerPool) : ℕ := p.unfinished + p.owed + p.allowance fun _ => 1

/-- What a round comes to: nothing is left, or less, or the pool is stopped. -/
def Settled (s : TrackedPool) : Prop := s.ev.stopEvent = true ∨ s.pool.unfinished = 0

/-! ## A fetch -/

theorem taskDone_owed {pc e : WorkerPc} (hpc : p.pcOf w = some pc) (howes : pc.owes = true) (he : e.owes = false) :
    (p.move w e).taskDone.owed + 1 = p.owed := by
  have hm := move_owed (e := e) hpc
  rwa [howes, he] at hm

/-- What the worker's fetch being over comes to. -/
def FetchOver (s t : TrackedPool) : Prop :=
  t.ev.stopEvent = true ∨ t.pool.unfinished ≤ s.pool.unfinished ∧ t.pool.owed + 1 = s.pool.owed ∧
    t.pool.allowance (fun _ => 1) ≤ s.pool.allowance fun _ => 1

theorem fetch_returns (h : Trying sources chunks s) (hread : fate.Readable) {item : QueueItem} {x : ℚ}
    (hpc : s.pool.pcOf w = some (.fetching item x)) (hfate : fate s w = none) :
    ∃ t, Leads (trackedStep sources) (Fated fate) s t ∧ Trying sources chunks t ∧ FetchOver s t := by
  have hs : poolStep s.ev s.pool (.fetchReturned w) =
      some (s.ev, ((s.pool.record item.chunkIdx.toNat).move w (loopHead s.ev)).taskDone) := by
    simp only [poolStep, hpc]
  obtain ⟨hleads, htrying⟩ := h.act hread (a := .fetchReturned w) rfl hfate hs h.waiting
  refine ⟨_, hleads, htrying, Or.inr ⟨Nat.sub_le .., ?_, poolStep_allowance _ hs⟩⟩
  exact taskDone_owed (p := s.pool.record item.chunkIdx.toNat) hpc rfl (loopHead_owes s.ev)

theorem fetch_raises (h : Trying sources chunks s) (hread : fate.Readable) (hstop : s.ev.stopEvent = false)
    {item : QueueItem} {x : ℚ} {e : FetchException} (hpc : s.pool.pcOf w = some (.fetching item x))
    (hfate : fate s w = some e) :
    ∃ t, Leads (trackedStep sources) (Fated fate) s t ∧ Trying sources chunks t ∧ FetchOver s t := by
  obtain ⟨y, hy, -⟩ := Option.map_eq_some_iff.mp hpc
  have hsource : s.source w = some y.source := by rw [TrackedPool.source, hy, Option.map_some]
  obtain ⟨health, hrecord⟩ : ∃ health, s.health.recordFailure s.pool.now e.recorded y.source = some health := by
    refine Option.ne_none_iff_exists'.mp fun hnone => ?_
    rw [recordFailure_eq_none, hread s w e hfate] at hnone
    cases hnone
  have ha : Fated fate s (.fetchFailed w e) := hfate
  have hstep : ∀ {ev q}, failItem s.ev s.pool w item e.typeName e.message false = (ev, q) →
      poolStep s.ev s.pool (.fetchFailed w e.typeName e.message false) = some (ev, q) ∧
        trackedStep sources s (.fetchFailed w e) = some ⟨ev, q, health⟩ := by
    intro ev q hitem
    have hb : poolStep s.ev s.pool (.fetchFailed w e.typeName e.message false) = some (ev, q) := by
      simp only [poolStep, hpc, hitem]
    exact ⟨hb, by simp only [trackedStep, hsource, hrecord, TrackedPool.poolMove, hb, Option.map_some]⟩
  by_cases hfew : item.retries < 5
  · -- the chunk goes back to the queue, with one attempt less
    obtain ⟨hb, hs⟩ := hstep (by
      simp only [failItem, Bool.false_eq_true, if_false, hstop, if_pos hfew]
      rfl)
    refine ⟨_, .single ha hs, h.step hread ha hs h.waiting, Or.inr ⟨Nat.le_refl _, ?_, poolStep_allowance _ hb⟩⟩
    exact taskDone_owed (p := WorkerPool.put _ _) hpc rfl (loopHead_owes s.ev)
  · obtain ⟨-, hs⟩ := hstep (by
      simp only [failItem, Bool.false_eq_true, if_false, hstop, if_neg hfew]
      rfl)
    exact ⟨_, .single ha hs, h.step hread ha hs h.waiting, Or.inl rfl⟩

/-- The worker is out of its fetch, or has stopped the pool. -/
theorem fetch_comes (h : Trying sources chunks s) (hread : fate.Readable) (hstop : s.ev.stopEvent = false)
    {item : QueueItem} {x : ℚ} (hpc : s.pool.pcOf w = some (.fetching item x)) :
    ∃ t, Leads (trackedStep sources) (Fated fate) s t ∧ Trying sources chunks t ∧ FetchOver s t := by
  cases hfate : fate s w with
  | none => exact fetch_returns h hread hpc hfate
  | some e => exact fetch_raises h hread hstop hpc hfate

/-! ## A worker on its way to the queue -/

/-- The pool with worker `w` waiting at the queue. -/
def atQueue (s : TrackedPool) (w : ℕ) : TrackedPool := { s with pool := s.pool.move w .getting }

theorem passes_gate (h : Trying sources chunks s) (hread : fate.Readable)
    (hpc : s.pool.pcOf w = some (.pausing true)) :
    Leads (trackedStep sources) (Fated fate) s (atQueue s w) ∧ Trying sources chunks (atQueue s w) := by
  refine h.act hread (a := .passGate w) rfl rfl ?_ h.waiting
  simp only [poolStep, hpc]

theorem opens_gate (h : Trying sources chunks s) (hread : fate.Readable)
    (hpc : s.pool.pcOf w = some (.pausing false)) :
    Leads (trackedStep sources) (Fated fate) s (atQueue s w) ∧ Trying sources chunks (atQueue s w) := by
  have hs : poolStep s.ev s.pool (.openGate w) = some (s.ev, s.pool.move w (.pausing true)) := by
    simp only [poolStep, hpc, h.pause, if_true]
  obtain ⟨hleads, htrying⟩ := h.act hread (a := .openGate w) rfl rfl hs h.waiting
  obtain ⟨hnext, hend⟩ := passes_gate htrying hread (move_pcOf_self hpc _)
  simp only [atQueue, move_move] at hnext hend
  exact ⟨hleads.trans hnext, hend⟩

theorem wakes (h : Trying sources chunks s) (hread : fate.Readable) (hstop : s.ev.stopEvent = false)
    (hpc : s.pool.pcOf w = some .startup) :
    Leads (trackedStep sources) (Fated fate) s (atQueue s w) ∧ Trying sources chunks (atQueue s w) := by
  have hs : poolStep s.ev s.pool (.wake w false) = some (s.ev, s.pool.move w (.pausing false)) := by
    simp only [poolStep, hpc, loopHead_running hstop, Bool.false_eq_true, if_false]
  obtain ⟨hleads, htrying⟩ := h.act hread (a := .wake w false) rfl rfl hs h.waiting
  obtain ⟨hnext, hend⟩ := opens_gate htrying hread (move_pcOf_self hpc _)
  simp only [atQueue, move_move] at hnext hend
  exact ⟨hleads.trans hnext, hend⟩

/-- A worker that owes nothing comes to the queue. -/
theorem comes_to_queue (h : Trying sources chunks s) (hread : fate.Readable) (hstop : s.ev.stopEvent = false)
    {pc : WorkerPc} (hpc : s.pool.pcOf w = some pc) (hfree : pc.owes = false) :
    Leads (trackedStep sources) (Fated fate) s (atQueue s w) ∧ Trying sources chunks (atQueue s w) := by
  cases pc with
  | startup => exact wakes h hread hstop hpc
  | pausing woken =>
    cases woken with
    | false => exact opens_gate h hread hpc
    | true => exact passes_gate h hread hpc
  | getting =>
    have hsame : atQueue s w = s := by rw [atQueue, move_self hpc]
    rw [hsame]
    exact ⟨.refl s, h⟩
  | exited =>
    obtain ⟨x, hx, hexited⟩ := pcOf_mem hpc
    exact absurd hexited (h.standing.going.manned hstop h.waiting x hx)
  | backoff | fetching => cases hfree

theorem atQueue_trials {pc : WorkerPc} (hpc : s.pool.pcOf w = some pc) (hfree : pc.owes = false) :
    trials (atQueue s w).pool ≤ trials s.pool := by
  have howed := move_owed (e := .getting) hpc
  have hhands := handsWorth_le (fun _ => 1) (e := .getting) hpc rfl
  rw [hfree] at howed
  unfold trials WorkerPool.allowance
  dsimp only [atQueue, WorkerPool.move, Bool.toNat, WorkerPc.owes, cond_false] at howed hhands ⊢
  omega

/-! ## The entry at the head of the queue -/

/-- The clock goes on to `time`. -/
theorem clock_goes (h : Trying sources chunks s) (hread : fate.Readable) {time : ℚ} (hle : s.pool.now ≤ time) :
    Leads (trackedStep sources) (Fated fate) s { s with pool := { s.pool with now := time } } ∧
      Trying sources chunks { s with pool := { s.pool with now := time } } := by
  refine h.act hread (a := .tick (time - s.pool.now)) rfl rfl ?_ h.waiting
  rw [poolStep, if_pos (sub_nonneg.mpr hle), add_sub_cancel]

/-- The worker at the queue takes a chunk that is due, if its mirror is not banned. -/
theorem takes_entry (h : Trying sources chunks s) (hread : fate.Readable) {m : String} {item : QueueItem}
    {rest : List QueueItem} (hpc : s.pool.pcOf w = some .getting) (hqueue : s.pool.queue = item :: rest)
    (hdue : item.retryTime ≤ s.pool.now) (hsource : s.source w = some m) (hbanned : s.isBanned m = false) :
    ∃ t x, Leads (trackedStep sources) (Fated fate) s t ∧ Trying sources chunks t ∧ t.ev = s.ev ∧
      t.pool.pcOf w = some (.fetching item x) ∧ t.pool.unfinished = s.pool.unfinished ∧
      t.pool.owed = s.pool.owed + 1 ∧
      t.pool.allowance (fun _ => 1) + 1 ≤ s.pool.allowance fun _ => 1 := by
  have hchunk : item.chunkIdx ≠ stopSentinel :=
    h.standing.going.order.going h.waiting item (by rw [hqueue]; exact List.mem_cons_self ..)
  let q := ({ s.pool with queue := rest } : WorkerPool).move w (.fetching item s.pool.now)
  have hb : poolStep s.ev s.pool (.get w (s.isBanned m) (sources.all s.isBanned)) = some (s.ev, q) := by
    simp only [poolStep, hpc, hqueue, takeItem, if_neg hchunk, if_neg (not_lt.mpr hdue), hbanned,
      Bool.false_eq_true, if_false, q]
  have hs : trackedStep sources s (.get w) = some ⟨s.ev, q, s.health⟩ := by
    simp only [trackedStep, hsource, TrackedPool.poolMove, hb, Option.map_some]
  have hfetching : q.pcOf w = some (.fetching item s.pool.now) :=
    move_pcOf_self (p := { s.pool with queue := rest }) hpc _
  have hspends : fetchStarts (fun _ => 1) s.ev s.pool (.get w (s.isBanned m) (sources.all s.isBanned)) +
      q.allowance (fun _ => 1) ≤ s.pool.allowance fun _ => 1 :=
    fetchStarts_spends h.standing.going.conserved hb
  rw [fetchStarts, hb] at hspends
  simp only [hfetching] at hspends
  have howed := move_owed (p := { s.pool with queue := rest }) (e := .fetching item s.pool.now) hpc
  refine ⟨_, s.pool.now, .single (a := .get w) trivial hs, h.step hread (a := .get w) trivial hs h.waiting, rfl,
    hfetching, rfl, howed, ?_⟩
  rw [Nat.add_comm]
  exact hspends

/-- Where every mirror is banned it stops the pool. -/
theorem finds_all_banned (h : Trying sources chunks s) (hread : fate.Readable) {m : String} {item : QueueItem}
    {rest : List QueueItem} (hpc : s.pool.pcOf w = some .getting) (hqueue : s.pool.queue = item :: rest)
    (hdue : item.retryTime ≤ s.pool.now) (hsource : s.source w = some m) (hbanned : s.isBanned m = true)
    (hall : sources.all s.isBanned = true) :
    ∃ t, Leads (trackedStep sources) (Fated fate) s t ∧ Trying sources chunks t ∧ t.ev.stopEvent = true := by
  have hchunk : item.chunkIdx ≠ stopSentinel :=
    h.standing.going.order.going h.waiting item (by rw [hqueue]; exact List.mem_cons_self ..)
  let q := (({ s.pool with queue := rest, lastError := some .allBanned } : WorkerPool).move w .exited).taskDone
  have hb : poolStep s.ev s.pool (.get w (s.isBanned m) (sources.all s.isBanned)) = some (s.ev.stopBoth, q) := by
    simp only [poolStep, hpc, hqueue, takeItem, if_neg hchunk, if_neg (not_lt.mpr hdue), hbanned, hall, if_true, q]
  have hs : trackedStep sources s (.get w) = some ⟨s.ev.stopBoth, q, s.health⟩ := by
    simp only [trackedStep, hsource, TrackedPool.poolMove, hb, Option.map_some]
  exact ⟨_, .single (a := .get w) trivial hs, h.step hread (a := .get w) trivial hs h.waiting, rfl⟩

/-! ## A round -/

theorem atQueue_source (s : TrackedPool) (w : ℕ) : (atQueue s w).source w = s.source w := by
  simp only [TrackedPool.source, atQueue, WorkerPool.move, List.getElem?_modify, if_true]
  cases s.pool.workers[w]? <;> rfl

/-- A worker that owes the queue a `task_done` pays. -/
theorem pays_round (h : Trying sources chunks s) (hread : fate.Readable) (hstop : s.ev.stopEvent = false)
    (howed : s.pool.owed ≠ 0) :
    ∃ t, Leads (trackedStep sources) (Fated fate) s t ∧ Trying sources chunks t ∧ FetchOver s t := by
  obtain ⟨x, hx, howes⟩ := List.countP_pos_iff.mp (Nat.pos_of_ne_zero howed)
  obtain ⟨w, hw⟩ := List.mem_iff_getElem?.mp hx
  have hpc : s.pool.pcOf w = some x.pc := by
    rw [WorkerPool.pcOf, hw]
    rfl
  cases hcase : x.pc with
  | fetching item y => exact fetch_comes h hread hstop (hpc.trans (congrArg some hcase))
  | backoff =>
    rw [hcase] at hpc
    have hs : poolStep s.ev s.pool (.slept w) = some (s.ev, (s.pool.move w (loopHead s.ev)).taskDone) := by
      simp only [poolStep, hpc]
    obtain ⟨hleads, htrying⟩ := h.act hread (a := .slept w) rfl rfl hs h.waiting
    exact ⟨_, hleads, htrying,
      Or.inr ⟨Nat.sub_le .., taskDone_owed hpc rfl (loopHead_owes s.ev), poolStep_allowance _ hs⟩⟩
  | _ =>
    rw [hcase] at howes
    cases howes

/-- A mirror whose ban ends, or was never banned. -/
def EndsAt (s : TrackedPool) (m : String) (time : ℚ) : Prop :=
  (s.health.banned.lookup m).getD (.finite 0) = .finite time

theorem EndsAt.free {m : String} {time : ℚ} (h : EndsAt s m time) (hle : time ≤ s.pool.now) :
    s.isBanned m = false := by
  rw [TrackedPool.isBanned, MirrorHealthTracker.isBanned, h]
  exact decide_eq_false (not_lt.mpr hle)

theorem banned_for_good {m : String} (h : ∀ time, ¬ EndsAt s m time) : s.isBanned m = true := by
  rw [TrackedPool.isBanned, MirrorHealthTracker.isBanned]
  cases hend : (s.health.banned.lookup m).getD (.finite 0) with
  | finite time => exact absurd hend (h time)
  | infinite => rfl

/-- The worker of mirror `m` waits at the queue, not before `time`, and the first entry is due. -/
structure Arrived (sources : List String) (chunks : List ℕ) (s : TrackedPool) (item : QueueItem) (m : String)
    (time : ℚ) (w : ℕ) (u : TrackedPool) : Prop where
  trying : Trying sources chunks u
  source : u.source w = some m
  here : u.pool.pcOf w = some .getting
  queue : ∃ rest, u.pool.queue = item :: rest
  due : item.retryTime ≤ u.pool.now
  late : time ≤ u.pool.now
  ev : u.ev = s.ev
  health : u.health = s.health
  free : u.pool.owed = 0
  less : trials u.pool ≤ trials s.pool

theorem arrives (h : Trying sources chunks s) (hread : fate.Readable) (hstop : s.ev.stopEvent = false)
    {item : QueueItem} {rest : List QueueItem} (hqueue : s.pool.queue = item :: rest) (howed : s.pool.owed = 0)
    {m : String} (hm : m ∈ sources) (time : ℚ) :
    ∃ w u, Leads (trackedStep sources) (Fated fate) s u ∧ Arrived sources chunks s item m time w u := by
  obtain ⟨w, hw⟩ := h.standing.manned m hm
  obtain ⟨x, hx, -⟩ := Option.map_eq_some_iff.mp hw
  have hpc : s.pool.pcOf w = some x.pc := by
    rw [WorkerPool.pcOf, hx]
    rfl
  have hfree : x.pc.owes = false :=
    Bool.eq_false_of_not_eq_true (List.countP_eq_zero.mp howed x (List.mem_of_getElem? hx))
  have hmoved := move_owed (e := .getting) hpc
  rw [hfree, howed] at hmoved
  obtain ⟨hleads, htrying⟩ := comes_to_queue h hread hstop hpc hfree
  -- the clock goes on until the entry is due, and to `time`
  obtain ⟨hclock, htrying'⟩ := clock_goes htrying hread (le_max_left s.pool.now (max item.retryTime time))
  exact ⟨w, _, hleads.trans hclock,
    { trying := htrying'
      source := (atQueue_source s w).trans hw
      here := move_pcOf_self hpc _
      queue := ⟨rest, hqueue⟩
      due := (le_max_left ..).trans (le_max_right ..)
      late := (le_max_right ..).trans (le_max_right ..)
      ev := rfl
      health := rfl
      free := hmoved
      less := atQueue_trials hpc hfree }⟩

/-- It takes the entry and fetches the chunk, if its mirror's ban has ended. -/
theorem Arrived.fetches {item : QueueItem} {m : String} {time : ℚ} {u : TrackedPool}
    (h : Arrived sources chunks s item m time w u) (hread : fate.Readable) (hstop : s.ev.stopEvent = false)
    (hend : EndsAt s m time) :
    ∃ t, Leads (trackedStep sources) (Fated fate) u t ∧ Trying sources chunks t ∧
      (t.ev.stopEvent = true ∨ trials t.pool < trials s.pool) := by
  obtain ⟨rest, hqueue⟩ := h.queue
  have hend' : EndsAt u m time := by rwa [EndsAt, h.health]
  obtain ⟨v, x, hv, htrying, hev, hfetching, hunfinished, howed, hallowance⟩ :=
    takes_entry h.trying hread h.here hqueue h.due h.source (hend'.free h.late)
  obtain ⟨t, ht, hdone, hover⟩ := fetch_comes htrying hread (by rw [hev, h.ev, hstop]) hfetching
  refine ⟨t, hv.trans ht, hdone, hover.imp_right fun hpaid => ?_⟩
  obtain ⟨hfewer, hone, hleft⟩ := hpaid
  have hzero := h.free
  have hless := h.less
  unfold trials at hless ⊢
  omega

/-- When nobody owes anything, a worker takes the first chunk and fetches it, or finds every mirror banned. -/
theorem fetches_round (h : Trying sources chunks s) (hread : fate.Readable) (hsources : sources ≠ [])
    (hstop : s.ev.stopEvent = false) (hpos : s.pool.unfinished ≠ 0) (howed : s.pool.owed = 0) :
    ∃ t, Leads (trackedStep sources) (Fated fate) s t ∧ Trying sources chunks t ∧
      (t.ev.stopEvent = true ∨ trials t.pool < trials s.pool) := by
  have hqueue : s.pool.queue ≠ [] := by
    intro hnil
    have hbalance := h.standing.going.conserved.balance
    rw [hnil, howed] at hbalance
    exact hpos hbalance
  obtain ⟨item, rest, hitem⟩ := List.exists_cons_of_ne_nil hqueue
  by_cases hends : ∃ m ∈ sources, ∃ time, EndsAt s m time
  · obtain ⟨m, hm, time, hend⟩ := hends
    obtain ⟨w, u, hu, harrived⟩ := arrives h hread hstop hitem howed hm time
    obtain ⟨t, ht, hdone, hover⟩ := harrived.fetches hread hstop hend
    exact ⟨t, hu.trans ht, hdone, hover⟩
  · -- no ban ends: whoever asks stops the pool
    obtain ⟨m, hm⟩ := List.exists_mem_of_ne_nil sources hsources
    obtain ⟨w, u, hu, harrived⟩ := arrives h hread hstop hitem howed hm 0
    obtain ⟨rest', hhead⟩ := harrived.queue
    have hgood : ∀ n ∈ sources, u.isBanned n = true := by
      intro n hn
      refine banned_for_good fun time hend => hends ⟨n, hn, time, ?_⟩
      rwa [EndsAt, harrived.health] at hend
    obtain ⟨t, ht, hdone, hset⟩ := finds_all_banned harrived.trying hread harrived.here hhead harrived.due
      harrived.source (hgood m hm) (List.all_eq_true.mpr hgood)
    exact ⟨t, hu.trans ht, hdone, Or.inl hset⟩

theorem round_ends (h : Trying sources chunks s) (hread : fate.Readable) (hsources : sources ≠ [])
    (hopen : ¬ Settled s) :
    ∃ t, Leads (trackedStep sources) (Fated fate) s t ∧ Trying sources chunks t ∧
      (Settled t ∨ trials t.pool < trials s.pool) := by
  have hstop : s.ev.stopEvent = false := Bool.eq_false_of_not_eq_true fun hset => hopen (Or.inl hset)
  by_cases howed : s.pool.owed = 0
  · obtain ⟨t, ht, htrying, hover⟩ :=
      fetches_round h hread hsources hstop (fun hzero => hopen (Or.inr hzero)) howed
    exact ⟨t, ht, htrying, hover.imp_left Or.inl⟩
  · obtain ⟨t, ht, htrying, hover⟩ := pays_round h hread hstop howed
    refine ⟨t, ht, htrying, hover.imp Or.inl fun hpaid => ?_⟩
    obtain ⟨hfewer, hone, hleft⟩ := hpaid
    unfold trials
    omega

/-! ## The end of `run` -/

/-- `run` is on its way out, and gets there. -/
theorem run_leaves {result : RunResult} (hrun : s.pool.run = .leaving result) :
    ∃ t, Leads (trackedStep sources) (Fated fate) s t ∧ t.pool.run = .ended result := by
  have hs : trackedStep sources s (.pool .runEnds) =
      some { s with pool := { s.pool with run := .ended result } } := by
    refine pool_act rfl ?_
    simp only [poolStep, hrun]
  exact ⟨_, .single (a := .pool .runEnds) rfl hs, rfl⟩

/-- `run` is woken, and goes to its end. -/
theorem run_wakes (joinDone : Bool) (hworkers : s.pool.workers ≠ []) (hwaiting : s.pool.run = .waiting)
    (hwoken : if joinDone then s.pool.joined = true else s.ev.stopEvent = true) :
    ∃ t b, Leads (trackedStep sources) (Fated fate) s t ∧ t.pool.run = .ended (.returned b) := by
  let b := joinDone && !s.ev.stopEvent
  let u : TrackedPool := { s with pool := s.pool.leave (.returned b) }
  have hs : trackedStep sources s (.pool (.runWakes joinDone)) = some u := by
    refine pool_act rfl ?_
    rw [poolStep, if_pos ⟨hwaiting, hwoken⟩]
  have hleaving : u.pool.run = .leaving (.returned b) := leave_run hworkers _
  obtain ⟨t, ht, hend⟩ : ∃ t, Leads (trackedStep sources) (Fated fate) u t ∧ t.pool.run = .ended (.returned b) :=
    run_leaves hleaving
  exact ⟨t, b, .head (a := .pool (.runWakes joinDone)) rfl hs ht, hend⟩

theorem settled_ends (h : Trying sources chunks s) (hsettled : Settled s) :
    ∃ t b, Leads (trackedStep sources) (Fated fate) s t ∧ t.pool.run = .ended (.returned b) := by
  rcases hsettled with hstop | hzero
  · exact run_wakes false h.standing.workers h.waiting hstop
  · let u : TrackedPool := { s with pool := { s.pool with joined := true } }
    have hs : trackedStep sources s (.pool .joinReturns) = some u := by
      refine pool_act rfl ?_
      rw [poolStep, if_pos ⟨hzero, h.waiting⟩]
    obtain ⟨t, b, ht, hend⟩ : ∃ t b, Leads (trackedStep sources) (Fated fate) u t ∧
        t.pool.run = .ended (.returned b) := run_wakes true h.standing.workers h.waiting rfl
    exact ⟨t, b, .head (a := .pool .joinReturns) rfl hs ht, hend⟩

theorem run_ends (h : Standing sources chunks s) (hread : fate.Readable) (hsources : sources ≠ [])
    (hpause : s.ev.pauseEvent = true) :
    ∃ t b, Leads (trackedStep sources) (Fated fate) s t ∧ t.pool.run = .ended (.returned b) := by
  have hanswers := h.answers
  cases hrun : s.pool.run with
  | waiting =>
    obtain ⟨u, hu, htrying, hsettled⟩ := leads_of_rounds (trackedStep sources) (P := Trying sources chunks)
      (Q := Settled) (fun u => trials u.pool) (fun _ h hopen => round_ends h hread hsources hopen) ⟨h, hpause, hrun⟩
    obtain ⟨t, b, ht, hend⟩ := settled_ends htrying hsettled
    exact ⟨t, b, hu.trans ht, hend⟩
  | leaving result =>
    rw [hrun] at hanswers
    cases result with
    | returned b =>
      obtain ⟨t, ht, hend⟩ := run_leaves hrun
      exact ⟨t, b, ht, hend⟩
    | _ => cases hanswers
  | ended result =>
    rw [hrun] at hanswers
    cases result with
    | returned b => exact ⟨s, b, .refl s, hrun⟩
    | _ => cases hanswers

/-! ## Every run -/

theorem standing_of_run {ev : Events} {health : MirrorHealthTracker} {threadsPerSource : ℕ} {completed : List ℕ}
    {acts : List TrackedAct} (hsources : sources ≠ []) (hthreads : 0 < threadsPerSource) (hnodup : chunks.Nodup)
    (hdisjoint : ∀ i ∈ chunks, i ∉ completed) (hbreaks : ∀ a ∈ acts, a.breaks = false)
    (hrun : exec (trackedStep sources) (.init ev health sources threadsPerSource (chunks.map fun i => (0, i, 0))
      completed) acts = some s) : Standing sources chunks s := by
  have hpool : (TrackedPool.init ev health sources threadsPerSource (chunks.map fun i => (0, i, 0)) completed).pool =
      WorkerPool.init sources threadsPerSource chunks completed := by
    simp only [TrackedPool.init, WorkerPool.init, List.map_map, List.length_map]
    rfl
  refine exec_guarded (P := Standing sources chunks) (fun _ _ _ h hbreaks hs => h.step hbreaks hs) ?_
    (Guarded.of_mem (fun _ => hbreaks) _) hrun
  refine ⟨?_, ?_, ?_, ?_, ?_, fun m hm => ?_⟩
  · rw [hpool]
    exact .init ev sources threadsPerSource hnodup hdisjoint
  · rw [hpool]
    exact .init ev sources threadsPerSource chunks completed
  · rw [hpool]
    exact fun hsucceeds => (by cases hsucceeds)
  · rfl
  · rw [hpool]
    exact init_workers hsources hthreads
  · have hworker : (⟨m, .startup⟩ : Worker) ∈
        (WorkerPool.init sources threadsPerSource chunks completed).workers :=
      List.mem_flatMap.mpr ⟨m, hm, List.mem_replicate.mpr ⟨Nat.pos_iff_ne_zero.mp hthreads, rfl⟩⟩
    rw [← hpool] at hworker
    obtain ⟨w, hw⟩ := List.mem_iff_getElem?.mp hworker
    exact ⟨w, by rw [TrackedPool.source, hw]; rfl⟩

/-- Wherever a run stands in which no exception ended a worker, and whatever the fetches come to from now on:
with the gate open, `run` can come to its answer. `True` means that every chunk is completed, and `False` comes
with an error, unless the pool was stopped before. -/
theorem run_can_end {ev : Events} {health : MirrorHealthTracker} {threadsPerSource : ℕ} {completed : List ℕ}
    {acts : List TrackedAct} (fate : Fate) (hsources : sources ≠ []) (hthreads : 0 < threadsPerSource)
    (hnodup : chunks.Nodup) (hdisjoint : ∀ i ∈ chunks, i ∉ completed) (hbreaks : ∀ a ∈ acts, a.breaks = false)
    (hrun : exec (trackedStep sources) (.init ev health sources threadsPerSource (chunks.map fun i => (0, i, 0))
      completed) acts = some s)
    (hpause : s.ev.pauseEvent = true) (hread : fate.Readable) :
    ∃ t b, Leads (trackedStep sources) (Fated fate) s t ∧ t.pool.run = .ended (.returned b) ∧
      (b = true → ∀ i ∈ chunks, i ∈ t.pool.completed) ∧
      (b = false → s.ev.stopEvent = false → t.pool.lastError ≠ none) := by
  have h := standing_of_run hsources hthreads hnodup hdisjoint hbreaks hrun
  obtain ⟨t, b, ht, hend⟩ := run_ends h hread hsources hpause
  have hkept : Standing sources chunks t :=
    ht.keeps h fun _ _ _ h ha hs => h.step (ha.breaks hread).1 hs
  refine ⟨t, b, ht, hend, fun htrue => hkept.finished ?_, fun hfalse hstop => ?_⟩
  · rw [hend, htrue]
    rfl
  · have hreasoned : Standing sources chunks t ∧ Reasoned t :=
      ht.keeps (P := fun t => Standing sources chunks t ∧ Reasoned t)
        ⟨h, fun hset => absurd hset (by rw [hstop]; exact Bool.false_ne_true)⟩
        fun _ _ _ h ha hs => ⟨h.1.step (ha.breaks hread).1 hs, h.2.step h.1 hread ha hs⟩
    refine hreasoned.2 (hkept.blamed.halted ?_)
    rw [hend, hfalse]
    rfl

end

/-- Every fetch raises. -/
def alwaysFails : Fate := fun _ _ => some (.fetchError none "HTTP 503")

/-- The first mirror has answered 429, and its chunk waits in the queue while the second is asked for the other. -/
def firstFails : List TrackedAct :=
  [.pool (.wake 0 false), .pool (.wake 1 false), .pool (.openGate 0), .pool (.passGate 0), .get 0,
    .fetchFailed 0 (.fetchError (some (.clientResponse 429 (some "7"))) "429"), .pool (.openGate 1),
    .pool (.passGate 1), .get 1]

theorem run_can_end_firstFails : ∃ s t b,
    exec (trackedStep ["a", "b"]) (.init {} {} ["a", "b"] 1 ([0, 1].map fun i => (0, i, 0)) []) firstFails = some s ∧
      s.health.banned = [("a", .finite 7)] ∧ Leads (trackedStep ["a", "b"]) (Fated alwaysFails) s t ∧
      t.pool.run = .ended (.returned b) ∧ (b = false → t.pool.lastError ≠ none) := by
  obtain ⟨s, hrun, hpause, hstop, hbanned⟩ :
      ∃ s, exec (trackedStep ["a", "b"]) (.init {} {} ["a", "b"] 1 ([0, 1].map fun i => (0, i, 0)) []) firstFails =
        some s ∧ s.ev.pauseEvent = true ∧ s.ev.stopEvent = false ∧ s.health.banned = [("a", .finite 7)] :=
    ⟨(exec (trackedStep ["a", "b"]) (.init {} {} ["a", "b"] 1 ([0, 1].map fun i => (0, i, 0)) []) firstFails).get
      (by decide +kernel), (Option.some_get _).symm, by decide +kernel, by decide +kernel, by decide +kernel⟩
  have hread : alwaysFails.Readable := by
    rintro _ _ _ ⟨⟩
    rfl
  obtain ⟨t, b, ht, hend, -, herror⟩ := run_can_end alwaysFails (by decide) (by decide) (by decide) (by decide)
    (by decide +kernel) hrun hpause hread
  exact ⟨s, t, b, hrun, hbanned, ht, hend, fun hfalse => herror hfalse hstop⟩

end Mrdl.Workers
