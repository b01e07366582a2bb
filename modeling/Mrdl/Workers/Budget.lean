import Mrdl.Workers.Tracked

/-! # What makes the pool stop

The pool sets the stop event for two reasons: a chunk has used up its retries, or a worker finds every mirror
banned. A failure bans its mirror for longer than the chunk's backoff, so that with few mirrors the second
comes before the first.
-/

namespace Mrdl.Workers
open Runs
set_option autoImplicit false

section
variable {p q : WorkerPool} {ev ev' : Events}

/-- How an action of the pool can set the stop event. -/
inductive Stops (p q : WorkerPool) : PoolAct → Prop
  | allBanned (w : ℕ) (item : QueueItem) (rest : List QueueItem) (here : p.pcOf w = some .getting)
      (head : p.queue = item :: rest) (chunk : item.chunkIdx ≠ stopSentinel) (due : item.retryTime ≤ p.now) :
      Stops p q (.get w true true)
  | gaveUp (w : ℕ) (item : QueueItem) (t : ℚ) (typeName message : String)
      (here : p.pcOf w = some (.fetching item t)) (spent : 5 ≤ item.retries)
      (failures : q.failures = p.failures ++ [item.chunkIdx.toNat]) :
      Stops p q (.fetchFailed w typeName message false)
  | cancelled : Stops p q .runCancelled

theorem poolStep_stops {a : PoolAct} (hs : poolStep ev p a = some (ev', q)) (hbefore : ev.stopEvent = false)
    (hafter : ev'.stopEvent = true) : Stops p q a := by
  have hsame : ev' ≠ ev := by
    rintro rfl
    rw [hbefore] at hafter
    cases hafter
  cases poolStep_moves hs with
  | allBanned w item rest banned allBanned here head =>
    simp only [poolStep, here, head, Option.some.injEq] at hs
    unfold takeItem at hs
    by_cases hchunk : item.chunkIdx = stopSentinel
    · rw [if_pos hchunk] at hs
      exact absurd (congrArg Prod.fst hs).symm hsame
    rw [if_neg hchunk] at hs
    by_cases hdue : p.now < item.retryTime
    · rw [if_pos hdue] at hs
      exact absurd (congrArg Prod.fst hs).symm hsame
    rw [if_neg hdue] at hs
    cases banned with
    | false => exact absurd (congrArg Prod.fst hs).symm hsame
    | true =>
      cases allBanned with
      | false => exact absurd (congrArg Prod.fst hs).symm hsame
      | true => exact .allBanned w item rest here head hchunk (not_lt.mp hdue)
  | gaveUp w item t typeName message here =>
    simp only [poolStep, here, Option.some.injEq] at hs
    simp only [failItem, hbefore, Bool.false_eq_true, if_false] at hs
    by_cases hfew : item.retries < 5
    · rw [if_pos hfew] at hs
      exact absurd (congrArg Prod.fst hs).symm hsame
    · exact .gaveUp w item t typeName message here (Nat.not_lt.mp hfew) rfl
  | stopped => exact .cancelled
  | _ => exact absurd rfl hsame

/-! ## Retries are failures -/

/-- An entry was retried no more often than its chunk has failed. -/
def Counted (p : WorkerPool) : Prop := ∀ item ∈ p.tokens, item.retries ≤ p.failures.count item.chunkIdx.toNat

theorem Change.counted {lossy : Bool} (h : Change lossy ev p q) (hp : Counted p) : Counted q := by
  intro y hy
  cases h with
  | same ht hc hf =>
    rw [hf]
    exact hp y (ht.subset hy)
  | sentinels n ht hc hf =>
    rw [hf]
    rcases List.mem_append.mp (ht.subset hy) with hs | hold
    · rw [List.eq_of_mem_replicate hs]
      exact Nat.zero_le _
    · exact hp y hold
  | dropped item ht hc hf hwhy =>
    have hold := hp y (ht.symm.subset (List.mem_cons_of_mem _ hy))
    rcases hf with hf | ⟨-, hf⟩
    · rwa [hf]
    · rw [hf, List.count_append]
      omega
  | retried item retryTime rest hb ha hc hf hfew hchunk =>
    rw [hf, List.count_append]
    rcases List.mem_cons.mp (ha.subset hy) with rfl | hrest
    · have hold := hp item (hb.symm.subset List.mem_cons_self)
      simp only [List.count_singleton_self]
      omega
    · have hold := hp y (hb.symm.subset (List.mem_cons_of_mem _ hrest))
      omega
  | finished item ht hc hf hchunk =>
    rw [hf]
    exact hp y (ht.symm.subset (List.mem_cons_of_mem _ hy))

theorem Change.failures_mono {lossy : Bool} (h : Change lossy ev p q) (i : ℕ) :
    p.failures.count i ≤ q.failures.count i := by
  cases h with
  | same ht hc hf | sentinels n ht hc hf | finished item ht hc hf hchunk => rw [hf]
  | dropped item ht hc hf hwhy =>
    rcases hf with hf | ⟨-, hf⟩
    · rw [hf]
    · rw [hf, List.count_append]
      exact Nat.le_add_right _ _
  | retried item retryTime rest hb ha hc hf hfew hchunk =>
    rw [hf, List.count_append]
    exact Nat.le_add_right _ _

end

/-! ## The budget -/

/-- Nobody but the pool sets the stop event. -/
def NoOutsideStop (s : TrackedPool) : TrackedAct → Prop
  | .pool a => a ≠ .runCancelled
  | .events ev => ev.stopEvent = true → s.ev.stopEvent = true
  | _ => True

/-- A worker of a banned mirror that takes a due chunk leaves it to another mirror that is not banned. -/
def MirrorLeft (sources : List String) (s : TrackedPool) : TrackedAct → Prop
  | .get w => ∀ source ∈ s.source w, ∀ item ∈ s.pool.queue.head?,
      item.chunkIdx ≠ stopSentinel → item.retryTime ≤ s.pool.now → s.isBanned source = true →
        ∃ m ∈ sources, s.isBanned m = false
  | _ => True

instance (s : TrackedPool) (a : TrackedAct) : Decidable (NoOutsideStop s a) := by
  cases a <;> unfold NoOutsideStop <;> infer_instance

instance (sources : List String) (s : TrackedPool) (a : TrackedAct) : Decidable (MirrorLeft sources s a) := by
  cases a <;> unfold MirrorLeft <;> infer_instance

structure Budgeted (ev : Events) (p : WorkerPool) : Prop where
  ledger : Ledger ev p
  counted : Counted p
  spent : ev.stopEvent = true → ∃ i, 6 ≤ p.failures.count i

section
variable {sources : List String} {s t : TrackedPool} {a : TrackedAct}

theorem poolStep_budgeted {b : PoolAct} {ev' : Events} {q : WorkerPool} (h : Budgeted s.ev s.pool)
    (hb : poolStep s.ev s.pool b = some (ev', q))
    (hwhy : Stops s.pool q b → ∃ i, 6 ≤ q.failures.count i) : Budgeted ev' q := by
  have hchange := poolStep_change h.ledger hb
  refine ⟨poolStep_ledger h.ledger hb, hchange.counted h.counted, fun hstop => ?_⟩
  cases hbefore : s.ev.stopEvent with
  | true =>
    obtain ⟨i, hi⟩ := h.spent hbefore
    exact ⟨i, hi.trans (hchange.failures_mono i)⟩
  | false => exact hwhy (poolStep_stops hb hbefore hstop)

theorem trackedStep_budgeted (h : Budgeted s.ev s.pool) (hinside : NoOutsideStop s a)
    (hleft : MirrorLeft sources s a) (hs : trackedStep sources s a = some t) : Budgeted t.ev t.pool := by
  cases trackedStep_moves hs with
  | pool a free step health =>
    refine poolStep_budgeted h step fun hstops => ?_
    cases hstops with
    | allBanned | gaveUp => cases free
    | cancelled => exact absurd rfl hinside
  | get w source here step health =>
    refine poolStep_budgeted h step fun hstops => ?_
    generalize hbanned : s.isBanned source = banned at hstops
    generalize hall : sources.all s.isBanned = allBanned at hstops
    cases hstops with
    | allBanned w item rest here' head chunk due =>
      -- excluded: some mirror is not banned
      obtain ⟨m, hm, hactive⟩ := hleft source here item (by rw [head]; rfl) chunk due hbanned
      rw [List.all_eq_true.mp hall m hm] at hactive
      cases hactive
  | failed w e source here record step =>
    refine poolStep_budgeted h step fun hstops => ?_
    generalize e.typeName = typeName at hstops
    generalize e.message = message at hstops
    cases hstops with
    | gaveUp w item t typeName message here' spent failures =>
      have hcount := h.counted item (mem_tokens_of_item here' rfl)
      refine ⟨item.chunkIdx.toNat, ?_⟩
      rw [failures, List.count_append, List.count_singleton_self]
      omega
  | unreadable w e header step health =>
    exact poolStep_budgeted h step fun hstops => by cases hstops
  | events ev le next =>
    subst next
    exact ⟨h.ledger.le le, h.counted, fun hstop => h.spent (hinside hstop)⟩

end

/-- The pool itself stops only when some chunk has failed six times, in every run in which a worker of a banned
mirror never finds all the others banned too when it takes a due chunk. -/
theorem stop_needs_six_failures {sources : List String} {threadsPerSource : ℕ} {health : MirrorHealthTracker}
    {entries : List Entry} {completed : List ℕ} {ev : Events} {acts : List TrackedAct} {s : TrackedPool}
    (hfresh : ∀ e ∈ entries, e.2.2 = 0) (hev : ev.stopEvent = false)
    (hrun : exec (trackedStep sources) (.init ev health sources threadsPerSource entries completed) acts =
      some s)
    (hinside : Guarded (trackedStep sources) NoOutsideStop
      (.init ev health sources threadsPerSource entries completed) acts)
    (hleft : Guarded (trackedStep sources) (MirrorLeft sources)
      (.init ev health sources threadsPerSource entries completed) acts)
    (hstop : s.ev.stopEvent = true) : ∃ i, 6 ≤ s.pool.failures.count i := by
  have hinit : Budgeted ev (TrackedPool.init ev health sources threadsPerSource entries completed).pool := by
    refine ⟨(init_accounts health sources threadsPerSource entries completed).ledger, fun item hitem => ?_,
      fun h => ?_⟩
    · obtain ⟨e, he, rfl⟩ := List.mem_map.mp ((init_queue ..).subset hitem)
      rw [show e.item.retries = 0 from hfresh e he]
      exact Nat.zero_le _
    · rw [hev] at h
      cases h
  have hbudget : Budgeted s.ev s.pool :=
    exec_guarded (P := fun s => Budgeted s.ev s.pool) (fun _ _ _ h hG hs => trackedStep_budgeted h hG.1 hG.2 hs)
      hinit (hinside.and hleft) hrun
  exact hbudget.spent hstop

/-- The worker takes the next entry and its fetch fails; then time passes. -/
private def failOnce (e : FetchException) (later : ℚ) : List TrackedAct :=
  [.pool (.openGate 0), .pool (.passGate 0), .get 0, .fetchFailed 0 e, .pool (.tick later)]

/-- A mirror that answers 429 with `Retry-After: 0` is not banned, and the budget is used up. -/
private def spentBudget : List TrackedAct :=
  .pool (.wake 0 false) ::
    ([1, 2, 4, 8, 16, 0] : List ℚ).flatMap (failOnce (.fetchError (some (.clientResponse 429 (some "0"))) "429"))

theorem stop_needs_six_failures_spent :
    ∃ s, exec (trackedStep ["a"]) (.init {} {} ["a"] 1 [(0, 0, 0)] []) spentBudget = some s ∧
      s.ev.stopEvent = true ∧ ∃ i, 6 ≤ s.pool.failures.count i := by
  have hrun : exec (trackedStep ["a"]) (.init {} {} ["a"] 1 [(0, 0, 0)] []) spentBudget =
      some ((exec (trackedStep ["a"]) (.init {} {} ["a"] 1 [(0, 0, 0)] []) spentBudget).get (by decide +kernel)) :=
    (Option.some_get _).symm
  have hstop : ((exec (trackedStep ["a"]) (.init {} {} ["a"] 1 [(0, 0, 0)] []) spentBudget).get
      (by decide +kernel)).ev.stopEvent = true := by decide +kernel
  exact ⟨_, hrun, hstop, stop_needs_six_failures (by decide) rfl hrun (by decide +kernel) (by decide +kernel) hstop⟩

/-- The worker sleeps while the chunk's backoff runs, and takes the chunk again when it is due. -/
private def sleepOnce : List TrackedAct :=
  [.pool (.openGate 0), .pool (.passGate 0), .get 0, .pool (.tick (1 / 2)), .pool (.slept 0)]

/-- A timeout on the only mirror: a second later the mirror is still banned. -/
private def onlyMirror : List TrackedAct :=
  .pool (.wake 0 false) :: failOnce (.fetchError (some .other) "timed out") 0 ++ sleepOnce ++ sleepOnce ++
    [.pool (.openGate 0), .pool (.passGate 0), .get 0]

theorem first_failure_stops :
    ∃ s, exec (trackedStep ["a"]) (.init {} {} ["a"] 1 [(0, 0, 0)] []) onlyMirror = some s ∧
      Guarded (trackedStep ["a"]) NoOutsideStop (.init {} {} ["a"] 1 [(0, 0, 0)] []) onlyMirror ∧
      s.ev.stopEvent = true ∧ s.pool.failures = [0] := by
  refine ⟨(exec (trackedStep ["a"]) (.init {} {} ["a"] 1 [(0, 0, 0)] []) onlyMirror).get (by decide +kernel),
    (Option.some_get _).symm, ?_, ?_, ?_⟩
  · decide +kernel
  · decide +kernel
  · decide +kernel

end Mrdl.Workers
