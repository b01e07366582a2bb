import Mrdl.Workers.Bans
import Mrdl.Workers.Order
import Mrdl.Workers.SlowMirror

/-! # The pause gate

A worker passes the gate once in its loop. Between the gate and the fetch it may be suspended twice: after
the pause event has woken it, and in the queue's `get`. Clearing the event does not reach it there.
-/

namespace Mrdl.Workers
open Runs
set_option autoImplicit false

/-- The action leaves the pause event set. -/
def TrackedAct.opens : TrackedAct → Bool
  | .events ev => ev.pauseEvent
  | _ => false

/-- A worker calls `fetch`. -/
def StartsFetch (s t : TrackedPool) : Prop :=
  ∃ w item t₀, t.pool.pcOf w = some (.fetching item t₀) ∧ s.pool.pcOf w ≠ some (.fetching item t₀)

/-- Some worker of the mirror is fetching. -/
def Fetching (s : TrackedPool) (source : String) : Prop :=
  ∃ w item t₀, s.source w = some source ∧ s.pool.pcOf w = some (.fetching item t₀)

/-- The mirror is banned for ever, and no fetch is under way whose failure would replace the ban. -/
def Stranded (s : TrackedPool) (source : String) : Prop :=
  s.health.banned.lookup source = some .infinite ∧ ¬ Fetching s source

/-- The queue is empty, and no failure puts a chunk back. -/
def Drained (ev : Events) (p : WorkerPool) : Prop :=
  p.queue = [] ∧ (ev.stopEvent = true ∨ ∀ item ∈ hands p.workers, 5 ≤ item.retries)

/-- `run` has left its wait, or no chunk is left to be fetched, or nobody is past the gate who could fetch
one. -/
def Shut (s : TrackedPool) : Prop :=
  s.pool.run ≠ .waiting ∨ Drained s.ev s.pool ∨
    ∀ w pc source, s.pool.pcOf w = some pc → pc.past = true → s.source w = some source → Stranded s source

section
variable {sources : List String} {s t : TrackedPool} {a : TrackedAct}

/-! ## Steps of the tracked pool -/

theorem trackedStep_pool (hs : trackedStep sources s a = some t) :
    (∃ ev, a = .events ev ∧ s.ev.Le ev ∧ t = { s with ev := ev }) ∨
      ∃ b, poolStep s.ev s.pool b = some (t.ev, t.pool) := by
  cases trackedStep_moves hs with
  | pool a free step health => exact .inr ⟨a, step⟩
  | get w source here step health => exact .inr ⟨_, step⟩
  | failed w e source here record step => exact .inr ⟨_, step⟩
  | unreadable w e header step health => exact .inr ⟨_, step⟩
  | events ev le next => exact .inl ⟨ev, rfl, le, next⟩

theorem poolStep_pauseEvent {ev ev' : Events} {p q : WorkerPool} {b : PoolAct}
    (hs : poolStep ev p b = some (ev', q)) : ev'.pauseEvent = ev.pauseEvent := by
  cases poolStep_moves hs <;> rfl

theorem trackedStep_closed (hclosed : s.ev.pauseEvent = false) (ha : a.opens = false)
    (hs : trackedStep sources s a = some t) : t.ev.pauseEvent = false := by
  rcases trackedStep_pool hs with ⟨ev, rfl, -, rfl⟩ | ⟨b, hb⟩
  · exact ha
  · rw [poolStep_pauseEvent hb]
    exact hclosed

theorem trackedStep_inOrder (h : InOrder s.pool) (hs : trackedStep sources s a = some t) : InOrder t.pool := by
  rcases trackedStep_pool hs with ⟨ev, -, -, rfl⟩ | ⟨b, hb⟩
  · exact h
  · exact h.step hb

theorem trackedStep_begins {w : ℕ} {item : QueueItem} {t₀ : ℚ} (hs : trackedStep sources s a = some t)
    (ht : t.pool.pcOf w = some (.fetching item t₀)) (hnew : s.pool.pcOf w ≠ some (.fetching item t₀)) :
    a = .get w ∧ s.pool.pcOf w = some .getting ∧ ∃ rest, s.pool.queue = item :: rest := by
  cases trackedStep_moves hs with
  | pool b free step health =>
    obtain ⟨-, -, ⟨banned, allBanned, rfl⟩, -⟩ := poolStep_begins step ht hnew
    cases free
  | get v source here step health =>
    obtain ⟨hget, -, ⟨banned, allBanned, heq⟩, hhead⟩ := poolStep_begins step ht hnew
    cases heq
    exact ⟨rfl, hget, hhead⟩
  | failed v e source here record step =>
    obtain ⟨-, -, ⟨banned, allBanned, heq⟩, -⟩ := poolStep_begins step ht hnew
    cases heq
  | unreadable v e header step health =>
    obtain ⟨-, -, ⟨banned, allBanned, heq⟩, -⟩ := poolStep_begins step ht hnew
    cases heq
  | events ev le next =>
    rw [next] at ht
    exact absurd ht hnew

theorem source_of_pcOf {w : ℕ} {pc : WorkerPc} (h : s.pool.pcOf w = some pc) :
    ∃ source, s.source w = some source := by
  obtain ⟨x, hx, -⟩ := Option.map_eq_some_iff.mp h
  exact ⟨x.source, by rw [TrackedPool.source, hx]; rfl⟩

/-- No fetch begins from a mirror that is banned for ever. -/
theorem begins_finite {w : ℕ} {item : QueueItem} {t₀ : ℚ} {source : String}
    (hs : trackedStep sources s a = some t) (ht : t.pool.pcOf w = some (.fetching item t₀))
    (hnew : s.pool.pcOf w ≠ some (.fetching item t₀)) (hsource : s.source w = some source) :
    s.health.banned.lookup source ≠ some .infinite := by
  intro hban
  obtain ⟨rfl, -, -⟩ := trackedStep_begins hs ht hnew
  have hfree := begins_unbanned hsource hs ht
  rw [TrackedPool.isBanned, MirrorHealthTracker.isBanned, hban] at hfree
  cases hfree

/-! ## What stays as it is behind the gate -/

theorem exists_pcOf {p : WorkerPool} {item : QueueItem} (h : item ∈ hands p.workers) :
    ∃ w t₀, p.pcOf w = some (.fetching item t₀) := by
  obtain ⟨x, hx, t₀, hpc⟩ := mem_hands.mp h
  obtain ⟨w, hw⟩ := List.mem_iff_getElem?.mp hx
  exact ⟨w, t₀, by rw [WorkerPool.pcOf, hw, Option.map_some, hpc]⟩

/-- An empty queue fills only by a failure with retries left. -/
theorem poolStep_drained {ev ev' : Events} {p q : WorkerPool} {b : PoolAct} (h : Drained ev p)
    (hq : InOrder q) (hrun : q.run = .waiting) (hs : poolStep ev p b = some (ev', q)) : Drained ev' q := by
  have hhandling := poolStep_handling hs
  obtain ⟨hempty, hlast⟩ := h
  refine ⟨List.eq_nil_iff_forall_not_mem.mpr fun item hitem => ?_, ?_⟩
  · rcases hhandling.queue item hitem with hold | hsentinel | ⟨w, typeName, message, rfl, item₀, t₀, here, -⟩
    · rw [hempty] at hold
      cases hold
    · exact hq.going hrun item hitem hsentinel
    · have hsame : q.queue = p.queue := by
        simp only [poolStep, here, Option.some.injEq] at hs
        have hq := congrArg (fun r => r.2.queue) hs
        rw [← hq]
        unfold failItem
        rcases hlast with hstop | hlast
        · simp only [hstop, if_true, Bool.false_eq_true, if_false]
          rfl
        · have hfive := hlast item₀ (mem_hands_of_pcOf here)
          simp only [Bool.false_eq_true, if_false, if_neg (not_lt.mpr hfive)]
          split <;> rfl
      rw [hsame, hempty] at hitem
      cases hitem
  · refine hlast.imp (poolStep_onward hs).le.stopEvent fun hlast item hitem => ?_
    obtain ⟨w, t₀, hpc⟩ := exists_pcOf hitem
    rcases hhandling.takes w item t₀ hpc with hold | ⟨-, hqueue⟩
    · exact hlast item (mem_hands_of_pcOf hold)
    · rw [hempty] at hqueue
      cases hqueue

theorem failed_fetching {ev : Events} {p : WorkerPool} {r : Events × WorkerPool} {w : ℕ}
    {typeName message : String} {healthRaises : Bool}
    (hs : poolStep ev p (.fetchFailed w typeName message healthRaises) = some r) :
    ∃ item t₀, p.pcOf w = some (.fetching item t₀) := by
  simp only [poolStep] at hs
  split at hs
  · rename_i item t₀ hpc
    exact ⟨item, t₀, hpc⟩
  · cases hs

/-- Only a failure of its own workers changes the ban of a mirror. -/
theorem ban_step {source : String} (hs : trackedStep sources s a = some t) (hnone : ¬ Fetching s source) :
    t.health.banned.lookup source = s.health.banned.lookup source := by
  cases trackedStep_moves hs with
  | pool b free step health => rw [health]
  | get w source' here step health => rw [health]
  | failed w e source' here record step =>
    obtain ⟨item, t₀, hpc⟩ := failed_fetching step
    have hother : source ≠ source' := by
      rintro rfl
      exact hnone ⟨w, item, t₀, here, hpc⟩
    have hbeq : (source == source') = false := by simpa using hother
    obtain ⟨d, -, hd⟩ := Option.map_eq_some_iff.mp record
    rw [← hd, List.lookup_cons, hbeq]
  | unreadable w e header step health => rw [health]
  | events ev le next => rw [next]

theorem Stranded.step {source : String} (h : Stranded s source) (hs : trackedStep sources s a = some t) :
    Stranded t source := by
  obtain ⟨hban, hnone⟩ := h
  refine ⟨(ban_step hs hnone).trans hban, ?_⟩
  rintro ⟨w, item, t₀, hsource, hpc⟩
  rw [trackedStep_source hs] at hsource
  by_cases hold : s.pool.pcOf w = some (.fetching item t₀)
  · exact hnone ⟨w, item, t₀, hsource, hold⟩
  · exact begins_finite hs hpc hold hsource hban

/-- Nobody passes a closed gate. -/
theorem past_step {w : ℕ} {pc : WorkerPc} (hclosed : s.ev.pauseEvent = false)
    (hs : trackedStep sources s a = some t) (hpc : t.pool.pcOf w = some pc) (hpast : pc.past = true) :
    ∃ pc', s.pool.pcOf w = some pc' ∧ pc'.past = true := by
  rcases trackedStep_pool hs with ⟨ev, -, -, rfl⟩ | ⟨b, hb⟩
  · exact ⟨pc, hpc, hpast⟩
  · rcases poolStep_goes hb with hsame | ⟨v, pc', e, hgoes⟩
    · rw [WorkerPool.pcOf, hsame] at hpc
      exact ⟨pc, hpc, hpast⟩
    · rw [WorkerPool.pcOf, hgoes.workers] at hpc
      by_cases hv : w = v
      · subst hv
        have hmoved := (move_pcOf_self hgoes.here e).symm.trans hpc
        cases hmoved
        exact ⟨pc', hgoes.here, (hgoes.gate hpast).resolve_right (by rw [hclosed]; exact Bool.false_ne_true)⟩
      · exact ⟨pc, (move_pcOf_other hv e).symm.trans hpc, hpast⟩

theorem Shut.step (h : Shut s) (horder : InOrder s.pool) (hclosed : s.ev.pauseEvent = false)
    (hs : trackedStep sources s a = some t) : Shut t := by
  rcases h with hleft | hdrained | hstranded
  · rcases trackedStep_pool hs with ⟨ev, -, -, rfl⟩ | ⟨b, hb⟩
    · exact .inl hleft
    · exact .inl (poolStep_left hb hleft)
  · rcases trackedStep_pool hs with ⟨ev, -, hle, rfl⟩ | ⟨b, hb⟩
    · exact .inr (.inl ⟨hdrained.1, hdrained.2.imp hle.stopEvent id⟩)
    · by_cases hrun : t.pool.run = .waiting
      · exact .inr (.inl (poolStep_drained hdrained (horder.step hb) hrun hb))
      · exact .inl hrun
  · refine .inr (.inr fun w pc source hpc hpast hsource => ?_)
    obtain ⟨pc', hpc', hpast'⟩ := past_step hclosed hs hpc hpast
    rw [trackedStep_source hs] at hsource
    exact (hstranded w pc' source hpc' hpast' hsource).step hs

theorem Shut.no_start (h : Shut s) (horder : InOrder s.pool) (hs : trackedStep sources s a = some t) :
    ¬ StartsFetch s t := by
  rintro ⟨w, item, t₀, ht, hnew⟩
  obtain ⟨-, hget, rest, hhead⟩ := trackedStep_begins hs ht hnew
  rcases h with hleft | hdrained | hstranded
  · rcases trackedStep_pool hs with ⟨ev, -, -, rfl⟩ | ⟨b, hb⟩
    · exact hnew ht
    · exact hnew (horder.no_start hleft hb ht)
  · rw [hdrained.1] at hhead
    cases hhead
  · obtain ⟨source, hsource⟩ := source_of_pcOf hget
    exact begins_finite hs ht hnew hsource (hstranded w .getting source hget rfl hsource).1

/-! ## A gate that is not shut -/

/-- As long as the pause event stays cleared, no fetch begins. -/
def Holds (sources : List String) (s : TrackedPool) : Prop :=
  ∀ as t a u, (∀ b ∈ as ++ [a], b.opens = false) → exec (trackedStep sources) s as = some t →
    trackedStep sources t a = some u → ¬ StartsFetch t u

theorem Holds.step (h : Holds sources s) (hs : trackedStep sources s a = some t) (ha : a.opens = false) :
    Holds sources t := by
  intro as u b v hclosed hrun
  refine h (a :: as) u b v (fun c hc => ?_) (exec_cons.mpr ⟨t, hs, hrun⟩)
  rcases List.mem_cons.mp hc with rfl | hc
  · exact ha
  · exact hclosed c hc

theorem exists_due (s : TrackedPool) (item : QueueItem) {source : String}
    (hban : s.health.banned.lookup source ≠ some .infinite) :
    ∃ d, 0 ≤ d ∧ item.retryTime ≤ s.pool.now + d ∧ s.health.isBanned (s.pool.now + d) source = false := by
  obtain ⟨q, hq⟩ : ∃ q, (s.health.banned.lookup source).getD (.finite 0) = .finite q := by
    cases hend : s.health.banned.lookup source with
    | none => exact ⟨0, rfl⟩
    | some e =>
      cases e with
      | finite q => exact ⟨q, rfl⟩
      | infinite => exact absurd hend hban
  refine ⟨max 0 (max (item.retryTime - s.pool.now) (q - s.pool.now)), le_max_left .., ?_, ?_⟩
  · have hle := (le_max_left (item.retryTime - s.pool.now) (q - s.pool.now)).trans (le_max_right 0 _)
    linarith
  · have hle := (le_max_right (item.retryTime - s.pool.now) (q - s.pool.now)).trans (le_max_right 0 _)
    rw [MirrorHealthTracker.isBanned, hq]
    simp only [Instant.after, decide_eq_false_iff_not, not_lt]
    linarith

theorem get_begins {w : ℕ} {source : String} {item : QueueItem} {rest : List QueueItem}
    (hget : s.pool.pcOf w = some .getting) (hsource : s.source w = some source)
    (hhead : s.pool.queue = item :: rest) (hchunk : item.chunkIdx ≠ stopSentinel)
    (hdue : item.retryTime ≤ s.pool.now) (hfree : s.isBanned source = false) :
    trackedStep sources s (.get w) =
      some ⟨s.ev, { s.pool with queue := rest }.move w (.fetching item s.pool.now), s.health⟩ := by
  simp only [trackedStep, hsource, hfree, TrackedPool.poolMove, poolStep, hget, hhead, takeItem,
    if_neg hchunk, if_neg (not_lt.mpr hdue), Bool.false_eq_true, if_false, Option.map_some]

/-- In `get`, with a chunk at the head of the queue: when the chunk is due and the ban is over, the fetch
begins. -/
theorem not_holds_getting {w : ℕ} {source : String} {item : QueueItem} {rest : List QueueItem}
    (hget : s.pool.pcOf w = some .getting) (hsource : s.source w = some source)
    (hhead : s.pool.queue = item :: rest) (hchunk : item.chunkIdx ≠ stopSentinel)
    (hban : s.health.banned.lookup source ≠ some .infinite) : ¬ Holds sources s := by
  intro hholds
  obtain ⟨d, hd, hdue, hfree⟩ := exists_due s item hban
  obtain ⟨later, hlater⟩ : ∃ later, later = { s with pool := { s.pool with now := s.pool.now + d } } :=
    ⟨_, rfl⟩
  have htick : trackedStep sources s (.pool (.tick d)) = some later := by
    simp [hlater, trackedStep, PoolAct.tracked, TrackedPool.poolMove, poolStep, hd]
  have hget' : later.pool.pcOf w = some .getting := by
    rw [hlater]
    exact hget
  have hstart : trackedStep sources later (.get w) = _ := get_begins hget' (by rw [hlater]; exact hsource)
    (by rw [hlater]; exact hhead) hchunk (by rw [hlater]; exact hdue) (by rw [hlater]; exact hfree)
  refine hholds [.pool (.tick d)] later (.get w) _ (by simp [TrackedAct.opens])
    (exec_cons.mpr ⟨later, htick, rfl⟩) hstart ⟨w, item, later.pool.now, ?_, ?_⟩
  · exact move_pcOf_self (p := { later.pool with queue := rest }) hget' _
  · intro heq
    rw [hget'] at heq
    cases heq

/-- The pool can go on to a fetch: some worker past the gate has a mirror that may come free. -/
structure Ready (s : TrackedPool) (w : ℕ) (source : String) : Prop where
  order : InOrder s.pool
  waiting : s.pool.run = .waiting
  past : ∃ pc, s.pool.pcOf w = some pc ∧ pc.past = true
  mirror : s.source w = some source
  free : s.health.banned.lookup source ≠ some .infinite ∨ Fetching s source

theorem not_holds_free {w : ℕ} {source : String} (h : Ready s w source) (hqueue : s.pool.queue ≠ [])
    (hban : s.health.banned.lookup source ≠ some .infinite) : ¬ Holds sources s := by
  obtain ⟨item, rest, hhead⟩ := List.exists_cons_of_ne_nil hqueue
  have hchunk := h.order.going h.waiting item (by rw [hhead]; exact List.mem_cons_self ..)
  obtain ⟨pc, hpc, hpast⟩ := h.past
  have hcases : pc = .pausing true ∨ pc = .getting := by
    cases pc with
    | pausing woken => exact .inl (congrArg _ hpast)
    | getting => exact .inr rfl
    | _ => cases hpast
  rcases hcases with rfl | rfl
  · intro hholds
    obtain ⟨t, ht⟩ : ∃ t, t = { s with pool := s.pool.move w .getting } := ⟨_, rfl⟩
    have hpass : trackedStep sources s (.pool (.passGate w)) = some t := by
      simp [ht, trackedStep, PoolAct.tracked, TrackedPool.poolMove, poolStep, hpc]
    have hget : t.pool.pcOf w = some .getting := by
      rw [ht]
      exact move_pcOf_self hpc _
    have hhead' : t.pool.queue = item :: rest := by
      rw [ht]
      exact hhead
    have hban' : t.health.banned.lookup source ≠ some .infinite := by
      rw [ht]
      exact hban
    exact not_holds_getting hget ((trackedStep_source hpass w).trans h.mirror) hhead' hchunk hban'
      (hholds.step hpass rfl)
  · exact not_holds_getting hpc h.mirror hhead hchunk hban

theorem failItem_queue (ev : Events) (p : WorkerPool) (v : ℕ) (item : QueueItem)
    (h : p.queue ≠ [] ∨ (ev.stopEvent = false ∧ item.retries < 5)) :
    (failItem ev p v item "FetchError" "" false).2.queue ≠ [] ∧
      (failItem ev p v item "FetchError" "" false).2.run = p.run := by
  simp only [failItem, Bool.false_eq_true, if_false]
  split
  · rename_i hstop
    exact ⟨h.resolve_right fun hgo => (by rw [hgo.1] at hstop; cases hstop), rfl⟩
  · split
    · refine ⟨fun hnil => ?_, rfl⟩
      exact List.cons_ne_nil _ _ ((List.perm_orderedInsert Before _ p.queue).symm.trans (.of_eq hnil)).eq_nil
    · rename_i hfew
      exact ⟨h.resolve_right fun hgo => hfew hgo.2, rfl⟩

variable (sources) in
/-- A fetch that fails bans its mirror for a minute. -/
theorem fetch_fails {v : ℕ} {source' : String} {item : QueueItem} {t₀ : ℚ}
    (hpc : s.pool.pcOf v = some (.fetching item t₀)) (hsource : s.source v = some source')
    (hback : s.pool.queue ≠ [] ∨ (s.ev.stopEvent = false ∧ item.retries < 5)) :
    ∃ t, trackedStep sources s (.fetchFailed v (.fetchError none "")) = some t ∧
      t.health.banned = (source', .finite (s.pool.now + 60)) :: s.health.banned ∧
      (∀ w, w ≠ v → t.pool.pcOf w = s.pool.pcOf w) ∧ t.pool.run = s.pool.run ∧ t.pool.queue ≠ [] := by
  obtain ⟨e, -, hworkers⟩ := failItem_goes s.ev s.pool v item "FetchError" "" false
  obtain ⟨hqueue, hrun⟩ := failItem_queue s.ev s.pool v item hback
  have hrecord : s.health.recordFailure s.pool.now .other source' =
      some { banned := (source', .finite (s.pool.now + 60)) :: s.health.banned } := rfl
  refine ⟨⟨(failItem s.ev s.pool v item "FetchError" "" false).1, _, _⟩, ?_, rfl, fun w hw => ?_, hrun, hqueue⟩
  · simp only [trackedStep, hsource, FetchException.recorded, hrecord, TrackedPool.poolMove, poolStep, hpc,
      Option.map_some]
    rfl
  · rw [WorkerPool.pcOf, hworkers]
    exact move_pcOf_other hw e

variable (sources) in
theorem Ready.fails {w v : ℕ} {source source' : String} {item : QueueItem} {t₀ : ℚ} (h : Ready s w source)
    (hpc : s.pool.pcOf v = some (.fetching item t₀)) (hsource : s.source v = some source')
    (hback : s.pool.queue ≠ [] ∨ (s.ev.stopEvent = false ∧ item.retries < 5)) :
    ∃ t, trackedStep sources s (.fetchFailed v (.fetchError none "")) = some t ∧ Ready t w source ∧
      t.pool.queue ≠ [] ∧ (source = source' → t.health.banned.lookup source ≠ some .infinite) := by
  obtain ⟨t, ht, hbanned, hother, hrun, hqueue⟩ := fetch_fails sources hpc hsource hback
  obtain ⟨pc, hpast, hpast'⟩ := h.past
  have hne : w ≠ v := by
    rintro rfl
    rw [hpc] at hpast
    cases hpast
    cases hpast'
  have hfinite : source = source' → t.health.banned.lookup source ≠ some .infinite := by
    rintro rfl
    rw [hbanned, List.lookup_cons_self]
    exact fun heq => Instant.noConfusion (Option.some.inj heq)
  have hfree : t.health.banned.lookup source ≠ some .infinite ∨ Fetching t source := by
    by_cases hsame : source = source'
    · exact .inl (hfinite hsame)
    · have hbeq : (source == source') = false := by simpa using hsame
      rw [hbanned, List.lookup_cons, hbeq]
      refine h.free.imp id ?_
      rintro ⟨u, item', u₀, hu, hupc⟩
      refine ⟨u, item', u₀, (trackedStep_source ht u).trans hu, (hother u ?_).trans hupc⟩
      rintro rfl
      exact hsame (Option.some.inj (hu.symm.trans hsource))
  exact ⟨t, ht, ⟨trackedStep_inOrder h.order ht, hrun.trans h.waiting, ⟨pc, (hother w hne).trans hpast, hpast'⟩,
    (trackedStep_source ht w).trans h.mirror, hfree⟩, hqueue, hfinite⟩

/-- A mirror that is banned for ever comes free by the failure of one of its fetches. -/
theorem not_holds_queue {w : ℕ} {source : String} (h : Ready s w source) (hqueue : s.pool.queue ≠ []) :
    ¬ Holds sources s := by
  by_cases hban : s.health.banned.lookup source = some .infinite
  · obtain ⟨v, item, t₀, hv, hpc⟩ := h.free.resolve_left fun hfree => hfree hban
    obtain ⟨t, ht, hready, hqueue', hfree⟩ := h.fails sources hpc hv (.inl hqueue)
    exact fun hholds => not_holds_free hready hqueue' (hfree rfl) (hholds.step ht rfl)
  · exact not_holds_free h hqueue hban

theorem not_holds_of_not_shut (horder : InOrder s.pool) (h : ¬ Shut s) : ¬ Holds sources s := by
  simp only [Shut, not_or, not_not, not_forall] at h
  obtain ⟨hwait, hdrained, w, pc, source, hpc, hpast, hsource, hstranded⟩ := h
  have hfree : s.health.banned.lookup source ≠ some .infinite ∨ Fetching s source := by
    simp only [Stranded, not_and_or, not_not] at hstranded
    exact hstranded
  have hready : Ready s w source := ⟨horder, hwait, ⟨pc, hpc, hpast⟩, hsource, hfree⟩
  by_cases hqueue : s.pool.queue = []
  · -- the chunk is in the hands of a worker, and comes back
    simp only [Drained, hqueue, true_and, not_or, not_forall, Bool.not_eq_true, not_le] at hdrained
    obtain ⟨hgo, item, hitem, hfew⟩ := hdrained
    obtain ⟨v, t₀, hv⟩ := exists_pcOf hitem
    obtain ⟨source', hsource'⟩ := source_of_pcOf hv
    obtain ⟨t, ht, hready', hqueue', -⟩ := hready.fails sources hv hsource' (.inr ⟨hgo, hfew⟩)
    exact fun hholds => not_holds_queue hready' hqueue' (hholds.step ht rfl)
  · exact not_holds_queue hready hqueue

theorem Shut.holds (h : Shut s) (horder : InOrder s.pool) (hclosed : s.ev.pauseEvent = false) :
    Holds sources s := by
  intro as t a u hopens hrun hstep
  obtain ⟨ht, -, hshut⟩ := exec_guarded
    (P := fun t => InOrder t.pool ∧ t.ev.pauseEvent = false ∧ Shut t) (G := fun _ a => a.opens = false)
    (fun s a t hs ha hstep => ⟨trackedStep_inOrder hs.1 hstep, trackedStep_closed hs.2.1 ha hstep,
      hs.2.2.step hs.1 hs.2.1 hstep⟩)
    ⟨horder, hclosed, h⟩ (Guarded.of_mem (fun _ b hb => hopens b (List.mem_append_left _ hb)) _) hrun
  exact hshut.no_start ht hstep

end

/-! ## Every pause -/

theorem init_inOrder (ev : Events) (health : MirrorHealthTracker) (sources : List String)
    (threadsPerSource : ℕ) (chunks completed : List ℕ) :
    InOrder (TrackedPool.init ev health sources threadsPerSource (chunks.map fun i => (0, i, 0))
      completed).pool := by
  have hitems : ∀ item ∈ (TrackedPool.init ev health sources threadsPerSource
      (chunks.map fun i => (0, i, 0)) completed).pool.queue, ∃ i : ℕ, item = ⟨0, i, 0⟩ := by
    intro item hitem
    have hmem := (List.perm_insertionSort Before _).subset hitem
    obtain ⟨e, he, rfl⟩ := List.mem_map.mp hmem
    obtain ⟨i, -, rfl⟩ := List.mem_map.mp he
    exact ⟨i, rfl⟩
  refine ⟨⟨List.pairwise_insertionSort _ _, fun item hitem => ?_⟩, fun w item t₀ hpc => ?_, le_rfl,
    fun _ item hitem => ?_, fun h => absurd rfl h⟩
  · obtain ⟨i, rfl⟩ := hitems item hitem
    exact .inr ⟨le_rfl, Int.natCast_nonneg i⟩
  · obtain ⟨x, hx, hfetching⟩ := pcOf_mem hpc
    have hstart : x ∈ (WorkerPool.init sources threadsPerSource [] completed).workers := hx
    rw [init_startup hstart] at hfetching
    cases hfetching
  · obtain ⟨i, rfl⟩ := hitems item hitem
    exact not_sentinel i

/-- While the event stays cleared no fetch begins, exactly when the gate is shut at the moment it is
cleared: for every queue of chunks, every number of workers and every run up to there. -/
theorem paused_iff (sources : List String) (threadsPerSource : ℕ) (health : MirrorHealthTracker)
    (chunks completed : List ℕ) (ev : Events) (as : List TrackedAct) (s : TrackedPool)
    (hrun : exec (trackedStep sources)
      (.init ev health sources threadsPerSource (chunks.map fun i => (0, i, 0)) completed) as = some s)
    (hclosed : s.ev.pauseEvent = false) : Holds sources s ↔ Shut s := by
  have horder : InOrder s.pool :=
    exec_invariant (P := fun s => InOrder s.pool) (fun _ _ _ => trackedStep_inOrder)
      (init_inOrder ev health sources threadsPerSource chunks completed) hrun
  refine ⟨fun hholds => ?_, fun hshut => hshut.holds horder hclosed⟩
  by_contra hshut
  exact not_holds_of_not_shut horder hshut hholds

/-- One worker, which comes to the gate while the event is cleared. The event is set, which wakes it, and cleared
again before it runs on: the worker goes on to fetch the chunk. -/
theorem cleared_late_fetches :
    ∃ s t u, exec (trackedStep ["a"]) (.init {} {} ["a"] 1 [(0, 0, 0)] [])
        [.events { pauseEvent := false }, .pool (.wake 0 false), .events {}, .pool (.openGate 0),
          .events { pauseEvent := false }] = some s ∧
      s.ev.pauseEvent = false ∧ exec (trackedStep ["a"]) s [.pool (.passGate 0)] = some t ∧
      trackedStep ["a"] t (.get 0) = some u ∧ StartsFetch t u ∧ ¬ Holds ["a"] s := by
  have hstarts : StartsFetch
      ⟨{ pauseEvent := false }, ⟨[⟨0, 0, 0⟩], 1, [⟨"a", .getting⟩], [], [], none, false, .waiting, 0, false⟩, {}⟩
      ⟨{ pauseEvent := false },
        ⟨[], 1, [⟨"a", .fetching ⟨0, 0, 0⟩ 0⟩], [], [], none, false, .waiting, 0, false⟩, {}⟩ :=
    ⟨0, ⟨0, 0, 0⟩, 0, rfl, by decide +kernel⟩
  refine ⟨_, _, _, rfl, rfl, ?_, ?_, hstarts, fun hholds => ?_⟩
  · decide +kernel
  · decide +kernel
  · exact hholds [.pool (.passGate 0)] _ (.get 0) _ (by simp [TrackedAct.opens]) (by decide +kernel)
      (by decide +kernel) hstarts

/-- One worker, and the event is cleared before it has come to the gate. -/
theorem paused_early :
    ∃ s, exec (trackedStep ["a"]) (.init {} {} ["a"] 1 [(0, 0, 0)] [])
        [.pool (.wake 0 false), .events { pauseEvent := false }] = some s ∧ Holds ["a"] s := by
  refine ⟨_, rfl, (paused_iff ["a"] 1 {} [0] [] {} [.pool (.wake 0 false), .events { pauseEvent := false }] _
    rfl rfl).mpr (.inr (.inr fun w pc source hpc hpast hsource => ?_))⟩
  cases w with
  | zero =>
    cases hpc
    cases hpast
  | succ w => cases hpc

end Mrdl.Workers
