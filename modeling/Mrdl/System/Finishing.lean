import Mrdl.System.Sturdy
import Mrdl.System.Verdicts
import Mrdl.Fetcher.Exact

/-! # The workers can always come to their end

Whatever has failed so far, as long as nothing is being stopped and no fetch under way is about to fail, the
workers can fetch what is left. A fetch may find the queue of the writer full: then the writer's thread can
make room. So what the pool can do by itself, the whole run can do.
-/

namespace Mrdl.System
open FileBytes Downloader Workers Writer Hasher Runs
set_option autoImplicit false

/-- What `start` waits for comes without a failure. -/
def Act.smooth : Act → Bool
  | .clearReturns ok | .fileReady ok | .stateReady ok | .stateCleared ok => ok
  | .loadReturns found => decide (found = some true)
  | .probeReturns result => decide (result = .metadata)
  | .enter _ | .poolReturns _ _ | .writerStopped | .hasherStopped | .stateSaved | .check | .sessionClosed
  | .finalizeReturns _ | .callback => true
  | _ => false

/-- Nothing fails, is given up on or called from outside. -/
def SysAct.smooth : SysAct → Bool
  | .control a => Act.smooth a
  | .pool a => a.smooth
  | .hasher a => a != .die
  | .putFull _ | .orphanGone _ | .writerFails _ => false
  | _ => true

/-- A step of a run that goes well: nothing fails, the fetches receive the right bytes, and
`DiskWriter.stop` waits until its thread has ended. -/
structure Smooth (S : Setup) (content : Bytes) (s : Sys) (a : SysAct) : Prop where
  smooth : a.smooth = true
  right : ReceivesRight S content s.traffic a
  waits : a = .control .writerStopped → s.writer.pc = .exited

section
variable {S : Setup} {content : Bytes} {s t : Sys} {w : ℕ}

theorem Smooth.of_smooth {a : SysAct} (h : a.smooth = true) (hbegin : ∀ w att, a ≠ .begin w att)
    (hstop : a ≠ .control .writerStopped) : Smooth S content s a := by
  refine ⟨h, ?_, fun heq => absurd heq hstop⟩
  cases a with
  | begin w att => exact absurd rfl (hbegin w att)
  | _ => trivial

theorem Smooth.breaks {a : SysAct} (h : Smooth S content s a) : a.breaks = false := by
  cases a with
  | pool b =>
    have hsmooth : b.smooth = true := h.smooth
    refine Bool.or_eq_false_iff.mpr ⟨smooth_kills hsmooth, decide_eq_false fun heq => ?_⟩
    rw [heq] at hsmooth
    cases hsmooth
  | _ => rfl

theorem Sturdy.leads (h : Sturdy S s) (hst : Leads (sysStep S) (Smooth S content) s t) : Sturdy S t :=
  hst.keeps h fun _ _ _ h ha hs => h.step ha.breaks hs

variable (content) in
theorem smooth_of_threads (h : Leads (sysStep S) (fun _ a => a.ofThreads) s t) :
    Leads (sysStep S) (Smooth S content) s t := by
  refine h.imp fun s a ha => ?_
  cases a with
  | writer b => exact .of_smooth rfl (fun _ _ => SysAct.noConfusion) SysAct.noConfusion
  | hasher b => exact .of_smooth (bne_iff_ne.mpr ha) (fun _ _ => SysAct.noConfusion) SysAct.noConfusion
  | _ => exact absurd ha id

/-- A step of `start`. -/
theorem control_leads {K : Sys → SysAct → Prop} {a : Act} {c : Control} (ha : K s (.control a))
    (hready : s.controlReady S a = true) (hs : controlStep s.ctl a = some c) :
    Leads (sysStep S) K s { s with ctl := c, saves := s.saves ++ s.savesWith a } := by
  refine .single ha ?_
  rw [sysStep, if_pos hready, hs]

/-! ## One fetch -/

/-- An undisturbed attempt that receives the bytes of chunk `i`. -/
def rightAnswer (S : Setup) (content : Bytes) (i : ℕ) : Fetcher.Attempt where
  reply := .answer
    { status := 206, pieces := [(content.drop (i * S.cfg.chunkSize)).take S.cfg.chunkSize] }
  speed := fun _ => ⟨S.cfg.speedGracePeriod, 0, ""⟩

theorem rightAnswer_returns {f : Fetcher.ChunkFetcher} {i : ℕ} (hsize : 0 < S.metadata.totalSize)
    (hlimit : 0 < S.cfg.flushLimit) (hcontent : content.length = S.size) (hi : i < S.totalChunks)
    (hbuf : f.buffer.length = S.cfg.flushThreshold) (hm : f.metadata = S.metadata) :
    ∃ res n, Fetcher.fetch S.cfg f i (rightAnswer S content i) = some res ∧ res.outcome = .returned n ∧
      n ≤ S.cfg.chunkSize := by
  obtain ⟨hchunk, hstart⟩ := chunk_start_lt hsize hi
  have hpos := Fetcher.rangeLength_pos hchunk hstart
  have hlength : Fetcher.rangeLength S.cfg S.metadata i =
      min (S.cfg.chunkSize : ℤ) (S.metadata.totalSize - (i * S.cfg.chunkSize : ℕ)) := by
    unfold Fetcher.rangeLength Fetcher.rangeEnd
    omega
  have hcalm : ∀ expected, Fetcher.Calm S.cfg (rightAnswer S content i) expected
      { status := 206, pieces := [(content.drop (i * S.cfg.chunkSize)).take S.cfg.chunkSize] } :=
    fun _ => .of_unwatched (fun _ => rfl) (fun _ => le_rfl) rfl
  obtain ⟨res, ws, hres, -, hwhole, -⟩ :=
    Fetcher.fetch_calm_known (Fetcher.flushThreshold_pos hchunk hlimit) hbuf (hcalm _) rfl rfl
      (hm ▸ hsize) (congrArg (Fetcher.rangeLength S.cfg · i) hm.symm) hpos
  have hlong : Fetcher.rangeLength S.cfg S.metadata i ≤
      ([(content.drop (i * S.cfg.chunkSize)).take S.cfg.chunkSize].flatten.length : ℤ) := by
    rw [hlength, List.flatten_singleton, List.length_take, List.length_drop, hcontent, Setup.size]
    omega
  exact ⟨res, _, hres, (hwhole hlong).1, by rw [hlength]; omega⟩

/-! ## The workers -/

/-- While the workers run and nothing is being stopped. -/
structure Working (S : Setup) (s : Sys) : Prop where
  sturdy : Sturdy S s
  here : s.ctl.pc = .running
  stop : s.ctl.ev.stopEvent = false
  thread : s.ctl.ev.stopThread = false

theorem Working.leads (h : Working S s) (hst : Leads (sysStep S) (Smooth S content) s t) (hctl : t.ctl = s.ctl) :
    Working S t := by
  refine ⟨h.sturdy.leads hst, ?_, ?_, ?_⟩ <;> rw [hctl]
  · exact h.here
  · exact h.stop
  · exact h.thread

theorem Working.started (h : Working S s) : s.ctl.writerStarted = true :=
  h.sturdy.promised.stilled.started (Or.inl h.here)

theorem Working.not_put (h : Working S s) : s.stopPut = false := by
  by_contra hput
  have hlate := h.sturdy.sentinel (Bool.eq_true_of_not_eq_false hput)
  rw [h.here] at hlate
  cases hlate

variable (content) in
/-- The writer's thread empties its queue. -/
theorem makes_room (h : Sturdy S s) (hstarted : s.ctl.writerStarted = true) (hfd : fdOpen s.ctl.pc = true)
    (hthread : s.ctl.ev.stopThread = false) (hput : s.stopPut = false) :
    ∃ x, Leads (sysStep S) (Smooth S content) s { s with writer := x } ∧ x.queue = [] ∧
      (x.pc = .checking ∨ x.pc = .getting) ∧ x.executed = s.writer.settled := by
  obtain ⟨x, hx, hdue, hexec⟩ := writer_drains S hstarted hfd hthread
  have hleads := smooth_of_threads content hx
  obtain ⟨hqueue, hpc⟩ := ((h.leads hleads).promised.opens hthread hput).idle hdue
  exact ⟨x, hleads, hqueue, hpc, hexec⟩

variable (content) in
/-- A fetch hands over what it has left, one command after the other. -/
theorem call_done (h : Working S s) {i : ℕ} {todo : List Command} {putting : Bool} {outcome : Fetcher.Outcome}
    (hcall : (s.tasks w).call = some ⟨i, todo, putting, outcome⟩) :
    ∃ t, Leads (sysStep S) (Smooth S content) s t ∧ t.ctl = s.ctl ∧ t.pool = s.pool ∧
      (∃ b, (t.tasks w).call = some ⟨i, [], b, outcome⟩) ∧ ∀ v ≠ w, t.tasks v = s.tasks v := by
  induction todo generalizing s putting with
  | nil => exact ⟨s, .refl s, rfl, rfl, ⟨putting, hcall⟩, fun _ _ => rfl⟩
  | cons cmd rest ih =>
    have hoffered : ∃ u, Leads (sysStep S) (Smooth S content) s u ∧ u.ctl = s.ctl ∧ u.pool = s.pool ∧
        (u.tasks w).call = some ⟨i, cmd :: rest, true, outcome⟩ ∧ ∀ v ≠ w, u.tasks v = s.tasks v := by
      cases putting with
      | true => exact ⟨s, .refl s, rfl, rfl, hcall, fun _ _ => rfl⟩
      | false =>
        refine ⟨s.setCall w (some ⟨i, cmd :: rest, true, outcome⟩), .single (a := .offer w)
          (.of_smooth rfl (fun _ _ => SysAct.noConfusion) SysAct.noConfusion) ?_, rfl, rfl, ?_, fun v hv => ?_⟩
        · simp [sysStep, hcall, h.here, blocksLoop, h.thread]
        · simp [Sys.setCall, Sys.setTask]
        · simp [Sys.setCall, Sys.setTask, hv]
    obtain ⟨u, hu, hctl, hpool, hcall', hothers⟩ := hoffered
    have hworking := h.leads hu hctl
    obtain ⟨x, hx, hqueue, -⟩ := makes_room content hworking.sturdy hworking.started
      (by rw [hworking.here]; rfl) hworking.thread hworking.not_put
    have hput : x.put (some cmd) = some { x with queue := [some cmd] } := by
      simp [DiskWriter.put, hqueue, maxsize]
    let v : Sys :=
      { u.setCall w (some ⟨i, rest, false, outcome⟩) with writer := { x with queue := [some cmd] } }
    have hstep : sysStep S { u with writer := x } (.putDone w) = some v := by
      simp only [sysStep, hcall', hput, Option.map_some]
      rfl
    have hv : Leads (sysStep S) (Smooth S content) s v :=
      hu.trans (hx.trans (.single (.of_smooth rfl (fun _ _ => SysAct.noConfusion) SysAct.noConfusion) hstep))
    have hvcall : (v.tasks w).call = some ⟨i, rest, false, outcome⟩ := by
      simp [v, Sys.setCall, Sys.setTask]
    obtain ⟨t, ht, htctl, htpool, htcall, htothers⟩ := ih (h.leads hv hctl) hvcall
    refine ⟨t, hv.trans ht, htctl.trans hctl, htpool.trans hpool, htcall, fun y hy => ?_⟩
    rw [htothers y hy, ← hothers y hy]
    simp [v, Sys.setCall, Sys.setTask, hy]

/-- The fetches under way will return. -/
def Returning (s : Sys) : Prop := ∀ w c, (s.tasks w).call = some c → ∃ n, c.outcome = .returned n

theorem Returning.others (h : Returning s) (hothers : ∀ v ≠ w, t.tasks v = s.tasks v)
    (hcall : ∀ c, (t.tasks w).call = some c → ∃ n, c.outcome = .returned n) : Returning t := by
  intro v c hc
  by_cases hv : v = w
  · subst hv
    exact hcall c hc
  · rw [hothers v hv] at hc
    exact h v c hc

/-- A worker fetches the chunk in its hands. -/
theorem fetch_done (hsize : 0 < S.metadata.totalSize) (hlimit : 0 < S.cfg.flushLimit)
    (hcontent : content.length = S.size) (h : Working S s) (hreturning : Returning s) {item : QueueItem} {x : ℚ}
    (hpc : s.pool.pcOf w = some (.fetching item x)) :
    ∃ t, Leads (sysStep S) (Smooth S content) s t ∧ t.ctl = s.ctl ∧ t.pool = s.pool ∧
      (∃ i b n, (t.tasks w).call = some ⟨i, [], b, .returned n⟩) ∧ ∀ v ≠ w, t.tasks v = s.tasks v := by
  cases hcall : (s.tasks w).call with
  | some c =>
    obtain ⟨i, todo, putting, outcome⟩ := c
    obtain ⟨n, hn⟩ := hreturning w _ hcall
    cases hn
    obtain ⟨t, ht, hctl, hpool, ⟨b, hb⟩, hothers⟩ := call_done content h hcall
    exact ⟨t, ht, hctl, hpool, ⟨i, b, n, hb⟩, hothers⟩
  | none =>
    obtain ⟨hmem, -⟩ := chunkIdx_of_hands (T := s.traffic) h.sturdy.promised.sound.conserved hpc
    have hstaffed := h.sturdy.promised.sound.staffed
    obtain ⟨res, n, hres, hn, hle⟩ := rightAnswer_returns (f := (s.tasks w).fetcher) hsize
      hlimit hcontent (mem_chunks.mp hmem).1 (hstaffed.buffers w) (hstaffed.metadata hsize w)
    have hbegin : sysStep S s (.begin w (rightAnswer S content item.chunkIdx.toNat)) =
        some (s.setTask w ⟨res.fetcher, some
          { chunkIdx := item.chunkIdx.toNat, todo := Fetcher.commands res.effects, outcome := res.outcome }⟩) := by
      simp only [sysStep, hpc, hcall, h.here, blocksLoop, Bool.false_eq_true, if_false, hres]
    have hright : ReceivesRight S content s.traffic (.begin w (rightAnswer S content item.chunkIdx.toNat)) := by
      have hres' : res = ⟨res.effects, .returned n, res.fetcher⟩ := by rw [← hn]
      rw [hres'] at hres
      simp only [ReceivesRight, Sys.traffic, hpc, hres]
      simp only [received, rightAnswer, List.flatten_singleton, List.take_take, min_eq_left hle]
    have hleads := Leads.single (K := Smooth S content) ⟨rfl, hright, SysAct.noConfusion⟩ hbegin
    have hcalled : ((s.setTask w ⟨res.fetcher, some ⟨item.chunkIdx.toNat, Fetcher.commands res.effects, false,
        res.outcome⟩⟩).tasks w).call =
        some ⟨item.chunkIdx.toNat, Fetcher.commands res.effects, false, res.outcome⟩ := by
      simp [Sys.setTask]
    obtain ⟨t, ht, hctl, hpool, ⟨b, hb⟩, hothers⟩ := call_done content (h.leads hleads rfl) hcalled
    refine ⟨t, hleads.trans ht, hctl, hpool, ⟨_, b, n, hn ▸ hb⟩, fun v hv => ?_⟩
    rw [hothers v hv]
    simp [Sys.setTask, hv]

variable (content) in
/-- A step of the pool is one of the run. -/
theorem pool_step (h : Working S s) {b : PoolAct} {q : WorkerPool} (hsmooth : b.smooth = true)
    (hready : s.poolReady b = true) (hs : poolStep s.ctl.ev s.pool b = some (s.ctl.ev, q)) :
    Leads (sysStep S) (Smooth S content) s { s.settleCall b with ctl := s.ctl, pool := q } := by
  refine .single (a := .pool b) (.of_smooth hsmooth (fun _ _ => SysAct.noConfusion) SysAct.noConfusion) ?_
  have hblocks : blocksLoop s.ctl.pc = false := by
    rw [h.here]
    rfl
  rw [sysStep, if_pos ⟨h.started, hblocks, hready⟩, hs]

/-- What the pool can do by itself the run can do. -/
theorem pool_simulated (hsize : 0 < S.metadata.totalSize) (hlimit : 0 < S.cfg.flushLimit)
    (hcontent : content.length = S.size) (h : Working S s) (hreturning : Returning s) {b : PoolAct}
    {q : WorkerPool} (hsmooth : b.smooth = true) (hs : poolStep s.ctl.ev s.pool b = some (s.ctl.ev, q)) :
    ∃ t, Leads (sysStep S) (Smooth S content) s t ∧ t.ctl = s.ctl ∧ t.pool = q ∧ Returning t := by
  cases b with
  | fetchReturned w =>
    have hpc : ∃ item x, s.pool.pcOf w = some (.fetching item x) := by
      simp only [poolStep] at hs
      split at hs
      · rename_i item x hpc
        exact ⟨item, x, hpc⟩
      · cases hs
    obtain ⟨item, x, hpc⟩ := hpc
    obtain ⟨t, ht, hctl, hpool, ⟨i, b, n, hcall⟩, hothers⟩ :=
      fetch_done hsize hlimit hcontent h hreturning hpc
    rw [← hctl, ← hpool] at hs
    have hready : t.poolReady (.fetchReturned w) = true := by
      rw [Sys.poolReady, fetchesReady, hcall]
    have hstep := pool_step content (h.leads ht hctl) hsmooth hready hs
    refine ⟨_, ht.trans hstep, hctl, rfl, ?_⟩
    have hsettle : t.settleCall (.fetchReturned w) =
        { t.setCall w none with recorded := t.recorded ++ [(i, n)] } := by
      rw [Sys.settleCall, hcall]
    rw [hsettle]
    refine hreturning.others (w := w) (fun v hv => ?_) fun c hc => ?_
    · rw [← hothers v hv]
      simp [Sys.setCall, Sys.setTask, hv]
    · simp [Sys.setCall, Sys.setTask] at hc
  | fetchFailed | fetchStopped | workerCancelled => cases hsmooth
  | _ => exact ⟨_, pool_step content h hsmooth rfl hs, rfl, rfl, hreturning⟩

/-- The workers fetch what is left, and `run` returns `True`. -/
theorem pool_succeeds (hsize : 0 < S.metadata.totalSize) (hlimit : 0 < S.cfg.flushLimit)
    (hcontent : content.length = S.size) (h : Working S s) (hreturning : Returning s)
    (hpause : s.ctl.ev.pauseEvent = true) :
    ∃ t, Leads (sysStep S) (Smooth S content) s t ∧ t.ctl = s.ctl ∧ t.pool.run = .ended (.returned true) := by
  have hblamed := (h.sturdy.steered h.thread).explained.blamed
  obtain ⟨q, hq, hend⟩ := pool_ends h.sturdy.going hblamed h.sturdy.answers h.stop hpause h.sturdy.workers
  obtain ⟨t, ht, heq, hctl, -, -⟩ := hq.simulates (sysStep S) (K := Smooth S content) (s := s)
    (R := fun x t => x = (s.ctl.ev, t.pool) ∧ t.ctl = s.ctl ∧ Working S t ∧ Returning t)
    ⟨rfl, rfl, h, hreturning⟩ (fun x a y t hR ha hs => by
      obtain ⟨rfl, hctl, hworking, hreturning⟩ := hR
      cases a with
      | events ev => cases ha
      | pool b =>
        obtain ⟨ev, r⟩ := y
        change poolStep s.ctl.ev t.pool b = some (ev, r) at hs
        cases smooth_events ha hs
        rw [← hctl] at hs
        obtain ⟨u, hu, huctl, rfl, hureturning⟩ := pool_simulated hsize hlimit hcontent hworking hreturning ha hs
        exact ⟨u, hu, rfl, huctl.trans hctl, hworking.leads hu huctl, hureturning⟩)
  have hpool : q = t.pool := congrArg Prod.snd heq
  exact ⟨t, ht, hctl, hpool ▸ hend⟩

end

end Mrdl.System
