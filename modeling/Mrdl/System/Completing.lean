import Mrdl.System.Finishing

/-! # A download can always be completed

Whatever has failed so far, as long as `start` is in `pool.run`, nothing is being stopped and no fetch under
way is about to fail, the rest of the run may go well: the workers fetch what is left, the writer's thread
carries out what it was handed, the hasher's comes to its verdict, and `start` returns `COMPLETED`. So the
program gets into no state, before it gives up, in which a part of it waits for something that cannot come.
-/

namespace Mrdl.System
open FileBytes Downloader Workers Writer Hasher Runs
set_option autoImplicit false

/-- `start` has come out of `pool.run` with a success, and was not called since. -/
structure Succeeded (c : Control) : Prop where
  success : c.success = true
  state : c.state = .downloading
  paused : c.paused = false
  pending : c.pending = none
  error : c.writerError = none

section
variable {S : Setup} {content : Bytes} {s t : Sys} {job : HashJob}

/-! ## The callbacks of the event loop -/

/-- A download that is under way, with no fetch that will fail. -/
structure Downloading (S : Setup) (s : Sys) : Prop where
  working : Working S s
  returning : Returning s
  state : s.ctl.state = .downloading

theorem Downloading.pauseAfter (h : Downloading S s) : s.ctl.ev.pauseAfter = true := by
  refine (h.working.sturdy.steered h.working.thread).gated.pause h.working.thread ?_
  rw [h.state]
  exact DownloadState.noConfusion

/-- The event loop does what it was asked to. -/
theorem callback_runs (h : Downloading S s) (hcbs : s.ctl.ev.callbacks ≠ []) :
    ∃ a t, Smooth S content s a ∧ sysStep S s a = some t ∧ Downloading S t ∧
      t.ctl.ev.callbacks.length < s.ctl.ev.callbacks.length := by
  obtain ⟨ev, hev⟩ : ∃ ev, s.ctl.ev.runCallback = some ev := by
    unfold Events.runCallback
    split
    · rename_i hnil
      exact absurd hnil hcbs
    all_goals exact ⟨_, rfl⟩
  have hready : s.controlReady S .callback = true := by
    rw [Sys.controlReady, h.working.here]
    rfl
  have hstep : sysStep S s (.control .callback) = some
      { s with ctl := { s.ctl with ev := ev }, saves := s.saves ++ s.savesWith .callback } := by
    rw [sysStep, if_pos hready, controlStep, hev]
    rfl
  have hforewarned := (h.working.sturdy.steered h.working.thread).explained.forewarned
  refine ⟨.control .callback, _, .of_smooth rfl (fun _ _ => SysAct.noConfusion) (by simp), hstep,
    ⟨⟨h.working.sturdy.step rfl hstep, h.working.here, ?_, ?_⟩, h.returning, h.state⟩, ?_⟩
  · exact hforewarned.unstopped h.working.thread h.working.stop hev
  · exact (runCallback_stopThread hev).trans h.working.thread
  · rw [(Events.runCallback_pauseAfter hev).2]
    exact Nat.lt_succ_self _

variable (content) in
theorem callbacks_run (h : Downloading S s) :
    ∃ t, Leads (sysStep S) (Smooth S content) s t ∧ Downloading S t ∧ t.ctl.ev.pauseEvent = true := by
  obtain ⟨t, ht, hdown, hnil⟩ := leads_of_measure (sysStep S) (K := Smooth S content) (P := Downloading S)
    (Q := fun t => t.ctl.ev.callbacks = []) (fun t => t.ctl.ev.callbacks.length)
    (fun _ => callback_runs) h
  have hpause := hdown.pauseAfter
  rw [Events.pauseAfter, hnil] at hpause
  exact ⟨t, ht, hdown, hpause⟩

/-! ## The steps of `start` -/

variable (content) in
theorem start_goes {a : Act} {c : Control} (hsmooth : Act.smooth a = true)
    (hwaits : a = .writerStopped → s.writer.pc = .exited) (hready : s.controlReady S a = true)
    (hs : controlStep s.ctl a = some c) :
    ∃ saves, Leads (sysStep S) (Smooth S content) s { s with ctl := c, saves := saves } :=
  ⟨_, control_leads ⟨hsmooth, trivial, fun heq => hwaits (SysAct.control.inj heq)⟩ hready hs⟩

/-- `run` returns `True`, and `start` goes on to stop the writer. -/
theorem pool_returns (hsize : 0 < S.metadata.totalSize) (hlimit : 0 < S.cfg.flushLimit)
    (hcontent : content.length = S.size) (h : Downloading S s) :
    ∃ t, Leads (sysStep S) (Smooth S content) s t ∧ t.ctl.pc = .stoppingWriter ∧ Succeeded t.ctl ∧
      t.ctl.ev.stopThread = false ∧ t.stopPut = false := by
  obtain ⟨u, hu, hdown, hpause⟩ := callbacks_run content h
  obtain ⟨v, hv, hctl, hend⟩ := pool_succeeds hsize hlimit hcontent hdown.working hdown.returning hpause
  have hworking := hdown.working.leads hv hctl
  have hexplained := (hworking.sturdy.steered hworking.thread).explained
  have hclean : v.pool.lastError = none := by
    refine (hexplained.blamed.clean ?_).2
    rw [hend]
    rfl
  have hstage := hexplained.reported.stage
  rw [InStage, hworking.here] at hstage
  have herror : v.ctl.writerError = none := by
    by_contra hne
    have hset := (hworking.sturdy.steered hworking.thread).gated.error hne
    rw [hworking.thread] at hset
    cases hset
  have hready : v.controlReady S (.poolReturns true none) = true := decide_eq_true ⟨hend, hclean.symm⟩
  obtain ⟨saves, hw⟩ := start_goes content (a := .poolReturns true none) rfl Act.noConfusion hready
    (at'_eq_some.mpr ⟨hworking.here, rfl⟩)
  refine ⟨_, hu.trans (hv.trans hw), rfl, ⟨rfl, ?_, hstage.paused, hstage.pending, herror⟩, hworking.thread,
    hworking.not_put⟩
  change v.ctl.state = .downloading
  rw [hctl]
  exact hdown.state

/-- What `start` still does when the hasher of a run that succeeded is stopped. -/
def closingActs : List Act :=
  [.hasherStopped, .stateSaved, .check, .sessionClosed, .finalizeReturns .verified, .stateCleared true]

theorem Succeeded.completes {c : Control} (h : Succeeded c) (hpc : c.pc = .stoppingHasher) :
    ∃ d r, exec controlStep c closingActs = some d ∧ d.outcome = some (.returned r) ∧ r.status = .completed := by
  let r : DownloadResult := ⟨.completed, true, c.lastError, c.computedHash⟩
  let d : Control :=
    { c with
      ev := c.ev.stopBoth
      state := .completed
      pc := .ended
      cleared := true
      outcome := some (.returned r) }
  refine ⟨d, r, ?_, rfl, rfl⟩
  simp [closingActs, exec, controlStep, Control.at', Control.goto, Control.checkEnd, Control.closeSession,
    Control.transitionTo, Control.finish, validTransitions, hpc, h.success, h.state, h.paused, h.pending, h.error,
    d, r]

/-- A thread that was not told to stop ends with a verdict, unless it raises. -/
def Lively (s : Sys) : Prop := s.ctl.ev.stopThread = false → s.hasher.Live s.ctl.ev.stopThread

theorem Lively.step {a : SysAct} (h : Lively s) (hc : Checked S job s) (hjob : S.job = some job)
    (ha : a ≠ .hasher .die) (hs : sysStep S s a = some t) : Lively t := by
  intro hstop
  have hbefore : s.ctl.ev.stopThread = false := by
    by_contra hne
    rw [(sysStep_le hc.sound.ordered hs).stopThread (Bool.eq_true_of_not_eq_false hne)] at hstop
    cases hstop
  have hlive := h hbefore
  have hkeeps : t.hasher = s.hasher → t.hasher.Live t.ctl.ev.stopThread := by
    intro heq
    rw [heq, hstop, ← hbefore]
    exact hlive
  cases sysStep_moves hs with
  | hasher b job' hasher job_eq hstep =>
    rw [hjob] at job_eq
    cases job_eq
    change hasher.Live s.ctl.ev.stopThread
    rw [hbefore] at hstep ⊢
    exact (hc.fed hlive).lively (fun heq => ha (congrArg SysAct.hasher heq)) hstep
  | pool b => exact hkeeps (settleCall_rest s b).2.1
  | _ => exact hkeeps rfl

/-- Everything a verdict rests on. -/
structure Vouched (S : Setup) (content : Bytes) (job : HashJob) (s : Sys) : Prop where
  trusted : Trusted S content s
  checked : Checked S job s
  lively : Lively s

theorem Vouched.step {a : SysAct} (hsize : 0 < S.metadata.totalSize) (hchunk : 0 < S.cfg.chunkSize)
    (hcontent : content.length = S.size) (hjob : S.job = some job) (h : Vouched S content job s)
    (hright : ReceivesRight S content s.traffic a) (ha : a ≠ .hasher .die) (hs : sysStep S s a = some t) :
    Vouched S content job t :=
  ⟨h.trusted.step hsize hchunk hcontent hright hs, h.checked.step hsize hchunk hjob hs,
    h.lively.step h.checked hjob ha hs⟩

theorem Vouched.init (hjob : S.job = some job) (hresumed : ∀ i ∈ S.resumed, Holds S content S.file i) :
    Vouched S content job (Sys.init S) :=
  ⟨Trusted.init hresumed, .init hjob, fun hstop => Or.inr ⟨hstop, HasherPc.noConfusion⟩⟩

theorem Vouched.leads (hsize : 0 < S.metadata.totalSize) (hchunk : 0 < S.cfg.chunkSize)
    (hcontent : content.length = S.size) (hjob : S.job = some job) (h : Vouched S content job s)
    (hst : Leads (sysStep S) (Smooth S content) s t) : Vouched S content job t :=
  hst.keeps h fun _ _ _ h ha hs => h.step hsize hchunk hcontent hjob ha.right (by
    rintro rfl
    cases ha.smooth) hs

/-- The end of `pool.run` and the two threads leave `start` with nothing that went wrong. -/
structure Joined (S : Setup) (s : Sys) : Prop where
  joining : Joining s
  succeeded : Succeeded s.ctl
  thread : s.ctl.ev.stopThread = false

theorem Joined.ofThreads {a : SysAct} (h : Joined S s) (ha : a.ofThreads) (hs : sysStep S s a = some t) :
    Joined S t := by
  obtain ⟨hjoining, hev⟩ := ofThreads_joining h.joining ha hs
  refine ⟨hjoining, ?_, hev ▸ h.thread⟩
  cases a with
  | writer | hasher =>
    cases sysStep_moves hs
    exact { h.succeeded with }
  | _ => exact absurd ha id

end

/-! ## A fetch that failed, and a pause -/

end Mrdl.System
