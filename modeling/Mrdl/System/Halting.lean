import Mrdl.System.Finishing

/-! # A stopped run can always come to its end

Workers may have died or hang in a fetch, the writer's thread may be broken and its queue full, and the
hasher may wait for a chunk: once the two stop signals are out, none of that keeps `start` from its end.
-/

namespace Mrdl.System
open FileBytes Downloader Workers Writer Hasher Runs
set_option autoImplicit false

/-- A step that the program takes by itself without a failure. `start` hands on what has ended `pool.run`. -/
def Own (s : Sys) : SysAct → Prop
  | .control .poolRaises => True
  | .control .startCancelled => s.ctl.pc = .running
  | a => a.smooth = true

/-- The steps that `pool.run` still takes when it is told to stop. -/
def RunPc.left : RunPc → ℕ
  | .waiting => 2
  | .leaving _ => 1
  | .ended _ => 0

/-- The steps that `start` still takes when the hasher is stopped, if nothing goes wrong. -/
def Pc.left : Pc → ℕ
  | .saving => 5
  | .checking => 4
  | .closing => 3
  | .verifying => 2
  | .clearingState => 1
  | _ => 0

/-- From the save of the state on. -/
def closes : Pc → Bool
  | .saving | .checking | .closing | .verifying | .clearingState | .ended => true
  | _ => false

/-- As long as the stop event is set or about to be, so it is after a callback. -/
theorem Events.signalled {ev : Events} (h : .setStop ∈ ev.callbacks) : ∃ ev', ev.runCallback = some ev' ∧
    ev'.stopThread = ev.stopThread ∧ (ev'.stopEvent = true ∨ .setStop ∈ ev'.callbacks) ∧
    ev.callbacks.length = ev'.callbacks.length + 1 := by
  unfold Events.runCallback
  cases hcbs : ev.callbacks with
  | nil =>
    rw [hcbs] at h
    cases h
  | cons cb rest =>
    rw [hcbs] at h
    cases cb with
    | setStop => exact ⟨_, rfl, rfl, Or.inl rfl, rfl⟩
    | setPause | clearPause =>
      exact ⟨_, rfl, rfl, Or.inr ((List.mem_cons.mp h).resolve_left Callback.noConfusion), rfl⟩

section
variable {S : Setup} {s t : Sys}

/-! ## `pool.run` -/

/-- In `pool.run` with both stop signals out, or just out of it. -/
structure Halting (s : Sys) : Prop where
  started : s.ctl.writerStarted = true
  thread : s.ctl.ev.stopThread = true
  here : s.ctl.pc = .running ∧ (s.ctl.ev.stopEvent = true ∨ .setStop ∈ s.ctl.ev.callbacks) ∨
    s.ctl.pc = .stoppingWriter

def halting (s : Sys) : ℕ :=
  (if s.ctl.pc = .running then 1 else 0) + RunPc.left s.pool.run + s.ctl.ev.callbacks.length

theorem leave_left (p : WorkerPool) (result : RunResult) : RunPc.left (p.leave result).run < 2 := by
  unfold WorkerPool.leave
  split
  · exact Nat.two_pos
  · exact Nat.one_lt_two

theorem leavePool_ev (c : Control) (hthread : c.ev.stopThread = true) :
    c.leavePool.ev.stopThread = true ∧ c.leavePool.ev.callbacks = c.ev.callbacks := by
  unfold Control.leavePool
  cases c.success
  · exact ⟨rfl, rfl⟩
  · exact ⟨hthread, rfl⟩

/-- `start` goes on with what `run` has returned or raised. -/
theorem run_over {result : RunResult} (h : Halting s) (hpc : s.ctl.pc = .running)
    (hrun : s.pool.run = .ended result) :
    ∃ (a : Act) (c : Control), Own s (.control a) ∧ s.controlReady S a = true ∧
      controlStep s.ctl a = some c.leavePool ∧ c.writerStarted = true ∧ c.ev = s.ctl.ev := by
  cases result with
  | returned success =>
    exact ⟨.poolReturns success s.pool.lastError, _, rfl, decide_eq_true ⟨hrun, rfl⟩,
      at'_eq_some.mpr ⟨hpc, rfl⟩, h.started, rfl⟩
  | valueError =>
    exact ⟨.poolRaises, _, trivial, decide_eq_true hrun, at'_eq_some.mpr ⟨hpc, rfl⟩, h.started, rfl⟩
  | cancelled =>
    have hready : s.controlReady S .startCancelled = true := by
      rw [Sys.controlReady, hpc]
      exact decide_eq_true fun _ => hrun
    let c : Control := { s.ctl with paused := true, pending := some .cancelled }
    refine ⟨.startCancelled, if s.ctl.state = .downloading then { c with state := .paused } else c, hpc, hready,
      ?_, ?_, ?_⟩
    · simp only [controlStep, hpc, c]
    · split <;> exact h.started
    · split <;> rfl

theorem halting_step (h : Halting s) (hpc : s.ctl.pc = .running) :
    ∃ a t, Own s a ∧ sysStep S s a = some t ∧ Halting t ∧ halting t < halting s := by
  have hgo : blocksLoop s.ctl.pc = false := by
    rw [hpc]
    rfl
  cases hrun : s.pool.run with
  | ended result =>
    obtain ⟨a, c, ha, hready, hs, hstarted, hev⟩ := run_over (S := S) h hpc hrun
    obtain ⟨hthread, hcallbacks⟩ := leavePool_ev c (hev ▸ h.thread)
    refine ⟨.control a, { s with ctl := c.leavePool, saves := s.saves ++ s.savesWith a }, ha, ?_,
      ⟨hstarted, hthread, Or.inr rfl⟩, ?_⟩
    · rw [sysStep, if_pos hready, hs]
    · have hleft : c.leavePool.pc = .stoppingWriter := rfl
      simp only [halting, hleft, hpc, hcallbacks, hev, reduceCtorEq, if_true, if_false]
      omega
  | leaving result =>
    refine ⟨.pool .runEnds, { s with pool := { s.pool with run := .ended result } }, rfl, ?_,
      ⟨h.started, h.thread, h.here⟩, ?_⟩
    · rw [sysStep, if_pos ⟨h.started, hgo, rfl⟩, poolStep, hrun]
      rfl
    · simp [halting, hrun, RunPc.left]
  | waiting =>
    by_cases hstop : s.ctl.ev.stopEvent = true
    · refine ⟨.pool (.runWakes false), { s with pool := s.pool.leave (.returned false) }, rfl, ?_,
        ⟨h.started, h.thread, h.here⟩, ?_⟩
      · rw [sysStep, if_pos ⟨h.started, hgo, rfl⟩, poolStep, if_pos ⟨hrun, hstop⟩]
        rfl
      · have hleft := leave_left s.pool (.returned false)
        simp only [halting, hrun]
        have htwo : RunPc.left .waiting = 2 := rfl
        omega
    · -- the stop event is still to be set by the loop
      have hsignal := (h.here.resolve_right (by rw [hpc]; exact Pc.noConfusion)).2.resolve_left hstop
      obtain ⟨ev, hev, hthread, hset, hlength⟩ := Events.signalled hsignal
      refine ⟨.control .callback, { s with ctl := { s.ctl with ev := ev }, saves := s.saves ++ [] }, rfl, ?_,
        ⟨h.started, hthread.trans h.thread, Or.inl ⟨hpc, hset⟩⟩, ?_⟩
      · have hready : s.controlReady S .callback = true := by
          rw [Sys.controlReady, hgo]
          rfl
        rw [sysStep, if_pos hready, controlStep, hev]
        rfl
      · simp only [halting, hlength]
        omega

/-- `pool.run` comes to its end. -/
theorem pool_halts (h : Halting s) : ∃ t, Leads (sysStep S) Own s t ∧ Halting t ∧ t.ctl.pc = .stoppingWriter := by
  obtain ⟨t, ht, hhalting, hpc⟩ := leads_of_measure (sysStep S) (K := Own) (P := Halting)
    (Q := fun t => t.ctl.pc ≠ .running) halting
    (fun t ht hq => halting_step ht (not_not.mp hq)) h
  exact ⟨t, ht, hhalting, hhalting.here.resolve_left fun hrunning => hpc hrunning.1⟩

/-! ## From the hasher to the result -/

/-- What `start` does next. -/
def closingAct (S : Setup) (s : Sys) : Act :=
  match s.ctl.pc with
  | .saving => .stateSaved
  | .checking => .check
  | .closing => .sessionClosed
  | .verifying => .finalizeReturns (s.verification S)
  | _ => .stateCleared true

/-- `start` has come nearer to its end. -/
structure Nearer (pc : Pc) (c : Control) : Prop where
  closes : closes c.pc = true
  left : Pc.left c.pc < Pc.left pc

theorem Nearer.of_pc {pc : Pc} {c : Control} (next : Pc)
    (h : Mrdl.System.closes next = true ∧ Pc.left next < Pc.left pc) (hpc : c.pc = next) : Nearer pc c :=
  ⟨hpc ▸ h.1, hpc ▸ h.2⟩

theorem closing_goes (h : closes s.ctl.pc = true) (hne : s.ctl.pc ≠ .ended) :
    ∃ c, Own s (.control (closingAct S s)) ∧ s.controlReady S (closingAct S s) = true ∧
      controlStep s.ctl (closingAct S s) = some c ∧ Nearer s.ctl.pc c := by
  unfold closingAct
  cases hpc : s.ctl.pc with
  | saving => exact ⟨_, rfl, rfl, at'_eq_some.mpr ⟨hpc, rfl⟩, .of_pc .checking (by decide) rfl⟩
  | checking =>
    refine ⟨_, rfl, rfl, at'_eq_some.mpr ⟨hpc, rfl⟩, ?_⟩
    refine checkEnd_cases (fun _ => .of_pc .closing (by decide) rfl) fun _ => ?_
    exact transitionTo_cases (.of_pc .closing (by decide) rfl) fun _ => .of_pc .ended (by decide) rfl
  | closing =>
    refine ⟨_, rfl, rfl, at'_eq_some.mpr ⟨hpc, rfl⟩, ?_⟩
    split
    · exact .of_pc .ended (by decide) rfl
    · split
      · exact .of_pc .verifying (by decide) rfl
      · exact .of_pc .ended (by decide) rfl
  | verifying =>
    refine ⟨_, rfl, decide_eq_true rfl, at'_eq_some.mpr ⟨hpc, rfl⟩, ?_⟩
    cases s.verification S with
    | verified => exact .of_pc .clearingState (by decide) rfl
    | raises => exact .of_pc .ended (by decide) rfl
    | mismatch | incomplete text =>
      exact transitionTo_cases (P := Nearer .verifying) (.of_pc .ended (by decide) rfl)
        fun _ => .of_pc .ended (by decide) rfl
  | clearingState =>
    refine ⟨_, rfl, rfl, at'_eq_some.mpr ⟨hpc, rfl⟩, ?_⟩
    rw [if_pos rfl]
    exact transitionTo_cases (.of_pc .ended (by decide) rfl) fun _ => .of_pc .ended (by decide) rfl
  | ended => exact absurd hpc hne
  | created | clearing | loading | probing | preparing | loadingState | running | stoppingWriter | stoppingHasher =>
    rw [hpc] at h
    cases h

theorem start_closes (h : closes s.ctl.pc = true) : ∃ t, Leads (sysStep S) Own s t ∧ t.ctl.pc = .ended := by
  obtain ⟨t, ht, -, hpc⟩ := leads_of_measure (sysStep S) (K := Own) (P := fun t => closes t.ctl.pc = true)
    (Q := fun t => t.ctl.pc = .ended) (fun t => Pc.left t.ctl.pc) (fun t hcloses hne => by
      obtain ⟨c, ha, hready, hs, hnearer⟩ := closing_goes (S := S) hcloses hne
      refine ⟨_, { t with ctl := c, saves := t.saves ++ t.savesWith (closingAct S t) }, ha, ?_, hnearer.closes,
        hnearer.left⟩
      rw [sysStep, if_pos hready, hs]) h
  exact ⟨t, ht, hpc⟩

/-- With the thread event set `_hasher.stop()` comes back. -/
theorem hasher_stopped (h : Joining s) (hthread : s.ctl.ev.stopThread = true) :
    ∃ t, Leads (sysStep S) Own s t ∧ t.ctl.pc = .saving := by
  have hend : ∃ t, Leads (sysStep S) Own s t ∧ t.ctl.pc = .stoppingHasher ∧
      t.controlReady S .hasherStopped = true := by
    cases hhash : S.hash with
    | none =>
      refine ⟨s, .refl s, h.here, ?_⟩
      rw [Sys.controlReady, hhash]
      rfl
    | some x =>
      have hjob := job_of_hash hhash
      obtain ⟨t, ht, hdead⟩ := hasher_ends hjob h (Or.inl hthread)
      have hjoining : Joining t := ht.keeps h fun _ _ _ h ha hs => (ofThreads_joining h ha hs).1
      refine ⟨t, ht.imp fun u a ha => ?_, hjoining.here, ?_⟩
      · cases a with
        | writer => rfl
        | hasher b => exact bne_iff_ne.mpr ha
        | _ => exact absurd ha id
      · rw [Sys.controlReady, hdead]
        exact Bool.or_true _
  obtain ⟨t, ht, hpc, hready⟩ := hend
  exact ⟨_, ht.trans (control_leads (a := .hasherStopped) rfl hready (at'_eq_some.mpr ⟨hpc, rfl⟩)), rfl⟩

/-! ## From any place -/

/-- The steps that `start` takes by itself once the thread event is set and it has left `pool.run`. -/
theorem late_ends (h : Stilled s.ctl) (hlate : late s.ctl.pc = true) (hthread : s.ctl.ev.stopThread = true) :
    ∃ t, Leads (sysStep S) Own s t ∧ t.ctl.pc = .ended := by
  have hjoined : ∀ u : Sys, Joining u → u.ctl.ev.stopThread = true →
      ∃ t, Leads (sysStep S) Own u t ∧ t.ctl.pc = .ended := by
    intro u hu hset
    obtain ⟨v, hv, hpc⟩ := hasher_stopped hu hset
    obtain ⟨t, ht, hend⟩ := start_closes (S := S) (s := v) (by rw [hpc]; rfl)
    exact ⟨t, hv.trans ht, hend⟩
  have hstarted := fun hblocks => h.started (Or.inr hblocks)
  cases hpc : s.ctl.pc with
  | stoppingWriter =>
    obtain ⟨t, ht, hend⟩ := hjoined { s with ctl := s.ctl.goto .stoppingHasher, saves := s.saves ++ [] }
      ⟨rfl, hstarted (by rw [hpc]; rfl)⟩ hthread
    exact ⟨t, (control_leads (a := .writerStopped) rfl rfl (at'_eq_some.mpr ⟨hpc, rfl⟩)).trans ht, hend⟩
  | stoppingHasher => exact hjoined s ⟨hpc, hstarted (by rw [hpc]; rfl)⟩ hthread
  | saving | checking | closing | verifying | clearingState | ended => exact start_closes (by rw [hpc]; rfl)
  | created | clearing | loading | probing | preparing | loadingState | running =>
    rw [hpc] at hlate
    cases hlate

theorem stilled_of_run {as : List SysAct} (hrun : exec (sysStep S) (Sys.init S) as = some s) : Stilled s.ctl :=
  exec_invariant (P := fun s => Stilled s.ctl) (fun _ _ _ h hs => sysStep_stilled h hs) (Stilled.init S) hrun

/-- Whatever the workers and the two threads are doing, or have died of: a run that is told to stop can come to
its end by what the program does itself. -/
theorem stopped_run_ends {as : List SysAct} (hrun : exec (sysStep S) (Sys.init S) as = some s)
    (hhere : s.ctl.pc = .running ∧ (s.ctl.ev.stopEvent = true ∨ .setStop ∈ s.ctl.ev.callbacks) ∨
      late s.ctl.pc = true) (hthread : s.ctl.ev.stopThread = true) :
    ∃ t, Leads (sysStep S) Own s t ∧ t.ctl.pc = .ended := by
  have hstilled := stilled_of_run hrun
  rcases hhere with hhere | hlate
  · have hstarted := hstilled.started (Or.inl hhere.1)
    obtain ⟨u, hu, hhalting, hpc⟩ := pool_halts (S := S) ⟨hstarted, hthread, Or.inl hhere⟩
    have hstilled' : Stilled u.ctl := hu.keeps hstilled fun _ _ _ h _ hs => sysStep_stilled h hs
    obtain ⟨t, ht, hend⟩ := late_ends (S := S) hstilled' (by rw [hpc]; rfl) hhalting.thread
    exact ⟨t, hu.trans ht, hend⟩
  · exact late_ends hstilled hlate hthread

/-- What `stop` and `cancel` do to a download that is under way or paused. -/
theorem call_signals {c : Control} {a : Act} (hpc : c.pc ≠ .created)
    (hstate : c.state = .downloading ∨ c.state = .paused) (hcall : a = .stop ∨ a = .cancel) :
    ∃ state, controlStep c a = some { c with ev := Control.signalStop c.ev, state := state } := by
  rcases hcall with rfl | rfl
  · exact ⟨.paused, by simp only [controlStep, if_neg hpc, Control.stop, if_pos hstate]⟩
  · have hvalid : .cancelled ∈ validTransitions c.state := by
      rcases hstate with hs | hs <;> rw [hs] <;> decide
    exact ⟨.cancelled, by simp only [controlStep, if_neg hpc, Control.cancel, if_pos hvalid]⟩

/-- One call of `stop` or `cancel` is enough to end a run, wherever it stands and whatever keeps it from going on. -/
theorem stop_ends {as : List SysAct} {a : Act} (hrun : exec (sysStep S) (Sys.init S) as = some s)
    (hpc : s.ctl.pc = .running ∨ late s.ctl.pc = true)
    (hstate : s.ctl.state = .downloading ∨ s.ctl.state = .paused) (hcall : a = .stop ∨ a = .cancel) :
    ∃ u t, sysStep S s (.control a) = some u ∧ Leads (sysStep S) Own u t ∧ t.ctl.pc = .ended := by
  have hcreated : s.ctl.pc ≠ .created := by
    intro hc
    rw [hc] at hpc
    rcases hpc with hpc | hpc <;> cases hpc
  obtain ⟨state, hs⟩ := call_signals hcreated hstate hcall
  have hready : s.controlReady S a = true := by
    rcases hcall with rfl | rfl <;> rfl
  let u : Sys :=
    { s with
      ctl := { s.ctl with ev := Control.signalStop s.ctl.ev, state := state }
      saves := s.saves ++ s.savesWith a }
  have hstep : sysStep S s (.control a) = some u := by
    rw [sysStep, if_pos hready, hs]
  have hsignal : .setStop ∈ u.ctl.ev.callbacks := List.mem_append_right _ (List.mem_cons_self ..)
  have hcalled : exec (sysStep S) (Sys.init S) (as ++ [.control a]) = some u :=
    exec_append.mpr ⟨s, hrun, exec_cons.mpr ⟨u, hstep, rfl⟩⟩
  obtain ⟨t, ht, hend⟩ :=
    stopped_run_ends hcalled (hpc.imp_left fun hrunning => ⟨hrunning, Or.inr hsignal⟩) rfl
  exact ⟨u, t, hstep, ht, hend⟩

end

/-- Even where `start` hangs in `_hasher.stop()`. -/
theorem stop_ends_chunkLost : ∃ s u t,
    exec (sysStep twoBytesHashed) (Sys.init twoBytesHashed) chunkLost = some s ∧
      s.ctl.pc = .stoppingHasher ∧ sysStep twoBytesHashed s (.control .stop) = some u ∧
      Leads (sysStep twoBytesHashed) Own u t ∧ t.ctl.pc = .ended := by
  obtain ⟨s, hrun, hpc, hstate⟩ :
      ∃ s, exec (sysStep twoBytesHashed) (Sys.init twoBytesHashed) chunkLost = some s ∧
        s.ctl.pc = .stoppingHasher ∧ s.ctl.state = .downloading :=
    ⟨(exec (sysStep twoBytesHashed) (Sys.init twoBytesHashed) chunkLost).get (by decide +kernel),
      (Option.some_get _).symm, by decide +kernel, by decide +kernel⟩
  obtain ⟨u, t, h⟩ := stop_ends (a := .stop) hrun (Or.inr (by rw [hpc]; rfl)) (Or.inl hstate) (Or.inl rfl)
  exact ⟨s, u, t, hrun, hpc, h⟩

end Mrdl.System
