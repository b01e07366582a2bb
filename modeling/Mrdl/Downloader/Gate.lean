import Mrdl.Downloader.Results

/-! # Where the pause event ends up

`pause` and `resume` change the state at once and only ask the event loop to change the pause event. Once the
loop has done what it was asked to, the event is set unless the download is paused or being stopped.
-/

namespace Mrdl

/-- The pause event after the callback, if it was `before`. -/
def Callback.leavesPause (before : Bool) : Callback → Bool
  | .setStop => before
  | .setPause => true
  | .clearPause => false

/-- The pause event once all callbacks have run. -/
def Events.pauseAfter (ev : Events) : Bool := ev.callbacks.foldl Callback.leavesPause ev.pauseEvent

theorem Events.pauseAfter_schedule (ev : Events) (cbs : List Callback) :
    (ev.schedule cbs).pauseAfter = cbs.foldl Callback.leavesPause ev.pauseAfter := List.foldl_append

theorem Events.runCallback_pauseAfter {ev ev' : Events} (h : ev.runCallback = some ev') :
    ev'.pauseAfter = ev.pauseAfter ∧ ev.callbacks.length = ev'.callbacks.length + 1 := by
  unfold Events.runCallback at h
  split at h <;> cases h <;> rename_i hcbs <;> simp only [Events.pauseAfter, hcbs] <;> exact ⟨rfl, rfl⟩

end Mrdl

namespace Mrdl.Downloader
set_option autoImplicit false

/-- The pause event is set or about to be, unless the download is paused or being stopped. A disk error stops
it. -/
structure Gated (c : Control) : Prop where
  pause : c.ev.stopThread = false → c.state ≠ .paused → c.ev.pauseAfter = true
  error : c.writerError ≠ none → c.ev.stopThread = true
  created : c.pc = .created → c.writerError = none

section
variable {told calm : Prop} {c d : Control}

theorem Opening.not_paused (h : Opening calm c) : c.state ≠ .paused := by
  rcases h.state with hs | hs | hs <;> rw [hs] <;> decide

/-- As long as `start` goes on, with the events and the state as they are. -/
theorem Gated.goOn (h : Gated c) (hev : d.ev = c.ev) (hstate : d.state = c.state ∨ c.state ≠ .paused)
    (herror : d.writerError = c.writerError) (hpc : d.pc ≠ .created) : Gated d := by
  refine ⟨fun hstop hpaused => ?_, fun he => ?_, fun hc => absurd hc hpc⟩
  · rw [hev] at hstop ⊢
    exact h.pause hstop (hstate.elim (fun heq => heq ▸ hpaused) id)
  · rw [hev]
    exact h.error (herror ▸ he)

theorem Gated.stopped (hstop : d.ev.stopThread = true) (hpc : d.pc ≠ .created) : Gated d := by
  refine ⟨fun hno => ?_, fun _ => hstop, fun hc => absurd hc hpc⟩
  rw [hstop] at hno
  cases hno

theorem Gated.raise (h : Gated c) (x : Raised) : Gated (c.raise x) :=
  h.goOn rfl (Or.inl rfl) rfl Pc.noConfusion

theorem Gated.leaves (h : Gated c) : Gated c.leavePool := by
  unfold Control.leavePool
  cases c.success with
  | true => exact h.goOn rfl (Or.inl rfl) rfl Pc.noConfusion
  | false => exact .stopped rfl Pc.noConfusion

/-- The events are made anew when `start` is entered. -/
theorem Gated.enters (h : Gated c) (hpc : c.pc = .created) : Gated { c with ev := {} } := by
  refine ⟨fun _ _ => rfl, fun he => absurd (h.created hpc) he, fun hc => h.created hc⟩

theorem Gated.transition {new : DownloadState} {next : Control → Control} (h : Gated c)
    (hnext : Gated (next { c with state := new })) : Gated (c.transitionTo new next) :=
  transitionTo_cases hnext h.raise

/-- The calls from outside. -/
theorem Gated.called {a : Act} (h : Gated c) (hcall : a.isCall = true) (hs : controlStep c a = some d) :
    Gated d := by
  cases a with
  | pause =>
    simp only [controlStep, Option.ite_none_left_eq_some, Option.some.injEq, Control.pause] at hs
    obtain ⟨-, rfl⟩ := hs
    split
    · exact ⟨fun _ hne => absurd rfl hne, h.error, h.created⟩
    · exact h
  | resume =>
    simp only [controlStep, Option.ite_none_left_eq_some, Option.some.injEq, Control.resume] at hs
    obtain ⟨-, rfl⟩ := hs
    split
    · exact ⟨fun _ _ => Events.pauseAfter_schedule _ _, h.error, h.created⟩
    · exact h
  | stop | cancel =>
    simp only [controlStep, Option.ite_none_left_eq_some, Option.some.injEq, Control.stop, Control.cancel] at hs
    obtain ⟨hpc, rfl⟩ := hs
    split
    · exact .stopped rfl hpc
    · exact h
  | _ => cases hcall

theorem Gated.step {a : Act} (h : Gated c) (hr : Reported told calm c) (hs : controlStep c a = some d) :
    Gated d := by
  have hstage := hr.stage
  cases a with
  | enter dest =>
    obtain ⟨hpc, rfl⟩ := at'_eq_some.mp hs
    have hfresh := h.enters hpc
    rw [InStage, hpc] at hstage
    cases dest with
    | missing => exact hfresh.transition (hfresh.goOn rfl (Or.inr hstage.not_paused) rfl Pc.noConfusion)
    | overwritten | kept => exact hfresh.goOn rfl (Or.inl rfl) rfl Pc.noConfusion
  | clearReturns ok =>
    obtain ⟨hpc, rfl⟩ := at'_eq_some.mp hs
    rw [InStage, hpc] at hstage
    cases ok with
    | true => exact h.transition (h.goOn rfl (Or.inr hstage.not_paused) rfl Pc.noConfusion)
    | false => exact h.raise _
  | loadReturns found =>
    obtain ⟨hpc, rfl⟩ := at'_eq_some.mp hs
    rw [InStage, hpc] at hstage
    cases found with
    | none => exact h.raise _
    | some ok =>
      cases ok with
      | true => exact h.transition (h.goOn rfl (Or.inr hstage.not_paused) rfl Pc.noConfusion)
      | false => exact h.raise _
  | probeReturns result =>
    obtain ⟨hpc, rfl⟩ := at'_eq_some.mp hs
    rw [InStage, hpc] at hstage
    cases result with
    | metadata | failed text => exact h.transition (h.goOn rfl (Or.inr hstage.not_paused) rfl Pc.noConfusion)
    | raises => exact h.raise _
  | fileReady ok =>
    obtain ⟨-, rfl⟩ := at'_eq_some.mp hs
    cases ok with
    | true => exact h.goOn rfl (Or.inl rfl) rfl Pc.noConfusion
    | false => exact h.raise _
  | stateReady ok =>
    obtain ⟨-, rfl⟩ := at'_eq_some.mp hs
    cases ok with
    | true => exact h.goOn rfl (Or.inl rfl) rfl Pc.noConfusion
    | false => exact h.raise _
  | poolReturns success error =>
    obtain ⟨hpc, rfl⟩ := at'_eq_some.mp hs
    exact Gated.leaves (h.goOn rfl (Or.inl rfl) rfl (by simp [hpc]))
  | poolRaises =>
    obtain ⟨hpc, rfl⟩ := at'_eq_some.mp hs
    exact Gated.leaves (h.goOn rfl (Or.inl rfl) rfl (by simp [hpc]))
  | writerStopped | hasherStopped | stateSaved =>
    obtain ⟨-, rfl⟩ := at'_eq_some.mp hs
    exact h.goOn rfl (Or.inl rfl) rfl Pc.noConfusion
  | check =>
    obtain ⟨hpc, rfl⟩ := at'_eq_some.mp hs
    refine checkEnd_cases (fun text => .stopped rfl Pc.noConfusion) fun text => ?_
    have hsame : Gated { c with lastError := text } := h.goOn rfl (Or.inl rfl) rfl (by simp [hpc])
    exact hsame.transition (.stopped rfl Pc.noConfusion)
  | sessionClosed =>
    obtain ⟨-, rfl⟩ := at'_eq_some.mp hs
    split
    · exact h.raise _
    · split <;> exact h.goOn rfl (Or.inl rfl) rfl Pc.noConfusion
  | finalizeReturns v =>
    obtain ⟨hpc, rfl⟩ := at'_eq_some.mp hs
    rw [InStage, hpc] at hstage
    cases v with
    | verified => exact h.goOn rfl (Or.inl rfl) rfl Pc.noConfusion
    | mismatch | incomplete text =>
      refine h.transition ?_
      exact .stopped hstage.stopped Pc.noConfusion
    | raises => exact h.raise _
  | stateCleared ok =>
    obtain ⟨hpc, rfl⟩ := at'_eq_some.mp hs
    rw [InStage, hpc] at hstage
    cases ok with
    | true =>
      rw [if_pos rfl]
      refine h.transition ?_
      exact .stopped hstage.stopped Pc.noConfusion
    | false => exact h.raise _
  | startCancelled =>
    simp only [controlStep] at hs
    split at hs <;> cases hs
    case h_8 hpc =>
      rw [InStage, hpc] at hstage
      have hsuccess := hstage.success
      split <;> refine .stopped ?_ Pc.noConfusion <;> simp only [Control.leavePool, hsuccess] <;> rfl
    case h_9 => exact h
    all_goals exact h.raise _
  | pause | resume | stop | cancel => exact h.called rfl hs
  | callback =>
    simp only [controlStep, Option.map_eq_some_iff] at hs
    obtain ⟨ev, hev, rfl⟩ := hs
    refine ⟨fun hstop hpaused => ?_, fun he => (Events.le_runCallback hev).stopThread (h.error he), h.created⟩
    rw [(Events.runCallback_pauseAfter hev).1]
    exact h.pause (runCallback_stopThread hev ▸ hstop) hpaused
  | poolStops =>
    simp only [controlStep, Option.ite_none_right_eq_some, Option.some.injEq] at hs
    obtain ⟨-, rfl⟩ := hs
    exact ⟨fun hno => (by cases hno), fun _ => rfl, h.created⟩
  | writerFails e =>
    simp only [controlStep, Option.ite_none_right_eq_some, Option.some.injEq] at hs
    obtain ⟨⟨hstarted, -⟩, rfl⟩ := hs
    refine .stopped rfl fun hpc => ?_
    change c.pc = .created at hpc
    rw [InStage, hpc] at hstage
    rw [hstage.started] at hstarted
    cases hstarted
  | digestComputed x =>
    simp only [controlStep, Option.ite_none_right_eq_some, Option.some.injEq] at hs
    obtain ⟨-, rfl⟩ := hs
    exact ⟨h.pause, h.error, h.created⟩

/-- Without the thread event no callback sets the stop event. -/
theorem Forewarned.unstopped {ev ev' : Events} {P : Prop} (h : Forewarned ev P) (hthread : ev.stopThread = false)
    (hstop : ev.stopEvent = false) (hs : ev.runCallback = some ev') : ev'.stopEvent = false := by
  unfold Events.runCallback at hs
  split at hs
  · cases hs
  · rename_i hcbs
    have htold := h.1 (by rw [hcbs]; exact List.mem_cons_self ..)
    rw [hthread] at htold
    cases htold
  all_goals
    cases hs
    exact hstop

theorem Gated.fresh : Gated {} := ⟨fun _ _ => rfl, fun he => absurd rfl he, fun _ => rfl⟩

end

end Mrdl.Downloader
