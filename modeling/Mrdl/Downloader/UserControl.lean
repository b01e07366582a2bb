import Mrdl.Downloader.Moves
import Mrdl.Foundations.Runs

/-! # The state machine under user control

In a run without disk errors the state of the download is tied to the place where `start` stands: it
is the state `start` last gave it, or one that a call from outside made of it. From `probing` on a
`cancel` can come between, from `downloading` on a pause too. The transitions at the end of the pool
look at the state first; the others do not, and they are the only ones that can raise.
-/

namespace Mrdl.Downloader
open Runs
set_option autoImplicit false

/-- The states the download can be in at each place of a run without disk errors. -/
def statesAt (success : Bool) : Pc → List DownloadState
  | .created => [.idle]
  | .clearing | .loading => [.idle, .cancelled]
  | .probing => [.probing, .cancelled]
  | .preparing | .loadingState | .running | .stoppingWriter | .stoppingHasher | .saving | .checking
  | .verifying | .clearingState => [.downloading, .paused, .cancelled]
  | .closing =>
      if success then [.downloading, .paused, .cancelled]
      else [.downloading, .paused, .cancelled, .failed]
  | .ended => [.idle, .probing, .downloading, .paused, .completed, .failed, .cancelled]

/-- No unguarded transition of `start` meets a state it is not allowed from: to `PROBING`, after the
probe and to `COMPLETED` the download is not cancelled, to `FAILED` after the verification it is
neither cancelled nor paused. -/
def Undisturbed (c : Control) : Act → Prop
  | .clearReturns true | .loadReturns (some true) | .probeReturns .metadata
  | .probeReturns (.failed _) | .stateCleared true => c.state ≠ .cancelled
  | .finalizeReturns .mismatch | .finalizeReturns (.incomplete _) =>
      c.state ≠ .cancelled ∧ c.state ≠ .paused
  | _ => True

structure InPlace (c : Control) : Prop where
  state : c.state ∈ statesAt c.success c.pc
  outcome : c.pc ≠ .ended → c.outcome = none
  pending : ∀ old new, c.pending ≠ some (.invalidTransition old new)

def Control.RaisedInvalid (c : Control) : Prop :=
  ∃ old new, c.outcome = some (.raised (.invalidTransition old new))

theorem mem_ended (success : Bool) (state : DownloadState) : state ∈ statesAt success .ended := by
  cases state <;> simp [statesAt]

theorem paused_mem {success : Bool} {pc : Pc} (h : .downloading ∈ statesAt success pc) :
    .paused ∈ statesAt success pc := by
  cases success <;> cases pc <;> simp_all [statesAt]

theorem downloading_mem {success : Bool} {pc : Pc} (h : .paused ∈ statesAt success pc) :
    .downloading ∈ statesAt success pc := by
  cases success <;> cases pc <;> simp_all [statesAt]

theorem cancelled_mem {success : Bool} {pc : Pc} (h : pc ≠ .created) :
    .cancelled ∈ statesAt success pc := by
  cases success <;> cases pc <;> simp_all [statesAt]

section
variable {c t : Control}

theorem InPlace.raise (h : InPlace c) (x : Raised) : InPlace (c.raise x) :=
  ⟨mem_ended _ _, fun hne => absurd rfl hne, h.pending⟩

theorem InPlace.finish (h : InPlace c) (c' : Control) (verified : Bool)
    (hpending : c'.pending = c.pending) : InPlace (c'.finish verified) :=
  ⟨mem_ended _ _, fun hne => absurd rfl hne,
    by rw [show (c'.finish verified).pending = c.pending from hpending]; exact h.pending⟩

theorem InPlace.goto {pc : Pc} (h : InPlace c) (hc : c.pc ≠ .ended)
    (hs : c.state ∈ statesAt c.success pc) : InPlace (c.goto pc) :=
  ⟨hs, fun _ => h.outcome hc, h.pending⟩

theorem InPlace.transitionTo {new : DownloadState} {next : Control → Control} (h : InPlace c)
    (hn : InPlace (next { c with state := new })) : InPlace (c.transitionTo new next) :=
  transitionTo_cases hn h.raise

theorem raise_invalid_iff (c : Control) (x : Raised) :
    (c.raise x).RaisedInvalid ↔ ∃ old new, x = .invalidTransition old new := by
  simp [Control.RaisedInvalid, Control.raise]

theorem finish_not_invalid (c : Control) (verified : Bool) : ¬ (c.finish verified).RaisedInvalid := by
  simp [Control.RaisedInvalid, Control.finish]

/-- A transition raises `InvalidStateTransition` exactly when the table does not allow it. -/
theorem transitionTo_invalid_iff {new : DownloadState} {next : Control → Control}
    (hn : ¬ (next { c with state := new }).RaisedInvalid) :
    (c.transitionTo new next).RaisedInvalid ↔ new ∉ validTransitions c.state := by
  unfold Control.transitionTo
  split
  · rename_i hvalid
    simp [hn, hvalid]
  · rename_i hvalid
    rw [raise_invalid_iff]
    exact ⟨fun _ => hvalid, fun _ => ⟨_, _, rfl⟩⟩

theorem not_invalid_of_outcome (h : c.outcome = none) : ¬ c.RaisedInvalid := by
  rintro ⟨old, new, hc⟩
  rw [h] at hc
  cases hc

theorem ended_keeps (hc : c.pc = .ended) {a : Act} (hs : controlStep c a = some t) :
    t.pc = .ended ∧ t.outcome = c.outcome := by
  cases controlStep_moves hs with
  | stays | called | events | writerFails | digest => exact ⟨hc, rfl⟩
  | probes a here =>
    rw [hc] at here
    rcases here with ⟨hpc, -⟩ | ⟨hpc, -⟩ <;> cases hpc
  | begins _ _ here | probesAtOnce here | prepares here | probeFails _ here | raises _ _ here | goes _ _ here
  | starts here | poolReturned _ _ here | poolLeft _ _ _ _ here | checks here | reraises _ here | verifies here
  | returns here | verified here | unverified _ _ here | completes here =>
    rw [hc] at here
    cases here

/-- A step of `start` or of its surroundings that cannot raise. -/
theorem quiet {P : Prop} (ht : InPlace t) (hq : ¬ t.RaisedInvalid) (hP : P) :
    InPlace t ∧ (c.pc ≠ .ended → (t.RaisedInvalid ↔ ¬ P)) :=
  ⟨ht, fun _ => ⟨fun h => absurd h hq, fun h => absurd hP h⟩⟩

/-- A change of the state by a call from outside, or of the events. -/
theorem quiet_change {P : Prop} (h : InPlace c) (hpc : t.pc = c.pc) (hsuccess : t.success = c.success)
    (hstate : t.state ∈ statesAt c.success c.pc)
    (houtcome : t.outcome = c.outcome) (hpending : t.pending = c.pending) (hP : P) :
    InPlace t ∧ (c.pc ≠ .ended → (t.RaisedInvalid ↔ ¬ P)) := by
  refine ⟨⟨by rw [hpc, hsuccess]; exact hstate, fun hne => ?_,
    by rw [hpending]; exact h.pending⟩, fun hne => ?_⟩
  · rw [houtcome]
    exact h.outcome (by rwa [hpc] at hne)
  · exact ⟨fun hr => absurd hr (not_invalid_of_outcome (houtcome.trans (h.outcome hne))),
      fun hn => absurd hP hn⟩

theorem toProbing (h : InPlace c) (hne : c.pc ≠ .ended) (hs : c.state = .idle ∨ c.state = .cancelled) :
    InPlace (c.transitionTo .probing (Control.goto .probing)) ∧
      ((c.transitionTo .probing (Control.goto .probing)).RaisedInvalid ↔ ¬ c.state ≠ .cancelled) := by
  refine ⟨h.transitionTo ⟨by simp [Control.goto, statesAt], fun _ => h.outcome hne, h.pending⟩, ?_⟩
  rw [transitionTo_invalid_iff (not_invalid_of_outcome (h.outcome hne))]
  rcases hs with hs | hs <;> simp [hs, validTransitions]

theorem failVerification_inPlace (h : InPlace c)
    (hs : c.state = .downloading ∨ c.state = .paused ∨ c.state = .cancelled) (text : String) :
    InPlace (c.failVerification text) ∧
      ((c.failVerification text).RaisedInvalid ↔ ¬ (c.state ≠ .cancelled ∧ c.state ≠ .paused)) := by
  refine ⟨h.transitionTo (h.finish _ _ rfl), ?_⟩
  unfold Control.failVerification
  rw [transitionTo_invalid_iff (finish_not_invalid _ _)]
  rcases hs with hs | hs | hs <;> simp [hs, validTransitions]

theorem checkEnd_inPlace (h : InPlace c) (hpc : c.pc = .checking) (hok : c.writerError = none) :
    InPlace c.checkEnd ∧ ¬ c.checkEnd.RaisedInvalid := by
  have hnone : c.outcome = none := h.outcome (by rw [hpc]; decide)
  have hstate : c.state = .downloading ∨ c.state = .paused ∨ c.state = .cancelled := by
    simpa [statesAt, hpc] using h.state
  have hclose : ∀ s ∈ statesAt c.success .closing,
      InPlace { c with state := s }.closeSession ∧ ¬ { c with state := s }.closeSession.RaisedInvalid :=
    fun s hs => ⟨⟨hs, fun _ => hnone, h.pending⟩, not_invalid_of_outcome hnone⟩
  have hhere : c.state ∈ statesAt c.success .closing := by
    cases c.success <;> rcases hstate with hs | hs | hs <;> simp [statesAt, hs]
  unfold Control.checkEnd
  rw [hok]
  simp only
  split
  · exact hclose c.state hhere
  · split
    · rename_i hfail
      have hvalid : .failed ∈ validTransitions c.state := by rw [hfail.2]; decide
      rw [Control.transitionTo, if_pos hvalid]
      exact hclose .failed (by simp [hfail.1, statesAt])
    · exact hclose c.state hhere

theorem undisturbed_of_calm {a : Act} (h : a.transits = false) : Undisturbed c a := by
  unfold Undisturbed
  split <;> first | cases h | trivial

theorem next_states {success : Bool} {pc pc' : Pc} (h : pc.next = some pc') :
    statesAt success pc' = statesAt success pc := by
  cases pc <;> cases h <;> rfl

theorem steered_mem {success : Bool} {pc : Pc} {old new : DownloadState} (hpc : pc ≠ .created)
    (hold : old ∈ statesAt success pc) (h : Steered old new) : new ∈ statesAt success pc := by
  rcases h with ⟨rfl, rfl⟩ | ⟨rfl, rfl | rfl⟩ | ⟨-, rfl⟩
  · exact paused_mem hold
  · exact downloading_mem hold
  · exact hold
  · exact cancelled_mem hpc

theorem controlStep_inPlace (h : InPlace c) {a : Act} (hok : a = .check → c.writerError = none)
    (hs : controlStep c a = some t) :
    InPlace t ∧ (c.pc ≠ .ended → (t.RaisedInvalid ↔ ¬ Undisturbed c a)) := by
  have hnone : ∀ {pc : Pc}, c.pc = pc → pc ≠ .ended → c.outcome = none := by
    rintro pc rfl hne
    exact h.outcome hne
  have hstate := h.state
  cases controlStep_moves hs with
  | begins dest pc here present calm =>
    have hidle : c.state = .idle := by simpa [statesAt, here] using hstate
    have hpc : c.state ∈ statesAt c.success pc := by rcases present with rfl | rfl <;> simp [statesAt, hidle]
    exact quiet ⟨hpc, fun _ => hnone here (by decide), h.pending⟩
      (not_invalid_of_outcome (hnone here (by decide))) (undisturbed_of_calm calm)
  | probesAtOnce here =>
    have hidle : c.state = .idle := by simpa [statesAt, here] using hstate
    obtain ⟨h1, h2⟩ := toProbing (c := { c with ev := {} }) ⟨h.state, h.outcome, h.pending⟩
      (by rw [here]; decide) (Or.inl hidle)
    exact quiet h1 (by rw [h2]; simp [hidle]) trivial
  | probes a here =>
    have hopen : c.pc ≠ .ended := by rcases here with ⟨hpc, -⟩ | ⟨hpc, -⟩ <;> rw [hpc] <;> decide
    have hidle : c.state = .idle ∨ c.state = .cancelled := by
      rcases here with ⟨hpc, -⟩ | ⟨hpc, -⟩ <;> simpa [statesAt, hpc] using hstate
    obtain ⟨h1, h2⟩ := toProbing h hopen hidle
    rcases here with ⟨-, rfl⟩ | ⟨-, rfl⟩ <;> exact ⟨h1, fun _ => h2⟩
  | prepares here =>
    have hprobing : c.state = .probing ∨ c.state = .cancelled := by simpa [statesAt, here] using hstate
    have hout := hnone here (by decide)
    refine ⟨h.transitionTo ⟨by simp [Control.goto, statesAt], fun _ => hout, h.pending⟩, fun _ => ?_⟩
    rw [transitionTo_invalid_iff (not_invalid_of_outcome hout)]
    rcases hprobing with hp | hp <;> simp [hp, validTransitions, Undisturbed]
  | probeFails text here =>
    have hprobing : c.state = .probing ∨ c.state = .cancelled := by simpa [statesAt, here] using hstate
    refine ⟨h.transitionTo (h.finish _ _ rfl), fun _ => ?_⟩
    rw [transitionTo_invalid_iff (finish_not_invalid _ _)]
    rcases hprobing with hp | hp <;> simp [hp, validTransitions, Undisturbed]
  | raises a x here calm own =>
    refine quiet (h.raise _) ?_ (undisturbed_of_calm calm)
    rw [raise_invalid_iff]
    rintro ⟨old, new, rfl⟩
    cases own
  | goes a pc here calm stopped =>
    have hopen : c.pc ≠ .ended := by
      intro hpc
      rw [hpc] at here
      cases here
    exact quiet (h.goto hopen (by rwa [next_states here])) (not_invalid_of_outcome (h.outcome hopen))
      (undisturbed_of_calm calm)
  | starts here =>
    have hout := hnone here (by decide)
    exact quiet ⟨by simpa [statesAt, here] using hstate, fun _ => hout, h.pending⟩
      (not_invalid_of_outcome hout) trivial
  | poolReturned success error here =>
    have hout := hnone here (by decide)
    exact quiet ⟨by simpa [Control.leavePool, statesAt, here] using hstate, fun _ => hout, h.pending⟩
      (not_invalid_of_outcome hout) trivial
  | poolLeft a x paused state here calm own kept =>
    have hout := hnone here (by decide)
    have hmem : state ∈ statesAt c.success c.pc := by
      rcases kept with rfl | ⟨hd, rfl⟩
      · exact hstate
      · exact paused_mem (hd ▸ hstate)
    refine quiet ⟨by simpa [Control.leavePool, statesAt, here] using hmem, fun _ => hout, ?_⟩
      (not_invalid_of_outcome hout) (undisturbed_of_calm calm)
    rintro old new heq
    cases heq
    cases own
  | checks here =>
    obtain ⟨h1, h2⟩ := checkEnd_inPlace h here (hok rfl)
    exact quiet h1 h2 trivial
  | reraises x here pending =>
    refine quiet (h.raise _) ?_ trivial
    rw [raise_invalid_iff]
    rintro ⟨old, new, rfl⟩
    exact h.pending old new pending
  | verifies here pending success =>
    refine quiet (h.goto (by rw [here]; decide) ?_) (not_invalid_of_outcome (hnone here (by decide))) trivial
    rw [here, success] at hstate
    rw [success]
    exact hstate
  | returns here pending success => exact quiet (h.finish _ _ rfl) (finish_not_invalid _ _) trivial
  | verified here =>
    have hout := hnone here (by decide)
    exact quiet ⟨by simpa [statesAt, here] using hstate, fun _ => hout, h.pending⟩
      (not_invalid_of_outcome hout) trivial
  | unverified a text here why =>
    have hthree : c.state = .downloading ∨ c.state = .paused ∨ c.state = .cancelled := by
      simpa [statesAt, here] using hstate
    obtain ⟨h1, h2⟩ := failVerification_inPlace h hthree text
    rcases why with ⟨rfl, -⟩ | ⟨m, rfl, -⟩ <;> exact ⟨h1, fun _ => h2⟩
  | completes here =>
    have hthree : c.state = .downloading ∨ c.state = .paused ∨ c.state = .cancelled := by
      simpa [statesAt, here] using hstate
    refine ⟨h.transitionTo (h.finish _ _ rfl), fun _ => ?_⟩
    rw [transitionTo_invalid_iff (finish_not_invalid _ _)]
    rcases hthree with hp | hp | hp <;> simp [hp, validTransitions, Undisturbed]
  | stays a entered calm => exact quiet_change h rfl rfl hstate rfl rfl (undisturbed_of_calm calm)
  | called a ev state entered calm le steered =>
    exact quiet_change h rfl rfl (steered_mem entered hstate steered) rfl rfl (undisturbed_of_calm calm)
  | events a ev calm why => exact quiet_change h rfl rfl hstate rfl rfl (undisturbed_of_calm calm)
  | writerFails | digest => exact quiet_change h rfl rfl hstate rfl rfl trivial

theorem transitionTo_writerError {new : DownloadState} {next : Control → Control}
    (hn : (next { c with state := new }).writerError = c.writerError) :
    (c.transitionTo new next).writerError = c.writerError :=
  transitionTo_cases (P := fun d => d.writerError = c.writerError) hn fun _ => rfl

/-- Only the writer's own failure sets its error, once. -/
theorem writerError_keeps {a : Act} (hs : controlStep c a = some t) :
    t.writerError = c.writerError ∨ ∃ e, a = .writerFails e ∧ c.writerError = none := by
  cases controlStep_moves hs with
  | writerFails e started first => exact Or.inr ⟨e, rfl, first⟩
  | probesAtOnce | probes | prepares | probeFails | unverified | completes =>
    exact Or.inl (transitionTo_writerError rfl)
  | checks =>
    left
    apply checkEnd_cases (P := fun d => d.writerError = c.writerError)
    · exact fun _ => rfl
    · exact fun text => transitionTo_writerError (c := { c with lastError := text }) rfl
  | _ => exact Or.inl rfl

theorem ended_run_keeps (hc : c.pc = .ended) {as : List Act} (h : exec controlStep c as = some t) :
    t.outcome = c.outcome := by
  have hrun : t.pc = .ended ∧ t.outcome = c.outcome := by
    refine exec_invariant (P := fun d => d.pc = .ended ∧ d.outcome = c.outcome) ?_ ⟨hc, rfl⟩ h
    rintro d a d' ⟨hd, ho⟩ hs
    obtain ⟨hpc, ho'⟩ := ended_keeps hd hs
    exact ⟨hpc, ho'.trans ho⟩
  exact hrun.2

end

theorem inPlace_init : InPlace {} := ⟨by simp [statesAt], fun _ => rfl, by simp⟩

/-- In a run without disk errors `start` never raises `InvalidStateTransition`, exactly when none of
its unguarded transitions is disturbed by a call from outside. -/
theorem never_invalid_iff (as : List Act) (c : Control) (hrun : exec controlStep {} as = some c)
    (hdisk : ∀ e, Act.writerFails e ∉ as) :
    ¬ c.RaisedInvalid ↔ Guarded controlStep Undisturbed {} as := by
  have hno : ∀ s : Control, ∀ a ∈ as, ∀ e, a ≠ Act.writerFails e := by
    rintro s a ha e rfl
    exact hdisk e ha
  have hstep : ∀ s a t, (InPlace s ∧ s.writerError = none) → (∀ e, a ≠ Act.writerFails e) →
      controlStep s a = some t → InPlace t ∧ t.writerError = none := by
    rintro s a t ⟨hs, herr⟩ ha hst
    refine ⟨(controlStep_inPlace hs (fun _ => herr) hst).1, ?_⟩
    rcases writerError_keeps hst with hkeep | ⟨e, he, -⟩
    · rw [hkeep, herr]
    · exact absurd he (ha e)
  constructor
  · intro hvalid
    by_contra hdisturbed
    obtain ⟨bs, a, cs, u, v, rfl, -, hbs, ha, huv, hcs⟩ := exists_unguarded hdisturbed hrun
    have hu : InPlace u ∧ u.writerError = none :=
      exec_guarded hstep ⟨inPlace_init, rfl⟩
        (Guarded.of_mem (fun s b hb => hno s b (List.mem_append_left _ hb)) _) hbs
    have hopen : u.pc ≠ .ended := by
      intro hended
      cases a with
      | clearReturns | loadReturns | probeReturns | stateCleared | finalizeReturns =>
        simp [controlStep, hended] at huv
      | _ => exact ha trivial
    obtain ⟨hplace, hraise⟩ := controlStep_inPlace hu.1 (fun _ => hu.2) huv
    obtain ⟨old, new, hv⟩ := (hraise hopen).mpr ha
    have hvended : v.pc = .ended := by
      by_contra hne
      rw [hplace.outcome hne] at hv
      cases hv
    exact hvalid ⟨old, new, (ended_run_keeps hvended hcs).trans hv⟩
  · intro hguarded
    have hboth : (InPlace c ∧ c.writerError = none) ∧ ¬ c.RaisedInvalid := by
      refine exec_guarded (P := fun c => (InPlace c ∧ c.writerError = none) ∧ ¬ c.RaisedInvalid) ?_
        ⟨⟨inPlace_init, rfl⟩, by simp [Control.RaisedInvalid]⟩
        (hguarded.and (Guarded.of_mem hno _)) hrun
      rintro s a t ⟨hs, hq⟩ ⟨ha, hnofail⟩ hst
      refine ⟨hstep s a t hs hnofail hst, fun hraised => ?_⟩
      by_cases hended : s.pc = .ended
      · obtain ⟨-, hsame⟩ := ended_keeps hended hst
        exact hq (by rwa [Control.RaisedInvalid, hsame] at hraised)
      · exact ((controlStep_inPlace hs.1 (fun _ => hs.2) hst).2 hended).mp hraised ha
    exact hboth.2

/-- `cancel` while the mirrors are probed. -/
theorem cancelled_probe_raises :
    ∃ c, exec controlStep {} [.enter .missing, .cancel, .probeReturns .metadata] = some c ∧
      c.outcome = some (.raised (.invalidTransition .cancelled .downloading)) := ⟨_, rfl, rfl⟩

/-- A run that is paused, resumed and completed. -/
theorem resumed_run_valid :
    ∃ c, exec controlStep {} [.enter .missing, .probeReturns .metadata, .fileReady true,
        .stateReady true, .pause, .resume, .poolReturns true none, .writerStopped, .hasherStopped,
        .stateSaved, .check, .sessionClosed, .finalizeReturns .verified, .stateCleared true] =
        some c ∧ ¬ c.RaisedInvalid :=
  ⟨_, rfl, (never_invalid_iff [.enter .missing, .probeReturns .metadata, .fileReady true,
    .stateReady true, .pause, .resume, .poolReturns true none, .writerStopped, .hasherStopped,
    .stateSaved, .check, .sessionClosed, .finalizeReturns .verified, .stateCleared true] _ rfl
    (by simp)).mpr (by simp [Guarded, Undisturbed, controlStep, Control.at', Control.transitionTo,
      validTransitions, Control.goto, Control.leavePool, Control.checkEnd, Control.closeSession,
      Control.pause, Control.resume])⟩

end Mrdl.Downloader
