import Mrdl.Downloader.UserControl

/-! # What `start` holds when it ends

From `DOWNLOADING` on `start` holds an HTTP session, the descriptor of the file and the task of the state
saver. They are given back in the `finally` block around `pool.run`, one after the other, so what raises
before that block, or in it, keeps what comes later. Between a test of the state and the transition that
follows it, a call from another thread may come in.
-/

namespace Mrdl.Downloader
open Runs
set_option autoImplicit false

/-- The task of the state saver. -/
inductive Saver
  | absent
  | running
  | cancelled
  | finished
  deriving DecidableEq, Repr

/-- What `start` has decided on a test of its state: `PAUSED` for a cancelled pool, `FAILED`, or neither. -/
inductive Decision
  | pauses
  | fails
  | closes
  deriving DecidableEq, Repr

/-- What may raise between `prepare_file` and `pool.run`. -/
inductive SetupStep
  | loadResumeState
  | initWriter
  | initHasher
  | writerStart
  | hasherStart
  | progressStart
  deriving DecidableEq, Repr

/-- How `session.close` ends, and whether the session is closed by then. -/
inductive SessionClose
  | returns
  | cancelled (closed : Bool)
  | raises (closed : Bool)
  deriving DecidableEq, Repr

/-- `orphan` is the thread of a `prepare_file` whose await was cancelled. -/
structure Held where
  control : Control
  sessionOpen : Bool := true
  fdOpened : ℕ := 0
  fdClosed : ℕ := 0
  saver : Saver := .absent
  decision : Option Decision := none
  orphan : Bool := false
  deriving DecidableEq, Repr

/-- `start` has become `DOWNLOADING` and made its session. -/
def Held.begin (control : Control) : Held := { control := control }

inductive HeldAct
  | call (a : Act)
  | fileReady
  | fileRaises (opened : Bool)
  | orphanEnds (opened : Bool)
  | setupReady
  | setupRaises (step : SetupStep)
  | poolReturns (success : Bool) (error : Option PoolError)
  | poolRaises
  | startCancelled
  | writerStops (ok : Bool)
  | hasherStops (ok : Bool)
  | stateSaved (ok : Bool)
  | looks
  | decides
  | sessionCloses (how : SessionClose)
  | finalizeReturns (v : Verification)
  | stateCleared (ok : Bool)
  | saverEnds
  deriving DecidableEq, Repr

/-- Not an action of `start`: a call from outside, a callback, or one of the other threads. -/
def Act.outside : Act → Bool
  | .pause | .resume | .stop | .cancel | .callback | .poolStops | .writerFails _ | .digestComputed _ => true
  | _ => false

/-- The tests of the check after the state was saved. -/
def Control.look (c : Control) : Control × Decision :=
  match c.writerError with
  | some e =>
      ({ c with lastError := some (Control.diskErrorText e) },
        if c.state = .downloading ∨ c.state = .paused then .fails else .closes)
  | none =>
      (c, if c.paused = true ∨ c.state = .paused then .closes
        else if c.success = false ∧ c.state = .downloading then .fails else .closes)

/-- What follows the test, on the state as it is by then. A transition that is not allowed raises; in the
handler of a cancelled pool the `finally` block comes after that. -/
def Control.decide (c : Control) : Decision → Control
  | .pauses =>
      if .paused ∈ validTransitions c.state then { c with state := .paused }.leavePool
      else { c with pending := some (.invalidTransition c.state .paused) }.leavePool
  | .fails => c.transitionTo .failed Control.closeSession
  | .closes => c.closeSession

namespace Held

def on (s : Held) (a : Act) : Option Held := (controlStep s.control a).map fun c => { s with control := c }

/-- An exception of the `finally` block. -/
def breaks (s : Held) (pc : Pc) : Option Held :=
  if s.control.pc = pc then some { s with control := s.control.raise .other } else none

end Held

def heldStep (s : Held) : HeldAct → Option Held
  | .call a => if a.outside then s.on a else none
  | .fileReady => (s.on (.fileReady true)).map fun t => { t with fdOpened := t.fdOpened + 1 }
  | .fileRaises opened =>
      -- `prepare_file` closes what it has opened
      (s.on (.fileReady false)).map fun t =>
        { t with fdOpened := t.fdOpened + opened.toNat, fdClosed := t.fdClosed + opened.toNat }
  | .orphanEnds opened =>
      if s.orphan then some { s with orphan := false, fdOpened := s.fdOpened + opened.toNat } else none
  | .setupReady => (s.on (.stateReady true)).map fun t => { t with saver := .running }
  | .setupRaises _ => s.on (.stateReady false)
  | .poolReturns success error => if s.decision = none then s.on (.poolReturns success error) else none
  | .poolRaises => if s.decision = none then s.on .poolRaises else none
  | .startCancelled =>
      match s.control.pc with
      | .preparing => (s.on .startCancelled).map fun t => { t with orphan := true }
      | .loadingState | .verifying | .clearingState => s.on .startCancelled
      | .running =>
          if s.decision = none then
            let c := { s.control with paused := true, pending := some .cancelled }
            if c.state = .downloading then some { s with control := c, decision := some .pauses }
            else some { s with control := c.leavePool }
          else none
      | _ => none
  | .writerStops ok => if ok then s.on .writerStopped else s.breaks .stoppingWriter
  | .hasherStops ok => if ok then s.on .hasherStopped else s.breaks .stoppingHasher
  | .stateSaved ok =>
      if ok then
        (s.on .stateSaved).map fun t =>
          { t with saver := if t.saver = .running then .cancelled else t.saver }
      else s.breaks .saving
  | .looks =>
      if s.control.pc = .checking ∧ s.decision = none then
        some { s with control := s.control.look.1, decision := some s.control.look.2 }
      else none
  | .decides =>
      match s.decision with
      | some d => some { s with control := s.control.decide d, decision := none }
      | none => none
  | .sessionCloses how =>
      match how with
      | .returns => (s.on .sessionClosed).map fun t => { t with sessionOpen := false, fdClosed := t.fdClosed + 1 }
      | .cancelled closed =>
          (s.on .sessionClosed).map fun t =>
            { t with sessionOpen := t.sessionOpen && !closed, fdClosed := t.fdClosed + 1 }
      | .raises closed =>
          (s.breaks .closing).map fun t => { t with sessionOpen := t.sessionOpen && !closed }
  | .finalizeReturns v => s.on (.finalizeReturns v)
  | .stateCleared ok => s.on (.stateCleared ok)
  | .saverEnds => if s.saver = .running then some { s with saver := .finished } else none

/-- Nothing is left open, and the state is not a half-way one. -/
structure Held.Clean (s : Held) : Prop where
  session : s.sessionOpen = false
  descriptor : s.fdOpened ≤ 1 ∧ s.fdClosed = s.fdOpened
  saver : s.saver ≠ .running
  state : s.control.state ∈ [DownloadState.paused, .completed, .failed, .cancelled]

/-- `close` leaves the session closed and does not raise. -/
def SessionClose.orderly : SessionClose → Bool
  | .returns => true
  | .cancelled closed => closed
  | .raises _ => false

/-- Nothing is raised before the descriptor is closed, and `start` does not end on its own in
`DOWNLOADING`. -/
def Held.Orderly (s : Held) : HeldAct → Prop
  | .fileRaises _ | .setupRaises _ => False
  | .startCancelled =>
      match s.control.pc with
      | .preparing | .loadingState => False
      | .verifying | .clearingState => s.control.state ≠ .downloading
      | _ => True
  | .writerStops ok | .hasherStops ok | .stateSaved ok => ok = true
  | .decides => s.decision = some .fails → s.control.state = .downloading
  | .sessionCloses how =>
      how.orderly = true ∧
        (s.control.pending ≠ none ∨ s.control.success = false → s.control.state ≠ .downloading)
  | .finalizeReturns .raises | .stateCleared false => s.control.state ≠ .downloading
  | _ => True

/-! ## The check -/

theorem look_decide (c : Control) : c.look.1.decide c.look.2 = c.checkEnd := by
  unfold Control.look Control.checkEnd
  cases c.writerError with
  | some e =>
    simp only
    split <;> rfl
  | none =>
    simp only
    split
    · rfl
    · split <;> rfl

/-- The two steps, one right after the other, are the action `check` of `start`. -/
theorem looks_decides {s u t : Held} (hlooks : heldStep s .looks = some u) (hdecides : heldStep u .decides = some t) :
    controlStep s.control .check = some t.control := by
  simp only [heldStep, Option.ite_none_right_eq_some, Option.some.injEq] at hlooks
  obtain ⟨⟨hpc, -⟩, rfl⟩ := hlooks
  simp only [heldStep, Option.some.injEq] at hdecides
  subst hdecides
  rw [controlStep, Control.at', if_pos hpc, look_decide]

/-! ## What is held where -/

/-- The session and the descriptor were given back. -/
def Pc.released : Pc → Bool
  | .verifying | .clearingState => true
  | _ => false

/-- What `start` holds at each place. -/
def Held.Placed (s : Held) : Prop :=
  match s.control.pc with
  | .preparing => s.sessionOpen = true ∧ s.fdOpened = 0 ∧ s.fdClosed = 0
  | .loadingState | .running | .stoppingWriter | .stoppingHasher | .saving =>
      s.sessionOpen = true ∧ s.fdOpened = 1 ∧ s.fdClosed = 0
  | .checking | .closing =>
      s.sessionOpen = true ∧ s.fdOpened = 1 ∧ s.fdClosed = 0 ∧ s.saver ≠ .running
  | .verifying | .clearingState => s.fdOpened = 1 ∧ s.fdClosed = 1 ∧ s.saver ≠ .running
  | _ => False

/-- `start` has not ended. -/
structure Held.Underway (s : Held) : Prop where
  going : s.control.outcome = none
  state : s.control.state ≠ .idle ∧ s.control.state ≠ .probing
  placed : s.Placed
  decision : ∀ d, s.decision = some d →
    d = .pauses ∧ s.control.pc = .running ∨ d ≠ .pauses ∧ s.control.pc = .checking
  orphan : s.orphan = false

/-- The session was closed by the time the descriptor was. -/
def Held.Good (s : Held) : Prop := s.control.pc.released = true → s.sessionOpen = false

/-- A step that goes on keeps the session's closing right exactly if it is orderly; one that ends `start`
leaves it clean exactly if it is. -/
def Held.Settles (s : Held) (a : HeldAct) (t : Held) : Prop :=
  t.Underway ∧ (t.Good ↔ s.Good ∧ s.Orderly a) ∨
    t.control.outcome ≠ none ∧ (t.Clean ↔ s.Good ∧ s.Orderly a)

section
variable {s t : Held} {a : HeldAct} {c d : Control}

theorem not_clean (h : t.sessionOpen = true) : ¬ t.Clean := by
  intro hc
  rw [hc.session] at h
  cases h

theorem good_of_held (h : s.control.pc.released = false) : s.Good := by
  intro hr
  rw [h] at hr
  cases hr

/-- At the end of a run that gave the descriptor back, only the session and the state are left to look at. -/
theorem clean_iff (hopened : t.fdOpened = 1) (hclosed : t.fdClosed = 1) (hsaver : t.saver ≠ .running)
    (hstate : t.control.state ≠ .idle ∧ t.control.state ≠ .probing) :
    t.Clean ↔ t.sessionOpen = false ∧ t.control.state ≠ .downloading := by
  constructor
  · intro h
    refine ⟨h.session, fun hdown => ?_⟩
    have hmem := h.state
    rw [hdown] at hmem
    exact absurd hmem (by decide)
  · rintro ⟨hsession, hdown⟩
    refine ⟨hsession, by omega, hsaver, ?_⟩
    obtain ⟨hidle, hprobing⟩ := hstate
    cases hs : t.control.state <;> simp_all

/-- Calls, callbacks and the other threads do not move `start`. -/
theorem outside_keeps {b : Act} (hb : b.outside = true) (hstate : c.state ≠ .idle ∧ c.state ≠ .probing)
    (hs : controlStep c b = some d) :
    d.pc = c.pc ∧ d.outcome = c.outcome ∧ (d.state ≠ .idle ∧ d.state ≠ .probing) := by
  cases b with
  | pause =>
    simp only [controlStep, Option.ite_none_left_eq_some, Option.some.injEq] at hs
    obtain ⟨-, rfl⟩ := hs
    unfold Control.pause
    split
    · exact ⟨rfl, rfl, by simp⟩
    · exact ⟨rfl, rfl, hstate⟩
  | resume =>
    simp only [controlStep, Option.ite_none_left_eq_some, Option.some.injEq] at hs
    obtain ⟨-, rfl⟩ := hs
    unfold Control.resume
    split
    · exact ⟨rfl, rfl, by simp⟩
    · exact ⟨rfl, rfl, hstate⟩
  | stop =>
    simp only [controlStep, Option.ite_none_left_eq_some, Option.some.injEq] at hs
    obtain ⟨-, rfl⟩ := hs
    unfold Control.stop
    split
    · exact ⟨rfl, rfl, by simp⟩
    · exact ⟨rfl, rfl, hstate⟩
  | cancel =>
    simp only [controlStep, Option.ite_none_left_eq_some, Option.some.injEq] at hs
    obtain ⟨-, rfl⟩ := hs
    unfold Control.cancel
    split
    · exact ⟨rfl, rfl, by simp⟩
    · exact ⟨rfl, rfl, hstate⟩
  | callback =>
    simp only [controlStep, Option.map_eq_some_iff] at hs
    obtain ⟨ev, -, rfl⟩ := hs
    exact ⟨rfl, rfl, hstate⟩
  | poolStops | writerFails | digestComputed =>
    simp only [controlStep, Option.ite_none_right_eq_some, Option.some.injEq] at hs
    obtain ⟨-, rfl⟩ := hs
    exact ⟨rfl, rfl, hstate⟩
  | _ => cases hb

theorem on_eq_some {b : Act} :
    s.on b = some t ↔ ∃ c, controlStep s.control b = some c ∧ { s with control := c } = t :=
  Option.map_eq_some_iff

/-- A step that goes on, to where nothing was given back. -/
theorem Held.Settles.goes (h : t.Underway) (hgood : t.Good ↔ s.Good) (ha : s.Orderly a) : s.Settles a t :=
  .inl ⟨h, hgood.trans (and_iff_left ha).symm⟩

/-- A step that ends `start` with the session open. -/
theorem Held.Settles.leaks (hends : t.control.outcome ≠ none) (hopen : t.sessionOpen = true)
    (ha : ¬ s.Orderly a) : s.Settles a t :=
  .inr ⟨hends, fun hc => absurd hc (not_clean hopen), fun hall => absurd hall.2 ha⟩

/-- Only in the pool and in the check has `start` decided something. -/
theorem Held.Underway.undecided {pc : Pc} (h : s.Underway) (hpc : s.control.pc = pc)
    (hne : pc ≠ .running ∧ pc ≠ .checking) : s.decision = none := by
  cases hd : s.decision with
  | none => rfl
  | some d =>
    rcases h.decision d hd with ⟨-, hat⟩ | ⟨-, hat⟩
    · exact absurd (hpc.symm.trans hat) hne.1
    · exact absurd (hpc.symm.trans hat) hne.2

/-- A step to a place where nothing is decided. -/
theorem Held.Underway.moved (h : s.Underway) (hplaced : t.Placed) (hstate : t.control.state = s.control.state)
    (houtcome : t.control.outcome = s.control.outcome) (hdecision : t.decision = none)
    (horphan : t.orphan = s.orphan) : t.Underway where
  going := houtcome.trans h.going
  state := by
    rw [hstate]
    exact h.state
  placed := hplaced
  decision d hd := by
    rw [hdecision] at hd
    cases hd
  orphan := horphan.trans h.orphan

/-- A step that goes on before anything was given back. -/
theorem Held.Settles.moves {pc pc' : Pc} (h : t.Underway) (hs : s.control.pc = pc) (ht : t.control.pc = pc')
    (hheld : pc.released = false ∧ pc'.released = false) (ha : s.Orderly a) : s.Settles a t := by
  subst hs ht
  exact .goes h ⟨fun _ => good_of_held hheld.1, fun _ => good_of_held hheld.2⟩ ha

theorem Held.Underway.session_open (h : s.Underway) (hpc : s.control.pc.released = false) :
    s.sessionOpen = true := by
  have hplaced := h.placed
  unfold Held.Placed at hplaced
  cases hat : s.control.pc <;> simp_all [Pc.released]

/-- An exception of the `finally` block, before anything was given back. -/
theorem breaks_settles {pc : Pc} (h : s.Underway) (hpc : pc.released = false) (hs : s.breaks pc = some t)
    (ha : ¬ s.Orderly a) : s.Settles a t := by
  simp only [Held.breaks, Option.ite_none_right_eq_some, Option.some.injEq] at hs
  obtain ⟨rfl, rfl⟩ := hs
  exact .leaks (by simp [Control.raise]) (h.session_open hpc) ha

/-- The pool is left, whatever it left behind. -/
theorem leavePool_settles (h : s.Underway) (hpc : s.control.pc = .running)
    (hstate : c.state = s.control.state ∨ c.state = .paused) (houtcome : c.outcome = s.control.outcome)
    (ha : s.Orderly a) : s.Settles a { s with control := c.leavePool, decision := none } := by
  have hplaced := h.placed
  simp only [Held.Placed, hpc] at hplaced
  refine .moves ⟨houtcome.trans h.going, ?_, hplaced, fun d hd => ?_, h.orphan⟩ hpc rfl ⟨rfl, rfl⟩ ha
  · show c.state ≠ .idle ∧ c.state ≠ .probing
    rcases hstate with heq | heq
    · rw [heq]
      exact h.state
    · simp [heq]
  · cases hd

/-- At the end of a run that gave everything back. -/
theorem ends_settles (h : s.Underway) (hreleased : s.control.pc.released = true)
    (hends : t.control.outcome ≠ none) (hopened : t.fdOpened = s.fdOpened) (hclosed : t.fdClosed = s.fdClosed)
    (hsaver : t.saver = s.saver) (hsession : t.sessionOpen = s.sessionOpen)
    (hstate : t.control.state ≠ .idle ∧ t.control.state ≠ .probing)
    (ha : s.Orderly a ↔ t.control.state ≠ .downloading) : s.Settles a t := by
  have hplaced := h.placed
  have hheld : s.fdOpened = 1 ∧ s.fdClosed = 1 ∧ s.saver ≠ .running := by
    unfold Held.Placed at hplaced
    cases hpc : s.control.pc <;> simp_all [Pc.released]
  have hgood : s.Good ↔ s.sessionOpen = false := by
    unfold Held.Good
    exact forall_prop_of_true hreleased
  refine .inr ⟨hends, ?_⟩
  rw [clean_iff (hopened.trans hheld.1) (hclosed.trans hheld.2.1) (by rw [hsaver]; exact hheld.2.2) hstate,
    hsession, hgood, ha]

theorem startCancelled_settles (h : s.Underway) (hs : heldStep s .startCancelled = some t) :
    s.Settles .startCancelled t := by
  have hplaced := h.placed
  unfold Held.Placed at hplaced
  simp only [heldStep] at hs
  split at hs
  case h_1 hpc =>
    simp only [Option.map_eq_some_iff, on_eq_some, controlStep, hpc, Option.some.injEq] at hs
    obtain ⟨u, ⟨c, rfl, rfl⟩, rfl⟩ := hs
    exact .leaks (by simp [Control.raise]) (h.session_open (by rw [hpc]; rfl)) (by simp [Held.Orderly, hpc])
  case h_2 hpc =>
    simp only [on_eq_some, controlStep, hpc, Option.some.injEq] at hs
    obtain ⟨c, rfl, rfl⟩ := hs
    exact .leaks (by simp [Control.raise]) (h.session_open (by rw [hpc]; rfl)) (by simp [Held.Orderly, hpc])
  case h_3 hpc =>
    simp only [on_eq_some, controlStep, hpc, Option.some.injEq] at hs
    obtain ⟨c, rfl, rfl⟩ := hs
    refine ends_settles h (by rw [hpc]; rfl) (by simp [Control.raise]) rfl rfl rfl rfl h.state ?_
    simp [Held.Orderly, hpc, Control.raise]
  case h_4 hpc =>
    simp only [on_eq_some, controlStep, hpc, Option.some.injEq] at hs
    obtain ⟨c, rfl, rfl⟩ := hs
    refine ends_settles h (by rw [hpc]; rfl) (by simp [Control.raise]) rfl rfl rfl rfl h.state ?_
    simp [Held.Orderly, hpc, Control.raise]
  case h_5 hpc =>
    have horderly : s.Orderly .startCancelled := by simp [Held.Orderly, hpc]
    simp only [Option.ite_none_right_eq_some] at hs
    obtain ⟨hdecision, hs⟩ := hs
    split at hs <;> cases hs
    · -- the state is still to be set
      refine .moves ⟨h.going, h.state, ?_, fun d hd => ?_, h.orphan⟩ hpc hpc ⟨rfl, rfl⟩ horderly
      · simp only [Held.Placed, hpc] at hplaced ⊢
        exact hplaced
      · cases hd
        exact .inl ⟨rfl, hpc⟩
    · have hsettles := leavePool_settles (c := { s.control with paused := true, pending := some .cancelled })
        h hpc (.inl rfl) rfl horderly
      rw [← hdecision] at hsettles
      exact hsettles
  case h_6 => cases hs

theorem decides_settles (h : s.Underway) (hs : heldStep s .decides = some t) : s.Settles .decides t := by
  simp only [heldStep] at hs
  split at hs
  case h_2 => cases hs
  case h_1 d hdecision =>
    cases hs
    have hplaced := h.placed
    unfold Held.Placed at hplaced
    rcases h.decision d hdecision with ⟨rfl, hpc⟩ | ⟨hpauses, hpc⟩
    · have horderly : s.Orderly .decides := fun hfails => by
        rw [hdecision] at hfails
        cases hfails
      unfold Control.decide
      simp only
      split
      · exact leavePool_settles (c := { s.control with state := .paused }) h hpc (.inr rfl) rfl horderly
      · exact leavePool_settles (c := { s.control with pending := some (.invalidTransition s.control.state .paused) })
          h hpc (.inl rfl) rfl horderly
    · simp only [hpc] at hplaced
      cases d with
      | pauses => exact absurd rfl hpauses
      | closes =>
        refine .moves (h.moved hplaced rfl rfl rfl rfl) hpc rfl ⟨rfl, rfl⟩ fun hfails => ?_
        rw [hdecision] at hfails
        cases hfails
      | fails =>
        by_cases hstate : s.control.state = .downloading
        · have hvalid : .failed ∈ validTransitions s.control.state := by
            rw [hstate]
            decide
          simp only [Control.decide, Control.transitionTo, if_pos hvalid]
          refine .moves ⟨h.going, by simp [Control.closeSession], hplaced, fun d hd => ?_, h.orphan⟩
            hpc rfl ⟨rfl, rfl⟩ fun _ => hstate
          cases hd
        · have hinvalid : .failed ∉ validTransitions s.control.state := by
            obtain ⟨-, hprobing⟩ := h.state
            cases hst : s.control.state <;> simp_all [validTransitions]
          simp only [Control.decide, Control.transitionTo, if_neg hinvalid]
          exact .leaks (by simp [Control.raise]) hplaced.1 fun hall => hstate (hall hdecision)

theorem look_keeps (c : Control) :
    c.look.1.pc = c.pc ∧ c.look.1.outcome = c.outcome ∧ c.look.1.state = c.state ∧ c.look.2 ≠ .pauses := by
  unfold Control.look
  cases c.writerError with
  | some e =>
    simp only
    split <;> simp
  | none =>
    simp only
    split
    · simp
    · split <;> simp

/-- The descriptor is closed once `close` is past, with the session closed or not. -/
theorem closed_settles {how : SessionClose} (h : s.Underway) (hpc : s.control.pc = .closing)
    (hc : controlStep s.control .sessionClosed = some c) (hfree : t.sessionOpen = false ↔ how.orderly = true)
    (ht : t = { s with control := c, sessionOpen := t.sessionOpen, fdClosed := s.fdClosed + 1 }) :
    s.Settles (.sessionCloses how) t := by
  have hplaced := h.placed
  simp only [Held.Placed, hpc] at hplaced
  obtain ⟨-, hopened, hclosed, hsaver⟩ := hplaced
  have hgood : s.Good := good_of_held (by rw [hpc]; rfl)
  simp only [controlStep, hpc, Control.at', if_true, Option.some.injEq] at hc
  have hends : t.control.outcome ≠ none → t.control.state = s.control.state →
      (s.control.pending ≠ none ∨ s.control.success = false) → s.Settles (.sessionCloses how) t := by
    intro hout hstate hover
    refine .inr ⟨hout, ?_⟩
    rw [clean_iff (by rw [ht]; exact hopened) (by rw [ht]; simp [hclosed]) (by rw [ht]; exact hsaver)
      (by rw [hstate]; exact h.state), hstate, hfree]
    constructor
    · rintro ⟨horderly, hdown⟩
      exact ⟨hgood, horderly, fun _ => hdown⟩
    · rintro ⟨-, horderly, hdown⟩
      exact ⟨horderly, hdown hover⟩
  cases hpending : s.control.pending with
  | some x =>
    rw [hpending] at hc
    subst hc
    exact hends (by rw [ht]; simp [Control.raise]) (by rw [ht]; rfl) (.inl (by simp [hpending]))
  | none =>
    rw [hpending] at hc
    cases hsuccess : s.control.success with
    | false =>
      rw [hsuccess] at hc
      subst hc
      exact hends (by rw [ht]; simp [Control.finish]) (by rw [ht]; rfl) (.inr hsuccess)
    | true =>
      rw [hsuccess] at hc
      subst hc
      have hpc' : t.control.pc = .verifying := by
        rw [ht]
        rfl
      refine .inl ⟨h.moved ?_ (by rw [ht]; rfl) (by rw [ht]; rfl) ?_ (by rw [ht]), ?_⟩
      · unfold Held.Placed
        rw [hpc', ht]
        exact ⟨hopened, by simp [hclosed], hsaver⟩
      · rw [ht]
        exact h.undecided hpc (by decide)
      · have hnot : ¬ (s.control.pending ≠ none ∨ s.control.success = false) := by simp [hpending, hsuccess]
        unfold Held.Good
        rw [hpc', hfree]
        exact ⟨fun hr => ⟨hgood, hr rfl, fun hover => absurd hover hnot⟩, fun hall _ => hall.2.1⟩

theorem sessionCloses_settles {how : SessionClose} (h : s.Underway)
    (hs : heldStep s (.sessionCloses how) = some t) : s.Settles (.sessionCloses how) t := by
  have hplaced := h.placed
  unfold Held.Placed at hplaced
  cases how with
  | returns =>
    simp only [heldStep, Option.map_eq_some_iff, on_eq_some] at hs
    obtain ⟨u, ⟨c, hc, rfl⟩, rfl⟩ := hs
    have hpc := (at'_eq_some.mp hc).1
    exact closed_settles h hpc hc (by simp [SessionClose.orderly]) rfl
  | cancelled closed =>
    simp only [heldStep, Option.map_eq_some_iff, on_eq_some] at hs
    obtain ⟨u, ⟨c, hc, rfl⟩, rfl⟩ := hs
    have hpc := (at'_eq_some.mp hc).1
    simp only [hpc] at hplaced
    exact closed_settles h hpc hc (by simp [SessionClose.orderly, hplaced.1]) rfl
  | raises closed =>
    simp only [heldStep, Held.breaks, Option.map_eq_some_iff, Option.ite_none_right_eq_some,
      Option.some.injEq] at hs
    obtain ⟨u, ⟨hpc, rfl⟩, rfl⟩ := hs
    simp only [hpc] at hplaced
    refine .inr ⟨by simp [Control.raise], fun hclean => ?_, fun hall => ?_⟩
    · -- the descriptor stays open
      have hdescriptor := hclean.descriptor.2
      simp only [hplaced.2.1, hplaced.2.2.1] at hdescriptor
      cases hdescriptor
    · cases hall.2.1

/-- A last transition that is not allowed did not meet `DOWNLOADING`. -/
theorem transitionTo_settles {new : DownloadState} {next : Control → Control} (h : s.Underway)
    (hreleased : s.control.pc.released = true) (hnew : new = .completed ∨ new = .failed)
    (hnext : ∀ d, (next d).outcome ≠ none ∧ (next d).state = d.state) (ha : s.Orderly a) :
    s.Settles a { s with control := s.control.transitionTo new next } := by
  have hstate : (s.control.transitionTo new next).state ∉
      [DownloadState.idle, .probing, .downloading] := by
    unfold Control.transitionTo
    split
    · rw [(hnext _).2]
      rcases hnew with rfl | rfl <;> simp
    · rename_i hinvalid
      have hdown : s.control.state ≠ .downloading := by
        intro hdown
        rw [hdown] at hinvalid
        rcases hnew with rfl | rfl <;> exact hinvalid (by decide)
      obtain ⟨hidle, hprobing⟩ := h.state
      simp [Control.raise, hidle, hprobing, hdown]
  simp only [List.mem_cons, List.not_mem_nil, or_false, not_or] at hstate
  obtain ⟨hidle, hprobing, hdown⟩ := hstate
  refine ends_settles h hreleased ?_ rfl rfl rfl rfl ⟨hidle, hprobing⟩ ⟨fun _ => hdown, fun _ => ha⟩
  exact transitionTo_cases (P := fun d => d.outcome ≠ none) (hnext _).1 fun x => by simp [Control.raise]

theorem finalizeReturns_settles {v : Verification} (h : s.Underway)
    (hs : heldStep s (.finalizeReturns v) = some t) : s.Settles (.finalizeReturns v) t := by
  simp only [heldStep, on_eq_some, controlStep, at'_eq_some] at hs
  obtain ⟨c, ⟨hpc, rfl⟩, rfl⟩ := hs
  have hreleased : s.control.pc.released = true := by
    rw [hpc]
    rfl
  cases v with
  | verified =>
    have hplaced := h.placed
    simp only [Held.Placed, hpc] at hplaced
    refine .goes (h.moved hplaced rfl rfl (h.undecided hpc (by decide)) rfl) ?_ trivial
    unfold Held.Good
    simp [hpc, Pc.released]
  | mismatch =>
    exact transitionTo_settles h hreleased (.inr rfl) (fun d => ⟨by simp [Control.finish], rfl⟩) trivial
  | incomplete text =>
    exact transitionTo_settles h hreleased (.inr rfl) (fun d => ⟨by simp [Control.finish], rfl⟩) trivial
  | raises =>
    exact ends_settles h hreleased (by simp [Control.raise]) rfl rfl rfl rfl h.state Iff.rfl

theorem held_step (h : s.Underway) (hs : heldStep s a = some t) : s.Settles a t := by
  have hplaced := h.placed
  unfold Held.Placed at hplaced
  cases a with
  | call b =>
    simp only [heldStep, Option.ite_none_right_eq_some, on_eq_some] at hs
    obtain ⟨hb, c, hc, rfl⟩ := hs
    obtain ⟨hpc, houtcome, hstate⟩ := outside_keeps hb h.state hc
    refine .goes ⟨houtcome.trans h.going, hstate, ?_, fun d hd => ?_, h.orphan⟩ ?_ trivial
    · unfold Held.Placed
      simp only [hpc]
      exact hplaced
    · rw [show ({ s with control := c } : Held).control.pc = s.control.pc from hpc]
      exact h.decision d hd
    · unfold Held.Good
      simp only [hpc]
  | fileReady =>
    simp only [heldStep, Option.map_eq_some_iff, on_eq_some, controlStep, at'_eq_some] at hs
    obtain ⟨u, ⟨c, ⟨hpc, rfl⟩, rfl⟩, rfl⟩ := hs
    simp only [hpc] at hplaced
    obtain ⟨hopen, hopened, hclosed⟩ := hplaced
    refine .moves (h.moved ⟨hopen, by simp [hopened], hclosed⟩ rfl rfl ?_ rfl) hpc rfl ⟨rfl, rfl⟩ trivial
    exact h.undecided hpc (by decide)
  | fileRaises opened =>
    simp only [heldStep, Option.map_eq_some_iff, on_eq_some, controlStep, at'_eq_some] at hs
    obtain ⟨u, ⟨c, ⟨hpc, rfl⟩, rfl⟩, rfl⟩ := hs
    exact .leaks (by simp [Control.raise]) (h.session_open (by rw [hpc]; rfl)) id
  | orphanEnds opened =>
    simp only [heldStep, h.orphan, Bool.false_eq_true, if_false] at hs
    cases hs
  | setupReady =>
    simp only [heldStep, Option.map_eq_some_iff, on_eq_some, controlStep, at'_eq_some] at hs
    obtain ⟨u, ⟨c, ⟨hpc, rfl⟩, rfl⟩, rfl⟩ := hs
    simp only [hpc] at hplaced
    refine .moves (h.moved hplaced rfl rfl ?_ rfl) hpc rfl ⟨rfl, rfl⟩ trivial
    exact h.undecided hpc (by decide)
  | setupRaises step =>
    simp only [heldStep, on_eq_some, controlStep, at'_eq_some] at hs
    obtain ⟨c, ⟨hpc, rfl⟩, rfl⟩ := hs
    exact .leaks (by simp [Control.raise]) (h.session_open (by rw [hpc]; rfl)) id
  | poolReturns success error =>
    simp only [heldStep, Option.ite_none_right_eq_some, on_eq_some, controlStep, at'_eq_some] at hs
    obtain ⟨hdecision, c, ⟨hpc, rfl⟩, rfl⟩ := hs
    have hsettles := leavePool_settles (a := .poolReturns success error)
      (c := { s.control with success := success, lastError := (error.map PoolError.text).or s.control.lastError })
      h hpc (.inl rfl) rfl trivial
    rw [← hdecision] at hsettles
    exact hsettles
  | poolRaises =>
    simp only [heldStep, Option.ite_none_right_eq_some, on_eq_some, controlStep, at'_eq_some] at hs
    obtain ⟨hdecision, c, ⟨hpc, rfl⟩, rfl⟩ := hs
    have hsettles := leavePool_settles (a := .poolRaises) (c := { s.control with pending := some .other })
      h hpc (.inl rfl) rfl trivial
    rw [← hdecision] at hsettles
    exact hsettles
  | startCancelled => exact startCancelled_settles h hs
  | writerStops ok | hasherStops ok =>
    cases ok with
    | false =>
      simp only [heldStep, Bool.false_eq_true, if_false] at hs
      exact breaks_settles h rfl hs (by simp [Held.Orderly])
    | true =>
      simp only [heldStep, if_true, on_eq_some, controlStep, at'_eq_some] at hs
      obtain ⟨c, ⟨hpc, rfl⟩, rfl⟩ := hs
      simp only [hpc] at hplaced
      refine .moves (h.moved hplaced rfl rfl ?_ rfl) hpc rfl ⟨rfl, rfl⟩ rfl
      exact h.undecided hpc (by decide)
  | stateSaved ok =>
    cases ok with
    | false =>
      simp only [heldStep, Bool.false_eq_true, if_false] at hs
      exact breaks_settles h rfl hs (by simp [Held.Orderly])
    | true =>
      simp only [heldStep, if_true, Option.map_eq_some_iff, on_eq_some, controlStep, at'_eq_some] at hs
      obtain ⟨u, ⟨c, ⟨hpc, rfl⟩, rfl⟩, rfl⟩ := hs
      simp only [hpc] at hplaced
      obtain ⟨hopen, hopened, hclosed⟩ := hplaced
      refine .moves (h.moved ⟨hopen, hopened, hclosed, ?_⟩ rfl rfl ?_ rfl) hpc rfl ⟨rfl, rfl⟩ rfl
      · simp only
        split
        · simp
        · assumption
      · exact h.undecided hpc (by decide)
  | looks =>
    simp only [heldStep, Option.ite_none_right_eq_some, Option.some.injEq] at hs
    obtain ⟨⟨hpc, -⟩, rfl⟩ := hs
    obtain ⟨hpc', houtcome, hstate, hpauses⟩ := look_keeps s.control
    simp only [hpc] at hplaced
    refine .moves ⟨houtcome.trans h.going, ?_, ?_, fun d hd => ?_, h.orphan⟩ hpc (hpc'.trans hpc) ⟨rfl, rfl⟩
      trivial
    · show s.control.look.1.state ≠ .idle ∧ s.control.look.1.state ≠ .probing
      rw [hstate]
      exact h.state
    · simp only [Held.Placed, hpc', hpc]
      exact hplaced
    · cases hd
      exact .inr ⟨hpauses, hpc'.trans hpc⟩
  | decides => exact decides_settles h hs
  | saverEnds =>
    simp only [heldStep, Option.ite_none_right_eq_some, Option.some.injEq] at hs
    obtain ⟨hrunning, rfl⟩ := hs
    refine .goes ⟨h.going, h.state, ?_, h.decision, h.orphan⟩ Iff.rfl trivial
    unfold Held.Placed
    simp only
    split <;> simp_all
  | sessionCloses how => exact sessionCloses_settles h hs
  | finalizeReturns v => exact finalizeReturns_settles h hs
  | stateCleared ok =>
    simp only [heldStep, on_eq_some, controlStep, at'_eq_some] at hs
    obtain ⟨c, ⟨hpc, rfl⟩, rfl⟩ := hs
    have hreleased : s.control.pc.released = true := by
      rw [hpc]
      rfl
    cases ok with
    | true =>
      simp only [if_true]
      exact transitionTo_settles h hreleased (.inl rfl) (fun d => ⟨by simp [Control.finish], rfl⟩) trivial
    | false => exact ends_settles h hreleased (by simp [Control.raise]) rfl rfl rfl rfl h.state Iff.rfl

/-! ## To the end -/

theorem transitionTo_keeps {new : DownloadState} {next : Control → Control}
    (hnext : (next { c with state := new }).outcome ≠ none) : (c.transitionTo new next).outcome ≠ none :=
  transitionTo_cases (P := fun d => d.outcome ≠ none) hnext fun x => by simp [Control.raise]

/-- A `start` that has ended stays so. -/
theorem outcome_keeps {b : Act} (hc : c.outcome ≠ none) (hs : controlStep c b = some d) : d.outcome ≠ none := by
  cases controlStep_moves hs with
  | probesAtOnce | probes | prepares => exact transitionTo_keeps hc
  | probeFails | unverified | completes => exact transitionTo_keeps (by simp [Control.finish])
  | checks =>
    exact checkEnd_cases (P := fun d => d.outcome ≠ none) (fun text => hc) fun text => transitionTo_keeps hc
  | raises | reraises => simp [Control.raise]
  | returns => simp [Control.finish]
  | _ => exact hc

theorem decide_keeps (hc : c.outcome ≠ none) (what : Decision) : (c.decide what).outcome ≠ none := by
  cases what with
  | closes => exact hc
  | fails => exact transitionTo_keeps hc
  | pauses =>
    unfold Control.decide
    simp only
    split <;> exact hc

theorem ended_step (hgone : s.control.outcome ≠ none) (hs : heldStep s a = some t) : t.control.outcome ≠ none := by
  have hon : ∀ {b} u, s.on b = some u → u.control.outcome ≠ none := by
    intro b u hu
    obtain ⟨c, hc, rfl⟩ := on_eq_some.mp hu
    exact outcome_keeps hgone hc
  have hbreaks : ∀ {pc} u, s.breaks pc = some u → u.control.outcome ≠ none := by
    intro pc u hu
    simp only [Held.breaks, Option.ite_none_right_eq_some, Option.some.injEq] at hu
    obtain ⟨-, rfl⟩ := hu
    simp [Control.raise]
  cases a with
  | call b =>
    simp only [heldStep, Option.ite_none_right_eq_some] at hs
    exact hon _ hs.2
  | fileReady | fileRaises | setupReady =>
    simp only [heldStep, Option.map_eq_some_iff] at hs
    obtain ⟨u, hu, rfl⟩ := hs
    exact hon u hu
  | setupRaises | finalizeReturns | stateCleared => exact hon _ hs
  | poolReturns | poolRaises =>
    simp only [heldStep, Option.ite_none_right_eq_some] at hs
    exact hon _ hs.2
  | orphanEnds | saverEnds =>
    simp only [heldStep, Option.ite_none_right_eq_some, Option.some.injEq] at hs
    obtain ⟨-, rfl⟩ := hs
    exact hgone
  | looks =>
    simp only [heldStep, Option.ite_none_right_eq_some, Option.some.injEq] at hs
    obtain ⟨-, rfl⟩ := hs
    show s.control.look.1.outcome ≠ none
    rw [(look_keeps s.control).2.1]
    exact hgone
  | startCancelled =>
    simp only [heldStep] at hs
    split at hs
    · obtain ⟨u, hu, rfl⟩ := Option.map_eq_some_iff.mp hs
      exact hon u hu
    · exact hon _ hs
    · exact hon _ hs
    · exact hon _ hs
    · simp only [Option.ite_none_right_eq_some] at hs
      obtain ⟨-, hs⟩ := hs
      split at hs <;> cases hs <;> exact hgone
    · cases hs
  | writerStops ok | hasherStops ok =>
    simp only [heldStep] at hs
    split at hs
    · exact hon _ hs
    · exact hbreaks _ hs
  | stateSaved ok =>
    simp only [heldStep] at hs
    split at hs
    · obtain ⟨u, hu, rfl⟩ := Option.map_eq_some_iff.mp hs
      exact hon u hu
    · exact hbreaks _ hs
  | decides =>
    simp only [heldStep] at hs
    split at hs <;> cases hs
    exact decide_keeps hgone _
  | sessionCloses how =>
    cases how with
    | returns | cancelled =>
      obtain ⟨u, hu, rfl⟩ := Option.map_eq_some_iff.mp hs
      exact hon u hu
    | raises =>
      obtain ⟨u, hu, rfl⟩ := Option.map_eq_some_iff.mp hs
      exact hbreaks u hu

theorem ended_run (hgone : s.control.outcome ≠ none) {as : List HeldAct} (hrun : exec heldStep s as = some t) :
    t.control.outcome ≠ none :=
  exec_invariant (P := fun s => s.control.outcome ≠ none) (fun _ _ _ hgone hs => ended_step hgone hs) hgone hrun

/-- While `start` goes on, everything is where it should be exactly if every step was orderly. -/
theorem held_run {as : List HeldAct} (h : s.Underway) (hrun : exec heldStep s as = some t)
    (hgoing : t.control.outcome = none) :
    t.Underway ∧ (t.Good ↔ s.Good ∧ Guarded heldStep Held.Orderly s as) := by
  induction as generalizing s with
  | nil =>
    cases hrun
    exact ⟨h, (and_iff_left trivial).symm⟩
  | cons a as ih =>
    obtain ⟨u, hu, hrest⟩ := exec_cons.mp hrun
    rcases held_step h hu with ⟨hunder, hgood⟩ | ⟨hgone, -⟩
    · obtain ⟨ht, htgood⟩ := ih hunder hrest
      refine ⟨ht, htgood.trans ?_⟩
      rw [hgood, Guarded, hu]
      exact and_assoc
    · exact absurd hgoing (ended_run hgone hrest)

theorem ended_or_same {b : Act} (hs : controlStep c b = some d) : d.pc = .ended ∨ d.outcome = c.outcome := by
  cases controlStep_moves hs with
  | probesAtOnce | probes | prepares =>
    exact transitionTo_cases (P := fun d => d.pc = .ended ∨ d.outcome = c.outcome) (.inr rfl) fun x => .inl rfl
  | probeFails | unverified | completes =>
    exact transitionTo_cases (P := fun d => d.pc = .ended ∨ d.outcome = c.outcome) (.inl rfl) fun x => .inl rfl
  | checks =>
    exact checkEnd_cases (P := fun d => d.pc = .ended ∨ d.outcome = c.outcome) (fun text => .inr rfl)
      fun text => transitionTo_cases (P := fun d => d.pc = .ended ∨ d.outcome = c.outcome) (.inr rfl)
        fun x => .inl rfl
  | raises | reraises | returns => exact .inl rfl
  | _ => exact .inr rfl

/-- Before its end `start` has no outcome. -/
theorem ended_or_going {as : List Act} (hrun : exec controlStep {} as = some c) :
    c.pc = .ended ∨ c.outcome = none := by
  refine exec_invariant (P := fun c => c.pc = .ended ∨ c.outcome = none) (fun c a d h hs => ?_) (.inr rfl) hrun
  rcases h with hended | hnone
  · exact .inl (ended_keeps hended hs).1
  · exact (ended_or_same hs).imp_right fun hsame => hsame.trans hnone

theorem Held.Underway.begin {as : List Act} (hrun : exec controlStep {} as = some c)
    (hprobe : controlStep c (.probeReturns .metadata) = some d) (hpc : d.pc = .preparing) :
    (Held.begin d).Underway := by
  simp only [controlStep, at'_eq_some] at hprobe
  obtain ⟨hprobing, rfl⟩ := hprobe
  have hnone : c.outcome = none := (ended_or_going hrun).resolve_left (by simp [hprobing])
  unfold Control.transitionTo at hpc ⊢
  split at hpc
  · rename_i hvalid
    rw [if_pos hvalid]
    exact ⟨hnone, ⟨by simp [Held.begin, Control.goto], by simp [Held.begin, Control.goto]⟩, ⟨rfl, rfl, rfl⟩,
      fun d hd => (by cases hd), rfl⟩
  · cases hpc

end

/-- `start` ends with everything given back, and not half-way, exactly when every step from `DOWNLOADING` on
was orderly. -/
theorem start_leaves_clean_iff (before : List Act) (as : List HeldAct) (a : HeldAct) {c d : Control} {s t : Held}
    (hrun : exec controlStep {} before = some c) (hprobe : controlStep c (.probeReturns .metadata) = some d)
    (hdownloading : d.pc = .preparing) (has : exec heldStep (.begin d) as = some s)
    (hgoing : s.control.outcome = none) (hs : heldStep s a = some t) (hends : t.control.outcome ≠ none) :
    t.Clean ↔ Guarded heldStep Held.Orderly (.begin d) (as ++ [a]) := by
  obtain ⟨hunder, hgood⟩ := held_run (.begin hrun hprobe hdownloading) has hgoing
  have hbegin : (Held.begin d).Good := good_of_held (by
    show d.pc.released = false
    rw [hdownloading]
    rfl)
  have hlast : t.Clean ↔ s.Good ∧ s.Orderly a := by
    rcases held_step hunder hs with ⟨ht, -⟩ | ⟨-, hclean⟩
    · exact absurd ht.going hends
    · exact hclean
  have hone : Guarded heldStep Held.Orderly s [a] ↔ s.Orderly a := by
    rw [Guarded, hs]
    exact and_iff_left trivial
  rw [hlast, hgood, Guarded.append_iff has, hone, and_iff_right hbegin]

/-- `load_resume_state` raises: the session and the descriptor stay open, and the state is `DOWNLOADING`. -/
theorem failed_setup_leaks :
    ∃ c d s t, exec controlStep {} [.enter .missing] = some c ∧
      controlStep c (.probeReturns .metadata) = some d ∧ d.pc = .preparing ∧
      exec heldStep (.begin d) [.fileReady] = some s ∧ s.control.outcome = none ∧
      heldStep s (.setupRaises .loadResumeState) = some t ∧ t.control.outcome = some (.raised .other) ∧
      t.sessionOpen = true ∧ t.fdOpened = 1 ∧ t.fdClosed = 0 ∧ t.control.state = .downloading ∧ ¬ t.Clean :=
  ⟨_, _, _, _, rfl, rfl, rfl, rfl, rfl, rfl, rfl, rfl, rfl, rfl, rfl, not_clean rfl⟩

/-- A download that completes. -/
theorem completed_start_clean :
    ∃ c d s t, exec controlStep {} [.enter .missing] = some c ∧
      controlStep c (.probeReturns .metadata) = some d ∧
      exec heldStep (.begin d) [.fileReady, .setupReady, .poolReturns true none, .writerStops true,
        .hasherStops true, .stateSaved true, .looks, .decides, .sessionCloses .returns,
        .finalizeReturns .verified] = some s ∧
      heldStep s (.stateCleared true) = some t ∧ t.control.state = .completed ∧ t.Clean := by
  refine ⟨_, _, _, _, rfl, rfl, rfl, rfl, rfl, ?_⟩
  refine (start_leaves_clean_iff [.enter .missing] [.fileReady, .setupReady, .poolReturns true none,
    .writerStops true, .hasherStops true, .stateSaved true, .looks, .decides, .sessionCloses .returns,
    .finalizeReturns .verified] (.stateCleared true) rfl rfl rfl rfl rfl rfl (Option.some_ne_none _)).mpr ?_
  have hdecided : some Decision.closes ≠ some .fails := by decide
  have hover : ¬ ((none : Option Raised) ≠ none ∨ true = false) := by decide
  exact ⟨trivial, trivial, trivial, rfl, rfl, rfl, trivial, fun h => absurd h hdecided,
    ⟨rfl, fun h => absurd h hover⟩, trivial, trivial, trivial⟩

end Mrdl.Downloader
