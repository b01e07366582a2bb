import Mrdl.Downloader.Core

/-! # What an action can do to `start`

Every action of `controlStep` with the place it needs and what it leaves. Two actions are one move where
they do the same to `start`. What a run keeps is derived from this list.
-/

namespace Mrdl.Downloader
set_option autoImplicit false

/-- With this answer `start` asks for a transition, whatever its state is by then. -/
def Act.transits : Act → Bool
  | .enter .missing | .clearReturns true | .loadReturns (some true) | .probeReturns .metadata
  | .probeReturns (.failed _) | .finalizeReturns .mismatch | .finalizeReturns (.incomplete _)
  | .stateCleared true => true
  | _ => false

/-- An exception of what `start` waits for here ends it at once. -/
def Pc.fragile : Pc → Bool
  | .clearing | .loading | .probing | .preparing | .loadingState | .verifying | .clearingState => true
  | _ => false

/-- The place after this one, where `start` only goes on. -/
def Pc.next : Pc → Option Pc
  | .preparing => some .loadingState
  | .stoppingWriter => some .stoppingHasher
  | .stoppingHasher => some .saving
  | .saving => some .checking
  | _ => none

def Raised.isTransition : Raised → Bool
  | .invalidTransition _ _ => true
  | _ => false

/-- What `pause`, `resume`, `stop` and `cancel` make of a state they do not leave alone. -/
def Steered (old new : DownloadState) : Prop :=
  old = .downloading ∧ new = .paused ∨ old = .paused ∧ (new = .downloading ∨ new = .paused) ∨
    .cancelled ∈ validTransitions old ∧ new = .cancelled

inductive StartMove (c : Control) : Act → Control → Prop
  | begins (dest : Destination) (pc : Pc) (here : c.pc = .created) (present : pc = .clearing ∨ pc = .loading)
      (calm : (Act.enter dest).transits = false) :
      StartMove c (.enter dest) ({ c with ev := {} }.goto pc)
  | probesAtOnce (here : c.pc = .created) :
      StartMove c (.enter .missing) ({ c with ev := {} }.transitionTo .probing (Control.goto .probing))
  | probes (a : Act) (here : c.pc = .clearing ∧ a = .clearReturns true ∨
        c.pc = .loading ∧ a = .loadReturns (some true)) :
      StartMove c a (c.transitionTo .probing (Control.goto .probing))
  | prepares (here : c.pc = .probing) :
      StartMove c (.probeReturns .metadata) (c.transitionTo .downloading (Control.goto .preparing))
  | probeFails (text : String) (here : c.pc = .probing) :
      StartMove c (.probeReturns (.failed text))
        (c.transitionTo .failed fun c' => { c' with lastError := some text }.finish false)
  | raises (a : Act) (x : Raised) (here : c.pc.fragile = true) (calm : a.transits = false)
      (own : x.isTransition = false) (blame : x = .cancelled → a = .startCancelled) :
      StartMove c a (c.raise x)
  | goes (a : Act) (pc : Pc) (here : c.pc.next = some pc) (calm : a.transits = false)
      (stopped : c.pc = .stoppingWriter → a = .writerStopped) :
      StartMove c a (c.goto pc)
  | starts (here : c.pc = .loadingState) :
      StartMove c (.stateReady true) { c with writerStarted := true, pc := .running }
  | poolReturned (success : Bool) (error : Option PoolError) (here : c.pc = .running) :
      StartMove c (.poolReturns success error)
        { c with success := success, lastError := (error.map PoolError.text).or c.lastError }.leavePool
  | poolLeft (a : Act) (x : Raised) (paused : Bool) (state : DownloadState) (here : c.pc = .running)
      (calm : a.transits = false) (own : x.isTransition = false)
      (kept : state = c.state ∨ c.state = .downloading ∧ state = .paused)
      (blame : x = .cancelled → a = .startCancelled) :
      StartMove c a { c with paused := paused, pending := some x, state := state }.leavePool
  | checks (here : c.pc = .checking) : StartMove c .check c.checkEnd
  | reraises (x : Raised) (here : c.pc = .closing) (pending : c.pending = some x) :
      StartMove c .sessionClosed (c.raise x)
  | verifies (here : c.pc = .closing) (pending : c.pending = none) (success : c.success = true) :
      StartMove c .sessionClosed (c.goto .verifying)
  | returns (here : c.pc = .closing) (pending : c.pending = none) (success : c.success = false) :
      StartMove c .sessionClosed (c.finish false)
  | verified (here : c.pc = .verifying) :
      StartMove c (.finalizeReturns .verified) { c with cleared := true, pc := .clearingState }
  | unverified (a : Act) (text : String) (here : c.pc = .verifying)
      (why : a = .finalizeReturns .mismatch ∧ text = "Hash verification failed." ∨
        ∃ m, a = .finalizeReturns (.incomplete m) ∧ text = "Hash verification failed: " ++ m) :
      StartMove c a (c.failVerification text)
  | completes (here : c.pc = .clearingState) :
      StartMove c (.stateCleared true) (c.transitionTo .completed fun c' => c'.finish true)
  | stays (a : Act) (entered : c.pc ≠ .created) (calm : a.transits = false) : StartMove c a c
  | called (a : Act) (ev : Events) (state : DownloadState) (entered : c.pc ≠ .created)
      (calm : a.transits = false) (le : c.ev.Le ev) (steered : Steered c.state state) :
      StartMove c a { c with ev := ev, state := state }
  | events (a : Act) (ev : Events) (calm : a.transits = false)
      (why : c.ev.runCallback = some ev ∨ c.writerStarted = true ∧ ev = c.ev.stopBoth) :
      StartMove c a { c with ev := ev }
  | writerFails (e : String) (started : c.writerStarted = true) (first : c.writerError = none) :
      StartMove c (.writerFails e)
        { c with writerError := some e, ev := { c.ev with stopThread := true } }
  | digest (d : String) (started : c.writerStarted = true) :
      StartMove c (.digestComputed d) { c with computedHash := some d }

@[simp] theorem at'_eq_some {c next t : Control} {pc : Pc} :
    c.at' pc next = some t ↔ c.pc = pc ∧ next = t := by
  simp only [Control.at', Option.ite_none_right_eq_some, Option.some.injEq]

section
variable {c t : Control}

theorem signalStop_le (ev : Events) : ev.Le (Control.signalStop ev) := ⟨id, fun _ => rfl⟩

theorem call_moves {a : Act} (hcall : a = .pause ∨ a = .resume ∨ a = .stop ∨ a = .cancel)
    (hs : controlStep c a = some t) : StartMove c a t := by
  have hcalm : a.transits = false := by rcases hcall with rfl | rfl | rfl | rfl <;> rfl
  rcases hcall with rfl | rfl | rfl | rfl <;>
    simp only [controlStep, Option.ite_none_left_eq_some, Option.some.injEq] at hs <;>
    obtain ⟨hentered, rfl⟩ := hs
  · unfold Control.pause
    split
    · rename_i hstate
      exact .called _ _ _ hentered hcalm (Events.le_schedule _ _) (.inl ⟨hstate, rfl⟩)
    · exact .stays _ hentered hcalm
  · unfold Control.resume
    split
    · rename_i hstate
      exact .called _ _ _ hentered hcalm (Events.le_schedule _ _) (.inr (.inl ⟨hstate, .inl rfl⟩))
    · exact .stays _ hentered hcalm
  · unfold Control.stop
    split
    · rename_i hstate
      refine .called _ _ _ hentered hcalm (signalStop_le _) ?_
      exact hstate.imp (fun h => ⟨h, rfl⟩) fun h => .inl ⟨h, .inr rfl⟩
    · exact .stays _ hentered hcalm
  · unfold Control.cancel
    split
    · rename_i hvalid
      exact .called _ _ _ hentered hcalm (signalStop_le _) (.inr (.inr ⟨hvalid, rfl⟩))
    · exact .stays _ hentered hcalm

theorem startCancelled_moves (hs : controlStep c .startCancelled = some t) :
    StartMove c .startCancelled t := by
  simp only [controlStep] at hs
  split at hs <;> cases hs
  case h_8 hpc =>
    split
    · rename_i hstate
      exact .poolLeft _ .cancelled true .paused hpc rfl rfl (.inr ⟨hstate, rfl⟩) fun _ => rfl
    · exact .poolLeft _ .cancelled true c.state hpc rfl rfl (.inl rfl) fun _ => rfl
  case h_9 hpc => exact .stays _ (by simp [hpc]) rfl
  all_goals
    rename_i hpc
    exact .raises _ _ (by rw [hpc]; rfl) rfl rfl fun _ => rfl

theorem controlStep_moves {a : Act} (hs : controlStep c a = some t) : StartMove c a t := by
  have hfragile : ∀ {pc : Pc}, c.pc = pc → pc.fragile = true → c.pc.fragile = true := by
    rintro pc rfl h
    exact h
  cases a with
  | enter dest =>
    obtain ⟨hpc, rfl⟩ := at'_eq_some.mp hs
    cases dest with
    | missing => exact .probesAtOnce hpc
    | overwritten => exact .begins _ _ hpc (.inl rfl) rfl
    | kept => exact .begins _ _ hpc (.inr rfl) rfl
  | clearReturns ok =>
    obtain ⟨hpc, rfl⟩ := at'_eq_some.mp hs
    cases ok with
    | true => exact .probes _ (.inl ⟨hpc, rfl⟩)
    | false => exact .raises _ _ (hfragile hpc rfl) rfl rfl nofun
  | loadReturns found =>
    obtain ⟨hpc, rfl⟩ := at'_eq_some.mp hs
    match found with
    | some true => exact .probes _ (.inr ⟨hpc, rfl⟩)
    | some false => exact .raises _ _ (hfragile hpc rfl) rfl rfl nofun
    | none => exact .raises _ _ (hfragile hpc rfl) rfl rfl nofun
  | probeReturns result =>
    obtain ⟨hpc, rfl⟩ := at'_eq_some.mp hs
    cases result with
    | metadata => exact .prepares hpc
    | failed text => exact .probeFails text hpc
    | raises => exact .raises _ _ (hfragile hpc rfl) rfl rfl nofun
  | fileReady ok =>
    obtain ⟨hpc, rfl⟩ := at'_eq_some.mp hs
    cases ok with
    | true => exact .goes _ _ (by rw [hpc]; rfl) rfl (by simp [hpc])
    | false => exact .raises _ _ (hfragile hpc rfl) rfl rfl nofun
  | stateReady ok =>
    obtain ⟨hpc, rfl⟩ := at'_eq_some.mp hs
    cases ok with
    | true => exact .starts hpc
    | false => exact .raises _ _ (hfragile hpc rfl) rfl rfl nofun
  | poolReturns success error =>
    obtain ⟨hpc, rfl⟩ := at'_eq_some.mp hs
    exact .poolReturned success error hpc
  | poolRaises =>
    obtain ⟨hpc, rfl⟩ := at'_eq_some.mp hs
    exact .poolLeft _ .other c.paused c.state hpc rfl rfl (.inl rfl) nofun
  | writerStopped | hasherStopped | stateSaved =>
    obtain ⟨hpc, rfl⟩ := at'_eq_some.mp hs
    exact .goes _ _ (by rw [hpc]; rfl) rfl (by simp [hpc])
  | check =>
    obtain ⟨hpc, rfl⟩ := at'_eq_some.mp hs
    exact .checks hpc
  | sessionClosed =>
    obtain ⟨hpc, rfl⟩ := at'_eq_some.mp hs
    cases hpending : c.pending with
    | some x => exact .reraises x hpc hpending
    | none =>
      cases hsuccess : c.success with
      | true => exact .verifies hpc hpending hsuccess
      | false => exact .returns hpc hpending hsuccess
  | finalizeReturns v =>
    obtain ⟨hpc, rfl⟩ := at'_eq_some.mp hs
    cases v with
    | verified => exact .verified hpc
    | mismatch => exact .unverified _ _ hpc (.inl ⟨rfl, rfl⟩)
    | incomplete text => exact .unverified _ _ hpc (.inr ⟨text, rfl, rfl⟩)
    | raises => exact .raises _ _ (hfragile hpc rfl) rfl rfl nofun
  | stateCleared ok =>
    obtain ⟨hpc, rfl⟩ := at'_eq_some.mp hs
    cases ok with
    | true => exact .completes hpc
    | false => exact .raises _ _ (hfragile hpc rfl) rfl rfl nofun
  | startCancelled => exact startCancelled_moves hs
  | pause => exact call_moves (.inl rfl) hs
  | resume => exact call_moves (.inr (.inl rfl)) hs
  | stop => exact call_moves (.inr (.inr (.inl rfl))) hs
  | cancel => exact call_moves (.inr (.inr (.inr rfl))) hs
  | callback =>
    simp only [controlStep, Option.map_eq_some_iff] at hs
    obtain ⟨ev, hev, rfl⟩ := hs
    exact .events _ _ rfl (.inl hev)
  | poolStops =>
    simp only [controlStep, Option.ite_none_right_eq_some, Option.some.injEq] at hs
    obtain ⟨hstarted, rfl⟩ := hs
    exact .events _ _ rfl (.inr ⟨hstarted, rfl⟩)
  | writerFails e =>
    simp only [controlStep, Option.ite_none_right_eq_some, Option.some.injEq] at hs
    obtain ⟨⟨hstarted, hfirst⟩, rfl⟩ := hs
    exact .writerFails e hstarted hfirst
  | digestComputed d =>
    simp only [controlStep, Option.ite_none_right_eq_some, Option.some.injEq] at hs
    obtain ⟨hstarted, rfl⟩ := hs
    exact .digest d hstarted

/-- A transition leads on to the next place or out of `start`. -/
theorem transitionTo_cases {P : Control → Prop} {new : DownloadState} {next : Control → Control}
    (hn : P (next { c with state := new })) (hr : ∀ x, P (c.raise x)) :
    P (c.transitionTo new next) := by
  unfold Control.transitionTo
  split
  · exact hn
  · exact hr _

/-- The check closes the session, or asks for `FAILED` first. -/
theorem checkEnd_cases {P : Control → Prop}
    (hclose : ∀ text, P { c with lastError := text }.closeSession)
    (hfail : ∀ text, P ({ c with lastError := text }.transitionTo .failed Control.closeSession)) :
    P c.checkEnd := by
  unfold Control.checkEnd
  split
  · split
    · exact hfail _
    · exact hclose _
  · split
    · exact hclose c.lastError
    · split
      · exact hfail c.lastError
      · exact hclose c.lastError

end

end Mrdl.Downloader
