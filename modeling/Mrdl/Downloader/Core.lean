import Mrdl.Events

/-! # `Downloader.start` and the calls that steer it

`start` as a machine: one program counter per place where it waits, and one action per thing it can
be told there. `pause`, `resume`, `stop` and `cancel` are actions that may come at any time once the
run has begun, and so may the failure of the writer's thread and the cancellation of the task that
runs `start`. What the pool, the writer and the hasher do meanwhile is left open here.
-/

namespace Mrdl.Downloader
set_option autoImplicit false

/-- Where `start` stands. From `stoppingWriter` to `checking` it is in the inner `finally` block. -/
inductive Pc
  | created
  | clearing
  | loading
  | probing
  | preparing
  | loadingState
  | running
  | stoppingWriter
  | stoppingHasher
  | saving
  | checking
  | closing
  | verifying
  | clearingState
  | ended
  deriving DecidableEq, Repr

inductive Raised
  | invalidTransition (old new : DownloadState)
  | destinationExists
  | cancelled
  | other
  deriving DecidableEq, Repr

inductive StartOutcome
  | returned (result : DownloadResult)
  | raised (x : Raised)
  deriving DecidableEq, Repr

/-- The locals of `start` and the fields of `Downloader` it works on. `pending` is the exception on
its way through the `finally` block; `cleared` records that `clear` was called after a verification. -/
structure Control where
  ev : Events := {}
  state : DownloadState := .idle
  pc : Pc := .created
  success : Bool := false
  paused : Bool := false
  pending : Option Raised := none
  lastError : Option String := none
  writerStarted : Bool := false
  writerError : Option String := none
  computedHash : Option String := none
  cleared : Bool := false
  outcome : Option StartOutcome := none
  deriving DecidableEq, Repr

/-- The destination as `start` finds it: missing, present with `overwrite`, present without. -/
inductive Destination
  | missing
  | overwritten
  | kept
  deriving DecidableEq, Repr

inductive Probe
  | metadata
  | failed (text : String)
  | raises
  deriving DecidableEq, Repr

/-- How `finalize` ends: with a bool, with `IncompleteHashError`, with another exception. -/
inductive Verification
  | verified
  | mismatch
  | incomplete (text : String)
  | raises
  deriving DecidableEq, Repr

inductive Act
  | enter (dest : Destination)
  | clearReturns (ok : Bool)
  | loadReturns (found : Option Bool)
  | probeReturns (result : Probe)
  | fileReady (ok : Bool)
  | stateReady (ok : Bool)
  | poolReturns (success : Bool) (error : Option PoolError)
  | poolRaises
  | writerStopped
  | hasherStopped
  | stateSaved
  | check
  | sessionClosed
  | finalizeReturns (v : Verification)
  | stateCleared (ok : Bool)
  | startCancelled
  | pause
  | resume
  | stop
  | cancel
  | callback
  | poolStops
  | writerFails (e : String)
  | digestComputed (d : String)
  deriving DecidableEq, Repr

/-! ## Building blocks -/

namespace Control

def raise (c : Control) (x : Raised) : Control := { c with pc := .ended, outcome := some (.raised x) }

/-- `_transition_to`, and what follows when it does not raise. -/
def transitionTo (c : Control) (new : DownloadState) (next : Control → Control) : Control :=
  if new ∈ validTransitions c.state then next { c with state := new }
  else c.raise (.invalidTransition c.state new)

/-- `return DownloadResult(...)`. -/
def finish (c : Control) (verified : Bool) : Control :=
  { c with
    pc := .ended
    outcome := some (.returned ⟨c.state, verified, c.lastError, c.computedHash⟩) }

def goto (pc : Pc) (c : Control) : Control := { c with pc := pc }

/-- The action belongs to this place. -/
def at' (c : Control) (pc : Pc) (next : Control) : Option Control :=
  if c.pc = pc then some next else none

/-- The beginning of the `finally` block after `pool.run`. -/
def leavePool (c : Control) : Control :=
  { c with ev := if c.success then c.ev else c.ev.stopBoth, pc := .stoppingWriter }

/-- The end of the check: both stop events are set, then `session.close()` is awaited. -/
def closeSession (c : Control) : Control := { c with ev := c.ev.stopBoth, pc := .closing }

def diskErrorText (e : String) : String := "Disk write error: " ++ e

/-- The three-way check after the state was saved. -/
def checkEnd (c : Control) : Control :=
  match c.writerError with
  | some e =>
      let c' := { c with lastError := some (diskErrorText e) }
      if c.state = .downloading ∨ c.state = .paused then c'.transitionTo .failed closeSession
      else c'.closeSession
  | none =>
      if c.paused = true ∨ c.state = .paused then c.closeSession
      else if c.success = false ∧ c.state = .downloading then c.transitionTo .failed closeSession
      else c.closeSession

/-- A verification that failed, with the text it leaves. -/
def failVerification (c : Control) (text : String) : Control :=
  c.transitionTo .failed fun c' => { c' with lastError := some text }.finish false

/-! ## The calls from outside -/

def pause (c : Control) : Control :=
  if c.state = .downloading then { c with ev := c.ev.schedule [.clearPause], state := .paused } else c

def resume (c : Control) : Control :=
  if c.state = .paused then { c with ev := c.ev.schedule [.setPause], state := .downloading } else c

/-- The events `stop` and `cancel` set: the thread event at once, the others through the loop. -/
def signalStop (ev : Events) : Events :=
  { ev.schedule [.setStop, .setPause] with stopThread := true }

def stop (c : Control) : Control :=
  if c.state = .downloading ∨ c.state = .paused then
    { c with ev := signalStop c.ev, state := .paused }
  else c

/-- `cancel` raises in its caller where the transition is not allowed. -/
def cancel (c : Control) : Control :=
  if .cancelled ∈ validTransitions c.state then
    { c with ev := signalStop c.ev, state := .cancelled }
  else c

end Control

/-! ## The machine -/

def controlStep (c : Control) : Act → Option Control
  | .enter dest =>
      c.at' .created <|
        let c' := { c with ev := {} }
        match dest with
        | .missing => c'.transitionTo .probing (Control.goto .probing)
        | .overwritten => c'.goto .clearing
        | .kept => c'.goto .loading
  | .clearReturns ok =>
      c.at' .clearing <|
        if ok then c.transitionTo .probing (Control.goto .probing) else c.raise .other
  | .loadReturns found =>
      c.at' .loading <|
        match found with
        | none => c.raise .other
        | some false => c.raise .destinationExists
        | some true => c.transitionTo .probing (Control.goto .probing)
  | .probeReturns result =>
      c.at' .probing <|
        match result with
        | .metadata => c.transitionTo .downloading (Control.goto .preparing)
        | .failed text =>
            c.transitionTo .failed fun c' => { c' with lastError := some text }.finish false
        | .raises => c.raise .other
  | .fileReady ok => c.at' .preparing (if ok then c.goto .loadingState else c.raise .other)
  | .stateReady ok =>
      c.at' .loadingState
        (if ok then { c with writerStarted := true, pc := .running } else c.raise .other)
  | .poolReturns success error =>
      c.at' .running
        { c with success := success, lastError := (error.map PoolError.text).or c.lastError }.leavePool
  | .poolRaises => c.at' .running { c with pending := some .other }.leavePool
  | .writerStopped => c.at' .stoppingWriter (c.goto .stoppingHasher)
  | .hasherStopped => c.at' .stoppingHasher (c.goto .saving)
  | .stateSaved => c.at' .saving (c.goto .checking)
  | .check => c.at' .checking c.checkEnd
  | .sessionClosed =>
      c.at' .closing <|
        match c.pending with
        | some x => c.raise x
        | none => if c.success then c.goto .verifying else c.finish false
  | .finalizeReturns v =>
      c.at' .verifying <|
        match v with
        | .verified => { c with cleared := true, pc := .clearingState }
        | .mismatch => c.failVerification "Hash verification failed."
        | .incomplete text => c.failVerification ("Hash verification failed: " ++ text)
        | .raises => c.raise .other
  | .stateCleared ok =>
      c.at' .clearingState <|
        if ok then c.transitionTo .completed fun c' => c'.finish true else c.raise .other
  | .startCancelled =>
      match c.pc with
      | .clearing | .loading | .probing | .preparing | .loadingState | .verifying
      | .clearingState => some (c.raise .cancelled)
      | .running =>
          let c' := { c with paused := true, pending := some .cancelled }
          some (if c.state = .downloading then { c' with state := .paused } else c').leavePool
      | .closing => some c
      | _ => none
  | .pause => if c.pc = .created then none else some c.pause
  | .resume => if c.pc = .created then none else some c.resume
  | .stop => if c.pc = .created then none else some c.stop
  | .cancel => if c.pc = .created then none else some c.cancel
  | .callback => c.ev.runCallback.map fun ev => { c with ev := ev }
  | .poolStops => if c.writerStarted then some { c with ev := c.ev.stopBoth } else none
  | .writerFails e =>
      if c.writerStarted = true ∧ c.writerError = none then
        some { c with writerError := some e, ev := { c.ev with stopThread := true } }
      else none
  | .digestComputed d => if c.writerStarted then some { c with computedHash := some d } else none

end Mrdl.Downloader
