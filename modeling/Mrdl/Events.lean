import Mrdl.Types

/-! # The events that stop and pause a run

`Downloader` shares two asyncio events with its workers and one thread event with the writer and the
hasher. `pause`, `resume`, `stop` and `cancel` may be called from any thread, so they set the asyncio
events through `call_soon_threadsafe`: the event loop gets to it later. The thread event is set at
once.
-/

namespace Mrdl
set_option autoImplicit false

inductive Callback
  | setStop
  | setPause
  | clearPause
  deriving DecidableEq, Repr

structure Events where
  stopEvent : Bool := false
  pauseEvent : Bool := true
  stopThread : Bool := false
  callbacks : List Callback := []
  deriving DecidableEq, Repr

namespace Events

def schedule (ev : Events) (cbs : List Callback) : Events :=
  { ev with callbacks := ev.callbacks ++ cbs }

def stopBoth (ev : Events) : Events := { ev with stopEvent := true, stopThread := true }

/-- The event loop runs the callback scheduled first. -/
def runCallback (ev : Events) : Option Events :=
  match ev.callbacks with
  | [] => none
  | .setStop :: rest => some { ev with stopEvent := true, callbacks := rest }
  | .setPause :: rest => some { ev with pauseEvent := true, callbacks := rest }
  | .clearPause :: rest => some { ev with pauseEvent := false, callbacks := rest }

/-- Within a run the two stop events are only ever set. -/
structure Le (ev ev' : Events) : Prop where
  stopEvent : ev.stopEvent = true → ev'.stopEvent = true
  stopThread : ev.stopThread = true → ev'.stopThread = true

instance (ev ev' : Events) : Decidable (ev.Le ev') :=
  decidable_of_iff ((ev.stopEvent = true → ev'.stopEvent = true) ∧
    (ev.stopThread = true → ev'.stopThread = true))
    ⟨fun h => ⟨h.1, h.2⟩, fun h => ⟨h.stopEvent, h.stopThread⟩⟩

theorem Le.refl (ev : Events) : ev.Le ev := ⟨id, id⟩

theorem Le.trans {a b c : Events} (h : a.Le b) (h' : b.Le c) : a.Le c :=
  ⟨h'.stopEvent ∘ h.stopEvent, h'.stopThread ∘ h.stopThread⟩

theorem le_schedule (ev : Events) (cbs : List Callback) : ev.Le (ev.schedule cbs) := ⟨id, id⟩

theorem le_stopBoth (ev : Events) : ev.Le ev.stopBoth := ⟨fun _ => rfl, fun _ => rfl⟩

theorem le_runCallback {ev ev' : Events} (h : ev.runCallback = some ev') : ev.Le ev' := by
  unfold runCallback at h
  split at h <;> cases h
  · exact ⟨fun _ => rfl, id⟩
  · exact ⟨id, id⟩
  · exact ⟨id, id⟩

theorem not_stopped_of_le {ev ev' : Events} (h : ev.Le ev') (hs : ev'.stopEvent = false) :
    ev.stopEvent = false := by
  cases hstop : ev.stopEvent with
  | false => rfl
  | true => rw [h.stopEvent hstop] at hs; cases hs

end Events

end Mrdl
