import Mrdl.Downloader.Success
import Mrdl.Foundations.Runs
import Mrdl.Session.SavedState
import Mrdl.Session.StateFile

/-! # The saves of one `start` and the `clear` after it

`start` with the progress file beside it. The saver's task copies the state under the state lock and
leaves the save to a thread, which no cancellation stops. `pause` and the end of the run save while they
hold the lock. After a verification `clear` removes the file. Each call of `save` takes its steps on its
own, whatever the others do.
-/

namespace Mrdl.Downloader
open Runs Session TempFile
set_option autoImplicit false

/-- No call in this place is under way. -/
def free (slot : Option SaveCall) : Bool := slot.all fun c => !c.underWay

structure Saves where
  control : Control := {}
  dir : Dir UInt8
  downloadState : Dict := []
  completedSet : List Json := []
  lastSaved : ℕ := 0
  /-- Calls of `pause` that have changed the state and not saved yet. -/
  pausing : ℕ := 0
  /-- The last call in the saver's thread. -/
  saver : Option SaveCall := none
  /-- The last call under the state lock. -/
  locked : Option SaveCall := none
  /-- Which call is the one at the end of the run. -/
  atEnd : Option ℕ := none
  /-- `clear` has removed the file. -/
  removed : Bool := false
  /-- Every state given to `save`, those of earlier runs first, and the calls that reached the file. -/
  saved : List Dict
  landed : List ℕ := []

inductive SavesAct
  | control (a : Act)
  | record (i : ℕ)
  | saverCopies
  | pauseSaves
  | endSaves
  | saver (a : SaveAct)
  | locked (a : SaveAct)
  | removes
  deriving DecidableEq, Repr

namespace Saves

/-- `download_state["completed"] = list(completed_set)`. -/
def snapshot (s : Saves) : Dict := s.downloadState.set "completed" (.arr s.completedSet)

/-- The call of `save` that begins with the next snapshot. -/
def nextCall (s : Saves) : SaveCall := { number := s.saved.length, state := s.snapshot }

/-- The snapshot is taken and given to `save`. -/
def give (s : Saves) : Saves := { s with downloadState := s.snapshot, saved := s.saved ++ [s.snapshot] }

/-- A call that has just replaced the progress file is noted. -/
def noteLanded (s : Saves) (c : SaveCall) : List ℕ :=
  if c.pc = .returned then s.landed ++ [c.number] else s.landed

/-- `start` goes on after its own save and after `clear` only when these are over. -/
def awaited (s : Saves) : Act → Bool
  | .stateSaved => s.atEnd.isSome && s.locked.all fun c => !c.underWay || decide (s.atEnd ≠ some c.number)
  | .stateCleared true => s.removed
  | _ => true

/-- What else changes with a step of `start` or a call from outside. -/
def follow (s : Saves) (opened : Opened) (a : Act) (c : Control) : Saves :=
  match a with
  | .clearReturns true => { s with control := c, dir := s.dir.remove }
  | .stateReady true =>
      { s with
        control := c
        downloadState := opened.downloadState
        completedSet := opened.completedSet
        lastSaved := (completedList opened.downloadState).length }
  | .pause =>
      { s with
        control := c
        pausing := if s.control.state = .downloading then s.pausing + 1 else s.pausing }
  | _ => { s with control := c }

end Saves

/-- A transition, a snapshot and a recorded chunk need the state lock. The saver's task ends with the event
loop at the end of the run, so it takes no snapshot after the pool has returned. -/
def savesStep (encode : Dict → Bytes) (opened : Opened) (s : Saves) : SavesAct → Option Saves
  | .control a =>
      (controlStep s.control a).bind fun c =>
        if s.awaited a = true ∧ (c.state = s.control.state ∨ free s.locked = true) then
          some (s.follow opened a c)
        else none
  | .record i =>
      if s.control.pc = .running ∧ free s.locked = true then
        some { s with completedSet := addChunk s.completedSet i }
      else none
  | .saverCopies =>
      if s.control.pc = .running ∧ s.control.ev.stopEvent = false ∧ free s.locked = true ∧
          free s.saver = true ∧ s.lastSaved < s.completedSet.length then
        some { s.give with lastSaved := s.completedSet.length, saver := some s.nextCall }
      else none
  | .pauseSaves =>
      if 0 < s.pausing ∧ free s.locked = true then
        some { s.give with pausing := s.pausing - 1, locked := some s.nextCall }
      else none
  | .endSaves =>
      if s.control.pc = .saving ∧ s.atEnd = none ∧ free s.locked = true then
        some { s.give with locked := some s.nextCall, atEnd := some s.nextCall.number }
      else none
  | .saver a =>
      match s.saver with
      | none => none
      | some c => (c.step encode s.dir a).map fun (d, c') =>
          { s with dir := d, saver := some c', landed := s.noteLanded c' }
  | .locked a =>
      match s.locked with
      | none => none
      | some c => (c.step encode s.dir a).map fun (d, c') =>
          { s with dir := d, locked := some c', landed := s.noteLanded c' }
  | .removes =>
      if s.control.cleared = true ∧ s.removed = false then
        some { s with dir := s.dir.remove, removed := true }
      else none

/-! ## What the saves promise -/

/-- The run has reached `COMPLETED`, or `start` has returned it. -/
def Control.Completed (c : Control) : Prop :=
  c.state = .completed ∨ ∃ r, c.outcome = some (.returned r) ∧ r.status = .completed

/-- The progress file holds the whole text of one state, a call never replaces the file of a later one, and
a completed run leaves no file. -/
structure Saves.Sound (encode : Dict → Bytes) (s : Saves) : Prop where
  whole : ∀ text, s.dir.read = some text → ∃ state ∈ s.saved, text = encode state
  ordered : s.landed.Pairwise (· < ·)
  gone : s.control.Completed → s.dir.read = none

/-- No call is begun while the saver's thread has one, `clear` runs beside no call, and none is begun
after it. -/
def Orderly (s : Saves) : SavesAct → Prop
  | .pauseSaves => free s.saver = true ∧ s.removed = false
  | .endSaves => free s.saver = true
  | .removes => free s.saver = true ∧ free s.locked = true
  | _ => True

instance (s : Saves) (a : SavesAct) : Decidable (Orderly s a) := by
  cases a <;> unfold Orderly <;> infer_instance

/-! ## One call -/

/-- The progress file and the calls that reached it. -/
structure FileInv (encode : Dict → Bytes) (dir : Dir UInt8) (saved : List Dict) (landed : List ℕ) :
    Prop where
  named : dir.Named
  whole : ∀ text, dir.read = some text → ∃ state ∈ saved, text = encode state
  ordered : landed.Pairwise (· < ·)
  known : ∀ k ∈ landed, k < saved.length

/-- A call under way has the temporary file for itself and is later than those that landed. -/
structure UnderWay (encode : Dict → Bytes) (dir : Dir UInt8) (saved : List Dict) (landed : List ℕ)
    (c : SaveCall) : Prop where
  filling : c.Filling encode dir
  state : c.state ∈ saved
  known : c.number < saved.length
  later : ∀ k ∈ landed, k < c.number

section
variable {encode : Dict → Bytes} {dir dir' : Dir UInt8} {saved : List Dict} {landed : List ℕ}
  {c c' : SaveCall} {a : SaveAct}

theorem underWay_of_step (h : c.step encode dir a = some (dir', c')) : c.underWay = true := by
  cases hpc : c.pc with
  | returned | raised => cases a <;> simp [SaveCall.step, SaveCall.underWay, hpc] at h
  | _ => simp [SaveCall.underWay, hpc]

theorem call_step (h : FileInv encode dir saved landed) (hc : UnderWay encode dir saved landed c)
    (hs : c.step encode dir a = some (dir', c')) :
    FileInv encode dir' saved (if c'.pc = .returned then landed ++ [c'.number] else landed) ∧
      (c'.underWay = true →
        UnderWay encode dir' saved (if c'.pc = .returned then landed ++ [c'.number] else landed) c') := by
  obtain ⟨hnamed, hfilling, hnumber, hstate, ⟨hpc, hread⟩ | ⟨hpc, hread⟩⟩ :=
    SaveCall.step_filled h.named hc.filling hs
  · rw [if_neg hpc]
    refine ⟨⟨hnamed, hread ▸ h.whole, h.ordered, h.known⟩, fun _ => ⟨hfilling, ?_, ?_, ?_⟩⟩
    · exact hstate ▸ hc.state
    · exact hnumber ▸ hc.known
    · exact hnumber ▸ hc.later
  · rw [if_pos hpc, hnumber]
    refine ⟨⟨hnamed, fun text htext => ?_, ?_, ?_⟩, fun hway => ?_⟩
    · rw [hread] at htext
      exact ⟨c.state, hc.state, (Option.some.inj htext).symm⟩
    · rw [List.pairwise_append]
      refine ⟨h.ordered, List.pairwise_singleton _ _, fun k hk j hj => ?_⟩
      rw [List.mem_singleton.mp hj]
      exact hc.later k hk
    · intro k hk
      rcases List.mem_append.mp hk with hk | hk
      · exact h.known k hk
      · rw [List.mem_singleton.mp hk]
        exact hc.known
    · simp [SaveCall.underWay, hpc] at hway

theorem FileInv.remove (h : FileInv encode dir saved landed) : FileInv encode dir.remove saved landed :=
  ⟨h.named.remove, fun text htext => (by cases htext), h.ordered, h.known⟩

theorem UnderWay.remove (h : UnderWay encode dir saved landed c) :
    UnderWay encode dir.remove saved landed c :=
  ⟨h.filling.remove, h.state, h.known, h.later⟩

theorem FileInv.begin (h : FileInv encode dir saved landed) (state : Dict) :
    FileInv encode dir (saved ++ [state]) landed ∧
      UnderWay encode dir (saved ++ [state]) landed { number := saved.length, state := state } := by
  have hlen : (saved ++ [state]).length = saved.length + 1 := by simp
  refine ⟨⟨h.named, fun text htext => ?_, h.ordered, fun k hk => ?_⟩, trivial, by simp, by simp, h.known⟩
  · obtain ⟨old, hold, heq⟩ := h.whole text htext
    exact ⟨old, List.mem_append_left _ hold, heq⟩
  · rw [hlen]
    exact Nat.lt_succ_of_lt (h.known k hk)

end

/-! ## `start` beside the file -/

section
variable {c d : Control} {a : Act}

theorem called_not_completed (h : d ∈ [c.pause, c.resume, c.stop, c.cancel]) :
    d.cleared = c.cleared ∧ d.outcome = c.outcome ∧ (d.state = .completed → c.state = .completed) := by
  simp only [List.mem_cons, List.not_mem_nil, or_false] at h
  rcases h with rfl | rfl | rfl | rfl
  · unfold Control.pause
    split
    · exact ⟨rfl, rfl, fun hst => by cases hst⟩
    · exact ⟨rfl, rfl, id⟩
  · unfold Control.resume
    split
    · exact ⟨rfl, rfl, fun hst => by cases hst⟩
    · exact ⟨rfl, rfl, id⟩
  · unfold Control.stop
    split
    · exact ⟨rfl, rfl, fun hst => by cases hst⟩
    · exact ⟨rfl, rfl, id⟩
  · unfold Control.cancel
    split
    · exact ⟨rfl, rfl, fun hst => by cases hst⟩
    · exact ⟨rfl, rfl, id⟩

theorem cleared_step (h : Accounted c) (hcl : c.cleared = true) (hs : controlStep c a = some d) :
    d.cleared = true ∧ (a ≠ .stateCleared true → d.Completed → c.Completed) := by
  have hpc := (h.cleared hcl).2
  have hkeep : d.cleared = c.cleared ∧ d.outcome = c.outcome ∧ (d.state = .completed → c.state = .completed) →
      d.cleared = true ∧ (a ≠ .stateCleared true → d.Completed → c.Completed) := by
    rintro ⟨hcleared, houtcome, hstate⟩
    refine ⟨hcleared.trans hcl, fun _ hdone => hdone.imp hstate fun hr => ?_⟩
    rwa [houtcome] at hr
  have hraise : ∀ x, d = c.raise x → d.cleared = true ∧ (a ≠ .stateCleared true → d.Completed → c.Completed) := by
    rintro x rfl
    refine ⟨hcl, fun _ hdone => hdone.imp id ?_⟩
    rintro ⟨r, hr, -⟩
    cases hr
  cases a with
  | pause | resume | stop | cancel =>
    simp only [controlStep, Option.ite_none_left_eq_some, Option.some.injEq] at hs
    obtain ⟨-, rfl⟩ := hs
    exact hkeep (called_not_completed (by simp))
  | callback =>
    simp only [controlStep, Option.map_eq_some_iff] at hs
    obtain ⟨ev, -, rfl⟩ := hs
    exact hkeep ⟨rfl, rfl, id⟩
  | poolStops | writerFails e | digestComputed text =>
    simp only [controlStep, Option.ite_none_right_eq_some, Option.some.injEq] at hs
    obtain ⟨-, rfl⟩ := hs
    exact hkeep ⟨rfl, rfl, id⟩
  | stateCleared ok =>
    obtain ⟨-, rfl⟩ := at'_eq_some.mp hs
    cases ok with
    | false => exact hraise _ rfl
    | true =>
      refine ⟨?_, fun hne => absurd rfl hne⟩
      show (c.transitionTo .completed fun c' => c'.finish true).cleared = true
      exact transitionTo_cases (P := fun t => t.cleared = true) hcl fun x => hcl
  | startCancelled =>
    rcases hpc with hpc | hpc
    · simp only [controlStep, hpc, Option.some.injEq] at hs
      exact hraise _ hs.symm
    · simp [controlStep, hpc] at hs
  | _ => rcases hpc with hpc | hpc <;> simp [controlStep, hpc] at hs

/-- `start` completes only when `clear` returns. -/
theorem controlStep_completed (h : Accounted c) (hs : controlStep c a = some d) (ha : a ≠ .stateCleared true)
    (hdone : d.Completed) : c.Completed := by
  by_cases hcl : c.cleared = true
  · exact (cleared_step h hcl hs).2 ha hdone
  · have hadvance := controlStep_advance h hs
    have hcleared : d.cleared = true := by
      rcases hdone with hst | ⟨r, hr, hst⟩
      · exact hadvance.accounted.state hst
      · exact hadvance.accounted.outcome r hr hst
    rcases hadvance.cleared hcleared with hold | rfl
    · exact absurd hold hcl
    · obtain ⟨-, rfl⟩ := at'_eq_some.mp hs
      exact hdone

end

structure Saves.Inv (encode : Dict → Bytes) (s : Saves) : Prop where
  accounted : Accounted s.control
  file : FileInv encode s.dir s.saved s.landed
  saver : ∀ c, s.saver = some c → c.underWay = true → UnderWay encode s.dir s.saved s.landed c
  locked : ∀ c, s.locked = some c → c.underWay = true → UnderWay encode s.dir s.saved s.landed c
  alone : free s.saver = true ∨ free s.locked = true
  removed : s.removed = true →
    s.control.cleared = true ∧ s.dir.read = none ∧ free s.saver = true ∧ free s.locked = true
  waiting : s.removed = false → ¬ s.control.Completed

theorem not_free {c : SaveCall} (h : c.underWay = true) : free (some c) ≠ true := by
  simp [free, h]

theorem free_not {slot : Option SaveCall} {c : SaveCall} (h : free slot = true) (hc : slot = some c) :
    c.underWay = false := by
  rw [hc] at h
  simpa [free] using h

namespace Saves

variable {encode : Dict → Bytes} {opened : Opened} {s t : Saves}

theorem Inv.sound (h : s.Inv encode) : s.Sound encode where
  whole := h.file.whole
  ordered := h.file.ordered
  gone hdone := by
    cases hr : s.removed with
    | false => exact absurd hdone (h.waiting hr)
    | true => exact (h.removed hr).2.1

theorem Inv.control (h : s.Inv encode) {a : Act} {c : Control} (hc : controlStep s.control a = some c)
    (hawaited : s.awaited a = true) : (s.follow opened a c).Inv encode := by
  have haccounted : Accounted c := (controlStep_advance h.accounted hc).accounted
  have hremoved : s.removed = true → c.cleared = true := fun hr =>
    (cleared_step h.accounted (h.removed hr).1 hc).1
  have hwaiting : s.removed = false → ¬ c.Completed := by
    intro hr hdone
    apply h.waiting hr
    apply controlStep_completed h.accounted hc _ hdone
    rintro rfl
    simp [awaited, hr] at hawaited
  have hsame : ({ s with control := c } : Saves).Inv encode :=
    ⟨haccounted, h.file, h.saver, h.locked, h.alone, fun hr => ⟨hremoved hr, (h.removed hr).2⟩, hwaiting⟩
  unfold follow
  split
  · exact ⟨haccounted, h.file.remove, fun c hc hway => (h.saver c hc hway).remove,
      fun c hc hway => (h.locked c hc hway).remove, h.alone,
      fun hr => ⟨hremoved hr, rfl, (h.removed hr).2.2⟩, hwaiting⟩
  · exact ⟨hsame.accounted, hsame.file, hsame.saver, hsame.locked, hsame.alone, hsame.removed, hsame.waiting⟩
  · exact ⟨hsame.accounted, hsame.file, hsame.saver, hsame.locked, hsame.alone, hsame.removed, hsame.waiting⟩
  · exact hsame

/-- Before the file is removed a call may begin in the saver's thread when no other is under way. -/
theorem Inv.beginSaver (h : s.Inv encode) (hlocked : free s.locked = true)
    (hremoved : s.removed = false) : ({ s.give with saver := some s.nextCall } : Saves).Inv encode := by
  obtain ⟨hfile, hcall⟩ := h.file.begin s.snapshot
  refine ⟨h.accounted, hfile, fun c hc _ => ?_, fun c hc hway => ?_, .inr hlocked, fun hr => ?_, h.waiting⟩
  · cases hc
    exact hcall
  · rw [free_not hlocked hc] at hway
    cases hway
  · exact absurd (hremoved.symm.trans hr) (by decide)

theorem Inv.beginLocked (h : s.Inv encode) (hsaver : free s.saver = true)
    (hremoved : s.removed = false) : ({ s.give with locked := some s.nextCall } : Saves).Inv encode := by
  obtain ⟨hfile, hcall⟩ := h.file.begin s.snapshot
  refine ⟨h.accounted, hfile, fun c hc hway => ?_, fun c hc _ => ?_, .inl hsaver, fun hr => ?_, h.waiting⟩
  · rw [free_not hsaver hc] at hway
    cases hway
  · cases hc
    exact hcall
  · exact absurd (hremoved.symm.trans hr) (by decide)

theorem Inv.not_removed (h : s.Inv encode) (hpc : s.control.pc ≠ .clearingState ∧ s.control.pc ≠ .ended) :
    s.removed = false := by
  cases hr : s.removed with
  | false => rfl
  | true =>
    rcases (h.accounted.cleared (h.removed hr).1).2 with hp | hp
    · exact absurd hp hpc.1
    · exact absurd hp hpc.2

theorem Inv.step (h : s.Inv encode) {a : SavesAct} (hG : Orderly s a)
    (hs : savesStep encode opened s a = some t) : t.Inv encode := by
  cases a with
  | control a =>
    simp only [savesStep, Option.bind_eq_some_iff, Option.ite_none_right_eq_some, Option.some.injEq] at hs
    obtain ⟨c, hc, ⟨hawaited, -⟩, rfl⟩ := hs
    exact h.control hc hawaited
  | record i =>
    simp only [savesStep, Option.ite_none_right_eq_some, Option.some.injEq] at hs
    obtain ⟨-, rfl⟩ := hs
    exact ⟨h.accounted, h.file, h.saver, h.locked, h.alone, h.removed, h.waiting⟩
  | saverCopies =>
    simp only [savesStep, Option.ite_none_right_eq_some, Option.some.injEq] at hs
    obtain ⟨⟨hpc, -, hlocked, -⟩, rfl⟩ := hs
    have hbegun := h.beginSaver hlocked (h.not_removed (by simp [hpc]))
    exact ⟨hbegun.accounted, hbegun.file, hbegun.saver, hbegun.locked, hbegun.alone, hbegun.removed,
      hbegun.waiting⟩
  | pauseSaves =>
    simp only [savesStep, Option.ite_none_right_eq_some, Option.some.injEq] at hs
    obtain ⟨-, rfl⟩ := hs
    have hbegun := h.beginLocked hG.1 hG.2
    exact ⟨hbegun.accounted, hbegun.file, hbegun.saver, hbegun.locked, hbegun.alone, hbegun.removed,
      hbegun.waiting⟩
  | endSaves =>
    simp only [savesStep, Option.ite_none_right_eq_some, Option.some.injEq] at hs
    obtain ⟨⟨hpc, -⟩, rfl⟩ := hs
    have hbegun := h.beginLocked hG (h.not_removed (by simp [hpc]))
    exact ⟨hbegun.accounted, hbegun.file, hbegun.saver, hbegun.locked, hbegun.alone, hbegun.removed,
      hbegun.waiting⟩
  | saver a =>
    simp only [savesStep] at hs
    cases hslot : s.saver with
    | none => simp [hslot] at hs
    | some c =>
      simp only [hslot, Option.map_eq_some_iff] at hs
      obtain ⟨⟨dir, c'⟩, hc, rfl⟩ := hs
      have hway := underWay_of_step hc
      have hnot : free s.saver ≠ true := hslot ▸ not_free hway
      have hlocked := h.alone.resolve_left hnot
      obtain ⟨hfile, hcall⟩ := call_step h.file (h.saver c hslot hway) hc
      refine ⟨h.accounted, hfile, fun x hx => ?_, fun x hx hxw => ?_, .inr hlocked,
        fun hr => absurd (h.removed hr).2.2.1 hnot, h.waiting⟩
      · cases hx
        exact hcall
      · rw [free_not hlocked hx] at hxw
        cases hxw
  | locked a =>
    simp only [savesStep] at hs
    cases hslot : s.locked with
    | none => simp [hslot] at hs
    | some c =>
      simp only [hslot, Option.map_eq_some_iff] at hs
      obtain ⟨⟨dir, c'⟩, hc, rfl⟩ := hs
      have hway := underWay_of_step hc
      have hnot : free s.locked ≠ true := hslot ▸ not_free hway
      have hsaver := h.alone.resolve_right hnot
      obtain ⟨hfile, hcall⟩ := call_step h.file (h.locked c hslot hway) hc
      refine ⟨h.accounted, hfile, fun x hx hxw => ?_, fun x hx => ?_, .inl hsaver,
        fun hr => absurd (h.removed hr).2.2.2 hnot, h.waiting⟩
      · rw [free_not hsaver hx] at hxw
        cases hxw
      · cases hx
        exact hcall
  | removes =>
    simp only [savesStep, Option.ite_none_right_eq_some, Option.some.injEq] at hs
    obtain ⟨⟨hcleared, hremoved⟩, rfl⟩ := hs
    exact ⟨h.accounted, h.file.remove, fun c hc hway => (h.saver c hc hway).remove,
      fun c hc hway => (h.locked c hc hway).remove, h.alone, fun _ => ⟨hcleared, rfl, hG⟩,
      fun hr => by cases hr⟩

/-- The directory `start` finds: a progress file, if there is one, has a state some earlier call saved. -/
structure Found (encode : Dict → Bytes) (dir : Dir UInt8) (earlier : List Dict) : Prop where
  named : dir.Named
  whole : ∀ text, dir.read = some text → ∃ state ∈ earlier, text = encode state

def init (dir : Dir UInt8) (earlier : List Dict) : Saves := { dir := dir, saved := earlier }

theorem Inv.init {dir : Dir UInt8} {earlier : List Dict} (h : Found encode dir earlier) :
    (Saves.init dir earlier).Inv encode where
  accounted := .fresh {}
  file := ⟨h.named, h.whole, List.Pairwise.nil, fun k hk => by cases hk⟩
  saver := fun c hc => by cases hc
  locked := fun c hc => by cases hc
  alone := .inl rfl
  removed := fun hr => by cases hr
  waiting := by
    rintro - (hst | ⟨r, hr, -⟩)
    · cases hst
    · cases hr

end Saves

/-- Whatever the order of the saves, of their single steps and of the steps of `start`, the progress file
stays whole and current and is gone after a completed run, as long as no call is begun or the file removed
while another call is under way, and none is begun after `clear`. -/
theorem saves_sound {encode : Dict → Bytes} {opened : Opened} {dir : Dir UInt8} {earlier : List Dict}
    {acts : List SavesAct} {s : Saves} (hfound : Saves.Found encode dir earlier)
    (hrun : exec (savesStep encode opened) (.init dir earlier) acts = some s)
    (hG : Guarded (savesStep encode opened) Orderly (.init dir earlier) acts) : s.Sound encode :=
  (exec_guarded (P := Saves.Inv encode) (fun _ _ _ h hg hs => h.step hg hs) (.init hfound) hG hrun).sound

/-! ## Two chunks, one of them in the saver's snapshot -/

private def scalarText : Json → List Char
  | .null => "null".toList
  | .int n => (toString n).toList
  | .str x => '"' :: x.toList ++ ['"']
  | _ => []

private def valueText : Json → List Char
  | .arr xs => '[' :: ", ".toList.intercalate (xs.map scalarText) ++ [']']
  | x => scalarText x

/-- `json.dump` of a state without floats and without characters to escape. -/
private def stateText (state : Dict) : Bytes :=
  123 :: (", ".toList.intercalate (state.map fun (key, value) =>
    '"' :: key.toList ++ "\": ".toList ++ valueText value)).map (fun c => c.toNat.toUInt8) ++ [125]

private def twoChunks : Opened where
  cfg := { urls := ["m"], chunkSize := 1 }
  metadata := { totalSize := 2, acceptsRanges := true }
  file := [0, 0]
  downloadState := buildFreshState { totalSize := 2, acceptsRanges := true } 1
  completedSet := []
  remainingChunks := buildChunkQueue 2 []

/-- Up to the save at the end of the run, with the saver's call begun after the first chunk. -/
private def untilEnd (saver : List SavesAct) : List SavesAct :=
  [.control (.enter .missing), .control (.probeReturns .metadata), .control (.fileReady true),
    .control (.stateReady true), .record 0, .saverCopies] ++ saver ++
  [.record 1, .control (.poolReturns true none), .control .writerStopped, .control .hasherStopped, .endSaves]

/-- The save of a state whose text has `n` bytes. -/
private def wholeSave (n : ℕ) : List SaveAct := [.opens, .appends n, .closes, .replaces]

private def verifyAndClear : List SavesAct :=
  [.control .stateSaved, .control .check, .control .sessionClosed, .control (.finalizeReturns .verified),
    .removes, .control (.stateCleared true)]

private def inTurn : List SavesAct :=
  untilEnd ((wholeSave 89).map .saver) ++ (wholeSave 92).map .locked ++ verifyAndClear

/-- The saver's thread has opened the file when the run saves at its end. -/
private def mixed : List SavesAct :=
  untilEnd [.saver .opens] ++ (wholeSave 92).map .locked ++ [.saver (.appends 89)]

/-- The saver's thread has not yet opened it. -/
private def overtaken : List SavesAct :=
  untilEnd [] ++ (wholeSave 92).map .locked ++ verifyAndClear ++ (wholeSave 89).map .saver

theorem saves_sound_two :
    ∃ s, exec (savesStep stateText twoChunks) (.init {} []) inTurn = some s ∧
      s.control.Completed ∧ s.Sound stateText := by
  have hrun : exec (savesStep stateText twoChunks) (.init {} []) inTurn =
      some ((exec (savesStep stateText twoChunks) (.init {} []) inTurn).get rfl) := rfl
  have hfound : Saves.Found stateText {} [] := ⟨⟨by simp, by simp, by simp⟩, fun _ h => by cases h⟩
  exact ⟨_, hrun, .inl rfl, saves_sound hfound hrun (by decide)⟩

/-- The save at the end of the run beside a call that the saver's thread has begun. When that one has opened
the file, the two texts mix; when it is still to open it, the older state lands last, after the file was
removed. -/
theorem overlapping_saves :
    (∃ s, exec (savesStep stateText twoChunks) (.init {} []) mixed = some s ∧
      s.dir.read ≠ none ∧ ∀ state ∈ s.saved, s.dir.read ≠ some (stateText state)) ∧
    ∃ s, exec (savesStep stateText twoChunks) (.init {} []) overtaken = some s ∧
      s.control.Completed ∧ s.dir.read ≠ none ∧ ¬ s.landed.Pairwise (· < ·) := by
  have htorn : exec (savesStep stateText twoChunks) (.init {} []) mixed =
      some ((exec (savesStep stateText twoChunks) (.init {} []) mixed).get rfl) := rfl
  have hlate : exec (savesStep stateText twoChunks) (.init {} []) overtaken =
      some ((exec (savesStep stateText twoChunks) (.init {} []) overtaken).get rfl) := rfl
  exact ⟨⟨_, htorn, by decide +kernel, by decide +kernel⟩,
    ⟨_, hlate, .inl rfl, by decide +kernel, by decide +kernel⟩⟩

end Mrdl.Downloader
