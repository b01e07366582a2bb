import Mrdl.System.Completed
import Mrdl.Downloader.Results
import Mrdl.Workers.Blame

/-! # The result of a whole run

The stop event of a run is set by its user, by the pool when it has an error to show, by a failing disk, or
by `start` on its way out. So a pool that returns `False` has an error, or there was a reason outside, and
the result can name one.
-/

namespace Mrdl.System
open Downloader Workers Writer Hasher Runs
set_option autoImplicit false

/-- `resume` is not called after `stop`, after an error, or when the run is over. -/
def Unrevived (s : Sys) : SysAct → Prop
  | .control a => NotRevived s.ctl a
  | _ => True

instance (s : Sys) (a : SysAct) : Decidable (Unrevived s a) := by
  unfold Unrevived
  split <;> infer_instance

/-- No call is made: the run is left to itself, apart from a cancellation of the task. -/
def Uncalled : SysAct → Prop
  | .control a => a.isCall = false
  | _ => True

instance (a : SysAct) : Decidable (Uncalled a) := by
  unfold Uncalled
  split <;> infer_instance

theorem Uncalled.unrevived {s : Sys} {a : SysAct} (h : Uncalled a) : Unrevived s a := by
  cases a with
  | control a =>
    rintro rfl
    cases h
  | _ => trivial

structure Explained (S : Setup) (calm : Prop) (s : Sys) : Prop where
  sound : Sound S s
  blamed : Blamed s.ctl.ev s.pool
  forewarned : Forewarned s.ctl.ev (s.pool.run.broken = true)
  reported : Reported (s.pool.lastError ≠ none) calm s.ctl

section
variable {S : Setup} {calm : Prop} {s s' : Sys}

/-- `start` is told what the pool has to say. -/
theorem Explained.rules {a : Act} (h : Explained S calm s) (ready : s.controlReady S a = true) :
    PoolSays (s.pool.lastError ≠ none) s.ctl a := by
  cases a with
  | poolReturns success error =>
    obtain ⟨hrun, rfl⟩ := of_decide_eq_true ready
    refine ⟨fun hs => (h.blamed.clean ?_).2, fun hs => ⟨?_, id⟩⟩
    · rw [hrun, hs]
      rfl
    · subst hs
      refine (h.forewarned.2 (h.blamed.halted ?_)).resolve_right fun hbroken => ?_
      · rw [hrun]
        rfl
      · rw [hrun] at hbroken
        cases hbroken
  | poolStops => cases ready
  | _ => trivial

/-- The pool sets the thread event only together with its error. -/
theorem poolStep_aside {a : PoolAct} {ev : Events} {p : WorkerPool} (h : Explained S calm s)
    (started : s.ctl.writerStarted = true) (hs : poolStep s.ctl.ev s.pool a = some (ev, p)) :
    Aside (p.lastError ≠ none) calm s.ctl { s.ctl with ev := ev } ∧
      (s.pool.lastError ≠ none → p.lastError ≠ none) := by
  refine ⟨⟨rfl, Or.inl rfl, (poolStep_onward hs).le, fun hstop => ?_, id, fun _ => rfl⟩, fun hold => ?_⟩
  · rcases poolStep_gives_up hs with ⟨rfl, -⟩ | ⟨-, herror, -⟩ | ⟨rfl, -⟩
    · exact Or.inl hstop
    · exact Or.inr (Or.inr (Or.inr ⟨started, Or.inr herror⟩))
    · exact Or.inl hstop
  · rcases poolStep_lastError h.sound.conserved hs with heq | ⟨hnew, -⟩
    · rwa [heq]
    · exact hnew

theorem Explained.pooled {a : PoolAct} {ev : Events} {p : WorkerPool} (h : Explained S calm s)
    (hs : poolStep s.ctl.ev s.pool a = some (ev, p)) : Forewarned ev (p.run.broken = true) := by
  rcases poolStep_gives_up hs with ⟨rfl, hbroken⟩ | ⟨rfl, -⟩ | ⟨rfl, hbroken⟩
  · exact h.forewarned.imp hbroken
  · exact .stopBoth _
  · exact ⟨h.forewarned.1, fun _ => Or.inr hbroken⟩

theorem Explained.step {a : SysAct} (h : Explained S calm s) (hguard : Unrevived s a)
    (hcalm : calm → Uncalled a) (hs : sysStep S s a = some s') : Explained S calm s' := by
  have hsound := h.sound.step hs
  have hle := sysStep_le h.sound.ordered hs
  cases sysStep_moves hs with
  | control b ctl ready hb =>
    exact ⟨hsound, h.blamed.le hle, controlStep_forewarned h.forewarned hb,
      h.reported.step hguard hcalm (h.rules ready) hb⟩
  | pool b ev p started ready hb =>
    obtain ⟨haside, htold⟩ := poolStep_aside h started hb
    exact ⟨hsound, poolStep_blamed h.sound.conserved h.blamed hb, h.pooled hb,
      h.reported.aside haside htold hsound.ordered.accounted⟩
  | writerFails e writer ctl hw noticed =>
    exact ⟨hsound, h.blamed.le hle, controlStep_forewarned h.forewarned noticed,
      h.reported.step (a := .writerFails e) nofun (fun _ => rfl) trivial noticed⟩
  | hasher b job hasher hjob hb =>
    have haside : Aside (s.pool.lastError ≠ none) calm s.ctl
        { s.ctl with computedHash := hasher.computedHash } :=
      ⟨rfl, Or.inl rfl, Events.Le.refl _, Or.inl, id, fun _ => rfl⟩
    exact ⟨hsound, h.blamed, h.forewarned, h.reported.aside haside id hsound.ordered.accounted⟩
  | _ => exact ⟨hsound, h.blamed, h.forewarned, h.reported⟩

theorem Explained.init (S : Setup) (calm : Prop) : Explained S calm (Sys.init S) :=
  ⟨Sound.init S, Blamed.init _ _ _ _ _, ⟨fun hmem => (by cases hmem), fun hstop => (by cases hstop)⟩,
    Reported.fresh _ _⟩

/-- In every run in which `resume` is not called once the stop signal is out, a returned result is coherent:
`COMPLETED` comes with a hash that matched and without an error, `FAILED` with an error, and otherwise the
run was paused or cancelled. -/
theorem results_coherent {as : List SysAct} {r : DownloadResult}
    (hguard : Guarded (sysStep S) Unrevived (Sys.init S) as)
    (hrun : exec (sysStep S) (Sys.init S) as = some s) (hreturned : s.ctl.outcome = some (.returned r)) :
    Coherent r :=
  ((exec_guarded (P := Explained S False) (fun _ _ _ h hg hs => h.step hg False.elim hs)
    (Explained.init S False) hguard hrun).reported.outcome r hreturned).1

/-- A run that nobody calls into ends as completed or failed, if it returns. -/
theorem uncalled_result {as : List SysAct} {r : DownloadResult} (hcalm : ∀ a ∈ as, Uncalled a)
    (hrun : exec (sysStep S) (Sys.init S) as = some s) (hreturned : s.ctl.outcome = some (.returned r)) :
    Fits True r :=
  (exec_guarded (P := Explained S True) (fun _ _ _ h hg hs => h.step hg.unrevived (fun _ => hg) hs)
    (Explained.init S True) (Guarded.of_mem (fun _ => hcalm) _) hrun).reported.outcome r hreturned

end

theorem results_coherent_twoBytes : Coherent ⟨.completed, true, none, none⟩ := by
  obtain ⟨s, hrun, hreturned⟩ : ∃ s, exec (sysStep twoBytes) (Sys.init twoBytes)
      (chunkFetched ++ chunkWritten ++ endedWell) = some s ∧
        s.ctl.outcome = some (.returned ⟨.completed, true, none, none⟩) :=
    ⟨(exec (sysStep twoBytes) (Sys.init twoBytes) (chunkFetched ++ chunkWritten ++ endedWell)).get
      (by decide +kernel), (Option.some_get _).symm, by decide +kernel⟩
  exact results_coherent (S := twoBytes) (by decide +kernel) hrun hreturned

/-- `resume` follows `stop`, and the run goes down all the same. -/
def revived : List SysAct :=
  [.control (.enter .missing), .control (.probeReturns .metadata), .control (.fileReady true),
    .control (.stateReady true), .control .stop, .control .resume, .control .callback,
    .pool (.runWakes false), .pool .runEnds, .control (.poolReturns false none), .stopPut,
    .control .writerStopped, .control .hasherStopped, .control .stateSaved, .control .check,
    .control .sessionClosed]

/-- It is `FAILED`, and nothing says why. -/
theorem revived_fails_silently : ∃ s : Sys, exec (sysStep twoBytes) (Sys.init twoBytes) revived = some s ∧
    s.ctl.outcome = some (.returned ⟨.failed, false, none, none⟩) :=
  ⟨(exec (sysStep twoBytes) (Sys.init twoBytes) revived).get (by decide +kernel), (Option.some_get _).symm,
    by decide +kernel⟩

end Mrdl.System
