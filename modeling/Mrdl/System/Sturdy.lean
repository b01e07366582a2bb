import Mrdl.System.Joined
import Mrdl.System.Results
import Mrdl.Downloader.Gate
import Mrdl.Workers.Ending

/-! # Runs in which nothing breaks

Fetches may fail and chunks be put back, mirrors may be banned, and the download may be paused and resumed:
as long as no exception ends a worker, or the task of `start`, the pool keeps its workers and `run` its
answer. Until the thread event is set, the pause event is where the calls from outside have left it, or will
be when the loop has run their callbacks.
-/

namespace Mrdl.System
open FileBytes Downloader Workers Writer Hasher Runs
set_option autoImplicit false

/-- An exception ends a worker, or `run`. -/
def SysAct.breaks : SysAct → Bool
  | .pool a => a.kills || decide (a = .runCancelled)
  | _ => false

/-- From the `finally` block on. -/
def late : Pc → Bool
  | .created | .clearing | .loading | .probing | .preparing | .loadingState | .running => false
  | _ => true

section
variable {c d : Control} {a : Act}

theorem late_step (h : late c.pc = true) (hs : controlStep c a = some d) : late d.pc = true := by
  cases controlStep_moves hs with
  | begins _ _ here | probesAtOnce here | prepares here | probeFails _ here | starts here
  | poolReturned _ _ here | poolLeft _ _ _ _ here =>
    rw [here] at h
    cases h
  | probes a here =>
    rcases here with ⟨hpc, -⟩ | ⟨hpc, -⟩ <;> rw [hpc] at h <;> cases h
  | goes a pc here =>
    cases hpc : c.pc <;> rw [hpc] at h here <;> cases h <;> cases here <;> rfl
  | checks =>
    exact checkEnd_cases (P := fun d => late d.pc = true) (fun _ => rfl)
      fun _ => transitionTo_cases (P := fun d => late d.pc = true) rfl fun _ => rfl
  | unverified | completes => exact transitionTo_cases (P := fun d => late d.pc = true) rfl fun _ => rfl
  | raises | reraises | verifies | returns | verified => rfl
  | stays | called | events | writerFails | digest => exact h

end

section
variable {S : Setup} {s s' : Sys}

theorem sysStep_late {a : SysAct} (h : late s.ctl.pc = true) (hs : sysStep S s a = some s') :
    late s'.ctl.pc = true := by
  have hm := sysStep_control hs
  generalize s.ctl = c at hm h
  generalize s'.ctl = d at hm
  cases hm with
  | own b d hb => exact late_step h hb
  | writerFails e d hb => exact late_step h hb
  | events => exact h

/-- The calls so far, as long as the thread event is not set. -/
structure Steered (S : Setup) (s : Sys) : Prop where
  explained : Explained S False s
  gated : Gated s.ctl

theorem Steered.step {a : SysAct} (h : Steered S s) (hstop : s.ctl.ev.stopThread = false)
    (hs : sysStep S s a = some s') : Steered S s' := by
  have hguard : Unrevived s a := by
    cases a with
    | control b => exact fun _ => hstop
    | _ => trivial
  refine ⟨h.explained.step hguard False.elim hs, ?_⟩
  cases sysStep_moves hs with
  | control b ctl ready hb => exact h.gated.step h.explained.reported hb
  | writerFails e writer ctl hw noticed => exact h.gated.step h.explained.reported noticed
  | pool b ev p started ready hb =>
    rcases poolStep_gives_up hb with ⟨rfl, -⟩ | ⟨rfl, -⟩ | ⟨rfl, -⟩
    · exact ⟨h.gated.pause, h.gated.error, h.gated.created⟩
    · exact ⟨fun hno => (by cases hno), fun _ => rfl, h.gated.created⟩
    · exact ⟨h.gated.pause, h.gated.error, h.gated.created⟩
  | hasher => exact ⟨h.gated.pause, h.gated.error, h.gated.created⟩
  | begin | drop | reach | putDone | putFull | orphanPut | orphanGone | stopPut | writer | saverWakes | saverSaves =>
    exact h.gated

structure Sturdy (S : Setup) (s : Sys) : Prop where
  promised : Promised S s
  going : Going S.chunks s.ctl.ev s.pool
  workers : s.pool.workers ≠ []
  answers : s.pool.run.answers = true
  sentinel : s.stopPut = true → late s.ctl.pc = true
  steered : s.ctl.ev.stopThread = false → Steered S s

theorem not_lossy_of_not_breaks {a : SysAct} (h : a.breaks = false) : a.lossy = false := by
  cases a with
  | pool a => cases a <;> first | rfl | exact (Bool.or_eq_false_iff.mp h).1
  | _ => rfl

theorem Sturdy.step {a : SysAct} (h : Sturdy S s) (ha : a.breaks = false) (hs : sysStep S s a = some s') :
    Sturdy S s' := by
  have hle := sysStep_le h.promised.sound.ordered hs
  have hpool : Going S.chunks s'.ctl.ev s'.pool ∧ s'.pool.workers ≠ [] ∧ s'.pool.run.answers = true := by
    rcases sysStep_pool hs with ⟨b, rfl, hb⟩ | ⟨-, heq⟩
    · obtain ⟨hkills, hcancel⟩ := Bool.or_eq_false_iff.mp ha
      refine ⟨h.going.step hkills hb, ?_, poolStep_answers h.answers h.workers (of_decide_eq_false hcancel) hb⟩
      rw [ne_eq, ← List.length_eq_zero_iff, poolStep_workers hb, List.length_eq_zero_iff]
      exact h.workers
    · rw [heq]
      exact ⟨h.going.le hle, h.workers, h.answers⟩
  refine ⟨h.promised.step (not_lossy_of_not_breaks ha) hs, hpool.1, hpool.2.1, hpool.2.2, fun hput => ?_,
    fun hstop => ?_⟩
  · cases hold : s.stopPut with
    | true => exact sysStep_late (h.sentinel hold) hs
    | false =>
      -- only the step that puts the sentinel sets it, and `start` waits for the writer then
      have hpc : s.ctl.pc = .stoppingWriter := by
        cases sysStep_moves hs with
        | stopPut => exact stopPut_ready hs
        | pool b => cases hold.symm.trans ((settleCall_aside s b).2.symm.trans hput)
        | _ => cases hold.symm.trans hput
      exact sysStep_late (by rw [hpc]; rfl) hs
  · have hbefore : s.ctl.ev.stopThread = false := by
      by_contra hne
      rw [hle.stopThread (Bool.eq_true_of_not_eq_false hne)] at hstop
      cases hstop
    exact (h.steered hbefore).step hbefore hs

theorem Sturdy.init (hsources : S.sources ≠ []) (hthreads : 0 < S.threadsPerSource) :
    Sturdy S (Sys.init S) := by
  refine ⟨Promised.init S, ?_, ?_, rfl, fun h => (by cases h), fun _ => ⟨Explained.init S False, Gated.fresh⟩⟩
  · exact .init _ _ _ (chunks_nodup S) fun i hi hmem => (mem_chunks.mp hi).2 (List.mem_dedup.mp hmem)
  · exact init_workers hsources hthreads

end

end Mrdl.System
