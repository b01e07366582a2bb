import Mrdl.System.Landed
import Mrdl.System.Results

/-! # The command line

`main` runs `start` to its end and turns what comes of it into a message and an exit status. It makes no call
to the downloader, and never tells it to overwrite; an interrupt from the keyboard cancels the task that runs
`start`, which ends with `CancelledError` then, unless it is closing its session at that moment.
-/

namespace Mrdl.Cli
open Downloader Mrdl.System Runs Session
set_option autoImplicit false

/-- What `asyncio.run` comes to. -/
inductive Ran
  | returned (result : DownloadResult)
  | keyboardInterrupt
  | raised (text : String)
  deriving DecidableEq, Repr

/-- The exit status, with what was written to the two streams. -/
structure Exit where
  code : ℕ
  out : List String := []
  err : List String := []
  deriving DecidableEq, Repr

/-- `DownloadState.value`. -/
def value : DownloadState → String
  | .idle => "idle"
  | .probing => "probing"
  | .downloading => "downloading"
  | .paused => "paused"
  | .completed => "completed"
  | .failed => "failed"
  | .cancelled => "cancelled"

/-- `str(e)` of what `start` raises; `other` is the text of an exception that is not its own. -/
def errorText (filename other : String) : Raised → String
  | .invalidTransition old new => "Cannot transition from " ++ value old ++ " to " ++ value new
  | .destinationExists =>
      "Destination '" ++ filename ++ "' exists and no resume state found. Use overwrite=True."
  | .cancelled => ""
  | .other => other

/-- `asyncio.run`: a task that was cancelled by the signal handler ends with `KeyboardInterrupt`. -/
def asyncioRun (filename other : String) : StartOutcome → Ran
  | .returned result => .returned result
  | .raised .cancelled => .keyboardInterrupt
  | .raised x => .raised (errorText filename other x)

def hashFailed : String := "Download completed but hash verification failed."

/-- `main`, from the call of `asyncio.run` on. `timeTaken` is the time with its two decimals. -/
def main (checksum : Option String) (timeTaken : String) : Ran → Exit
  | .returned result =>
      let timed := "Time taken: " ++ timeTaken ++ "s"
      if result.status = .completed then
        if checksum.getD "" ≠ "" ∧ result.hashMatched = false then { code := 1, out := [timed, hashFailed] }
        else { code := 0, out := [timed, "Download completed successfully."] }
      else { code := 1, out := [timed, "Download failed with status: " ++ value result.status] }
  | .keyboardInterrupt => { code := 130, out := ["\r\x1b[K"] }
  | .raised text => { code := 1, err := ["Error during download: " ++ text] }

section
variable {checksum : Option String} {timeTaken filename other : String}

theorem main_completed {r : DownloadResult} (h : r.status = .completed) (hmatched : r.hashMatched = true) :
    main checksum timeTaken (.returned r) =
      { code := 0, out := ["Time taken: " ++ timeTaken ++ "s", "Download completed successfully."] } := by
  simp only [main, if_pos h, hmatched, Bool.true_eq_false, and_false, if_false]

theorem main_failed {r : DownloadResult} (h : r.status = .failed) :
    main checksum timeTaken (.returned r) =
      { code := 1, out := ["Time taken: " ++ timeTaken ++ "s", "Download failed with status: failed"] } := by
  simp only [main, h]
  rfl

theorem timed_ne_hashFailed (t : String) : "Time taken: " ++ t ++ "s" ≠ hashFailed := by
  intro h
  have hchars := congrArg String.toList h
  simp [hashFailed, String.toList_append] at hchars

/-- No interrupt has reached `start`. -/
structure Uninterrupted (c : Control) : Prop where
  outcome : c.outcome ≠ some (.raised .cancelled)
  pending : c.pending ≠ some .cancelled

theorem Uninterrupted.raise {c : Control} (h : Uninterrupted c) {x : Raised} (hx : x ≠ .cancelled) :
    Uninterrupted (c.raise x) :=
  ⟨fun ho => hx (StartOutcome.raised.inj (Option.some.inj ho)), h.pending⟩

theorem Uninterrupted.finish {c : Control} (h : Uninterrupted c) (verified : Bool) :
    Uninterrupted (c.finish verified) :=
  ⟨nofun, h.pending⟩

theorem Uninterrupted.transitionTo {c : Control} (h : Uninterrupted c) {new : DownloadState}
    {next : Control → Control} (hnext : Uninterrupted (next { c with state := new })) :
    Uninterrupted (c.transitionTo new next) := by
  unfold Control.transitionTo
  split
  · exact hnext
  · exact h.raise nofun

theorem Uninterrupted.step {c d : Control} {a : Act} (h : Uninterrupted c) (ha : a ≠ .startCancelled)
    (hs : controlStep c a = some d) : Uninterrupted d := by
  have houtcome := h.outcome
  have hpending := h.pending
  cases controlStep_moves hs with
  | probesAtOnce =>
    have hfresh : Uninterrupted { c with ev := {} } := ⟨houtcome, hpending⟩
    refine hfresh.transitionTo ?_
    exact ⟨houtcome, hpending⟩
  | probes | prepares =>
    refine h.transitionTo ?_
    exact ⟨houtcome, hpending⟩
  | probeFails | unverified | completes =>
    refine h.transitionTo ?_
    exact ⟨nofun, hpending⟩
  | raises a x here calm own blame => exact h.raise fun hx => ha (blame hx)
  | poolLeft a x paused state here calm own kept blame =>
    exact ⟨houtcome, fun hp => ha (blame (Option.some.inj hp))⟩
  | reraises x here pending => exact h.raise fun hx => hpending (hx ▸ pending)
  | returns => exact h.finish false
  | checks =>
    refine checkEnd_cases (fun _ => ⟨houtcome, hpending⟩) fun text => ?_
    have hsame : Uninterrupted { c with lastError := text } := ⟨houtcome, hpending⟩
    exact hsame.transitionTo ⟨houtcome, hpending⟩
  | _ => exact ⟨houtcome, hpending⟩

/-- `start` ends with `CancelledError` only when its task was cancelled. -/
theorem interrupted_of_cancelled {S : Setup} {s : Sys} {as : List SysAct}
    (hrun : exec (sysStep S) (Sys.init S) as = some s) (ho : s.ctl.outcome = some (.raised .cancelled)) :
    .control .startCancelled ∈ as := by
  by_contra hno
  have hinit : Uninterrupted (Sys.init S).ctl := ⟨(fun h => by cases h), (fun h => by cases h)⟩
  have hstill : Uninterrupted s.ctl := by
    refine exec_guarded (P := fun s => Uninterrupted s.ctl) (G := fun _ a => a ≠ .control .startCancelled)
      (fun s a t h ha hs => ?_) hinit (.of_mem (fun _ _ ha => ne_of_mem_of_not_mem ha hno) _) hrun
    have hmove := sysStep_control hs
    generalize t.ctl = d at hmove
    cases hmove with
    | own b d hb => exact h.step (fun heq => ha (heq ▸ rfl)) hb
    | writerFails e d hb => exact h.step Act.noConfusion hb
    | events => exact ⟨h.outcome, h.pending⟩
  exact hstill.outcome ho

/-- What the shell is told of a whole run: 0 for a completed download and for nothing else, 130 when `start`
ended with `CancelledError`, which takes an interrupt, and otherwise 1 with the word `failed` or with the
text of an exception. That the hash did not match is never told of a completed download. -/
theorem exit_status {S : Setup} {s : Sys} {as : List SysAct} {o : StartOutcome} (checksum : Option String)
    (timeTaken filename other : String) (hcalm : ∀ a ∈ as, Uncalled a)
    (hrun : exec (sysStep S) (Sys.init S) as = some s) (ho : s.ctl.outcome = some o) :
    ((main checksum timeTaken (asyncioRun filename other o)).code = 0 ↔
      ∃ r, o = .returned r ∧ r.status = .completed) ∧
    ((main checksum timeTaken (asyncioRun filename other o)).code = 130 ↔ o = .raised .cancelled) ∧
    (o = .raised .cancelled → .control .startCancelled ∈ as) ∧
    hashFailed ∉ (main checksum timeTaken (asyncioRun filename other o)).out ∧
    ((main checksum timeTaken (asyncioRun filename other o)).code ≠ 0 →
      (main checksum timeTaken (asyncioRun filename other o)).code ≠ 130 →
      (main checksum timeTaken (asyncioRun filename other o)).code = 1 ∧
        ("Download failed with status: failed" ∈ (main checksum timeTaken (asyncioRun filename other o)).out ∨
          ∃ x, o = .raised x ∧ (main checksum timeTaken (asyncioRun filename other o)).err =
            ["Error during download: " ++ errorText filename other x])) := by
  have hinterrupt : o = .raised .cancelled → .control .startCancelled ∈ as := by
    rintro rfl
    exact interrupted_of_cancelled hrun ho
  cases o with
  | returned r =>
    have hfits := uncalled_result hcalm hrun ho
    simp only [asyncioRun, StartOutcome.returned.injEq, exists_eq_left', reduceCtorEq, iff_false]
    rcases hfits.2 trivial with hs | hs
    · have hmatched : r.hashMatched = true := by
        have hcoherent := hfits.1
        rw [Coherent, hs] at hcoherent
        exact hcoherent.1
      rw [main_completed hs hmatched]
      refine ⟨iff_of_true rfl hs, nofun, nofun, ?_, fun hcode => absurd rfl hcode⟩
      simp only [List.mem_cons, List.not_mem_nil, or_false, not_or]
      exact ⟨(timed_ne_hashFailed timeTaken).symm, by decide⟩
    · rw [main_failed hs]
      refine ⟨iff_of_false nofun ?_, nofun, nofun, ?_, fun _ _ => ⟨rfl, Or.inl ?_⟩⟩
      · rw [hs]
        decide
      · simp only [List.mem_cons, List.not_mem_nil, or_false, not_or]
        exact ⟨(timed_ne_hashFailed timeTaken).symm, by decide⟩
      · exact List.mem_cons_of_mem _ (List.mem_singleton.mpr rfl)
  | raised x =>
    cases x with
    | cancelled =>
      have hout : hashFailed ∉ (["\r\x1b[K"] : List String) := by decide
      exact ⟨by simp [asyncioRun, main], by simp [asyncioRun, main], hinterrupt, hout,
        fun _ hcode => absurd rfl hcode⟩
    | _ =>
      exact ⟨by simp [asyncioRun, main], by simp [asyncioRun, main], hinterrupt, by simp [asyncioRun, main],
        fun _ _ => ⟨rfl, Or.inr ⟨_, rfl, rfl⟩⟩⟩

end

theorem exit_status_twoBytes :
    (main none "0.01" (asyncioRun "file" "" (.returned ⟨.completed, true, none, none⟩))).code = 0 := by
  obtain ⟨s, hrun, hreturned⟩ : ∃ s, exec (sysStep twoBytes) (Sys.init twoBytes)
      (chunkFetched ++ chunkWritten ++ endedWell) = some s ∧
        s.ctl.outcome = some (.returned ⟨.completed, true, none, none⟩) :=
    ⟨(exec (sysStep twoBytes) (Sys.init twoBytes) (chunkFetched ++ chunkWritten ++ endedWell)).get
      (by decide +kernel), (Option.some_get _).symm, by decide +kernel⟩
  exact (exit_status none "0.01" "file" "" (by decide) hrun hreturned).1.mpr ⟨_, rfl, rfl⟩

end Mrdl.Cli
