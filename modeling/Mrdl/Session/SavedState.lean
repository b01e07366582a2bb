import Mrdl.Session.Resume
import Mrdl.Foundations.Runs

/-! # What a run that fails its checksum leaves in the progress file

One run, seen from its progress file: the workers record chunks, the saver task and `pause` save
snapshots, and once every chunk is recorded the end of the run saves the whole set before the digest
is compared. A digest that differs makes the run `FAILED` and leaves the file as it is. A save is one
step, its `os.replace`; the saver's own save runs in a thread of its own and may land at any later
time, also after the run. Both use one temporary file, so two that overlap may leave a text that is
no JSON.
-/

namespace Mrdl.Session
open Runs
set_option autoImplicit false

inductive Phase
  | working
  | drained
  | saved
  | mismatched
  deriving DecidableEq, Repr

structure SavingRun where
  progress : ProgressFile
  downloadState : Dict
  completedSet : List Json
  lastSaved : ℕ
  /-- `state_copy`, in the hands of the saver's thread. -/
  inFlight : Option Dict := none
  phase : Phase := .working
  /-- The list in the snapshot that reached the progress file last. -/
  landed : Option (List Json) := none

/-- `self._completed_set.add(chunk_idx)`. -/
def addChunk (completed : List Json) (i : ℕ) : List Json :=
  if inSet completed i then completed else completed ++ [.int i]

/-- `download_state["completed"] = list(completed_set)`. -/
def SavingRun.snapshot (r : SavingRun) : Dict := r.downloadState.set "completed" (.arr r.completedSet)

/-- The run begins with the state `load_resume_state` chose. -/
def SavingRun.init (progress : ProgressFile) (s : Opened) : SavingRun where
  progress := progress
  downloadState := s.downloadState
  completedSet := s.completedSet
  lastSaved := (completedList s.downloadState).length

/-- Chunk `i` is listed in the snapshot that landed last, or in the progress file the run began with
when none has landed. -/
def SavingRun.lists (r : SavingRun) (initial : ProgressFile) (metadata : FileMetadata)
    (chunkSize i : ℕ) : Bool :=
  match r.landed with
  | some xs => inSet xs i
  | none => resumable initial metadata chunkSize i

/-! ## What a step can do -/

/-- Every state dict of the run passes `validate_for_resume`, so the progress file is either the one
the run began with or lists what landed last. -/
structure SavingInv (initial : ProgressFile) (metadata : FileMetadata) (chunkSize totalChunks : ℕ)
    (r : SavingRun) : Prop where
  stateValid : validateForResume r.downloadState metadata chunkSize = true
  inFlightValid : ∀ d, r.inFlight = some d → validateForResume d metadata chunkSize = true
  left : r.progress = .malformed ∨
    ∀ i, resumable r.progress metadata chunkSize i = r.lists initial metadata chunkSize i
  recorded : r.phase ≠ .working → ∀ i < totalChunks, inSet r.completedSet i = true

section
variable {initial : ProgressFile} {metadata : FileMetadata} {chunkSize totalChunks : ℕ}
  {r t : SavingRun}

end

theorem SavingInv.init {cfg : DownloadConfig} {os : Platform} {disk : Disk} {metadata : FileMetadata}
    {s : Opened} (h : openSession cfg os disk metadata = .ok s) (totalChunks : ℕ) :
    SavingInv (progressAfterClaim cfg disk) metadata s.cfg.chunkSize totalChunks
      (SavingRun.init (progressAfterClaim cfg disk) s) where
  stateValid := (openSession_skips h).2.1
  inFlightValid := fun d hd => by cases hd
  left := Or.inr fun i => rfl
  recorded := fun hw => absurd rfl hw

/-! ## The run after it -/

end Mrdl.Session
