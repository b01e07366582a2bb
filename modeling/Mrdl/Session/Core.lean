import Mrdl.Session.Persistence
import Mrdl.Foundations.FileBytes
import Mrdl.Foundations.Tiling

/-! # From the probe to the chunk queue

The part of `Downloader.start` before the workers run, with the `SessionManager` methods it calls,
as one function of the disk. Three places look at what an earlier run left: `claimDestination` at the
existence of the destination, `prepareFile` at its length, and `loadResumeState` at the progress file
alone.
-/

namespace Mrdl.Session
open FileBytes
set_option autoImplicit false

/-- `compute_total_chunks`. A `chunk_size` of 0 raises `ZeroDivisionError` there. -/
def computeTotalChunks (totalSize : ℤ) (chunkSize : ℕ) : ℕ :=
  if totalSize ≤ 0 then 1 else ((totalSize + chunkSize - 1) / chunkSize).toNat

section
variable {totalSize : ℤ} {chunkSize : ℕ}

theorem computeTotalChunks_eq_count (hsize : 0 < totalSize) (hchunk : 0 < chunkSize) :
    computeTotalChunks totalSize chunkSize = Tiling.count totalSize.toNat chunkSize := by
  obtain ⟨size, rfl⟩ := Int.eq_ofNat_of_zero_le hsize.le
  rw [computeTotalChunks, if_neg (not_le.mpr hsize), Tiling.count, Int.toNat_natCast]
  have hcast : (size : ℤ) + chunkSize - 1 = ((size + chunkSize - 1 : ℕ) : ℤ) := by omega
  rw [hcast, ← Int.natCast_div, Int.toNat_natCast]

theorem computeTotalChunks_cast (hsize : 0 < totalSize) :
    (computeTotalChunks totalSize chunkSize : ℤ) = (totalSize + chunkSize - 1) / chunkSize := by
  rw [computeTotalChunks, if_neg (not_le.mpr hsize), Int.toNat_of_nonneg]
  exact Int.ediv_nonneg (by omega) (Int.natCast_nonneg _)

end

/-- `_apply_probe_fallback`, with the test in front of it: one worker on the first mirror, and the
whole file as one chunk. -/
def applyProbeFallback (cfg : DownloadConfig) (metadata : FileMetadata) : DownloadConfig :=
  if metadata.totalSize = 0 ∨ metadata.acceptsRanges = false then
    { cfg with
      threadsPerMirror := 1
      urls := cfg.urls.take 1
      chunkSize :=
        if metadata.totalSize > 0 then metadata.totalSize.toNat else fallbackUnknownSizeChunk }
  else cfg

/-! ## The disk -/

/-- The destination and the progress file. -/
structure Disk where
  dest : Option Bytes
  progress : ProgressFile

/-- How the operating system answers: whether `os.remove` and the removal of the progress file fail,
and whether there is an `os.fallocate` that works. -/
structure Platform where
  removeFails : Bool := false
  clearFails : Bool := false
  fallocates : Bool := false

/-- The check of the destination at the beginning of `start`. -/
def claimDestination (cfg : DownloadConfig) (os : Platform) (disk : Disk) : Except StartError Disk :=
  match disk.dest with
  | none => .ok disk
  | some old =>
      if cfg.overwrite then
        if os.clearFails then .error .clearFailed
        else .ok ⟨if os.removeFails then some old else none, .absent⟩
      else
        match load disk.progress with
        | .error e => .error e
        | .ok none => .error .destinationExists
        | .ok (some _) => .ok disk

/-- `SessionManager.prepare_file`: create the file, and give it the announced size. `fallocate` only
extends, `ftruncate` also cuts. -/
def prepareFile (os : Platform) (dest : Option Bytes) (totalSize : ℤ) : Bytes :=
  let file := dest.getD []
  if totalSize > 0 then
    if os.fallocates then file ++ List.replicate (totalSize.toNat - file.length) 0
    else resize file totalSize.toNat
  else file

/-! ## The resume state -/

/-- The saved state that is resumed from, or a fresh one. -/
def chooseState (saved : Option Json) (metadata : FileMetadata) (chunkSize : ℕ) :
    Except StartError Dict :=
  match saved with
  | none => .ok (buildFreshState metadata chunkSize)
  | some j =>
      if j.truthy then
        match j with
        | .obj fields =>
            .ok (if validateForResume fields metadata chunkSize then fields
              else buildFreshState metadata chunkSize)
        | _ => .error .attributeError
      else .ok (buildFreshState metadata chunkSize)

/-- `completed`, or nothing when it is no list. -/
def completedList (state : Dict) : List Json :=
  match state.get "completed" with
  | .arr xs => xs
  | _ => []

/-- `SessionManager.load_resume_state`: the state and the set of completed chunks. -/
def loadResumeState (progress : ProgressFile) (metadata : FileMetadata) (chunkSize : ℕ) :
    Except StartError (Dict × List Json) :=
  match load progress with
  | .error e => .error e
  | .ok saved =>
      match chooseState saved metadata chunkSize with
      | .error e => .error e
      | .ok state =>
          let completed := completedList state
          if completed.all Json.hashable then
            .ok (state.set "completed" (.arr completed), pySet completed)
          else .error .unhashable

theorem loadResumeState_ok {progress : ProgressFile} {metadata : FileMetadata} {chunkSize : ℕ}
    {state : Dict} {completed : List Json}
    (h : loadResumeState progress metadata chunkSize = .ok (state, completed)) :
    ∃ saved chosen, load progress = .ok saved ∧ chooseState saved metadata chunkSize = .ok chosen ∧
      state = chosen.set "completed" (.arr (completedList chosen)) ∧
      completed = pySet (completedList chosen) := by
  unfold loadResumeState at h
  split at h
  · cases h
  rename_i saved hload
  split at h
  · cases h
  rename_i chosen hchoose
  simp only at h
  split at h
  case isFalse => cases h
  cases h
  exact ⟨saved, chosen, hload, hchoose, rfl, rfl⟩

/-- `SessionManager.build_chunk_queue`. -/
def buildChunkQueue (totalChunks : ℕ) (completed : List Json) : List QueueItem :=
  ((List.range totalChunks).filter fun i => !inSet completed i).map fun i : ℕ => ⟨0, i, 0⟩

/-! ## The beginning of `start` -/

/-- What `start` hands to its workers. -/
structure Opened where
  cfg : DownloadConfig
  metadata : FileMetadata
  file : Bytes
  downloadState : Dict
  completedSet : List Json
  remainingChunks : List QueueItem

/-- `start`, from its beginning to the chunk queue, for the metadata the probe reports. -/
def openSession (cfg : DownloadConfig) (os : Platform) (disk : Disk) (metadata : FileMetadata) :
    Except StartError Opened :=
  match claimDestination cfg os disk with
  | .error e => .error e
  | .ok disk' =>
      let cfg' := applyProbeFallback cfg metadata
      match loadResumeState disk'.progress metadata cfg'.chunkSize with
      | .error e => .error e
      | .ok (state, completed) =>
          .ok
            { cfg := cfg'
              metadata := metadata
              file := prepareFile os disk'.dest metadata.totalSize
              downloadState := state
              completedSet := completed
              remainingChunks :=
                buildChunkQueue (computeTotalChunks metadata.totalSize cfg'.chunkSize) completed }

/-- A session that is opened: the destination was claimed, and a state was found or made. -/
theorem openSession_ok {cfg : DownloadConfig} {os : Platform} {disk : Disk} {metadata : FileMetadata}
    {s : Opened} (h : openSession cfg os disk metadata = .ok s) :
    ∃ disk' state completed, claimDestination cfg os disk = .ok disk' ∧
      loadResumeState disk'.progress metadata (applyProbeFallback cfg metadata).chunkSize =
        .ok (state, completed) ∧
      s =
        { cfg := applyProbeFallback cfg metadata
          metadata := metadata
          file := prepareFile os disk'.dest metadata.totalSize
          downloadState := state
          completedSet := completed
          remainingChunks := buildChunkQueue
            (computeTotalChunks metadata.totalSize (applyProbeFallback cfg metadata).chunkSize) completed } := by
  unfold openSession at h
  split at h
  · cases h
  rename_i disk' hclaim
  simp only at h
  split at h
  · cases h
  rename_i state completed hload
  cases h
  exact ⟨disk', state, completed, hclaim, hload, rfl⟩

theorem mem_buildChunkQueue {n : ℕ} {completed : List Json} {item : QueueItem} :
    item ∈ buildChunkQueue n completed ↔
      ∃ i : ℕ, i < n ∧ inSet completed i = false ∧ item = ⟨0, i, 0⟩ := by
  simp only [buildChunkQueue, List.mem_map, List.mem_filter, List.mem_range, Bool.not_eq_true',
    and_assoc]
  exact exists_congr fun i => and_congr_right fun _ => and_congr_right fun _ => eq_comm

/-- A chunk of the file is left out of the queue exactly when it is in the completed set. -/
theorem queued_iff {n : ℕ} {completed : List Json} {i : ℕ} (hi : i < n) :
    (∃ item ∈ buildChunkQueue n completed, item.chunkIdx = i) ↔ inSet completed i = false := by
  constructor
  · rintro ⟨item, hitem, hidx⟩
    obtain ⟨j, -, hj, rfl⟩ := mem_buildChunkQueue.mp hitem
    have hij : j = i := Int.natCast_inj.mp hidx
    rwa [hij] at hj
  · intro h
    exact ⟨⟨0, i, 0⟩, mem_buildChunkQueue.mpr ⟨i, hi, h, rfl⟩, rfl⟩

end Mrdl.Session
