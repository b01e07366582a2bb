import Mrdl.Session.Core

/-! # Which chunks a resumed run skips

A chunk is left out of the queue when the progress file lists it and passes `validateForResume`.
Neither looks at the destination, so the list is believed whatever the destination holds.
-/

namespace Mrdl.Session
open FileBytes
set_option autoImplicit false

/-- The progress file is usable for this download and lists chunk `i`. -/
def resumable (progress : ProgressFile) (metadata : FileMetadata) (chunkSize i : ℕ) : Bool :=
  match progress with
  | .state (.obj fields) =>
      validateForResume fields metadata chunkSize && inSet (completedList fields) i
  | _ => false

theorem completedList_fresh (metadata : FileMetadata) (chunkSize : ℕ) :
    completedList (buildFreshState metadata chunkSize) = [] := rfl

/-- The state a run works with is valid, and its list is the set of completed chunks. -/
theorem loadResumeState_spec {progress : ProgressFile} {metadata : FileMetadata} {chunkSize : ℕ}
    {state : Dict} {completed : List Json}
    (h : loadResumeState progress metadata chunkSize = .ok (state, completed)) :
    validateForResume state metadata chunkSize = true ∧
      ∀ i, inSet completed i = resumable progress metadata chunkSize i := by
  obtain ⟨saved, chosen, hload, hchoose, rfl, rfl⟩ := loadResumeState_ok h
  rw [validateForResume_set_completed]
  simp only [inSet_pySet]
  have hfresh : ∀ i, resumable progress metadata chunkSize i = false →
      chosen = buildFreshState metadata chunkSize →
      inSet (completedList chosen) i = resumable progress metadata chunkSize i := by
    intro i hres hch
    rw [hch, completedList_fresh, hres]
    rfl
  cases saved with
  | none =>
    cases hchoose
    refine ⟨buildFreshState_valid metadata chunkSize, fun i => hfresh i ?_ rfl⟩
    cases progress with
    | state j => cases hload
    | _ => rfl
  | some j =>
    have hprog : progress = .state j := by
      cases progress with
      | state j' =>
        cases hload
        rfl
      | _ => cases hload
    subst hprog
    unfold chooseState at hchoose
    simp only at hchoose
    split at hchoose
    · split at hchoose
      · rename_i fields _
        cases hchoose
        by_cases hv : validateForResume fields metadata chunkSize = true
        · rw [if_pos hv]
          exact ⟨hv, fun i => by simp [resumable, hv]⟩
        · rw [if_neg hv] at hfresh ⊢
          exact ⟨buildFreshState_valid metadata chunkSize,
            fun i => hfresh i (by simp [resumable, hv]) rfl⟩
      · cases hchoose
    · rename_i htruthy
      cases hchoose
      refine ⟨buildFreshState_valid metadata chunkSize, fun i => hfresh i ?_ rfl⟩
      cases j with
      | obj fields =>
        have hnil : fields = [] := by simpa [Json.truthy] using htruthy
        rw [hnil]
        rfl
      | _ => rfl

/-- The progress file as `start` finds it after its check of the destination: an overwritten download
has none. -/
def progressAfterClaim (cfg : DownloadConfig) (disk : Disk) : ProgressFile :=
  if cfg.overwrite ∧ disk.dest.isSome then .absent else disk.progress

theorem claimDestination_progress {cfg : DownloadConfig} {os : Platform} {disk disk' : Disk}
    (h : claimDestination cfg os disk = .ok disk') :
    disk'.progress = progressAfterClaim cfg disk := by
  unfold claimDestination at h
  unfold progressAfterClaim
  split at h
  · rename_i hdest
    cases h
    simp [hdest]
  · rename_i old hdest
    split at h
    · rename_i hover
      split at h
      · cases h
      · cases h
        simp [hdest, hover]
    · rename_i hover
      split at h
      · cases h
      · cases h
      · cases h
        simp [hover]

/-- Exactly the chunks listed in the progress file that was believed are left out of the queue. -/
theorem openSession_skips {cfg : DownloadConfig} {os : Platform} {disk : Disk}
    {metadata : FileMetadata} {s : Opened} (h : openSession cfg os disk metadata = .ok s) :
    s.cfg = applyProbeFallback cfg metadata ∧
    validateForResume s.downloadState metadata s.cfg.chunkSize = true ∧
    s.remainingChunks =
      buildChunkQueue (computeTotalChunks metadata.totalSize s.cfg.chunkSize) s.completedSet ∧
    ∀ i, inSet s.completedSet i =
      resumable (progressAfterClaim cfg disk) metadata s.cfg.chunkSize i := by
  obtain ⟨disk', state, completed, hclaim, hload, rfl⟩ := openSession_ok h
  obtain ⟨hvalid, hlisted⟩ := loadResumeState_spec hload
  rw [claimDestination_progress hclaim] at hlisted
  exact ⟨rfl, hvalid, rfl, hlisted⟩

/-! ## Skipped chunks and the destination -/

/-- The end of the byte range of chunk `i`; of a file of unknown size nothing is known. -/
def chunkEnd (totalSize : ℤ) (chunkSize i : ℕ) : ℕ := min ((i + 1) * chunkSize) totalSize.toNat

/-- The destination existed and extended over the byte range of chunk `i`. -/
def Extends (disk : Disk) (totalSize : ℤ) (chunkSize i : ℕ) : Prop :=
  ∃ old, disk.dest = some old ∧ chunkEnd totalSize chunkSize i ≤ old.length

/-- No chunk the destination cannot contain is skipped, exactly when an existing destination is
overwritten or every chunk that a usable progress file lists lies inside the destination. -/
theorem skipped_within_iff (cfg : DownloadConfig) (os : Platform) (disk : Disk)
    (metadata : FileMetadata) (s : Opened) (hopen : openSession cfg os disk metadata = .ok s) :
    (∀ i < computeTotalChunks metadata.totalSize s.cfg.chunkSize,
      (∀ item ∈ s.remainingChunks, item.chunkIdx ≠ i) →
        Extends disk metadata.totalSize s.cfg.chunkSize i) ↔
    (cfg.overwrite = true ∧ disk.dest.isSome = true) ∨
      ∀ i < computeTotalChunks metadata.totalSize s.cfg.chunkSize,
        resumable disk.progress metadata s.cfg.chunkSize i = true →
          Extends disk metadata.totalSize s.cfg.chunkSize i := by
  obtain ⟨-, -, hqueue, hlisted⟩ := openSession_skips hopen
  have hskip : ∀ i < computeTotalChunks metadata.totalSize s.cfg.chunkSize,
      (∀ item ∈ s.remainingChunks, item.chunkIdx ≠ i) ↔
        resumable (progressAfterClaim cfg disk) metadata s.cfg.chunkSize i = true := by
    intro i hi
    rw [← hlisted, ← Bool.not_eq_false, ← queued_iff hi, hqueue]
    simp
  by_cases hover : cfg.overwrite = true ∧ disk.dest.isSome = true
  · have hnone : progressAfterClaim cfg disk = .absent := if_pos hover
    simp only [hover, and_self, true_or, iff_true]
    intro i hi hout
    have habs := (hskip i hi).mp hout
    rw [hnone] at habs
    cases habs
  · have hsame : progressAfterClaim cfg disk = disk.progress := if_neg hover
    rw [hsame] at hskip
    simp only [hover, false_or]
    exact forall_congr' fun i => forall_congr' fun hi => by rw [hskip i hi]

/-- A progress file left next to a destination that was removed: no chunk is queued. -/
theorem leftover_progress_skips :
    ∃ s, openSession { urls := ["m"], chunkSize := 2 } {}
        ⟨none, .state (.obj [("total_size", .int 4), ("chunk_size", .int 2),
          ("completed", .arr [.int 0, .int 1])])⟩ ⟨4, true, none, none⟩ = .ok s ∧
      ¬ ∀ i < computeTotalChunks 4 s.cfg.chunkSize,
        (∀ item ∈ s.remainingChunks, item.chunkIdx ≠ i) →
          Extends ⟨none, .state (.obj [("total_size", .int 4), ("chunk_size", .int 2),
            ("completed", .arr [.int 0, .int 1])])⟩ 4 s.cfg.chunkSize i := by
  refine ⟨_, rfl, fun h => ?_⟩
  obtain ⟨old, hold, -⟩ := h 0 (by decide) (fun item hitem => by cases hitem)
  cases hold

/-- The same progress file next to the finished destination. -/
theorem finished_destination_skips : ∃ s : Opened,
    openSession { urls := ["m"], chunkSize := 2 } {}
        ⟨some [1, 2, 3, 4], .state (.obj [("total_size", .int 4), ("chunk_size", .int 2),
          ("completed", .arr [.int 0, .int 1])])⟩ ⟨4, true, none, none⟩ = .ok s ∧
      ∀ i < computeTotalChunks 4 s.cfg.chunkSize, (∀ item ∈ s.remainingChunks, item.chunkIdx ≠ i) →
        Extends ⟨some [1, 2, 3, 4], .state (.obj [("total_size", .int 4), ("chunk_size", .int 2),
          ("completed", .arr [.int 0, .int 1])])⟩ 4 s.cfg.chunkSize i :=
  ⟨_, rfl, (skipped_within_iff { urls := ["m"], chunkSize := 2 } {}
    ⟨some [1, 2, 3, 4], .state (.obj [("total_size", .int 4), ("chunk_size", .int 2),
      ("completed", .arr [.int 0, .int 1])])⟩ ⟨4, true, none, none⟩ _ rfl).mpr
    (Or.inr fun _ _ _ => ⟨[1, 2, 3, 4], rfl, Nat.min_le_right _ _⟩)⟩

end Mrdl.Session
