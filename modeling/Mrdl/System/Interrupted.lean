import Mrdl.System.MappedBytes
import Mrdl.Session.Resume
import Mrdl.Foundations.Restarts

/-! # Runs that are cut off and started again

The program reads the destination and the progress file when it begins, and may be killed at any moment.
What it leaves then is the destination as it was by that moment, and a progress file that is old, gone,
mangled, or one of those it saved: `save` replaces the file as a whole. A disk is honest when the bytes
of every chunk that its progress file lists are in its destination. There is one moment at which a run from
an honest disk leaves one that is not: `start` removes a destination that it is told to overwrite before it
removes the progress file.
-/

namespace Mrdl.System
open FileBytes Downloader Workers Writer Hasher Runs Session
set_option autoImplicit false

/-- What is the same in every run. -/
structure Program where
  cfg : DownloadConfig
  os : Platform := {}
  metadata : FileMetadata
  fetcher : Fetcher.FetcherConfig
  hash : Option (HashSpec × HashAlgo) := none

namespace Program

def chunkSize (P : Program) : ℕ := (applyProbeFallback P.cfg P.metadata).chunkSize

def size (P : Program) : ℕ := P.metadata.totalSize.toNat

def totalChunks (P : Program) : ℕ := computeTotalChunks P.metadata.totalSize P.chunkSize

/-- The run that begins from the disk, unless `start` raises before its workers run. -/
def opened (P : Program) (disk : Disk) : Option Setup :=
  match claimDestination P.cfg P.os disk, openSession P.cfg P.os disk P.metadata with
  | .ok claimed, .ok o => some (Setup.ofOpened o P.fetcher P.os claimed.dest P.hash)
  | _, _ => none

/-- What `_save_state` writes at a `pause` that comes before the resume state is loaded. -/
def blankState : ProgressFile := .state (.obj [("completed", .arr [])])

/-- The disk after a run that was cut off, or raised, before its workers ran: in the check of the destination,
where an overwritten one is removed first and its progress file after it, or later, when the file may have
been created, or have its size already. -/
inductive LeavesEarly (P : Program) (disk : Disk) : Disk → Prop
  | unclaimed : LeavesEarly P disk disk
  | removed (hover : P.cfg.overwrite = true) : LeavesEarly P disk ⟨none, disk.progress⟩
  | cleared (hover : P.cfg.overwrite = true) : LeavesEarly P disk ⟨disk.dest, .absent⟩
  | claimed (claimed disk' : Disk) (h : claimDestination P.cfg P.os disk = .ok claimed)
      (hdest : disk'.dest = claimed.dest ∨ disk'.dest = some (claimed.dest.getD []) ∨
        disk'.dest = some (prepareFile P.os claimed.dest P.metadata.totalSize))
      (hprogress : disk'.progress = claimed.progress ∨ disk'.progress = blankState) :
      LeavesEarly P disk disk'

/-- The progress file of a run that was cut off, where `saves` are the lists it passed to `save`. A list is
written as the set of completed chunks, with whatever else the progress file listed before. -/
inductive LeavesProgress (P : Program) (disk : Disk) (saves : List (List ℕ)) : ProgressFile → Prop
  | untouched : LeavesProgress P disk saves (progressAfterClaim P.cfg disk)
  | cleared : LeavesProgress P disk saves .absent
  | mangled : LeavesProgress P disk saves .malformed
  | blank : LeavesProgress P disk saves blankState
  | replaced (o : Opened) (saved : List ℕ) (xs : List Json)
      (hopen : openSession P.cfg P.os disk P.metadata = .ok o) (mem : saved ∈ saves)
      (lists : ∀ i < P.totalChunks, inSet xs i = true → i ∈ saved) :
      LeavesProgress P disk saves (.state (.obj (o.downloadState.set "completed" (.arr xs))))

/-- The disk after a run that was cut off while its workers ran, or later. -/
def Leaves (P : Program) (disk : Disk) (file : Bytes) (saves : List (List ℕ)) (disk' : Disk) : Prop :=
  disk'.dest = some file ∧ P.LeavesProgress disk saves disk'.progress

/-- The program on a mapped destination. -/
def mapped (P : Program) : Restarting Disk Setup MapSys MapAct where
  opened := P.opened
  boot := MapSys.init
  step := mapStep
  early := P.LeavesEarly
  left disk _ s := P.Leaves disk s.writer.file s.saves

/-- The program with the queue of `DiskWriter`. -/
def queued (P : Program) : Restarting Disk Setup Sys SysAct where
  opened := P.opened
  boot := Sys.init
  step := sysStep
  early := P.LeavesEarly
  left disk _ s := P.Leaves disk s.writer.file (s.saves.map Save.completed)

/-- The bytes of every chunk that a run would skip are in the destination. -/
def Honest (P : Program) (content : Bytes) (disk : Disk) : Prop :=
  ∀ b < P.size, resumable disk.progress P.metadata P.chunkSize (b / P.chunkSize) = true →
    (disk.dest.getD [])[b]? = content[b]?

end Program

instance (S : Setup) (content : Bytes) (s : MapSys) (a : MapAct) : Decidable (s.ReceivesRight S content a) := by
  unfold MapSys.ReceivesRight
  split <;> infer_instance

instance (a : MapAct) : Decidable (MapSys.Calm a) := by
  unfold MapSys.Calm
  split <;> infer_instance

section
variable {P : Program} {S : Setup} {content : Bytes} {disk disk' : Disk}

/-! ## The beginning of a run -/

theorem opened_setup (h : P.opened disk = some S) :
    S.metadata = P.metadata ∧ S.cfg.chunkSize = P.chunkSize ∧ S.os = P.os ∧
      ∃ claimed, claimDestination P.cfg P.os disk = .ok claimed ∧ S.dest = claimed.dest ∧
        ∀ i, i ∈ S.resumed ↔
          i < P.totalChunks ∧ resumable claimed.progress P.metadata P.chunkSize i = true := by
  unfold Program.opened at h
  split at h
  · rename_i claimed o hclaim hopen
    cases h
    obtain ⟨hcfg, -, -, hlisted⟩ := openSession_skips hopen
    obtain ⟨_, _, _, -, -, ho⟩ := openSession_ok hopen
    have hmeta : o.metadata = P.metadata := by rw [ho]
    refine ⟨hmeta, congrArg DownloadConfig.chunkSize hcfg, rfl, claimed, hclaim, rfl, fun i => ?_⟩
    rw [claimDestination_progress hclaim, Setup.ofOpened, List.mem_filter, List.mem_range, hmeta, hlisted, hcfg]
    exact Iff.rfl
  · cases h

/-- The check of the destination leaves it as it is, or there is no progress file afterwards. -/
theorem claimed_cases (h : claimDestination P.cfg P.os disk = .ok disk') :
    disk' = disk ∨ disk'.progress = .absent := by
  unfold claimDestination at h
  split at h
  · cases h
    exact Or.inl rfl
  · split at h
    · split at h
      · cases h
      · cases h
        exact Or.inr rfl
    · split at h <;> cases h
      exact Or.inl rfl

theorem Program.Honest.claim (h : P.Honest content disk)
    (hclaim : claimDestination P.cfg P.os disk = .ok disk') : P.Honest content disk' := by
  rcases claimed_cases hclaim with rfl | habsent
  · exact h
  · intro b _ hres
    rw [habsent] at hres
    cases hres

/-- `prepare_file` cuts no byte of the content and changes none. -/
theorem prepareFile_getElem? {os : Platform} {dest : Option Bytes} {totalSize : ℤ} {b : ℕ} {x : UInt8}
    (hb : b < totalSize.toNat) (h : (dest.getD [])[b]? = some x) :
    (prepareFile os dest totalSize)[b]? = some x := by
  have hlen := (List.getElem?_eq_some_iff.mp h).1
  unfold prepareFile
  simp only
  split
  · split
    · rwa [List.getElem?_append_left hlen]
    · rw [resize, List.getElem?_append_left (by rw [List.length_take]; omega), List.getElem?_take_of_lt hb]
      exact h
  · exact h

/-- A run from an honest disk begins with the bytes of the chunks it skips. -/
theorem opened_holds (hcontent : content.length = P.size) (h : P.Honest content disk)
    (hopen : P.opened disk = some S) : ∀ i ∈ S.resumed, Holds S content S.file i := by
  obtain ⟨hmeta, hchunk, hos, claimed, hclaim, hdest, hresumed⟩ := opened_setup hopen
  intro i hi b hb hbi
  have hsize : S.size = P.size := by rw [Setup.size, hmeta, Program.size]
  rw [hchunk] at hbi
  rw [hsize] at hb
  have hbyte := h.claim hclaim b hb (hbi ▸ ((hresumed i).mp hi).2)
  have hlt : b < content.length := by omega
  rw [List.getElem?_eq_getElem hlt] at hbyte ⊢
  rw [Setup.file, hdest, hmeta]
  exact prepareFile_getElem? hb hbyte

/-! ## What it leaves -/

/-- The sizes of a run fit the content. -/
structure Suits (content : Bytes) (S : Setup) : Prop where
  size : 0 < S.metadata.totalSize
  chunk : 0 < S.cfg.chunkSize
  length : content.length = S.size

theorem opened_suits (hsize : 0 < P.metadata.totalSize) (hchunk : 0 < P.chunkSize)
    (hcontent : content.length = P.size) (hopen : P.opened disk = some S) : Suits content S := by
  obtain ⟨hmeta, hcs, -⟩ := opened_setup hopen
  refine ⟨?_, ?_, ?_⟩
  · rwa [hmeta]
  · rwa [hcs]
  · rwa [Setup.size, hmeta]

end

/-! ## Killed after the first of two chunks -/

def fourBytes : Program where
  cfg := { urls := ["mirror"], chunkSize := 2 }
  metadata := ⟨4, true, none, none⟩
  fetcher := { chunkSize := 2 }

def pairAnswer (bytes : Bytes) : Fetcher.Attempt where
  reply := .answer { status := 206, pieces := [bytes] }

def onlyFirst : Disk where
  dest := some [7, 8, 0, 0]
  progress := .state (.obj ((buildFreshState fourBytes.metadata 2).set "completed" (.arr [.int 0])))

def firstRun : Setup where
  sources := ["mirror"]
  threadsPerSource := 1
  cfg := { chunkSize := 2 }
  metadata := ⟨4, true, none, none⟩

def secondRun : Setup := { firstRun with dest := onlyFirst.dest, resumed := [0] }

-- What a run that overwrites leaves between the two removals.
example : ¬ fourBytes.Honest [7, 8, 9, 10] ⟨none, onlyFirst.progress⟩ := by
  unfold Program.Honest
  decide +kernel

end Mrdl.System
