import Mrdl.Foundations.Reaching
import Mrdl.Hasher.MmapStop

/-! # How the hasher's thread comes to its end

Every step of the thread but the wait for a chunk brings it nearer to its end, so it ends by itself when the
stop event is set or every chunk is on disk. Without the event it does not get past a chunk that is not.
-/

namespace Mrdl.Hasher
open Runs
set_option autoImplicit false

namespace StreamingHasher

/-- More steps than the thread takes for a chunk. -/
def perChunk (job : HashJob) : ℕ := 2 * job.chunkSize + 4

/-- More steps than the thread has still to take, not counting its waits. -/
def left (job : HashJob) (h : StreamingHasher) : ℕ :=
  match h.pc with
  | .looking => (job.totalChunks - h.currentChunk) * perChunk job + 2
  | .hashing k =>
      (job.totalChunks - (h.currentChunk + 1)) * perChunk job + (2 * (job.chunkLength h.currentChunk - k) + 4)
  | .reading k =>
      (job.totalChunks - (h.currentChunk + 1)) * perChunk job + (2 * (job.chunkLength h.currentChunk - k) + 3)
  | .closing => 1
  | .dead => 0

variable {job : HashJob} {stopThread : Bool} {isOnDisk : ℕ → Bool} {file : Bytes} {h h' : StreamingHasher}
  {a : HasherAct}

theorem chunkLength_le (job : HashJob) (i : ℕ) : job.chunkLength i ≤ job.chunkSize := by
  unfold HashJob.chunkLength
  split
  · omega
  · exact Nat.le_refl _

theorem left_nextChunk (h : StreamingHasher) :
    h.nextChunk.left job = (job.totalChunks - (h.currentChunk + 1)) * perChunk job + 2 := rfl

/-- A step is a wait for the next chunk, or brings the thread nearer to its end. -/
theorem step_left (hs : h.step job stopThread isOnDisk file a = some h') :
    (h' = h ∧ Goes h.currentChunk job.totalChunks stopThread ∧ isOnDisk h.currentChunk = false) ∨
      h'.left job < h.left job := by
  cases step_moves hs with
  | waits here goes absent => exact Or.inl ⟨rfl, goes, absent⟩
  | enters here goes onDisk =>
    right
    have hlength := chunkLength_le job h.currentChunk
    obtain ⟨d, hd⟩ : ∃ d, job.totalChunks - h.currentChunk = d + 1 :=
      ⟨job.totalChunks - h.currentChunk - 1, by have := goes.1; omega⟩
    have hnext : job.totalChunks - (h.currentChunk + 1) = d := by omega
    simp only [left, here, hd, hnext, Nat.succ_mul, perChunk]
    omega
  | closes here ends =>
    right
    simp only [left, here]
    omega
  | asks k here goes =>
    right
    simp only [left, here]
    omega
  | leaves k here ends | readsNothing n k here asked nothing =>
    right
    rw [left_nextChunk, left, here]
    dsimp only
    omega
  | reads n k data here asked data_eq found =>
    right
    have hpos := List.length_pos_iff.mpr found
    have hroom : 0 < job.chunkLength h.currentChunk - k := by
      have hlength := congrArg List.length data_eq
      rw [List.length_take] at hlength
      omega
    simp only [left, here]
    omega
  | verifies here complete running =>
    right
    simp only [left, here, verifyHash]
    omega
  | givesUp here cut =>
    right
    simp only [left, here]
    omega
  | dies awake =>
    right
    cases hpc : h.pc with
    | dead => exact absurd hpc awake
    | _ =>
      simp only [left, hpc]
      omega

/-- The thread ends by itself when nothing keeps it waiting. -/
theorem passes (file : Bytes) (hgo : stopThread = true ∨ ∀ i < job.totalChunks, isOnDisk i = true)
    (h : StreamingHasher) :
    ∃ h', Leads (fun h a => h.step job stopThread isOnDisk file a) (fun _ a => a ≠ .die) h h' ∧ h'.pc = .dead := by
  obtain ⟨h', hleads, -, hdead⟩ := leads_of_measure
    (fun h a => h.step job stopThread isOnDisk file a) (K := fun _ (a : HasherAct) => a ≠ .die)
    (P := fun _ => True) (Q := fun h => h.pc = .dead) (left job) (fun h _ hawake => by
      obtain ⟨a, ha, hsome⟩ := exists_step h job stopThread isOnDisk file hawake
      obtain ⟨h', hs⟩ := Option.isSome_iff_exists.mp hsome
      refine ⟨a, h', ha, hs, trivial, (step_left hs).resolve_left ?_⟩
      rintro ⟨-, goes, absent⟩
      rcases hgo with hstop | hall
      · rw [hstop] at goes
        cases goes.2
      · rw [hall _ goes.1] at absent
        cases absent) (s := h) trivial
  exact ⟨h', hleads, hdead⟩

/-- The thread stands at chunk `i` or before it. -/
structure Before (job : HashJob) (i : ℕ) (h : StreamingHasher) : Prop where
  chunk : i < job.totalChunks
  behind : h.currentChunk ≤ i
  inside : ∀ k, h.pc = .hashing k ∨ h.pc = .reading k → h.currentChunk < i
  awake : h.pc ≠ .closing ∧ h.pc ≠ .dead

/-- It stays there as long as the chunk is not on disk. -/
theorem Before.step {i : ℕ} (hb : Before job i h) (hi : isOnDisk i = false) (ha : a ≠ .die)
    (hs : h.step job false isOnDisk file a = some h') : Before job i h' := by
  have hnext : (∃ k, h.pc = .hashing k ∨ h.pc = .reading k) → Before job i h.nextChunk := by
    rintro ⟨k, hk⟩
    refine ⟨hb.chunk, hb.inside k hk, fun k hpc => ?_, nofun, nofun⟩
    rcases hpc with hpc | hpc <;> cases hpc
  cases step_moves hs with
  | waits here goes absent => exact hb
  | enters here goes onDisk =>
    refine ⟨hb.chunk, hb.behind, fun k _ => ?_, nofun, nofun⟩
    refine lt_of_le_of_ne hb.behind fun heq => ?_
    rw [heq, hi] at onDisk
    cases onDisk
  | closes here ends => exact absurd ⟨lt_of_le_of_lt hb.behind hb.chunk, rfl⟩ ends
  | asks k here goes => exact ⟨hb.chunk, hb.behind, fun _ _ => hb.inside k (Or.inl here), nofun, nofun⟩
  | leaves k here ends => exact hnext ⟨k, Or.inl here⟩
  | readsNothing n k here asked nothing => exact hnext ⟨k, Or.inr here⟩
  | reads n k data here asked data_eq found =>
    exact ⟨hb.chunk, hb.behind, fun _ _ => hb.inside k (Or.inr here), nofun, nofun⟩
  | verifies here => exact absurd here hb.awake.1
  | givesUp here => exact absurd here hb.awake.1
  | dies => exact absurd rfl ha

/-- Without the stop event the pass is not cut short, unless the thread raises. -/
theorem Fed.lively {a : HasherAct} (hf : Fed job isOnDisk file h) (ha : a ≠ .die)
    (hs : h.step job false isOnDisk file a = some h') : Live false h' := by
  cases step_moves hs with
  | verifies here complete running =>
    left
    unfold verifyHash
    cases job.spec.expected <;> exact Option.some_ne_none _
  | givesUp here cut => exact absurd ⟨hf.closing here, rfl⟩ cut
  | dies => exact absurd rfl ha
  | waits here => exact Or.inr ⟨rfl, by rw [here]; exact HasherPc.noConfusion⟩
  | enters | closes | asks | leaves | readsNothing | reads => exact Or.inr ⟨rfl, HasherPc.noConfusion⟩

end StreamingHasher

end Mrdl.Hasher
