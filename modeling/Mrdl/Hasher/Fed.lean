import Mrdl.Foundations.Tiling
import Mrdl.Hasher.Moves
import Mathlib.Data.List.Basic
import Mathlib.Tactic.Linarith

/-! # What is fed to the digest

As long as the stop event is not set, the pieces fed so far are the beginning of the file, up to the
place where the thread stands. The file may change meanwhile, but not in a chunk that is on disk.
-/

namespace Mrdl.Hasher
set_option autoImplicit false

/-! ## The chunks of the job -/

namespace HashJob

def size (job : HashJob) : ℕ := job.totalSize.toNat

/-- The chunks lie in the file and cover it. -/
structure Proper (job : HashJob) : Prop where
  known : 0 < job.totalSize
  chunked : 0 < job.chunkSize
  starts : ∀ i < job.totalChunks, i * job.chunkSize < job.size
  ends : job.size ≤ job.totalChunks * job.chunkSize

variable {job : HashJob}

theorem chunkLength_eq_blockLength {i : ℕ} (hsize : 0 < job.totalSize)
    (hi : i * job.chunkSize < job.totalSize.toNat) :
    job.chunkLength i = Tiling.blockLength job.totalSize.toNat job.chunkSize i := by
  rw [chunkLength, if_pos hsize, Tiling.blockLength]
  zify at hi ⊢
  omega

theorem chunkLength_eq (hp : job.Proper) {i : ℕ} (hi : i < job.totalChunks) :
    job.chunkLength i = min job.chunkSize (job.size - i * job.chunkSize) :=
  chunkLength_eq_blockLength hp.known (hp.starts i hi)

theorem chunk_end (hp : job.Proper) {i : ℕ} (hi : i < job.totalChunks) :
    i * job.chunkSize + job.chunkLength i = min ((i + 1) * job.chunkSize) job.size := by
  have hstart := hp.starts i hi
  rw [chunkLength_eq hp hi, Nat.succ_mul]
  omega

theorem chunk_of_byte (hp : job.Proper) {b : ℕ} (hb : b < job.size) : b / job.chunkSize < job.totalChunks := by
  rw [Nat.div_lt_iff_lt_mul hp.chunked]
  exact hb.trans_le hp.ends

end HashJob

/-- The digest is the expected one, in whatever case its letters are, or none was given. -/
def Accepts (spec : HashSpec) (digest : String) : Prop :=
  ∀ expected, spec.expected = some expected → digest.toLower = expected.toLower

/-! ## The invariant -/

namespace StreamingHasher

/-- The offset up to which the file was fed. -/
def position (job : HashJob) (h : StreamingHasher) : ℕ :=
  match h.pc with
  | .hashing bytesRead | .reading bytesRead => h.currentChunk * job.chunkSize + bytesRead
  | _ => min (h.currentChunk * job.chunkSize) job.size

/-- The pass was not cut short: it came to its end, or it goes on. -/
def Live (stopThread : Bool) (h : StreamingHasher) : Prop :=
  h.verified ≠ none ∨ (stopThread = false ∧ h.pc ≠ .dead)

structure Fed (job : HashJob) (isOnDisk : ℕ → Bool) (file : Bytes) (h : StreamingHasher) : Prop where
  bound : h.currentChunk ≤ job.totalChunks
  passed : ∀ i < h.currentChunk, isOnDisk i = true
  hashing : ∀ k, h.pc = .hashing k → h.currentChunk < job.totalChunks ∧
    isOnDisk h.currentChunk = true ∧ k ≤ job.chunkLength h.currentChunk
  reading : ∀ k, h.pc = .reading k → h.currentChunk < job.totalChunks ∧
    isOnDisk h.currentChunk = true ∧ k < job.chunkLength h.currentChunk
  closing : h.pc = .closing → h.currentChunk = job.totalChunks
  fed : h.updates.flatten = file.take (h.position job)

/-- What `_verify_hash` left behind, once it was called. -/
structure Judged (job : HashJob) (h : StreamingHasher) : Prop where
  pc : h.verified ≠ none → h.pc = .dead
  complete : h.verified ≠ none → h.currentChunk = job.totalChunks
  verdict : ∀ b, h.verified = some b →
    (b = true ↔ Accepts job.spec (job.algo.hexdigest (job.algo.feed h.updates)))

variable {job : HashJob} {isOnDisk isOnDisk' : ℕ → Bool} {file file' : Bytes} {stopThread : Bool}
  {h h' : StreamingHasher} {a : HasherAct}

theorem Judged.unjudged (hv : h.verified = none) : Judged job h := by
  refine ⟨fun hne => absurd hv hne, fun hne => absurd hv hne, fun b hb => ?_⟩
  rw [hv] at hb
  cases hb

theorem verifyHash_judged (hc : h.currentChunk = job.totalChunks) : Judged job (h.verifyHash job) := by
  refine ⟨fun _ => rfl, fun _ => hc, fun b hb => ?_⟩
  unfold Accepts
  simp only [verifyHash] at hb ⊢
  cases he : job.spec.expected with
  | none =>
    rw [he] at hb
    cases hb
    exact ⟨fun _ expected hx => (by cases hx), fun _ => rfl⟩
  | some expected =>
    rw [he] at hb
    cases hb
    rw [beq_iff_eq]
    exact ⟨fun heq x hx => Option.some.inj hx ▸ heq, fun hall => hall expected rfl⟩

theorem Judged.pending (hj : Judged job h) (hpc : h.pc ≠ .dead) : h.verified = none := by
  by_contra hne
  exact hpc (hj.pc hne)

/-- A thread that ended takes no step, and only at the end of its pass, without the stop event, it
calls `_verify_hash`. -/
theorem step_awake (hs : h.step job stopThread isOnDisk file a = some h') :
    h.pc ≠ .dead ∧ (h'.verified = h.verified ∨
      (h' = h.verifyHash job ∧ h.currentChunk = job.totalChunks ∧ stopThread = false)) := by
  cases step_moves hs with
  | verifies here complete running => exact ⟨by rw [here]; exact nofun, Or.inr ⟨rfl, complete, running⟩⟩
  | dies awake => exact ⟨awake, Or.inl rfl⟩
  | enters here | waits here | closes here | givesUp here => exact ⟨by rw [here]; exact nofun, Or.inl rfl⟩
  | asks k here | leaves k here => exact ⟨by rw [here]; exact nofun, Or.inl rfl⟩
  | readsNothing n k here | reads n k data here => exact ⟨by rw [here]; exact nofun, Or.inl rfl⟩

theorem Judged.step (hj : Judged job h) (hs : h.step job stopThread isOnDisk file a = some h') :
    Judged job h' := by
  obtain ⟨hpc, hsame | ⟨rfl, hend, -⟩⟩ := step_awake hs
  · exact .unjudged (hsame.trans (hj.pending hpc))
  · exact verifyHash_judged hend

theorem position_le (hp : job.Proper) (hf : Fed job isOnDisk file h) : h.position job ≤ job.size := by
  unfold position
  split
  · rename_i k hpc
    obtain ⟨hlt, -, hk⟩ := hf.hashing k hpc
    have hend := HashJob.chunk_end hp hlt
    omega
  · rename_i k hpc
    obtain ⟨hlt, -, hk⟩ := hf.reading k hpc
    have hend := HashJob.chunk_end hp hlt
    omega
  · exact Nat.min_le_right _ _

/-- The bytes fed so far lie in chunks that are on disk. -/
theorem Fed.behind (hp : job.Proper) (hf : Fed job isOnDisk file h) {b : ℕ} (hb : b < h.position job) :
    isOnDisk (b / job.chunkSize) = true := by
  have hinside : ∀ k, h.currentChunk < job.totalChunks → isOnDisk h.currentChunk = true →
      k ≤ job.chunkLength h.currentChunk → b < h.currentChunk * job.chunkSize + k →
      isOnDisk (b / job.chunkSize) = true := by
    intro k hlt hdisk hk hbk
    have hend := HashJob.chunk_end hp hlt
    have hnext : b / job.chunkSize < h.currentChunk + 1 := by
      rw [Nat.div_lt_iff_lt_mul hp.chunked]
      omega
    rcases Nat.lt_succ_iff_lt_or_eq.mp hnext with hpassed | heq
    · exact hf.passed _ hpassed
    · rw [heq]
      exact hdisk
  unfold position at hb
  split at hb
  · rename_i k hpc
    obtain ⟨hlt, hdisk, hk⟩ := hf.hashing k hpc
    exact hinside k hlt hdisk hk hb
  · rename_i k hpc
    obtain ⟨hlt, hdisk, hk⟩ := hf.reading k hpc
    exact hinside k hlt hdisk hk.le hb
  · refine hf.passed _ ?_
    rw [Nat.div_lt_iff_lt_mul hp.chunked]
    exact lt_of_lt_of_le hb (Nat.min_le_left _ _)

theorem Fed.mono (hp : job.Proper) (hf : Fed job isOnDisk file h)
    (hdisk : ∀ i, isOnDisk i = true → isOnDisk' i = true)
    (hfile : ∀ b < job.size, isOnDisk (b / job.chunkSize) = true → file'[b]? = file[b]?) :
    Fed job isOnDisk' file' h := by
  refine ⟨hf.bound, fun i hi => hdisk i (hf.passed i hi), fun k hk => ?_, fun k hk => ?_, hf.closing, ?_⟩
  · obtain ⟨hlt, hon, hle⟩ := hf.hashing k hk
    exact ⟨hlt, hdisk _ hon, hle⟩
  · obtain ⟨hlt, hon, hle⟩ := hf.reading k hk
    exact ⟨hlt, hdisk _ hon, hle⟩
  · rw [hf.fed]
    refine List.ext_getElem? fun b => ?_
    rw [List.getElem?_take, List.getElem?_take]
    by_cases hb : b < h.position job
    · rw [if_pos hb, if_pos hb, hfile b (hb.trans_le (position_le hp hf)) (hf.behind hp hb)]
    · rw [if_neg hb, if_neg hb]

theorem Fed.next (hp : job.Proper) (hf : Fed job isOnDisk file h)
    (hpc : h.pc = .hashing (job.chunkLength h.currentChunk)) : Fed job isOnDisk file h.nextChunk := by
  obtain ⟨hlt, hdisk, -⟩ := hf.hashing _ hpc
  refine ⟨hlt, fun i hi => ?_, fun k hk => (by cases hk), fun k hk => (by cases hk), fun hk => (by cases hk), ?_⟩
  · rcases Nat.lt_succ_iff_lt_or_eq.mp hi with hpassed | heq
    · exact hf.passed i hpassed
    · rw [heq]
      exact hdisk
  · have hfed := hf.fed
    rw [position, hpc] at hfed
    simp only [HashJob.chunk_end hp hlt] at hfed
    exact hfed

theorem Fed.read (hp : job.Proper) (hf : Fed job isOnDisk file h) (hlen : job.size ≤ file.length) {k n : ℕ}
    (hpc : h.pc = .reading k) (hn : 0 < n) {data : Bytes}
    (hdata : data = (file.drop (h.currentChunk * job.chunkSize + k)).take
      (min n (min readChunk (job.chunkLength h.currentChunk - k)))) :
    data ≠ [] ∧
      Fed job isOnDisk file { h with pc := .hashing (k + data.length), updates := h.updates ++ [data] } := by
  obtain ⟨hlt, hdisk, hk⟩ := hf.reading k hpc
  have hend := HashJob.chunk_end hp hlt
  have hread : 0 < readChunk := by decide
  have hsize : data.length = min n (min readChunk (job.chunkLength h.currentChunk - k)) := by
    rw [hdata, List.length_take, List.length_drop]
    omega
  refine ⟨fun hnil => ?_, hf.bound, hf.passed, fun j hj => ?_, fun j hj => (by cases hj),
    fun hj => (by cases hj), ?_⟩
  · rw [hnil, List.length_nil] at hsize
    omega
  · cases hj
    exact ⟨hlt, hdisk, by dsimp only; omega⟩
  · have hfed := hf.fed
    rw [position, hpc] at hfed
    simp only [position, List.flatten_append, List.flatten_singleton]
    rw [hfed, ← Nat.add_assoc, hsize, List.take_add (i := _ + k), ← hdata]

theorem Live.before (hj : Judged job h) (hs : h.step job stopThread isOnDisk file a = some h')
    (hlive : Live stopThread h') : stopThread = false ∧ h.pc ≠ .dead := by
  obtain ⟨hpc, hsame | ⟨-, -, hstop⟩⟩ := step_awake hs
  · rcases hlive with hne | ⟨hstop, -⟩
    · rw [hsame] at hne
      exact absurd (hj.pending hpc) hne
    · exact ⟨hstop, hpc⟩
  · exact ⟨hstop, hpc⟩

theorem Fed.step (hp : job.Proper) (hf : Fed job isOnDisk file h) (hj : Judged job h)
    (hlen : job.size ≤ file.length) (hs : h.step job stopThread isOnDisk file a = some h')
    (hlive : Live stopThread h') : Fed job isOnDisk file h' := by
  obtain ⟨hstop, hawake⟩ := hlive.before hj hs
  have hfed := hf.fed
  cases step_moves hs with
  | enters here goes onDisk =>
    have hstart := hp.starts _ goes.1
    refine ⟨hf.bound, hf.passed, fun k hk => ?_, fun k hk => (by cases hk), fun hk => (by cases hk), ?_⟩
    · cases hk
      exact ⟨goes.1, onDisk, Nat.zero_le _⟩
    · rw [position, here] at hfed
      simp only [min_eq_left (Nat.le_of_lt hstart)] at hfed
      exact hfed
  | waits => exact hf
  | closes here ends =>
    rw [position, here] at hfed
    refine ⟨hf.bound, hf.passed, fun k hk => (by cases hk), fun k hk => (by cases hk), fun _ => ?_, hfed⟩
    have hge : ¬ h.currentChunk < job.totalChunks := fun hlt => ends ⟨hlt, hstop⟩
    have hbound := hf.bound
    dsimp only
    omega
  | asks k here goes =>
    obtain ⟨hlt, hdisk, hk⟩ := hf.hashing k here
    rw [position, here] at hfed
    refine ⟨hf.bound, hf.passed, fun j hj => (by cases hj), fun j hj => ?_, fun hj => (by cases hj), hfed⟩
    cases hj
    exact ⟨hlt, hdisk, goes.1⟩
  | leaves k here ends =>
    obtain ⟨hlt, hdisk, hk⟩ := hf.hashing k here
    have hall : k = job.chunkLength h.currentChunk := by
      by_contra hne
      exact ends ⟨by omega, hstop⟩
    rw [hall] at here
    exact hf.next hp here
  | readsNothing n k here asked nothing => exact absurd nothing (hf.read hp hlen here asked rfl).1
  | reads n k data here asked data_eq found => exact (hf.read hp hlen here asked data_eq).2
  | verifies here complete running =>
    rw [position, here] at hfed
    exact ⟨hf.bound, hf.passed, fun k hk => (by cases hk), fun k hk => (by cases hk),
      fun hk => (by cases hk), hfed⟩
  | givesUp here cut => exact absurd ⟨hf.closing here, hstop⟩ cut
  | dies =>
    rcases hlive with hne | ⟨-, hdead⟩
    · exact absurd (hj.pending hawake) hne
    · exact absurd rfl hdead

theorem Fed.start (job : HashJob) (isOnDisk : ℕ → Bool) (file : Bytes) : Fed job isOnDisk file {} := by
  refine ⟨Nat.zero_le _, fun i hi => absurd hi (Nat.not_lt_zero i), fun k hk => (by cases hk),
    fun k hk => (by cases hk), fun hk => (by cases hk), ?_⟩
  simp [position]

theorem Fed.whole (hp : job.Proper) (hf : Fed job isOnDisk file h) (hj : Judged job h)
    (hv : h.verified ≠ none) : h.updates.flatten = file.take job.size := by
  have hends := hp.ends
  rw [hf.fed, position, hj.pc hv]
  simp only [hj.complete hv]
  rw [min_eq_right hends]

end StreamingHasher

end Mrdl.Hasher
