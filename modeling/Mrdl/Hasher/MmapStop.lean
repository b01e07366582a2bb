import Mrdl.Hasher.Extent
import Mrdl.Writer.Mmap

/-! # Stopping the mmap writer under the hasher

`start` stops the writer before the hasher, so `MmapDiskWriter.stop` runs while the hashing thread is
anywhere in a chunk. The thread takes a view of the mapping, which is exported until the view is released,
and a mapping with an exported view cannot be closed. What `read_chunk` does not serve is read from the
file.
-/

namespace Mrdl.Hasher
open Runs Session Writer
set_option autoImplicit false

/-- Where the thread stands in `read_chunk` and with the view that it returned. -/
inductive ViewPc
  | outside
  | asked
  | found
  | viewing
  | fed
  deriving DecidableEq, Repr

/-- Where `stop` stands. -/
inductive StopPc
  | before
  | flushed
  | closed
  | returned
  | raised
  deriving DecidableEq, Repr

/-- The hashing thread and the call of `stop`. `closed` tells of the mapping itself, `writer.mapped` of the
attribute. While the thread holds a view, `hasher` counts what was fed of the chunk. -/
structure Ending where
  writer : MmapDiskWriter
  closed : Bool := false
  exports : ℕ := 0
  stop : StopPc := .before
  stopThread : Bool := false
  hasher : StreamingHasher := {}
  view : ViewPc := .outside
  deriving DecidableEq, Repr

inductive EndingAct
  | thread (a : HasherAct)
  | check
  | slice
  | update
  | release
  | flush
  | close
  | forget
  | mark (i : ℕ)
  | setStop
  deriving DecidableEq, Repr

/-- The action is one of the hashing thread. -/
def EndingAct.hashes : EndingAct → Bool
  | .thread _ | .check | .slice | .update | .release => true
  | _ => false

namespace Ending

/-- `memoryview(self._mmap)[offset:offset + length]` of the chunk. -/
def chunkView (job : HashJob) (s : Ending) : Bytes :=
  ((s.writer.file.take s.writer.totalSize).drop (s.hasher.currentChunk * job.chunkSize)).take
    (job.chunkLength s.hasher.currentChunk)

end Ending

/-- One step. An exception of the thread's own reads is left out. -/
def endingStep (job : HashJob) (s : Ending) : EndingAct → Option Ending
  | .thread a =>
      if s.view = .outside ∧ a ≠ .die then
        (s.hasher.step job s.stopThread s.writer.isOnDisk s.writer.file a).map fun h =>
          { s with hasher := h, view := if a = .look ∧ h.pc = .hashing 0 then .asked else .outside }
      else none
  | .check =>
      match s.view with
      | .asked => some { s with view := if s.writer.mapped then .found else .outside }
      | _ => none
  | .slice =>
      match s.view with
      | .found =>
          -- a closed mapping is a `ValueError`, the attribute gone a `TypeError`: both lead to the file
          if s.writer.mapped ∧ s.closed = false then
            some { s with view := .viewing, exports := s.exports + 1 }
          else some { s with view := .outside }
      | _ => none
  | .update =>
      match s.view with
      | .viewing =>
          some { s with
            view := .fed
            hasher := { s.hasher with
              pc := .hashing (job.chunkLength s.hasher.currentChunk)
              updates := s.hasher.updates ++ [s.chunkView job] } }
      | _ => none
  | .release =>
      match s.view with
      | .fed => some { s with view := .outside, exports := s.exports - 1, hasher := s.hasher.nextChunk }
      | _ => none
  | .flush =>
      match s.stop with
      | .before => some { s with stop := if s.writer.mapped then .flushed else .returned }
      | _ => none
  | .close =>
      match s.stop with
      | .flushed =>
          if s.exports = 0 then some { s with stop := .closed, closed := true }
          else some { s with stop := .raised }
      | _ => none
  | .forget =>
      match s.stop with
      | .closed => some { s with stop := .returned, writer := s.writer.stop }
      | _ => none
  | .mark i => some { s with writer := s.writer.markComplete i }
  | .setStop => some { s with stopThread := true }

/-! ## What a step can do -/

inductive EndingMove (job : HashJob) (s : Ending) : EndingAct → Ending → Prop
  | thread (b : HasherAct) (h : StreamingHasher) (outside : s.view = .outside) (alive : b ≠ .die)
      (step : s.hasher.step job s.stopThread s.writer.isOnDisk s.writer.file b = some h) :
      EndingMove job s (.thread b)
        { s with hasher := h, view := if b = .look ∧ h.pc = .hashing 0 then .asked else .outside }
  | checks (asked : s.view = .asked) :
      EndingMove job s .check { s with view := if s.writer.mapped then .found else .outside }
  | views (found : s.view = .found) (still : s.closed = false) :
      EndingMove job s .slice { s with view := .viewing, exports := s.exports + 1 }
  | misses (found : s.view = .found) : EndingMove job s .slice { s with view := .outside }
  | updates (viewing : s.view = .viewing) :
      EndingMove job s .update { s with
        view := .fed
        hasher := { s.hasher with
          pc := .hashing (job.chunkLength s.hasher.currentChunk)
          updates := s.hasher.updates ++ [s.chunkView job] } }
  | releases (fed : s.view = .fed) :
      EndingMove job s .release
        { s with view := .outside, exports := s.exports - 1, hasher := s.hasher.nextChunk }
  | flushes (before : s.stop = .before) :
      EndingMove job s .flush { s with stop := if s.writer.mapped then .flushed else .returned }
  | closes (flushed : s.stop = .flushed) (alone : s.exports = 0) :
      EndingMove job s .close { s with stop := .closed, closed := true }
  | breaks (flushed : s.stop = .flushed) (viewed : s.exports ≠ 0) :
      EndingMove job s .close { s with stop := .raised }
  | forgets (closed : s.stop = .closed) :
      EndingMove job s .forget { s with stop := .returned, writer := s.writer.stop }
  | marks (i : ℕ) : EndingMove job s (.mark i) { s with writer := s.writer.markComplete i }
  | setsStop : EndingMove job s .setStop { s with stopThread := true }

theorem endingStep_moves {job : HashJob} {s t : Ending} {a : EndingAct} (hs : endingStep job s a = some t) :
    EndingMove job s a t := by
  cases a with
  | thread b =>
    simp only [endingStep, Option.ite_none_right_eq_some, Option.map_eq_some_iff] at hs
    obtain ⟨⟨hview, hb⟩, h, hstep, rfl⟩ := hs
    exact .thread b h hview hb hstep
  | check =>
    simp only [endingStep] at hs
    split at hs <;> cases hs
    exact .checks ‹_›
  | slice =>
    simp only [endingStep] at hs
    split at hs
    · rename_i hview
      split at hs <;> cases hs
      · rename_i hopen
        exact .views hview hopen.2
      · exact .misses hview
    · cases hs
  | update =>
    simp only [endingStep] at hs
    split at hs <;> cases hs
    exact .updates ‹_›
  | release =>
    simp only [endingStep] at hs
    split at hs <;> cases hs
    exact .releases ‹_›
  | flush =>
    simp only [endingStep] at hs
    split at hs <;> cases hs
    exact .flushes ‹_›
  | close =>
    simp only [endingStep] at hs
    split at hs
    · rename_i hstop
      split at hs <;> cases hs
      · exact .closes hstop ‹_›
      · exact .breaks hstop ‹_›
    · cases hs
  | forget =>
    simp only [endingStep] at hs
    split at hs <;> cases hs
    exact .forgets ‹_›
  | mark i =>
    cases hs
    exact .marks i
  | setStop =>
    cases hs
    exact .setsStop

/-! ## What is fed -/

section
variable {job : HashJob} {file : Bytes} {isOnDisk : ℕ → Bool} {h h' : StreamingHasher} {s t : Ending}
  {a : EndingAct}

open StreamingHasher

/-- A thread that is not told to stop ends only with its verdict. -/
theorem live_step {b : HasherAct} (hf : Fed job isOnDisk file h) (hs : h.step job false isOnDisk file b = some h')
    (hb : b ≠ .die) : Live false h' := by
  cases step_moves hs with
  | verifies here complete running =>
    refine .inl ?_
    simp only [verifyHash]
    cases job.spec.expected <;> simp
  | givesUp here cut => exact absurd ⟨hf.closing here, rfl⟩ cut
  | dies => exact absurd rfl hb
  | waits here =>
    refine .inr ⟨rfl, ?_⟩
    rw [here]
    simp
  | _ => exact .inr ⟨rfl, by simp [nextChunk]⟩

/-- A view has the bytes of the chunk. -/
theorem chunkView_eq (hp : job.Proper) (hsize : job.size ≤ s.writer.totalSize)
    (hlt : s.hasher.currentChunk < job.totalChunks) :
    s.chunkView job = (s.writer.file.drop (s.hasher.currentChunk * job.chunkSize)).take
      (job.chunkLength s.hasher.currentChunk) := by
  have hend := HashJob.chunk_end hp hlt
  rw [Ending.chunkView, List.drop_take, List.take_take, min_eq_left]
  omega

/-- The update on a view feeds the rest of the chunk at once. -/
theorem StreamingHasher.Fed.view (hf : Fed job isOnDisk file h) (hpc : h.pc = .hashing 0) {data : Bytes}
    (hdata : data = (file.drop (h.currentChunk * job.chunkSize)).take (job.chunkLength h.currentChunk)) :
    Fed job isOnDisk file
      { h with pc := .hashing (job.chunkLength h.currentChunk), updates := h.updates ++ [data] } := by
  obtain ⟨hlt, hdisk, -⟩ := hf.hashing 0 hpc
  refine ⟨hf.bound, hf.passed, fun k hk => ?_, fun k hk => (by cases hk), fun hk => (by cases hk), ?_⟩
  · cases hk
    exact ⟨hlt, hdisk, le_rfl⟩
  · have hfed := hf.fed
    rw [position, hpc] at hfed
    simp only [position, List.flatten_append, List.flatten_singleton]
    rw [hfed, hdata]
    exact List.take_add.symm

/-! ## The invariant -/

/-- What holds in every run: a view is exported exactly while the thread holds it, a closed mapping has none,
and the digest was fed the beginning of the file. -/
structure EndingInv (job : HashJob) (file : Bytes) (s : Ending) : Prop where
  file_eq : s.writer.file = file
  size : job.size ≤ s.writer.totalSize
  exports : s.exports = if s.view = .viewing ∨ s.view = .fed then 1 else 0
  held : s.view ≠ .outside →
    s.hasher.pc = .hashing (if s.view = .fed then job.chunkLength s.hasher.currentChunk else 0)
  shut : s.closed = true → s.exports = 0
  gone : s.writer.mapped = false → s.closed = true
  stopped : s.stop = .closed ∨ s.stop = .returned → s.closed = true
  judged : Judged job s.hasher
  good : s.stopThread = false → Live false s.hasher ∧ Fed job s.writer.isOnDisk file s.hasher

theorem EndingInv.init {w : MmapDiskWriter} (hmapped : w.mapped = true) (hsize : job.size ≤ w.totalSize) :
    EndingInv job w.file { writer := w } where
  file_eq := rfl
  size := hsize
  exports := rfl
  held h := absurd rfl h
  shut h := by cases h
  gone h := by
    rw [hmapped] at h
    cases h
  stopped h := by rcases h with h | h <;> cases h
  judged := .unjudged rfl
  good _ := ⟨.inr ⟨rfl, by simp⟩, .start job _ _⟩

theorem EndingInv.held_zero {v : ViewPc} (h : EndingInv job file s) (hview : s.view = v) (hin : v ≠ .outside)
    (hfed : v ≠ .fed) : s.hasher.pc = .hashing 0 := by
  subst hview
  rw [h.held hin, if_neg hfed]

theorem EndingInv.step (hp : job.Proper) (hlen : job.size ≤ file.length) (h : EndingInv job file s)
    (hs : endingStep job s a = some t) : EndingInv job file t := by
  cases endingStep_moves hs with
  | thread b h' outside alive step =>
    have hexports : s.exports = 0 := by simpa [outside] using h.exports
    rw [h.file_eq] at step
    refine ⟨h.file_eq, h.size, ?_, ?_, fun _ => hexports, h.gone, h.stopped, h.judged.step step, fun hstop => ?_⟩
    · rw [hexports]
      simp only
      split
      · rfl
      · rfl
    · intro hne
      simp only at hne ⊢
      split at hne
      · rename_i hasked
        rw [if_pos hasked, hasked.2]
        rfl
      · exact absurd rfl hne
    · obtain ⟨hlive, hfed⟩ := h.good hstop
      have hstop' : s.stopThread = false := hstop
      have hlive' := live_step hfed (by rw [← hstop']; exact step) alive
      exact ⟨hlive', hfed.step hp h.judged hlen (by rw [← hstop']; exact step) hlive'⟩
  | checks asked =>
    have hexports : s.exports = 0 := by simpa [asked] using h.exports
    have hpc := h.held_zero asked (by decide) (by decide)
    refine ⟨h.file_eq, h.size, ?_, fun _ => ?_, h.shut, h.gone, h.stopped, h.judged, h.good⟩
    · rw [hexports]
      cases s.writer.mapped <;> rfl
    · rw [hpc]
      cases s.writer.mapped <;> rfl
  | views found still =>
    have hexports : s.exports = 0 := by simpa [found] using h.exports
    have hpc := h.held_zero found (by decide) (by decide)
    refine ⟨h.file_eq, h.size, by rw [hexports]; rfl, fun _ => hpc, fun hclosed => ?_, h.gone, h.stopped,
      h.judged, h.good⟩
    rw [still] at hclosed
    cases hclosed
  | misses found =>
    have hexports : s.exports = 0 := by simpa [found] using h.exports
    exact ⟨h.file_eq, h.size, hexports, fun hne => absurd rfl hne, h.shut, h.gone, h.stopped, h.judged, h.good⟩
  | updates viewing =>
    have hexports : s.exports = 1 := by simpa [viewing] using h.exports
    have hpc := h.held_zero viewing (by decide) (by decide)
    have hverified := h.judged.pending (by simp [hpc])
    refine ⟨h.file_eq, h.size, hexports, fun _ => rfl, h.shut, h.gone, h.stopped, .unjudged hverified,
      fun hstop => ?_⟩
    obtain ⟨-, hfed⟩ := h.good hstop
    have hdata := chunkView_eq hp h.size (hfed.hashing 0 hpc).1
    rw [h.file_eq] at hdata
    exact ⟨.inr ⟨rfl, by simp⟩, hfed.view hpc hdata⟩
  | releases fed =>
    have hexports : s.exports = 1 := by simpa [fed] using h.exports
    have hpc : s.hasher.pc = .hashing (job.chunkLength s.hasher.currentChunk) := by
      simpa [fed] using h.held (by simp [fed])
    have hverified := h.judged.pending (by simp [hpc])
    exact ⟨h.file_eq, h.size, by rw [hexports]; rfl, fun hne => absurd rfl hne, fun _ => by rw [hexports],
      h.gone, h.stopped, .unjudged hverified,
      fun hstop => ⟨.inr ⟨rfl, by simp [nextChunk]⟩, (h.good hstop).2.next hp hpc⟩⟩
  | flushes before =>
    refine ⟨h.file_eq, h.size, h.exports, h.held, h.shut, h.gone, fun hstop => h.gone ?_, h.judged, h.good⟩
    cases hmapped : s.writer.mapped with
    | false => rfl
    | true =>
      rw [hmapped] at hstop
      rcases hstop with hstop | hstop <;> cases hstop
  | closes flushed alone =>
    exact ⟨h.file_eq, h.size, h.exports, h.held, fun _ => alone, fun _ => rfl, fun _ => rfl, h.judged, h.good⟩
  | breaks =>
    exact ⟨h.file_eq, h.size, h.exports, h.held, h.shut, h.gone,
      fun hstop => (by rcases hstop with hstop | hstop <;> cases hstop), h.judged, h.good⟩
  | forgets closed =>
    have hclosed := h.stopped (.inl closed)
    exact ⟨h.file_eq, h.size, h.exports, h.held, h.shut, fun _ => hclosed, fun _ => hclosed, h.judged, h.good⟩
  | marks i =>
    refine ⟨h.file_eq, h.size, h.exports, h.held, h.shut, h.gone, h.stopped, h.judged, fun hstop => ?_⟩
    obtain ⟨hlive, hfed⟩ := h.good hstop
    refine ⟨hlive, hfed.mono hp (fun j hj => ?_) fun _ _ _ => rfl⟩
    exact decide_eq_true (MmapDiskWriter.mem_markComplete.mpr (.inl (of_decide_eq_true hj)))
  | setsStop =>
    exact ⟨h.file_eq, h.size, h.exports, h.held, h.shut, h.gone, h.stopped, h.judged,
      fun hstop => (by cases hstop)⟩

/-! ## The thread goes on -/

/-- The steps the thread has taken within its chunk, at most. -/
def spent (s : Ending) : ℕ :=
  match s.view, s.hasher.pc with
  | .asked, _ => 1
  | .found, _ => 2
  | .viewing, _ => 3
  | .fed, _ => 4
  | .outside, .hashing k => 3 + 2 * k
  | .outside, .reading k => 4 + 2 * k
  | .outside, _ => 0

/-- More steps than a chunk can take. -/
def chunkSteps (job : HashJob) : ℕ := 2 * job.chunkSize + 6

def progress (job : HashJob) (s : Ending) : ℕ := s.hasher.currentChunk * chunkSteps job + spent s

theorem spent_lt (hp : job.Proper) (h : EndingInv job file s) (hstop : s.stopThread = false) :
    spent s < chunkSteps job := by
  obtain ⟨-, hfed⟩ := h.good hstop
  have hlength : ∀ i < job.totalChunks, job.chunkLength i ≤ job.chunkSize := by
    intro i hi
    rw [HashJob.chunkLength_eq hp hi]
    exact min_le_left _ _
  unfold spent chunkSteps
  split
  · omega
  · omega
  · omega
  · omega
  · rename_i k hview hpc
    obtain ⟨hlt, -, hk⟩ := hfed.hashing k hpc
    have := hlength _ hlt
    omega
  · rename_i k hview hpc
    obtain ⟨hlt, -, hk⟩ := hfed.reading k hpc
    have := hlength _ hlt
    omega
  · omega

theorem progress_next (hspent : spent s < chunkSteps job)
    (hchunk : t.hasher.currentChunk = s.hasher.currentChunk + 1) :
    progress job s < progress job t := by
  rw [progress, progress, hchunk, Nat.succ_mul]
  omega

theorem progress_within (hchunk : t.hasher.currentChunk = s.hasher.currentChunk) (hspent : spent s < spent t) :
    progress job s < progress job t := by
  rw [progress, progress, hchunk]
  omega

/-- Where the next chunk is on disk, each step of the thread brings it on. -/
theorem progress_step (hp : job.Proper) (h : EndingInv job file s) (hstop : s.stopThread = false)
    (hlt : s.hasher.currentChunk < job.totalChunks) (hdisk : s.writer.isOnDisk s.hasher.currentChunk = true)
    (ha : a.hashes = true) (hs : endingStep job s a = some t) : progress job s < progress job t := by
  have hspent := spent_lt hp h hstop
  cases endingStep_moves hs with
  | thread b h' outside alive step =>
    cases step_moves step with
    | enters here goes onDisk =>
      refine progress_within rfl ?_
      simp [spent, outside, here]
    | waits here goes absent =>
      rw [hdisk] at absent
      cases absent
    | closes here ends => exact absurd ⟨hlt, hstop⟩ ends
    | asks k here goes =>
      refine progress_within rfl ?_
      simp [spent, outside, here]
    | leaves k here ends => exact progress_next hspent rfl
    | readsNothing n k here asked nothing => exact progress_next hspent rfl
    | reads n k data here asked data_eq found =>
      have hpos := List.length_pos_iff.mpr found
      refine progress_within rfl ?_
      simp only [spent, outside, here, reduceCtorEq, false_and, if_false]
      omega
    | verifies here complete running => omega
    | givesUp here cut =>
      have hend := (h.good hstop).2.closing here
      omega
    | dies => exact absurd rfl alive
  | checks asked =>
    have hpc := h.held_zero asked (by decide) (by decide)
    refine progress_within rfl ?_
    cases s.writer.mapped <;> simp [spent, asked, hpc]
  | views found => exact progress_within rfl (by simp [spent, found])
  | misses found =>
    have hpc := h.held_zero found (by decide) (by decide)
    exact progress_within rfl (by simp [spent, found, hpc])
  | updates viewing => exact progress_within rfl (by simp [spent, viewing])
  | releases => exact progress_next hspent rfl
  | flushes | closes | breaks | forgets | marks | setsStop => cases ha

/-- A step of the thread leaves the mapping and the call of `stop` alone. -/
theorem hashes_step (ha : a.hashes = true) (hs : endingStep job s a = some t) :
    t.writer = s.writer ∧ t.stop = s.stop ∧ t.stopThread = s.stopThread ∧ t.closed = s.closed ∧
      s.hasher.currentChunk ≤ t.hasher.currentChunk := by
  cases endingStep_moves hs with
  | thread b h' outside alive step =>
    refine ⟨rfl, rfl, rfl, rfl, ?_⟩
    cases step_moves step with
    | leaves | readsNothing => exact Nat.le_succ _
    | _ => exact le_rfl
  | releases => exact ⟨rfl, rfl, rfl, rfl, Nat.le_succ _⟩
  | checks | views | misses | updates => exact ⟨rfl, rfl, rfl, rfl, le_rfl⟩
  | flushes | closes | breaks | forgets | marks | setsStop => cases ha

theorem StreamingHasher.exists_step (h : StreamingHasher) (job : HashJob) (stopThread : Bool)
    (isOnDisk : ℕ → Bool) (file : Bytes) (hawake : h.pc ≠ .dead) :
    ∃ b, b ≠ .die ∧ (h.step job stopThread isOnDisk file b).isSome = true := by
  cases hpc : h.pc with
  | looking =>
    refine ⟨.look, by simp, ?_⟩
    simp only [StreamingHasher.step, hpc]
    split
    · split <;> rfl
    · rfl
  | hashing k =>
    refine ⟨.checkStop, by simp, ?_⟩
    simp only [StreamingHasher.step, hpc]
    split <;> rfl
  | reading k =>
    refine ⟨.read 1, by simp, ?_⟩
    simp only [StreamingHasher.step, hpc, one_pos, if_true]
    split <;> rfl
  | closing =>
    refine ⟨.conclude, by simp, ?_⟩
    simp only [StreamingHasher.step, hpc]
    split <;> rfl
  | dead => exact absurd hpc hawake

/-- A thread that has not ended has a step to take. -/
theorem exists_hashes (hawake : s.hasher.pc ≠ .dead) :
    ∃ a, a.hashes = true ∧ (endingStep job s a).isSome = true := by
  cases hview : s.view with
  | asked => exact ⟨.check, rfl, by simp [endingStep, hview]⟩
  | found =>
    refine ⟨.slice, rfl, ?_⟩
    simp only [endingStep, hview]
    split <;> rfl
  | viewing => exact ⟨.update, rfl, by simp [endingStep, hview]⟩
  | fed => exact ⟨.release, rfl, by simp [endingStep, hview]⟩
  | outside =>
    obtain ⟨b, hb, hstep⟩ := s.hasher.exists_step job s.stopThread s.writer.isOnDisk s.writer.file hawake
    refine ⟨.thread b, rfl, ?_⟩
    rw [endingStep, if_pos ⟨hview, hb⟩, Option.isSome_map]
    exact hstep

theorem hashes_run {as : List EndingAct} (has : ∀ a ∈ as, a.hashes = true)
    (hrun : exec (endingStep job) s as = some t) :
    t.writer = s.writer ∧ t.stop = s.stop ∧ t.stopThread = s.stopThread ∧ t.closed = s.closed ∧
      s.hasher.currentChunk ≤ t.hasher.currentChunk := by
  induction as generalizing s with
  | nil =>
    cases hrun
    exact ⟨rfl, rfl, rfl, rfl, le_rfl⟩
  | cons a as ih =>
    obtain ⟨u, hu, hrest⟩ := exec_cons.mp hrun
    obtain ⟨hwriter, hstop, hthread, hclosed, hchunk⟩ := hashes_step (has a (List.mem_cons_self ..)) hu
    obtain ⟨hwriter', hstop', hthread', hclosed', hchunk'⟩ :=
      ih (fun b hb => has b (List.mem_cons_of_mem _ hb)) hrest
    exact ⟨hwriter'.trans hwriter, hstop'.trans hstop, hthread'.trans hthread, hclosed'.trans hclosed,
      hchunk.trans hchunk'⟩

/-- A run of the thread on its own, over chunks that are on disk. -/
theorem progress_run {as : List EndingAct} {m : ℕ} (hp : job.Proper) (hlen : job.size ≤ file.length)
    (hm : m ≤ job.totalChunks) (h : EndingInv job file s) (hstop : s.stopThread = false)
    (hdisk : ∀ i < m, s.writer.isOnDisk i = true) (has : ∀ a ∈ as, a.hashes = true)
    (hrun : exec (endingStep job) s as = some t) :
    m ≤ t.hasher.currentChunk ∨ progress job s + as.length ≤ progress job t := by
  induction as generalizing s with
  | nil =>
    cases hrun
    exact .inr le_rfl
  | cons a as ih =>
    obtain ⟨u, hu, hrest⟩ := exec_cons.mp hrun
    have ha := has a (List.mem_cons_self ..)
    obtain ⟨hwriter, -, hstop', -, hchunk⟩ := hashes_step ha hu
    have hih := ih (h.step hp hlen hu) (hstop'.trans hstop) (by rw [hwriter]; exact hdisk)
      (fun b hb => has b (List.mem_cons_of_mem _ hb)) hrest
    by_cases hlt : s.hasher.currentChunk < m
    · have hstep := progress_step hp h hstop (hlt.trans_le hm) (hdisk _ hlt) ha hu
      refine hih.imp id fun hih => ?_
      rw [List.length_cons]
      omega
    · exact .inl ((not_lt.mp hlt).trans (hashes_run has hrun).2.2.2.2)

/-! ## The call of `stop` -/

/-- `close` is called while no view is alive. -/
def ClosesQuietly (s : Ending) (a : EndingAct) : Prop := a = .close → s.exports = 0

instance (s : Ending) (a : EndingAct) : Decidable (ClosesQuietly s a) :=
  inferInstanceAs (Decidable (_ → _))

theorem raised_stays (hraised : s.stop = .raised) (hs : endingStep job s a = some t) : t.stop = .raised := by
  cases endingStep_moves hs with
  | flushes here | closes here | breaks here | forgets here => cases hraised.symm.trans here
  | _ => exact hraised

/-- `stop` raises exactly on a mapping with an exported view. -/
theorem raised_step (hquiet : s.stop ≠ .raised) (hs : endingStep job s a = some t) :
    t.stop = .raised ↔ ¬ ClosesQuietly s a := by
  unfold ClosesQuietly
  cases endingStep_moves hs with
  | closes flushed alone => simp [alone]
  | breaks flushed viewed => simp [viewed]
  | flushes => cases s.writer.mapped <;> simp
  | forgets => simp
  | _ => simp [hquiet]

theorem raised_run {as : List EndingAct} (hquiet : s.stop ≠ .raised) (hrun : exec (endingStep job) s as = some t) :
    t.stop ≠ .raised ↔ Guarded (endingStep job) ClosesQuietly s as := by
  induction as generalizing s with
  | nil =>
    cases hrun
    exact ⟨fun _ => trivial, fun _ => hquiet⟩
  | cons a as ih =>
    obtain ⟨u, hu, hrest⟩ := exec_cons.mp hrun
    simp only [Guarded, hu]
    by_cases hraised : u.stop = .raised
    · have hstay : t.stop = .raised :=
        exec_invariant (P := fun t => t.stop = .raised) (fun _ _ _ => raised_stays) hraised hrest
      exact ⟨fun hne => absurd hstay hne, fun hall => absurd hall.1 ((raised_step hquiet hu).mp hraised)⟩
    · rw [ih hraised hrest]
      exact ⟨fun hall => ⟨not_not.mp (mt (raised_step hquiet hu).mpr hraised), hall⟩, And.right⟩

/-- The hashing goes on after `stop`: in every run of the thread on its own, what it has fed is the
beginning of the file, it takes no view of a mapping that was released, it can always take its next step, and
it gets past every chunk that is on disk in a number of steps. -/
def GoesOn (job : HashJob) (file : Bytes) (s : Ending) : Prop :=
  ∀ as t, (∀ a ∈ as, a.hashes = true) → exec (endingStep job) s as = some t →
    t.hasher.updates.flatten = file.take (t.hasher.position job) ∧
    (s.stop = .returned → t.exports = 0) ∧
    (t.hasher.pc ≠ .dead → ∃ a, a.hashes = true ∧ (endingStep job t a).isSome = true) ∧
    ∀ m ≤ job.totalChunks, (∀ i < m, s.writer.isOnDisk i = true) → m * chunkSteps job ≤ as.length →
      m ≤ t.hasher.currentChunk

theorem goesOn (hp : job.Proper) (hlen : job.size ≤ file.length) (h : EndingInv job file s)
    (hstop : s.stopThread = false) : GoesOn job file s := by
  intro as t has hrun
  have ht := exec_invariant (P := EndingInv job file) (fun _ _ _ hs => hs.step hp hlen) h hrun
  obtain ⟨hwriter, hcall, hthread, hclosed, -⟩ := hashes_run has hrun
  have hstop' := hthread.trans hstop
  refine ⟨(ht.good hstop').2.fed, fun hreturned => ?_, exists_hashes, fun m hm hdisk hsteps => ?_⟩
  · exact ht.shut (hclosed.trans (h.stopped (.inr hreturned)))
  · by_contra hlt
    have hrest := (progress_run hp hlen hm h hstop hdisk has hrun).resolve_left hlt
    have hspent := spent_lt hp ht hstop'
    have hmul : (t.hasher.currentChunk + 1) * chunkSteps job ≤ m * chunkSteps job :=
      Nat.mul_le_mul_right _ (by omega)
    rw [progress, progress] at hrest
    rw [Nat.succ_mul] at hmul
    omega

end

theorem initHasher_proper {cfg : DownloadConfig} {metadata : FileMetadata} {spec : HashSpec} {algo : HashAlgo}
    (hsize : 0 < metadata.totalSize) (hchunk : 0 < cfg.chunkSize) :
    (initHasher cfg metadata spec algo).Proper := by
  have hcount : (initHasher cfg metadata spec algo).totalChunks =
      Tiling.count metadata.totalSize.toNat cfg.chunkSize := computeTotalChunks_eq_count hsize hchunk
  refine ⟨hsize, hchunk, fun i hi => ?_, ?_⟩
  · rw [hcount] at hi
    exact (Tiling.lt_count_iff hchunk).mp hi
  · rw [hcount]
    exact Tiling.size_le hchunk

theorem start_mapped {created w : MmapDiskWriter} (hstart : created.start = some w) :
    w.mapped = true ∧ w.totalSize = created.totalSize ∧ w.totalSize ≤ w.file.length := by
  rw [MmapDiskWriter.start, Option.ite_none_right_eq_some, Option.some.injEq] at hstart
  obtain ⟨hlen, rfl⟩ := hstart
  exact ⟨rfl, rfl, hlen⟩

/-- `stop` does not raise and the hashing goes on, exactly in the runs where `stop` comes to its `close` while
the thread holds no view: for every number of chunks, every set of completed ones and every interleaving. -/
theorem mmap_stop_iff (cfg : DownloadConfig) (metadata : FileMetadata) (spec : HashSpec) (algo : HashAlgo)
    (hsize : 0 < metadata.totalSize) (hchunk : 0 < cfg.chunkSize) (created w : MmapDiskWriter)
    (hcreated : created.totalSize = metadata.totalSize.toNat) (hstart : created.start = some w)
    (as : List EndingAct) (s : Ending)
    (hrun : exec (endingStep (initHasher cfg metadata spec algo)) { writer := w } as = some s) :
    (s.stop ≠ .raised ∧ (s.stopThread = false → GoesOn (initHasher cfg metadata spec algo) w.file s)) ↔
      Guarded (endingStep (initHasher cfg metadata spec algo)) ClosesQuietly { writer := w } as := by
  obtain ⟨hmapped, htotal, hlen⟩ := start_mapped hstart
  have hp : (initHasher cfg metadata spec algo).Proper := initHasher_proper hsize hchunk
  have hsizes : (initHasher cfg metadata spec algo).size = w.totalSize := (htotal.trans hcreated).symm
  have hinv := exec_invariant (fun _ _ _ hs hstep => EndingInv.step hp (hsizes ▸ hlen) hs hstep)
    (EndingInv.init hmapped hsizes.le) hrun
  have hquiet : ({ writer := w } : Ending).stop ≠ .raised := by simp
  rw [← raised_run hquiet hrun]
  exact ⟨And.left, fun hquiet => ⟨hquiet, fun hstop => goesOn hp (hsizes ▸ hlen) hinv hstop⟩⟩

/-- One chunk of one byte. -/
def oneByteJob : HashJob :=
  initHasher { urls := ["m"], chunkSize := 1 } ⟨1, true, none, none⟩ ⟨"text", none⟩
    ⟨Bytes, [], fun fed piece => fed ++ piece, fun fed => toString fed.length⟩

/-- The chunk is on disk, and the thread holds a view of it when `stop` comes to `close`. -/
theorem close_under_view :
    ∃ s, exec (endingStep oneByteJob) { writer := ⟨1, [7], true, [0]⟩ }
        [.thread .look, .check, .slice, .flush, .close] = some s ∧ s.stop = .raised :=
  ⟨_, rfl, rfl⟩

/-- The thread has found the mapping, `stop` closes it, and the thread reads the file. -/
theorem close_before_view :
    ∃ s, exec (endingStep oneByteJob) { writer := ⟨1, [7], true, [0]⟩ }
        [.thread .look, .check, .flush, .close, .slice, .forget] = some s ∧
      s.stop ≠ .raised ∧ (s.stopThread = false → GoesOn oneByteJob [7] s) :=
  ⟨_, rfl, (mmap_stop_iff { urls := ["m"], chunkSize := 1 } ⟨1, true, none, none⟩ ⟨"text", none⟩
    ⟨Bytes, [], fun fed piece => fed ++ piece, fun fed => toString fed.length⟩ (by decide) (by decide)
    ⟨1, [7], false, [0]⟩ ⟨1, [7], true, [0]⟩ rfl rfl
    [.thread .look, .check, .flush, .close, .slice, .forget] _ rfl).mpr (by decide +kernel)⟩

end Mrdl.Hasher
