import Mathlib.Data.List.TakeDrop
import Mrdl.Hasher.Fed
import Mrdl.Fetcher.UnknownSize
import Mrdl.Fetcher.Undisturbed

/-! # The extent of a download of unknown size

When the size is unknown the fetcher and the hasher each decide on their own how far the single chunk
reaches: the fetcher takes what the response announces, or the body to its end, and the hasher reads
`chunk_size` bytes, which the probe fallback has chosen. `Pass` is the hasher's thread beside the writer
that carries out what a returning fetch handed over; the thread waits for the mark, which comes last, so
that it reads the finished file (`PassInv`).
-/

namespace Mrdl.Hasher
open FileBytes Runs Session Fetcher
set_option autoImplicit false

/-- `SessionManager.init_hasher`. -/
def initHasher (cfg : DownloadConfig) (metadata : FileMetadata) (spec : HashSpec) (algo : HashAlgo) :
    HashJob where
  chunkSize := cfg.chunkSize
  totalSize := metadata.totalSize
  totalChunks := computeTotalChunks metadata.totalSize cfg.chunkSize
  spec := spec
  algo := algo

/-- The hasher's thread, the stop event it looks at, the file, and what the writer has yet to do. -/
structure Pass where
  hasher : StreamingHasher := {}
  stopThread : Bool := false
  file : Bytes
  pending : List Command
  onDisk : Bool := false

inductive PassAct
  | thread (a : HasherAct)
  | perform
  | setStop
  deriving DecidableEq, Repr

def passStep (job : HashJob) (s : Pass) : PassAct → Option Pass
  | .thread a =>
      (s.hasher.step job s.stopThread (fun i => decide (i = 0) && s.onDisk) s.file a).map fun h =>
        { s with hasher := h }
  | .perform =>
      match s.pending with
      | [] => none
      | cmd :: rest =>
          some { s with
            file := cmd.perform s.file
            pending := rest
            onDisk := s.onDisk || decide (cmd = .mark 0) }
  | .setStop => some { s with stopThread := true }

/-! ## What the thread reads -/

/-- Where the thread stands in its only chunk, of which `file` is the content. -/
def Reads (job : HashJob) (file : Bytes) (h : StreamingHasher) : Prop :=
  match h.pc with
  | .looking => h.currentChunk = 0 ∧ h.updates = [] ∨
      h.currentChunk = 1 ∧ h.updates.flatten = file.take job.chunkSize
  | .hashing k => h.currentChunk = 0 ∧ h.updates.flatten = file.take k ∧ k ≤ file.length ∧
      k ≤ job.chunkSize
  | .reading k => h.currentChunk = 0 ∧ h.updates.flatten = file.take k ∧ k ≤ file.length ∧
      k < job.chunkSize
  | .closing | .dead => h.currentChunk = 1 ∧ h.updates.flatten = file.take job.chunkSize

/-- The job of a download whose size the probe did not find. -/
structure Single (job : HashJob) : Prop where
  totalChunks : job.totalChunks = 1
  chunkLength : ∀ i, job.chunkLength i = job.chunkSize

theorem initHasher_single {cfg : DownloadConfig} {metadata : FileMetadata} {spec : HashSpec}
    {algo : HashAlgo} (hsize : metadata.totalSize ≤ 0) : Single (initHasher cfg metadata spec algo) :=
  ⟨if_pos hsize, fun _ => if_neg (not_lt.mpr hsize)⟩

variable {job : HashJob} {file : Bytes} {h h' : StreamingHasher} {a : HasherAct}

theorem take_eq_chunk {k n : ℕ} (hk : k ≤ n) (hend : k = n ∨ file.length ≤ k) : file.take k = file.take n := by
  rcases hend with rfl | hend
  · rfl
  · rw [List.take_of_length_le hend, List.take_of_length_le (hend.trans hk)]

theorem Reads.step (hjob : Single job) (hr : Reads job file h)
    (hs : h.step job false (fun i => decide (i = 0) && true) file a = some h') (hpc' : a ≠ .die) :
    Reads job file h' := by
  cases StreamingHasher.step_moves hs with
  | enters here goes onDisk =>
    simp only [Reads, here] at hr
    rcases hr with ⟨hzero, hnil⟩ | ⟨hone, hfed⟩
    · exact ⟨hzero, by simp [hnil], Nat.zero_le _, Nat.zero_le _⟩
    · simp [hone] at onDisk
  | waits => exact hr
  | closes here ends =>
    simp only [Reads, here] at hr
    rcases hr with ⟨hzero, -⟩ | hread
    · exact absurd ⟨by rw [hzero, hjob.totalChunks]; exact one_pos, rfl⟩ ends
    · exact hread
  | asks k here goes =>
    simp only [Reads, here] at hr
    obtain ⟨hzero, hfed, hlen, hk⟩ := hr
    exact ⟨hzero, hfed, hlen, hjob.chunkLength _ ▸ goes.1⟩
  | leaves k here ends =>
    simp only [Reads, here] at hr
    obtain ⟨hzero, hfed, hlen, hk⟩ := hr
    rw [hjob.chunkLength] at ends
    have hall : k = job.chunkSize := by
      by_contra hne
      exact ends ⟨by omega, rfl⟩
    exact .inr ⟨congrArg (· + 1) hzero, hall ▸ hfed⟩
  | readsNothing n k here asked nothing =>
    simp only [Reads, here] at hr
    obtain ⟨hzero, hfed, hlen, hk⟩ := hr
    have hread : 0 < readChunk := by decide
    have hend : file.length ≤ k := by
      have hlen0 := congrArg List.length nothing
      rw [List.length_take, List.length_drop, List.length_nil, hjob.chunkLength, hzero, Nat.zero_mul,
        Nat.zero_add] at hlen0
      omega
    exact .inr ⟨congrArg (· + 1) hzero, hfed.trans (take_eq_chunk hk.le (.inr hend))⟩
  | reads n k data here asked data_eq found =>
    simp only [Reads, here] at hr
    obtain ⟨hzero, hfed, hlen, hk⟩ := hr
    rw [hjob.chunkLength, hzero, Nat.zero_mul, Nat.zero_add] at data_eq
    subst data_eq
    refine ⟨hzero, ?_, ?_, ?_⟩
    · simp only [List.flatten_append, List.flatten_singleton, hfed, List.length_take, List.length_drop]
      rw [List.take_add, ← List.length_drop, ← List.take_eq_take_min]
    · rw [List.length_take, List.length_drop]
      omega
    · rw [List.length_take]
      omega
  | verifies here complete running =>
    simp only [Reads, here] at hr
    exact hr
  | givesUp here cut =>
    simp only [Reads, here] at hr
    exact absurd ⟨hr.1.trans hjob.totalChunks.symm, rfl⟩ cut
  | dies => exact absurd rfl hpc'

/-! ## The thread beside the writer -/

/-- The mark of the chunk is the last command. -/
def MarkLast (cmds : List Command) : Prop := ∃ before, cmds = before ++ [.mark 0] ∧ .mark 0 ∉ before

theorem MarkLast.tail {cmd : Command} {rest : List Command} (h : MarkLast (cmd :: rest)) :
    (cmd = .mark 0 ∧ rest = []) ∨ (cmd ≠ .mark 0 ∧ MarkLast rest) := by
  obtain ⟨before, heq, hmem⟩ := h
  cases before with
  | nil =>
    cases heq
    exact .inl ⟨rfl, rfl⟩
  | cons c before =>
    cases heq
    refine .inr ⟨fun hc => hmem (hc ▸ List.mem_cons_self ..), before, rfl, ?_⟩
    exact fun hin => hmem (List.mem_cons_of_mem _ hin)

/-- `final` is the file once the writer is done. A pass that was not cut short waits until then. -/
structure PassInv (job : HashJob) (final : Bytes) (s : Pass) : Prop where
  judged : StreamingHasher.Judged job s.hasher
  final_eq : performAll s.file s.pending = final
  waiting : s.onDisk = false → MarkLast s.pending ∧
    (StreamingHasher.Live s.stopThread s.hasher → s.hasher.pc = .looking ∧ s.hasher.currentChunk = 0)
  done : s.onDisk = true → s.pending = []
  computed : s.hasher.verified ≠ none →
    s.hasher.computedHash = some (job.algo.hexdigest (job.algo.feed s.hasher.updates))
  reads : StreamingHasher.Live s.stopThread s.hasher → Reads job final s.hasher

theorem PassInv.init (job : HashJob) (leftover : Bytes) {cmds : List Command} (h : MarkLast cmds) :
    PassInv job (performAll leftover cmds) { file := leftover, pending := cmds } where
  judged := .unjudged rfl
  final_eq := rfl
  waiting := fun _ => ⟨h, fun _ => ⟨rfl, rfl⟩⟩
  done := fun hd => by cases hd
  computed := fun hne => absurd rfl hne
  reads := fun _ => .inl ⟨rfl, rfl⟩

variable {final : Bytes} {s s' : Pass}

theorem ne_die {stopThread : Bool} {isOnDisk : ℕ → Bool} (hj : StreamingHasher.Judged job h)
    (hs : h.step job stopThread isOnDisk file a = some h') (hl : StreamingHasher.Live stopThread h') :
    a ≠ .die := by
  rintro rfl
  obtain ⟨hawake, -⟩ := StreamingHasher.step_awake hs
  simp only [StreamingHasher.step, if_neg hawake] at hs
  cases hs
  rcases hl with hne | ⟨-, hdead⟩
  · exact absurd (hj.pending hawake) hne
  · exact absurd rfl hdead

/-- Until the chunk is on disk the thread looks and looks again. -/
theorem step_waiting {isOnDisk : ℕ → Bool} (hjob : Single job) (hpc : h.pc = .looking)
    (hzero : h.currentChunk = 0) (hd : isOnDisk 0 = false)
    (hs : h.step job false isOnDisk file a = some h') (ha : a ≠ .die) : h' = h := by
  cases StreamingHasher.step_moves hs with
  | enters here goes onDisk =>
    rw [hzero, hd] at onDisk
    cases onDisk
  | waits => rfl
  | closes here ends => exact absurd ⟨by rw [hzero, hjob.totalChunks]; exact one_pos, rfl⟩ ends
  | asks k here | leaves k here | readsNothing n k here | reads n k data here =>
    rw [hpc] at here
    cases here
  | verifies here | givesUp here =>
    rw [hpc] at here
    cases here
  | dies => exact absurd rfl ha

theorem PassInv.thread (hjob : Single job) (h : PassInv job final s) {t : StreamingHasher}
    (hs : s.hasher.step job s.stopThread (fun i => decide (i = 0) && s.onDisk) s.file a = some t) :
    PassInv job final { s with hasher := t } := by
  have hnext : StreamingHasher.Live s.stopThread t →
      (s.onDisk = false → t.pc = .looking ∧ t.currentChunk = 0) ∧ Reads job final t := by
    intro hl
    obtain ⟨hstop, hawake⟩ := StreamingHasher.Live.before h.judged hs hl
    have hdie := ne_die h.judged hs hl
    have hr := h.reads (.inr ⟨hstop, hawake⟩)
    rw [hstop] at hs
    cases hd : s.onDisk with
    | false =>
      obtain ⟨hpc, hzero⟩ := (h.waiting hd).2 (.inr ⟨hstop, hawake⟩)
      obtain rfl := step_waiting hjob hpc hzero (by simp [hd]) hs hdie
      exact ⟨fun _ => ⟨hpc, hzero⟩, hr⟩
    | true =>
      have hfile : s.file = final := by
        have hfin := h.final_eq
        rwa [h.done hd] at hfin
      rw [hd, hfile] at hs
      exact ⟨fun hf => (by cases hf), hr.step hjob hs hdie⟩
  refine ⟨h.judged.step hs, h.final_eq, fun hd => ⟨(h.waiting hd).1, fun hl => (hnext hl).1 hd⟩, h.done,
    fun hne => ?_, fun hl => (hnext hl).2⟩
  obtain ⟨hawake, hsame | ⟨rfl, -, -⟩⟩ := StreamingHasher.step_awake hs
  · exact absurd (hsame.trans (h.judged.pending hawake)) hne
  · rfl

theorem PassInv.step {act : PassAct} (hjob : Single job) (h : PassInv job final s)
    (hs : passStep job s act = some s') : PassInv job final s' := by
  cases act with
  | thread a =>
    simp only [passStep, Option.map_eq_some_iff] at hs
    obtain ⟨t, ht, rfl⟩ := hs
    exact h.thread hjob ht
  | perform =>
    simp only [passStep] at hs
    split at hs
    · cases hs
    · rename_i cmd rest hpending
      cases hs
      have hfinal := h.final_eq
      rw [hpending, performAll_cons] at hfinal
      cases hd : s.onDisk with
      | true =>
        rw [h.done hd] at hpending
        cases hpending
      | false =>
        obtain ⟨hmark, hwait⟩ := h.waiting hd
        rw [hpending] at hmark
        refine ⟨h.judged, hfinal, fun hf => ?_, fun ht => ?_, h.computed, h.reads⟩
        · rcases hmark.tail with ⟨rfl, -⟩ | ⟨-, hrest⟩
          · simp at hf
          · exact ⟨hrest, hwait⟩
        · rcases hmark.tail with ⟨-, hnil⟩ | ⟨hne, -⟩
          · exact hnil
          · simp [hne] at ht
  | setStop =>
    cases hs
    have hlive : StreamingHasher.Live true s.hasher → StreamingHasher.Live s.stopThread s.hasher := by
      rintro (hv | ⟨hf, -⟩)
      · exact .inl hv
      · cases hf
    exact ⟨h.judged, h.final_eq, fun hd => ⟨(h.waiting hd).1, fun hl => (h.waiting hd).2 (hlive hl)⟩,
      h.done, h.computed, fun hl => h.reads (hlive hl)⟩

theorem pass_fed (hjob : Single job) {leftover : Bytes} {cmds : List Command} (hmark : MarkLast cmds)
    {acts : List PassAct} (hrun : exec (passStep job) { file := leftover, pending := cmds } acts = some s)
    (hv : s.hasher.verified ≠ none) :
    PassInv job (performAll leftover cmds) s ∧
      s.hasher.updates.flatten = (performAll leftover cmds).take job.chunkSize := by
  have hinv : PassInv job (performAll leftover cmds) s :=
    exec_invariant (fun _ _ _ h hs => h.step hjob hs) (PassInv.init job leftover hmark) hrun
  have hr := hinv.reads (.inl hv)
  simp only [Reads, hinv.judged.pc hv] at hr
  exact ⟨hinv, hr.2⟩

/-! ## A pass that comes to its verdict -/

theorem perform_all (job : HashJob) (cmds : List Command) (s : Pass) (hs : s.pending = cmds) :
    exec (passStep job) s (List.replicate cmds.length .perform) =
      some { s with
        file := performAll s.file cmds
        pending := []
        onDisk := s.onDisk || decide (.mark 0 ∈ cmds) } := by
  induction cmds generalizing s with
  | nil =>
    obtain ⟨hasher, stop, file, pending, onDisk⟩ := s
    cases hs
    simp
  | cons cmd rest ih =>
    obtain ⟨hasher, stop, file, pending, onDisk⟩ := s
    cases hs
    rw [List.length_cons, List.replicate_succ, exec_cons.mpr ⟨_, rfl, ih _ rfl⟩]
    simp only [performAll_cons, List.mem_cons, Bool.or_assoc, Bool.decide_or, eq_comm (a := cmd)]

theorem exists_read_on (hjob : Single job) (file : Bytes) (n k : ℕ) (h : StreamingHasher)
    (hn : job.chunkSize - k < n) (hpc : h.pc = .hashing k) (hzero : h.currentChunk = 0) :
    ∃ acts t, exec (passStep job) ⟨h, false, file, [], true⟩ acts = some ⟨t, false, file, [], true⟩ ∧
      t.pc = .looking ∧ t.currentChunk = 1 := by
  induction n generalizing k h with
  | zero => omega
  | succ n ih =>
    have hoffset : h.currentChunk * job.chunkSize + k = k := by rw [hzero, Nat.zero_mul, Nat.zero_add]
    by_cases hk : k < job.chunkSize
    · have hcheck : passStep job ⟨h, false, file, [], true⟩ (.thread .checkStop) =
          some ⟨{ h with pc := .reading k }, false, file, [], true⟩ := by
        simp only [passStep, StreamingHasher.step, hpc, hjob.chunkLength]
        rw [if_pos ⟨hk, trivial⟩]
        rfl
      generalize hdata : (file.drop k).take (min readChunk (min readChunk (job.chunkSize - k))) = data
      by_cases hnil : data = []
      · have hread : passStep job ⟨{ h with pc := .reading k }, false, file, [], true⟩
            (.thread (.read readChunk)) =
            some ⟨{ h with pc := .looking, currentChunk := h.currentChunk + 1 }, false, file, [], true⟩ := by
          simp only [passStep, StreamingHasher.step, hjob.chunkLength, hoffset, hdata]
          rw [if_pos (by decide), if_pos hnil]
          rfl
        exact ⟨_, { h with pc := .looking, currentChunk := h.currentChunk + 1 },
          exec_cons.mpr ⟨_, hcheck, exec_cons.mpr ⟨_, hread, exec_nil _ _⟩⟩, rfl,
          congrArg (· + 1) hzero⟩
      · have hread : passStep job ⟨{ h with pc := .reading k }, false, file, [], true⟩
            (.thread (.read readChunk)) =
            some ⟨{ h with pc := .hashing (k + data.length), updates := h.updates ++ [data] },
              false, file, [], true⟩ := by
          simp only [passStep, StreamingHasher.step, hjob.chunkLength, hoffset, hdata]
          rw [if_pos (by decide), if_neg hnil]
          rfl
        have hpos := List.length_pos_iff.mpr hnil
        obtain ⟨acts, t, hrun, ht⟩ := ih (k + data.length)
          { h with pc := .hashing (k + data.length), updates := h.updates ++ [data] } (by omega) rfl hzero
        exact ⟨_, t, exec_cons.mpr ⟨_, hcheck, exec_cons.mpr ⟨_, hread, hrun⟩⟩, ht⟩
    · have hcheck : passStep job ⟨h, false, file, [], true⟩ (.thread .checkStop) =
          some ⟨h.nextChunk, false, file, [], true⟩ := by
        simp only [passStep, StreamingHasher.step, hpc, hjob.chunkLength]
        rw [if_neg (by simp [hk])]
        rfl
      exact ⟨_, h.nextChunk, exec_cons.mpr ⟨_, hcheck, exec_nil _ _⟩, rfl, congrArg (· + 1) hzero⟩

/-- Undisturbed, the writer and then the thread come to their ends. -/
theorem exists_verdict (hjob : Single job) (leftover : Bytes) {cmds : List Command} (hmark : MarkLast cmds) :
    ∃ acts s, exec (passStep job) { file := leftover, pending := cmds } acts = some s ∧
      s.hasher.verified ≠ none := by
  have hmem : .mark 0 ∈ cmds := by
    obtain ⟨before, rfl, -⟩ := hmark
    simp
  have hperform : exec (passStep job) { file := leftover, pending := cmds }
      (List.replicate cmds.length .perform) =
        some ⟨{}, false, performAll leftover cmds, [], true⟩ := by
    rw [perform_all job cmds _ rfl]
    simp [hmem]
  have hlook : passStep job ⟨{}, false, performAll leftover cmds, [], true⟩ (.thread .look) =
      some ⟨{ pc := .hashing 0 }, false, performAll leftover cmds, [], true⟩ := by
    simp only [passStep, StreamingHasher.step, hjob.totalChunks]
    rfl
  obtain ⟨acts, t, hread, hpc, hone⟩ := exists_read_on hjob (performAll leftover cmds)
    (job.chunkSize + 1) 0 { pc := .hashing 0 } (Nat.lt_succ_self _) rfl rfl
  have hclose : passStep job ⟨t, false, performAll leftover cmds, [], true⟩ (.thread .look) =
      some ⟨{ t with pc := .closing }, false, performAll leftover cmds, [], true⟩ := by
    simp only [passStep, StreamingHasher.step, hpc, hone, hjob.totalChunks]
    rfl
  have hverify : passStep job ⟨{ t with pc := .closing }, false, performAll leftover cmds, [], true⟩
      (.thread .conclude) = some ⟨StreamingHasher.verifyHash job { t with pc := .closing }, false,
        performAll leftover cmds, [], true⟩ := by
    simp only [passStep, StreamingHasher.step, hone, hjob.totalChunks]
    rfl
  have hend := exec_cons.mpr ⟨_, hclose, exec_cons.mpr ⟨_, hverify, exec_nil _ _⟩⟩
  refine ⟨_, _, exec_append.mpr ⟨_, hperform, exec_cons.mpr ⟨_, hlook, exec_append.mpr ⟨_, hread, hend⟩⟩⟩, ?_⟩
  simp only [StreamingHasher.verifyHash]
  split <;> simp

/-! ## What the fetcher wrote -/

/-- All bytes that were handed to the writer, in order. -/
def bytesWritten (cmds : List Command) : Bytes := ((writesOf cmds).map Prod.snd).flatten

theorem returned_extent {cfg : FetcherConfig} {f : ChunkFetcher} {att : Attempt} {r : Response}
    {res : FetchResult} {n : ℕ} (leftover : Bytes) (hbuf : f.buffer.length = cfg.flushThreshold)
    (hreply : att.reply = .answer r) (hrun : fetch cfg f 0 att = some res)
    (hn : res.outcome = .returned n) :
    bytesWritten (commands res.effects) = clip (expectation cfg f.metadata 0 att.reply) r.pieces.flatten ∧
    MarkLast (commands res.effects) ∧
    performAll leftover (commands res.effects) =
      if (metadataAfter cfg f.metadata 0 att.reply).totalSize ≤ 0 then
        clip (expectation cfg f.metadata 0 att.reply) r.pieces.flatten
      else clip (expectation cfg f.metadata 0 att.reply) r.pieces.flatten ++
        leftover.drop (clip (expectation cfg f.metadata 0 att.reply) r.pieces.flatten).length := by
  obtain ⟨r', ws, d, -, hd⟩ := fetch_delivered hbuf hrun hn
  cases hreply.symm.trans hd.answered
  have hclip := hd.clipped
  have hcmd := hd.handed
  have htiles := hd.tiles
  have hmeta := hd.metadata_eq
  rw [Nat.zero_mul] at hclip htiles hmeta
  rw [hmeta] at hcmd
  rw [← hclip, hcmd]
  refine ⟨?_, ?_, ?_⟩
  · rw [bytesWritten, writesOf_append, writesOf_asCommands, ← htiles.flatten]
    split <;> simp
  · refine ⟨asCommands ws ++
      (if (metadataAfter cfg f.metadata 0 att.reply).totalSize ≤ 0 then [.truncate d.length] else []),
      by rw [List.append_assoc], ?_⟩
    intro hmem
    rcases List.mem_append.mp hmem with hmem | hmem
    · obtain ⟨w, -, hw⟩ := List.mem_map.mp hmem
      cases hw
    · split at hmem <;> simp at hmem
  · rw [performAll_append, performAll_asCommands, htiles.writeAll, writeAt_zero]
    split
    · exact resize_append d _
    · rfl

/-! ## The two extents -/

/-- The body that is accepted fits the chunk, and nothing that stood in the file before follows it. -/
def SameExtent (chunkSize : ℕ) (totalSize : ℤ) (leftover : Bytes) (n : ℕ) : Prop :=
  n ≤ chunkSize ∧ (totalSize ≤ 0 ∨ leftover.length ≤ n ∨ n = chunkSize)

theorem take_eq_iff {chunkSize : ℕ} {totalSize : ℤ} {leftover d : Bytes} :
    (if totalSize ≤ 0 then d else d ++ leftover.drop d.length).take chunkSize = d ↔
      SameExtent chunkSize totalSize leftover d.length := by
  unfold SameExtent
  split
  · rename_i hsize
    simp only [hsize, true_or, and_true]
    exact List.take_eq_self_iff d
  · rename_i hsize
    simp only [hsize, false_or]
    constructor
    · intro htake
      have hlen := congrArg List.length htake
      rw [List.length_take, List.length_append, List.length_drop] at hlen
      omega
    · rintro ⟨hle, hshort | hfull⟩
      · rw [List.drop_eq_nil_of_le hshort, List.append_nil, List.take_of_length_le hle]
      · rw [← hfull, List.take_left]

/-- For every probe result without a size and every returning fetch of the single chunk, whatever failed
attempts and earlier runs have left behind: the hasher can come to its verdict, and whenever it does, the
reported digest, which `finalize` compares, is that of the bytes the fetcher wrote exactly when the two
agree on the extent. -/
theorem digest_extent_iff {cfg : DownloadConfig} {metadata : FileMetadata} {fcfg : FetcherConfig}
    {f : ChunkFetcher} {att : Attempt} {r : Response} {res : FetchResult} {n : ℕ} (leftover : Bytes)
    (spec : HashSpec) (algo : HashAlgo) (hsize : metadata.totalSize ≤ 0)
    (hchunk : fcfg.chunkSize = (applyProbeFallback cfg metadata).chunkSize)
    (hbuf : f.buffer.length = fcfg.flushThreshold) (hreply : att.reply = .answer r)
    (hrun : fetch fcfg f 0 att = some res) (hn : res.outcome = .returned n) :
    let job := initHasher (applyProbeFallback cfg metadata) metadata spec algo
    let start : Pass := { file := leftover, pending := commands res.effects }
    (∃ acts s, exec (passStep job) start acts = some s ∧ s.hasher.verified ≠ none) ∧
    ∀ acts s b, exec (passStep job) start acts = some s → s.hasher.verified = some b →
      s.hasher.computedHash = some (algo.hexdigest (algo.feed s.hasher.updates)) ∧
      StreamingHasher.finalize true s.hasher = .ok b ∧
      (b = true ↔ Accepts spec (algo.hexdigest (algo.feed s.hasher.updates))) ∧
      (s.hasher.updates.flatten = bytesWritten (commands res.effects) ↔
        SameExtent fcfg.chunkSize (metadataAfter fcfg f.metadata 0 att.reply).totalSize leftover
          (clip (expectation fcfg f.metadata 0 att.reply) r.pieces.flatten).length) := by
  intro job start
  have hjob : Single job := initHasher_single hsize
  obtain ⟨hwritten, hmark, hfile⟩ := returned_extent leftover hbuf hreply hrun hn
  refine ⟨exists_verdict hjob leftover hmark, fun acts s b hpass hb => ?_⟩
  have hv : s.hasher.verified ≠ none := by simp [hb]
  obtain ⟨hinv, hfed⟩ := pass_fed hjob hmark hpass hv
  refine ⟨hinv.computed hv, ?_, hinv.judged.verdict b hb, ?_⟩
  · simp only [StreamingHasher.finalize, hb, if_true]
  · rw [hfed, hfile, hwritten, hchunk]
    exact take_eq_iff

/-- A body of one byte more than the fallback chunk: the last byte is written and not hashed. -/
theorem long_body_hashed_short :
    ∃ res, fetch { chunkSize := fallbackUnknownSizeChunk }
        (.new { chunkSize := fallbackUnknownSizeChunk } ⟨0, false, none, none⟩) 0
        { reply := .answer { status := 200, pieces := [List.replicate (fallbackUnknownSizeChunk + 1) 0] } } =
          some res ∧
      (∃ n, res.outcome = .returned n) ∧
      ∀ spec algo, ∃ acts s,
        exec (passStep (initHasher (applyProbeFallback { urls := ["http://a"] } ⟨0, false, none, none⟩)
          ⟨0, false, none, none⟩ spec algo)) { file := [], pending := commands res.effects } acts = some s ∧
        s.hasher.verified ≠ none ∧
        s.hasher.computedHash = some (algo.hexdigest (algo.feed s.hasher.updates)) ∧
        s.hasher.updates.flatten = (bytesWritten (commands res.effects)).take fallbackUnknownSizeChunk ∧
        s.hasher.updates.flatten ≠ bytesWritten (commands res.effects) := by
  have hbuf : (ChunkFetcher.new { chunkSize := fallbackUnknownSizeChunk }
      ⟨0, false, none, none⟩).buffer.length = FetcherConfig.flushThreshold
        { chunkSize := fallbackUnknownSizeChunk } := List.length_replicate
  have hcalm : ∀ expected, Calm { chunkSize := fallbackUnknownSizeChunk }
      { reply := .answer { status := 200, pieces := [List.replicate (fallbackUnknownSizeChunk + 1) 0] } } expected
      { status := 200, pieces := [List.replicate (fallbackUnknownSizeChunk + 1) 0] } :=
    fun _ => .of_unwatched (fun _ => rfl) (fun _ => (by decide : (0 : ℚ) ≤ 10)) rfl
  obtain ⟨res, n, hrun, hn⟩ := fetch_calm (by decide) hbuf (hcalm _) rfl rfl
    (fun e he => by cases he) (fun e he => by cases he)
  obtain ⟨hwritten, hmark, hfile⟩ := returned_extent [] hbuf rfl hrun hn
  have hlen : (bytesWritten (commands res.effects)).length = fallbackUnknownSizeChunk + 1 := by
    rw [hwritten]
    simp [expectation, Response.failed, resolveSize, ChunkFetcher.new, clip]
  have hwhole : performAll [] (commands res.effects) = bytesWritten (commands res.effects) := by
    rw [hfile, hwritten]
    rfl
  refine ⟨res, hrun, ⟨n, hn⟩, fun spec algo => ?_⟩
  have hjob : Single (initHasher (applyProbeFallback { urls := ["http://a"] } ⟨0, false, none, none⟩)
      ⟨0, false, none, none⟩ spec algo) := initHasher_single le_rfl
  obtain ⟨acts, s, hpass, hv⟩ := exists_verdict hjob [] hmark
  obtain ⟨hinv, hfed⟩ := pass_fed hjob hmark hpass hv
  rw [hwhole] at hfed
  refine ⟨acts, s, hpass, hv, hinv.computed hv, hfed, fun heq => ?_⟩
  have hshort := congrArg List.length hfed
  rw [heq, List.length_take, hlen] at hshort
  have hchunk : (applyProbeFallback { urls := ["http://a"] } ⟨0, false, none, none⟩).chunkSize =
      fallbackUnknownSizeChunk := rfl
  simp only [initHasher, hchunk] at hshort
  omega

/-- One byte, of a file of unknown size. -/
theorem digest_extent_one :
    ∃ res, fetch { chunkSize := fallbackUnknownSizeChunk }
        (.new { chunkSize := fallbackUnknownSizeChunk } ⟨0, false, none, none⟩) 0
        { reply := .answer { status := 200, pieces := [[9]] } } = some res ∧
      ∀ spec algo acts s b,
        exec (passStep (initHasher (applyProbeFallback { urls := ["http://a"] } ⟨0, false, none, none⟩)
          ⟨0, false, none, none⟩ spec algo)) { file := [], pending := commands res.effects } acts = some s →
        s.hasher.verified = some b →
        s.hasher.updates.flatten = bytesWritten (commands res.effects) := by
  obtain ⟨res, hrun, hn⟩ : ∃ res, fetch { chunkSize := fallbackUnknownSizeChunk }
      (.new { chunkSize := fallbackUnknownSizeChunk } ⟨0, false, none, none⟩) 0
      { reply := .answer { status := 200, pieces := [[9]] } } = some res ∧ res.outcome = .returned 1 :=
    ⟨_, rfl, rfl⟩
  have hbuf : (ChunkFetcher.new { chunkSize := fallbackUnknownSizeChunk }
      ⟨0, false, none, none⟩).buffer.length = FetcherConfig.flushThreshold
        { chunkSize := fallbackUnknownSizeChunk } := List.length_replicate
  have hchunk : FetcherConfig.chunkSize { chunkSize := fallbackUnknownSizeChunk } =
      (applyProbeFallback { urls := ["http://a"] } ⟨0, false, none, none⟩).chunkSize := rfl
  refine ⟨res, hrun, fun spec algo acts s b hpass hb => ?_⟩
  have hiff := ((digest_extent_iff [] spec algo le_rfl hchunk hbuf rfl hrun hn).2 acts s b hpass hb).2.2.2
  exact hiff.mpr ⟨by decide, .inl le_rfl⟩

end Mrdl.Hasher
