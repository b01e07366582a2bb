import Mrdl.System.Exclusive
import Mrdl.System.SavedBytes
import Mrdl.Hasher.Fed

/-! # The digest of a run

The hasher reads through its own descriptor while the writer writes elsewhere. It reads only chunks that
are on disk, and those are left alone for the rest of the run, so what it read is what the file holds
when the run is over.
-/

namespace Mrdl.System
open FileBytes Downloader Workers Writer Hasher Runs
set_option autoImplicit false

section
variable {S : Setup} {s s' t : Sys} {job : HashJob}

/-! ## The job and the file -/

theorem job_chunkSize (hjob : S.job = some job) : job.chunkSize = S.cfg.chunkSize := by
  obtain ⟨_, -, rfl⟩ := Option.map_eq_some_iff.mp hjob
  rfl

theorem job_proper (hsize : 0 < S.metadata.totalSize) (hchunk : 0 < S.cfg.chunkSize)
    (hjob : S.job = some job) : job.Proper := by
  obtain ⟨h, -, rfl⟩ := Option.map_eq_some_iff.mp hjob
  refine ⟨hsize, hchunk, fun i hi => ?_, size_le_chunks hsize hchunk⟩
  have hstart := (chunk_start_lt hsize hi).2
  unfold HashJob.size
  dsimp only
  omega

theorem size_le_file (S : Setup) : S.size ≤ S.file.length := by
  unfold Setup.size Setup.file Session.prepareFile
  dsimp only
  split
  · split
    · rw [List.length_append, List.length_replicate]
      omega
    · rw [resize_length]
  · omega

/-! ## The invariant -/

/-- What a step does to the file: it becomes no shorter, and the chunks on disk stay there as they are. -/
theorem sysStep_disk {a : SysAct} (h : Sound S s) (hx : Exclusive S s.traffic) (hs : sysStep S s a = some s') :
    (∀ i, s.writer.isOnDisk i = true → s'.writer.isOnDisk i = true) ∧
      s.writer.file.length ≤ s'.writer.file.length ∧
      ∀ b < s.writer.file.length, s.writer.isOnDisk (b / S.cfg.chunkSize) = true →
        s'.writer.file[b]? = s.writer.file[b]? := by
  rcases sysStep_writer hs with heq | ⟨x, hput⟩ | ⟨b, hstep⟩
  · rw [heq]
    exact ⟨fun _ => id, Nat.le_refl _, fun _ _ _ => rfl⟩
  · simp only [DiskWriter.put, Option.ite_none_right_eq_some, Option.some.injEq] at hput
    obtain ⟨-, hput⟩ := hput
    rw [← hput]
    exact ⟨fun _ => id, Nat.le_refl _, fun _ _ _ => rfl⟩
  · have hhand : ∀ cmd ∈ s.writer.hand, cmd ∈ s.writer.pending := fun cmd => List.mem_append_left _
    have hno : ∀ n, .truncate n ∉ s.writer.hand := by
      intro n hmem
      obtain ⟨i, -, hown⟩ := hx.log _ (List.mem_append_right _ (hhand _ hmem))
      exact hown
    obtain ⟨hlen, hkeep⟩ := DiskWriter.step_file hno hstep
    refine ⟨fun i hi => DiskWriter.step_isOnDisk hi hstep, hlen, fun b hb hdisk => hkeep b hb ?_⟩
    intro cmd hmem hcov
    exact hx.on_disk h hdisk (Or.inl (hhand cmd hmem)) ⟨b, rfl, hcov⟩

structure Checked (S : Setup) (job : HashJob) (s : Sys) : Prop where
  sound : Sound S s
  exclusive : Exclusive S s.traffic
  long : job.size ≤ s.writer.file.length
  judged : s.hasher.Judged job
  fed : s.hasher.Live s.ctl.ev.stopThread → s.hasher.Fed job s.writer.isOnDisk s.writer.file

theorem Checked.step {a : SysAct} (hsize : 0 < S.metadata.totalSize) (hchunk : 0 < S.cfg.chunkSize)
    (hjob : S.job = some job) (h : Checked S job s) (hs : sysStep S s a = some s') : Checked S job s' := by
  have hproper := job_proper hsize hchunk hjob
  have hchunks := job_chunkSize hjob
  obtain ⟨hdisk, hlen, hkeep⟩ := sysStep_disk h.sound h.exclusive hs
  have hlong := h.long.trans hlen
  refine ⟨h.sound.step hs, h.exclusive.sysStep hsize h.sound hs, hlong, ?_, fun hlive => ?_⟩
  · rcases sysStep_hasher hs with heq | ⟨job', b, hjob', hstep, -⟩
    · rw [heq]
      exact h.judged
    · rw [hjob] at hjob'
      cases hjob'
      exact h.judged.step hstep
  · rcases sysStep_hasher hs with heq | ⟨job', b, hjob', hstep, hwriter, hev⟩
    · rw [heq] at hlive ⊢
      refine (h.fed ?_).mono hproper hdisk fun b hb hon => ?_
      · -- the stop event was not set before, or it would be set now
        refine hlive.imp id fun ⟨hstop, hpc⟩ => ⟨?_, hpc⟩
        by_contra hne
        rw [(sysStep_le h.sound.ordered hs).2 (Bool.eq_true_of_not_eq_false hne)] at hstop
        cases hstop
      · rw [hchunks] at hon
        exact hkeep b (hb.trans_le h.long) hon
    · rw [hjob] at hjob'
      cases hjob'
      rw [hev] at hlive
      rw [hwriter]
      exact (h.fed (Or.inr (hlive.before h.judged hstep))).step hproper h.judged h.long hstep hlive

theorem Checked.init (hjob : S.job = some job) : Checked S job (Sys.init S) := by
  refine ⟨Sound.init S, Exclusive.init S, ?_, .unjudged rfl, fun _ => .start job _ _⟩
  obtain ⟨_, -, rfl⟩ := Option.map_eq_some_iff.mp hjob
  exact size_le_file S

/-! ## The rest of the run -/

theorem checked_of_run {as : List SysAct} (hsize : 0 < S.metadata.totalSize) (hchunk : 0 < S.cfg.chunkSize)
    (hjob : S.job = some job) (hrun : exec (sysStep S) (Sys.init S) as = some s) : Checked S job s :=
  exec_invariant (P := Checked S job) (fun _ _ _ h hs => h.step hsize hchunk hjob hs) (.init hjob) hrun

/-- The hasher has come to its verdict: it has passed every chunk. -/
theorem Checked.all_on_disk (hp : job.Proper) (h : Checked S job s) (hv : s.hasher.verified ≠ none) {b : ℕ}
    (hb : b < job.size) : s.writer.isOnDisk (b / job.chunkSize) = true := by
  refine (h.fed (Or.inl hv)).passed _ ?_
  rw [h.judged.complete hv]
  exact HashJob.chunk_of_byte hp hb

/-- After its verdict the hasher takes no step, and the bytes of the file stay as they are. -/
theorem Checked.stays {later : List SysAct} (hsize : 0 < S.metadata.totalSize) (hchunk : 0 < S.cfg.chunkSize)
    (hjob : S.job = some job) (h : Checked S job s) (hv : s.hasher.verified ≠ none)
    (hlater : exec (sysStep S) s later = some t) :
    Checked S job t ∧ t.hasher = s.hasher ∧ ∀ b < job.size, t.writer.file[b]? = s.writer.file[b]? := by
  have hproper := job_proper hsize hchunk hjob
  have hchunks := job_chunkSize hjob
  refine exec_invariant (P := fun t => Checked S job t ∧ t.hasher = s.hasher ∧
    ∀ b < job.size, t.writer.file[b]? = s.writer.file[b]?) ?_ ⟨h, rfl, fun _ _ => rfl⟩ hlater
  rintro u a v ⟨hu, hhasher, hfile⟩ hs
  have hverified : u.hasher.verified ≠ none := by
    rw [hhasher]
    exact hv
  refine ⟨hu.step hsize hchunk hjob hs, ?_, fun b hb => ?_⟩
  · rcases sysStep_hasher hs with heq | ⟨job', b, -, hstep, -⟩
    · rw [heq, hhasher]
    · exact absurd (hu.judged.pc hverified) (StreamingHasher.step_awake hstep).1
  · have hdisk := hu.all_on_disk hproper hverified hb
    rw [hchunks] at hdisk
    rw [(sysStep_disk hu.sound hu.exclusive hs).2.2 b (hb.trans_le hu.long) hdisk]
    exact hfile b hb

/-- When the hasher has its verdict, the pieces it fed are the bytes of the file, once each and in order,
and no command that may still be carried out, then or later, puts one of them. `finalize` returns
`True` for a digest that is accepted and for no other, and raises when the pass was cut short. -/
theorem verified_covers {spec : HashSpec} {algo : HashAlgo} {as : List SysAct}
    (hsize : 0 < S.metadata.totalSize) (hchunk : 0 < S.cfg.chunkSize) (hhash : S.hash = some (spec, algo))
    (hstreams : algo.Streams) (hrun : exec (sysStep S) (Sys.init S) as = some s) :
    (s.hasher.verified ≠ none →
      S.size ≤ s.writer.file.length ∧ s.hasher.updates.flatten = s.writer.file.take S.size ∧
        ∀ later t, exec (sysStep S) s later = some t →
          t.writer.file.take S.size = s.writer.file.take S.size ∧
            ∀ cmd, t.Waiting cmd → ∀ b < S.size, ¬ cmd.Covers b) ∧
      (∀ verdict, s.hasher.finalize true = .ok verdict →
        (verdict = true ↔
          Accepts spec (algo.hexdigest (algo.update algo.new (s.writer.file.take S.size))))) ∧
      (s.hasher.verified = none ∨ s.hasher.updates.flatten.length ≠ S.size →
        s.hasher.finalize true = .error StreamingHasher.incompleteHashText) := by
  have hjob : S.job = some ⟨S.cfg.chunkSize, S.metadata.totalSize, S.totalChunks, spec, algo⟩ := by
    rw [Setup.job, hhash]
    rfl
  have hproper := job_proper hsize hchunk hjob
  have hs := checked_of_run hsize hchunk hjob hrun
  have hfed : s.hasher.verified ≠ none → s.hasher.updates.flatten = s.writer.file.take S.size :=
    fun hv => (hs.fed (Or.inl hv)).whole hproper hs.judged hv
  have hlength : s.hasher.verified ≠ none → s.hasher.updates.flatten.length = S.size := by
    intro hv
    rw [hfed hv, List.length_take]
    exact min_eq_left hs.long
  refine ⟨fun hv => ⟨hs.long, hfed hv, fun later t hlater => ?_⟩, fun verdict hfin => ?_, fun hcut => ?_⟩
  · obtain ⟨ht, hhasher, hfile⟩ := hs.stays hsize hchunk hjob hv hlater
    refine ⟨?_, fun cmd hcmd b hb hcov => ?_⟩
    · refine List.ext_getElem? fun b => ?_
      rw [List.getElem?_take, List.getElem?_take]
      by_cases hb : b < S.size
      · rw [if_pos hb, if_pos hb, hfile b hb]
      · rw [if_neg hb, if_neg hb]
    · have hdisk := ht.all_on_disk hproper (by rw [hhasher]; exact hv) hb
      exact ht.exclusive.on_disk ht.sound hdisk hcmd ⟨b, rfl, hcov⟩
  · have hv : s.hasher.verified = some verdict := by
      cases hver : s.hasher.verified with
      | none =>
        simp only [StreamingHasher.finalize, hver, if_true] at hfin
        cases hfin
      | some v =>
        simp only [StreamingHasher.finalize, hver, if_true, Except.ok.injEq] at hfin
        rw [hfin]
    have hne : s.hasher.verified ≠ none := by
      rw [hv]
      exact nofun
    have hfeed := hs.judged.verdict verdict hv
    rw [← hfed hne]
    cases hpieces : s.hasher.updates with
    | nil =>
      have hzero := hlength hne
      rw [hpieces, Setup.size] at hzero
      simp only [List.flatten_nil, List.length_nil] at hzero
      omega
    | cons piece pieces =>
      rw [hpieces] at hfeed
      rw [← HashAlgo.feed_flatten hstreams]
      exact hfeed
  · have hnone : s.hasher.verified = none := by
      rcases hcut with hnone | hshort
      · exact hnone
      · by_contra hv
        exact hshort (hlength hv)
    simp only [StreamingHasher.finalize, hnone, if_true]

end

/-! ## Two bytes and their digest -/

/-- A digest that is the bytes themselves. -/
def plainDigest : HashAlgo where
  State := Bytes
  new := []
  update := fun fed piece => fed ++ piece
  hexdigest := fun fed => String.ofList <| fed.flatMap fun b =>
    [Nat.digitChar (b.toNat / 16), Nat.digitChar (b.toNat % 16)]

def twoBytesHashed : Setup := { twoBytes with hash := some (⟨"plain", some "0708"⟩, plainDigest) }

/-- The hasher's thread takes the chunk in two reads. -/
def chunkHashed : List SysAct :=
  [.hasher .look, .hasher .checkStop, .hasher (.read 1), .hasher .checkStop, .hasher (.read 4),
    .hasher .checkStop, .hasher .look, .hasher .conclude]

theorem verified_covers_twoBytes : ∃ s : Sys,
    exec (sysStep twoBytesHashed) (Sys.init twoBytesHashed) (chunkFetched ++ chunkWritten ++ chunkHashed) =
        some s ∧ s.hasher.verified = some true ∧ s.hasher.updates.flatten = s.writer.file.take 2 := by
  obtain ⟨s, hrun, hv⟩ : ∃ s, exec (sysStep twoBytesHashed) (Sys.init twoBytesHashed)
      (chunkFetched ++ chunkWritten ++ chunkHashed) = some s ∧ s.hasher.verified = some true :=
    ⟨(exec (sysStep twoBytesHashed) (Sys.init twoBytesHashed)
      (chunkFetched ++ chunkWritten ++ chunkHashed)).get (by decide +kernel), (Option.some_get _).symm,
      by decide +kernel⟩
  have hstreams : plainDigest.Streams := fun s a b => List.append_assoc s a b
  have hcovers := verified_covers (by decide) (by decide) rfl hstreams hrun
  refine ⟨s, hrun, hv, (hcovers.1 ?_).2.1⟩
  rw [hv]
  exact nofun

end Mrdl.System
