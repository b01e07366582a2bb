import Mrdl.System.RightBytes
import Mrdl.System.Checksum

/-! # What `COMPLETED` means

The pool succeeds when every fetch has handed its chunk over, which says nothing about the writer. With
a checksum the verification waits for every chunk to be on disk. Without one it rests on
`DiskWriter.stop`, which gives up after a while: a run that ends well has all its bytes in the file if
the writer's thread had done its writes by then.
-/

namespace Mrdl.System
open FileBytes Downloader Workers Writer Hasher Runs
set_option autoImplicit false

/-- The health tracker raises, and its worker ends with the chunk in its hands. -/
def SysAct.lossy : SysAct → Bool
  | .pool a => a.lossy
  | _ => false

/-- No write of the file's bytes waits for the writer's thread, or was given up on. -/
def Quiet (S : Setup) (s : Sys) : Prop :=
  ∀ cmd ∈ s.writer.pending ++ s.dropped, ∀ b < S.size, ¬ cmd.Covers b

/-- After a pool that succeeded `DiskWriter.stop` returns only when every write of the file's bytes is done. -/
def Drained (S : Setup) (s : Sys) : SysAct → Prop
  | .control .writerStopped => s.ctl.success = true → Quiet S s
  | _ => True

instance (S : Setup) (s : Sys) (a : SysAct) : Decidable (Drained S s a) := by
  unfold Drained Quiet
  split <;> infer_instance

section
variable {S : Setup} {content : Bytes} {s s' : Sys} {job : HashJob}

/-! ## The progress of `start` -/

theorem sysStep_advance {a : SysAct} (h : Ordered s) (hs : sysStep S s a = some s') :
    (s'.ctl.success = true → s.ctl.success = true ∨
      ((∃ error, a = .control (.poolReturns true error)) ∧ s'.ctl.pc = .stoppingWriter)) ∧
      (s.ctl.pc = .stoppingWriter → s'.ctl.pc = .stoppingWriter ∨ a = .control .writerStopped) ∧
      (s'.ctl.cleared = true → s.ctl.cleared = true ∨ a = .control (.finalizeReturns .verified)) := by
  have hm := sysStep_control hs
  have haccounted := h.accounted
  generalize s.ctl = c at hm haccounted
  generalize s'.ctl = d at hm
  cases hm with
  | own b d hb =>
    obtain ⟨-, hsuccess, hwaits, hcleared, -, -⟩ := controlStep_advance haccounted hb
    refine ⟨fun hd => (hsuccess hd).imp id ?_, fun hc => (hwaits hc).imp id ?_, fun hd => (hcleared hd).imp id ?_⟩
    · rintro ⟨⟨error, rfl⟩, hpc⟩
      exact ⟨⟨error, rfl⟩, hpc⟩
    · rintro rfl
      rfl
    · rintro rfl
      rfl
  | writerFails e d hb =>
    obtain ⟨-, hsuccess, hwaits, hcleared, -, -⟩ := controlStep_advance haccounted hb
    refine ⟨fun hd => (hsuccess hd).imp id ?_, fun hc => (hwaits hc).imp id ?_, fun hd => (hcleared hd).imp id ?_⟩
    · rintro ⟨⟨error, herror⟩, -⟩
      cases herror
    · exact nofun
    · exact nofun
  | events a ev digest other le started => exact ⟨Or.inl, Or.inl, Or.inl⟩

/-! ## The bytes that were handed over -/

structure Placed (S : Setup) (content : Bytes) (s : Sys) : Prop where
  sound : Sound S s
  exclusive : Exclusive S s.traffic
  covered : Covered S s.traffic
  right : Right S content s.ctl.ev s.traffic

theorem Right.le {ev ev' : Events} {T : Traffic} (h : Right S content ev T) (hle : ev.Le ev') :
    Right S content ev' T :=
  { h with
    calls := fun w c n hc hn =>
      (h.calls w c n hc hn).imp id fun ⟨hstop, hrest⟩ => ⟨hle.stopThread hstop, hrest⟩ }

theorem Placed.step {a : SysAct} (hsize : 0 < S.metadata.totalSize) (hchunk : 0 < S.cfg.chunkSize)
    (hcontent : content.length = S.size) (h : Placed S content s)
    (hreceived : ReceivesRight S content s.traffic a) (hs : sysStep S s a = some s') :
    Placed S content s' := by
  have hle := sysStep_le h.sound.ordered hs
  refine ⟨h.sound.step hs, h.exclusive.sysStep hsize h.sound hs, ?_, ?_⟩
  · rcases sysStep_traffic hs with heq | hstep
    · rw [heq]
      exact h.covered
    · exact h.covered.step h.sound.staffed hstep
  · rcases sysStep_traffic hs with heq | hstep
    · rw [heq]
      exact h.right.le hle
    · exact (h.right.step hsize hchunk hcontent h.exclusive h.sound.staffed h.sound.conserved hreceived
        hstep).le hle

theorem Placed.init (S : Setup) (content : Bytes) : Placed S content (Sys.init S) := by
  refine ⟨Sound.init S, Exclusive.init S, (SaveSound.init S).covered, ?_⟩
  refine ⟨fun w c n hc => (by cases hc), fun i n hin => (by cases hin), fun before after i h => ?_,
    fun i hi => (by cases hi)⟩
  exact absurd h.symm (List.append_ne_nil_of_right_ne_nil _ (List.cons_ne_nil _ _))

/-- Every byte was written at its own offset, and the file holds it there. -/
def Written (S : Setup) (content : Bytes) (s : Sys) : Prop :=
  (∀ b < S.size, lastWritten s.writer.pwrites b = content[b]?) ∧ s.writer.file.take S.size = content

theorem Placed.written (hsize : 0 < S.metadata.totalSize) (hchunk : 0 < S.cfg.chunkSize)
    (hcontent : content.length = S.size) (h : Placed S content s)
    (hagree : ∀ i < S.totalChunks, Agrees S content s.writer.log i)
    (hdone : ∀ cmd ∈ s.writer.pending, ∀ b < S.size, ¬ cmd.Covers b) : Written S content s := by
  have hbytes : ∀ b < S.size, lastWritten s.writer.pwrites b = content[b]? := by
    intro b hb
    rw [h.sound.performed.settled fun cmd hcmd => hdone cmd hcmd b hb]
    exact hagree _ (chunk_of_byte hsize hchunk hb) b hb rfl
  have hno : ∀ n, .truncate n ∉ s.writer.executed := by
    intro n hmem
    obtain ⟨i, -, hown⟩ := h.exclusive.log _ (List.mem_append_left _ hmem)
    exact hown
  refine ⟨hbytes, List.ext_getElem? fun b => ?_⟩
  by_cases hb : b < S.size
  · rw [List.getElem?_take_of_lt hb, h.sound.performed.contents hno,
      writeAll_getElem? (hb.trans_le (size_le_file S)), hbytes b hb,
      List.getElem?_eq_getElem (by omega), Option.some_or]
  · rw [List.getElem?_take, if_neg hb, List.getElem?_eq_none (by omega)]

theorem Placed.agrees_on_disk {i : ℕ} (h : Placed S content s) (hfresh : S.resumed = [])
    (hdisk : s.writer.isOnDisk i = true) : Agrees S content s.writer.log i := by
  have hmark : .mark i ∈ s.writer.executed := by
    rcases (h.sound.performed.marks i).mp (of_decide_eq_true hdisk) with hres | hmark
    · rw [hfresh] at hres
      cases hres
    · exact hmark
  obtain ⟨before, after, hsplit⟩ := List.append_of_mem hmark
  have hlog : s.traffic.log = before ++ .mark i :: (after ++ s.writer.pending) := by
    change s.writer.executed ++ s.writer.pending = _
    rw [hsplit, List.append_assoc, List.cons_append]
  change Agrees S content s.traffic.log i
  rw [hlog, agrees_skip_last]
  · exact h.right.marks _ _ i hlog
  · intro cmd hcmd
    rcases List.mem_cons.mp hcmd with rfl | hafter
    · exact mark_untouched i i _ (List.mem_singleton.mpr rfl)
    · exact h.exclusive.order _ _ i hlog cmd hafter

/-! ## Without a checksum -/

theorem Placed.idle (h : Placed S content s) (hall : ∀ i ∈ S.chunks, i ∈ s.pool.completed) :
    (∀ w, (s.tasks w).call = none) ∧ s.orphans = [] := by
  constructor
  · intro w
    cases hcall : (s.tasks w).call with
    | none => rfl
    | some c =>
      obtain ⟨item, t, hpc, hidx⟩ := h.sound.staffed.busy w c hcall
      have hmem := hall _ (h.sound.staffed.chunk_mem h.sound.conserved hcall)
      exact absurd hmem (not_completed_of_hands h.sound.conserved hpc hidx)
  · refine List.eq_nil_iff_forall_not_mem.mpr fun cmd hcmd => ?_
    obtain ⟨i, hi, -, hgone⟩ := h.exclusive.orphans cmd hcmd
    exact hgone.not_completed (hall i hi)

theorem Quiet.step {a : SysAct} (hq : Quiet S s) (hcalls : ∀ w, (s.tasks w).call = none)
    (horphans : s.orphans = []) (hs : sysStep S s a = some s') : Quiet S s' := by
  have hsame : s'.traffic.log = s.traffic.log ∧ s'.traffic.dropped = s.traffic.dropped := by
    rcases sysStep_traffic hs with heq | hstep
    · rw [heq]
      exact ⟨rfl, rfl⟩
    · generalize s'.traffic = T' at hstep
      cases hstep with
      | drop w i cmd rest outcome call | put w i cmd rest outcome call =>
        rw [show (s.traffic.tasks w).call = none from hcalls w] at call
        cases call
      | orphanPut k before after cmd orphans =>
        rw [show s.traffic.orphans = [] from horphans] at orphans
        exact absurd orphans.symm (List.append_ne_nil_of_right_ne_nil _ (List.cons_ne_nil _ _))
      | _ => exact ⟨rfl, rfl⟩
  have hpending : ∀ cmd ∈ s'.writer.pending, cmd ∈ s.writer.pending := by
    rcases sysStep_writer hs with heq | ⟨x, hput⟩ | ⟨b, hstep⟩
    · rw [heq]
      exact fun cmd => id
    · obtain ⟨-, hpending⟩ := DiskWriter.put_pending hput
      have hlog : s.writer.log ++ x.toList = s.writer.log := (DiskWriter.put_log hput).symm.trans hsame.1
      rw [hpending, List.append_right_eq_self.mp hlog, List.append_nil]
      exact fun cmd => id
    · obtain ⟨cmds, -, hpending⟩ := DiskWriter.step_pending hstep
      rw [hpending]
      exact fun cmd hcmd => List.mem_append_right _ hcmd
  intro cmd hcmd
  refine hq cmd ?_
  rcases List.mem_append.mp hcmd with hp | hd
  · exact List.mem_append_left _ (hpending cmd hp)
  · have hdropped : s'.dropped = s.dropped := hsame.2
    rw [hdropped] at hd
    exact List.mem_append_right _ hd

structure Delivered (S : Setup) (content : Bytes) (s : Sys) : Prop where
  placed : Placed S content s
  kept : Kept S.chunks s.ctl.ev s.pool
  finished : Finished S.chunks s.pool
  success : s.ctl.success = true → ∀ i ∈ S.chunks, i ∈ s.pool.completed
  quiet : s.ctl.success = true → s.ctl.pc ≠ .stoppingWriter → Quiet S s

theorem poolReturns_ready {success : Bool} {error : Option PoolError}
    (hs : sysStep S s (.control (.poolReturns success error)) = some s') :
    s.pool.run = .ended (.returned success) ∧ s'.pool = s.pool := by
  cases sysStep_moves hs with
  | control b ctl ready h => exact ⟨(of_decide_eq_true ready).1, rfl⟩

theorem Delivered.step {a : SysAct} (hsize : 0 < S.metadata.totalSize) (hchunk : 0 < S.cfg.chunkSize)
    (hcontent : content.length = S.size) (h : Delivered S content s)
    (hreceived : ReceivesRight S content s.traffic a) (hdrained : Drained S s a) (hcalm : a.lossy = false)
    (hs : sysStep S s a = some s') : Delivered S content s' := by
  obtain ⟨hsuccess, hwaits, -⟩ := sysStep_advance h.placed.sound.ordered hs
  have hle := sysStep_le h.placed.sound.ordered hs
  refine ⟨h.placed.step hsize hchunk hcontent hreceived hs, ?_, ?_, fun hnow i hi => ?_, fun hnow hpc => ?_⟩
  · rcases sysStep_pool hs with ⟨b, rfl, hpool⟩ | ⟨-, heq⟩
    · exact poolStep_kept h.placed.sound.conserved h.kept hcalm hpool
    · rw [heq]
      exact h.kept.le hle
  · rcases sysStep_pool hs with ⟨b, -, hpool⟩ | ⟨-, heq⟩
    · exact poolStep_finished h.placed.sound.conserved h.kept h.finished hpool
    · rw [heq]
      exact h.finished
  · rcases hsuccess hnow with hold | ⟨⟨error, rfl⟩, -⟩
    · exact completed_mono hs i (h.success hold i hi)
    · obtain ⟨hrun, hpool⟩ := poolReturns_ready hs
      rw [hpool]
      exact h.finished (by rw [hrun]; rfl) i hi
  · rcases hsuccess hnow with hold | ⟨-, hstopping⟩
    · have hquiet : Quiet S s := by
        by_cases hstopping : s.ctl.pc = .stoppingWriter
        · rcases hwaits hstopping with hstill | rfl
          · exact absurd hstill hpc
          · exact hdrained hold
        · exact h.quiet hold hstopping
      obtain ⟨hcalls, horphans⟩ := h.placed.idle (h.success hold)
      exact hquiet.step hcalls horphans hs
    · exact absurd hstopping hpc

theorem Delivered.init (S : Setup) (content : Bytes) : Delivered S content (Sys.init S) := by
  refine ⟨Placed.init S content, ?_, fun h => (by cases h), fun h => (by cases h), fun h => (by cases h)⟩
  refine init_kept _ _ _ (chunks_nodup S) fun i hi hmem => ?_
  exact (mem_chunks.mp hi).2 (List.mem_dedup.mp hmem)

theorem Delivered.written (hsize : 0 < S.metadata.totalSize) (hchunk : 0 < S.cfg.chunkSize)
    (hcontent : content.length = S.size) (hfresh : S.resumed = []) (h : Delivered S content s)
    (hsuccess : s.ctl.success = true) (hpc : s.ctl.pc ≠ .stoppingWriter) : Written S content s := by
  have hquiet := h.quiet hsuccess hpc
  refine h.placed.written hsize hchunk hcontent (fun i hi => ?_) fun cmd hcmd =>
    hquiet cmd (List.mem_append_left _ hcmd)
  have hmem : i ∈ S.chunks := mem_chunks.mpr ⟨hi, by rw [hfresh]; exact List.not_mem_nil⟩
  rcases h.placed.covered.completed i (h.success hsuccess i hmem) with hres | ⟨n, hin⟩
  · rw [hfresh] at hres
    cases hres
  · rcases (h.placed.right.recorded i n hin).2 with hagree | ⟨cmd, hcmd, b, hb, hcov⟩
    · exact hagree
    · exact absurd hcov (hquiet cmd (List.mem_append_right _ hcmd) b hb)

/-! ## With a checksum -/

/-- The progress file is cleared only when the hasher's verdict was good. -/
def Verified (s : Sys) : Prop := s.ctl.cleared = true → s.hasher.verified = some true

theorem finalize_ready {v : Verification} (hs : sysStep S s (.control (.finalizeReturns v)) = some s') :
    v = s.verification S ∧ s'.hasher = s.hasher := by
  cases sysStep_moves hs with
  | control b ctl ready h => exact ⟨of_decide_eq_true ready, rfl⟩

theorem Verified.step {a : SysAct} (hjob : S.job = some job) (hc : Checked S job s) (h : Verified s)
    (hs : sysStep S s a = some s') : Verified s' := by
  intro hnow
  obtain ⟨-, -, hcleared⟩ := sysStep_advance hc.sound.ordered hs
  rcases hcleared hnow with hold | rfl
  · rcases sysStep_hasher hs with heq | ⟨job', b, -, hstep, -⟩
    · rw [heq]
      exact h hold
    · have hv : s.hasher.verified ≠ none := by
        rw [h hold]
        exact nofun
      exact absurd (hc.judged.pc hv) (StreamingHasher.step_awake hstep).1
  · obtain ⟨hverified, hhasher⟩ := finalize_ready hs
    have hhash : S.hash.isSome = true := by
      obtain ⟨x, hx, -⟩ := Option.map_eq_some_iff.mp hjob
      rw [hx]
      rfl
    rw [hhasher]
    rw [Sys.verification, hhash] at hverified
    simp only [StreamingHasher.finalize, if_true] at hverified
    cases hv : s.hasher.verified with
    | none =>
      rw [hv] at hverified
      cases hverified
    | some verdict =>
      rw [hv] at hverified
      cases verdict
      · cases hverified
      · rfl

theorem Checked.written (hsize : 0 < S.metadata.totalSize) (hchunk : 0 < S.cfg.chunkSize)
    (hcontent : content.length = S.size) (hfresh : S.resumed = []) (hjob : S.job = some job)
    (hc : Checked S job s) (hp : Placed S content s) (hv : s.hasher.verified ≠ none) : Written S content s := by
  have hproper := job_proper hsize hchunk hjob
  have hdisk : ∀ i < S.totalChunks, s.writer.isOnDisk i = true := by
    intro i hi
    refine (hc.fed (Or.inl hv)).passed i ?_
    rw [hc.judged.complete hv]
    obtain ⟨_, -, rfl⟩ := Option.map_eq_some_iff.mp hjob
    exact hi
  refine hp.written hsize hchunk hcontent (fun i hi => hp.agrees_on_disk hfresh (hdisk i hi)) ?_
  intro cmd hcmd b hb hcov
  exact hp.exclusive.on_disk hp.sound (hdisk _ (chunk_of_byte hsize hchunk hb)) (Or.inl hcmd) ⟨b, rfl, hcov⟩

/-! ## The end of the run -/

/-- In a fresh run whose fetches return the right bytes, a result with the status `COMPLETED` means that
every byte of the file was written, if there is a checksum, or if the health tracker never raises and
`DiskWriter.stop` never returns to a successful run with a write undone. -/
theorem completed_written {as : List SysAct} (hsize : 0 < S.metadata.totalSize) (hchunk : 0 < S.cfg.chunkSize)
    (hfresh : S.resumed = []) (hcontent : content.length = S.size)
    (hreceived : Guarded (sysStep S) (fun s a => ReceivesRight S content s.traffic a) (Sys.init S) as)
    (hdrained : S.hash.isSome = true ∨
      Guarded (sysStep S) (fun s a => Drained S s a ∧ a.lossy = false) (Sys.init S) as)
    (hrun : exec (sysStep S) (Sys.init S) as = some s) {r : DownloadResult}
    (hreturned : s.ctl.outcome = some (.returned r)) (hcompleted : r.status = .completed) :
    Written S content s := by
  rcases hdrained with hhash | hdrained
  · obtain ⟨h, hh⟩ := Option.isSome_iff_exists.mp hhash
    obtain ⟨job, hjob⟩ : ∃ job, S.job = some job := by
      rw [Setup.job, hh]
      exact ⟨_, rfl⟩
    obtain ⟨hplaced, hchecked, hverified⟩ :=
      exec_guarded (P := fun s => Placed S content s ∧ Checked S job s ∧ Verified s)
        (fun _ _ _ h hg hs => ⟨h.1.step hsize hchunk hcontent hg hs, h.2.1.step hsize hchunk hjob hs,
          h.2.2.step hjob h.2.1 hs⟩)
        ⟨Placed.init S content, .init hjob, fun h => by cases h⟩ hreceived hrun
    have hv := hverified (hplaced.sound.ordered.accounted.outcome r hreturned hcompleted)
    refine hchecked.written hsize hchunk hcontent hfresh hjob hplaced ?_
    rw [hv]
    exact Option.some_ne_none true
  · have hdelivered := exec_guarded (P := Delivered S content)
      (fun _ _ _ h hg hs => h.step hsize hchunk hcontent hg.1 hg.2.1 hg.2.2 hs)
      (Delivered.init S content) (hreceived.and hdrained) hrun
    have haccounted := hdelivered.placed.sound.ordered.accounted
    obtain ⟨hsuccess, hpc⟩ := haccounted.cleared (haccounted.outcome r hreturned hcompleted)
    refine hdelivered.written hsize hchunk hcontent hfresh hsuccess ?_
    rcases hpc with hpc | hpc <;> rw [hpc] <;> decide

end

/-! ## A writer that is slower than `stop` -/

/-- The pool succeeds, and `start` goes on to its result. -/
def endedWell : List SysAct :=
  [.pool .joinReturns, .pool (.runWakes true), .pool .runEnds, .control (.poolReturns true none), .stopPut,
    .control .writerStopped, .control .hasherStopped, .control .stateSaved, .control .check,
    .control .sessionClosed, .control (.finalizeReturns .verified), .control (.stateCleared true)]

/-- The two bytes were received and handed over, and `DiskWriter.stop` gives up before its thread has
written them: the result is `COMPLETED` all the same. -/
theorem completed_unwritten : ∃ s : Sys,
    exec (sysStep twoBytes) (Sys.init twoBytes) (chunkFetched ++ endedWell) = some s ∧
      Guarded (sysStep twoBytes) (fun s a => ReceivesRight twoBytes [7, 8] s.traffic a) (Sys.init twoBytes)
        (chunkFetched ++ endedWell) ∧
      (∃ r, s.ctl.outcome = some (.returned r) ∧ r.status = .completed) ∧
      ¬ Written twoBytes [7, 8] s := by
  refine ⟨(exec (sysStep twoBytes) (Sys.init twoBytes) (chunkFetched ++ endedWell)).get (by decide +kernel),
    (Option.some_get _).symm, by decide +kernel, ⟨⟨.completed, true, none, none⟩, by decide +kernel, rfl⟩,
    fun h => ?_⟩
  have hbyte := h.1 0 (by decide)
  cases hbyte

theorem completed_written_twoBytes : ∃ s : Sys,
    exec (sysStep twoBytes) (Sys.init twoBytes) (chunkFetched ++ chunkWritten ++ endedWell) = some s ∧
      Written twoBytes [7, 8] s := by
  obtain ⟨s, hrun, hreturned⟩ : ∃ s, exec (sysStep twoBytes) (Sys.init twoBytes)
      (chunkFetched ++ chunkWritten ++ endedWell) = some s ∧
        s.ctl.outcome = some (.returned ⟨.completed, true, none, none⟩) :=
    ⟨(exec (sysStep twoBytes) (Sys.init twoBytes) (chunkFetched ++ chunkWritten ++ endedWell)).get
      (by decide +kernel), (Option.some_get _).symm, by decide +kernel⟩
  exact ⟨s, hrun, completed_written (by decide) (by decide) rfl rfl (by decide +kernel)
    (Or.inr (by decide +kernel)) hrun hreturned rfl⟩

end Mrdl.System
