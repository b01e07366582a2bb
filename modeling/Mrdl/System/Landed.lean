import Mrdl.System.Completed
import Mrdl.System.Interrupted

/-! # Runs that are cut off, with the writer's queue

A chunk has landed when its bytes are in the file and no command of it is still pending: then they are there
to stay, since every other command is one of another chunk. A save made while no write of its chunks is
pending or was given up on lists only chunks that have landed, so what a killed run leaves is honest.
-/

namespace Mrdl.System
open FileBytes Downloader Workers Writer Hasher Runs Session
set_option autoImplicit false

/-- A write of chunk `i` was given up on. -/
def SpoiledAt (S : Setup) (T : Traffic) (i : ℕ) : Prop :=
  ∃ cmd ∈ T.dropped, ∃ b < S.size, b / S.cfg.chunkSize = i ∧ cmd.Covers b

/-- What was handed over for a chunk whose fetch returns is right, or part of it was given up on. -/
structure Lasting (S : Setup) (content : Bytes) (T : Traffic) : Prop where
  calls : ∀ w c n, (T.tasks w).call = some c → c.outcome = .returned n →
    Agrees S content (T.log ++ c.todo) c.chunkIdx ∨ SpoiledAt S T c.chunkIdx
  recorded : ∀ i n, (i, n) ∈ T.recorded → Agrees S content T.log i ∨ SpoiledAt S T i

/-- The bytes of chunk `i` are in the file, and no command that is still pending is one of it. -/
structure Landed (S : Setup) (content : Bytes) (s : Sys) (i : ℕ) : Prop where
  holds : Holds S content s.writer.file i
  done : ∀ cmd ∈ s.writer.pending, ¬ Touches S i cmd

section
variable {S : Setup} {content : Bytes} {ev : Events} {T T' : Traffic} {s s' : Sys} {i : ℕ}

/-! ## What a fetch hands over -/

theorem begin_agrees {w n : ℕ} {item : QueueItem} {t : ℚ} {att : Fetcher.Attempt} {res : Fetcher.FetchResult}
    (hsize : 0 < S.metadata.totalSize) (hchunk : 0 < S.cfg.chunkSize) (hcontent : content.length = S.size)
    (hst : Staffed S T) (hreceived : ReceivesRight S content T (.begin w att))
    (hands : T.pool.pcOf w = some (.fetching item t))
    (hfetch : Fetcher.fetch S.cfg (T.tasks w).fetcher item.chunkIdx.toNat att = some res)
    (hn : res.outcome = .returned n) :
    Agrees S content (T.log ++ Fetcher.commands res.effects) item.chunkIdx.toNat := by
  refine fetch_agrees hsize hchunk (hst.buffers w) (hst.metadata hsize w) hfetch hn hcontent ?_ T.log
  have hres : res = ⟨res.effects, .returned n, res.fetcher⟩ := by
    rw [← hn]
  simp only [ReceivesRight, hands, hfetch] at hreceived
  rw [hres] at hreceived
  exact hreceived

/-- A step of one fetch that puts, keeps or drops commands of its own. -/
theorem Lasting.goOn {w : ℕ} {c d : Call} {l : List Command} (h : Lasting S content T)
    (hr : Right S content ev T) (hst : Staffed S T) (hp : Conserved S.chunks ev T.pool)
    (call : (T.tasks w).call = some c) (hidx : d.chunkIdx = c.chunkIdx)
    (hout : d.outcome = c.outcome) (htasks : T'.tasks = (T.setCall w (some d)).tasks)
    (hrec : T'.recorded = T.recorded) (hlog : T'.log = T.log ++ l)
    (hspoiled : ∀ j, SpoiledAt S T j → SpoiledAt S T' j) (hown : ∀ cmd ∈ l, Owned S c.chunkIdx cmd)
    (hd : Agrees S content (T.log ++ c.todo) c.chunkIdx →
      Agrees S content (T.log ++ l ++ d.todo) c.chunkIdx ∨ SpoiledAt S T' c.chunkIdx) :
    Lasting S content T' := by
  obtain ⟨item, t, hpc, hcidx⟩ := hst.busy w c call
  have hfree := not_completed_of_hands hp hpc hcidx
  refine ⟨fun v e n he hn => ?_, fun j n hjn => ?_⟩
  · rw [htasks] at he
    rw [hlog]
    rcases setCall_some he with ⟨rfl, hsome⟩ | ⟨hv, he⟩
    · cases hsome
      rw [hidx]
      rcases h.calls v c n call (hout ▸ hn) with hagree | hsp
      · exact hd hagree
      · exact Or.inr (hspoiled _ hsp)
    · -- the other fetches are of other chunks
      refine (h.calls v e n he hn).imp (fun hagree => (agrees_skip fun x hx htouch => ?_).mpr hagree)
        (hspoiled _)
      obtain ⟨item', t', hpc', hidx'⟩ := hst.busy v e he
      rw [(hown x hx).chunk_eq htouch] at hidx'
      exact hv (hp.one_worker hpc' hpc hidx' hcidx)
  · rw [hrec] at hjn
    rw [hlog]
    refine (h.recorded j n hjn).imp (fun hagree => (agrees_skip_last fun x hx htouch => ?_).mpr hagree)
      (hspoiled _)
    exact hfree ((hown x hx).chunk_eq htouch ▸ (hr.recorded j n hjn).1)

/-- A step of the pool clears the fetches that are over. -/
theorem Lasting.pooled (h : Lasting S content T)
    (hcalls : ∀ v c, (T'.tasks v).call = some c → (T.tasks v).call = some c)
    (hrec : ∀ j n, (j, n) ∈ T'.recorded → (j, n) ∈ T.recorded ∨ Agrees S content T.log j ∨ SpoiledAt S T j)
    (hlog : T'.log = T.log) (hdropped : T'.dropped = T.dropped) : Lasting S content T' := by
  have hspoiled : SpoiledAt S T' = SpoiledAt S T := by
    funext j
    unfold SpoiledAt
    rw [hdropped]
  refine ⟨fun v c n hc hn => ?_, fun j n hjn => ?_⟩
  · rw [hlog, hspoiled]
    exact h.calls v c n (hcalls v c hc) hn
  · rw [hlog, hspoiled]
    exact (hrec j n hjn).elim (h.recorded j n) id

theorem Lasting.step {a : SysAct} (hsize : 0 < S.metadata.totalSize) (hchunk : 0 < S.cfg.chunkSize)
    (hcontent : content.length = S.size) (h : Lasting S content T) (hr : Right S content ev T)
    (hx : Exclusive S T) (hst : Staffed S T) (hp : Conserved S.chunks ev T.pool)
    (hreceived : ReceivesRight S content T a) (hs : Traffic.Step S ev T a T') : Lasting S content T' := by
  have hcleared : ∀ w v c, ((T.setCall w none).tasks v).call = some c → (T.tasks v).call = some c := by
    intro w v c hc
    rcases setCall_some hc with ⟨-, hnone⟩ | ⟨-, hc⟩
    · cases hnone
    · exact hc
  cases hs with
  | pool a ev' p hpool quiet => exact h.pooled (fun _ _ => id) (fun _ _ => Or.inl) rfl rfl
  | returned w i n putting ev' p hpool call =>
    refine h.pooled (hcleared w) (fun j m hjm => ?_) rfl rfl
    rcases List.mem_append.mp hjm with hold | hnew
    · exact Or.inl hold
    · cases List.mem_singleton.mp hnew
      have hright := h.calls w _ n call rfl
      rw [List.append_nil] at hright
      exact Or.inr hright
  | failed w a c ev' p hpool settles only call outcome todo kind =>
    exact h.pooled (hcleared w) (fun _ _ => Or.inl) rfl rfl
  | cancelled w ev' p hpool => exact h.pooled (hcleared w) (fun _ _ => Or.inl) rfl rfl
  | begin w item t att res hands free hfetch =>
    refine ⟨fun v c n hc hn => ?_, h.recorded⟩
    rcases began_some hc with ⟨rfl, rfl⟩ | ⟨-, hc⟩
    · exact Or.inl (begin_agrees (T := T) hsize hchunk hcontent hst hreceived hands hfetch hn)
    · exact h.calls v c n hc hn
  | drop w i cmd rest outcome call stopped =>
    have hown : Owned S i cmd := hx.todo w _ call cmd (List.mem_cons_self ..)
    refine h.goOn (d := ⟨i, rest, false, outcome⟩) (l := []) hr hst hp call rfl rfl rfl rfl
      (List.append_nil _).symm (fun j ⟨x, hx', hb⟩ => ⟨x, List.mem_append_left _ hx', hb⟩)
      (fun x hx' => by cases hx') fun hagree => ?_
    by_cases hcov : ∃ b < S.size, cmd.Covers b
    · obtain ⟨b, hb, hcov⟩ := hcov
      exact Or.inr ⟨cmd, List.mem_append_right _ (List.mem_singleton.mpr rfl), b, hb,
        hown.chunk_eq ⟨b, rfl, hcov⟩, hcov⟩
    · left
      intro b hb hi
      rw [← hagree b hb hi, List.append_nil, ← List.singleton_append, ← List.append_assoc]
      refine (lastWritten_skip fun x hx' hxb => hcov ⟨b, hb, ?_⟩).symm
      rwa [List.mem_singleton.mp hx'] at hxb
  | reach w i cmd rest outcome call running =>
    refine h.goOn (d := ⟨i, cmd :: rest, true, outcome⟩) (l := []) hr hst hp call rfl rfl rfl rfl
      (List.append_nil _).symm (fun _ => id) (fun x hx' => by cases hx') fun hagree => Or.inl ?_
    rwa [List.append_nil]
  | put w i cmd rest outcome call =>
    refine h.goOn (d := ⟨i, rest, false, outcome⟩) (l := [cmd]) hr hst hp call rfl rfl rfl rfl rfl
      (fun _ => id) (fun x hx' => ?_) fun hagree => Or.inl ?_
    · rw [List.mem_singleton.mp hx']
      exact hx.todo w _ call cmd (List.mem_cons_self ..)
    · rwa [List.append_assoc, List.singleton_append]
  | refuse w i cmd rest outcome call =>
    refine h.goOn (d := ⟨i, cmd :: rest, false, outcome⟩) (l := []) hr hst hp call rfl rfl rfl rfl
      (List.append_nil _).symm (fun _ => id) (fun x hx' => by cases hx') fun hagree => Or.inl ?_
    rwa [List.append_nil]
  | orphanPut k before after cmd orphans =>
    have hcmd : cmd ∈ T.orphans := by
      rw [orphans]
      exact List.mem_append_right _ (List.mem_cons_self ..)
    obtain ⟨i, -, hown, hgone⟩ := hx.orphans cmd hcmd
    refine ⟨fun v c n hc hn => ?_, fun j n hjn => ?_⟩
    · refine (h.calls v c n hc hn).imp (fun hagree => (agrees_skip fun x hx' => ?_).mpr hagree) id
      rw [List.mem_singleton.mp hx']
      exact hx.no_orphan hst hp hc cmd hcmd
    · refine (h.recorded j n hjn).imp (fun hagree => (agrees_skip_last fun x hx' htouch => ?_).mpr hagree) id
      rw [List.mem_singleton.mp hx'] at htouch
      exact hgone.not_completed (hown.chunk_eq htouch ▸ (hr.recorded j n hjn).1)
  | orphanGone k before after cmd orphans => exact ⟨h.calls, h.recorded⟩

/-! ## Chunks that have landed -/

/-- What a step puts in the queue is of no chunk that is counted as completed. -/
theorem put_untouched {a : SysAct} (h : Placed S content s) (hs : sysStep S s a = some s') :
    ∃ xs, s'.writer.log = s.writer.log ++ xs ∧ ∀ cmd ∈ xs, ∀ i ∈ s.pool.completed, ¬ Touches S i cmd := by
  have hnothing : ∀ T' : Traffic, T'.log = s.traffic.log →
      ∃ xs, T'.log = s.traffic.log ++ xs ∧ ∀ cmd ∈ xs, ∀ i ∈ s.pool.completed, ¬ Touches S i cmd :=
    fun T' heq => ⟨[], heq.trans (List.append_nil _).symm, fun cmd hcmd => by cases hcmd⟩
  have hT : ∃ xs, s'.traffic.log = s.traffic.log ++ xs ∧
      ∀ cmd ∈ xs, ∀ i ∈ s.pool.completed, ¬ Touches S i cmd := by
    rcases sysStep_traffic hs with heq | hstep
    · exact hnothing _ (by rw [heq])
    · generalize s'.traffic = T' at hstep
      cases hstep with
      | put w i cmd rest outcome call =>
        refine ⟨[cmd], rfl, fun x hx j hj htouch => ?_⟩
        rw [List.mem_singleton.mp hx] at htouch
        have hown : Owned S i cmd := h.exclusive.todo w _ call cmd (List.mem_cons_self ..)
        obtain ⟨item, t, hpc, hidx⟩ := h.sound.staffed.busy w _ call
        exact not_completed_of_hands h.sound.conserved hpc hidx (hown.chunk_eq htouch ▸ hj)
      | orphanPut k before after cmd orphans =>
        refine ⟨[cmd], rfl, fun x hx j hj htouch => ?_⟩
        rw [List.mem_singleton.mp hx] at htouch
        obtain ⟨i, -, hown, hgone⟩ := h.exclusive.orphans cmd
          (orphans ▸ List.mem_append_right _ (List.mem_cons_self ..))
        exact hgone.not_completed (hown.chunk_eq htouch ▸ hj)
      | _ => exact hnothing _ rfl
  exact hT

theorem Landed.step {a : SysAct} (hp : Placed S content s) (hcontent : content.length = S.size)
    (hi : i ∈ s.pool.completed) (h : Landed S content s i) (hs : sysStep S s a = some s') :
    Landed S content s' i := by
  rcases sysStep_writer hs with heq | ⟨x, hput⟩ | ⟨b, hstep⟩
  · exact ⟨heq ▸ h.holds, heq ▸ h.done⟩
  · obtain ⟨xs, hlog, hfree⟩ := put_untouched hp hs
    have hxs : xs = x.toList :=
      List.append_cancel_left (hlog.symm.trans (DiskWriter.put_log hput))
    obtain ⟨-, hpending⟩ := DiskWriter.put_pending hput
    have hfile : s'.writer.file = s.writer.file := by
      simp only [DiskWriter.put, Option.ite_none_right_eq_some, Option.some.injEq] at hput
      rw [← hput.2]
    refine ⟨hfile ▸ h.holds, fun cmd hcmd => ?_⟩
    rw [hpending] at hcmd
    rcases List.mem_append.mp hcmd with hold | hnew
    · exact h.done cmd hold
    · exact hfree cmd (hxs ▸ hnew) i hi
  · obtain ⟨cmds, -, hpending⟩ := DiskWriter.step_pending hstep
    have hhand : ∀ cmd ∈ s.writer.hand, cmd ∈ s.writer.pending := fun cmd => List.mem_append_left _
    have hno : ∀ n, .truncate n ∉ s.writer.hand := by
      intro n hmem
      obtain ⟨j, -, hown⟩ := hp.exclusive.log _ (List.mem_append_right _ (hhand _ hmem))
      exact hown
    obtain ⟨-, hkeep⟩ := DiskWriter.step_file hno hstep
    refine ⟨fun b hb hbi => ?_, fun cmd hcmd => h.done cmd (hpending ▸ List.mem_append_right _ hcmd)⟩
    have hbyte := h.holds b hb hbi
    have hlt : b < content.length := by omega
    rw [List.getElem?_eq_getElem hlt] at hbyte ⊢
    rw [hkeep b (List.getElem?_eq_some_iff.mp hbyte).1 fun cmd hcmd hcov =>
      h.done cmd (hhand cmd hcmd) ⟨b, hbi, hcov⟩]
    exact hbyte

/-- What was handed over of a chunk is in the file when no command of it is pending. -/
theorem Placed.landed (h : Placed S content s) (hcontent : content.length = S.size)
    (hagree : Agrees S content s.writer.log i) (hdone : ∀ cmd ∈ s.writer.pending, ¬ Touches S i cmd) :
    Landed S content s i := by
  have hno : ∀ n, .truncate n ∉ s.writer.executed := by
    intro n hmem
    obtain ⟨j, -, hown⟩ := h.exclusive.log _ (List.mem_append_left _ hmem)
    exact hown
  refine ⟨fun b hb hbi => ?_, hdone⟩
  rw [h.sound.performed.contents hno, writeAll_getElem? (hb.trans_le (size_le_file S)),
    h.sound.performed.settled fun cmd hcmd hcov => hdone cmd hcmd ⟨b, hbi, hcov⟩, hagree b hb hbi,
    List.getElem?_eq_getElem (by omega), Option.some_or]

/-- A command puts no byte behind the end of the file. -/
theorem Placed.within {cmd : Command} {b : ℕ} (h : Placed S content s) (hcmd : cmd ∈ s.writer.pending)
    (hcov : cmd.Covers b) : b < S.size := by
  obtain ⟨j, -, hown⟩ := h.exclusive.log cmd (List.mem_append_right _ hcmd)
  cases cmd with
  | write offset data =>
    obtain ⟨-, -, hend⟩ := hown
    obtain ⟨-, hlt⟩ := hcov
    rw [Setup.size]
    omega
  | mark k => exact absurd hcov id
  | truncate n => exact absurd hcov id

/-! ## The saves of a run -/

structure Trusted (S : Setup) (content : Bytes) (s : Sys) : Prop where
  placed : Placed S content s
  lasting : Lasting S content s.traffic
  resumed : ∀ i ∈ S.resumed, i ∈ s.pool.completed ∧ Landed S content s i

/-- A chunk that was fetched, with no write of it pending or given up on, has landed. -/
theorem Trusted.landed {n : ℕ} (hsize : 0 < S.metadata.totalSize) (hchunk : 0 < S.cfg.chunkSize)
    (hcontent : content.length = S.size) (h : Trusted S content s) (hin : (i, n) ∈ s.recorded)
    (hnone : ∀ cmd ∈ s.writer.pending ++ s.dropped, ∀ b < n, ¬ cmd.Covers (i * S.cfg.chunkSize + b)) :
    Landed S content s i := by
  obtain ⟨hext, -⟩ := h.placed.covered.recorded i n hin
  have hlen := hext hsize
  have hclear : ∀ cmd ∈ s.writer.pending ++ s.dropped, ∀ b < S.size, b / S.cfg.chunkSize = i →
      ¬ cmd.Covers b := by
    intro cmd hcmd b hb hbi hcov
    have hlow : i * S.cfg.chunkSize ≤ b := hbi ▸ Nat.div_mul_le_self b _
    have hhigh : b < i * S.cfg.chunkSize + S.cfg.chunkSize := hbi ▸ Nat.lt_div_mul_add hchunk
    refine hnone cmd hcmd (b - i * S.cfg.chunkSize) ?_ ?_
    · rw [Setup.size] at hb
      zify [hlow]
      omega
    · rwa [Nat.add_sub_cancel' hlow]
  refine h.placed.landed hcontent ?_ fun cmd hcmd htouch => ?_
  · rcases h.lasting.recorded i n hin with hagree | ⟨cmd, hcmd, b, hb, hbi, hcov⟩
    · exact hagree
    · exact absurd hcov (hclear cmd (List.mem_append_right _ hcmd) b hb hbi)
  · obtain ⟨b, hbi, hcov⟩ := htouch
    exact hclear cmd (List.mem_append_left _ hcmd) b (h.placed.within hcmd hcov) hbi hcov

theorem Trusted.step {a : SysAct} (hsize : 0 < S.metadata.totalSize) (hchunk : 0 < S.cfg.chunkSize)
    (hcontent : content.length = S.size) (h : Trusted S content s)
    (hreceived : ReceivesRight S content s.traffic a) (hs : sysStep S s a = some s') : Trusted S content s' := by
  refine ⟨h.placed.step hsize hchunk hcontent hreceived hs, ?_, fun i hi => ?_⟩
  · rcases sysStep_traffic hs with heq | hstep
    · rw [heq]
      exact h.lasting
    · exact h.lasting.step hsize hchunk hcontent h.placed.right h.placed.exclusive h.placed.sound.staffed
        h.placed.sound.conserved hreceived hstep
  · obtain ⟨hmem, hlanded⟩ := h.resumed i hi
    exact ⟨completed_mono hs i hmem, hlanded.step h.placed hcontent hmem hs⟩

theorem Trusted.init (hresumed : ∀ i ∈ S.resumed, Holds S content S.file i) :
    Trusted S content (Sys.init S) where
  placed := Placed.init S content
  lasting := ⟨fun _ _ _ hc => (by cases hc), fun _ _ hin => (by cases hin)⟩
  resumed i hi := ⟨List.mem_dedup.mpr hi, hresumed i hi, fun _ hcmd => (by cases hcmd)⟩

/-- The chunks of every save have landed. -/
structure Saved (S : Setup) (content : Bytes) (s : Sys) : Prop where
  trusted : Trusted S content s
  sound : SaveSound S s
  saves : ∀ save ∈ s.saves, ∀ i ∈ save.completed, i ∈ s.pool.completed ∧ Landed S content s i

theorem Saved.step {a : SysAct} (hsize : 0 < S.metadata.totalSize) (hchunk : 0 < S.cfg.chunkSize)
    (hcontent : content.length = S.size) (h : Saved S content s)
    (hreceived : ReceivesRight S content s.traffic a) (hnone : NothingPending S s a)
    (hs : sysStep S s a = some s') : Saved S content s' := by
  have hmono : ∀ i, i ∈ s.pool.completed ∧ Landed S content s i →
      i ∈ s'.pool.completed ∧ Landed S content s' i := fun i hi =>
    ⟨completed_mono hs i hi.1, hi.2.step h.trusted.placed hcontent hi.1 hs⟩
  refine ⟨h.trusted.step hsize hchunk hcontent hreceived hs, h.sound.step hnone hs, fun save hsave i hi => ?_⟩
  rw [(sysStep_saves hs).1] at hsave
  rcases List.mem_append.mp hsave with hold | hnew
  · exact hmono i (h.saves save hold i hi)
  · obtain ⟨completed, hmem, rfl⟩ := List.mem_map.mp hnew
    refine hmono i ?_
    have hdone := saving_completed h.sound completed hmem i hi
    by_cases hres : i ∈ S.resumed
    · exact h.trusted.resumed i hres
    · obtain ⟨n, hin⟩ := (h.sound.covered.completed i hdone).resolve_left hres
      exact ⟨hdone, h.trusted.landed hsize hchunk hcontent hin (hnone completed hmem (i, n) hin hi hres)⟩

theorem Saved.init (hresumed : ∀ i ∈ S.resumed, Holds S content S.file i) : Saved S content (Sys.init S) :=
  ⟨Trusted.init hresumed, SaveSound.init S, fun _ hsave => by cases hsave⟩

/-! ## The end of a run -/

/-- A chunk whose mark the writer's thread has come to has landed. -/
theorem Trusted.on_disk (hcontent : content.length = S.size) (h : Trusted S content s)
    (hdisk : s.writer.isOnDisk i = true) : Landed S content s i := by
  rcases (h.placed.sound.performed.marks i).mp (of_decide_eq_true hdisk) with hres | hmark
  · exact (h.resumed i hres).2
  · obtain ⟨before, after, hsplit⟩ := List.append_of_mem hmark
    have hlog : s.traffic.log = before ++ .mark i :: (after ++ s.writer.pending) := by
      change s.writer.executed ++ s.writer.pending = _
      rw [hsplit, List.append_assoc, List.cons_append]
    have hagree : Agrees S content s.traffic.log i := by
      rw [hlog, agrees_skip_last]
      · exact h.placed.right.marks _ _ i hlog
      · intro cmd hcmd
        rcases List.mem_cons.mp hcmd with rfl | hafter
        · exact mark_untouched i i _ (List.mem_singleton.mpr rfl)
        · exact h.placed.exclusive.order _ _ i hlog cmd hafter
    exact h.placed.landed hcontent hagree fun cmd hcmd =>
      h.placed.exclusive.on_disk h.placed.sound hdisk (Or.inl hcmd)

theorem Trusted.whole_of_hash {job : HashJob} (hsize : 0 < S.metadata.totalSize) (hchunk : 0 < S.cfg.chunkSize)
    (hcontent : content.length = S.size) (hjob : S.job = some job) (h : Trusted S content s)
    (hc : Checked S job s) (hv : s.hasher.verified ≠ none) : s.writer.file.take S.size = content := by
  refine content_of_holds hsize hchunk hcontent fun i hi => (h.on_disk hcontent ?_).holds
  refine (hc.fed (Or.inl hv)).passed i ?_
  rw [hc.judged.complete hv]
  obtain ⟨_, -, rfl⟩ := Option.map_eq_some_iff.mp hjob
  exact hi

theorem Trusted.whole_of_quiet (hsize : 0 < S.metadata.totalSize) (hchunk : 0 < S.cfg.chunkSize)
    (hcontent : content.length = S.size) (h : Trusted S content s) (hd : Delivered S content s)
    (hsuccess : s.ctl.success = true) (hpc : s.ctl.pc ≠ .stoppingWriter) :
    s.writer.file.take S.size = content := by
  have hquiet := hd.quiet hsuccess hpc
  refine content_of_holds hsize hchunk hcontent fun i hi => ?_
  by_cases hres : i ∈ S.resumed
  · exact (h.resumed i hres).2.holds
  · have hdone := hd.success hsuccess i (mem_chunks.mpr ⟨hi, hres⟩)
    obtain ⟨n, hin⟩ := (h.placed.covered.completed i hdone).resolve_left hres
    obtain ⟨hext, -⟩ := h.placed.covered.recorded i n hin
    have hlen := hext hsize
    refine (h.landed hsize hchunk hcontent hin fun cmd hcmd b hb => hquiet cmd hcmd _ ?_).holds
    rw [Setup.size]
    omega

end

section
variable {P : Program} {content : Bytes}

/-! ## Any number of runs -/

theorem opened_hash {S : Setup} {disk : Disk} (h : P.opened disk = some S) : S.hash = P.hash := by
  unfold Program.opened at h
  split at h
  · cases h
    rfl
  · cases h

/-- A run that starts from an honest disk and ends with `COMPLETED` has the content in its file. -/
theorem Program.Honest.whole {disk : Disk} {S : Setup} {as : List SysAct} {s : Sys} {r : DownloadResult}
    (hhonest : P.Honest content disk) (hsize : 0 < P.metadata.totalSize) (hchunk : 0 < P.chunkSize)
    (hcontent : content.length = P.size)
    (hrun : P.queued.Reaches (fun S s a => ReceivesRight S content s.traffic a ∧
      (P.hash.isSome = true ∨ Drained S s a ∧ a.lossy = false)) disk S as s)
    (hreturned : s.ctl.outcome = some (.returned r)) (hcompleted : r.status = .completed) :
    s.writer.file.take P.size = content := by
  obtain ⟨h1, h2, h3⟩ := opened_suits hsize hchunk hcontent hrun.opened
  have hinit := Trusted.init (opened_holds hcontent hhonest hrun.opened)
  have hS : S.size = P.size := by rw [Setup.size, (opened_setup hrun.opened).1, Program.size]
  rw [← hS]
  have hguarded := hrun.guarded
  by_cases hhash : P.hash.isSome = true
  · obtain ⟨h, hh⟩ := Option.isSome_iff_exists.mp ((opened_hash hrun.opened) ▸ hhash)
    obtain ⟨job, hjob⟩ : ∃ job, S.job = some job := by
      rw [Setup.job, hh]
      exact ⟨_, rfl⟩
    obtain ⟨htrusted, hchecked, hverified⟩ :=
      exec_guarded (P := fun s => Trusted S content s ∧ Checked S job s ∧ Verified s)
        (fun _ _ _ h hg hs => ⟨h.1.step h1 h2 h3 hg.1 hs, h.2.1.step h1 h2 hjob hs,
          h.2.2.step hjob h.2.1 hs⟩)
        ⟨hinit, .init hjob, fun h => by cases h⟩ hguarded hrun.run
    have hv := hverified (htrusted.placed.sound.ordered.accounted.outcome r hreturned hcompleted)
    refine htrusted.whole_of_hash h1 h2 h3 hjob hchecked ?_
    rw [hv]
    exact Option.some_ne_none true
  · obtain ⟨htrusted, hdelivered⟩ :=
      exec_guarded (P := fun s => Trusted S content s ∧ Delivered S content s)
        (fun _ _ _ h hg hs => by
          obtain ⟨hdrained, hcalm⟩ := hg.2.resolve_left hhash
          exact ⟨h.1.step h1 h2 h3 hg.1 hs, h.2.step h1 h2 h3 hg.1 hdrained hcalm hs⟩)
        ⟨hinit, Delivered.init S content⟩ hguarded hrun.run
    have haccounted := htrusted.placed.sound.ordered.accounted
    obtain ⟨hsuccess, hpc⟩ := haccounted.cleared (haccounted.outcome r hreturned hcompleted)
    refine htrusted.whole_of_quiet h1 h2 h3 hdelivered hsuccess ?_
    rcases hpc with hpc | hpc <;> rw [hpc] <;> decide

end

/-! ## Killed after the first of two chunks -/

def chunkPut : List SysAct :=
  [.offer 0, .putDone 0, .offer 0, .putDone 0, .pool (.fetchReturned 0)] ++ chunkWritten

def secondQueued : List SysAct :=
  [.control (.enter .kept), .control (.loadReturns (some true)), .control (.probeReturns .metadata),
    .control (.fileReady true), .control (.stateReady true), .pool (.wake 0 false), .pool (.openGate 0),
    .pool (.passGate 0), .pool (.get 0 false false), .begin 0 (pairAnswer [9, 10])] ++ chunkPut ++ endedWell

end Mrdl.System
