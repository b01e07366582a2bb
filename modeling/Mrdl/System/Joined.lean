import Mrdl.System.Completed
import Mrdl.Writer.Draining
import Mrdl.Hasher.Passing

/-! # Whether `_hasher.stop()` comes back

`start` waits there, without a limit and with the event loop standing still, for the hasher's thread, which
waits for chunks to come on disk. Nothing but the writer's thread can bring them there by then. A pool that
succeeded has handed over the mark of every chunk, unless the health tracker raised.
-/

namespace Mrdl.System
open FileBytes Downloader Workers Writer Hasher Runs
set_option autoImplicit false

/-- A step of the writer's or of the hasher's thread in which nothing raises. -/
def SysAct.ofThreads : SysAct → Prop
  | .writer _ => True
  | .hasher a => a ≠ .die
  | _ => False

/-! ## In the `finally` block -/

/-- The threads were started, and a run that did not succeed has set the thread event. -/
structure Stilled (c : Control) : Prop where
  started : c.pc = .running ∨ blocksLoop c.pc = true → c.writerStarted = true
  stopped : blocksLoop c.pc = true → c.success = false → c.ev.stopThread = true

theorem Stilled.elsewhere {c : Control} (hrunning : c.pc ≠ .running) (hblocks : blocksLoop c.pc = false) :
    Stilled c := by
  refine ⟨fun h => h.elim (absurd · hrunning) fun h => ?_, fun h => ?_⟩
  · rw [hblocks] at h
    cases h
  · rw [hblocks] at h
    cases h

theorem Stilled.leaves {c : Control} (hstarted : c.writerStarted = true) : Stilled c.leavePool := by
  refine ⟨fun _ => hstarted, fun _ hsuccess => ?_⟩
  change c.success = false at hsuccess
  simp only [Control.leavePool, hsuccess, Bool.false_eq_true, if_false]
  rfl

theorem Stilled.step {c d : Control} {a : Act} (h : Stilled c) (hs : controlStep c a = some d) : Stilled d := by
  have hraise : ∀ (b : Control) (x : Raised), Stilled (b.raise x) := fun b x => .elsewhere nofun rfl
  cases controlStep_moves hs with
  | goes b pc here =>
    have hfrom : c.pc.next = some pc → pc ≠ .running ∧ (blocksLoop pc = true → blocksLoop c.pc = true) := by
      intro hnext
      cases hpc : c.pc <;> rw [hpc] at hnext <;> cases hnext <;> exact ⟨nofun, by decide⟩
    obtain ⟨hrunning, hblocks⟩ := hfrom here
    exact ⟨fun hpc => h.started (Or.inr (hblocks (hpc.resolve_left hrunning))), fun hpc => h.stopped (hblocks hpc)⟩
  | starts => exact ⟨fun _ => rfl, fun hpc => by cases hpc⟩
  | poolReturned success error here => exact .leaves (h.started (Or.inl here))
  | poolLeft b x paused state here => exact .leaves (h.started (Or.inl here))
  | checks =>
    refine checkEnd_cases (P := Stilled) (fun text => .elsewhere nofun rfl) fun text => ?_
    exact transitionTo_cases (.elsewhere nofun rfl) fun x => hraise _ x
  | stays => exact h
  | called b ev state entered calm le => exact ⟨h.started, fun hpc hs => le.stopThread (h.stopped hpc hs)⟩
  | events b ev calm why =>
    refine ⟨h.started, fun hpc hsuccess => ?_⟩
    have hentered : c.pc ≠ .created := fun hc => by
      change blocksLoop c.pc = true at hpc
      rw [hc] at hpc
      cases hpc
    exact (controlStep_le hentered hs).stopThread (h.stopped hpc hsuccess)
  | writerFails => exact ⟨h.started, fun _ _ => rfl⟩
  | digest => exact ⟨h.started, h.stopped⟩
  | probesAtOnce | probes | prepares | probeFails | unverified | completes =>
    exact transitionTo_cases (.elsewhere nofun rfl) fun x => hraise _ x
  | raises | reraises => exact hraise _ _
  | begins dest pc here present => rcases present with rfl | rfl <;> exact .elsewhere nofun rfl
  | verifies | returns | verified => exact .elsewhere nofun rfl

theorem Stilled.init (S : Setup) : Stilled (Sys.init S).ctl := .elsewhere nofun rfl

/-! ## The marks of the chunks -/

/-- The mark of a fetch that returns was handed over or given up on, or is still to come. -/
structure Marked (S : Setup) (T : Traffic) : Prop where
  calls : ∀ w c n, (T.tasks w).call = some c → c.outcome = .returned n →
    .mark c.chunkIdx ∈ T.log ++ T.dropped ++ c.todo
  completed : ∀ i ∈ T.pool.completed, i ∈ S.resumed ∨ .mark i ∈ T.log ++ T.dropped

section
variable {S : Setup} {ev : Events} {T T' : Traffic}

theorem Marked.goOn {w : ℕ} {c d : Call} (h : Marked S T) (call : (T.tasks w).call = some c)
    (hidx : d.chunkIdx = c.chunkIdx) (hout : d.outcome = c.outcome) (hpool : T'.pool = T.pool)
    (htasks : T'.tasks = (T.setCall w (some d)).tasks)
    (hlog : ∀ cmd ∈ T.log ++ T.dropped, cmd ∈ T'.log ++ T'.dropped)
    (htodo : ∀ cmd ∈ c.todo, cmd ∈ T'.log ++ T'.dropped ++ d.todo) : Marked S T' := by
  refine ⟨fun v e n he hn => ?_, fun i hi => ?_⟩
  · rw [htasks] at he
    rcases setCall_some he with ⟨rfl, hsome⟩ | ⟨-, he⟩
    · cases hsome
      rw [hout] at hn
      rw [hidx]
      rcases List.mem_append.mp (h.calls v c n call hn) with hold | hnew
      · exact List.mem_append_left _ (hlog _ hold)
      · exact htodo _ hnew
    · rcases List.mem_append.mp (h.calls v e n he hn) with hold | hnew
      · exact List.mem_append_left _ (hlog _ hold)
      · exact List.mem_append_right _ hnew
  · rw [hpool] at hi
    exact (h.completed i hi).imp_right (hlog _)

/-- A worker that goes on without its fetch having returned completes nothing. -/
theorem Marked.settle {a : PoolAct} {w : ℕ} {ev' : Events} (h : Marked S T)
    (hpool : poolStep ev T.pool a = some (ev', T'.pool)) (kind : ∀ v, a ≠ .fetchReturned v)
    (hlog : T'.log = T.log) (hdropped : T'.dropped = T.dropped)
    (htasks : T'.tasks = (T.setCall w none).tasks) : Marked S T' := by
  refine ⟨fun v e n he hn => ?_, fun i hi => ?_⟩
  · rw [htasks] at he
    rw [hlog, hdropped]
    rcases setCall_some he with ⟨-, hnone⟩ | ⟨-, he⟩
    · cases hnone
    · exact h.calls v e n he hn
  · rw [hlog, hdropped]
    rcases poolStep_completed hpool with heq | ⟨v, item, t, ha, -⟩
    · rw [heq] at hi
      exact h.completed i hi
    · exact absurd ha (kind v)

theorem Marked.step {a : SysAct} (h : Marked S T) (hst : Staffed S T) (hs : Traffic.Step S ev T a T') :
    Marked S T' := by
  cases hs with
  | pool a ev' p hpool quiet =>
    refine ⟨h.calls, fun i hi => ?_⟩
    rcases poolStep_completed hpool with heq | ⟨w, item, t, rfl, -⟩
    · rw [heq] at hi
      exact h.completed i hi
    · exact absurd (quiet w) (by simp [PoolAct.settles])
  | returned w i n putting ev' p hpool call =>
    refine ⟨fun v e m he hm => ?_, fun j hj => ?_⟩
    · rcases setCall_some he with ⟨-, hnone⟩ | ⟨-, he⟩
      · cases hnone
      · exact h.calls v e m he hm
    · obtain ⟨item, t, hpc, hidx⟩ := hst.busy w _ call
      rcases poolStep_completed hpool with heq | ⟨v, item', t', hv, hpc', heq⟩
      · rw [heq] at hj
        exact h.completed j hj
      · cases hv
        rw [hpc] at hpc'
        cases hpc'
        rw [heq, hidx, Int.toNat_natCast] at hj
        rcases mem_record.mp hj with hold | rfl
        · exact h.completed j hold
        · have hmark := h.calls w _ n call rfl
          rw [List.append_nil] at hmark
          exact Or.inr hmark
  | failed w a c ev' p hpool settles only call outcome todo kind =>
    exact h.settle (w := w) hpool kind rfl rfl rfl
  | cancelled w ev' p hpool => exact h.settle (w := w) hpool (fun v hv => by cases hv) rfl rfl rfl
  | begin w item t att res hands free hfetch =>
    refine ⟨fun v c n hc hn => ?_, h.completed⟩
    rcases began_some hc with ⟨rfl, rfl⟩ | ⟨-, hc⟩
    · obtain ⟨r, ws, d, -, hd⟩ := Fetcher.fetch_delivered (hst.buffers v) hfetch hn
      refine List.mem_append_right _ ?_
      rw [hd.handed]
      exact List.mem_append_right _ (List.mem_append_right _ (List.mem_singleton.mpr rfl))
    · exact h.calls v c n hc hn
  | drop w i cmd rest outcome call stopped =>
    refine h.goOn (d := ⟨i, rest, false, outcome⟩) call rfl rfl rfl rfl (fun x hx => ?_) fun x hx => ?_
    · simp only [List.mem_append] at hx ⊢
      tauto
    · simp only [List.mem_append, List.mem_cons, List.not_mem_nil] at hx ⊢
      tauto
  | reach w i cmd rest outcome call running =>
    exact h.goOn (d := ⟨i, cmd :: rest, true, outcome⟩) call rfl rfl rfl rfl (fun _ => id)
      fun x hx => List.mem_append_right _ hx
  | put w i cmd rest outcome call =>
    refine h.goOn (d := ⟨i, rest, false, outcome⟩) call rfl rfl rfl rfl (fun x hx => ?_) fun x hx => ?_
    · simp only [List.mem_append] at hx ⊢
      tauto
    · simp only [List.mem_append, List.mem_cons, List.not_mem_nil] at hx ⊢
      tauto
  | refuse w i cmd rest outcome call =>
    exact h.goOn (d := ⟨i, cmd :: rest, false, outcome⟩) call rfl rfl rfl rfl (fun _ => id)
      fun x hx => List.mem_append_right _ hx
  | orphanPut k before after cmd orphans =>
    have hlog : ∀ x ∈ T.log ++ T.dropped, x ∈ T.log ++ [cmd] ++ T.dropped := by
      intro x hx
      simp only [List.mem_append] at hx ⊢
      tauto
    refine ⟨fun v c n hc hn => ?_, fun i hi => (h.completed i hi).imp_right (hlog _)⟩
    rcases List.mem_append.mp (h.calls v c n hc hn) with hold | htodo
    · exact List.mem_append_left _ (hlog _ hold)
    · exact List.mem_append_right _ htodo
  | orphanGone k before after cmd orphans => exact ⟨h.calls, h.completed⟩

theorem Marked.init (S : Setup) : Marked S (Sys.init S).traffic :=
  ⟨fun w c n hc => (by cases hc), fun i hi => Or.inl (List.mem_dedup.mp hi)⟩

end

section
variable {S : Setup} {s s' t : Sys} {job : HashJob}

/-! ## What the writer's thread has promised -/

theorem stopPut_ready (hs : sysStep S s .stopPut = some s') : s.ctl.pc = .stoppingWriter := by
  simp only [sysStep] at hs
  split at hs
  · rename_i h
    exact h.1
  · cases hs

theorem writer_ready {a : ThreadAct} (hs : sysStep S s (.writer a) = some s') : a ≠ .fail := by
  simp only [sysStep] at hs
  split at hs
  · rename_i h
    exact h.2
  · cases hs

theorem settleCall_aside (s : Sys) (a : PoolAct) :
    (s.settleCall a).dropped = s.dropped ∧ (s.settleCall a).stopPut = s.stopPut := by
  cases a with
  | fetchReturned w =>
    simp only [Sys.settleCall]
    split <;> exact ⟨rfl, rfl⟩
  | _ => exact ⟨rfl, rfl⟩

/-- As long as the thread event is not set nothing was given up on, the thread goes on until it comes to the
sentinel, and the sentinel stands behind the marks of all chunks. -/
structure Promised (S : Setup) (s : Sys) : Prop where
  sound : Sound S s
  stilled : Stilled s.ctl
  marked : Marked S s.traffic
  kept : Kept S.chunks s.ctl.ev s.pool
  finished : Finished S.chunks s.pool
  success : s.ctl.success = true → ∀ i ∈ S.chunks, i ∈ s.pool.completed
  dropped : s.ctl.ev.stopThread = false → s.dropped = []
  opens : s.ctl.ev.stopThread = false → s.stopPut = false → s.writer.Open
  promised : s.ctl.ev.stopThread = false → s.stopPut = true → ∀ i ∈ S.chunks, .mark i ∈ s.writer.settled

theorem Promised.marks_logged (h : Promised S s) (hsuccess : s.ctl.success = true)
    (hstop : s.ctl.ev.stopThread = false) : ∀ i ∈ S.chunks, .mark i ∈ s.writer.log := by
  intro i hi
  have hmark := (h.marked.completed i (h.success hsuccess i hi)).resolve_left (mem_chunks.mp hi).2
  change _ ∈ s.writer.log ++ s.dropped at hmark
  rw [h.dropped hstop, List.append_nil] at hmark
  exact hmark

/-- A pool that succeeded has the marks of all chunks settled. -/
theorem Promised.settled (h : Promised S s) (hsuccess : s.ctl.success = true)
    (hstop : s.ctl.ev.stopThread = false) : ∀ i ∈ S.chunks, .mark i ∈ s.writer.settled := by
  cases hput : s.stopPut with
  | false =>
    rw [(h.opens hstop hput).settled_eq]
    exact h.marks_logged hsuccess hstop
  | true => exact h.promised hstop hput

/-- What a step does to the promise of the writer's thread. -/
theorem Promised.writer_step {a : SysAct} (h : Promised S s) (hs : sysStep S s a = some s')
    (hstop : s.ctl.ev.stopThread = false) (hstop' : s'.ctl.ev.stopThread = false) :
    s'.dropped = [] ∧ (s'.stopPut = false → s.stopPut = false ∧ s'.writer.Open) ∧
      (∀ cmd ∈ s.writer.settled, cmd ∈ s'.writer.settled) ∧
      (s'.stopPut = true → s.stopPut = true ∨ (s.ctl.pc = .stoppingWriter ∧ s.writer.Open)) := by
  have hdropped := h.dropped hstop
  have hopen := h.opens hstop
  cases sysStep_moves hs with
  | pool b ev p started ready hpool =>
    have hrest := settleCall_rest s b
    have hsame := settleCall_aside s b
    dsimp only
    rw [hsame.1, hsame.2, hrest.1]
    exact ⟨hdropped, fun hp => ⟨hp, hopen hp⟩, fun _ => id, Or.inl⟩
  | drop w i cmd rest outcome call stopped =>
    rw [hstop] at stopped
    cases stopped
  | putDone w i cmd rest outcome writer call hput =>
    exact ⟨hdropped, fun hp => ⟨hp, (hopen hp).put hput⟩, fun _ hc => DiskWriter.put_settled hput hc, Or.inl⟩
  | orphanPut k cmd writer get hput =>
    exact ⟨hdropped, fun hp => ⟨hp, (hopen hp).put hput⟩, fun _ hc => DiskWriter.put_settled hput hc, Or.inl⟩
  | stopPut writer hput =>
    refine ⟨hdropped, fun hp => (by cases hp), fun _ hc => DiskWriter.put_settled hput hc, fun _ => ?_⟩
    cases hp : s.stopPut with
    | true => exact Or.inl rfl
    | false => exact Or.inr ⟨stopPut_ready hs, hopen hp⟩
  | writer b writer hstep =>
    have hb := writer_ready hs
    rw [hstop] at hstep
    refine ⟨hdropped, fun hp => ⟨hp, (hopen hp).step hb hstep⟩, fun _ hc => ?_, Or.inl⟩
    rw [DiskWriter.step_settled hb hstep]
    exact hc
  | writerFails e writer ctl hstep noticed =>
    have hstopped : ctl.ev.stopThread = true := by
      simp only [controlStep, Option.ite_none_right_eq_some, Option.some.injEq] at noticed
      obtain ⟨-, rfl⟩ := noticed
      rfl
    rw [hstop'] at hstopped
    cases hstopped
  | _ => exact ⟨hdropped, fun hp => ⟨hp, hopen hp⟩, fun _ => id, Or.inl⟩

theorem sysStep_stilled {a : SysAct} (hst : Stilled s.ctl) (hs : sysStep S s a = some s') :
    Stilled s'.ctl := by
  have hm := sysStep_control hs
  generalize s.ctl = c at hm hst
  generalize s'.ctl = d at hm
  cases hm with
  | own b d hb => exact hst.step hb
  | writerFails e d hb => exact hst.step hb
  | events a ev digest other le started =>
    exact ⟨hst.started, fun hpc hsuccess => le.stopThread (hst.stopped hpc hsuccess)⟩

theorem Promised.step {a : SysAct} (h : Promised S s) (hcalm : a.lossy = false)
    (hs : sysStep S s a = some s') : Promised S s' := by
  have hle := sysStep_le h.sound.ordered hs
  have hbefore : s'.ctl.ev.stopThread = false → s.ctl.ev.stopThread = false := by
    intro hstop'
    by_contra hne
    rw [hle.stopThread (Bool.eq_true_of_not_eq_false hne)] at hstop'
    cases hstop'
  have hadvance := sysStep_advance h.sound.ordered hs
  refine ⟨h.sound.step hs, sysStep_stilled h.stilled hs, ?_, ?_, ?_, fun hnow i hi => ?_,
    fun hstop' => (h.writer_step hs (hbefore hstop') hstop').1,
    fun hstop' hput => ((h.writer_step hs (hbefore hstop') hstop').2.1 hput).2, fun hstop' hput i hi => ?_⟩
  · rcases sysStep_traffic hs with heq | hstep
    · rw [heq]
      exact h.marked
    · exact h.marked.step h.sound.staffed hstep
  · rcases sysStep_pool hs with ⟨b, rfl, hpool⟩ | ⟨-, heq⟩
    · exact poolStep_kept h.sound.conserved h.kept hcalm hpool
    · rw [heq]
      exact h.kept.le hle
  · rcases sysStep_pool hs with ⟨b, -, hpool⟩ | ⟨-, heq⟩
    · exact poolStep_finished h.sound.conserved h.kept h.finished hpool
    · rw [heq]
      exact h.finished
  · rcases hadvance.1 hnow with hold | ⟨⟨error, rfl⟩, -⟩
    · exact completed_mono hs i (h.success hold i hi)
    · obtain ⟨hrun, hpool⟩ := poolReturns_ready hs
      rw [hpool]
      exact h.finished (by rw [hrun]; rfl) i hi
  · have hstop := hbefore hstop'
    obtain ⟨-, -, hmono, hput'⟩ := h.writer_step hs hstop hstop'
    refine hmono _ ?_
    rcases hput' hput with hold | ⟨hpc, hopen⟩
    · exact h.promised hstop hold i hi
    · have hsuccess : s.ctl.success = true := by
        by_contra hne
        have hset := h.stilled.stopped (by rw [hpc]; rfl) (Bool.eq_false_iff.mpr hne)
        rw [hstop] at hset
        cases hset
      rw [hopen.settled_eq]
      exact h.marks_logged hsuccess hstop i hi

theorem Promised.init (S : Setup) : Promised S (Sys.init S) := by
  refine ⟨Sound.init S, Stilled.init S, Marked.init S, ?_, fun h => (by cases h), fun h => (by cases h),
    fun _ => rfl, fun _ _ => ⟨nofun, nofun, List.not_mem_nil⟩, fun _ h => (by cases h)⟩
  refine init_kept _ _ _ (chunks_nodup S) fun i hi hmem => ?_
  exact (mem_chunks.mp hi).2 (List.mem_dedup.mp hmem)

/-! ## The threads by themselves -/

/-- What is left of the run is up to the two threads. -/
structure Joining (s : Sys) : Prop where
  here : s.ctl.pc = .stoppingHasher
  started : s.ctl.writerStarted = true

theorem Joining.of_stilled (h : Stilled s.ctl) (hpc : s.ctl.pc = .stoppingHasher) : Joining s :=
  ⟨hpc, h.started (Or.inr (by rw [hpc]; rfl))⟩

theorem ofThreads_joining {a : SysAct} (h : Joining s) (ha : a.ofThreads) (hs : sysStep S s a = some s') :
    Joining s' ∧ s'.ctl.ev = s.ctl.ev := by
  cases a with
  | writer | hasher =>
    cases sysStep_moves hs
    exact ⟨⟨h.here, h.started⟩, rfl⟩
  | _ => exact absurd ha id

/-- What the writer's thread can do by itself the run can do. -/
theorem writer_leads (S : Setup) {w : DiskWriter} (hstarted : s.ctl.writerStarted = true)
    (hfd : fdOpen s.ctl.pc = true) (hstop : s.ctl.ev.stopThread = false)
    (hw : Leads (fun w a => w.step false true a) (fun _ a => a ≠ .fail) s.writer w) :
    Leads (sysStep S) (fun _ a => a.ofThreads) s { s with writer := w } := by
  obtain ⟨t, ht, rfl⟩ := hw.simulates (sysStep S) (K := fun _ a => a.ofThreads)
    (R := fun w t => t = { s with writer := w }) (s := s) rfl
    (fun w a v u hR ha hs => by
      subst hR
      refine ⟨{ s with writer := v }, .single (a := .writer a) trivial ?_, rfl⟩
      simp only [sysStep, hstarted, ha, ne_eq, not_false_eq_true, and_self, if_true, hstop, hfd, hs,
        Option.map_some])
  exact ht

/-- The writer's thread carries out what is settled. -/
theorem writer_drains (S : Setup) (hstarted : s.ctl.writerStarted = true) (hfd : fdOpen s.ctl.pc = true)
    (hstop : s.ctl.ev.stopThread = false) :
    ∃ w, Leads (sysStep S) (fun _ a => a.ofThreads) s { s with writer := w } ∧ w.due = [] ∧
      w.executed = s.writer.settled := by
  obtain ⟨w, hw, hdue, hexec⟩ := s.writer.drains
  exact ⟨w, writer_leads S hstarted hfd hstop hw, hdue, hexec⟩

/-- The hasher's thread ends when nothing keeps it waiting. -/
theorem hasher_ends (hjob : S.job = some job) (h : Joining s)
    (hgo : s.ctl.ev.stopThread = true ∨ ∀ i < job.totalChunks, s.writer.isOnDisk i = true) :
    ∃ t, Leads (sysStep S) (fun _ a => a.ofThreads) s t ∧ t.hasher.pc = .dead := by
  obtain ⟨h', hleads, hdead⟩ := s.hasher.passes s.writer.file hgo
  obtain ⟨t, ht, hhasher, -⟩ := hleads.simulates (sysStep S) (K := fun _ a => a.ofThreads)
    (R := fun x t => t.hasher = x ∧ Joining t ∧ t.ctl.ev = s.ctl.ev ∧ t.writer = s.writer) (s := s)
    ⟨rfl, h, rfl, rfl⟩
    (fun x a y u hR ha hs => by
      obtain ⟨rfl, hu, hev, hwriter⟩ := hR
      refine ⟨{ u with hasher := y, ctl := { u.ctl with computedHash := y.computedHash } },
        .single (a := .hasher a) ha ?_, rfl, ⟨hu.here, hu.started⟩, hev, hwriter⟩
      simp only [sysStep, hjob, hu.started, if_true, hev, hwriter, hs, Option.map_some])
  refine ⟨t, ht, ?_⟩
  rw [hhasher]
  exact hdead

theorem sound_of_threads (h : Sound S s) (hleads : Leads (sysStep S) (fun _ a => a.ofThreads) s t) : Sound S t :=
  hleads.keeps h fun _ _ _ hp _ hs => hp.step hs

/-- With the mark of every chunk settled the two threads come to their end. -/
theorem threads_end (hjob : S.job = some job) (hsound : Sound S s) (h : Joining s)
    (hmarks : ∀ i < S.totalChunks, i ∈ S.resumed ∨ .mark i ∈ s.writer.settled) :
    ∃ t, Leads (sysStep S) (fun _ a => a.ofThreads) s t ∧ t.hasher.pc = .dead := by
  by_cases hstop : s.ctl.ev.stopThread = true
  · exact hasher_ends hjob h (Or.inl hstop)
  have hfd : fdOpen s.ctl.pc = true := by
    rw [h.here]
    rfl
  obtain ⟨w, ht, -, hexec⟩ := writer_drains S h.started hfd (Bool.eq_false_iff.mpr hstop)
  have hdisk : ∀ i < job.totalChunks, w.isOnDisk i = true := by
    intro i hi
    have hi' : i < S.totalChunks := by
      obtain ⟨_, -, rfl⟩ := Option.map_eq_some_iff.mp hjob
      exact hi
    refine decide_eq_true (((sound_of_threads hsound ht).performed.marks i).mpr ((hmarks i hi').imp_right ?_))
    rw [hexec]
    exact id
  obtain ⟨u, hu, hdead⟩ := hasher_ends hjob (s := { s with writer := w }) ⟨h.here, h.started⟩ (Or.inr hdisk)
  exact ⟨u, ht.trans hu, hdead⟩

/-- Without the mark of chunk `i` the hasher's thread does not get past it. -/
structure Waits (S : Setup) (job : HashJob) (i : ℕ) (s : Sys) : Prop where
  sound : Sound S s
  joining : Joining s
  running : s.ctl.ev.stopThread = false
  fresh : i ∉ S.resumed
  unmarked : .mark i ∉ s.writer.settled
  before : s.hasher.Before job i

theorem Waits.absent {i : ℕ} (h : Waits S job i s) : s.writer.isOnDisk i = false := by
  refine decide_eq_false fun hmem => ?_
  rcases (h.sound.performed.marks i).mp hmem with hres | hmark
  · exact h.fresh hres
  · exact h.unmarked (List.mem_append_left _ hmark)

theorem Waits.step {i : ℕ} {a : SysAct} (hjob : S.job = some job) (h : Waits S job i s) (ha : a.ofThreads)
    (hs : sysStep S s a = some s') : Waits S job i s' := by
  obtain ⟨hjoining, hev⟩ := ofThreads_joining h.joining ha hs
  have hrunning : s'.ctl.ev.stopThread = false := by
    rw [hev]
    exact h.running
  have hsound := h.sound.step hs
  cases a with
  | writer b =>
    have hb := writer_ready hs
    refine ⟨hsound, hjoining, hrunning, h.fresh, ?_, ?_⟩
    · cases sysStep_moves hs with
      | writer b writer hstep =>
        rw [h.running] at hstep
        rw [DiskWriter.step_settled hb hstep]
        exact h.unmarked
    · cases sysStep_moves hs
      exact h.before
  | hasher b =>
    refine ⟨hsound, hjoining, hrunning, h.fresh, ?_, ?_⟩
    · cases sysStep_moves hs
      exact h.unmarked
    · cases sysStep_moves hs with
      | hasher b job' hasher hjob' hstep =>
        rw [hjob] at hjob'
        cases hjob'
        rw [h.running] at hstep
        exact h.before.step h.absent ha hstep
  | _ => exact absurd ha id

theorem Waits.of_checked {i : ℕ} (hjob : S.job = some job) (h : Checked S job s) (hjoining : Joining s)
    (hstop : s.ctl.ev.stopThread = false) (hawake : s.hasher.pc ≠ .dead) (hi : i < S.totalChunks)
    (hfresh : i ∉ S.resumed) (hmark : .mark i ∉ s.writer.settled) : Waits S job i s := by
  have hfed := h.fed (Or.inr ⟨hstop, hawake⟩)
  have habsent : s.writer.isOnDisk i ≠ true := fun hdisk =>
    (((h.sound.performed.marks i).mp (of_decide_eq_true hdisk)).elim hfresh) fun hmem =>
      hmark (List.mem_append_left _ hmem)
  have hchunk : i < job.totalChunks := by
    obtain ⟨_, -, rfl⟩ := Option.map_eq_some_iff.mp hjob
    exact hi
  have hbehind : s.hasher.currentChunk ≤ i := by
    by_contra hlt
    exact habsent (hfed.passed i (Nat.lt_of_not_le hlt))
  refine ⟨h.sound, hjoining, hstop, hfresh, hmark, hchunk, hbehind, fun k hk => ?_, fun hclosing => ?_, hawake⟩
  · refine lt_of_le_of_ne hbehind fun heq => habsent ?_
    rw [← heq]
    rcases hk with hk | hk
    · exact (hfed.hashing k hk).2.1
    · exact (hfed.reading k hk).2.1
  · have := hfed.closing hclosing
    omega

theorem Waits.forever {i : ℕ} (hjob : S.job = some job) (h : Waits S job i s) :
    ¬ ∃ t, Leads (sysStep S) (fun _ a => a.ofThreads) s t ∧ t.hasher.pc = .dead := by
  rintro ⟨t, ht, hdead⟩
  exact (ht.keeps h fun _ _ _ h ha hs => h.step hjob ha hs).before.awake.2 hdead

/-! ## Whether `stop` returns -/

/-- In a run whose health tracker never raises, `start` always comes out of `_hasher.stop()`: the two threads
get there by themselves. -/
theorem hasher_stop_returns {as : List SysAct} (hcalm : ∀ a ∈ as, a.lossy = false)
    (hrun : exec (sysStep S) (Sys.init S) as = some s) (hpc : s.ctl.pc = .stoppingHasher) :
    ∃ t, Leads (sysStep S) (fun _ a => a.ofThreads) s t ∧ t.controlReady S .hasherStopped = true := by
  have h := exec_guarded (P := Promised S) (fun _ _ _ h hg hs => h.step hg hs) (Promised.init S)
    (Guarded.of_mem (fun _ => hcalm) _) hrun
  have hjoining := Joining.of_stilled h.stilled hpc
  cases hhash : S.hash with
  | none => exact ⟨s, .refl s, by rw [Sys.controlReady, hhash]; rfl⟩
  | some x =>
    obtain ⟨job, hjob⟩ : ∃ job, S.job = some job := by
      rw [Setup.job, hhash]
      exact ⟨_, rfl⟩
    have hend : ∃ t, Leads (sysStep S) (fun _ a => a.ofThreads) s t ∧ t.hasher.pc = .dead := by
      by_cases hstop : s.ctl.ev.stopThread = true
      · exact hasher_ends hjob hjoining (Or.inl hstop)
      · have hrunning := Bool.eq_false_iff.mpr hstop
        have hsuccess : s.ctl.success = true := by
          by_contra hne
          exact hstop (h.stilled.stopped (by rw [hpc]; rfl) (Bool.eq_false_iff.mpr hne))
        refine threads_end hjob h.sound hjoining fun i hi => or_iff_not_imp_left.mpr fun hfresh => ?_
        exact h.settled hsuccess hrunning i (mem_chunks.mpr ⟨hi, hfresh⟩)
    obtain ⟨t, ht, hdead⟩ := hend
    refine ⟨t, ht, ?_⟩
    rw [Sys.controlReady, hdead]
    exact Bool.or_true _

/-- In any run, `start` comes out of `_hasher.stop()` by the work of the two threads exactly when the thread
event is set, or every chunk is on disk or about to be. -/
theorem hasher_stop_returns_iff {as : List SysAct} (hsize : 0 < S.metadata.totalSize)
    (hchunk : 0 < S.cfg.chunkSize) (hhash : S.hash.isSome = true)
    (hrun : exec (sysStep S) (Sys.init S) as = some s) (hpc : s.ctl.pc = .stoppingHasher)
    (hawake : s.hasher.pc ≠ .dead) :
    (∃ t, Leads (sysStep S) (fun _ a => a.ofThreads) s t ∧ t.controlReady S .hasherStopped = true) ↔
      s.ctl.ev.stopThread = true ∨ ∀ i < S.totalChunks, i ∈ S.resumed ∨ .mark i ∈ s.writer.settled := by
  obtain ⟨job, hjob⟩ : ∃ job, S.job = some job := by
    obtain ⟨x, hx⟩ := Option.isSome_iff_exists.mp hhash
    rw [Setup.job, hx]
    exact ⟨_, rfl⟩
  obtain ⟨hchecked, hstilled⟩ := exec_invariant (P := fun s => Checked S job s ∧ Stilled s.ctl)
    (fun _ _ _ h hs => ⟨h.1.step hsize hchunk hjob hs, sysStep_stilled h.2 hs⟩)
    ⟨.init hjob, Stilled.init S⟩ hrun
  have hjoining := Joining.of_stilled hstilled hpc
  have hready : ∀ t : Sys, t.controlReady S .hasherStopped = true ↔ t.hasher.pc = .dead := by
    intro t
    rw [Sys.controlReady, Option.isNone_eq_false_iff.mpr hhash, Bool.false_or, decide_eq_true_iff]
  simp only [hready]
  constructor
  · rintro ⟨t, ht, hdead⟩
    by_contra hno
    simp only [not_or, not_forall, Bool.not_eq_true] at hno
    obtain ⟨hstop, i, hi, hfresh, hmark⟩ := hno
    have hwaits := Waits.of_checked hjob hchecked hjoining hstop hawake hi hfresh hmark
    exact hwaits.forever hjob ⟨t, ht, hdead⟩
  · rintro (hstop | hmarks)
    · exact hasher_ends hjob hjoining (Or.inl hstop)
    · exact threads_end hjob hchecked.sound hjoining hmarks

end

/-- The pool succeeded, and its command is still on its way to the disk. -/
def unwritten : List SysAct :=
  chunkFetched ++ [.pool .joinReturns, .pool (.runWakes true), .pool .runEnds,
    .control (.poolReturns true none), .stopPut, .control .writerStopped]

theorem hasher_stop_returns_twoBytes : ∃ s t, exec (sysStep twoBytesHashed) (Sys.init twoBytesHashed) unwritten =
      some s ∧ s.writer.executed = [] ∧ Leads (sysStep twoBytesHashed) (fun _ a => a.ofThreads) s t ∧
        t.controlReady twoBytesHashed .hasherStopped = true := by
  obtain ⟨s, hrun, hpc, hexecuted⟩ : ∃ s, exec (sysStep twoBytesHashed) (Sys.init twoBytesHashed) unwritten =
      some s ∧ s.ctl.pc = .stoppingHasher ∧ s.writer.executed = [] :=
    ⟨(exec (sysStep twoBytesHashed) (Sys.init twoBytesHashed) unwritten).get (by decide +kernel),
      (Option.some_get _).symm, by decide +kernel, by decide +kernel⟩
  obtain ⟨t, ht, hready⟩ := hasher_stop_returns (by decide) hrun hpc
  exact ⟨s, t, hrun, hexecuted, ht, hready⟩

theorem hasher_stop_returns_iff_twoBytes : ∃ s t,
    exec (sysStep twoBytesHashed) (Sys.init twoBytesHashed) unwritten = some s ∧
      Leads (sysStep twoBytesHashed) (fun _ a => a.ofThreads) s t ∧
        t.controlReady twoBytesHashed .hasherStopped = true := by
  obtain ⟨s, hrun, hpc, hawake, hmark⟩ :
      ∃ s, exec (sysStep twoBytesHashed) (Sys.init twoBytesHashed) unwritten = some s ∧
        s.ctl.pc = .stoppingHasher ∧ s.hasher.pc ≠ .dead ∧ .mark 0 ∈ s.writer.settled :=
    ⟨(exec (sysStep twoBytesHashed) (Sys.init twoBytesHashed) unwritten).get (by decide +kernel),
      (Option.some_get _).symm, by decide +kernel, by decide +kernel, by decide +kernel⟩
  obtain ⟨t, ht, hready⟩ := (hasher_stop_returns_iff (by decide) (by decide) rfl hrun hpc hawake).mpr
    (Or.inr fun i hi => Or.inr (by
      rw [show i = 0 from Nat.lt_one_iff.mp hi]
      exact hmark))
  exact ⟨s, t, hrun, ht, hready⟩

/-- The only chunk is lost to a health tracker that raises, which the pool takes for a success. -/
def chunkLost : List SysAct :=
  [.control (.enter .missing), .control (.probeReturns .metadata), .control (.fileReady true),
    .control (.stateReady true), .pool (.wake 0 false), .pool (.openGate 0), .pool (.passGate 0),
    .pool (.get 0 false false), .begin 0 { reply := .answer { status := 503, pieces := [] } },
    .pool (.fetchFailed 0 "FetchError" "" true), .pool .joinReturns, .pool (.runWakes true), .pool .runEnds,
    .control (.poolReturns true none), .stopPut, .control .writerStopped]

/-- `start` hangs: whatever the two threads do, the hasher's does not end. -/
theorem lost_chunk_hangs : ∃ s, exec (sysStep twoBytesHashed) (Sys.init twoBytesHashed) chunkLost = some s ∧
    ¬ ∃ t, Leads (sysStep twoBytesHashed) (fun _ a => a.ofThreads) s t ∧
      t.controlReady twoBytesHashed .hasherStopped = true := by
  obtain ⟨s, hrun, hpc, hstarted, hstop, hpcHasher, hchunk, hmark⟩ :
      ∃ s, exec (sysStep twoBytesHashed) (Sys.init twoBytesHashed) chunkLost = some s ∧
        s.ctl.pc = .stoppingHasher ∧ s.ctl.writerStarted = true ∧ s.ctl.ev.stopThread = false ∧
        s.hasher.pc = .looking ∧ s.hasher.currentChunk = 0 ∧ .mark 0 ∉ s.writer.settled :=
    ⟨(exec (sysStep twoBytesHashed) (Sys.init twoBytesHashed) chunkLost).get (by decide +kernel),
      (Option.some_get _).symm, by decide +kernel, by decide +kernel, by decide +kernel, by decide +kernel,
      by decide +kernel, by decide +kernel⟩
  have hwaits : Waits twoBytesHashed ⟨2, 2, 1, ⟨"plain", some "0708"⟩, plainDigest⟩ 0 s := by
    have hsound : Sound twoBytesHashed s :=
      exec_invariant (fun _ _ _ h hs => Sound.step h hs) (Sound.init twoBytesHashed) hrun
    refine ⟨hsound, ⟨hpc, hstarted⟩, hstop, List.not_mem_nil, hmark, Nat.one_pos, by omega, ?_, ?_⟩
    · rw [hpcHasher]
      rintro k (hk | hk) <;> cases hk
    · rw [hpcHasher]
      exact ⟨nofun, nofun⟩
  refine ⟨s, hrun, fun ⟨t, ht, hready⟩ => hwaits.forever rfl ⟨t, ht, ?_⟩⟩
  exact of_decide_eq_true hready

end Mrdl.System
