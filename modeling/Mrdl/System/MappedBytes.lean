import Mrdl.System.Mapped
import Mrdl.System.Checksum

/-! # The bytes of a run with the mapped writer

What a fetch has issued is in the file. So a chunk counts as completed only when its bytes are there, and
they stay: every other command is one of another chunk. Nothing is asked of the schedule for this, neither
of the moment of a save nor of the end of the run, where the queue of `DiskWriter` asks for both.
-/

namespace Mrdl.System
open FileBytes Downloader Workers Writer Hasher Runs
set_option autoImplicit false

/-- The file has the content's bytes in chunk `i`. -/
def Holds (S : Setup) (content file : Bytes) (i : ℕ) : Prop :=
  ∀ b < S.size, b / S.cfg.chunkSize = i → file[b]? = content[b]?

namespace MapSys

/-- The fetches of the workers. -/
def traffic (s : MapSys) : Traffic := ⟨s.pool, s.tasks, [], [], [], []⟩

/-- A fetch that will return received the bytes of its range. -/
def ReceivesRight (S : Setup) (content : Bytes) (s : MapSys) : MapAct → Prop
  | .begin w att => System.ReceivesRight S content s.traffic (.begin w att)
  | _ => True

/-- The health tracker does not raise. -/
def Calm : MapAct → Prop
  | .pool a => a.lossy = false
  | _ => True

end MapSys

structure Mapped (S : Setup) (content : Bytes) (s : MapSys) : Prop where
  untouched : Untouched s.ctl
  accounted : Accounted s.ctl
  conserved : Conserved S.chunks s.ctl.ev s.pool
  staffed : Staffed S s.traffic
  length : S.size ≤ s.writer.file.length
  todo : ∀ w c, (s.tasks w).call = some c → ∀ cmd ∈ c.todo, Owned S c.chunkIdx cmd
  calls : ∀ w c n, (s.tasks w).call = some c → c.outcome = .returned n →
    Holds S content (writeAll s.writer.file (writesOf c.todo)) c.chunkIdx
  completed : ∀ i ∈ s.pool.completed, Holds S content s.writer.file i
  resumed : ∀ i ∈ S.resumed, i ∈ s.pool.completed
  copied : ∀ completed, s.saverCopy = some completed → ∀ i ∈ completed, i ∈ s.pool.completed
  saves : ∀ saved ∈ s.saves, ∀ i ∈ saved, i ∈ s.pool.completed

section
variable {S : Setup} {content : Bytes} {s s' : MapSys} {a : MapAct}

/-! ## What a command changes -/

/-- A command of chunk `i` leaves the other chunks as they are, whatever is written after it. -/
theorem holds_after {file data : Bytes} {ws : List (Write UInt8)} {i j offset : ℕ}
    (hlen : S.size ≤ file.length) (hown : Owned S i (.write offset data)) (hne : j ≠ i)
    (h : Holds S content (writeAll file ws) j) : Holds S content (writeAll (writeAt file offset data) ws) j := by
  intro b hb hj
  rw [← h b hb hj, writeAll_getElem? ((hb.trans_le hlen).trans_le (le_writeAt_length ..)),
    writeAll_getElem? (hb.trans_le hlen)]
  congr 1
  refine writeAt_getElem?_outside (hb.trans_le hlen) fun hcov => hne ?_
  exact hown.chunk_eq ⟨b, hj, hcov⟩

/-- A call of the mapped writer does to the file what its command says. -/
theorem call_file {writer : MmapDiskWriter} {cmd : Command} {i : ℕ} (hown : Owned S i cmd)
    (h : s.writer.call cmd = some writer) :
    (∃ offset data, cmd = .write offset data ∧ writer.file = writeAt s.writer.file offset data) ∨
      (writesOf [cmd] = [] ∧ writer.file = s.writer.file) := by
  cases cmd with
  | write offset data =>
    left
    refine ⟨offset, data, rfl, ?_⟩
    simp only [MmapDiskWriter.call, MmapDiskWriter.write, Option.ite_none_right_eq_some,
      Option.some.injEq] at h
    obtain ⟨⟨-, hlen⟩, rfl⟩ := h
    by_cases hdata : data = []
    · rw [hdata, writeAt_nil, writeAt_nil]
    · -- the slice has the length of the data, so it was not cut
      have hpos := List.length_pos_iff.mpr hdata
      have hmin : min offset s.writer.totalSize = offset := by omega
      simp only [hmin]
  | mark j =>
    right
    cases h
    exact ⟨rfl, rfl⟩
  | truncate n => exact absurd hown id

/-! ## The steps -/

theorem settle_call {a : PoolAct} {w : ℕ} {c : Call} (h : (s.settle a w).call = some c) :
    a.settles w = false ∧ (s.tasks w).call = some c := by
  unfold MapSys.settle at h
  cases ha : a.settles w with
  | true =>
    rw [ha, if_pos rfl] at h
    cases h
  | false =>
    rw [ha, if_neg Bool.false_ne_true] at h
    exact ⟨rfl, h⟩

theorem settle_fetcher (s : MapSys) (a : PoolAct) (w : ℕ) : (s.settle a w).fetcher = (s.tasks w).fetcher := by
  unfold MapSys.settle
  split <;> rfl

/-- What `start` does in a step, and that the stop events stay set. -/
theorem mapStep_control (h : Mapped S content s) (hs : mapStep S s a = some s') :
    Untouched s'.ctl ∧ Accounted s'.ctl ∧ s.ctl.ev.Le s'.ctl.ev := by
  cases mapStep_moves hs with
  | control b ctl writer ready hb =>
    exact ⟨advance_untouched h.untouched h.accounted hb, (controlStep_advance h.accounted hb).accounted,
      control_le h.untouched hb⟩
  | stopRaises here =>
    refine ⟨nofun, ⟨nofun, nofun, fun hcl => ?_, h.accounted.state, nofun⟩, Events.Le.refl _⟩
    exact ⟨(h.accounted.cleared hcl).1, Or.inr rfl⟩
  | pool b ev p started ready hb =>
    refine ⟨fun hpc => ?_, ⟨h.accounted.verifying, h.accounted.clearing, h.accounted.cleared,
      h.accounted.state, h.accounted.outcome⟩, (poolStep_onward hb).le⟩
    have hno := (h.untouched hpc).2
    rw [started] at hno
    cases hno
  | _ => exact ⟨h.untouched, h.accounted, Events.Le.refl _⟩

/-- A step of the pool: a fetch that returned has issued all its commands. -/
theorem Mapped.pooled {b : PoolAct} {ev : Events} {p : WorkerPool} (h : Mapped S content s)
    (ready : s.poolReady b = true) (hb : poolStep s.ctl.ev s.pool b = some (ev, p))
    (hs : mapStep S s (.pool b) = some { s with tasks := s.settle b, ctl := { s.ctl with ev := ev }, pool := p }) :
    Mapped S content { s with tasks := s.settle b, ctl := { s.ctl with ev := ev }, pool := p } := by
  obtain ⟨huntouched, haccounted, -⟩ := mapStep_control h hs
  have hmono : ∀ i ∈ s.pool.completed, i ∈ p.completed := fun i => poolStep_completed_mono hb
  refine ⟨huntouched, haccounted, poolStep_conserved h.conserved hb, ⟨?_, ?_, ?_⟩, h.length, ?_, ?_, ?_,
    fun i hi => hmono i (h.resumed i hi), fun done hdone i hi => hmono i (h.copied done hdone i hi),
    fun saved hsaved i hi => hmono i (h.saves saved hsaved i hi)⟩
  · intro w
    exact (congrArg (fun f => f.buffer.length) (settle_fetcher s b w)).trans (h.staffed.buffers w)
  · intro hsize w
    exact (congrArg (fun f => f.metadata) (settle_fetcher s b w)).trans (h.staffed.metadata hsize w)
  · intro w c hc
    obtain ⟨hkeeps, hc⟩ := settle_call hc
    obtain ⟨item, t, hpc, hidx⟩ := h.staffed.busy w c hc
    exact ⟨item, t, (poolStep_handling hb).keeps w item t hpc hkeeps, hidx⟩
  · intro w c hc
    exact h.todo w c (settle_call hc).2
  · intro w c n hc
    exact h.calls w c n (settle_call hc).2
  · intro i hi
    rcases poolStep_completed hb with heq | ⟨w, item, t, rfl, hpc, heq⟩
    · exact h.completed i (heq ▸ hi)
    · rw [show p.completed = _ from heq] at hi
      rcases mem_record.mp hi with hold | rfl
      · exact h.completed i hold
      · simp only [MapSys.poolReady, fetchesReady] at ready
        split at ready
        · rename_i j putting n hcall
          obtain ⟨item', t', hpc', hidx⟩ := h.staffed.busy w _ hcall
          have hpc'' : s.pool.pcOf w = some (.fetching item' t') := hpc'
          rw [hpc] at hpc''
          cases hpc''
          rw [hidx, Int.toNat_natCast]
          exact h.calls w _ n hcall rfl
        · cases ready

theorem Mapped.begun {w : ℕ} {item : QueueItem} {t : ℚ} {att : Fetcher.Attempt} {res : Fetcher.FetchResult}
    (hsize : 0 < S.metadata.totalSize) (hchunk : 0 < S.cfg.chunkSize) (hcontent : content.length = S.size)
    (h : Mapped S content s) (hreceived : s.ReceivesRight S content (.begin w att))
    (hands : s.pool.pcOf w = some (.fetching item t)) (free : (s.tasks w).call = none)
    (hfetch : Fetcher.fetch S.cfg (s.tasks w).fetcher item.chunkIdx.toNat att = some res) :
    Mapped S content
      { s with
        tasks := Function.update s.tasks w
          ⟨res.fetcher, some
            { chunkIdx := item.chunkIdx.toNat
              todo := Fetcher.commands res.effects
              outcome := res.outcome }⟩ } := by
  have hi := (mem_chunks.mp (chunkIdx_of_hands (T := s.traffic) h.conserved hands).1).1
  have hbuf := h.staffed.buffers w
  have hmeta := h.staffed.metadata hsize w
  have hstep : Traffic.Step S s.ctl.ev s.traffic (.begin w att) _ := .begin w item t att res hands free hfetch
  refine ⟨h.untouched, h.accounted, h.conserved, h.staffed.step h.conserved hstep, h.length,
    fun v c hc => ?_, fun v c n hc hn => ?_, h.completed, h.resumed, h.copied, h.saves⟩
  · rcases began_some (T := s.traffic) hc with ⟨rfl, rfl⟩ | ⟨-, hc⟩
    · exact (fetch_owned hsize hi hbuf hmeta hfetch).1
    · exact h.todo v c hc
  · rcases began_some (T := s.traffic) hc with ⟨rfl, rfl⟩ | ⟨-, hc⟩
    · have hright : (received att).take n =
          (content.drop (item.chunkIdx.toNat * S.cfg.chunkSize)).take n := by
        have hres : res = ⟨res.effects, .returned n, res.fetcher⟩ := by
          rw [← hn]
        have hands' : s.traffic.pool.pcOf v = some (.fetching item t) := hands
        have hfetch' : Fetcher.fetch S.cfg (s.traffic.tasks v).fetcher item.chunkIdx.toNat att = some res := hfetch
        simp only [MapSys.ReceivesRight, ReceivesRight, hands', hfetch'] at hreceived
        rw [hres] at hreceived
        exact hreceived
      intro b hb hj
      have hagree := fetch_agrees hsize hchunk hbuf hmeta hfetch hn hcontent hright [] b hb hj
      rw [List.nil_append] at hagree
      rw [writeAll_getElem? (hb.trans_le h.length), hagree, List.getElem?_eq_getElem (by omega),
        Option.some_or]
    · exact h.calls v c n hc hn

theorem Mapped.carriedOut {w i : ℕ} {cmd : Command} {rest : List Command} {putting : Bool}
    {outcome : Fetcher.Outcome} {writer : MmapDiskWriter} (h : Mapped S content s)
    (call : (s.tasks w).call = some ⟨i, cmd :: rest, putting, outcome⟩)
    (hcall : s.writer.call cmd = some writer) :
    Mapped S content { s.setCall w (some ⟨i, rest, putting, outcome⟩) with writer := writer } := by
  have hown : Owned S i cmd := h.todo w _ call cmd (List.mem_cons_self ..)
  obtain ⟨item, t, hpc, hidx⟩ := h.staffed.busy w _ call
  have hfree : i ∉ s.pool.completed := not_completed_of_hands (T := s.traffic) h.conserved hpc hidx
  have hgo : Staffed S (s.traffic.setCall w (some ⟨i, rest, putting, outcome⟩)) :=
    h.staffed.goOn (d := ⟨i, rest, putting, outcome⟩) call rfl rfl rfl
  -- the bytes of the other chunks, and the rest of this fetch
  have hother : ∀ j ws, j ≠ i → Holds S content (writeAll s.writer.file ws) j →
      Holds S content (writeAll writer.file ws) j := by
    intro j ws hne hj
    rcases call_file hown hcall with ⟨offset, data, rfl, hfile⟩ | ⟨-, hfile⟩
    · rw [hfile]
      exact holds_after h.length hown hne hj
    · rwa [hfile]
  have hrest : writeAll writer.file (writesOf rest) = writeAll s.writer.file (writesOf (cmd :: rest)) := by
    rcases call_file hown hcall with ⟨offset, data, rfl, hfile⟩ | ⟨hnone, hfile⟩
    · rw [hfile]
      rfl
    · rw [hfile, ← List.singleton_append, writesOf_append, hnone, List.nil_append]
  refine ⟨h.untouched, h.accounted, h.conserved, hgo, ?_, fun v c hc => ?_, fun v c n hc hn => ?_,
    fun j hj => ?_, h.resumed, h.copied, h.saves⟩
  · rcases call_file hown hcall with ⟨offset, data, -, hfile⟩ | ⟨-, hfile⟩
    · exact hfile ▸ h.length.trans (le_writeAt_length ..)
    · exact hfile ▸ h.length
  · rcases setCall_some (T := s.traffic) hc with ⟨-, hsome⟩ | ⟨-, hc⟩
    · cases hsome
      exact fun x hx => h.todo w _ call x (List.mem_cons_of_mem _ hx)
    · exact h.todo v c hc
  · rcases setCall_some (T := s.traffic) hc with ⟨-, hsome⟩ | ⟨hv, hc⟩
    · cases hsome
      have hwhole := h.calls w _ n call hn
      rw [← hrest] at hwhole
      exact hwhole
    · refine hother c.chunkIdx _ (fun heq => hv ?_) (h.calls v c n hc hn)
      obtain ⟨item', t', hpc', hidx'⟩ := h.staffed.busy v c hc
      exact h.conserved.one_worker hpc' hpc (heq ▸ hidx') hidx
  · exact hother j [] (fun heq => hfree (heq ▸ hj)) (h.completed j hj)

theorem Mapped.raised {w i : ℕ} {cmd : Command} {rest : List Command} {putting : Bool}
    {outcome : Fetcher.Outcome} (e : FetchFailure) (h : Mapped S content s)
    (call : (s.tasks w).call = some ⟨i, cmd :: rest, putting, outcome⟩) :
    Mapped S content (s.setCall w (some ⟨i, [], putting, .fetchError e⟩)) := by
  refine ⟨h.untouched, h.accounted, h.conserved,
    h.staffed.goOn (d := ⟨i, [], putting, .fetchError e⟩) call rfl rfl rfl, h.length, fun v c hc => ?_,
    fun v c n hc hn => ?_, h.completed, h.resumed, h.copied, h.saves⟩
  · rcases setCall_some (T := s.traffic) hc with ⟨-, hsome⟩ | ⟨-, hc⟩
    · cases hsome
      exact fun x hx => by cases hx
    · exact h.todo v c hc
  · rcases setCall_some (T := s.traffic) hc with ⟨-, hsome⟩ | ⟨-, hc⟩
    · cases hsome
      cases hn
    · exact h.calls v c n hc hn

theorem mapSaves_completed {b : Act} : ∀ saved ∈ s.savesWith b, ∀ i ∈ saved, i ∈ s.pool.completed := by
  intro saved hsaved i hi
  unfold MapSys.savesWith at hsaved
  split at hsaved
  · cases List.mem_singleton.mp hsaved
    exact hi
  · split at hsaved
    · cases List.mem_singleton.mp hsaved
      split at hi
      · exact hi
      · cases hi
    · cases hsaved
  · cases hsaved

theorem Mapped.step (hsize : 0 < S.metadata.totalSize) (hchunk : 0 < S.cfg.chunkSize)
    (hcontent : content.length = S.size) (h : Mapped S content s) (hreceived : s.ReceivesRight S content a)
    (hs : mapStep S s a = some s') : Mapped S content s' := by
  obtain ⟨huntouched, haccounted, hle⟩ := mapStep_control h hs
  cases mapStep_moves hs with
  | control b ctl writer ready hb file size =>
    refine ⟨huntouched, haccounted, h.conserved.le hle, h.staffed, ?_, h.todo, ?_, ?_, h.resumed, h.copied,
      fun saved hsaved => ?_⟩
    · simp only [file]
      exact h.length
    · simp only [file]
      exact h.calls
    · simp only [file]
      exact h.completed
    · rcases List.mem_append.mp hsaved with hold | hnew
      · exact h.saves saved hold
      · exact mapSaves_completed (s := s) saved hnew
  | stopRaises =>
    exact ⟨huntouched, haccounted, h.conserved, h.staffed, h.length, h.todo, h.calls, h.completed, h.resumed,
      h.copied, h.saves⟩
  | pool b ev p started ready hb => exact h.pooled ready hb hs
  | begin w item t att res hands free hfetch => exact h.begun hsize hchunk hcontent hreceived hands free hfetch
  | carriedOut w i cmd rest putting outcome writer call hcall => exact h.carriedOut call hcall
  | raised w i cmd rest putting outcome e call => exact h.raised e call
  | saverWakes =>
    exact ⟨h.untouched, h.accounted, h.conserved, h.staffed, h.length, h.todo, h.calls, h.completed, h.resumed,
      fun done hdone i hi => by cases hdone; exact hi, h.saves⟩
  | saverSaves completed copy =>
    refine ⟨h.untouched, h.accounted, h.conserved, h.staffed, h.length, h.todo, h.calls, h.completed, h.resumed,
      fun done hdone => (by cases hdone), fun saved hsaved => ?_⟩
    rcases List.mem_append.mp hsaved with hold | hnew
    · exact h.saves saved hold
    · cases List.mem_singleton.mp hnew
      exact h.copied completed copy

theorem Mapped.init (hresumed : ∀ i ∈ S.resumed, Holds S content S.file i) : Mapped S content (MapSys.init S) where
  untouched _ := ⟨rfl, rfl⟩
  accounted := Accounted.fresh {}
  conserved := init_conserved _ _ _ (chunks_nodup S) fun _ hi hmem =>
    (mem_chunks.mp hi).2 (List.mem_dedup.mp hmem)
  staffed := ⟨fun _ => List.length_replicate, fun _ _ => rfl, fun _ _ hc => by cases hc⟩
  length := size_le_file S
  todo _ _ hc := by cases hc
  calls _ _ _ hc := by cases hc
  completed i hi := hresumed i (List.mem_dedup.mp hi)
  resumed _ hi := List.mem_dedup.mpr hi
  copied _ hc := by cases hc
  saves _ hsaved := by cases hsaved

/-! ## The end of the run -/

/-- What the pool counts when it succeeds. -/
structure Fetched (S : Setup) (content : Bytes) (s : MapSys) : Prop where
  mapped : Mapped S content s
  kept : Kept S.chunks s.ctl.ev s.pool
  finished : Finished S.chunks s.pool
  success : s.ctl.success = true → ∀ i ∈ S.chunks, i ∈ s.pool.completed

theorem Fetched.step (hsize : 0 < S.metadata.totalSize) (hchunk : 0 < S.cfg.chunkSize)
    (hcontent : content.length = S.size) (h : Fetched S content s) (hreceived : s.ReceivesRight S content a)
    (hcalm : MapSys.Calm a) (hs : mapStep S s a = some s') : Fetched S content s' := by
  obtain ⟨-, -, hle⟩ := mapStep_control h.mapped hs
  have hmapped := h.mapped.step hsize hchunk hcontent hreceived hs
  cases mapStep_moves hs with
  | control b ctl writer ready hb =>
    refine ⟨hmapped, h.kept.le hle, h.finished, fun hnow i hi => ?_⟩
    rcases (controlStep_advance h.mapped.accounted hb).success hnow with hold | ⟨⟨error, rfl⟩, -⟩
    · exact h.success hold i hi
    · have hrun : s.pool.run = .ended (.returned true) := (of_decide_eq_true ready).1
      exact h.finished (by rw [hrun]; rfl) i hi
  | stopRaises => exact ⟨hmapped, h.kept, h.finished, h.success⟩
  | pool b ev p started ready hb =>
    exact ⟨hmapped, poolStep_kept h.mapped.conserved h.kept hcalm hb,
      poolStep_finished h.mapped.conserved h.kept h.finished hb,
      fun hnow i hi => poolStep_completed_mono hb (h.success hnow i hi)⟩
  | _ => exact ⟨hmapped, h.kept, h.finished, h.success⟩

theorem Fetched.init (hresumed : ∀ i ∈ S.resumed, Holds S content S.file i) :
    Fetched S content (MapSys.init S) := by
  refine ⟨.init hresumed, ?_, fun h => (by cases h), fun h => (by cases h)⟩
  exact init_kept _ _ _ (chunks_nodup S) fun i hi hmem => (mem_chunks.mp hi).2 (List.mem_dedup.mp hmem)

/-- A file that holds every chunk begins with the content. -/
theorem content_of_holds {file : Bytes} (hsize : 0 < S.metadata.totalSize) (hchunk : 0 < S.cfg.chunkSize)
    (hcontent : content.length = S.size) (h : ∀ i < S.totalChunks, Holds S content file i) :
    file.take S.size = content := by
  refine List.ext_getElem? fun b => ?_
  by_cases hb : b < S.size
  · rw [List.getElem?_take_of_lt hb]
    exact h _ (chunk_of_byte hsize hchunk hb) b hb rfl
  · rw [List.getElem?_take, if_neg hb, List.getElem?_eq_none (by omega)]

theorem Fetched.whole (hsize : 0 < S.metadata.totalSize) (hchunk : 0 < S.cfg.chunkSize)
    (hcontent : content.length = S.size) (h : Fetched S content s) (hsuccess : s.ctl.success = true) :
    s.writer.file.take S.size = content := by
  refine content_of_holds hsize hchunk hcontent fun i hi => h.mapped.completed i ?_
  by_cases hres : i ∈ S.resumed
  · exact h.mapped.resumed i hres
  · exact h.success hsuccess i (mem_chunks.mpr ⟨hi, hres⟩)

/-- A result with the status `COMPLETED` comes after a pool that succeeded. -/
theorem Fetched.succeeded {r : DownloadResult} (h : Fetched S content s)
    (hreturned : s.ctl.outcome = some (.returned r)) (hcompleted : r.status = .completed) :
    s.ctl.success = true :=
  (h.mapped.accounted.cleared (h.mapped.accounted.outcome r hreturned hcompleted)).1

end

end Mrdl.System
