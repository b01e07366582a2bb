import Mrdl.System.Fetches

/-! # What a save claims

A worker counts a chunk as completed when its fetch returns, and a save takes the chunks so counted. By
then the bytes of the chunk were handed to the writer, but they may still wait in its queue, or have
been given up on because the thread event was set. A save made while no write of its chunks is in
either place claims only bytes that are in the file.
-/

namespace Mrdl.System
open FileBytes Downloader Workers Writer Hasher Runs
set_option autoImplicit false

/-- The number of bytes of a chunk, where the total size is known. -/
def Extent (S : Setup) (i n : ℕ) : Prop :=
  0 < S.metadata.totalSize → (n : ℤ) = min (S.cfg.chunkSize : ℤ) (S.metadata.totalSize - i * S.cfg.chunkSize)

/-- The bytes that a returning fetch counts were handed over, or are still to be handed over by it. -/
structure Covered (S : Setup) (T : Traffic) : Prop where
  calls : ∀ w c n, (T.tasks w).call = some c → c.outcome = .returned n → Extent S c.chunkIdx n ∧
    ∀ b < n, ∃ cmd ∈ T.log ++ T.dropped ++ c.todo, cmd.Covers (c.chunkIdx * S.cfg.chunkSize + b)
  recorded : ∀ i n, (i, n) ∈ T.recorded → Extent S i n ∧
    ∀ b < n, ∃ cmd ∈ T.log ++ T.dropped, cmd.Covers (i * S.cfg.chunkSize + b)
  completed : ∀ i ∈ T.pool.completed, i ∈ S.resumed ∨ ∃ n, (i, n) ∈ T.recorded

section
variable {S : Setup} {ev : Events} {T T' : Traffic}

theorem covers_of_tiles {start : ℕ} {ws : List (Write UInt8)} {d : Bytes} (h : Tiles start ws d) {b : ℕ}
    (hb : b < d.length) : ∃ cmd ∈ asCommands ws, cmd.Covers (start + b) := by
  by_contra hno
  have hnone := lastWritten_of_not_covers fun cmd hmem hcov => hno ⟨cmd, hmem, hcov⟩
  rw [writesOf_asCommands, h.lastWritten, if_pos (by omega), Nat.add_sub_cancel_left,
    List.getElem?_eq_getElem hb] at hnone
  cases hnone

/-- A fetch that returns has all its bytes among its commands. -/
theorem fetch_covers {f : Fetcher.ChunkFetcher} {i n : ℕ} {att : Fetcher.Attempt} {res : Fetcher.FetchResult}
    (hbuf : f.buffer.length = S.cfg.flushThreshold) (hm : 0 < S.metadata.totalSize → f.metadata = S.metadata)
    (h : Fetcher.fetch S.cfg f i att = some res) (hn : res.outcome = .returned n) :
    Extent S i n ∧ ∀ b < n, ∃ cmd ∈ Fetcher.commands res.effects, cmd.Covers (i * S.cfg.chunkSize + b) := by
  obtain ⟨r, ws, d, rfl, hd⟩ := Fetcher.fetch_delivered hbuf h hn
  refine ⟨fun hsize => ?_, fun b hb => ?_⟩
  · have hlen := hd.expected
    rw [hm hsize, Fetcher.expectation_known hsize] at hlen
    have hlen := hlen _ rfl
    unfold Fetcher.rangeEnd at hlen
    push_cast at hlen
    omega
  · obtain ⟨cmd, hcmem, hcov⟩ := covers_of_tiles hd.tiles hb
    exact ⟨cmd, hd.handed ▸ List.mem_append_left _ hcmem, hcov⟩

theorem Covered.mono_recorded (h : Covered S T) (hrec : T'.recorded = T.recorded)
    (hlog : ∀ cmd ∈ T.log ++ T.dropped, cmd ∈ T'.log ++ T'.dropped) :
    ∀ i n, (i, n) ∈ T'.recorded → Extent S i n ∧
      ∀ b < n, ∃ cmd ∈ T'.log ++ T'.dropped, cmd.Covers (i * S.cfg.chunkSize + b) := by
  intro i n hin
  rw [hrec] at hin
  obtain ⟨hext, hcov⟩ := h.recorded i n hin
  refine ⟨hext, fun b hb => ?_⟩
  obtain ⟨cmd, hmem, hb⟩ := hcov b hb
  exact ⟨cmd, hlog cmd hmem, hb⟩

theorem Covered.goOn {w : ℕ} {c d : Call} (h : Covered S T) (call : (T.tasks w).call = some c)
    (hidx : d.chunkIdx = c.chunkIdx) (hout : d.outcome = c.outcome) (hpool : T'.pool = T.pool)
    (hrec : T'.recorded = T.recorded) (htasks : T'.tasks = (T.setCall w (some d)).tasks)
    (hlog : ∀ cmd ∈ T.log ++ T.dropped, cmd ∈ T'.log ++ T'.dropped)
    (htodo : ∀ cmd ∈ c.todo, cmd ∈ T'.log ++ T'.dropped ++ d.todo) : Covered S T' := by
  refine ⟨fun v e n he hn => ?_, h.mono_recorded hrec hlog, ?_⟩
  · rw [htasks] at he
    rcases setCall_some he with ⟨rfl, hsome⟩ | ⟨hv, he⟩
    · cases hsome
      rw [hout] at hn
      obtain ⟨hext, hcov⟩ := h.calls v c n call hn
      rw [hidx]
      refine ⟨hext, fun b hb => ?_⟩
      obtain ⟨cmd, hmem, hb⟩ := hcov b hb
      rcases List.mem_append.mp hmem with hold | htodo'
      · exact ⟨cmd, List.mem_append_left _ (hlog cmd hold), hb⟩
      · exact ⟨cmd, htodo cmd htodo', hb⟩
    · obtain ⟨hext, hcov⟩ := h.calls v e n he hn
      refine ⟨hext, fun b hb => ?_⟩
      obtain ⟨cmd, hmem, hb⟩ := hcov b hb
      rcases List.mem_append.mp hmem with hold | htodo'
      · exact ⟨cmd, List.mem_append_left _ (hlog cmd hold), hb⟩
      · exact ⟨cmd, List.mem_append_right _ htodo', hb⟩
  · rw [hpool, hrec]
    exact h.completed

theorem Covered.settle {a : PoolAct} {w : ℕ} {ev' : Events} (h : Covered S T)
    (hpool : poolStep ev T.pool a = some (ev', T'.pool)) (kind : ∀ v, a ≠ .fetchReturned v)
    (hrec : T'.recorded = T.recorded) (hlog : T'.log = T.log) (hdropped : T'.dropped = T.dropped)
    (htasks : T'.tasks = (T.setCall w none).tasks) : Covered S T' := by
  refine ⟨fun v e n he hn => ?_, h.mono_recorded hrec fun cmd hcmd => by rw [hlog, hdropped]; exact hcmd, ?_⟩
  · rw [htasks] at he
    rw [hlog, hdropped]
    rcases setCall_some he with ⟨-, hnone⟩ | ⟨-, he⟩
    · cases hnone
    · exact h.calls v e n he hn
  · have hsame : T'.pool.completed = T.pool.completed := by
      rcases poolStep_completed hpool with heq | ⟨v, item, t, ha, -⟩
      · exact heq
      · exact absurd ha (kind v)
    rw [hsame, hrec]
    exact h.completed

theorem Covered.step {a : SysAct} (h : Covered S T) (hst : Staffed S T) (hs : Traffic.Step S ev T a T') :
    Covered S T' := by
  cases hs with
  | pool a ev' p hpool quiet =>
    refine ⟨h.calls, h.recorded, ?_⟩
    have hsame : p.completed = T.pool.completed := by
      rcases poolStep_completed hpool with heq | ⟨w, item, t, rfl, -⟩
      · exact heq
      · exact absurd (quiet w) (by simp [PoolAct.settles])
    rw [hsame]
    exact h.completed
  | returned w i n putting ev' p hpool call =>
    obtain ⟨hext, hcov⟩ := h.calls w _ n call rfl
    simp only [List.append_nil] at hcov
    refine ⟨fun v e m he hm => ?_, fun j m hjm => ?_, fun j hj => ?_⟩
    · rcases setCall_some he with ⟨-, hnone⟩ | ⟨-, he⟩
      · cases hnone
      · exact h.calls v e m he hm
    · rcases List.mem_append.mp hjm with hold | hnew
      · exact h.recorded j m hold
      · cases List.mem_singleton.mp hnew
        exact ⟨hext, hcov⟩
    · obtain ⟨item, t, hpc, hidx⟩ := hst.busy w _ call
      rcases poolStep_completed hpool with heq | ⟨v, item', t', hv, hpc', heq⟩
      · rw [heq] at hj
        exact (h.completed j hj).imp id fun ⟨m, hm⟩ => ⟨m, List.mem_append_left _ hm⟩
      · cases hv
        rw [hpc] at hpc'
        cases hpc'
        rw [heq, hidx, Int.toNat_natCast] at hj
        rcases mem_record.mp hj with hold | rfl
        · exact (h.completed j hold).imp id fun ⟨m, hm⟩ => ⟨m, List.mem_append_left _ hm⟩
        · exact Or.inr ⟨n, List.mem_append_right _ (List.mem_singleton.mpr rfl)⟩
  | failed w a c ev' p hpool settles only call outcome todo kind =>
    exact h.settle (w := w) hpool kind rfl rfl rfl rfl
  | cancelled w ev' p hpool => exact h.settle (w := w) hpool (fun v hv => by cases hv) rfl rfl rfl rfl
  | begin w item t att res hands free hfetch =>
    refine ⟨fun v c n hc hn => ?_, h.recorded, h.completed⟩
    rcases began_some hc with ⟨rfl, rfl⟩ | ⟨-, hc⟩
    · obtain ⟨hext, hcov⟩ := fetch_covers (hst.buffers v) (fun hsize => hst.metadata hsize v) hfetch hn
      refine ⟨hext, fun b hb => ?_⟩
      obtain ⟨cmd, hmem, hb⟩ := hcov b hb
      exact ⟨cmd, List.mem_append_right _ hmem, hb⟩
    · exact h.calls v c n hc hn
  | drop w i cmd rest outcome call stopped =>
    refine h.goOn (d := ⟨i, rest, false, outcome⟩) call rfl rfl rfl rfl rfl (fun x hx => ?_) fun x hx => ?_
    · simp only [List.mem_append] at hx ⊢
      tauto
    · simp only [List.mem_append, List.mem_cons, List.not_mem_nil] at hx ⊢
      tauto
  | reach w i cmd rest outcome call running =>
    exact h.goOn (d := ⟨i, cmd :: rest, true, outcome⟩) call rfl rfl rfl rfl rfl (fun _ => id)
      fun x hx => List.mem_append_right _ hx
  | put w i cmd rest outcome call =>
    refine h.goOn (d := ⟨i, rest, false, outcome⟩) call rfl rfl rfl rfl rfl (fun x hx => ?_) fun x hx => ?_
    · simp only [List.mem_append] at hx ⊢
      tauto
    · simp only [List.mem_append, List.mem_cons, List.not_mem_nil] at hx ⊢
      tauto
  | refuse w i cmd rest outcome call =>
    exact h.goOn (d := ⟨i, cmd :: rest, false, outcome⟩) call rfl rfl rfl rfl rfl (fun _ => id)
      fun x hx => List.mem_append_right _ hx
  | orphanPut k before after cmd orphans =>
    have hlog : ∀ x ∈ T.log ++ T.dropped, x ∈ T.log ++ [cmd] ++ T.dropped := by
      intro x hx
      simp only [List.mem_append] at hx ⊢
      tauto
    refine ⟨fun v c n hc hn => ?_, h.mono_recorded rfl hlog, h.completed⟩
    obtain ⟨hext, hcov⟩ := h.calls v c n hc hn
    refine ⟨hext, fun b hb => ?_⟩
    obtain ⟨x, hmem, hb⟩ := hcov b hb
    rcases List.mem_append.mp hmem with hold | htodo
    · exact ⟨x, List.mem_append_left _ (hlog x hold), hb⟩
    · exact ⟨x, List.mem_append_right _ htodo, hb⟩
  | orphanGone k before after cmd orphans => exact ⟨h.calls, h.recorded, h.completed⟩

end

/-! ## Saves -/

/-- The lists that an action passes to `state_manager.save`. -/
def Sys.saving (s : Sys) : SysAct → List (List ℕ)
  | .control a => (s.savesWith a).map Save.completed
  | .saverSaves => s.saverCopy.toList
  | _ => []

/-- No save is made while a write for one of its chunks, fetched in this run, waits in the writer's
queue, is in its hands, or was given up on. -/
def NothingPending (S : Setup) (s : Sys) (a : SysAct) : Prop :=
  ∀ saved ∈ s.saving a, ∀ x ∈ s.recorded, x.1 ∈ saved → x.1 ∉ S.resumed →
    ∀ cmd ∈ s.writer.pending ++ s.dropped, ∀ b < x.2, ¬ cmd.Covers (x.1 * S.cfg.chunkSize + b)

instance (S : Setup) (s : Sys) (a : SysAct) : Decidable (NothingPending S s a) := by
  unfold NothingPending
  infer_instance

/-- Every chunk of the save was resumed from, or all its bytes were written by then. -/
def Save.Truthful (S : Setup) (s : Sys) (save : Save) : Prop :=
  ∀ i ∈ save.completed, i ∈ S.resumed ∨ ∃ n, (i, n) ∈ s.recorded ∧ Extent S i n ∧
    ∀ b < n, (lastWritten save.pwrites (i * S.cfg.chunkSize + b)).isSome = true

section
variable {S : Setup} {s s' : Sys}

structure SaveSound (S : Setup) (s : Sys) : Prop where
  sound : Sound S s
  covered : Covered S s.traffic
  copied : ∀ completed, s.saverCopy = some completed → ∀ i ∈ completed, i ∈ s.pool.completed
  saves : ∀ save ∈ s.saves, save.Truthful S s

theorem recorded_mono {a : SysAct} (hs : sysStep S s a = some s') :
    ∀ x ∈ s.recorded, x ∈ s'.recorded := by
  have hT : ∀ x ∈ s.traffic.recorded, x ∈ s'.traffic.recorded := by
    rcases sysStep_traffic hs with heq | hstep
    · rw [heq]
      exact fun x => id
    · intro x hx
      generalize s'.traffic = T' at hstep
      cases hstep with
      | returned => exact List.mem_append_left _ hx
      | _ => exact hx
  exact hT

theorem completed_mono {a : SysAct} (hs : sysStep S s a = some s') :
    ∀ i ∈ s.pool.completed, i ∈ s'.pool.completed := by
  intro i hi
  rcases sysStep_pool hs with ⟨b, -, hp⟩ | ⟨-, heq⟩
  · exact poolStep_completed_mono hp hi
  · rw [heq]
    exact hi

theorem Save.Truthful.mono {save : Save} (h : save.Truthful S s)
    (hrec : ∀ x ∈ s.recorded, x ∈ s'.recorded) : save.Truthful S s' := by
  intro i hi
  exact (h i hi).imp id fun ⟨n, hin, hrest⟩ => ⟨n, hrec _ hin, hrest⟩

/-- A byte whose command is neither pending nor given up on is in the file. -/
theorem written_of_executed {b : ℕ} (h : s.writer.Performed S.resumed S.file)
    (hcov : ∃ cmd ∈ s.writer.log ++ s.dropped, cmd.Covers b)
    (hnone : ∀ cmd ∈ s.writer.pending ++ s.dropped, ¬ cmd.Covers b) :
    (lastWritten s.writer.pwrites b).isSome = true := by
  obtain ⟨cmd, hmem, hb⟩ := hcov
  have hexec : cmd ∈ s.writer.executed := by
    rcases List.mem_append.mp hmem with hlog | hdropped
    · rcases List.mem_append.mp hlog with hexec | hpending
      · exact hexec
      · exact absurd hb (hnone cmd (List.mem_append_left _ hpending))
    · exact absurd hb (hnone cmd (List.mem_append_right _ hdropped))
  have hsome := lastWritten_of_covers hexec hb
  rw [h.written b, lastWritten_append]
  cases lastWritten s.writer.begun b with
  | none => simpa using hsome
  | some x => rfl

/-- A save of completed chunks that meets the condition is truthful. -/
theorem SaveSound.truthful {completed : List ℕ} (h : SaveSound S s)
    (hsub : ∀ i ∈ completed, i ∈ s.pool.completed)
    (hnone : ∀ i ∈ completed, i ∉ S.resumed → ∀ n, (i, n) ∈ s.recorded →
      ∀ cmd ∈ s.writer.pending ++ s.dropped, ∀ b < n, ¬ cmd.Covers (i * S.cfg.chunkSize + b)) :
    Save.Truthful S s ⟨completed, s.writer.pwrites⟩ := by
  intro i hi
  by_cases hres : i ∈ S.resumed
  · exact Or.inl hres
  · obtain ⟨n, hin⟩ := (h.covered.completed i (hsub i hi)).resolve_left hres
    obtain ⟨hext, hcov⟩ := h.covered.recorded i n hin
    exact Or.inr ⟨n, hin, hext, fun b hb => written_of_executed h.sound.performed (hcov b hb)
      fun cmd hcmd => hnone i hi hres n hin cmd hcmd b hb⟩

/-- What a step adds to the saves, and what the saver holds afterwards. -/
theorem sysStep_saves {a : SysAct} (hs : sysStep S s a = some s') :
    s'.saves = s.saves ++ (s.saving a).map (fun completed => ⟨completed, s.writer.pwrites⟩) ∧
      (∀ completed, s'.saverCopy = some completed →
        s.saverCopy = some completed ∨ completed = s.pool.completed) := by
  have hnothing : s.saves = s.saves ++
      (([] : List (List ℕ)).map fun completed => (⟨completed, s.writer.pwrites⟩ : Save)) :=
    (List.append_nil _).symm
  cases sysStep_moves hs with
  | control b ctl ready h =>
    refine ⟨?_, fun _ => Or.inl⟩
    cases b with
    | pause =>
      simp only [Sys.saving, Sys.savesWith]
      split <;> rfl
    | _ => rfl
  | pool b ev p started ready h =>
    obtain ⟨-, -, hsaves, hcopy⟩ := settleCall_rest s b
    refine ⟨hsaves.trans hnothing, fun completed hc => Or.inl ?_⟩
    rw [← hcopy]
    exact hc
  | saverWakes =>
    refine ⟨hnothing, fun completed hc => Or.inr ?_⟩
    cases hc
    rfl
  | saverSaves completed copy =>
    refine ⟨?_, fun completed hc => by cases hc⟩
    simp only [Sys.saving, copy]
    rfl
  | _ => exact ⟨hnothing, fun _ => Or.inl⟩

theorem saving_completed {a : SysAct} (h : SaveSound S s) :
    ∀ completed ∈ s.saving a, ∀ i ∈ completed, i ∈ s.pool.completed := by
  intro completed hmem i hi
  cases a with
  | control a =>
    obtain ⟨save, hsave, rfl⟩ := List.mem_map.mp hmem
    cases a with
    | stateSaved =>
      cases List.mem_singleton.mp hsave
      exact hi
    | pause =>
      simp only [Sys.savesWith] at hsave
      split at hsave
      · cases List.mem_singleton.mp hsave
        split at hi
        · exact hi
        · cases hi
      · cases hsave
    | _ => cases hsave
  | saverSaves => exact h.copied completed (Option.mem_toList.mp hmem) i hi
  | _ => cases hmem

theorem SaveSound.step {a : SysAct} (h : SaveSound S s) (hnone : NothingPending S s a)
    (hs : sysStep S s a = some s') : SaveSound S s' := by
  obtain ⟨hsaves, hcopy⟩ := sysStep_saves hs
  refine ⟨h.sound.step hs, ?_, fun completed hc i hi => ?_, fun save hsave => ?_⟩
  · rcases sysStep_traffic hs with heq | hstep
    · rw [heq]
      exact h.covered
    · exact h.covered.step h.sound.staffed hstep
  · rcases hcopy completed hc with hold | rfl
    · exact completed_mono hs i (h.copied completed hold i hi)
    · exact completed_mono hs i hi
  · rw [hsaves] at hsave
    rcases List.mem_append.mp hsave with hold | hnew
    · exact (h.saves save hold).mono (recorded_mono hs)
    · obtain ⟨completed, hmem, rfl⟩ := List.mem_map.mp hnew
      refine Save.Truthful.mono (h.truthful (saving_completed h completed hmem) ?_) (recorded_mono hs)
      intro i hi hres n hin
      exact hnone completed hmem (i, n) hin hi hres

theorem SaveSound.init (S : Setup) : SaveSound S (Sys.init S) := by
  refine ⟨Sound.init S, ⟨fun w c n hc => (by cases hc), fun i n hin => (by cases hin), fun i hi => ?_⟩,
    fun completed hc => (by cases hc), fun save hsave => (by cases hsave)⟩
  exact Or.inl (List.mem_dedup.mp hi)

/-- In a run that never saves while a write of a saved chunk is pending or was given up on, every save
claims only chunks it resumed from and chunks whose bytes are all in the file. -/
theorem saves_truthful {as : List SysAct} (hrun : exec (sysStep S) (Sys.init S) as = some s)
    (hcalm : Guarded (sysStep S) (NothingPending S) (Sys.init S) as) :
    ∀ save ∈ s.saves, save.Truthful S s :=
  (exec_guarded (P := SaveSound S) (fun _ _ _ h hn hs => h.step hn hs) (SaveSound.init S) hcalm hrun).saves

end

/-! ## A stop before the writes -/

/-- One mirror, one worker, one chunk of two bytes. -/
def twoBytes : Setup where
  sources := ["mirror"]
  threadsPerSource := 1
  cfg := { chunkSize := 2 }
  metadata := ⟨2, true, none, none⟩

def twoBytesAnswer : Fetcher.Attempt where
  reply := .answer { status := 206, pieces := [[7, 8]] }

/-- Up to the return of the one fetch. -/
def chunkFetched : List SysAct :=
  [.control (.enter .missing), .control (.probeReturns .metadata), .control (.fileReady true),
    .control (.stateReady true), .pool (.wake 0 false), .pool (.openGate 0), .pool (.passGate 0),
    .pool (.get 0 false false), .begin 0 twoBytesAnswer, .offer 0, .putDone 0, .offer 0, .putDone 0,
    .pool (.fetchReturned 0)]

/-- `stop` is called, and `start` goes on to `_save_state`. -/
def stoppedAndSaved : List SysAct :=
  [.control .stop, .writer .poll, .control .callback, .pool (.runWakes false), .pool .runEnds,
    .control (.poolReturns false none), .stopPut, .control .writerStopped, .control .hasherStopped,
    .control .stateSaved]

/-- The writer's thread writes the chunk. -/
def chunkWritten : List SysAct :=
  [.writer .poll, .writer .get, .writer (.pwrite 2), .writer .done, .writer .poll, .writer .get,
    .writer .done]

/-- `stop` is called after the fetch has returned and before the writer's thread looks at its queue:
the thread leaves the queue as it is, and the chunk is saved as completed. -/
theorem save_untruthful : ∃ s : Sys,
    exec (sysStep twoBytes) (Sys.init twoBytes) (chunkFetched ++ stoppedAndSaved) = some s ∧
      ∃ save ∈ s.saves, ¬ save.Truthful twoBytes s := by
  refine ⟨(exec (sysStep twoBytes) (Sys.init twoBytes) (chunkFetched ++ stoppedAndSaved)).get
    (by decide +kernel), (Option.some_get _).symm, ⟨[0], []⟩, by decide +kernel, fun h => ?_⟩
  rcases h 0 (List.mem_singleton.mpr rfl) with hres | ⟨n, -, hext, hbytes⟩
  · cases hres
  · have hn := hext (by decide)
    have hpos : 0 < n := by
      have htwo : (n : ℤ) = 2 := hn
      omega
    cases hbytes 0 hpos

theorem saves_truthful_written : ∃ s : Sys,
    exec (sysStep twoBytes) (Sys.init twoBytes) (chunkFetched ++ chunkWritten ++ stoppedAndSaved) =
        some s ∧ ∀ save ∈ s.saves, save.Truthful twoBytes s := by
  refine ⟨(exec (sysStep twoBytes) (Sys.init twoBytes)
    (chunkFetched ++ chunkWritten ++ stoppedAndSaved)).get (by decide +kernel),
    (Option.some_get _).symm, ?_⟩
  exact saves_truthful (Option.some_get _).symm (by decide +kernel)

end Mrdl.System
