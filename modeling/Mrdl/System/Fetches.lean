import Mrdl.System.Traffic
import Mrdl.Fetcher.Outcome

/-! # Every fetch belongs to a chunk in hand

A fetch is under way only for the chunk its worker has in its hands, so there is one fetch of a chunk
at a time. What a fetch that returns hands to the writer covers all the bytes it counts.
-/

namespace Mrdl.System
open FileBytes Downloader Workers Writer Hasher Runs
set_option autoImplicit false

structure Staffed (S : Setup) (T : Traffic) : Prop where
  buffers : ∀ w, (T.tasks w).fetcher.buffer.length = S.cfg.flushThreshold
  metadata : 0 < S.metadata.totalSize → ∀ w, (T.tasks w).fetcher.metadata = S.metadata
  busy : ∀ w c, (T.tasks w).call = some c →
    ∃ item t, T.pool.pcOf w = some (.fetching item t) ∧ item.chunkIdx = (c.chunkIdx : ℤ)

theorem mem_chunks {S : Setup} {i : ℕ} : i ∈ S.chunks ↔ i < S.totalChunks ∧ i ∉ S.resumed := by
  simp [Setup.chunks]

theorem chunks_nodup (S : Setup) : S.chunks.Nodup := List.nodup_range.filter _

theorem totalChunks_eq_count {S : Setup} (hsize : 0 < S.metadata.totalSize) (hchunk : 0 < S.cfg.chunkSize) :
    S.totalChunks = Tiling.count S.size S.cfg.chunkSize :=
  Session.computeTotalChunks_eq_count hsize hchunk

theorem chunk_start_lt {S : Setup} {i : ℕ} (hsize : 0 < S.metadata.totalSize) (hi : i < S.totalChunks) :
    0 < S.cfg.chunkSize ∧ (i * S.cfg.chunkSize : ℕ) < S.metadata.totalSize := by
  have hchunk : 0 < S.cfg.chunkSize := by
    by_contra hzero
    have hz : S.cfg.chunkSize = 0 := by omega
    rw [Setup.totalChunks, Session.computeTotalChunks, if_neg (by omega), hz] at hi
    simp at hi
  rw [totalChunks_eq_count hsize hchunk, Tiling.lt_count_iff hchunk, Setup.size] at hi
  exact ⟨hchunk, by omega⟩

theorem size_le_chunks {S : Setup} (hsize : 0 < S.metadata.totalSize) (hchunk : 0 < S.cfg.chunkSize) :
    S.size ≤ S.totalChunks * S.cfg.chunkSize := by
  rw [totalChunks_eq_count hsize hchunk]
  exact Tiling.size_le hchunk

theorem chunk_of_byte {S : Setup} {b : ℕ} (hsize : 0 < S.metadata.totalSize) (hchunk : 0 < S.cfg.chunkSize)
    (hb : b < S.size) : b / S.cfg.chunkSize < S.totalChunks := by
  rw [Nat.div_lt_iff_lt_mul hchunk]
  exact hb.trans_le (size_le_chunks hsize hchunk)

section
variable {S : Setup} {ev : Events} {T T' : Traffic}

@[simp] theorem setCall_call_self (T : Traffic) (w : ℕ) (c : Option Call) :
    ((T.setCall w c).tasks w).call = c := by
  simp [Traffic.setCall]

theorem setCall_call_other (T : Traffic) {w v : ℕ} (h : v ≠ w) (c : Option Call) :
    ((T.setCall w c).tasks v) = T.tasks v := by
  simp [Traffic.setCall, h]

@[simp] theorem setCall_fetcher (T : Traffic) (w v : ℕ) (c : Option Call) :
    ((T.setCall w c).tasks v).fetcher = (T.tasks v).fetcher := by
  by_cases h : v = w
  · subst h
    simp [Traffic.setCall]
  · rw [setCall_call_other T h]

theorem setCall_some {w v : ℕ} {c : Option Call} {d : Call} (h : ((T.setCall w c).tasks v).call = some d) :
    (v = w ∧ c = some d) ∨ (v ≠ w ∧ (T.tasks v).call = some d) := by
  by_cases hv : v = w
  · subst hv
    rw [setCall_call_self] at h
    exact Or.inl ⟨rfl, h⟩
  · rw [setCall_call_other T hv] at h
    exact Or.inr ⟨hv, h⟩

theorem began_some {w v : ℕ} {f : Fetcher.ChunkFetcher} {c d : Call}
    (h : (Function.update T.tasks w ⟨f, some c⟩ v).call = some d) :
    (v = w ∧ d = c) ∨ (v ≠ w ∧ (T.tasks v).call = some d) := by
  by_cases hv : v = w
  · subst hv
    rw [Function.update_self] at h
    exact Or.inl ⟨rfl, (Option.some.inj h).symm⟩
  · rw [Function.update_of_ne hv] at h
    exact Or.inr ⟨hv, h⟩

theorem chunkIdx_of_hands {item : QueueItem} {t : ℚ} {w : ℕ} (hp : Conserved S.chunks ev T.pool)
    (h : T.pool.pcOf w = some (.fetching item t)) :
    item.chunkIdx.toNat ∈ S.chunks ∧ item.chunkIdx = (item.chunkIdx.toNat : ℤ) := by
  obtain ⟨hchunk, hmem⟩ := fetching_not_sentinel hp.ledger h
  obtain ⟨i, hi, hidx, -⟩ := (hp.marked item hmem).resolve_left hchunk
  rw [hidx, Int.toNat_natCast]
  exact ⟨hi, rfl⟩

theorem fits_first (cfg : Fetcher.FetcherConfig) (metadata : FileMetadata) (reply : Fetcher.Reply) :
    Fetcher.Fits (Fetcher.expectation cfg metadata 0 reply) [] := by
  have hrange : ∀ size : ℤ, 0 < size → 0 ≤ Fetcher.rangeEnd cfg size 0 - (0 : ℕ) + 1 := by
    intro size hsize
    unfold Fetcher.rangeEnd
    omega
  have hexpected : Fetcher.Fits (Fetcher.expectedBytes cfg metadata 0) [] := by
    intro e he
    simp only [Fetcher.expectedBytes, Option.mem_def, Option.ite_none_right_eq_some,
      Option.some.injEq] at he
    obtain ⟨hsize, rfl⟩ := he
    exact hrange _ hsize
  cases reply with
  | noAnswer e => exact hexpected
  | answer r =>
    unfold Fetcher.expectation
    simp only
    split
    · exact hexpected
    · unfold Fetcher.resolveSize
      split
      · simp only
        split
        · rename_i hlen
          intro e he
          split at he <;> cases he
          · simp only [List.length_nil]
            omega
          · exact hrange _ (by simpa using hlen)
        · exact fun e he => by cases he
      · exact hexpected

theorem fits_nothing {metadata : FileMetadata} {i : ℕ} (reply : Fetcher.Reply) (hi : i < S.totalChunks)
    (hm : 0 < S.metadata.totalSize → metadata = S.metadata) :
    Fetcher.Fits (Fetcher.expectation S.cfg metadata (i * S.cfg.chunkSize) reply) [] := by
  by_cases hsize : 0 < S.metadata.totalSize
  · rw [hm hsize, Fetcher.expectation_known hsize]
    obtain ⟨hchunk, hstart⟩ := chunk_start_lt hsize hi
    intro e he
    cases he
    unfold Fetcher.rangeEnd
    simp only [List.length_nil]
    omega
  · have hone : S.totalChunks = 1 := if_pos (by omega)
    have hzero : i = 0 := by omega
    rw [hzero, Nat.zero_mul]
    exact fits_first _ _ _

theorem Staffed.settle {a : PoolAct} {w : ℕ} {ev' : Events} (h : Staffed S T)
    (hpool : poolStep ev T.pool a = some (ev', T'.pool)) (only : ∀ v, v ≠ w → a.settles v = false)
    (htasks : T'.tasks = (T.setCall w none).tasks) : Staffed S T' := by
  refine ⟨fun v => ?_, fun hsize v => ?_, fun v c hc => ?_⟩
  · rw [htasks, setCall_fetcher]
    exact h.buffers v
  · rw [htasks, setCall_fetcher]
    exact h.metadata hsize v
  · rw [htasks] at hc
    rcases setCall_some hc with ⟨-, hnone⟩ | ⟨hv, hc⟩
    · cases hnone
    · obtain ⟨item, t, hpc, hidx⟩ := h.busy v c hc
      exact ⟨item, t, (poolStep_handling hpool).keeps v item t hpc (only v hv), hidx⟩

theorem Staffed.goOn {w : ℕ} {c d : Call} (h : Staffed S T) (call : (T.tasks w).call = some c)
    (hd : d.chunkIdx = c.chunkIdx) (hpool : T'.pool = T.pool)
    (htasks : T'.tasks = (T.setCall w (some d)).tasks) : Staffed S T' := by
  refine ⟨fun v => ?_, fun hsize v => ?_, fun v e he => ?_⟩
  · rw [htasks, setCall_fetcher]
    exact h.buffers v
  · rw [htasks, setCall_fetcher]
    exact h.metadata hsize v
  · rw [htasks] at he
    rw [hpool]
    rcases setCall_some he with ⟨rfl, hsome⟩ | ⟨hv, he⟩
    · cases hsome
      rw [hd]
      exact h.busy v c call
    · exact h.busy v e he

theorem Staffed.step {a : SysAct} (h : Staffed S T) (hp : Conserved S.chunks ev T.pool)
    (hs : Traffic.Step S ev T a T') : Staffed S T' := by
  cases hs with
  | pool a ev' p hpool quiet =>
    refine ⟨h.buffers, h.metadata, fun w c hc => ?_⟩
    obtain ⟨item, t, hpc, hidx⟩ := h.busy w c hc
    exact ⟨item, t, (poolStep_handling hpool).keeps w item t hpc (quiet w), hidx⟩
  | returned w i n putting ev' p hpool call =>
    exact h.settle (w := w) hpool (fun v hv => decide_eq_false hv.symm) rfl
  | failed w a c ev' p hpool settles only call outcome todo kind => exact h.settle hpool only rfl
  | cancelled w ev' p hpool =>
    exact h.settle (w := w) hpool (fun v hv => decide_eq_false hv.symm) rfl
  | begin w item t att res hands free hfetch =>
    obtain ⟨hmem, hidx⟩ := chunkIdx_of_hands hp hands
    have hfit := fits_nothing att.reply (mem_chunks.mp hmem).1 fun hsize => h.metadata hsize w
    obtain ⟨ws, d, hd⟩ := Fetcher.fetch_handed (h.buffers w) hfit hfetch
    refine ⟨fun v => ?_, fun hsize v => ?_, fun v c hc => ?_⟩
    · by_cases hv : v = w
      · subst hv
        simpa using hd.bufferLength
      · simpa [hv] using h.buffers v
    · by_cases hv : v = w
      · subst hv
        have hmeta := hd.metadata_eq
        rw [h.metadata hsize v, Fetcher.metadataAfter_known hsize] at hmeta
        simpa using hmeta
      · simpa [hv] using h.metadata hsize v
    · rcases began_some hc with ⟨rfl, rfl⟩ | ⟨-, hc⟩
      · exact ⟨item, t, hands, hidx⟩
      · exact h.busy v c hc
  | drop w i cmd rest outcome call stopped =>
    exact h.goOn (d := ⟨i, rest, false, outcome⟩) call rfl rfl rfl
  | reach w i cmd rest outcome call running =>
    exact h.goOn (d := ⟨i, cmd :: rest, true, outcome⟩) call rfl rfl rfl
  | put w i cmd rest outcome call =>
    exact h.goOn (d := ⟨i, rest, false, outcome⟩) call rfl rfl rfl
  | refuse w i cmd rest outcome call =>
    exact h.goOn (d := ⟨i, cmd :: rest, false, outcome⟩) call rfl rfl rfl
  | orphanPut k before after cmd orphans => exact ⟨h.buffers, h.metadata, h.busy⟩
  | orphanGone k before after cmd orphans => exact ⟨h.buffers, h.metadata, h.busy⟩

end

/-! ## Runs -/

section
variable {S : Setup} {s s' : Sys}

/-- What holds in every state of every run. -/
structure Sound (S : Setup) (s : Sys) : Prop where
  ordered : Ordered s
  conserved : Conserved S.chunks s.ctl.ev s.pool
  staffed : Staffed S s.traffic
  performed : s.writer.Performed S.resumed S.file

theorem Sound.step {a : SysAct} (h : Sound S s) (hs : sysStep S s a = some s') : Sound S s' := by
  refine ⟨h.ordered.step hs, ?_, ?_, ?_⟩
  · rcases sysStep_pool hs with ⟨b, -, hp⟩ | ⟨-, heq⟩
    · exact poolStep_conserved h.conserved hp
    · rw [heq]
      exact h.conserved.le (sysStep_le h.ordered hs)
  · rcases sysStep_traffic hs with heq | hstep
    · rw [heq]
      exact h.staffed
    · exact h.staffed.step h.conserved hstep
  · rcases sysStep_writer hs with heq | ⟨x, hput⟩ | ⟨b, hstep⟩
    · rw [heq]
      exact h.performed
    · exact h.performed.put hput
    · exact h.performed.step hstep

theorem Sound.init (S : Setup) : Sound S (Sys.init S) := by
  refine ⟨Ordered.init S, ?_, ?_, DiskWriter.Performed.start S.resumed S.file⟩
  · refine init_conserved _ _ _ (chunks_nodup S) fun i hi hmem => ?_
    exact (mem_chunks.mp hi).2 (List.mem_dedup.mp hmem)
  · refine ⟨fun w => List.length_replicate, fun _ w => rfl, fun w c hc => by cases hc⟩

/-- The pool of a run makes a run of its own, with the events as the other threads leave them. -/
theorem pool_of_run {as : List SysAct} (hrun : exec (sysStep S) (Sys.init S) as = some s) :
    ∃ bs, exec machineStep
      (({} : Events), WorkerPool.init S.sources S.threadsPerSource S.chunks S.resumed.dedup) bs =
        some (s.ctl.ev, s.pool) := by
  have hsim : ∀ (u : Sys) (a : SysAct) (v : Sys) (t : Events × WorkerPool),
      Ordered u ∧ t = (u.ctl.ev, u.pool) → sysStep S u a = some v →
        ∃ bs t', exec machineStep t bs = some t' ∧ Ordered v ∧ t' = (v.ctl.ev, v.pool) := by
    rintro u a v t ⟨hu, rfl⟩ hs
    rcases sysStep_pool hs with ⟨b, -, hp⟩ | ⟨-, hsame⟩
    · exact ⟨[.pool b], _, exec_cons.mpr ⟨_, hp, rfl⟩, hu.step hs, rfl⟩
    · have hevents : machineStep (u.ctl.ev, u.pool) (.events v.ctl.ev) = some (v.ctl.ev, v.pool) := by
        rw [hsame]
        exact if_pos (sysStep_le hu hs)
      exact ⟨[.events v.ctl.ev], _, exec_cons.mpr ⟨_, hevents, rfl⟩, hu.step hs, rfl⟩
  obtain ⟨bs, t, hbs, -, rfl⟩ := exec_simulates hsim ⟨Ordered.init S, rfl⟩ hrun
  exact ⟨bs, hbs⟩

end

end Mrdl.System
