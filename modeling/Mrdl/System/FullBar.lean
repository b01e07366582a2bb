import Mrdl.System.Landed
import Mrdl.System.Tiling
import Mrdl.Progress.Updates
import Mrdl.Workers.Ending

/-! # The bar at the end

The bar starts with the bytes of the resumed chunks and adds up what the fetches report. Where every
fetch reports what it is worth, the bytes on the bar are those of the completed chunks and of the fetches
that are about to return, as long as no chunk is lost; a run that ends with `COMPLETED` leaves it full.
-/

namespace Mrdl.System
open FileBytes Downloader Workers Writer Hasher Runs Progress Session Tiling
set_option autoImplicit false

/-- The fetch that an action begins. -/
def Traffic.begun (S : Setup) (T : Traffic) : SysAct → Option Fetcher.FetchResult
  | .begin w att =>
      match T.pool.pcOf w with
      | some (.fetching item _) => Fetcher.fetch S.cfg (T.tasks w).fetcher item.chunkIdx.toNat att
      | _ => none
  | _ => none

/-- A fetch that begins will report what it is worth. -/
def ReportsWorth (S : Setup) (T : Traffic) (a : SysAct) : Prop := ∀ res ∈ T.begun S a, res.Balanced

/-- The reports of a fetch are counted with its beginning, where its commands are computed. -/
def Traffic.counted (S : Setup) (T : Traffic) (p : ProgressState) (a : SysAct) : ProgressState :=
  (T.begun S a).elim p fun res => p.effects res.effects

/-- The bar beside the run. -/
def barStep (S : Setup) (x : Sys × ProgressState) (a : SysAct) : Option (Sys × ProgressState) :=
  (sysStep S x.1 a).map fun s => (s, x.1.traffic.counted S x.2 a)

/-- What a fetch that ends this way has reported, when it reports what it is worth. -/
def worth : Fetcher.Outcome → ℕ
  | .returned n => n
  | _ => 0

/-- What the worker's fetch has reported. -/
def Task.pledged (t : Task) : ℕ :=
  match t.call with
  | some c => worth c.outcome
  | none => 0

def Traffic.pledges (T : Traffic) : ℕ := ∑ w ∈ Finset.range T.pool.workers.length, (T.tasks w).pledged

/-- The bytes of the completed chunks. -/
def Traffic.completedBytes (S : Setup) (T : Traffic) : ℕ :=
  (T.pool.completed.map (blockLength S.size S.cfg.chunkSize)).sum

/-- What the bar shows. -/
structure Shown (S : Setup) (T : Traffic) (p : ProgressState) : Prop where
  bytes : (∀ i ∈ S.chunks, ¬ Gone T i) → p.completedBytes = (T.completedBytes S + T.pledges : ℕ)
  chunks : ∀ i ∈ T.pool.completed, inSet p.completedChunks i = true
  calls : ∀ w c n, (T.tasks w).call = some c → c.outcome = .returned n →
    inSet p.completedChunks c.chunkIdx = true

section
variable {S : Setup} {ev ev' : Events} {T T' : Traffic} {p : ProgressState}

theorem pledged_of_call {t : Task} {c : Call} (h : t.call = some c) : t.pledged = worth c.outcome := by
  rw [Task.pledged, h]

theorem worth_zero {o : Fetcher.Outcome} (h : ∀ n, o ≠ .returned n) : worth o = 0 := by
  cases o with
  | returned n => exact absurd rfl (h n)
  | stopped | fetchError e => rfl

theorem reported_worth {res : Fetcher.FetchResult} (h : res.Balanced) :
    Fetcher.reported res.effects = worth res.outcome := by
  obtain ⟨effects, outcome, fetcher⟩ := res
  cases outcome <;> exact h

theorem pcOf_lt {P : WorkerPool} {w : ℕ} {pc : WorkerPc} (h : P.pcOf w = some pc) : w < P.workers.length := by
  obtain ⟨x, hx, -⟩ := Option.map_eq_some_iff.mp h
  exact (List.getElem?_eq_some_iff.mp hx).1

variable (T') in
theorem pledges_update {w : ℕ} {t : Task} (hw : w < T.pool.workers.length)
    (hpool : T'.pool.workers.length = T.pool.workers.length) (htasks : T'.tasks = Function.update T.tasks w t) :
    T'.pledges + (T.tasks w).pledged = T.pledges + t.pledged := by
  have hmem : w ∈ Finset.range T.pool.workers.length := Finset.mem_range.mpr hw
  have hrest : ∑ v ∈ (Finset.range T.pool.workers.length).erase w, (T'.tasks v).pledged =
      ∑ v ∈ (Finset.range T.pool.workers.length).erase w, (T.tasks v).pledged := by
    apply Finset.sum_congr rfl
    intro v hv
    rw [htasks, Function.update_of_ne (Finset.ne_of_mem_erase hv)]
  have hself : (T'.tasks w).pledged = t.pledged := by
    rw [htasks, Function.update_self]
  unfold Traffic.pledges
  rw [hpool, ← Finset.sum_erase_add _ _ hmem, ← Finset.sum_erase_add _ _ hmem, hrest, hself]
  omega

/-- A fetch that returns has reported its chunk. -/
theorem fetch_reports_chunk {cfg : Fetcher.FetcherConfig} {f : Fetcher.ChunkFetcher} {idx n : ℕ}
    {att : Fetcher.Attempt} {res : Fetcher.FetchResult} (h : Fetcher.fetch cfg f idx att = some res)
    (hn : res.outcome = .returned n) : .update 0 (some idx) ∈ res.effects := by
  cases Fetcher.fetch_path h with
  | unread | cutShort => exact absurd hn (Fetcher.rollback_outcome _ _ _ n)
  | finished r metadata expected c reply ok resolved body =>
    cases expected with
    | none => simp [Fetcher.finish]
    | some e =>
      unfold Fetcher.finish at hn ⊢
      simp only at hn ⊢
      split at hn
      · cases hn
      · rename_i hlen
        rw [if_neg hlen]
        simp

theorem Gone.step {i : ℕ} {a : PoolAct} (hp : Conserved S.chunks ev T.pool)
    (hpool : poolStep ev T.pool a = some (ev', T'.pool)) (h : Gone T i) : Gone T' i := by
  have hplaces := ((poolStep_change hp.ledger hpool).places hp i).1
  unfold Gone at h ⊢
  omega

/-- The worker's fetch has come to its end, one way or the other. -/
theorem Shown.settle {a : PoolAct} {w : ℕ} (h : Shown S T p) (hp : Conserved S.chunks ev T.pool)
    (hpool : poolStep ev T.pool a = some (ev', T'.pool)) (hw : w < T.pool.workers.length)
    (htasks : T'.tasks = (T.setCall w none).tasks)
    (hbytes : (∀ i ∈ S.chunks, ¬ Gone T' i) →
      T'.completedBytes S = T.completedBytes S + (T.tasks w).pledged)
    (hchunks : ∀ i ∈ T'.pool.completed, inSet p.completedChunks i = true) : Shown S T' p := by
  refine ⟨fun hkept => ?_, hchunks, fun v c n hc hn => ?_⟩
  · have hsum := pledges_update T' hw (poolStep_workers hpool) htasks
    have hnone : ({ T.tasks w with call := none } : Task).pledged = 0 := rfl
    rw [h.bytes fun i hi hgone => hkept i hi (hgone.step hp hpool), hbytes hkept]
    congr 1
    omega
  · rw [htasks] at hc
    rcases setCall_some hc with ⟨-, hnone⟩ | ⟨-, hc⟩
    · cases hnone
    · exact h.calls v c n hc hn

/-- A fetch goes on. -/
theorem Shown.goOn {w : ℕ} {c d : Call} (h : Shown S T p) (hst : Staffed S T)
    (call : (T.tasks w).call = some c) (hidx : d.chunkIdx = c.chunkIdx) (hout : d.outcome = c.outcome)
    (hpool : T'.pool = T.pool) (htasks : T'.tasks = (T.setCall w (some d)).tasks) : Shown S T' p := by
  obtain ⟨item, t, hpc, -⟩ := hst.busy w c call
  have hsum := pledges_update T' (pcOf_lt hpc) (by rw [hpool]) htasks
  have hsame : T'.pledges = T.pledges := by
    rw [pledged_of_call call, pledged_of_call (c := d) rfl, hout] at hsum
    omega
  refine ⟨fun hkept => ?_, ?_, fun v e n he hn => ?_⟩
  · rw [hsame, Traffic.completedBytes, hpool]
    refine h.bytes fun i hi hgone => hkept i hi ?_
    rw [Gone, hpool]
    exact hgone
  · rw [hpool]
    exact h.chunks
  · rw [htasks] at he
    rcases setCall_some he with ⟨rfl, hsome⟩ | ⟨-, he⟩
    · cases hsome
      rw [hidx]
      exact h.calls v c n call (hout ▸ hn)
    · exact h.calls v e n he hn

/-- The bytes a fetch counts are those of its block. -/
theorem Extent.block {i n : ℕ} (h : Extent S i n) (hsize : 0 < S.metadata.totalSize) (hi : i < S.totalChunks) :
    blockLength S.size S.cfg.chunkSize i = n := by
  obtain ⟨-, hstart⟩ := chunk_start_lt hsize hi
  have hn := h hsize
  unfold blockLength Setup.size
  push_cast at hstart hn
  zify
  omega

theorem completed_same {P Q : WorkerPool} {a : PoolAct} (hs : poolStep ev P a = some (ev', Q))
    (ha : ∀ w, a ≠ .fetchReturned w) : Q.completed = P.completed := by
  rcases poolStep_completed hs with heq | ⟨w, item, t, heq, -⟩
  · exact heq
  · exact absurd heq (ha w)

variable (T') in
theorem completedBytes_record {w i n : ℕ} {putting : Bool} (hsize : 0 < S.metadata.totalSize)
    (hst : Staffed S T) (hp : Conserved S.chunks ev T.pool) (hcov : Covered S T)
    (hpool : poolStep ev T.pool (.fetchReturned w) = some (ev', T'.pool))
    (call : (T.tasks w).call = some ⟨i, [], putting, .returned n⟩) :
    T'.pool.completed = T.pool.completed ++ [i] ∧ T'.completedBytes S = T.completedBytes S + n := by
  obtain ⟨item, t, hpc, hidx⟩ := hst.busy w _ call
  have hblock : blockLength S.size S.cfg.chunkSize i = n :=
    (hcov.calls w _ n call rfl).1.block hsize (mem_chunks.mp (hst.chunk_mem hp call)).1
  have hfree : i ∉ T.pool.completed := not_completed_of_hands hp hpc hidx
  have hcompleted : T'.pool.completed = T.pool.completed ++ [i] := by
    rw [poolStep, hpc] at hpool
    obtain ⟨-, hpool⟩ := Prod.mk.inj (Option.some.inj hpool)
    rw [← hpool, hidx]
    exact if_neg hfree
  refine ⟨hcompleted, ?_⟩
  rw [Traffic.completedBytes, hcompleted, List.map_append, List.sum_append, List.map_singleton,
    List.sum_singleton, hblock]
  rfl

theorem Shown.step {a : SysAct} (hsize : 0 < S.metadata.totalSize) (h : Shown S T p) (hst : Staffed S T)
    (hp : Conserved S.chunks ev T.pool) (hcov : Covered S T) (hworth : ReportsWorth S T a)
    (hs : Traffic.Step S ev T a T') :
    Shown S T' (T.counted S p a) := by
  cases hs with
  | pool a ev' P hpool quiet =>
    have hsame : P.completed = T.pool.completed := by
      refine completed_same hpool fun w heq => ?_
      have hquiet := quiet w
      rw [heq, PoolAct.settles, decide_eq_false_iff_not] at hquiet
      exact hquiet rfl
    have hpledges : Traffic.pledges { T with pool := P } = T.pledges := by
      rw [Traffic.pledges, poolStep_workers hpool]
      rfl
    refine ⟨fun hkept => ?_, ?_, h.calls⟩
    · rw [hpledges, Traffic.completedBytes, hsame]
      exact h.bytes fun i hi hlost => hkept i hi (hlost.step hp hpool)
    · rw [hsame]
      exact h.chunks
  | returned w i n putting ev' P hpool call =>
    obtain ⟨item, t, hpc, -⟩ := hst.busy w _ call
    obtain ⟨hcompleted, hbytes⟩ := completedBytes_record { T with pool := P } hsize hst hp hcov hpool call
    refine h.settle hp hpool (pcOf_lt hpc) rfl (fun _ => ?_) fun j hj => ?_
    · rw [pledged_of_call call]
      exact hbytes
    · rw [hcompleted] at hj
      rcases List.mem_append.mp hj with hold | hnew
      · exact h.chunks j hold
      · rw [List.mem_singleton.mp hnew]
        exact h.calls w _ n call rfl
  | failed w a c ev' P hpool settles only call outcome todo kind =>
    obtain ⟨item, t, hpc, -⟩ := hst.busy w _ call
    have hsame : P.completed = T.pool.completed := completed_same hpool kind
    refine h.settle hp hpool (pcOf_lt hpc) rfl (fun _ => ?_) (hsame ▸ h.chunks)
    rw [pledged_of_call call, worth_zero outcome, Traffic.completedBytes, hsame]
    rfl
  | cancelled w ev' P hpool =>
    have hsame : P.completed = T.pool.completed := completed_same hpool fun _ => PoolAct.noConfusion
    have hlt : w < T.pool.workers.length := by
      rw [poolStep] at hpool
      split at hpool
      · rename_i hpc
        exact pcOf_lt hpc
      · cases hpool
    refine h.settle hp hpool hlt rfl (fun hkept => ?_) (hsame ▸ h.chunks)
    -- a worker cancelled in its fetch would lose the chunk
    have hnone : (T.tasks w).pledged = 0 := by
      cases hcall : (T.tasks w).call with
      | none => rw [Task.pledged, hcall]
      | some c =>
        obtain ⟨item, t, hpc, hidx⟩ := hst.busy w c hcall
        exact absurd (cancelled_gone hp hpool hpc hidx) (hkept _ (hst.chunk_mem hp hcall))
    rw [hnone, Traffic.completedBytes, hsame]
    rfl
  | begin w item t att res hands free hfetch =>
    have hbegun : T.begun S (.begin w att) = some res := by
      rw [Traffic.begun, hands]
      exact hfetch
    have hbytes := ProgressState.effects_bytes p res.effects
    rw [reported_worth (hworth res hbegun)] at hbytes
    rw [Traffic.counted, hbegun, Option.elim_some]
    refine ⟨fun hkept => ?_, fun i hi => ProgressState.effects_keeps _ (h.chunks i hi), fun v c n hc hn => ?_⟩
    · have hsum := pledges_update { T with
          tasks := Function.update T.tasks w
            ⟨res.fetcher, some
              { chunkIdx := item.chunkIdx.toNat
                todo := Fetcher.commands res.effects
                outcome := res.outcome }⟩ } (pcOf_lt hands) rfl rfl
      have hfree : (T.tasks w).pledged = 0 := by
        rw [Task.pledged, free]
      rw [hfree, pledged_of_call rfl, Nat.add_zero] at hsum
      rw [hbytes, h.bytes fun i hi hlost => hkept i hi hlost, hsum]
      simp only [Traffic.completedBytes]
      push_cast
      exact add_assoc _ _ _
    · rcases began_some hc with ⟨rfl, rfl⟩ | ⟨-, hc⟩
      · exact ProgressState.effects_adds p (fetch_reports_chunk hfetch hn)
      · exact ProgressState.effects_keeps _ (h.calls v c n hc hn)
  | drop w i cmd rest outcome call stopped =>
    exact h.goOn (d := ⟨i, rest, false, outcome⟩) hst call rfl rfl rfl rfl
  | reach w i cmd rest outcome call running =>
    exact h.goOn (d := ⟨i, cmd :: rest, true, outcome⟩) hst call rfl rfl rfl rfl
  | put w i cmd rest outcome call =>
    exact h.goOn (d := ⟨i, rest, false, outcome⟩) hst call rfl rfl rfl rfl
  | refuse w i cmd rest outcome call =>
    exact h.goOn (d := ⟨i, cmd :: rest, false, outcome⟩) hst call rfl rfl rfl rfl
  | orphanPut | orphanGone => exact ⟨h.bytes, h.chunks, h.calls⟩

/-! ## Runs -/

/-- The completed chunks, each once. -/
structure Listed (S : Setup) (P : WorkerPool) : Prop where
  nodup : P.completed.Nodup
  within : ∀ i ∈ P.completed, i < S.totalChunks
  resumed : ∀ i ∈ S.resumed, i ∈ P.completed

theorem Listed.step {P Q : WorkerPool} {a : PoolAct} (h : Listed S P) (hp : Conserved S.chunks ev P)
    (hpool : poolStep ev P a = some (ev', Q)) : Listed S Q := by
  rcases poolStep_completed hpool with heq | ⟨w, item, t, -, hpc, heq⟩
  · refine ⟨?_, ?_, ?_⟩ <;> rw [heq]
    exacts [h.nodup, h.within, h.resumed]
  · have hmem : item.chunkIdx.toNat ∈ S.chunks :=
      (chunkIdx_of_hands (T := ⟨P, fun _ => ⟨⟨S.metadata, []⟩, none⟩, [], [], [], []⟩) hp hpc).1
    refine ⟨?_, fun i hi => ?_, fun i hi => ?_⟩
    · rw [heq, WorkerPool.record]
      dsimp only
      split
      · exact h.nodup
      · rename_i hfree
        exact List.nodup_append.mpr ⟨h.nodup, List.nodup_singleton _, fun a ha b hb hab =>
          hfree (List.mem_singleton.mp hb ▸ hab ▸ ha)⟩
    · rw [heq] at hi
      rcases mem_record.mp hi with hold | rfl
      · exact h.within i hold
      · exact (mem_chunks.mp hmem).1
    · rw [heq]
      exact mem_record.mpr (Or.inl (h.resumed i hi))

theorem sysStep_begun {s s' : Sys} {a : SysAct} (hs : sysStep S s a = some s') :
    (s'.traffic = s.traffic ∧ s.traffic.begun S a = none) ∨
      Traffic.Step S s.ctl.ev s.traffic a s'.traffic := by
  cases a with
  | begin w att =>
    cases sysStep_moves hs with
    | begin w item t att res hands free h => exact Or.inr (.begin w item t att res hands free h)
  | _ => exact (sysStep_traffic hs).imp_left fun heq => ⟨heq, rfl⟩

structure Displayed (S : Setup) (x : Sys × ProgressState) : Prop where
  sound : Sound S x.1
  covered : Covered S x.1.traffic
  shown : Shown S x.1.traffic x.2
  listed : Listed S x.1.pool
  kept : Workers.Kept S.chunks x.1.ctl.ev x.1.pool
  finished : Finished S.chunks x.1.pool
  success : x.1.ctl.success = true → ∀ i ∈ S.chunks, i ∈ x.1.pool.completed

theorem Displayed.step {x y : Sys × ProgressState} {a : SysAct} (hsize : 0 < S.metadata.totalSize)
    (h : Displayed S x) (hworth : ReportsWorth S x.1.traffic a) (hcalm : a.lossy = false)
    (hbar : barStep S x a = some y) : Displayed S y := by
  obtain ⟨s', hs, rfl⟩ := Option.map_eq_some_iff.mp hbar
  obtain ⟨hsuccess, -, -⟩ := sysStep_advance h.sound.ordered hs
  have hle := sysStep_le h.sound.ordered hs
  refine ⟨h.sound.step hs, ?_, ?_, ?_, ?_, ?_, fun hnow i hi => ?_⟩
  · rcases sysStep_traffic hs with heq | hstep
    · rw [heq]
      exact h.covered
    · exact h.covered.step h.sound.staffed hstep
  · rcases sysStep_begun hs with ⟨heq, hnone⟩ | hstep
    · rw [Traffic.counted, hnone, heq]
      exact h.shown
    · exact h.shown.step hsize h.sound.staffed h.sound.conserved h.covered hworth hstep
  · rcases sysStep_pool hs with ⟨b, rfl, hpool⟩ | ⟨-, heq⟩
    · exact h.listed.step h.sound.conserved hpool
    · rw [heq]
      exact h.listed
  · rcases sysStep_pool hs with ⟨b, rfl, hpool⟩ | ⟨-, heq⟩
    · exact poolStep_kept h.sound.conserved h.kept hcalm hpool
    · rw [heq]
      exact h.kept.le hle
  · rcases sysStep_pool hs with ⟨b, -, hpool⟩ | ⟨-, heq⟩
    · exact poolStep_finished h.sound.conserved h.kept h.finished hpool
    · rw [heq]
      exact h.finished
  · rcases hsuccess hnow with hold | ⟨⟨error, rfl⟩, -⟩
    · exact completed_mono hs i (h.success hold i hi)
    · obtain ⟨hrun, hpool⟩ := poolReturns_ready hs
      rw [hpool]
      exact h.finished (by rw [hrun]; rfl) i hi

theorem Displayed.init {p₀ : ProgressState} (hsize : 0 < S.metadata.totalSize) (hnodup : S.resumed.Nodup)
    (hwithin : ∀ i ∈ S.resumed, i < S.totalChunks)
    (hstart : start S.metadata.totalSize S.cfg.chunkSize (indexSet S.resumed) = some p₀) :
    Displayed S (Sys.init S, p₀) := by
  have hcompleted : (Sys.init S).pool.completed = S.resumed := hnodup.dedup
  have hstarts : ∀ i ∈ S.resumed, i * S.cfg.chunkSize < S.metadata.totalSize.toNat := by
    intro i hi
    have := (chunk_start_lt hsize (hwithin i hi)).2
    omega
  rw [start_indexSet hsize hstarts] at hstart
  obtain rfl := Option.some.inj hstart
  refine ⟨Sound.init S, (SaveSound.init S).covered, ⟨fun _ => ?_, fun i hi => ?_, fun w c n hc => (by cases hc)⟩,
    ⟨?_, ?_, ?_⟩, ?_, fun h => (by cases h), fun h => (by cases h)⟩
  · have hpledges : (Sys.init S).traffic.pledges = 0 := Finset.sum_eq_zero fun w _ => rfl
    rw [hpledges, Traffic.completedBytes, Nat.add_zero]
    change _ = (((Sys.init S).pool.completed.map (blockLength S.size S.cfg.chunkSize)).sum : ℚ)
    rw [hcompleted]
    rfl
  · have hmem : i ∈ S.resumed := hcompleted ▸ hi
    exact inSet_indexSet.trans (decide_eq_true hmem)
  · exact hcompleted ▸ hnodup
  · rw [hcompleted]
    exact hwithin
  · rw [hcompleted]
    exact fun i => id
  · refine init_kept _ _ _ (chunks_nodup S) fun i hi hmem => ?_
    exact (mem_chunks.mp hi).2 (List.mem_dedup.mp hmem)

/-- When every chunk is completed, the bar is full. -/
theorem Displayed.full {x : Sys × ProgressState} (hsize : 0 < S.metadata.totalSize) (hchunk : 0 < S.cfg.chunkSize)
    (h : Displayed S x) (hall : ∀ i ∈ S.chunks, i ∈ x.1.pool.completed) :
    x.2.completedBytes = S.metadata.totalSize ∧ ∀ i < S.totalChunks, inSet x.2.completedChunks i = true := by
  have hmem : ∀ i, i ∈ x.1.pool.completed ↔ i < S.totalChunks := by
    refine fun i => ⟨h.listed.within i, fun hi => ?_⟩
    by_cases hres : i ∈ S.resumed
    · exact h.listed.resumed i hres
    · exact hall i (mem_chunks.mpr ⟨hi, hres⟩)
  have hkept : ∀ i ∈ S.chunks, ¬ Gone x.1.traffic i := fun i hi hgone => hgone.not_completed (hall i hi)
  have hpledges : x.1.traffic.pledges = 0 := by
    apply Finset.sum_eq_zero
    intro w _
    cases hcall : (x.1.tasks w).call with
    | none =>
      change (x.1.tasks w).pledged = 0
      rw [Task.pledged, hcall]
    | some c =>
      obtain ⟨item, t, hpc, hidx⟩ := h.sound.staffed.busy w c hcall
      have hdone := hall _ (h.sound.staffed.chunk_mem h.sound.conserved hcall)
      exact absurd hdone (not_completed_of_hands h.sound.conserved hpc hidx)
  have hbytes : x.1.traffic.completedBytes S = S.size := by
    have hperm : x.1.pool.completed.Perm (List.range S.totalChunks) :=
      (List.perm_ext_iff_of_nodup h.listed.nodup List.nodup_range).mpr fun i =>
        (hmem i).trans List.mem_range.symm
    calc x.1.traffic.completedBytes S
        = ((List.range S.totalChunks).map (blockLength S.size S.cfg.chunkSize)).sum := (hperm.map _).sum_eq
      _ = S.size := by
          rw [totalChunks_eq_count hsize hchunk]
          exact sum_blockLength hchunk
  refine ⟨?_, fun i hi => h.shown.chunks i ((hmem i).mpr hi)⟩
  rw [h.shown.bytes hkept, hbytes, hpledges, Nat.add_zero, Setup.size]
  have hcast : ((S.metadata.totalSize.toNat : ℕ) : ℤ) = S.metadata.totalSize := Int.toNat_of_nonneg hsize.le
  exact_mod_cast congrArg (Int.cast (R := ℚ)) hcast

/-- A run that ends with `COMPLETED` leaves the bar full, with the bytes of the file and all its chunks, when
every fetch reports what it is worth and the health tracker never raises. -/
theorem bar_full {as : List SysAct} {p₀ : ProgressState} {s : Sys} (hsize : 0 < S.metadata.totalSize)
    (hchunk : 0 < S.cfg.chunkSize) (hnodup : S.resumed.Nodup) (hwithin : ∀ i ∈ S.resumed, i < S.totalChunks)
    (hstart : start S.metadata.totalSize S.cfg.chunkSize (indexSet S.resumed) = some p₀)
    (hworth : Guarded (barStep S) (fun x a => ReportsWorth S x.1.traffic a ∧ a.lossy = false)
      (Sys.init S, p₀) as)
    (hrun : exec (barStep S) (Sys.init S, p₀) as = some (s, p)) {r : DownloadResult}
    (hreturned : s.ctl.outcome = some (.returned r)) (hcompleted : r.status = .completed) :
    p.completedBytes = S.metadata.totalSize ∧ ∀ i < S.totalChunks, inSet p.completedChunks i = true := by
  have h := exec_guarded (P := Displayed S) (fun _ _ _ h hg hs => h.step hsize hg.1 hg.2 hs)
    (Displayed.init hsize hnodup hwithin hstart) hworth hrun
  have haccounted := h.sound.ordered.accounted
  obtain ⟨hsuccess, -⟩ := haccounted.cleared (haccounted.outcome r hreturned hcompleted)
  exact h.full hsize hchunk (h.success hsuccess)

end

instance (res : Fetcher.FetchResult) : Decidable res.Balanced := by
  unfold Fetcher.FetchResult.Balanced
  split <;> infer_instance

instance (S : Setup) (T : Traffic) (a : SysAct) : Decidable (ReportsWorth S T a) := by
  unfold ReportsWorth
  infer_instance

/-- The bar of four bytes of which the first two were resumed from. -/
def halfFull : ProgressState :=
  { totalBytes := 4, totalChunks := 2, completedChunks := indexSet [0], completedBytes := (2 : ℕ) }

theorem bar_full_secondRun : ∃ s p,
    exec (barStep secondRun) (Sys.init secondRun, halfFull) secondQueued = some (s, p) ∧ p.completedBytes = 4 := by
  obtain ⟨⟨s, p⟩, hrun, hreturned⟩ : ∃ x,
      exec (barStep secondRun) (Sys.init secondRun, halfFull) secondQueued = some x ∧
        x.1.ctl.outcome = some (.returned ⟨.completed, true, none, none⟩) :=
    ⟨(exec (barStep secondRun) (Sys.init secondRun, halfFull) secondQueued).get (by decide +kernel),
      (Option.some_get _).symm, by decide +kernel⟩
  have hstart : start 4 2 (indexSet [0]) = some halfFull := start_indexSet (by decide) (by decide)
  exact ⟨s, p, hrun, (bar_full (by decide) (by decide) (by decide) (by decide +kernel) hstart (by decide +kernel)
    hrun hreturned rfl).1⟩

end Mrdl.System
