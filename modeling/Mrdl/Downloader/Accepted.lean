import Mathlib.Data.Set.Defs
import Mrdl.Prober.Core
import Mrdl.Session.Core
import Mrdl.Workers.Pause

/-! # Every configuration that is accepted

`Downloader.__init__` tests the checksum and the two speed caps and nothing else. `chunk_size` and
`threads_per_mirror` come as integers of either sign to the division in `compute_total_chunks`, to the range
of the queue, to the buffer of the fetcher and to the loop that creates the workers. They are followed here
with their signs. A `chunk_size` above zero is what keeps `run` from succeeding on nothing
(`accepted_downloads_iff`).
-/

namespace Mrdl.Accepted
open Workers Runs
set_option autoImplicit false

/-! ## `Downloader.__init__` -/

/-- A `DownloadConfig` as it is given: what `__init__` checks, and what decides how the file is cut and by
how many workers it is fetched. -/
structure GivenConfig where
  urls : String ⊕ List String
  threadsPerMirror : ℤ := 1
  chunkSize : ℤ := 64 * 1024 * 1024
  checksum : Option String := none
  maxSpeedKbps : Option ℤ := none
  maxSpeedPerThreadKbps : Option ℤ := none
  deriving DecidableEq, Repr

/-- What `__init__` keeps of it. -/
structure Settings where
  urls : List String
  threadsPerMirror : ℤ
  chunkSize : ℤ
  hashSpec : Option HashSpec
  deriving DecidableEq, Repr

/-- `hashlib.algorithms_available` and `hashlib.algorithms_guaranteed`. -/
structure Hashlib where
  available : List String
  guaranteed : List String

/-- The white space of `str.strip`. -/
def isWhite (c : Char) : Bool := Prober.isSpace c || 0x1c ≤ c.toNat && c.toNat ≤ 0x1f

def strip (s : List Char) : List Char := ((s.dropWhile isWhite).reverse.dropWhile isWhite).reverse

/-- `str.lower` of a character, as far as the name of an algorithm can come of it: outside ASCII only the
Kelvin sign has an ASCII lower case. -/
def lower (c : Char) : Char := if c = Char.ofNat 0x212a then 'k' else c.toLower

/-- `HashSpec.parse`. -/
def parse (lib : Hashlib) (hashStr : String) : Except String HashSpec :=
  if hashStr = "" then .error "hash string must not be empty"
  else
    let chars := hashStr.toList
    let algo := String.ofList ((strip (chars.takeWhile (· ≠ ':'))).map lower)
    let expected :=
      if ':' ∈ chars then some (String.ofList (strip ((chars.dropWhile (· ≠ ':')).drop 1))) else none
    if algo ∈ lib.available then .ok ⟨algo, expected⟩
    else
      .error ("Unsupported hash algorithm '" ++ algo ++ "'. Guaranteed-available algorithms: " ++
        String.intercalate ", " (lib.guaranteed.mergeSort fun a b => decide (a ≤ b)))

/-- An absent checksum and an empty one are no checksum. -/
def parseChecksum (lib : Hashlib) : Option String → Except String (Option HashSpec)
  | none => .ok none
  | some checksum => if checksum = "" then .ok none else (parse lib checksum).map some

/-- The test of a speed cap. -/
def checkSpeed (field : String) : Option ℤ → Except String Unit
  | none => .ok ()
  | some kbps =>
      if kbps ≤ 0 then .error (field ++ " must be a positive integer, got " ++ toString kbps) else .ok ()

def GivenConfig.settings (config : GivenConfig) (hashSpec : Option HashSpec) : Settings where
  urls := config.urls.elim (fun url => [url]) id
  threadsPerMirror := config.threadsPerMirror
  chunkSize := config.chunkSize
  hashSpec := hashSpec

/-- `Downloader.__init__`. -/
def init (lib : Hashlib) (config : GivenConfig) : Except String Settings := do
  let hashSpec ← parseChecksum lib config.checksum
  checkSpeed "max_speed_kbps" config.maxSpeedKbps
  checkSpeed "max_speed_per_thread_kbps" config.maxSpeedPerThreadKbps
  return config.settings hashSpec

section
variable {lib : Hashlib} {config : GivenConfig} {s : Settings}

theorem checkSpeed_ok (field : String) {cap : Option ℤ} :
    checkSpeed field cap = .ok () ↔ ∀ kbps ∈ cap, 0 < kbps := by
  cases cap with
  | none => simp [checkSpeed]
  | some kbps =>
    by_cases hle : kbps ≤ 0
    · simp [checkSpeed, hle]
    · simp [checkSpeed, hle, not_le.mp hle]

/-- What is accepted: no chunk size and no number of threads is turned away. -/
theorem init_ok_iff : init lib config = .ok s ↔
    parseChecksum lib config.checksum = .ok s.hashSpec ∧ (∀ kbps ∈ config.maxSpeedKbps, 0 < kbps) ∧
      (∀ kbps ∈ config.maxSpeedPerThreadKbps, 0 < kbps) ∧ s = config.settings s.hashSpec := by
  rw [← checkSpeed_ok "max_speed_kbps", ← checkSpeed_ok "max_speed_per_thread_kbps"]
  unfold init
  cases parseChecksum lib config.checksum with
  | error e => simp [bind, Except.bind]
  | ok spec =>
    cases checkSpeed "max_speed_kbps" config.maxSpeedKbps with
    | error e => simp [bind, Except.bind]
    | ok _ =>
      cases checkSpeed "max_speed_per_thread_kbps" config.maxSpeedPerThreadKbps with
      | error e => simp [bind, Except.bind]
      | ok _ =>
        simp only [bind, Except.bind, pure, Except.pure, Except.ok.injEq, true_and]
        constructor
        · rintro rfl
          exact ⟨rfl, rfl⟩
        · rintro ⟨rfl, hs⟩
          exact hs.symm

end

/-! ## From the probe to `run` -/

/-- `_apply_probe_fallback`, with the test in front of it. -/
def applyProbeFallback (s : Settings) (m : FileMetadata) : Settings :=
  if m.totalSize = 0 ∨ m.acceptsRanges = false then
    { s with
      threadsPerMirror := 1
      urls := s.urls.take 1
      chunkSize := if m.totalSize > 0 then m.totalSize else fallbackUnknownSizeChunk }
  else s

/-- `compute_total_chunks`; `none` is a `ZeroDivisionError`. -/
def computeTotalChunks (totalSize chunkSize : ℤ) : Option ℤ :=
  if totalSize ≤ 0 then some 1
  else if chunkSize = 0 then none
  else some ((totalSize + chunkSize - 1).fdiv chunkSize)

/-- `build_chunk_queue` with nothing completed. The range of a negative number is empty. -/
def buildChunkQueue (totalChunks : ℤ) : List Entry :=
  (List.range totalChunks.toNat).map fun i => (0, i, 0)

/-- The pool on which `start` calls `run`, in a fresh run. -/
def newPool (s : Settings) (m : FileMetadata) (ev : Events) (health : MirrorHealthTracker) :
    Option TrackedPool :=
  (computeTotalChunks m.totalSize s.chunkSize).map fun totalChunks =>
    .init ev health s.urls s.threadsPerMirror.toNat (buildChunkQueue totalChunks) []

/-- The length of the buffer that `ChunkFetcher.__init__` allocates; `bytearray` raises when it is
negative. -/
def bufferLength (chunkSize : ℤ) : ℤ := min (16 * 1024 * 1024) chunkSize

/-- A worker that wakes gets a fetcher only with a buffer. -/
def Builds (chunkSize : ℤ) : TrackedAct → Prop
  | .pool (.wake _ factoryRaises) => bufferLength chunkSize < 0 → factoryRaises = true
  | _ => True

instance (chunkSize : ℤ) (a : TrackedAct) : Decidable (Builds chunkSize a) := by
  unfold Builds
  split <;> infer_instance

/-- A step of the pool, with the fetchers of these settings. -/
def step (s : Settings) (p : TrackedPool) (a : TrackedAct) : Option TrackedPool :=
  if Builds s.chunkSize a then trackedStep s.urls p a else none

/-- In the course of the run a fetch of chunk `i` returns. -/
def Returned (s : Settings) (p₀ : TrackedPool) (acts : List TrackedAct) (i : ℤ) : Prop :=
  ∃ before w after p item t, acts = before ++ .pool (.fetchReturned w) :: after ∧
    exec (step s) p₀ before = some p ∧ p.pool.pcOf w = some (.fetching item t) ∧ item.chunkIdx = i

/-- The bytes from `start` to `end` in `fetch`. -/
def requested (totalSize chunkSize i : ℤ) : Set ℤ :=
  {b | i * chunkSize ≤ b ∧ b ≤ min (i * chunkSize + chunkSize - 1) (totalSize - 1)}

/-! ## The number of chunks -/

section
variable {totalSize chunkSize n : ℤ}

theorem computeTotalChunks_some (totalSize : ℤ) (hchunk : chunkSize ≠ 0) :
    ∃ n, computeTotalChunks totalSize chunkSize = some n := by
  by_cases hsize : totalSize ≤ 0
  · exact ⟨1, if_pos hsize⟩
  · rw [computeTotalChunks, if_neg hsize, if_neg hchunk]
    exact ⟨_, rfl⟩

/-- For a positive chunk size it is the number of the other modules. -/
theorem computeTotalChunks_natCast {chunkSize : ℕ} (hsize : 0 < totalSize) (hchunk : 0 < chunkSize) :
    computeTotalChunks totalSize chunkSize = some (Session.computeTotalChunks totalSize chunkSize : ℤ) := by
  have hne : (chunkSize : ℤ) ≠ 0 := by omega
  rw [computeTotalChunks, if_neg (not_le.mpr hsize), if_neg hne, Session.computeTotalChunks_cast hsize,
    Int.fdiv_eq_ediv_of_nonneg _ (Int.natCast_nonneg chunkSize)]

/-- For a negative chunk size there is one chunk, of a file of one byte, or none. -/
theorem computeTotalChunks_neg (hsize : 0 < totalSize) (hchunk : chunkSize < 0)
    (h : computeTotalChunks totalSize chunkSize = some n) : if totalSize = 1 then n = 1 else n ≤ 0 := by
  rw [computeTotalChunks, if_neg (not_le.mpr hsize), if_neg hchunk.ne, Option.some.injEq] at h
  split
  · rename_i hone
    have hcancel : totalSize + chunkSize - 1 = chunkSize * 1 := by omega
    rw [hcancel, Int.mul_fdiv_cancel_left _ hchunk.ne] at h
    exact h.symm
  · -- the quotient of a dividend above `chunkSize`, by `chunkSize`
    have hdivide := Int.mul_fdiv_add_fmod (-(totalSize + chunkSize - 1)) (-chunkSize)
    have hrest := Int.fmod_nonneg_of_pos (-(totalSize + chunkSize - 1)) (neg_pos.mpr hchunk)
    rw [Int.neg_fdiv_neg, h] at hdivide
    by_contra hpos
    have hle : -chunkSize * 1 ≤ -chunkSize * n := Int.mul_le_mul_of_nonneg_left (by omega) (by omega)
    omega

theorem mem_buildChunkQueue {e : Entry} : e ∈ buildChunkQueue n ↔ ∃ i : ℕ, (i : ℤ) < n ∧ e = (0, i, 0) := by
  simp only [buildChunkQueue, List.mem_map, List.mem_range, Int.lt_toNat]
  exact exists_congr fun i => and_congr_right fun _ => eq_comm

/-- Every byte is in the range of one of the chunks. -/
theorem requested_cover (hsize : 0 < totalSize) (hchunk : 0 < chunkSize)
    (h : computeTotalChunks totalSize chunkSize = some n) {b : ℤ} (hb : 0 ≤ b) (hlt : b < totalSize) :
    ∃ i : ℕ, (i : ℤ) < n ∧ b ∈ requested totalSize chunkSize i := by
  obtain ⟨width, rfl⟩ := Int.eq_ofNat_of_zero_le hchunk.le
  obtain ⟨size, rfl⟩ := Int.eq_ofNat_of_zero_le hsize.le
  obtain ⟨byte, rfl⟩ := Int.eq_ofNat_of_zero_le hb
  have hwidth : 0 < width := by omega
  rw [computeTotalChunks_natCast hsize hwidth, Session.computeTotalChunks_eq_count hsize hwidth,
    Option.some.injEq, Int.toNat_natCast] at h
  obtain ⟨hfirst, hlast⟩ := (Tiling.mem_block hwidth).mpr ⟨Int.ofNat_lt.mp hlt, rfl⟩
  refine ⟨byte / width, ?_, ?_, ?_⟩
  · rw [← h, Nat.cast_lt, Tiling.lt_count_iff hwidth]
    omega
  · exact_mod_cast hfirst
  · unfold Tiling.blockLength at hlast
    have hcast : ((byte / width : ℕ) : ℤ) * width = (byte / width * width : ℕ) := (Nat.cast_mul ..).symm
    rw [le_min_iff, hcast]
    omega

end

/-! ## What a run completes -/

section
variable {s : Settings} {p q : TrackedPool} {a : TrackedAct} {acts : List TrackedAct}

theorem step_some (hs : step s p a = some q) : Builds s.chunkSize a ∧ trackedStep s.urls p a = some q := by
  rw [step, Option.ite_none_right_eq_some] at hs
  exact hs

/-- A run with these fetchers is a run of the pool. -/
theorem run_tracked (hrun : exec (step s) p acts = some q) : exec (trackedStep s.urls) p acts = some q := by
  induction acts generalizing p with
  | nil => exact hrun
  | cons a acts ih =>
    obtain ⟨r, hs, hrest⟩ := exec_cons.mp hrun
    exact exec_cons.mpr ⟨r, (step_some hs).2, ih hrest⟩

/-- A chunk is completed by a fetch that returns, or was before. -/
theorem step_completed {i : ℕ} (horder : InOrder p.pool) (hs : step s p a = some q) (hi : i ∈ q.pool.completed) :
    i ∈ p.pool.completed ∨ ∃ w item t, a = .pool (.fetchReturned w) ∧
      p.pool.pcOf w = some (.fetching item t) ∧ item.chunkIdx = i := by
  have hpool : ∀ b, poolStep p.ev p.pool b = some (q.ev, q.pool) → i ∈ p.pool.completed ∨
      ∃ w item t, b = .fetchReturned w ∧ p.pool.pcOf w = some (.fetching item t) ∧ item.chunkIdx = i := by
    intro b hb
    rcases poolStep_completed hb with heq | ⟨w, item, t, hret, hpc, heq⟩
    · exact .inl (heq ▸ hi)
    · rw [heq, mem_record] at hi
      refine hi.imp id fun hidx => ⟨w, item, t, hret, hpc, ?_⟩
      rw [hidx, Int.toNat_of_nonneg (horder.hands w item t hpc)]
  cases trackedStep_moves (step_some hs).2 with
  | pool b free step health =>
    refine (hpool b step).imp id ?_
    rintro ⟨w, item, t, rfl, hpc, hidx⟩
    exact ⟨w, item, t, rfl, hpc, hidx⟩
  | get w source here step health => exact .inl ((hpool _ step).resolve_right (by rintro ⟨_, _, _, h, -⟩; cases h))
  | failed w e source here record step =>
    exact .inl ((hpool _ step).resolve_right (by rintro ⟨_, _, _, h, -⟩; cases h))
  | unreadable w e header step health =>
    exact .inl ((hpool _ step).resolve_right (by rintro ⟨_, _, _, h, -⟩; cases h))
  | events ev le next =>
    subst next
    exact .inl hi

theorem run_completed {i : ℕ} (horder : InOrder p.pool) (hrun : exec (step s) p acts = some q)
    (hi : i ∈ q.pool.completed) : i ∈ p.pool.completed ∨ Returned s p acts i := by
  induction acts generalizing p with
  | nil =>
    cases hrun
    exact .inl hi
  | cons a acts ih =>
    obtain ⟨r, hs, hrest⟩ := exec_cons.mp hrun
    rcases ih (trackedStep_inOrder horder (step_some hs).2) hrest with hdone | hlater
    · refine (step_completed horder hs hdone).imp id ?_
      rintro ⟨w, item, t, rfl, hpc, hidx⟩
      exact ⟨[], w, acts, p, item, t, rfl, rfl, hpc, hidx⟩
    · obtain ⟨before, w, after, u, item, t, rfl, hbefore, hpc, hidx⟩ := hlater
      exact .inr ⟨a :: before, w, after, u, item, t, rfl, exec_cons.mpr ⟨r, hs, hbefore⟩, hpc, hidx⟩

end

/-! ## Without a fetcher -/

/-- No worker has got past its start. -/
def Unbuilt (p : WorkerPool) : Prop := ∀ w pc, p.pcOf w = some pc → pc = .startup ∨ pc = .exited

section
variable {ev ev' : Events} {p q : WorkerPool} {b : PoolAct}

theorem Unbuilt.congr (h : Unbuilt p) (hw : q.workers = p.workers) : Unbuilt q := by
  intro w pc hpc
  rw [WorkerPool.pcOf, hw] at hpc
  exact h w pc hpc

theorem Unbuilt.exits {r : WorkerPool} (h : Unbuilt p) {w : ℕ} {pc : WorkerPc} (hpc : p.pcOf w = some pc)
    (hr : r.workers = (p.move w .exited).workers) : Unbuilt r := by
  intro v e he
  rw [WorkerPool.pcOf, hr] at he
  by_cases hv : v = w
  · subst hv
    have hself := (move_pcOf_self hpc .exited).symm.trans he
    exact .inr (Option.some.inj hself).symm
  · exact h v e ((move_pcOf_other hv .exited).symm.trans he)

theorem Unbuilt.stuck (h : Unbuilt p) {w : ℕ} {pc : WorkerPc} (hpc : p.pcOf w = some pc)
    (hstart : pc ≠ .startup) (hexit : pc ≠ .exited) : False :=
  (h w pc hpc).elim hstart hexit

theorem poolStep_unbuilt (h : Unbuilt p) (hwake : ∀ w raises, b = .wake w raises → raises = true)
    (hs : poolStep ev p b = some (ev', q)) : Unbuilt q := by
  cases b with
  | wake w raises =>
    simp only [poolStep] at hs
    split at hs <;> cases hs
    rename_i hpc
    rw [hwake w raises rfl, if_pos rfl]
    exact h.exits hpc rfl
  | workerCancelled w =>
    simp only [poolStep] at hs
    split at hs
    · rename_i pc hrun hpc
      split at hs
      · cases hs
      · split at hs <;> cases hs
        · exact h.exits hpc rfl
        · exact h.exits hpc rfl
    · cases hs
  | openGate w | passGate w | getTimeout w | slept w | fetchReturned w | fetchStopped w | fetchFailed w _ _ _ =>
    simp only [poolStep] at hs
    split at hs
    · rename_i hpc
      exact (h.stuck hpc (by simp) (by simp)).elim
    · cases hs
  | get w banned allBanned =>
    simp only [poolStep] at hs
    split at hs
    · rename_i hpc hqueue
      exact (h.stuck hpc (by simp) (by simp)).elim
    · cases hs
  | runWakes joinDone =>
    simp only [poolStep, Option.ite_none_right_eq_some, Option.some.injEq, Prod.mk.injEq] at hs
    obtain ⟨-, -, rfl⟩ := hs
    obtain ⟨n, hn⟩ := leave_spec p (.returned (joinDone && !ev.stopEvent))
    exact h.congr hn.workers
  | runCancelled =>
    simp only [poolStep] at hs
    split at hs <;> cases hs
    · obtain ⟨n, hn⟩ := leave_spec p .cancelled
      exact h.congr hn.workers
    · exact h
  | runEnds =>
    simp only [poolStep] at hs
    split at hs <;> cases hs
    exact h
  | joinReturns | tick d =>
    simp only [poolStep, Option.ite_none_right_eq_some, Option.some.injEq, Prod.mk.injEq] at hs
    obtain ⟨-, -, rfl⟩ := hs
    exact h

/-- Nobody works, and `run` has not got past its wait but by an exception. -/
def Idle (p : WorkerPool) : Prop := p.workers = [] ∧ (∀ result, p.run ≠ .leaving result) ∧ p.run.succeeds = false

theorem poolStep_idle (h : Idle p) (hs : poolStep ev p b = some (ev', q)) : Idle q := by
  obtain ⟨hnone, hleaving, hfails⟩ := h
  have hpc : ∀ w pc, p.pcOf w ≠ some pc := by
    intro w pc
    rw [WorkerPool.pcOf, hnone]
    exact (Option.some_ne_none pc).symm
  have hleave : ∀ result, Idle (p.leave result) := by
    intro result
    rw [WorkerPool.leave, if_pos hnone]
    exact ⟨hnone, fun _ => RunPc.noConfusion, rfl⟩
  cases poolStep_moves hs with
  | wakes | stopped => exact hleave _
  | cancelled result run | ends result run => exact absurd run (hleaving result)
  | joined | tick => exact ⟨hnone, hleaving, hfails⟩
  | _ => exact absurd ‹p.pcOf _ = some _› (hpc _ _)

end

section
variable {s : Settings} {m : FileMetadata} {ev : Events} {health : MirrorHealthTracker} {p q : TrackedPool}
  {acts : List TrackedAct}

theorem run_unbuilt (hbuffer : bufferLength s.chunkSize < 0) (h : Unbuilt p.pool)
    (hrun : exec (step s) p acts = some q) : Unbuilt q.pool := by
  refine exec_invariant (P := fun p => Unbuilt p.pool) (fun p a q hp hs => ?_) h hrun
  obtain ⟨hbuilds, htracked⟩ := step_some hs
  cases trackedStep_moves htracked with
  | pool b free pstep health =>
    refine poolStep_unbuilt hp ?_ pstep
    rintro w raises rfl
    exact hbuilds hbuffer
  | get w source here pstep health => exact poolStep_unbuilt hp (fun _ _ h => by cases h) pstep
  | failed w e source here record pstep => exact poolStep_unbuilt hp (fun _ _ h => by cases h) pstep
  | unreadable w e header pstep health => exact poolStep_unbuilt hp (fun _ _ h => by cases h) pstep
  | events ev le next =>
    subst next
    exact hp

/-- Without a buffer no fetch returns. -/
theorem not_returned (hbuffer : bufferLength s.chunkSize < 0) (h : Unbuilt p.pool) (i : ℤ) :
    ¬ Returned s p acts i := by
  rintro ⟨before, w, after, u, item, t, -, hbefore, hpc, -⟩
  exact (run_unbuilt hbuffer h hbefore).stuck hpc (by simp) (by simp)

theorem run_idle (h : Idle p.pool) (hrun : exec (step s) p acts = some q) : Idle q.pool := by
  refine exec_invariant (P := fun p => Idle p.pool) (fun p a q hp hs => ?_) h hrun
  rcases trackedStep_pool (step_some hs).2 with ⟨ev, -, -, rfl⟩ | ⟨b, hb⟩
  · exact hp
  · exact poolStep_idle hp hb

theorem step_pool {b : PoolAct} {pool : WorkerPool} (hbuilds : Builds s.chunkSize (.pool b))
    (hfree : b.tracked = false) (hb : poolStep p.ev p.pool b = some (ev, pool)) :
    step s p (.pool b) = some ⟨ev, pool, p.health⟩ := by
  rw [step, if_pos hbuilds, trackedStep, hfree, TrackedPool.poolMove, hb]
  rfl

/-- On an empty queue `run` succeeds at once, when there is somebody to send a sentinel to. -/
theorem empty_queue_succeeds (hqueue : p.pool.unfinished = 0) (hwaiting : p.pool.run = .waiting)
    (hstop : p.ev.stopEvent = false) (hworkers : p.pool.workers ≠ []) :
    ∃ q, exec (step s) p [.pool .joinReturns, .pool (.runWakes true), .pool .runEnds] = some q ∧
      q.pool.run = .ended (.returned true) := by
  have hjoin : poolStep p.ev p.pool .joinReturns = some (p.ev, { p.pool with joined := true }) :=
    if_pos ⟨hqueue, hwaiting⟩
  obtain ⟨left, hleft⟩ : ∃ left, WorkerPool.leave { p.pool with joined := true } (.returned true) = left :=
    ⟨_, rfl⟩
  have hwakes : poolStep p.ev { p.pool with joined := true } (.runWakes true) = some (p.ev, left) := by
    have hresult : (true && !p.ev.stopEvent) = true := by rw [hstop]; rfl
    rw [poolStep, if_pos ⟨hwaiting, rfl⟩, hresult, hleft]
  have hrun : left.run = .leaving (.returned true) := by
    rw [← hleft, WorkerPool.leave, if_neg hworkers]
  have hends : poolStep p.ev left .runEnds = some (p.ev, { left with run := .ended (.returned true) }) := by
    rw [poolStep, hrun]
  refine ⟨⟨p.ev, { left with run := .ended (.returned true) }, p.health⟩, ?_, rfl⟩
  exact exec_cons.mpr ⟨_, step_pool trivial rfl hjoin, exec_cons.mpr ⟨_, step_pool trivial rfl hwakes,
    exec_cons.mpr ⟨_, step_pool trivial rfl hends, rfl⟩⟩⟩

theorem newPool_some (h : newPool s m ev health = some p) : ∃ n, computeTotalChunks m.totalSize s.chunkSize = some n ∧
    p = .init ev health s.urls s.threadsPerMirror.toNat (buildChunkQueue n) [] := by
  obtain ⟨n, hn, rfl⟩ := Option.map_eq_some_iff.mp h
  exact ⟨n, hn, rfl⟩

theorem newPool_unbuilt (h : newPool s m ev health = some p) : Unbuilt p.pool := by
  obtain ⟨n, -, rfl⟩ := newPool_some h
  intro w pc hpc
  obtain ⟨x, hx, rfl⟩ := pcOf_mem hpc
  have hstart : x ∈ (WorkerPool.init s.urls s.threadsPerMirror.toNat [] []).workers := hx
  exact .inl (init_startup hstart)

theorem newPool_workers (h : newPool s m ev health = some p) :
    p.pool.workers = [] ↔ s.urls = [] ∨ s.threadsPerMirror ≤ 0 := by
  obtain ⟨n, -, rfl⟩ := newPool_some h
  show s.urls.flatMap (fun url => List.replicate s.threadsPerMirror.toNat (⟨url, .startup⟩ : Worker)) = [] ↔
    s.urls = [] ∨ s.threadsPerMirror ≤ 0
  rw [List.flatMap_eq_nil_iff, ← Int.toNat_eq_zero]
  cases s.urls with
  | nil => simp
  | cons url urls =>
    simp only [List.replicate_eq_nil_iff, List.cons_ne_nil, false_or]
    exact ⟨fun hall => hall url (List.mem_cons_self ..), fun hzero _ _ => hzero⟩

/-- `run` returns `True` only after the fetch of every chunk of its queue has returned. -/
theorem queued_returned {n : ℤ} (hnew : newPool s m ev health = some p)
    (hn : computeTotalChunks m.totalSize s.chunkSize = some n) (hrun : exec (step s) p acts = some q)
    (hread : ∀ a ∈ acts, a.unreadable = false) (htrue : q.pool.run = .ended (.returned true)) {i : ℕ}
    (hi : (i : ℤ) < n) : Returned s p acts i := by
  obtain ⟨n', hn', rfl⟩ := newPool_some hnew
  cases hn.symm.trans hn'
  have hdone := run_true_completes (run_tracked hrun) hread htrue _ (mem_buildChunkQueue.mpr ⟨i, hi, rfl⟩)
  exact (run_completed (init_inOrder ..) hrun hdone).resolve_left List.not_mem_nil

end

/-! ## What keeps `run` from succeeding on nothing -/

/-- The number of chunks can be computed, and `run` returns `True` only after fetches have returned whose
ranges cover the file. Left out are the runs in which a failure cannot be recorded. -/
structure Downloads (s : Settings) (m : FileMetadata) : Prop where
  divides : computeTotalChunks m.totalSize s.chunkSize ≠ none
  covers : ∀ (ev : Events) (health : MirrorHealthTracker) (acts : List TrackedAct) (p q : TrackedPool),
    newPool s m ev health = some p → exec (step s) p acts = some q → (∀ a ∈ acts, a.unreadable = false) →
      q.pool.run = .ended (.returned true) →
        ∀ b, 0 ≤ b → b < m.totalSize → ∃ i, Returned s p acts i ∧ b ∈ requested m.totalSize s.chunkSize i

section
variable {s : Settings} {m : FileMetadata}

theorem downloads_of_pos (hsize : 0 < m.totalSize) (hchunk : 0 < s.chunkSize) : Downloads s m := by
  obtain ⟨n, hn⟩ := computeTotalChunks_some m.totalSize hchunk.ne'
  refine ⟨hn ▸ Option.some_ne_none n, fun ev health acts p q hnew hrun hread htrue b hb hlt => ?_⟩
  obtain ⟨i, hi, hmem⟩ := requested_cover hsize hchunk hn hb hlt
  exact ⟨i, queued_returned hnew hn hrun hread htrue hi, hmem⟩

theorem bufferLength_neg (hchunk : s.chunkSize < 0) : bufferLength s.chunkSize < 0 :=
  (min_le_right _ _).trans_lt hchunk

/-- The one chunk of a file of one byte is in the queue, and nobody can fetch it. -/
theorem downloads_of_one (hsize : m.totalSize = 1) (hchunk : s.chunkSize < 0) : Downloads s m := by
  obtain ⟨n, hn⟩ := computeTotalChunks_some m.totalSize hchunk.ne
  have hone : n = 1 := by
    have h := computeTotalChunks_neg (by omega) hchunk hn
    rwa [if_pos hsize] at h
  refine ⟨hn ▸ Option.some_ne_none n, fun ev health acts p q hnew hrun hread htrue b hb hlt => ?_⟩
  have hreturned := queued_returned (i := 0) hnew hn hrun hread htrue (by omega)
  exact absurd hreturned (not_returned (bufferLength_neg hchunk) (newPool_unbuilt hnew) 0)

/-- `asyncio.wait` raises on no workers. -/
theorem downloads_of_idle (hchunk : s.chunkSize ≠ 0) (hidle : s.urls = [] ∨ s.threadsPerMirror ≤ 0) :
    Downloads s m := by
  obtain ⟨n, hn⟩ := computeTotalChunks_some m.totalSize hchunk
  refine ⟨hn ▸ Option.some_ne_none n, fun ev health acts p q hnew hrun hread htrue b hb hlt => ?_⟩
  have hstart : Idle p.pool := by
    refine ⟨(newPool_workers hnew).mpr hidle, ?_⟩
    obtain ⟨n', -, rfl⟩ := newPool_some hnew
    exact ⟨fun _ => RunPc.noConfusion, rfl⟩
  have hfails := (run_idle hstart hrun).2.2
  rw [htrue] at hfails
  cases hfails

/-- Anything else is an empty queue. -/
theorem not_downloads (hsize : 1 < m.totalSize) (hchunk : s.chunkSize < 0)
    (hworkers : ¬ (s.urls = [] ∨ s.threadsPerMirror ≤ 0)) : ¬ Downloads s m := by
  intro h
  obtain ⟨n, hn⟩ := computeTotalChunks_some m.totalSize hchunk.ne
  have hnone : n ≤ 0 := by
    have h := computeTotalChunks_neg (by omega) hchunk hn
    rwa [if_neg (by omega)] at h
  have hnew : newPool s m {} {} =
      some (.init {} {} s.urls s.threadsPerMirror.toNat (buildChunkQueue n) []) := by
    rw [newPool, hn]
    rfl
  have hempty : buildChunkQueue n = [] := by
    rw [buildChunkQueue, Int.toNat_of_nonpos hnone]
    rfl
  obtain ⟨q, hrun, htrue⟩ := empty_queue_succeeds (s := s) (by rw [hempty]; rfl) rfl rfl
    (mt (newPool_workers hnew).mp hworkers)
  obtain ⟨i, hreturned, -⟩ := h.covers _ _ _ _ q hnew hrun (by decide) htrue 0 le_rfl (by omega)
  exact not_returned (bufferLength_neg hchunk) (newPool_unbuilt hnew) i hreturned

/-- For a file of known size that can be fetched in ranges, an accepted configuration downloads it, unless
the chunk size is zero, or is negative and leaves the queue empty before workers that are there. -/
theorem accepted_downloads_iff {lib : Hashlib} {config : GivenConfig} (hinit : init lib config = .ok s)
    (hsize : 0 < m.totalSize) (hranges : m.acceptsRanges = true) :
    Downloads (applyProbeFallback s m) m ↔
      0 < config.chunkSize ∨
        config.chunkSize < 0 ∧ (m.totalSize = 1 ∨ s.urls = [] ∨ config.threadsPerMirror ≤ 0) := by
  have hsettings : applyProbeFallback s m = s := by
    rw [applyProbeFallback, if_neg]
    rintro (hzero | hnot)
    · omega
    · rw [hranges] at hnot
      cases hnot
  have hkept := (init_ok_iff.mp hinit).2.2.2
  have hchunk : config.chunkSize = s.chunkSize := by rw [hkept]; rfl
  have hthreads : config.threadsPerMirror = s.threadsPerMirror := by rw [hkept]; rfl
  rw [hsettings, hchunk, hthreads]
  constructor
  · intro h
    rcases lt_trichotomy s.chunkSize 0 with hneg | hzero | hpos
    · refine .inr ⟨hneg, ?_⟩
      by_contra hnot
      rw [not_or] at hnot
      exact not_downloads (by omega) hneg hnot.2 h
    · refine absurd ?_ h.divides
      rw [computeTotalChunks, if_neg (not_le.mpr hsize), if_pos hzero]
    · exact .inl hpos
  · rintro (hpos | ⟨hneg, hone | hidle⟩)
    · exact downloads_of_pos hsize hpos
    · exact downloads_of_one hone hneg
    · exact downloads_of_idle hneg.ne hidle

private def fourBytes : FileMetadata := { totalSize := 4, acceptsRanges := true }

theorem accepted_downloads_four : ∃ s, init ⟨[], []⟩ { urls := .inl "a", chunkSize := 3 } = .ok s ∧
    Downloads (applyProbeFallback s fourBytes) fourBytes := by
  obtain ⟨s, hinit⟩ : ∃ s, init ⟨[], []⟩ { urls := .inl "a", chunkSize := 3 } = .ok s := ⟨_, rfl⟩
  exact ⟨s, hinit, (accepted_downloads_iff hinit (by decide) rfl).mpr (.inl (by decide))⟩

/-- `join` finds nothing to wait for, and the worker gets no fetcher. -/
private def noFetch : List TrackedAct :=
  [.pool .joinReturns, .pool (.runWakes true), .pool (.wake 0 true), .pool .runEnds]

/-- Chunk sizes that are accepted: zero cannot divide, and with `-1` `run` returns `True` on nothing. -/
theorem chunk_size_unchecked :
    (∃ s, init ⟨[], []⟩ { urls := .inl "a", chunkSize := 0 } = .ok s ∧
      computeTotalChunks fourBytes.totalSize (applyProbeFallback s fourBytes).chunkSize = none) ∧
    ∃ s p q, init ⟨[], []⟩ { urls := .inl "a", chunkSize := -1 } = .ok s ∧
      newPool (applyProbeFallback s fourBytes) fourBytes {} {} = some p ∧
      exec (step (applyProbeFallback s fourBytes)) p noFetch = some q ∧
      q.pool.run = .ended (.returned true) ∧ q.pool.completed = [] ∧
      ∀ i, ¬ Returned (applyProbeFallback s fourBytes) p noFetch i := by
  refine ⟨⟨_, rfl, rfl⟩, GivenConfig.settings { urls := .inl "a", chunkSize := -1 } none, ?_⟩
  suffices ∃ p q, newPool _ fourBytes {} {} = some p ∧ exec (step _) p noFetch = some q ∧
      q.pool.run = .ended (.returned true) ∧ q.pool.completed = [] by
    obtain ⟨p, q, hnew, hrun, htrue, hnone⟩ := this
    exact ⟨p, q, rfl, hnew, hrun, htrue, hnone, not_returned (by decide) (newPool_unbuilt hnew)⟩
  exact ⟨_, _, rfl, rfl, rfl, rfl⟩

end

end Mrdl.Accepted
