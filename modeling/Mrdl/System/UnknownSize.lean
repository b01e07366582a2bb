import Mrdl.System.Completed
import Mrdl.Fetcher.SameBody

/-! # A whole run of unknown size

When the probe finds no size there is one chunk, and its fetches are served one body, by whatever mirror
and however often they are cut off. Nothing but pieces of that body ever reaches the writer, and a run
that ends with `COMPLETED` has put all of it in the file. What the file held beyond the body is cut off
by the fetch that returned, unless some answer had announced a length before.
-/

namespace Mrdl.System
open FileBytes Downloader Workers Writer Hasher Runs
set_option autoImplicit false

/-- Every answer carries `body`. -/
def SysAct.Serves (body : Bytes) : SysAct → Prop
  | .begin _ att => att.reply.Serves body
  | _ => True

/-- No answer announces a length. -/
def SysAct.Unannounced : SysAct → Prop
  | .begin _ att => Fetcher.announced att = 0
  | _ => True

/-- `DiskWriter.stop` returns. -/
def SysAct.stopsWriter : SysAct → Bool
  | .control .writerStopped => true
  | _ => false

/-- After a pool that succeeded `DiskWriter.stop` returns only when everything was carried out. -/
def Emptied (s : Sys) (a : SysAct) : Prop :=
  a.stopsWriter = true → s.ctl.success = true → s.writer.pending = [] ∧ s.dropped = []

instance (body : Bytes) : (a : SysAct) → Decidable (a.Serves body)
  | .begin _ att => inferInstanceAs (Decidable (att.reply.Serves body))
  | .control _ | .pool _ | .offer _ | .putDone _ | .putFull _ | .orphanPut _ | .orphanGone _ | .stopPut
  | .writer _ | .writerFails _ | .hasher _ | .saverWakes | .saverSaves => .isTrue trivial

instance : (a : SysAct) → Decidable a.Unannounced
  | .begin _ att => inferInstanceAs (Decidable (Fetcher.announced att = 0))
  | .control _ | .pool _ | .offer _ | .putDone _ | .putFull _ | .orphanPut _ | .orphanGone _ | .stopPut
  | .writer _ | .writerFails _ | .hasher _ | .saverWakes | .saverSaves => .isTrue trivial

instance (s : Sys) (a : SysAct) : Decidable (Emptied s a) :=
  decidable_of_iff
    (a.stopsWriter = true → s.ctl.success = true →
      s.writer.pending.isEmpty = true ∧ s.dropped.isEmpty = true)
    (by simp only [Emptied, List.isEmpty_iff])

/-- What the fetches hand over, when their answers carry `body`; no length is announced if `quiet`. -/
structure Served (body : Bytes) (quiet : Prop) (T : Traffic) : Prop where
  knows : ∀ w, (T.tasks w).fetcher.Knows body quiet
  todo : ∀ w c, (T.tasks w).call = some c → ∀ cmd ∈ c.todo, cmd.FromBody body
  log : ∀ cmd ∈ T.log, cmd.FromBody body
  orphans : ∀ cmd ∈ T.orphans, cmd.FromBody body
  calls : ∀ w c n, (T.tasks w).call = some c → c.outcome = .returned n →
    n = body.length ∧ (quiet → .truncate body.length ∈ T.log ++ T.dropped ++ c.todo)
  recorded : ∀ i n, (i, n) ∈ T.recorded →
    n = body.length ∧ (quiet → .truncate body.length ∈ T.log ++ T.dropped)

section
variable {S : Setup} {body : Bytes} {quiet : Prop} {ev : Events} {T T' : Traffic}

theorem Served.settle {w : ℕ} (h : Served body quiet T) (hlog : T'.log = T.log)
    (hdropped : T'.dropped = T.dropped) (horphans : ∀ cmd ∈ T'.orphans, cmd.FromBody body)
    (htasks : T'.tasks = (T.setCall w none).tasks)
    (hrec : ∀ i n, (i, n) ∈ T'.recorded → (i, n) ∈ T.recorded ∨
      (n = body.length ∧ (quiet → .truncate body.length ∈ T.log ++ T.dropped))) : Served body quiet T' := by
  refine ⟨fun v => ?_, fun v c hc => ?_, ?_, horphans, fun v c n hc hn => ?_, fun i n hin => ?_⟩
  · rw [htasks, setCall_fetcher]
    exact h.knows v
  · rw [htasks] at hc
    rcases setCall_some hc with ⟨-, hnone⟩ | ⟨-, hc⟩
    · cases hnone
    · exact h.todo v c hc
  · rw [hlog]
    exact h.log
  · rw [htasks] at hc
    rw [hlog, hdropped]
    rcases setCall_some hc with ⟨-, hnone⟩ | ⟨-, hc⟩
    · cases hnone
    · exact h.calls v c n hc hn
  · rw [hlog, hdropped]
    exact (hrec i n hin).elim (h.recorded i n) id

theorem Served.goOn {w : ℕ} {c d : Call} (h : Served body quiet T) (call : (T.tasks w).call = some c)
    (hout : d.outcome = c.outcome) (hsub : ∀ cmd ∈ d.todo, cmd ∈ c.todo)
    (hlog : ∀ cmd ∈ T'.log, cmd ∈ T.log ∨ cmd ∈ c.todo)
    (hmono : ∀ cmd ∈ T.log ++ T.dropped, cmd ∈ T'.log ++ T'.dropped)
    (htodo : ∀ cmd ∈ c.todo, cmd ∈ T'.log ++ T'.dropped ++ d.todo) (horphans : T'.orphans = T.orphans)
    (htasks : T'.tasks = (T.setCall w (some d)).tasks) (hrec : T'.recorded = T.recorded) :
    Served body quiet T' := by
  refine ⟨fun v => ?_, fun v e he cmd hcmd => ?_, fun cmd hcmd => ?_, ?_, fun v e n he hn => ?_, fun i n hin => ?_⟩
  · rw [htasks, setCall_fetcher]
    exact h.knows v
  · rw [htasks] at he
    rcases setCall_some he with ⟨rfl, hsome⟩ | ⟨-, he⟩
    · cases hsome
      exact h.todo v c call cmd (hsub cmd hcmd)
    · exact h.todo v e he cmd hcmd
  · exact (hlog cmd hcmd).elim (h.log cmd) (h.todo w c call cmd)
  · rw [horphans]
    exact h.orphans
  · rw [htasks] at he
    rcases setCall_some he with ⟨rfl, hsome⟩ | ⟨-, he⟩
    · cases hsome
      obtain ⟨hlen, hcut⟩ := h.calls v c n call (hout ▸ hn)
      refine ⟨hlen, fun hq => ?_⟩
      rcases List.mem_append.mp (hcut hq) with hold | hleft
      · exact List.mem_append_left _ (hmono _ hold)
      · exact htodo _ hleft
    · obtain ⟨hlen, hcut⟩ := h.calls v e n he hn
      refine ⟨hlen, fun hq => ?_⟩
      rcases List.mem_append.mp (hcut hq) with hold | hleft
      · exact List.mem_append_left _ (hmono _ hold)
      · exact List.mem_append_right _ hleft
  · rw [hrec] at hin
    obtain ⟨hlen, hcut⟩ := h.recorded i n hin
    exact ⟨hlen, fun hq => hmono _ (hcut hq)⟩

/-- There is only the chunk 0. -/
theorem chunk_zero {item : QueueItem} {t : ℚ} {w : ℕ} (hsize : S.metadata.totalSize = 0)
    (hp : Conserved S.chunks ev T.pool) (hands : T.pool.pcOf w = some (.fetching item t)) :
    item.chunkIdx.toNat = 0 := by
  have hone : S.totalChunks = 1 := if_pos (by omega)
  have hlt := (mem_chunks.mp (chunkIdx_of_hands hp hands).1).1
  omega

theorem Served.step {a : SysAct} (hsize : S.metadata.totalSize = 0)
    (hfits : quiet ∨ body.length ≤ S.cfg.chunkSize) (h : Served body quiet T) (hst : Staffed S T)
    (hp : Conserved S.chunks ev T.pool) (hserves : a.Serves body) (hquiet : quiet → a.Unannounced)
    (hs : Traffic.Step S ev T a T') : Served body quiet T' := by
  cases hs with
  | pool a ev' p hpool quiet => exact ⟨h.knows, h.todo, h.log, h.orphans, h.calls, h.recorded⟩
  | returned w i n putting ev' p hpool call =>
    have hcall := h.calls w _ n call rfl
    rw [List.append_nil] at hcall
    refine h.settle (w := w) rfl rfl h.orphans rfl fun j m hjm => ?_
    rcases List.mem_append.mp hjm with hold | hnew
    · exact Or.inl hold
    · cases List.mem_singleton.mp hnew
      exact Or.inr hcall
  | failed w a c ev' p hpool settles only call outcome todo kind =>
    exact h.settle (w := w) rfl rfl h.orphans rfl fun j m => Or.inl
  | cancelled w ev' p hpool =>
    refine h.settle (w := w) rfl rfl (fun cmd hcmd => ?_) rfl fun j m => Or.inl
    rcases List.mem_append.mp hcmd with hold | hnew
    · exact h.orphans cmd hold
    · unfold Task.inFlight at hnew
      split at hnew
      · rename_i i x rest outcome hcall
        rw [List.mem_singleton.mp hnew]
        exact h.todo w _ hcall x (List.mem_cons_self ..)
      · cases hnew
  | begin w item t att res hands free hfetch =>
    rw [chunk_zero hsize hp hands] at hfetch ⊢
    have hfit : Fetcher.Fits (Fetcher.expectation S.cfg (T.tasks w).fetcher.metadata (0 * S.cfg.chunkSize)
        att.reply) [] := by
      rw [Nat.zero_mul]
      exact fits_first S.cfg _ _
    have hbuf := hst.buffers w
    have hknows := h.knows w
    refine ⟨fun v => ?_, fun v c hc => ?_, h.log, h.orphans, fun v c n hc hn => ?_, h.recorded⟩
    · dsimp only
      by_cases hv : v = w
      · subst hv
        rw [Function.update_self]
        exact Fetcher.fetch_knows hbuf hknows hserves hquiet hfit hfetch
      · rw [Function.update_of_ne hv]
        exact h.knows v
    · rcases began_some hc with ⟨rfl, rfl⟩ | ⟨-, hc⟩
      · exact Fetcher.fetch_from_body hbuf hknows hserves hquiet hfits hfit hfetch
      · exact h.todo v c hc
    · rcases began_some hc with ⟨rfl, rfl⟩ | ⟨-, hc⟩
      · obtain ⟨hlen, hcut⟩ := Fetcher.fetch_returns_body hbuf hknows hserves hquiet hfits hfetch hn
        exact ⟨hlen, fun hq => List.mem_append_right _ (hcut hq)⟩
      · exact h.calls v c n hc hn
  | drop w i cmd rest outcome call stopped =>
    refine h.goOn (d := ⟨i, rest, false, outcome⟩) call rfl (fun x => List.mem_cons_of_mem _) (fun x => Or.inl)
      (fun x hx => ?_) (fun x hx => ?_) rfl rfl rfl
    · simp only [List.mem_append] at hx ⊢
      tauto
    · simp only [List.mem_append, List.mem_cons, List.not_mem_nil] at hx ⊢
      tauto
  | reach w i cmd rest outcome call running =>
    exact h.goOn (d := ⟨i, cmd :: rest, true, outcome⟩) call rfl (fun x => id) (fun x => Or.inl) (fun x => id)
      (fun x hx => List.mem_append_right _ hx) rfl rfl rfl
  | put w i cmd rest outcome call =>
    refine h.goOn (d := ⟨i, rest, false, outcome⟩) call rfl (fun x => List.mem_cons_of_mem _) (fun x hx => ?_)
      (fun x hx => ?_) (fun x hx => ?_) rfl rfl rfl
    · refine (List.mem_append.mp hx).imp id fun hcmd => ?_
      rw [List.mem_singleton.mp hcmd]
      exact List.mem_cons_self ..
    · simp only [List.mem_append] at hx ⊢
      tauto
    · simp only [List.mem_append, List.mem_cons, List.not_mem_nil] at hx ⊢
      tauto
  | refuse w i cmd rest outcome call =>
    exact h.goOn (d := ⟨i, cmd :: rest, false, outcome⟩) call rfl (fun x => id) (fun x => Or.inl) (fun x => id)
      (fun x hx => List.mem_append_right _ hx) rfl rfl rfl
  | orphanPut k before after cmd orphans =>
    have hcmd : cmd.FromBody body := h.orphans cmd (orphans ▸ List.mem_append_right _ (List.mem_cons_self ..))
    have hmono : ∀ x ∈ T.log ++ T.dropped, x ∈ T.log ++ [cmd] ++ T.dropped := by
      intro x hx
      simp only [List.mem_append] at hx ⊢
      tauto
    refine ⟨h.knows, h.todo, fun x hx => ?_, fun x hx => ?_, fun v c n hc hn => ?_, fun i n hin => ?_⟩
    · rcases List.mem_append.mp hx with hold | hnew
      · exact h.log x hold
      · exact List.mem_singleton.mp hnew ▸ hcmd
    · refine h.orphans x (orphans ▸ ?_)
      simp only [List.mem_append, List.mem_cons] at hx ⊢
      tauto
    · obtain ⟨hlen, hcut⟩ := h.calls v c n hc hn
      refine ⟨hlen, fun hq => ?_⟩
      rcases List.mem_append.mp (hcut hq) with hold | hleft
      · exact List.mem_append_left _ (hmono _ hold)
      · exact List.mem_append_right _ hleft
    · obtain ⟨hlen, hcut⟩ := h.recorded i n hin
      exact ⟨hlen, fun hq => hmono _ (hcut hq)⟩
  | orphanGone k before after cmd orphans =>
    refine ⟨h.knows, h.todo, h.log, fun x hx => h.orphans x (orphans ▸ ?_), h.calls, h.recorded⟩
    simp only [List.mem_append, List.mem_cons] at hx ⊢
    tauto

/-! ## Runs -/

variable {s s' : Sys}

/-- All of the body was carried out by the writer. -/
structure CarriedOut (body : Bytes) (quiet : Prop) (w : DiskWriter) : Prop where
  bytes : ∀ b < body.length, ∃ cmd ∈ w.executed, cmd.Covers b
  cut : quiet → .truncate body.length ∈ w.executed

structure OneBody (S : Setup) (body : Bytes) (quiet : Prop) (s : Sys) : Prop where
  sound : Sound S s
  covered : Covered S s.traffic
  served : Served body quiet s.traffic
  patches : s.writer.Patches body S.file
  kept : Workers.Kept S.chunks s.ctl.ev s.pool
  finished : Finished S.chunks s.pool
  success : s.ctl.success = true → ∀ i ∈ S.chunks, i ∈ s.pool.completed
  whole : s.ctl.success = true → s.ctl.pc ≠ .stoppingWriter → CarriedOut body quiet s.writer

theorem executed_mono {a : SysAct} (hs : sysStep S s a = some s') :
    ∀ cmd ∈ s.writer.executed, cmd ∈ s'.writer.executed := by
  intro cmd hcmd
  rcases sysStep_writer hs with heq | ⟨x, hput⟩ | ⟨b, hstep⟩
  · rw [heq]
    exact hcmd
  · rw [(DiskWriter.put_pending hput).1]
    exact hcmd
  · obtain ⟨cmds, hexec, -⟩ := DiskWriter.step_pending hstep
    rw [hexec]
    exact List.mem_append_left _ hcmd

/-- The one chunk was fetched, and everything that was put was carried out. -/
theorem OneBody.carriedOut (h : OneBody S body quiet s) (hsize : S.metadata.totalSize = 0)
    (hfresh : S.resumed = []) (hsuccess : s.ctl.success = true) (hpending : s.writer.pending = [])
    (hdropped : s.dropped = []) : CarriedOut body quiet s.writer := by
  have hone : S.totalChunks = 1 := if_pos (by omega)
  have hmem : 0 ∈ S.chunks := mem_chunks.mpr ⟨by omega, by rw [hfresh]; exact List.not_mem_nil⟩
  have hcompleted := h.covered.completed 0 (h.success hsuccess 0 hmem)
  rw [hfresh] at hcompleted
  obtain ⟨n, hrec⟩ := hcompleted.resolve_left List.not_mem_nil
  obtain ⟨rfl, hcut⟩ := h.served.recorded 0 n hrec
  have hall : s.traffic.log ++ s.traffic.dropped = s.writer.executed := by
    change s.writer.executed ++ s.writer.pending ++ s.dropped = _
    rw [hpending, hdropped, List.append_nil, List.append_nil]
  rw [hall] at hcut
  refine ⟨fun b hb => ?_, hcut⟩
  have hcov := (h.covered.recorded 0 _ hrec).2 b hb
  rwa [hall, Nat.zero_mul, Nat.zero_add] at hcov

theorem OneBody.step {a : SysAct} (hsize : S.metadata.totalSize = 0) (hfresh : S.resumed = [])
    (hfits : quiet ∨ body.length ≤ S.cfg.chunkSize) (h : OneBody S body quiet s) (hserves : a.Serves body)
    (hquiet : quiet → a.Unannounced) (hemptied : Emptied s a) (hcalm : a.lossy = false)
    (hs : sysStep S s a = some s') : OneBody S body quiet s' := by
  obtain ⟨hsuccess, hwaits, -⟩ := sysStep_advance h.sound.ordered hs
  have hle := sysStep_le h.sound.ordered hs
  refine ⟨h.sound.step hs, ?_, ?_, ?_, ?_, ?_, fun hnow i hi => ?_, fun hnow hpc => ?_⟩
  · rcases sysStep_traffic hs with heq | hstep
    · rw [heq]
      exact h.covered
    · exact h.covered.step h.sound.staffed hstep
  · rcases sysStep_traffic hs with heq | hstep
    · rw [heq]
      exact h.served
    · exact h.served.step hsize hfits h.sound.staffed h.sound.conserved hserves hquiet hstep
  · rcases sysStep_writer hs with heq | ⟨x, hput⟩ | ⟨b, hstep⟩
    · rw [heq]
      exact h.patches
    · exact h.patches.put hput
    · refine h.patches.step (fun cmd hcmd => h.served.log cmd ?_) hstep
      exact List.mem_append_right _ (List.mem_append_left _ hcmd)
  · rcases sysStep_pool hs with ⟨b, rfl, hpool⟩ | ⟨-, heq⟩
    · exact poolStep_kept h.sound.conserved h.kept hcalm hpool
    · rw [heq]
      exact h.kept.le hle
  · rcases sysStep_pool hs with ⟨b, -, hpool⟩ | ⟨-, heq⟩
    · exact poolStep_finished h.sound.conserved h.kept h.finished hpool
    · rw [heq]
      exact h.finished
  · rcases hsuccess hnow with hold | ⟨⟨error, rfl⟩, -⟩
    · exact completed_mono hs i (h.success hold i hi)
    · obtain ⟨hrun, hpool⟩ := poolReturns_ready hs
      rw [hpool]
      exact h.finished (by rw [hrun]; rfl) i hi
  · have hwhole : CarriedOut body quiet s.writer := by
      rcases hsuccess hnow with hold | ⟨-, hstopping⟩
      · by_cases hstopping : s.ctl.pc = .stoppingWriter
        · rcases hwaits hstopping with hstill | rfl
          · exact absurd hstill hpc
          · obtain ⟨hpending, hdropped⟩ := hemptied rfl hold
            exact h.carriedOut hsize hfresh hold hpending hdropped
        · exact h.whole hold hstopping
      · exact absurd hstopping hpc
    refine ⟨fun b hb => ?_, fun hq => executed_mono hs _ (hwhole.cut hq)⟩
    obtain ⟨cmd, hcmd, hcov⟩ := hwhole.bytes b hb
    exact ⟨cmd, executed_mono hs cmd hcmd, hcov⟩

theorem OneBody.init (S : Setup) (body : Bytes) (quiet : Prop) (hsize : S.metadata.totalSize = 0) :
    OneBody S body quiet (Sys.init S) := by
  refine ⟨Sound.init S, (SaveSound.init S).covered, ?_, DiskWriter.Patches.start body S.resumed S.file, ?_,
    fun h => (by cases h), fun h => (by cases h), fun h => (by cases h)⟩
  · exact ⟨fun w => Or.inl hsize, fun w c hc => (by cases hc), fun cmd hcmd => (by cases hcmd),
      fun cmd hcmd => (by cases hcmd), fun w c n hc => (by cases hc), fun i n hin => (by cases hin)⟩
  · refine init_kept _ _ _ (chunks_nodup S) fun i hi hmem => ?_
    exact (mem_chunks.mp hi).2 (List.mem_dedup.mp hmem)

/-- What the file is once all of the body was carried out. -/
theorem OneBody.file (h : OneBody S body quiet s) (hwhole : CarriedOut body quiet s.writer) :
    (quiet → s.writer.file = body) ∧
      (s.writer.file = body ∨ s.writer.file = body ++ S.file.drop body.length) := by
  have hbytes : ∀ b < body.length, (lastWritten s.writer.pwrites b).isSome = true := by
    intro b hb
    obtain ⟨cmd, hcmd, hcov⟩ := hwhole.bytes b hb
    have hsome := lastWritten_of_covers hcmd hcov
    rw [h.sound.performed.written b, lastWritten_append]
    cases lastWritten s.writer.begun b with
    | none => simpa using hsome
    | some x => rfl
  obtain ⟨hcut, hkept⟩ := Patched.whole h.patches hbytes
  exact ⟨fun hq => hcut (hwhole.cut hq), (Classical.em _).imp hcut hkept⟩

/-- A download of unknown size that ends with `COMPLETED` has the whole body in its file, when the answers
carry that body, the health tracker never raises and `DiskWriter.stop` never returns to a successful run
with a command undone: nothing but the body if no answer announced a length, and otherwise at most what
the file held beyond it before. -/
theorem unknown_size_completes {as : List SysAct} (hsize : S.metadata.totalSize = 0) (hfresh : S.resumed = [])
    (hserves : ∀ a ∈ as, a.Serves body)
    (hemptied : Guarded (sysStep S) (fun s a => Emptied s a ∧ a.lossy = false) (Sys.init S) as)
    (hrun : exec (sysStep S) (Sys.init S) as = some s) {r : DownloadResult}
    (hreturned : s.ctl.outcome = some (.returned r)) (hcompleted : r.status = .completed) :
    ((∀ a ∈ as, a.Unannounced) → s.writer.file = body) ∧
      (body.length ≤ S.cfg.chunkSize →
        s.writer.file = body ∨ s.writer.file = body ++ S.file.drop body.length) := by
  have hfile : ∀ quiet : Prop, (quiet ∨ body.length ≤ S.cfg.chunkSize) → (quiet → ∀ a ∈ as, a.Unannounced) →
      (quiet → s.writer.file = body) ∧
        (s.writer.file = body ∨ s.writer.file = body ++ S.file.drop body.length) := by
    intro quiet hfits hquiet
    have hguard : Guarded (sysStep S) (fun _ a => a.Serves body ∧ (quiet → a.Unannounced)) (Sys.init S) as :=
      Guarded.of_mem (fun _ a ha => ⟨hserves a ha, fun hq => hquiet hq a ha⟩) _
    have h := exec_guarded (P := OneBody S body quiet)
      (fun _ _ _ h hg hs => h.step hsize hfresh hfits hg.1.1 hg.1.2 hg.2.1 hg.2.2 hs)
      (OneBody.init S body quiet hsize) (hguard.and hemptied) hrun
    have haccounted := h.sound.ordered.accounted
    obtain ⟨hsuccess, hpc⟩ := haccounted.cleared (haccounted.outcome r hreturned hcompleted)
    refine h.file (h.whole hsuccess ?_)
    rcases hpc with hpc | hpc <;> rw [hpc] <;> decide
  exact ⟨fun hquiet => (hfile True (Or.inl trivial) fun _ => hquiet).1 trivial,
    fun hfits => (hfile False (Or.inr hfits) fun hno => hno.elim).2⟩

end

/-! ## A second attempt over an old file -/

def unknownSize : Setup where
  sources := ["mirror"]
  threadsPerSource := 1
  cfg := { chunkSize := 4, flushLimit := 1 }
  metadata := ⟨0, false, none, none⟩
  dest := some [1, 2, 3]

/-- The first answer breaks off after a byte, and the second one has both. -/
def cutOffFirst : List SysAct :=
  [.control (.enter .kept), .control (.loadReturns (some true)), .control (.probeReturns .metadata),
    .control (.fileReady true), .control (.stateReady true), .pool (.wake 0 false), .pool (.openGate 0),
    .pool (.passGate 0), .pool (.get 0 false false),
    .begin 0 { reply := .answer { status := 200, pieces := [[7]], ending := some ⟨.timeout, ""⟩ } }, .offer 0,
    .putDone 0, .pool (.fetchFailed 0 "FetchError" "" false), .pool (.tick 1), .pool (.openGate 0),
    .pool (.passGate 0), .pool (.get 0 false false),
    .begin 0 { reply := .answer { status := 200, pieces := [[7], [8]] } }, .offer 0, .putDone 0, .offer 0,
    .putDone 0, .offer 0, .putDone 0, .offer 0, .putDone 0, .pool (.fetchReturned 0), .writer .poll,
    .writer .get, .writer (.pwrite 1), .writer .done, .writer .poll, .writer .get, .writer (.pwrite 1),
    .writer .done, .writer .poll, .writer .get, .writer (.pwrite 1), .writer .done, .writer .poll, .writer .get,
    .writer .done, .writer .poll, .writer .get, .writer .done] ++ endedWell

theorem unknown_size_completes_cutOffFirst : ∃ s : Sys,
    exec (sysStep unknownSize) (Sys.init unknownSize) cutOffFirst = some s ∧ s.writer.file = [7, 8] := by
  obtain ⟨s, hrun, hreturned⟩ : ∃ s, exec (sysStep unknownSize) (Sys.init unknownSize) cutOffFirst = some s ∧
      s.ctl.outcome = some (.returned ⟨.completed, true, none, none⟩) :=
    ⟨(exec (sysStep unknownSize) (Sys.init unknownSize) cutOffFirst).get (by decide +kernel),
      (Option.some_get _).symm, by decide +kernel⟩
  exact ⟨s, hrun, (unknown_size_completes rfl rfl (by decide +kernel) (by decide +kernel) hrun hreturned rfl).1
    (by decide +kernel)⟩

end Mrdl.System
