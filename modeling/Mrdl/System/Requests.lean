import Mrdl.System.SavedBytes
import Mrdl.System.Tiling
import Mrdl.Fetcher.Answers
import Mrdl.Workers.Attempts

/-! # How much a run asks for

However many mirrors fail, are banned or are too slow, and however the workers are interleaved, a run calls
`fetch` on a chunk at most six times, and asks for at most six times the bytes of the file.
-/

namespace Mrdl.System
open Downloader Workers Runs Session
set_option autoImplicit false

/-- The weight of the chunk on which the step has a worker call `fetch`. -/
def requests (weight : ℕ → ℕ) (s : Sys) : SysAct → ℕ
  | .pool a => fetchStarts weight s.ctl.ev s.pool a
  | _ => 0

/-- The number of bytes in the range of chunk `i`. -/
def rangeBytes (S : Setup) (i : ℕ) : ℕ := (Fetcher.rangeLength S.cfg S.metadata i).toNat

section
variable {S : Setup} {s t : Sys}

theorem requests_spend {a : SysAct} (weight : ℕ → ℕ) (h : Sound S s) (hs : sysStep S s a = some t) :
    requests weight s a + t.pool.allowance weight ≤ s.pool.allowance weight := by
  rcases sysStep_pool hs with ⟨b, rfl, hb⟩ | ⟨hother, heq⟩
  · exact fetchStarts_spends h.conserved hb
  · rw [heq]
    cases a with
    | pool b => exact absurd rfl (hother b)
    | _ => exact (Nat.zero_add _).le

theorem requests_cost {as : List SysAct} (weight : ℕ → ℕ) (hrun : exec (sysStep S) (Sys.init S) as = some s) :
    cost (sysStep S) (requests weight) (Sys.init S) as ≤ 6 * (S.chunks.map weight).sum := by
  have hcost := cost_le (P := Sound S) (fun s => s.pool.allowance weight)
    (fun _ _ _ h hs => ⟨h.step hs, requests_spend weight h hs⟩) (Sound.init S) hrun
  have hinit := init_allowance weight S.sources S.threadsPerSource S.chunks S.resumed.dedup
  exact (Nat.le_of_add_right_le hcost).trans hinit.le

theorem sum_indicator {chunks : List ℕ} (hnodup : chunks.Nodup) (i : ℕ) :
    (chunks.map fun j => if j = i then 1 else 0).sum = if i ∈ chunks then 1 else 0 := by
  induction chunks with
  | nil => rfl
  | cons j rest ih =>
    obtain ⟨hj, hrest⟩ := List.nodup_cons.mp hnodup
    rw [List.map_cons, List.sum_cons, ih hrest]
    by_cases heq : j = i
    · subst heq
      rw [if_pos rfl, if_neg hj, if_pos (List.mem_cons_self ..)]
    · rw [if_neg heq, Nat.zero_add]
      simp [Ne.symm heq]

/-- The ranges of the chunks that are missing are parts of the file. -/
theorem sum_rangeBytes (hsize : 0 < S.metadata.totalSize) : (S.chunks.map (rangeBytes S)).sum ≤ S.size := by
  by_cases hchunk : 0 < S.cfg.chunkSize
  · have hcount : S.totalChunks = Tiling.count S.size S.cfg.chunkSize := computeTotalChunks_eq_count hsize hchunk
    have hlt : ∀ i ∈ S.chunks, i < Tiling.count S.size S.cfg.chunkSize :=
      fun i hi => hcount ▸ (mem_chunks.mp hi).1
    have hblocks : S.chunks.map (rangeBytes S) = S.chunks.map (Tiling.blockLength S.size S.cfg.chunkSize) := by
      refine List.map_congr_left fun i hi => ?_
      rw [rangeBytes, Fetcher.rangeLength, rangeEnd_eq hsize hchunk (hlt i hi), Setup.size]
      omega
    rw [hblocks]
    exact Tiling.sum_blockLength_le hchunk (chunks_nodup S) hlt
  · have hnone : S.chunks = [] := by
      refine List.eq_nil_iff_forall_not_mem.mpr fun i hi => ?_
      exact hchunk (chunk_start_lt hsize (mem_chunks.mp hi).1).1
    rw [hnone]
    exact Nat.zero_le _

/-- In every run, each chunk of its queue is fetched at most six times, no other chunk is, and the ranges asked
for, of a file of known size, come to at most six times the size. -/
theorem requests_bounded {as : List SysAct} (hrun : exec (sysStep S) (Sys.init S) as = some s) :
    (∀ i, cost (sysStep S) (requests fun j => if j = i then 1 else 0) (Sys.init S) as ≤
        if i ∈ S.chunks then 6 else 0) ∧
      (0 < S.metadata.totalSize → cost (sysStep S) (requests (rangeBytes S)) (Sys.init S) as ≤ 6 * S.size) := by
  refine ⟨fun i => ?_, fun hsize => ?_⟩
  · have hcost := requests_cost (fun j => if j = i then 1 else 0) hrun
    rw [sum_indicator (chunks_nodup S)] at hcost
    split
    · rename_i hi
      rwa [if_pos hi] at hcost
    · rename_i hi
      rwa [if_neg hi] at hcost
  · exact (requests_cost (rangeBytes S) hrun).trans (Nat.mul_le_mul_left 6 (sum_rangeBytes hsize))

end

/-- The first fetch fails, and a second one follows. -/
def fetchedTwice : List SysAct :=
  [.control (.enter .missing), .control (.probeReturns .metadata), .control (.fileReady true),
    .control (.stateReady true), .pool (.wake 0 false), .pool (.openGate 0), .pool (.passGate 0),
    .pool (.get 0 false false), .begin 0 { reply := .answer { status := 503, pieces := [] } },
    .pool (.fetchFailed 0 "FetchError" "" false), .pool (.tick 1), .pool (.openGate 0), .pool (.passGate 0),
    .pool (.get 0 false false)]

theorem requests_bounded_twoBytes : ∃ s, exec (sysStep twoBytes) (Sys.init twoBytes) fetchedTwice = some s ∧
    cost (sysStep twoBytes) (requests (rangeBytes twoBytes)) (Sys.init twoBytes) fetchedTwice = 4 ∧
      cost (sysStep twoBytes) (requests (rangeBytes twoBytes)) (Sys.init twoBytes) fetchedTwice ≤ 12 := by
  obtain ⟨s, hrun, hcost⟩ : ∃ s, exec (sysStep twoBytes) (Sys.init twoBytes) fetchedTwice = some s ∧
      cost (sysStep twoBytes) (requests (rangeBytes twoBytes)) (Sys.init twoBytes) fetchedTwice = 4 :=
    ⟨(exec (sysStep twoBytes) (Sys.init twoBytes) fetchedTwice).get (by decide +kernel),
      (Option.some_get _).symm, by decide +kernel⟩
  exact ⟨s, hrun, hcost, (requests_bounded hrun).2 (by decide)⟩

end Mrdl.System
