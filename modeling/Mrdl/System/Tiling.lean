import Mathlib.Algebra.BigOperators.Ring.Finset
import Mathlib.Data.List.Nodup
import Mathlib.Data.Set.Lattice
import Mathlib.Order.CompletePartialOrder
import Mathlib.Tactic.Zify
import Mrdl.Foundations.Tiling
import Mrdl.Hasher.Extent
import Mrdl.Progress.Core

/-! # One tiling of the file

The geometry of the chunks is written out by each component for itself: the number of chunks rounds up
by adding `chunk_size - 1`, fetch computes an inclusive end, the hasher and the progress bar a length.
All of them are the blocks of `Tiling`, and the queued chunks together with the completed ones are each
block once.
-/

namespace Mrdl.System
open Session Fetcher Hasher Progress Tiling
set_option autoImplicit false

/-- The bytes from `start` to `end` in `fetch`. -/
def requested (cfg : FetcherConfig) (totalSize : ℤ) (i : ℕ) : Set ℕ :=
  {b | i * cfg.chunkSize ≤ b ∧ (b : ℤ) ≤ rangeEnd cfg totalSize (i * cfg.chunkSize)}

/-! ## Each component's blocks -/

section
variable {totalSize : ℤ} {chunkSize n i : ℕ} {fcfg : FetcherConfig} {metadata : FileMetadata}

theorem rangeEnd_eq (hsize : 0 < metadata.totalSize) (hchunk : 0 < fcfg.chunkSize)
    (hi : i < count metadata.totalSize.toNat fcfg.chunkSize) :
    rangeEnd fcfg metadata.totalSize (i * fcfg.chunkSize) =
      (i * fcfg.chunkSize : ℕ) + blockLength metadata.totalSize.toNat fcfg.chunkSize i - 1 := by
  have hstart := (lt_count_iff hchunk).mp hi
  rw [rangeEnd, blockLength]
  omega

theorem expectedBytes_eq (hsize : 0 < metadata.totalSize) (hchunk : 0 < fcfg.chunkSize)
    (hi : i < count metadata.totalSize.toNat fcfg.chunkSize) :
    expectedBytes fcfg metadata (i * fcfg.chunkSize) =
      some (blockLength metadata.totalSize.toNat fcfg.chunkSize i : ℤ) := by
  rw [expectedBytes, if_pos hsize, rangeEnd_eq hsize hchunk hi]
  congr 1
  omega

theorem mem_requested (hsize : 0 < metadata.totalSize) (hchunk : 0 < fcfg.chunkSize)
    (hi : i < count metadata.totalSize.toNat fcfg.chunkSize) {b : ℕ} :
    b ∈ requested fcfg metadata.totalSize i ↔
      b < metadata.totalSize.toNat ∧ b / fcfg.chunkSize = i := by
  rw [← mem_block hchunk, requested, Set.mem_ofPred_eq, rangeEnd_eq hsize hchunk hi]
  exact and_congr_right fun _ => by omega

/-! ## The queue and the completed set -/

/-- The indices in the queue. -/
def queuedIndices (n : ℕ) (completed : List Json) : List ℕ :=
  (buildChunkQueue n completed).map fun item => item.chunkIdx.toNat

theorem inSet_indexSet {S : List ℕ} : inSet (indexSet S) i = decide (i ∈ S) := by
  rw [inSet, indexSet, Bool.eq_iff_iff]
  simp

theorem queuedIndices_eq (completed : List Json) :
    queuedIndices n completed = (List.range n).filter fun i => !inSet completed i := by
  simp [queuedIndices, buildChunkQueue, Function.comp_def]

/-- What is queued and what is completed is every chunk once. -/
theorem queued_append_perm {S : List ℕ} (hnodup : S.Nodup) (hS : ∀ i ∈ S, i < n) :
    (queuedIndices n (indexSet S) ++ S).Perm (List.range n) := by
  rw [queuedIndices_eq]
  have hdisj : List.Disjoint ((List.range n).filter fun i => !inSet (indexSet S) i) S := by
    intro i hi hmem
    have hout := (List.mem_filter.mp hi).2
    simp [inSet_indexSet, hmem] at hout
  rw [List.perm_ext_iff_of_nodup ((List.nodup_range.filter _).append hnodup hdisj) List.nodup_range]
  intro i
  simp only [List.mem_append, List.mem_filter, List.mem_range, inSet_indexSet, Bool.not_eq_true',
    decide_eq_false_iff_not]
  constructor
  · rintro (h | h)
    · exact h.1
    · exact hS i h
  · intro h
    by_cases hmem : i ∈ S
    · exact .inr hmem
    · exact .inl ⟨h, hmem⟩

end

/-! ## The four components -/

section
variable {cfg : FetcherConfig} {metadata : FileMetadata} (hsize : 0 < metadata.totalSize)
  (hchunk : 0 < cfg.chunkSize)
include hsize hchunk

theorem requested_nonempty {i : ℕ} (hi : i < count metadata.totalSize.toNat cfg.chunkSize) :
    (requested cfg metadata.totalSize i).Nonempty := by
  have hpos := blockLength_pos hchunk hi
  refine ⟨i * cfg.chunkSize, (mem_requested hsize hchunk hi).mpr ?_⟩
  exact (mem_block hchunk).mp ⟨le_rfl, by omega⟩

/-- A byte belongs to one chunk. -/
theorem requested_disjoint {i j : ℕ} (hi : i < count metadata.totalSize.toNat cfg.chunkSize)
    (hj : j < count metadata.totalSize.toNat cfg.chunkSize) (hij : i ≠ j) :
    Disjoint (requested cfg metadata.totalSize i) (requested cfg metadata.totalSize j) := by
  refine Set.disjoint_left.mpr fun b hbi hbj => hij ?_
  rw [← ((mem_requested hsize hchunk hi).mp hbi).2, ((mem_requested hsize hchunk hj).mp hbj).2]

theorem lt_size_iff {b : ℕ} :
    (b : ℤ) < metadata.totalSize ↔
      ∃ i < count metadata.totalSize.toNat cfg.chunkSize, b ∈ requested cfg metadata.totalSize i := by
  constructor
  · intro hb
    have hb' : b < metadata.totalSize.toNat := by omega
    have hi : b / cfg.chunkSize < count metadata.totalSize.toNat cfg.chunkSize :=
      (lt_count_iff hchunk).mpr ((Nat.div_mul_le_self ..).trans_lt hb')
    exact ⟨b / cfg.chunkSize, hi, (mem_requested hsize hchunk hi).mpr ⟨hb', rfl⟩⟩
  · rintro ⟨i, hi, hb⟩
    have := ((mem_requested hsize hchunk hi).mp hb).1
    omega

/-- What is still expected and the blocks of the completed chunks are the whole file. -/
theorem expected_sum {queue S : List ℕ}
    (hparts : (queue ++ S).Perm (List.range (count metadata.totalSize.toNat cfg.chunkSize))) :
    (queue.map fun i => (expectedBytes cfg metadata (i * cfg.chunkSize)).getD 0).sum +
      ((S.map (blockLength metadata.totalSize.toNat cfg.chunkSize)).sum : ℕ) = metadata.totalSize := by
  have hqueue : (queue.map fun i => (expectedBytes cfg metadata (i * cfg.chunkSize)).getD 0).sum =
      ((queue.map (blockLength metadata.totalSize.toNat cfg.chunkSize)).sum : ℕ) := by
    rw [Nat.cast_list_sum, List.map_map]
    congr 1
    refine List.map_congr_left fun i hi => ?_
    have hlt := List.mem_range.mp (hparts.mem_iff.mp (List.mem_append_left _ hi))
    rw [expectedBytes_eq hsize hchunk hlt, Option.getD_some]
    rfl
  have hall : (queue.map (blockLength metadata.totalSize.toNat cfg.chunkSize)).sum +
      (S.map (blockLength metadata.totalSize.toNat cfg.chunkSize)).sum = metadata.totalSize.toNat := by
    rw [← List.sum_append, ← List.map_append, (hparts.map _).sum_eq, sum_blockLength hchunk]
  rw [hqueue, ← Nat.cast_add, hall, Int.toNat_of_nonneg hsize.le]

end

/-- The ranges that fetch asks for are the hasher's, they are not empty, do not overlap and cover the
file, and the progress bar counts the same chunks and, for the completed ones, the bytes that are not
expected any more. -/
theorem one_tiling (cfg : DownloadConfig) (fcfg : FetcherConfig) (metadata : FileMetadata)
    (spec : HashSpec) (algo : HashAlgo) (S : List ℕ) (hsize : 0 < metadata.totalSize)
    (hchunk : 0 < cfg.chunkSize) (hfcfg : fcfg.chunkSize = cfg.chunkSize) (hnodup : S.Nodup)
    (hS : ∀ i ∈ S, i < computeTotalChunks metadata.totalSize cfg.chunkSize) :
    let n := computeTotalChunks metadata.totalSize cfg.chunkSize
    let queue := queuedIndices n (indexSet S)
    let job := initHasher cfg metadata spec algo
    (∀ i ∈ queue ++ S, (requested fcfg metadata.totalSize i).Nonempty) ∧
    (queue ++ S).Pairwise (fun i j =>
      Disjoint (requested fcfg metadata.totalSize i) (requested fcfg metadata.totalSize j)) ∧
    (∀ b : ℕ, (b : ℤ) < metadata.totalSize ↔ ∃ i ∈ queue ++ S, b ∈ requested fcfg metadata.totalSize i) ∧
    (∀ i ∈ queue ++ S,
      expectedBytes fcfg metadata (i * fcfg.chunkSize) = some (job.chunkLength i : ℤ) ∧
      (metadata.acceptsRanges = true → rangeHeader fcfg metadata i =
        some (i * job.chunkSize, some (((i * job.chunkSize : ℕ) : ℤ) + (job.chunkLength i : ℤ) - 1)))) ∧
    (List.range job.totalChunks).flatMap
        (fun i => List.range' (i * job.chunkSize) (job.chunkLength i)) =
      List.range metadata.totalSize.toNat ∧
    ∃ p, Progress.start metadata.totalSize cfg.chunkSize (indexSet S) = some p ∧ p.totalChunks = n ∧
      p.completedBytes +
        ((queue.map fun i => (expectedBytes fcfg metadata (i * fcfg.chunkSize)).getD 0).sum : ℤ) =
          metadata.totalSize := by
  intro n queue job
  have hchunk' : 0 < fcfg.chunkSize := hfcfg ▸ hchunk
  have hn : n = count metadata.totalSize.toNat fcfg.chunkSize := by
    rw [hfcfg]
    exact computeTotalChunks_eq_count hsize hchunk
  have hparts : (queue ++ S).Perm (List.range n) := queued_append_perm hnodup hS
  have hmem : ∀ {i}, i ∈ queue ++ S ↔ i < n := hparts.mem_iff.trans List.mem_range
  have hcount : ∀ {i}, i ∈ queue ++ S → i < count metadata.totalSize.toNat fcfg.chunkSize :=
    fun hi => hn ▸ hmem.mp hi
  have hlength : ∀ i ∈ queue ++ S,
      job.chunkLength i = blockLength metadata.totalSize.toNat fcfg.chunkSize i := by
    intro i hi
    rw [hfcfg]
    exact HashJob.chunkLength_eq_blockLength hsize
      ((lt_count_iff hchunk).mp (by rw [← hfcfg]; exact hcount hi))
  refine ⟨fun i hi => requested_nonempty hsize hchunk' (hcount hi), ?_, fun b => ?_, fun i hi => ?_, ?_, ?_⟩
  · have hne : (queue ++ S).Pairwise (· ≠ ·) := hparts.nodup_iff.mpr List.nodup_range
    exact hne.imp_of_mem fun hi hj => requested_disjoint hsize hchunk' (hcount hi) (hcount hj)
  · rw [lt_size_iff hsize hchunk', ← hn]
    simp only [hmem]
  · rw [hlength i hi]
    refine ⟨expectedBytes_eq hsize hchunk' (hcount hi), fun hranges => ?_⟩
    rw [rangeHeader, if_pos hranges, if_pos hsize, rangeEnd_eq hsize hchunk' (hcount hi)]
    simp only [hfcfg, job, initHasher]
  · have hjob : job.totalChunks = count metadata.totalSize.toNat cfg.chunkSize :=
      computeTotalChunks_eq_count hsize hchunk
    rw [hjob]
    refine Eq.trans (List.flatMap_congr fun i hi => ?_) (flatMap_blocks hchunk)
    rw [hlength i (hmem.mpr (by rw [hn, hfcfg]; exact List.mem_range.mp hi)), hfcfg]
    rfl
  · have hstart : ∀ i ∈ S, i * cfg.chunkSize < metadata.totalSize.toNat := fun i hi =>
      (lt_count_iff hchunk).mp (by rw [← hfcfg, ← hn]; exact hS i hi)
    refine ⟨_, start_indexSet hsize hstart, ?_, ?_⟩
    · simp only [if_pos hchunk]
      exact (computeTotalChunks_cast hsize).symm
    · rw [hn] at hparts
      rw [← hfcfg, add_comm]
      conv_rhs => rw [← expected_sum hsize hchunk' hparts]
      rw [Int.cast_add, Int.cast_natCast]

/-- Five bytes in chunks of two, of which the middle one is there already. -/
theorem one_tiling_five :
    queuedIndices 3 (indexSet [1]) = [0, 2] ∧
      [0, 2, 1].Pairwise (fun i j =>
        Disjoint (requested { chunkSize := 2 } 5 i) (requested { chunkSize := 2 } 5 j)) ∧
      ∀ b : ℕ, (b : ℤ) < 5 ↔ ∃ i ∈ [0, 2, 1], b ∈ requested { chunkSize := 2 } 5 i := by
  have hqueue : queuedIndices 3 (indexSet [1]) = [0, 2] := by decide +kernel
  have h := one_tiling { urls := ["m"], chunkSize := 2 } { chunkSize := 2 } ⟨5, true, none, none⟩
    ⟨"md5", none⟩ ⟨Unit, (), fun _ _ => (), fun _ => ""⟩ [1] (by decide) (by decide) rfl (by decide)
    (by decide)
  have hn : computeTotalChunks 5 2 = 3 := rfl
  simp only [hn, hqueue] at h
  exact ⟨hqueue, h.2.1, h.2.2.1⟩

end Mrdl.System
