import Mathlib.Algebra.BigOperators.Ring.Finset
import Mathlib.Algebra.Order.Ring.Rat
import Mathlib.Algebra.Order.Ring.Cast
import Mathlib.Tactic.Zify
import Mrdl.Foundations.Tiling
import Mrdl.Session.Persistence

/-! # `BuiltinProgress.start`

What the progress bar works out from the size of the file and the completed chunks of an earlier run.
It counts the chunks with its own formula and takes the completed set as it comes from the progress
file, whatever the elements are.
-/

namespace Mrdl.Progress
open Session
set_option autoImplicit false

/-- The part of `ProgressState` that counts bytes and chunks. -/
structure ProgressState where
  totalBytes : ℤ := 0
  totalChunks : ℤ := 0
  completedChunks : List Json := []
  completedBytes : ℚ := 0

/-- `min(chunk_size, total_bytes - (i * chunk_size))`, with `i * chunk_size` not rounded where `i` is a
float. `none` is a `TypeError`, or minus infinity. -/
def chunkBytes (totalBytes : ℤ) (chunkSize : ℕ) : Json → Option ℚ
  -- `min` keeps its first argument when the second is not smaller, so also when that is not a number
  | .float .nan => some chunkSize
  | .float (.infinite negative) => if negative ∨ chunkSize = 0 then some chunkSize else none
  | i => i.number.map fun q => min (chunkSize : ℚ) (totalBytes - q * chunkSize)

/-- `sum(...)` over the completed chunks. -/
def sumChunkBytes (totalBytes : ℤ) (chunkSize : ℕ) : List Json → Option ℚ
  | [] => some 0
  | i :: rest =>
      (chunkBytes totalBytes chunkSize i).bind fun q =>
        (sumChunkBytes totalBytes chunkSize rest).map fun sum => q + sum

/-- `start`. -/
def start (totalBytes : ℤ) (chunkSize : ℕ) (completedChunks : List Json) : Option ProgressState :=
  (sumChunkBytes totalBytes chunkSize completedChunks).map fun completedBytes =>
    { totalBytes := totalBytes
      totalChunks := if 0 < chunkSize then (totalBytes + chunkSize - 1) / chunkSize else 0
      completedChunks := completedChunks
      completedBytes := completedBytes }

theorem sumChunkBytes_eq {totalBytes : ℤ} {chunkSize : ℕ} {xs : List Json}
    (h : ∀ x ∈ xs, (chunkBytes totalBytes chunkSize x).isSome) :
    sumChunkBytes totalBytes chunkSize xs =
      some (xs.map fun x => (chunkBytes totalBytes chunkSize x).getD 0).sum := by
  induction xs with
  | nil => rfl
  | cons x xs ih =>
    obtain ⟨q, hq⟩ := Option.isSome_iff_exists.mp (h x (List.mem_cons_self ..))
    rw [sumChunkBytes, ih fun y hy => h y (List.mem_cons_of_mem _ hy), hq, List.map_cons, List.sum_cons, hq]
    rfl

/-! ## Sets of indices -/

section
variable {totalSize : ℤ} {chunkSize i : ℕ}

/-- A set of chunk indices, as `load_resume_state` returns it. -/
def indexSet (S : List ℕ) : List Json := S.map fun i : ℕ => .int i

theorem chunkBytes_int (hsize : 0 < totalSize) (hi : i * chunkSize < totalSize.toNat) :
    chunkBytes totalSize chunkSize (.int i) =
      some (Tiling.blockLength totalSize.toNat chunkSize i : ℚ) := by
  have hlen : (Tiling.blockLength totalSize.toNat chunkSize i : ℤ) =
      min (chunkSize : ℤ) (totalSize - i * chunkSize) := by
    rw [Tiling.blockLength]
    zify at hi ⊢
    omega
  have hq : (Tiling.blockLength totalSize.toNat chunkSize i : ℚ) =
      ((min (chunkSize : ℤ) (totalSize - i * chunkSize) : ℤ) : ℚ) := by
    rw [← hlen, Int.cast_natCast]
  rw [hq]
  simp [chunkBytes, Json.number]

theorem sumChunkBytes_indexSet {S : List ℕ} (hsize : 0 < totalSize)
    (hS : ∀ i ∈ S, i * chunkSize < totalSize.toNat) :
    sumChunkBytes totalSize chunkSize (indexSet S) =
      some (((S.map (Tiling.blockLength totalSize.toNat chunkSize)).sum : ℕ) : ℚ) := by
  rw [sumChunkBytes_eq, indexSet, List.map_map, Nat.cast_list_sum, List.map_map]
  · congr 2
    exact List.map_congr_left fun i hi => by
      simp only [Function.comp_apply, chunkBytes_int hsize (hS i hi), Option.getD_some]
  · intro x hx
    obtain ⟨i, hi, rfl⟩ := List.mem_map.mp hx
    rw [chunkBytes_int hsize (hS i hi)]
    rfl

/-- The bar counts the bytes of the completed chunks. -/
theorem start_indexSet {S : List ℕ} (hsize : 0 < totalSize)
    (hS : ∀ i ∈ S, i * chunkSize < totalSize.toNat) :
    start totalSize chunkSize (indexSet S) =
      some
        { totalBytes := totalSize
          totalChunks := if 0 < chunkSize then (totalSize + chunkSize - 1) / chunkSize else 0
          completedChunks := indexSet S
          completedBytes := ((S.map (Tiling.blockLength totalSize.toNat chunkSize)).sum : ℕ) } := by
  rw [start, sumChunkBytes_indexSet hsize hS]
  rfl

end

end Mrdl.Progress
