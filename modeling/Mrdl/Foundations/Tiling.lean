import Mathlib.Algebra.BigOperators.Group.List.Basic
import Mathlib.Algebra.Order.BigOperators.Group.List
import Mathlib.Algebra.Order.Group.Nat
import Mathlib.Algebra.GroupWithZero.Nat
import Mathlib.Data.List.Nodup
import Mathlib.Data.List.Perm.Subperm
import Mathlib.Data.List.Flatten
import Mathlib.Order.MinMax

/-! # Cutting an interval into blocks of one width

`[0, size)` in blocks of `width`, of which only the last may be shorter. Block `i` begins at `i * width`
and holds the numbers whose quotient by `width` is `i`, so that the blocks are disjoint and miss nothing
(`mem_block`), and what is read block after block is a prefix (`flatten_blocks`).
-/

namespace Mrdl.Tiling
set_option autoImplicit false

/-- The number of blocks. -/
def count (size width : ℕ) : ℕ := (size + width - 1) / width

def blockLength (size width i : ℕ) : ℕ := min width (size - i * width)

variable {α : Type*} {size width i b : ℕ}

theorem lt_count_iff (hw : 0 < width) : i < count size width ↔ i * width < size := by
  rw [count, Nat.lt_iff_add_one_le, Nat.le_div_iff_mul_le hw, Nat.succ_mul]
  omega

theorem size_le (hw : 0 < width) : size ≤ count size width * width := by
  have h : ¬ count size width * width < size := mt (lt_count_iff hw).mpr (lt_irrefl _)
  exact not_lt.mp h

theorem blockLength_pos (hw : 0 < width) (hi : i < count size width) : 0 < blockLength size width i := by
  have hstart := (lt_count_iff hw).mp hi
  rw [blockLength, lt_min_iff]
  omega

/-- A number lies in the block of its quotient, and in no other. -/
theorem mem_block (hw : 0 < width) :
    (i * width ≤ b ∧ b < i * width + blockLength size width i) ↔ b < size ∧ b / width = i := by
  rw [Nat.div_eq_iff hw, blockLength]
  omega

theorem sum_blockLength_range (k : ℕ) :
    ((List.range k).map (blockLength size width)).sum = min (k * width) size := by
  induction k with
  | zero => simp
  | succ k ih =>
    rw [List.range_succ, List.map_append, List.sum_append, ih, List.map_singleton, List.sum_singleton,
      blockLength, Nat.succ_mul]
    omega

theorem sum_blockLength (hw : 0 < width) :
    ((List.range (count size width)).map (blockLength size width)).sum = size := by
  rw [sum_blockLength_range, min_eq_right (size_le hw)]

/-- Some of the blocks, each once. -/
theorem sum_blockLength_le (hw : 0 < width) {chosen : List ℕ} (hnodup : chosen.Nodup)
    (hchosen : ∀ i ∈ chosen, i < count size width) :
    (chosen.map (blockLength size width)).sum ≤ size := by
  have hsub : chosen.Subperm (List.range (count size width)) :=
    List.Nodup.subperm hnodup fun i hi => List.mem_range.mpr (hchosen i hi)
  obtain ⟨l, hperm, hsub⟩ := hsub
  calc (chosen.map (blockLength size width)).sum
      = (l.map (blockLength size width)).sum := (hperm.map _).sum_eq.symm
    _ ≤ ((List.range (count size width)).map (blockLength size width)).sum :=
        (hsub.map _).sum_le_sum fun _ _ => Nat.zero_le _
    _ = size := sum_blockLength hw

theorem flatten_blocks_range (xs : List α) (k : ℕ) :
    ((List.range k).map fun i => (xs.drop (i * width)).take (blockLength xs.length width i)).flatten =
      xs.take (k * width) := by
  induction k with
  | zero => simp
  | succ k ih =>
    rw [List.range_succ, List.map_append, List.flatten_append, ih, List.map_singleton,
      List.flatten_singleton, blockLength, Nat.succ_mul, List.take_add]
    congr 1
    rw [List.take_eq_take_iff, List.length_drop]
    omega

/-- Read block after block, nothing is missing and nothing comes twice. -/
theorem flatten_blocks (hw : 0 < width) (xs : List α) :
    ((List.range (count xs.length width)).map fun i =>
      (xs.drop (i * width)).take (blockLength xs.length width i)).flatten = xs := by
  rw [flatten_blocks_range, List.take_of_length_le (size_le hw)]

/-- The blocks as intervals, one after another. -/
theorem flatMap_blocks (hw : 0 < width) :
    (List.range (count size width)).flatMap
      (fun i => List.range' (i * width) (blockLength size width i)) = List.range size := by
  have hblocks := flatten_blocks hw (List.range size)
  rw [List.length_range] at hblocks
  conv_rhs => rw [← hblocks]
  rw [List.flatMap_def]
  congr 1
  refine List.map_congr_left fun i hi => ?_
  have hstart := (lt_count_iff hw).mp (List.mem_range.mp hi)
  refine List.ext_getElem ?_ fun k _ _ => by simp
  simp [blockLength]

end Mrdl.Tiling
