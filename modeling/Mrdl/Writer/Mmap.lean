import Mrdl.Writer.Commands

/-! # `MmapDiskWriter`

The writer for a file that is allocated at its full size: a call changes the mapped bytes, which are the
file's, before it returns. Nothing is awaited inside a call, so each is one step.
-/

namespace Mrdl.Writer
open FileBytes
set_option autoImplicit false

structure MmapDiskWriter where
  totalSize : ℕ
  file : Bytes
  mapped : Bool := false
  diskCompleted : List ℕ
  deriving DecidableEq, Repr

namespace MmapDiskWriter

/-- `start`. A file shorter than the mapping cannot be mapped. -/
def start (w : MmapDiskWriter) : Option MmapDiskWriter :=
  if w.totalSize ≤ w.file.length then some { w with mapped := true } else none

/-- `write`: assign to a slice of the mapping. The slice is cut to the mapping, and its length has to be
that of the data. -/
def write (w : MmapDiskWriter) (offset : ℕ) (data : Bytes) : Option MmapDiskWriter :=
  let first := min offset w.totalSize
  let last := min (offset + data.length) w.totalSize
  if w.mapped = true ∧ last - first = data.length then
    some { w with file := writeAt w.file first data }
  else none

/-- `mark_complete`. -/
def markComplete (w : MmapDiskWriter) (i : ℕ) : MmapDiskWriter :=
  { w with diskCompleted := if i ∈ w.diskCompleted then w.diskCompleted else w.diskCompleted ++ [i] }

/-- `is_on_disk`. -/
def isOnDisk (w : MmapDiskWriter) (i : ℕ) : Bool := decide (i ∈ w.diskCompleted)

/-- `stop`. -/
def stop (w : MmapDiskWriter) : MmapDiskWriter := { w with mapped := false }

/-- A call of one of the coroutines; `truncate` does nothing. -/
def call (w : MmapDiskWriter) : Command → Option MmapDiskWriter
  | .write offset data => w.write offset data
  | .mark i => some (w.markComplete i)
  | .truncate _ => some w

theorem write_inside {w : MmapDiskWriter} {offset : ℕ} {data : Bytes} (hmapped : w.mapped = true)
    (h : offset + data.length ≤ w.totalSize) :
    w.write offset data = some { w with file := writeAt w.file offset data } := by
  unfold write
  simp only [Nat.min_eq_left h, Nat.min_eq_left (Nat.le_of_add_right_le h), Nat.add_sub_cancel_left,
    hmapped, and_self, if_true]

theorem mem_markComplete {w : MmapDiskWriter} {i j : ℕ} :
    j ∈ (w.markComplete i).diskCompleted ↔ j ∈ w.diskCompleted ∨ j = i := by
  unfold markComplete
  by_cases hi : i ∈ w.diskCompleted
  · simp only [if_pos hi]
    exact ⟨Or.inl, fun h => h.elim id fun heq => heq ▸ hi⟩
  · simp only [if_neg hi, List.mem_append, List.mem_singleton]

end MmapDiskWriter

end Mrdl.Writer
