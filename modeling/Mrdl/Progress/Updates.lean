import Mrdl.Progress.Core
import Mrdl.Fetcher.Reports

/-! # `BuiltinProgress.update`

What the reports of a fetch make of the bar: the bytes are added up, a chunk that is named joins the set
of the completed ones.
-/

namespace Mrdl.Progress
open Session Fetcher
set_option autoImplicit false

namespace ProgressState

/-- `update`. -/
def update (p : ProgressState) (bytesDownloaded : ℤ) (chunkIndex : Option ℕ) : ProgressState :=
  { p with
    completedBytes := p.completedBytes + bytesDownloaded
    completedChunks := match chunkIndex with
      | none => p.completedChunks
      | some i => if inSet p.completedChunks i then p.completedChunks else p.completedChunks ++ [.int i] }

/-- A progress report reaches the bar. -/
def effect (p : ProgressState) : Effect → ProgressState
  | .update bytesDownloaded chunkIndex => p.update bytesDownloaded chunkIndex
  | .command _ => p

def effects (p : ProgressState) (es : List Effect) : ProgressState := es.foldl effect p

variable {p : ProgressState} {es : List Effect} {i : ℕ}

theorem effects_bytes (p : ProgressState) (es : List Effect) :
    (p.effects es).completedBytes = p.completedBytes + (reported es : ℤ) := by
  induction es generalizing p with
  | nil => simp [effects]
  | cons e es ih =>
    have hcons : (p.effects (e :: es)).completedBytes = (p.effect e).completedBytes + (reported es : ℤ) := ih _
    rw [hcons]
    cases e with
    | update n i =>
      rw [reported_update, Int.cast_add, ← add_assoc]
      rfl
    | command cmd =>
      rw [reported_command]
      rfl

theorem inSet_append (xs ys : List Json) (i : ℕ) : inSet (xs ++ ys) i = (inSet xs i || inSet ys i) :=
  List.any_append

theorem inSet_int (i : ℕ) : inSet [.int i] i = true := by
  simp [inSet]

theorem update_keeps (n : ℤ) (chunkIndex : Option ℕ) (h : inSet p.completedChunks i = true) :
    inSet (p.update n chunkIndex).completedChunks i = true := by
  cases chunkIndex with
  | none => exact h
  | some j =>
    simp only [update]
    split
    · exact h
    · rw [inSet_append, h, Bool.true_or]

theorem update_adds (p : ProgressState) (n : ℤ) (i : ℕ) :
    inSet (p.update n (some i)).completedChunks i = true := by
  simp only [update]
  split
  · assumption
  · rw [inSet_append, inSet_int, Bool.or_true]

theorem effects_keeps (es : List Effect) (h : inSet p.completedChunks i = true) :
    inSet (p.effects es).completedChunks i = true := by
  induction es generalizing p with
  | nil => exact h
  | cons e es ih =>
    cases e with
    | update n j => exact ih (update_keeps n j h)
    | command cmd => exact ih h

theorem effects_adds {n : ℤ} (p : ProgressState) (h : .update n (some i) ∈ es) :
    inSet (p.effects es).completedChunks i = true := by
  obtain ⟨before, after, rfl⟩ := List.append_of_mem h
  rw [effects, List.foldl_append, List.foldl_cons]
  exact effects_keeps after (update_adds _ n i)

end ProgressState

end Mrdl.Progress
