import Mathlib.Data.List.Nodup
import Mrdl.Progress.Core
import Mrdl.Session.Resume

/-! # Resuming from any JSON value

The value of the progress file passes through `load`, `validate_for_resume`, `set` and the sum of the
progress bar, and each of them takes for granted a shape that the one before did not check: a dict,
hashable elements, indices of chunks.
-/

namespace Mrdl.Session
open Tiling
set_option autoImplicit false

/-! ## Sets of JSON values -/

theorem mem_of_mem_pySet {xs : List Json} {x : Json} (h : x ∈ pySet xs) : x ∈ xs := by
  induction xs with
  | nil => exact h
  | cons y xs ih =>
    rcases List.mem_cons.mp h with rfl | h
    · exact List.mem_cons_self ..
    · exact List.mem_cons_of_mem _ (ih (List.mem_filter.mp h).1)

theorem pySet_pairwise (xs : List Json) : (pySet xs).Pairwise fun x y => x.sameElement y = false := by
  induction xs with
  | nil => exact .nil
  | cons x xs ih =>
    refine .cons (fun y hy => ?_) (ih.filter _)
    simpa using (List.mem_filter.mp hy).2

/-- Every element of the list has an equal in the set. -/
theorem exists_mem_pySet {xs : List Json} {x : Json} (h : x ∈ xs) :
    ∃ y ∈ pySet xs, ∀ n : ℤ, y.eqInt n = x.eqInt n := by
  induction xs with
  | nil => cases h
  | cons a xs ih =>
    rcases List.mem_cons.mp h with rfl | h
    · exact ⟨x, List.mem_cons_self .., fun _ => rfl⟩
    · obtain ⟨y, hy, heq⟩ := ih h
      cases hay : a.sameElement y with
      | true =>
        exact ⟨a, List.mem_cons_self .., fun n => (Json.eqInt_of_sameElement hay n).trans (heq n)⟩
      | false =>
        exact ⟨y, List.mem_cons_of_mem _ (List.mem_filter.mpr ⟨hy, by simp [hay]⟩), heq⟩

theorem number_of_eqInt {x : Json} {n : ℤ} (h : x.eqInt n = true) : x.number = some (n : ℚ) := by
  simpa [Json.eqInt] using h

theorem hashable_of_eqInt {x : Json} {n : ℤ} (h : x.eqInt n = true) : x.hashable = true := by
  have hnum := number_of_eqInt h
  cases x with
  | arr xs => cases hnum
  | obj fields => cases hnum
  | _ => rfl

/-- Two elements that stand for one index are one element. -/
theorem sameElement_of_eqInt {x y : Json} {n : ℤ} (hx : x.eqInt n = true) (hy : y.eqInt n = true) :
    x.sameElement y = true := by
  have hx' := number_of_eqInt hx
  have hy' := number_of_eqInt hy
  unfold Json.sameElement
  split
  · cases hx'
  · cases hx'
  · cases hx'
  · cases hx'
  · simp [hx', hy']

/-! ## Sets of chunk indices -/

/-- The value is the index of one of `n` chunks. -/
def IsIndex (n : ℕ) (x : Json) : Prop := ∃ i : ℕ, i < n ∧ x.eqInt i = true

/-- Only the number an element stands for counts. -/
theorem chunkBytes_of_eqInt {totalSize : ℤ} {chunkSize : ℕ} {x : Json} {i : ℕ} (h : x.eqInt i = true) :
    Progress.chunkBytes totalSize chunkSize x = Progress.chunkBytes totalSize chunkSize (.int i) := by
  have hnum := number_of_eqInt h
  unfold Progress.chunkBytes
  split
  · cases hnum
  · cases hnum
  · rw [hnum]
    rfl

/-- A set of chunk indices is counted like one of integers. -/
theorem sumChunkBytes_indices (totalSize : ℤ) (chunkSize : ℕ) {n : ℕ} {xs : List Json}
    (hxs : ∀ x ∈ xs, IsIndex n x) (hset : xs.Pairwise fun x y => x.sameElement y = false) :
    ∃ S : List ℕ, S.Nodup ∧ (∀ i ∈ S, i < n ∧ ∃ x ∈ xs, x.eqInt i = true) ∧
      Progress.sumChunkBytes totalSize chunkSize xs =
        Progress.sumChunkBytes totalSize chunkSize (Progress.indexSet S) := by
  induction xs with
  | nil => exact ⟨[], List.nodup_nil, by simp, rfl⟩
  | cons x xs ih =>
    obtain ⟨i, hi, hx⟩ := hxs x (List.mem_cons_self ..)
    obtain ⟨hdiff, hset⟩ := List.pairwise_cons.mp hset
    obtain ⟨S, hnodup, hS, hsum⟩ := ih (fun y hy => hxs y (List.mem_cons_of_mem _ hy)) hset
    refine ⟨i :: S, List.nodup_cons.mpr ⟨fun hmem => ?_, hnodup⟩, ?_, ?_⟩
    · obtain ⟨-, y, hy, hyi⟩ := hS i hmem
      have hsame := hdiff y hy
      rw [sameElement_of_eqInt hx hyi] at hsame
      cases hsame
    · intro j hj
      rcases List.mem_cons.mp hj with rfl | hj
      · exact ⟨hi, x, List.mem_cons_self .., hx⟩
      · obtain ⟨hjn, y, hy, hyj⟩ := hS j hj
        exact ⟨hjn, y, List.mem_cons_of_mem _ hy, hyj⟩
    · rw [Progress.sumChunkBytes, chunkBytes_of_eqInt hx, hsum]
      rfl

theorem start_indices {totalSize : ℤ} {chunkSize : ℕ} {xs : List Json} (hsize : 0 < totalSize)
    (hchunk : 0 < chunkSize) (hxs : ∀ x ∈ xs, IsIndex (computeTotalChunks totalSize chunkSize) x)
    (hset : xs.Pairwise fun x y => x.sameElement y = false) :
    ∃ p, Progress.start totalSize chunkSize xs = some p ∧ 0 ≤ p.completedBytes ∧
      p.completedBytes ≤ totalSize := by
  obtain ⟨S, hnodup, hS, hsum⟩ := sumChunkBytes_indices totalSize chunkSize hxs hset
  rw [computeTotalChunks_eq_count hsize hchunk] at hS
  have hstarts := Progress.sumChunkBytes_indexSet hsize fun i hi => (lt_count_iff hchunk).mp (hS i hi).1
  refine ⟨_, by rw [Progress.start, hsum, hstarts]; rfl, Nat.cast_nonneg _, ?_⟩
  have hle := sum_blockLength_le hchunk hnodup fun i hi => (hS i hi).1
  have hsize' : (totalSize.toNat : ℤ) = totalSize := Int.toNat_of_nonneg hsize.le
  calc (((S.map (blockLength totalSize.toNat chunkSize)).sum : ℕ) : ℚ)
      ≤ (totalSize.toNat : ℚ) := by exact_mod_cast hle
    _ = ((totalSize.toNat : ℤ) : ℚ) := (Int.cast_natCast _).symm
    _ = totalSize := by rw [hsize']

/-! ## The progress file -/

/-- What `load` is documented to return. -/
def DictOrNone : Option Json → Prop
  | none | some .null | some (.obj _) => True
  | _ => False

/-- The resume with this progress file goes through, with a completed set of chunks of the file. -/
structure Survives (saved : Json) (metadata : FileMetadata) (chunkSize : ℕ) : Prop where
  documented : ∃ loaded, load (.state saved) = .ok loaded ∧ DictOrNone loaded
  resumes : ∃ state completed, loadResumeState (.state saved) metadata chunkSize = .ok (state, completed) ∧
    (∀ x ∈ completed, IsIndex (computeTotalChunks metadata.totalSize chunkSize) x) ∧
    ∃ p, Progress.start metadata.totalSize chunkSize completed = some p ∧ 0 ≤ p.completedBytes ∧
      p.completedBytes ≤ metadata.totalSize

section
variable {saved : Json} {metadata : FileMetadata} {chunkSize : ℕ}

theorem chooseState_obj (fields : Dict) :
    chooseState (some (.obj fields)) metadata chunkSize =
      .ok (if validateForResume fields metadata chunkSize then fields
        else buildFreshState metadata chunkSize) := by
  cases fields with
  | nil => rfl
  | cons kv rest => rfl

/-- A state whose list holds indices only is resumed from. -/
theorem resumes_of_indices {state : Dict} (hsize : 0 < metadata.totalSize) (hchunk : 0 < chunkSize)
    (hchoose : chooseState (some saved) metadata chunkSize = .ok state)
    (hlist : ∀ x ∈ completedList state, IsIndex (computeTotalChunks metadata.totalSize chunkSize) x) :
    ∃ state completed, loadResumeState (.state saved) metadata chunkSize = .ok (state, completed) ∧
      (∀ x ∈ completed, IsIndex (computeTotalChunks metadata.totalSize chunkSize) x) ∧
      ∃ p, Progress.start metadata.totalSize chunkSize completed = some p ∧ 0 ≤ p.completedBytes ∧
        p.completedBytes ≤ metadata.totalSize := by
  have hhash : (completedList state).all Json.hashable = true := by
    rw [List.all_eq_true]
    intro x hx
    obtain ⟨i, -, hxi⟩ := hlist x hx
    exact hashable_of_eqInt hxi
  have hset : ∀ x ∈ pySet (completedList state),
      IsIndex (computeTotalChunks metadata.totalSize chunkSize) x :=
    fun x hx => hlist x (mem_of_mem_pySet hx)
  refine ⟨state.set "completed" (.arr (completedList state)), _, ?_, hset,
    start_indices hsize hchunk hset (pySet_pairwise _)⟩
  simp only [loadResumeState, load, hchoose, hhash, if_true]

/-- A resumed set of indices comes from a list of indices. -/
theorem indices_of_resumes {state state' : Dict} {completed : List Json} {n : ℕ}
    (hchoose : chooseState (some saved) metadata chunkSize = .ok state)
    (hload : loadResumeState (.state saved) metadata chunkSize = .ok (state', completed))
    (hset : ∀ x ∈ completed, IsIndex n x) : ∀ x ∈ completedList state, IsIndex n x := by
  simp only [loadResumeState, load, hchoose] at hload
  split at hload
  · cases hload
    intro x hx
    obtain ⟨y, hy, heq⟩ := exists_mem_pySet hx
    obtain ⟨i, hi, hyi⟩ := hset y hy
    exact ⟨i, hi, by rw [← heq, hyi]⟩
  · cases hload

/-- The resume goes through exactly for `null`, and for an object that does not describe this download
or lists nothing but indices of its chunks. -/
theorem resume_survives_iff (saved : Json) (metadata : FileMetadata) (chunkSize : ℕ)
    (hsize : 0 < metadata.totalSize) (hchunk : 0 < chunkSize) :
    Survives saved metadata chunkSize ↔
      saved = .null ∨ ∃ fields, saved = .obj fields ∧
        (validateForResume fields metadata chunkSize = true →
          ∀ x ∈ completedList fields, IsIndex (computeTotalChunks metadata.totalSize chunkSize) x) := by
  constructor
  · rintro ⟨⟨loaded, hload, hdict⟩, state, completed, hresume, hset, -⟩
    cases hload
    cases saved with
    | null => exact .inl rfl
    | obj fields =>
      refine .inr ⟨fields, rfl, fun hvalid => indices_of_resumes ?_ hresume hset⟩
      rw [chooseState_obj, if_pos hvalid]
    | _ => cases hdict
  · have hfresh : ∀ x ∈ completedList (buildFreshState metadata chunkSize),
        IsIndex (computeTotalChunks metadata.totalSize chunkSize) x := by
      rw [completedList_fresh]
      simp
    rintro (rfl | ⟨fields, rfl, hlist⟩)
    · exact ⟨⟨_, rfl, trivial⟩, resumes_of_indices hsize hchunk rfl hfresh⟩
    · refine ⟨⟨_, rfl, trivial⟩, resumes_of_indices hsize hchunk (chooseState_obj fields) ?_⟩
      split
      · rename_i hvalid
        exact hlist hvalid
      · exact hfresh

/-- A progress file that holds a list: `load` returns it, and `load_resume_state` raises. So does it on
an object that lists a list, and an object that lists a chunk too many is resumed from. -/
theorem bad_progress_files :
    ¬ Survives (.arr [.int 0]) ⟨4, true, none, none⟩ 2 ∧
      loadResumeState (.state (.arr [.int 0])) ⟨4, true, none, none⟩ 2 = .error .attributeError ∧
      ¬ Survives (.obj [("total_size", .int 4), ("chunk_size", .int 2), ("completed", .arr [.arr []])])
        ⟨4, true, none, none⟩ 2 ∧
      ¬ Survives (.obj [("total_size", .int 4), ("chunk_size", .int 2), ("completed", .arr [.int 9])])
        ⟨4, true, none, none⟩ 2 := by
  refine ⟨?_, rfl, ?_, ?_⟩
  · rintro ⟨⟨loaded, hload, hdict⟩, -⟩
    cases hload
    exact hdict
  · rintro ⟨-, state, completed, hresume, -⟩
    cases hresume
  · rintro ⟨-, state, completed, hresume, hset, -⟩
    cases hresume
    obtain ⟨i, hi, heq⟩ := hset (.int 9) (List.mem_singleton.mpr rfl)
    have hnine : (9 : ℤ) = i := by simpa using heq
    have hcount : computeTotalChunks 4 2 = 2 := rfl
    rw [hcount] at hi
    omega

/-- Chunk 1 is listed twice, once as `true`. -/
theorem resume_survives_true :
    Survives (.obj [("total_size", .int 4), ("chunk_size", .int 2), ("completed", .arr [.bool true, .int 1])])
      ⟨4, true, none, none⟩ 2 :=
  (resume_survives_iff _ ⟨4, true, none, none⟩ 2 (by decide) (by decide)).mpr
    (.inr ⟨_, rfl, fun _ x hx => ⟨1, by decide, by
      rcases List.mem_pair.mp hx with rfl | rfl <;> decide +kernel⟩⟩)

end

end Mrdl.Session
