import Mrdl.Session.SavedState

/-! # Runs on one destination while the remote file changes

A sequence of runs, each with what its own probe reported and each ended by the beginning of the next. The
progress file and the completed set of a run list chunks by their index alone; beside them the machine keeps
which probe the run that fetched a chunk had seen. A state dict has the validators of the run that built it,
and a run that resumes from it does not add its own.
-/

namespace Mrdl.Session
open Runs
set_option autoImplicit false

/-- The headers that tell versions of a file apart. -/
inductive Validator
  | etag
  | lastModified
  deriving DecidableEq, Repr

/-- Its key in a state dict. -/
def Validator.key : Validator → String
  | .etag => "etag"
  | .lastModified => "last_modified"

def Validator.of : Validator → FileMetadata → Option String
  | .etag, m => m.etag
  | .lastModified, m => m.lastModified

/-- Two probes of what may be one file: the same size, and no validator that both saw and that differs. -/
structure Agree (m m' : FileMetadata) : Prop where
  size : m.totalSize = m'.totalSize
  validator : ∀ v x y, Validator.of v m = some x → Validator.of v m' = some y → x = y

/-- A chunk, with what the run that fetched it had probed. -/
abbrev Tag := ℕ × FileMetadata

/-- A run at work: what it probed, its state dict, its completed set. -/
structure TaggedRun where
  metadata : FileMetadata
  chunkSize : ℕ
  downloadState : Dict
  completedSet : List Json
  tags : List Tag

/-- The progress file, the run that began last, and snapshots on their way to the file. A snapshot may be
that of an earlier run, whose saver's thread is still at work. -/
structure History where
  progress : ProgressFile := .absent
  fileTags : List Tag := []
  run : Option TaggedRun := none
  inFlight : List (Dict × List Tag) := []

inductive HistoryAct
  | begins (cfg : DownloadConfig) (os : Platform) (dest : Option Bytes) (metadata : FileMetadata)
  | records (i : ℕ)
  | copies
  | replaces (k : ℕ)
  | fails (k : ℕ)
  | savesCollide
  | pausesEarly
  | clears

/-- `_completed_set.add`, with the tag of a chunk that was not in the set. -/
def TaggedRun.record (r : TaggedRun) (i : ℕ) : TaggedRun :=
  { r with
    completedSet := addChunk r.completedSet i
    tags := if inSet r.completedSet i then r.tags else r.tags ++ [(i, r.metadata)] }

/-- `download_state["completed"] = list(completed_set)`. -/
def TaggedRun.snapshot (r : TaggedRun) : Dict := r.downloadState.set "completed" (.arr r.completedSet)

/-- The run takes the chunks over that the progress file lists, with their tags. -/
def Opened.tagged (s : Opened) (fileTags : List Tag) : TaggedRun where
  metadata := s.metadata
  chunkSize := s.cfg.chunkSize
  downloadState := s.downloadState
  completedSet := s.completedSet
  tags := fileTags.filter fun t => inSet s.completedSet t.1

/-- `start` of a new run, which may interrupt the one before it anywhere; a chunk the run has fetched;
`_save_state` or the saver's task, as a copy that replaces the file at some later time or fails; `pause`
before the resume state is loaded; `clear`. -/
def historyStep (h : History) : HistoryAct → Option History
  | .begins cfg os dest metadata =>
      match openSession cfg os ⟨dest, h.progress⟩ metadata with
      | .error _ => none
      | .ok s =>
          let fileTags := if cfg.overwrite ∧ dest.isSome then [] else h.fileTags
          some { h with
            progress := progressAfterClaim cfg ⟨dest, h.progress⟩
            fileTags := fileTags
            run := some (s.tagged fileTags) }
  | .records i =>
      match h.run with
      | none => none
      | some r =>
          if i < computeTotalChunks r.metadata.totalSize r.chunkSize then
            some { h with run := some (r.record i) }
          else none
  | .copies =>
      match h.run with
      | none => none
      | some r => some { h with
          run := some { r with downloadState := r.snapshot }
          inFlight := h.inFlight ++ [(r.snapshot, r.tags)] }
  | .replaces k =>
      match h.inFlight[k]? with
      | none => none
      | some (state, tags) => some { h with
          progress := .state (.obj state)
          fileTags := tags
          inFlight := h.inFlight.eraseIdx k }
  | .fails k => some { h with inFlight := h.inFlight.eraseIdx k }
  | .savesCollide => some { h with progress := .malformed, fileTags := [] }
  | .pausesEarly => some { h with
      progress := .state (.obj (Dict.set [] "completed" (.arr [])))
      fileTags := [] }
  | .clears => some { h with progress := .absent, fileTags := [] }

/-- A string, for a value that is one. -/
def Json.text : Json → Option String
  | .str s => some s
  | _ => none

/-- `validate_for_resume` compares the two values. -/
def compared (saved : Json) (probed : String) : Bool := saved.truthy && decide (probed ≠ "")

/-- A probed value that is not compared is the saved one, and the one of every listed chunk, as far as
these exist. -/
def Vouches (v : Validator) (saved : Dict) (tags : List Tag) (metadata : FileMetadata) : Prop :=
  ∀ x ∈ v.of metadata, compared (saved.get v.key) x = false →
    (∀ y ∈ (saved.get v.key).text, y = x) ∧ ∀ t ∈ tags, ∀ y ∈ v.of t.2, y = x

instance (v : Validator) (saved : Dict) (tags : List Tag) (metadata : FileMetadata) :
    Decidable (Vouches v saved tags metadata) := by
  unfold Vouches
  infer_instance

/-- The state dict in a progress file. -/
def savedDict : ProgressFile → Option Dict
  | .state (.obj saved) => some saved
  | _ => none

/-- Whenever a run resumes, both validators are vouched for. -/
def Vouched (h : History) : HistoryAct → Prop
  | .begins cfg _ dest metadata =>
      ∀ saved ∈ savedDict (progressAfterClaim cfg ⟨dest, h.progress⟩),
        validateForResume saved metadata (applyProbeFallback cfg metadata).chunkSize = true →
          Vouches .etag saved h.fileTags metadata ∧ Vouches .lastModified saved h.fileTags metadata
  | _ => True

instance (h : History) (a : HistoryAct) : Decidable (Vouched h a) := by
  cases a <;> unfold Vouched <;> infer_instance

/-! ## The progress file and the chunks it lists -/

theorem Agree.refl (m : FileMetadata) : Agree m m where
  size := rfl
  validator _ _ _ hx hy := Option.some.inj (hx.symm.trans hy)

theorem Agree.symm {m m' : FileMetadata} (h : Agree m m') : Agree m' m where
  size := h.size.symm
  validator v x y hx hy := (h.validator v y x hy hx).symm

theorem text_eq_some {x : Json} {y : String} : x.text = some y ↔ x = .str y := by
  cases x <;> simp [Json.text]

/-- A state dict fits the probes of some runs, and these fit each other. -/
structure Fits (d : Dict) (probes : List FileMetadata) : Prop where
  size : ∀ m ∈ probes, (d.get "total_size").eqInt m.totalSize = true
  saved : ∀ m ∈ probes, ∀ v x y, d.get (Validator.key v) = .str x → Validator.of v m = some y → x = y
  agree : ∀ m ∈ probes, ∀ m' ∈ probes, ∀ v x y, Validator.of v m = some x → Validator.of v m' = some y → x = y

section
variable {d : Dict} {probes probes' : List FileMetadata} {metadata : FileMetadata} {chunkSize : ℕ}

theorem Fits.subset (h : Fits d probes) (hsub : ∀ m ∈ probes', m ∈ probes) : Fits d probes' :=
  ⟨fun m hm => h.size m (hsub m hm), fun m hm => h.saved m (hsub m hm),
    fun m hm m' hm' => h.agree m (hsub m hm) m' (hsub m' hm')⟩

theorem Fits.set_completed (h : Fits d probes) (value : Json) : Fits (d.set "completed" value) probes where
  size m hm := by
    rw [Dict.get_set_other d value (by decide)]
    exact h.size m hm
  saved m hm v x y hx hy := by
    have hkey : v.key ≠ "completed" := by cases v <;> decide
    rw [Dict.get_set_other d value hkey] at hx
    exact h.saved m hm v x y hx hy
  agree := h.agree

theorem fits_fresh (metadata : FileMetadata) (chunkSize : ℕ) :
    Fits (buildFreshState metadata chunkSize) [metadata] where
  size m hm := by
    rw [List.mem_singleton.mp hm]
    show (Json.int metadata.totalSize).eqInt metadata.totalSize = true
    simp
  saved m hm v x y hx hy := by
    rw [List.mem_singleton.mp hm] at hy
    have hopt : (buildFreshState metadata chunkSize).get v.key = optionalString (v.of metadata) := by
      cases v <;> rfl
    rw [hopt, hy] at hx
    exact (Json.str.inj hx).symm
  agree m hm m' hm' := by
    rw [List.mem_singleton.mp hm, List.mem_singleton.mp hm']
    exact (Agree.refl metadata).validator

theorem compared_eq {v : Validator} {x : String} (hvalid : validateForResume d metadata chunkSize = true)
    (hx : v.of metadata = some x) (hcompared : compared (d.get v.key) x = true) : d.get v.key = .str x := by
  have hdiffers : differs (d.get v.key) (v.of metadata) = false := by
    simp only [validateForResume, Bool.and_eq_true, Bool.not_eq_true'] at hvalid
    cases v with
    | etag => exact hvalid.1.2
    | lastModified => exact hvalid.2
  simp only [hx, differs, compared] at hdiffers hcompared
  rw [hcompared] at hdiffers
  cases hj : d.get v.key with
  | str s => simpa [hj, Json.eqStr] using hdiffers
  | _ => simp [hj, Json.eqStr] at hdiffers

/-- A probe that passes the check fits too, when what is not compared is vouched for. -/
theorem Fits.resume {tags : List Tag} (h : Fits d (tags.map Prod.snd))
    (hvalid : validateForResume d metadata chunkSize = true) (hvouched : ∀ v, Vouches v d tags metadata) :
    Fits d (metadata :: tags.map Prod.snd) := by
  have hsaved : ∀ v x y, d.get (Validator.key v) = .str x → Validator.of v metadata = some y → x = y := by
    intro v x y hx hy
    cases hc : compared (d.get v.key) y with
    | true =>
      have heq := compared_eq hvalid hy hc
      exact Json.str.inj (hx.symm.trans heq)
    | false => exact (hvouched v y hy hc).1 x (text_eq_some.mpr hx)
  have htags : ∀ m ∈ tags.map Prod.snd, ∀ v x y, Validator.of v metadata = some x →
      Validator.of v m = some y → x = y := by
    intro m hm v x y hx hy
    cases hc : compared (d.get v.key) x with
    | true => exact h.saved m hm v x y (compared_eq hvalid hx hc) hy
    | false =>
      obtain ⟨t, ht, rfl⟩ := List.mem_map.mp hm
      exact ((hvouched v x hx hc).2 t ht y hy).symm
  refine ⟨fun m hm => ?_, fun m hm => ?_, fun m hm m' hm' => ?_⟩
  · rcases List.mem_cons.mp hm with rfl | hm
    · simp only [validateForResume, Bool.and_eq_true] at hvalid
      exact hvalid.1.1.1
    · exact h.size m hm
  · rcases List.mem_cons.mp hm with rfl | hm
    · exact hsaved
    · exact h.saved m hm
  · rcases List.mem_cons.mp hm with heq | hold
    · rcases List.mem_cons.mp hm' with heq' | hold'
      · rw [heq, heq']
        exact (Agree.refl metadata).validator
      · rw [heq]
        exact htags m' hold'
    · rcases List.mem_cons.mp hm' with heq' | hold'
      · intro v x y hx hy
        rw [heq'] at hy
        exact (htags m hold v y x hy hx).symm
      · exact h.agree m hold m' hold'

end

theorem chooseState_cases {found : Option Json} {metadata : FileMetadata} {chunkSize : ℕ} {state : Dict}
    (h : chooseState found metadata chunkSize = .ok state) :
    (found = some (.obj state) ∧ validateForResume state metadata chunkSize = true) ∨
      state = buildFreshState metadata chunkSize := by
  unfold chooseState at h
  split at h
  · cases h
    exact .inr rfl
  · split at h
    · split at h
      · rename_i saved _
        cases h
        by_cases hvalid : validateForResume saved metadata chunkSize = true
        · rw [if_pos hvalid]
          exact .inl ⟨rfl, hvalid⟩
        · rw [if_neg hvalid]
          exact .inr rfl
      · cases h
    · cases h
      exact .inr rfl

theorem load_some {progress : ProgressFile} {j : Json} (h : load progress = .ok (some j)) :
    progress = .state j := by
  cases progress <;> cases h
  rfl

/-- A run resumes from a state dict that passes the check, or begins with nothing. -/
theorem openSession_state {cfg : DownloadConfig} {os : Platform} {disk : Disk} {metadata : FileMetadata}
    {s : Opened} (h : openSession cfg os disk metadata = .ok s) :
    ∃ state, s.metadata = metadata ∧ s.downloadState = Dict.set state "completed" (.arr (completedList state)) ∧
      s.completedSet = pySet (completedList state) ∧
      ((savedDict (progressAfterClaim cfg disk) = some state ∧
          validateForResume state metadata (applyProbeFallback cfg metadata).chunkSize = true) ∨
        state = buildFreshState metadata (applyProbeFallback cfg metadata).chunkSize) := by
  obtain ⟨disk', state, completed, hclaim, hload, rfl⟩ := openSession_ok h
  obtain ⟨saved, chosen, hsaved, hchoose, rfl, rfl⟩ := loadResumeState_ok hload
  refine ⟨chosen, rfl, rfl, rfl, (chooseState_cases hchoose).imp (fun hfound => ?_) id⟩
  rw [hfound.1] at hsaved
  rw [← claimDestination_progress hclaim, load_some hsaved]
  exact ⟨rfl, hfound.2⟩

/-! ## What every step keeps -/

/-- The chunks a state dict lists are those of the tags, whose probes fit the dict. -/
structure Listed (d : Dict) (tags : List Tag) : Prop where
  fits : Fits d (tags.map Prod.snd)
  tagged : ∀ i, inSet (completedList d) i = true ↔ ∃ m, (i, m) ∈ tags

structure TaggedRun.Inv (r : TaggedRun) : Prop where
  fits : Fits r.downloadState (r.metadata :: r.tags.map Prod.snd)
  tagged : ∀ i, inSet r.completedSet i = true ↔ ∃ m, (i, m) ∈ r.tags

structure History.Inv (h : History) : Prop where
  file : ∀ d, savedDict h.progress = some d → Listed d h.fileTags
  run : ∀ r, h.run = some r → r.Inv
  inFlight : ∀ p ∈ h.inFlight, Listed p.1 p.2

theorem inSet_addChunk (xs : List Json) (i j : ℕ) :
    inSet (addChunk xs i) j = true ↔ inSet xs j = true ∨ j = i := by
  unfold addChunk
  by_cases hi : inSet xs i = true
  · rw [if_pos hi]
    exact ⟨.inl, fun h => h.elim id fun heq => heq ▸ hi⟩
  · rw [if_neg hi]
    simp only [inSet, List.any_append, Bool.or_eq_true, List.any_cons, List.any_nil, Bool.or_false,
      Json.eqInt_int, decide_eq_true_eq, Nat.cast_inj]
    exact or_congr_right eq_comm

theorem TaggedRun.Inv.record {r : TaggedRun} (h : r.Inv) (i : ℕ) : (r.record i).Inv := by
  unfold TaggedRun.record
  by_cases hi : inSet r.completedSet i = true
  · simp only [hi, if_true]
    refine ⟨h.fits, fun j => ?_⟩
    rw [inSet_addChunk, ← h.tagged j]
    exact ⟨fun hj => hj.elim id fun heq => heq ▸ hi, .inl⟩
  · simp only [hi, if_false, Bool.false_eq_true]
    refine ⟨h.fits.subset fun m hm => ?_, fun j => ?_⟩
    · simp only [List.map_append, List.mem_cons, List.mem_append, List.map_cons, List.map_nil,
        List.not_mem_nil, or_false] at hm ⊢
      tauto
    · rw [inSet_addChunk, h.tagged j]
      simp only [List.mem_append, List.mem_singleton, Prod.mk.injEq, exists_or]
      apply or_congr_right
      exact ⟨fun hj => ⟨_, hj, rfl⟩, fun ⟨_, hj, _⟩ => hj⟩

theorem TaggedRun.Inv.listed {r : TaggedRun} (h : r.Inv) : Listed r.snapshot r.tags where
  fits := (h.fits.set_completed _).subset fun _ => List.mem_cons_of_mem _
  tagged i := by
    rw [completedList, TaggedRun.snapshot, Dict.get_set_self]
    exact h.tagged i

theorem Opened.tagged_inv {cfg : DownloadConfig} {os : Platform} {disk : Disk} {metadata : FileMetadata}
    {s : Opened} {fileTags : List Tag} (hopen : openSession cfg os disk metadata = .ok s)
    (hfile : ∀ d, savedDict (progressAfterClaim cfg disk) = some d → Listed d fileTags)
    (hvouched : ∀ d, savedDict (progressAfterClaim cfg disk) = some d →
      validateForResume d metadata (applyProbeFallback cfg metadata).chunkSize = true →
      ∀ v, Vouches v d fileTags metadata) : (s.tagged fileTags).Inv := by
  obtain ⟨state, rfl, hstate, hset, ⟨hsaved, hvalid⟩ | rfl⟩ := openSession_state hopen
  · have hlisted := hfile state hsaved
    refine ⟨?_, fun i => ?_⟩
    · show Fits s.downloadState _
      rw [hstate]
      apply ((hlisted.fits.resume hvalid (hvouched state hsaved hvalid)).set_completed _).subset
      intro m hm
      rcases List.mem_cons.mp hm with rfl | hm
      · exact List.mem_cons_self
      · obtain ⟨t, ht, rfl⟩ := List.mem_map.mp hm
        exact List.mem_cons_of_mem _ (List.mem_map_of_mem (List.mem_filter.mp ht).1)
    · have hin : inSet s.completedSet i = true ↔ ∃ m, (i, m) ∈ fileTags := by
        rw [hset, inSet_pySet]
        exact hlisted.tagged i
      show _ ↔ ∃ m, (i, m) ∈ fileTags.filter fun t => inSet s.completedSet t.1
      simp only [List.mem_filter]
      exact ⟨fun hi => (hin.mp hi).imp fun m hm => ⟨hm, hi⟩, fun ⟨_, hm⟩ => hm.2⟩
  · have hempty : s.completedSet = [] := hset
    have htags : (s.tagged fileTags).tags = [] := by
      show fileTags.filter (fun t => inSet s.completedSet t.1) = []
      rw [hempty]
      exact List.filter_eq_nil_iff.mpr fun t _ => by simp [inSet]
    refine ⟨?_, fun i => ?_⟩
    · show Fits s.downloadState (s.metadata :: (s.tagged fileTags).tags.map Prod.snd)
      rw [hstate, htags]
      exact (fits_fresh _ _).set_completed _
    · rw [htags]
      show inSet s.completedSet i = true ↔ _
      rw [hempty]
      simp [inSet]

/-- A state dict that outlasts the claim of the destination was there before, with the chunks it lists. -/
theorem History.Inv.claimed {h : History} (hinv : h.Inv) {cfg : DownloadConfig} {dest : Option Bytes} {d : Dict}
    (hd : savedDict (progressAfterClaim cfg ⟨dest, h.progress⟩) = some d) :
    (if cfg.overwrite ∧ dest.isSome then [] else h.fileTags) = h.fileTags ∧ Listed d h.fileTags := by
  unfold progressAfterClaim at hd
  split at hd
  · cases hd
  · rename_i hkeep
    exact ⟨if_neg hkeep, hinv.file d hd⟩

theorem History.Inv.begins {h h' : History} (hinv : h.Inv) {cfg : DownloadConfig} {os : Platform}
    {dest : Option Bytes} {metadata : FileMetadata} (hG : Vouched h (.begins cfg os dest metadata))
    (hs : historyStep h (.begins cfg os dest metadata) = some h') : h'.Inv := by
  cases hopen : openSession cfg os ⟨dest, h.progress⟩ metadata with
  | error e => simp [historyStep, hopen] at hs
  | ok s =>
    simp only [historyStep, hopen, Option.some.injEq] at hs
    subst hs
    have hfile : ∀ d, savedDict (progressAfterClaim cfg ⟨dest, h.progress⟩) = some d →
        Listed d (if cfg.overwrite ∧ dest.isSome then [] else h.fileTags) := by
      intro d hd
      rw [(hinv.claimed hd).1]
      exact (hinv.claimed hd).2
    refine ⟨hfile, fun r hr => ?_, hinv.inFlight⟩
    cases hr
    apply Opened.tagged_inv hopen hfile
    intro d hd hvalid v
    rw [(hinv.claimed hd).1]
    cases v with
    | etag => exact (hG d hd hvalid).1
    | lastModified => exact (hG d hd hvalid).2

end Mrdl.Session
