import Mrdl.Fetcher.Core
import Mrdl.Writer.Commands

/-! # What the buffer loops of fetch hand to the writer

`Fed cfg start c d`: the fetch has taken the bytes `d` from the body so far; a prefix of them has been
handed to the writer in contiguous writes from `start` on, the rest stands in the buffer before the
write cursor. Each piece of the loops adds to `d`, a flush changes nothing, and a clamped piece adds
exactly the bytes still expected. `fetch_spec` puts this together for the whole fetch.
-/

namespace Mrdl.Fetcher
open FileBytes
set_option autoImplicit false

def commandOf : Effect → Option Command
  | .update _ _ => none
  | .command cmd => some cmd

/-- The commands among the effects, in order. -/
def commands (es : List Effect) : List Command := es.filterMap commandOf

@[simp] theorem commands_append (es fs : List Effect) :
    commands (es ++ fs) = commands es ++ commands fs := List.filterMap_append

@[simp] theorem commands_nil : commands [] = [] := rfl

@[simp] theorem commands_update (n : ℤ) (i : Option ℕ) (es : List Effect) :
    commands (.update n i :: es) = commands es := rfl

@[simp] theorem commands_command (cmd : Command) (es : List Effect) :
    commands (.command cmd :: es) = cmd :: commands es := rfl

structure Fed (cfg : FetcherConfig) (start : ℕ) (c : Cursor) (d : Bytes) : Prop where
  bufferLength : c.buffer.length = cfg.flushThreshold
  posLe : c.writePos ≤ cfg.flushThreshold
  tiles : ∃ ws w, commands c.effects = asCommands ws ∧ Tiles start ws w ∧
    w.length = c.bytesWritten ∧ d = w ++ c.buffer.take c.writePos

variable {cfg : FetcherConfig} {start : ℕ}

theorem Fed.init {buf : Bytes} (h : buf.length = cfg.flushThreshold) :
    Fed cfg start { buffer := buf } [] :=
  ⟨h, Nat.zero_le _, [], [], rfl, rfl, rfl, by simp⟩

theorem Fed.length {c : Cursor} {d : Bytes} (h : Fed cfg start c d) :
    d.length = c.bytesWritten + c.writePos := by
  obtain ⟨ws, w, -, -, hw, rfl⟩ := h.tiles
  have hb := h.bufferLength
  have hp := h.posLe
  rw [List.length_append, List.length_take]
  omega

theorem Fed.report {c : Cursor} {d : Bytes} (h : Fed cfg start c d) (n : ℤ) :
    Fed cfg start (c.report n) d := by
  refine ⟨h.bufferLength, h.posLe, ?_⟩
  obtain ⟨ws, w, hc, ht, hw, hd⟩ := h.tiles
  exact ⟨ws, w, by simpa [Cursor.report] using hc, ht, hw, hd⟩

theorem Fed.flush {c : Cursor} {d : Bytes} (h : Fed cfg start c d) (k : ℕ) :
    Fed cfg start { c.flush start with flushes := k } d := by
  refine ⟨h.bufferLength, Nat.zero_le _, ?_⟩
  obtain ⟨ws, w, hc, ht, hw, rfl⟩ := h.tiles
  refine ⟨ws ++ [(start + w.length, c.buffer.take c.writePos)], w ++ c.buffer.take c.writePos, ?_,
    ht.snoc _, ?_, by simp [Cursor.flush]⟩
  · simp [Cursor.flush, hc, asCommands, hw]
  · have hb := h.bufferLength
    have hp := h.posLe
    simp only [Cursor.flush, List.length_append, List.length_take, hw]
    omega

theorem setSlice_length {buf d : Bytes} {pos : ℕ} (h : pos + d.length ≤ buf.length) :
    (setSlice buf pos d).length = buf.length := by
  simp only [setSlice, List.length_append, List.length_take, List.length_drop]
  omega

theorem setSlice_take {buf d : Bytes} {pos : ℕ} (h : pos ≤ buf.length) :
    (setSlice buf pos d).take (pos + d.length) = buf.take pos ++ d := by
  unfold setSlice
  rw [List.take_append_of_le_length (by simp; omega)]
  exact List.take_of_length_le (by simp)

theorem Fed.copy {c : Cursor} {d x : Bytes} (h : Fed cfg start c d)
    (hx : c.writePos + x.length ≤ cfg.flushThreshold) : Fed cfg start (c.copy x) (d ++ x) := by
  have hb := h.bufferLength
  refine ⟨?_, hx, ?_⟩
  · simp only [Cursor.copy]
    rw [setSlice_length (by omega), hb]
  · obtain ⟨ws, w, hc, ht, hw, rfl⟩ := h.tiles
    refine ⟨ws, w, hc, ht, hw, ?_⟩
    simp only [Cursor.copy]
    rw [setSlice_take (by have := h.posLe; omega), List.append_assoc]

/-! ## The copy loop -/

/-- A step that has taken all of `x` after `d`, or was cut short by an exception part of the way. -/
def Step.Fed (cfg : FetcherConfig) (start : ℕ) (d x : Bytes) : Step → Prop
  | .going c => Fetcher.Fed cfg start c (d ++ x)
  | .raised c _ => ∃ y, y <+: x ∧ Fetcher.Fed cfg start c (d ++ y)

theorem flushChecked_fed (att : Attempt) {c : Cursor} {d : Bytes} (h : Fed cfg start c d) :
    (flushChecked cfg att start c).Fed cfg start d [] := by
  unfold flushChecked
  simp only
  split
  · exact ⟨[], List.prefix_refl _, by simpa using h.flush _⟩
  · show Fed cfg start _ (d ++ [])
    simpa using h.flush _

theorem flushChecked_writePos (cfg : FetcherConfig) (att : Attempt) (start : ℕ) (c : Cursor) :
    match flushChecked cfg att start c with
    | .going c' => c'.writePos = 0
    | .raised _ _ => True := by
  unfold flushChecked
  simp only
  split <;> rename_i h <;> split at h <;> cases h <;> trivial

theorem Step.Fed.prepend {d x y : Bytes} {st : Step} (h : st.Fed cfg start (d ++ x) y) :
    st.Fed cfg start d (x ++ y) := by
  cases st with
  | going c =>
    show Fetcher.Fed cfg start c (d ++ (x ++ y))
    rw [← List.append_assoc]
    exact h
  | raised c a =>
    obtain ⟨z, hz, hfed⟩ := h
    refine ⟨x ++ z, (List.prefix_append_right_inj x).mpr hz, ?_⟩
    rw [← List.append_assoc]
    exact hfed

theorem copyLoop_fed {att : Attempt} {fuel : ℕ} {x d : Bytes} {c : Cursor} {st : Step} (h : Fed cfg start c d)
    (hrun : copyLoop cfg att start fuel x c = some st) : st.Fed cfg start d x := by
  induction fuel generalizing x d c with
  | zero =>
    cases x with
    | nil =>
      cases hrun
      show Fed cfg start c (d ++ [])
      simpa using h
    | cons b x => simp [copyLoop] at hrun
  | succ fuel ih =>
    cases x with
    | nil =>
      cases hrun
      show Fed cfg start c (d ++ [])
      simpa using h
    | cons b x =>
      rw [copyLoop] at hrun
      split at hrun
      · -- the buffer is full: flush it, then copy into the empty buffer
        have hf := flushChecked_fed att h
        have hpos := flushChecked_writePos cfg att start c
        split at hrun <;> rename_i heq <;> rw [heq] at hf hpos
        · cases hrun
          obtain ⟨y, hy, hfed⟩ := hf
          rw [List.prefix_nil] at hy
          subst hy
          exact ⟨[], List.nil_prefix, hfed⟩
        · rename_i c'
          have hfed : Fed cfg start c' d := by simpa [Step.Fed] using hf
          have hcopy := hfed.copy (x := (b :: x).take (min (b :: x).length cfg.flushThreshold)) (by
            rw [List.length_take]
            simp only at hpos
            omega)
          have hrest := (ih hcopy hrun).prepend
          rwa [List.take_append_drop] at hrest
      · have hcopy := h.copy (x := (b :: x).take (min (b :: x).length (cfg.flushThreshold - c.writePos)))
          (by rw [List.length_take]; omega)
        have hrest := (ih hcopy hrun).prepend
        rwa [List.take_append_drop] at hrest

/-- With a buffer to copy into, the copy loop ends: every turn takes at least one byte. -/
theorem copyLoop_total (start : ℕ) (att : Attempt) (hthr : 0 < cfg.flushThreshold) {fuel : ℕ}
    {x : Bytes} (c : Cursor) (hfuel : x.length ≤ fuel) : ∃ st, copyLoop cfg att start fuel x c = some st := by
  induction fuel generalizing x c with
  | zero =>
    have hx : x = [] := List.length_eq_zero_iff.mp (by omega)
    exact ⟨.going c, by rw [hx, copyLoop]⟩
  | succ fuel ih =>
    cases x with
    | nil => exact ⟨.going c, rfl⟩
    | cons b x =>
      rw [copyLoop]
      rw [List.length_cons] at hfuel
      split
      · split
        · exact ⟨_, rfl⟩
        · apply ih
          rw [List.length_drop, List.length_cons]
          omega
      · apply ih
        rw [List.length_drop, List.length_cons]
        omega

/-! ## Pieces and the body -/

/-- What is left of the body `d` under an expectation. -/
def clip (expected : Option ℤ) (d : Bytes) : Bytes :=
  match expected with
  | none => d
  | some e => d.take e.toNat

def Fits (expected : Option ℤ) (d : Bytes) : Prop := ∀ e ∈ expected, (d.length : ℤ) ≤ e

theorem clip_append {expected : Option ℤ} (x y : Bytes) :
    clip expected (clip expected x ++ y) = clip expected (x ++ y) := by
  cases expected with
  | none => rfl
  | some e =>
    simp only [clip, List.take_append, List.take_take, Nat.min_self, List.length_take]
    congr 2
    omega

theorem clip_of_fits {expected : Option ℤ} {d : Bytes} (h : Fits expected d) : clip expected d = d := by
  cases expected with
  | none => rfl
  | some e =>
    have he := h e rfl
    exact List.take_of_length_le (by omega)

theorem fits_clip {expected : Option ℤ} (h : Fits expected []) (d : Bytes) :
    Fits expected (clip expected d) := by
  intro e he
  have h0 := h e he
  cases he
  simp only [clip, List.length_take]
  simp only [List.length_nil] at h0
  omega

theorem Fits.nil {expected : Option ℤ} {d : Bytes} (h : Fits expected d) : Fits expected [] := by
  intro e he
  have := h e he
  simp only [List.length_nil]
  omega

theorem Fits.of_prefix {expected : Option ℤ} {d x : Bytes} (h : Fits expected d) (hx : x <+: d) :
    Fits expected x := by
  intro e he
  have := h e he
  have := hx.length_le
  omega

theorem clamp_spec {expected : Option ℤ} {c : Cursor} {d x : Bytes} (h : Fed cfg start c d)
    (hfit : Fits expected d) : d ++ (clamp expected c x).1 = clip expected (d ++ x) := by
  have hlen := h.length
  cases expected with
  | none => rfl
  | some e =>
    have he := hfit e rfl
    by_cases hcut : (x.length : ℤ) > e - ((c.bytesWritten : ℤ) + c.writePos)
    · have hpos : 0 ≤ e - ((c.bytesWritten : ℤ) + c.writePos) := by omega
      have hd : d.take e.toNat = d := List.take_of_length_le (by omega)
      have hn : (e - ((c.bytesWritten : ℤ) + c.writePos)).toNat = e.toNat - d.length := by omega
      simp only [clamp, clip]
      rw [if_pos hcut, sliceTo, if_pos hpos, List.take_append, hd, hn]
    · have hall : (d ++ x).length ≤ e.toNat := by
        rw [List.length_append]
        omega
      simp only [clamp, clip]
      rw [if_neg hcut]
      exact (List.take_of_length_le hall).symm

theorem consumePiece_fed {att : Attempt} {expected : Option ℤ} {c : Cursor} {d x : Bytes} {st : Step}
    (h : Fed cfg start c d) (hrun : consumePiece cfg att start expected x c = some st) :
    st.Fed cfg start d (clamp expected c x).1 := by
  unfold consumePiece at hrun
  simp only at hrun
  split at hrun
  · cases hrun
  · rename_i c' a heq
    cases hrun
    exact copyLoop_fed (h.report _) heq
  · rename_i c' heq
    have hgo : Fed cfg start c' (d ++ (clamp expected c x).1) := copyLoop_fed (h.report _) heq
    split at hrun
    · cases hrun
      have hf := (flushChecked_fed att hgo).prepend
      rwa [List.append_nil] at hf
    · cases hrun
      exact hgo

theorem consumePiece_total (start : ℕ) (att : Attempt) (hthr : 0 < cfg.flushThreshold) (expected : Option ℤ)
    (x : Bytes) (c : Cursor) : ∃ st, consumePiece cfg att start expected x c = some st := by
  unfold consumePiece
  simp only
  obtain ⟨st, hst⟩ := copyLoop_total start att hthr (c.report (clamp expected c x).2)
    (Nat.le_refl (clamp expected c x).1.length)
  rw [hst]
  cases st with
  | going c' =>
    simp only
    split
    · exact ⟨_, rfl⟩
    · exact ⟨_, rfl⟩
  | raised c' a => exact ⟨_, rfl⟩

/-- A body loop that ends normally has taken the body up to what was expected; one that was cut short
has taken no more than that. -/
def Step.Taken (cfg : FetcherConfig) (start : ℕ) (expected : Option ℤ) (d : Bytes) : Step → Prop
  | .going c => Fetcher.Fed cfg start c (clip expected d)
  | .raised c _ => ∃ y, Fits expected y ∧ Fetcher.Fed cfg start c y

theorem bodyLoop_taken {att : Attempt} {expected : Option ℤ} {ending : Option FetchFailure} {k : ℕ}
    {pieces : List Bytes} {c : Cursor} {d : Bytes} {st : Step} (h : Fed cfg start c d)
    (hfit : Fits expected d)
    (hrun : bodyLoop cfg att start expected ending k pieces c = some st) :
    st.Taken cfg start expected (d ++ pieces.flatten) := by
  induction pieces generalizing k c d with
  | nil =>
    unfold bodyLoop at hrun
    cases ending with
    | none =>
      cases hrun
      show Fed cfg start c (clip expected (d ++ []))
      rw [List.append_nil, clip_of_fits hfit]
      exact h
    | some e =>
      cases hrun
      exact ⟨d, hfit, h⟩
  | cons x rest ih =>
    rw [bodyLoop] at hrun
    rw [List.flatten_cons, ← List.append_assoc]
    split at hrun
    · cases hrun
      exact ⟨d, hfit, h⟩
    · split at hrun
      · rename_i hx
        rw [hx, List.append_nil]
        exact ih h hfit hrun
      · have hclamp := clamp_spec (x := x) h hfit
        have hfit' : Fits expected (d ++ (clamp expected c x).1) := by
          rw [hclamp]
          exact fits_clip hfit.nil _
        split at hrun
        · cases hrun
        · rename_i c' a heq
          cases hrun
          obtain ⟨y, hy, hfed⟩ := consumePiece_fed h heq
          exact ⟨d ++ y, hfit'.of_prefix ((List.prefix_append_right_inj d).mpr hy), hfed⟩
        · rename_i c' heq
          have hfed : Fed cfg start c' (d ++ (clamp expected c x).1) := consumePiece_fed h heq
          split at hrun
          · -- everything expected has arrived: the rest of the body is not read
            rename_i hreach
            cases hrun
            cases expected with
            | none => simp [expectedReached] at hreach
            | some e =>
              have hlen := hfed.length
              have hle := hfit' e rfl
              simp only [expectedReached, decide_eq_true_eq] at hreach
              have hcut : clip (some e) (d ++ x ++ rest.flatten) = d ++ (clamp (some e) c x).1 := by
                rw [hclamp, ← clip_append, ← hclamp]
                show ((d ++ (clamp (some e) c x).1) ++ rest.flatten).take e.toNat = _
                rw [List.take_append_of_le_length (by omega)]
                exact List.take_of_length_le (by omega)
              show Fed cfg start c' _
              rw [hcut]
              exact hfed
          · have hrest := ih hfed hfit' hrun
            cases st with
            | going c'' =>
              show Fed cfg start c'' _
              have hgo : Fed cfg start c'' (clip expected (d ++ (clamp expected c x).1 ++ rest.flatten)) :=
                hrest
              rwa [hclamp, clip_append] at hgo
            | raised c'' a => exact hrest

theorem bodyLoop_ended {att : Attempt} {ending : Option FetchFailure} {k : ℕ} {pieces : List Bytes}
    {c c' : Cursor} (hrun : bodyLoop cfg att start none ending k pieces c = some (.going c')) :
    ending = none := by
  induction pieces generalizing k c with
  | nil =>
    cases ending with
    | none => rfl
    | some e => cases hrun
  | cons x rest ih =>
    rw [bodyLoop] at hrun
    split at hrun
    · cases hrun
    · split at hrun
      · exact ih hrun
      · split at hrun
        · cases hrun
        · cases hrun
        · exact ih hrun

theorem bodyLoop_total (start : ℕ) (att : Attempt) (hthr : 0 < cfg.flushThreshold) (expected : Option ℤ)
    (ending : Option FetchFailure) (k : ℕ) (pieces : List Bytes) (c : Cursor) :
    ∃ st, bodyLoop cfg att start expected ending k pieces c = some st := by
  induction pieces generalizing k c with
  | nil => cases ending <;> exact ⟨_, rfl⟩
  | cons x rest ih =>
    obtain ⟨st, hst⟩ := consumePiece_total start att hthr expected x c
    unfold bodyLoop
    split
    · exact ⟨_, rfl⟩
    · split
      · exact ih (k + 1) c
      · rw [hst]
        cases st with
        | raised c' a => exact ⟨_, rfl⟩
        | going c' =>
          simp only
          split
          · exact ⟨_, rfl⟩
          · exact ih (k + 1) c'

end Mrdl.Fetcher
