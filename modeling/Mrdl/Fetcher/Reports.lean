import Mrdl.Fetcher.Outcome

/-! # What a fetch reports to the progress display

Bytes are reported piece by piece, before they are copied, and taken back in two handlers that know
only of the bytes that were copied. `Counted` ties the flushes to the bytes taken, so that flush `j`
happens when `(j + 1) * flushThreshold` bytes have been taken; from it follows at which inputs the
reports do not add up: a flush in the middle of a piece finds the mirror too slow, the body is short,
or the range has a negative length.
-/

namespace Mrdl.Fetcher
set_option autoImplicit false

def Effect.amount : Effect → ℤ
  | .update n _ => n
  | .command _ => 0

/-- The sum of all `bytes_downloaded` passed to `progress.update`. -/
def reported (es : List Effect) : ℤ := (es.map Effect.amount).sum

@[simp] theorem reported_nil : reported [] = 0 := rfl

@[simp] theorem reported_append (es fs : List Effect) : reported (es ++ fs) = reported es + reported fs := by
  simp [reported]

@[simp] theorem reported_update (n : ℤ) (i : Option ℕ) (es : List Effect) :
    reported (.update n i :: es) = n + reported es := by simp [reported, Effect.amount]

@[simp] theorem reported_command (cmd : Command) (es : List Effect) :
    reported (.command cmd :: es) = reported es := by simp [reported, Effect.amount]

/-- The reports add up to what the caller is told. -/
def FetchResult.Balanced (res : FetchResult) : Prop :=
  match res.outcome with
  | .returned n => reported res.effects = n
  | .stopped => reported res.effects = 0
  | .fetchError _ => reported res.effects = 0

/-! ## Where the reports go wrong -/

/-- Flush `j` finds the mirror too slow. -/
def slowFlush (cfg : FetcherConfig) (att : Attempt) (j : ℕ) : Bool :=
  tooSlow cfg (att.speed j) ((j + 1) * cfg.flushThreshold)

def FirstSlow (cfg : FetcherConfig) (att : Attempt) (j : ℕ) : Prop :=
  slowFlush cfg att j = true ∧ ∀ i < j, slowFlush cfg att i = false

/-- How many of the first `n` bytes of a body are taken. -/
def extent (expected : Option ℤ) (n : ℕ) : ℕ :=
  match expected with
  | none => n
  | some e => min n e.toNat

/-- The body loop goes on after the pieces `before`, with `taken` bytes behind it when it began: it asks whether
more are expected after each piece that is not empty. -/
def ReadsOn (expected : Option ℤ) (taken : ℕ) (before : List Bytes) : Prop :=
  before.flatten = [] ∨ ∀ e ∈ expected, ((taken + before.flatten.length : ℕ) : ℤ) < e

/-- With `k` pieces and `taken` bytes before `pieces`: the first flush that finds the mirror too slow is
made when some but not all bytes of a piece have been copied. -/
def SlowInPiece (cfg : FetcherConfig) (att : Attempt) (expected : Option ℤ) (k taken : ℕ)
    (pieces : List Bytes) : Prop :=
  ∃ before x after j, pieces = before ++ x :: after ∧
    (∀ i ≤ before.length, att.stopSeen (k + i) = false) ∧ FirstSlow cfg att j ∧
    extent expected (taken + before.flatten.length) < (j + 1) * cfg.flushThreshold ∧
    (j + 1) * cfg.flushThreshold < extent expected (taken + before.flatten.length + x.length)

/-- The stream ends before the range does, with nothing else to stop the fetch. -/
def ShortBody (cfg : FetcherConfig) (att : Attempt) (expected : Option ℤ) (r : Response) : Prop :=
  r.ending = none ∧ (∀ i < r.pieces.length, att.stopSeen i = false) ∧
    (∀ j, (j + 1) * cfg.flushThreshold ≤ r.pieces.flatten.length → slowFlush cfg att j = false) ∧
    0 < r.pieces.flatten.length ∧ ∃ e ∈ expected, (r.pieces.flatten.length : ℤ) < e

/-- With `k` pieces before `pieces`: some byte arrives before the stop event is seen. -/
def ByteArrives (att : Attempt) (k : ℕ) (pieces : List Bytes) : Prop :=
  ∃ before x after, pieces = before ++ x :: after ∧ x ≠ [] ∧ (∀ y ∈ before, y = []) ∧
    ∀ i ≤ before.length, att.stopSeen (k + i) = false

def Misreports (cfg : FetcherConfig) (metadata : FileMetadata) (idx : ℕ) (att : Attempt) : Prop :=
  ∃ r, att.reply = .answer r ∧ r.failed = false ∧
    let expected := (resolveSize cfg metadata (idx * cfg.chunkSize) r).2
    SlowInPiece cfg att expected 0 0 r.pieces ∨ ShortBody cfg att expected r ∨
      (∃ e ∈ expected, e < 0) ∧ ByteArrives att 0 r.pieces

/-! ## The flushes of a fetch -/

def Cursor.taken (c : Cursor) : ℕ := c.bytesWritten + c.writePos

structure Counted (cfg : FetcherConfig) (att : Attempt) (c : Cursor) : Prop where
  aligned : c.bytesWritten = c.flushes * cfg.flushThreshold
  posLe : c.writePos ≤ cfg.flushThreshold
  calm : ∀ i < c.flushes, slowFlush cfg att i = false

/-- The cursor between two pieces. -/
structure Level (cfg : FetcherConfig) (att : Attempt) (c : Cursor) : Prop extends Counted cfg att c where
  posLt : c.writePos < cfg.flushThreshold
  reported_eq : reported c.effects = c.taken

variable {cfg : FetcherConfig} {att : Attempt} {start : ℕ}

theorem Level.taken_lt {c : Cursor} (h : Level cfg att c) :
    c.taken < (c.flushes + 1) * cfg.flushThreshold := by
  have := h.posLt
  rw [Cursor.taken, h.aligned, Nat.add_mul, Nat.one_mul]
  omega

theorem Level.calm_of_le {c : Cursor} (h : Level cfg att c) {j : ℕ}
    (hj : (j + 1) * cfg.flushThreshold ≤ c.taken) : slowFlush cfg att j = false := by
  have hlt : j + 1 < c.flushes + 1 := Nat.lt_of_mul_lt_mul_right (hj.trans_lt h.taken_lt)
  exact h.calm j (by omega)

theorem flushChecked_counted (start : ℕ) {c : Cursor} (h : Counted cfg att c)
    (hfull : cfg.flushThreshold ≤ c.writePos) :
    ∃ c', c'.taken = c.taken ∧ reported c'.effects = reported c.effects ∧
      ((flushChecked cfg att start c = .going c' ∧ Counted cfg att c' ∧ c'.writePos = 0) ∨
        (∃ a, flushChecked cfg att start c = .raised c' a) ∧ FirstSlow cfg att c.flushes ∧
          c.taken = (c.flushes + 1) * cfg.flushThreshold) := by
  have hpos : c.writePos = cfg.flushThreshold := Nat.le_antisymm h.posLe hfull
  have hwritten : c.bytesWritten + c.writePos = (c.flushes + 1) * cfg.flushThreshold := by
    rw [h.aligned, hpos, Nat.add_mul, Nat.one_mul]
  have hslow : tooSlow cfg (att.speed c.flushes) (c.flush start).bytesWritten =
      slowFlush cfg att c.flushes := by
    show tooSlow cfg (att.speed c.flushes) (c.bytesWritten + c.writePos) = _
    rw [hwritten, slowFlush]
  refine ⟨{ c.flush start with flushes := c.flushes + 1 }, rfl, by simp [Cursor.flush], ?_⟩
  cases hb : slowFlush cfg att c.flushes with
  | true => exact .inr ⟨⟨_, if_pos (hslow.trans hb)⟩, ⟨hb, h.calm⟩, hwritten⟩
  | false =>
    refine .inl ⟨if_neg ?_, ⟨hwritten, Nat.zero_le _, fun i hi => ?_⟩, rfl⟩
    · exact ne_true_of_eq_false (hslow.trans hb)
    · rcases Nat.lt_succ_iff_lt_or_eq.mp hi with hi | rfl
      · exact h.calm i hi
      · exact hb

theorem Counted.copy {c : Cursor} {x : Bytes} (h : Counted cfg att c)
    (hx : c.writePos + x.length ≤ cfg.flushThreshold) : Counted cfg att (c.copy x) :=
  ⟨h.aligned, hx, h.calm⟩

theorem Cursor.taken_copy (c : Cursor) (x : Bytes) : (c.copy x).taken = c.taken + x.length :=
  (Nat.add_assoc ..).symm

/-- A step that has taken `n` bytes with `rep` reported, or was cut short by the first flush that found
the mirror too slow. -/
def Step.Counted (cfg : FetcherConfig) (att : Attempt) (n : ℕ) (rep : ℤ) : Step → Prop
  | .going c => Fetcher.Counted cfg att c ∧ c.taken = n ∧ reported c.effects = rep
  | .raised c _ => reported c.effects = rep ∧ ∃ j, FirstSlow cfg att j ∧
      c.taken = (j + 1) * cfg.flushThreshold ∧ (j + 1) * cfg.flushThreshold < n

theorem copyLoop_counted {fuel : ℕ} {x : Bytes} {c : Cursor} {st : Step} (h : Counted cfg att c)
    (hrun : copyLoop cfg att start fuel x c = some st) :
    st.Counted cfg att (c.taken + x.length) (reported c.effects) := by
  induction fuel generalizing x c with
  | zero =>
    cases x with
    | nil =>
      cases hrun
      exact ⟨h, rfl, rfl⟩
    | cons b x => cases hrun
  | succ fuel ih =>
    cases x with
    | nil =>
      cases hrun
      exact ⟨h, rfl, rfl⟩
    | cons b x =>
      -- one turn copies the first `n` bytes
      have hturn : ∀ (c₁ : Cursor) (n : ℕ), n ≤ (b :: x).length → Counted cfg att c₁ →
          c₁.taken = c.taken → reported c₁.effects = reported c.effects →
          c₁.writePos + n ≤ cfg.flushThreshold →
          copyLoop cfg att start fuel ((b :: x).drop n) (c₁.copy ((b :: x).take n)) = some st →
          st.Counted cfg att (c.taken + (b :: x).length) (reported c.effects) := by
        intro c₁ n hn hc₁ htaken hrep hfits hrun₁
        have hlen : ((b :: x).take n).length = n := by
          rw [List.length_take]
          exact Nat.min_eq_left hn
        have hrest := ih (hc₁.copy (by rwa [hlen])) hrun₁
        rw [Cursor.taken_copy, hlen, List.length_drop, htaken, Nat.add_assoc, Nat.add_sub_cancel' hn] at hrest
        rwa [← hrep]
      rw [copyLoop] at hrun
      split at hrun
      · rename_i hfull
        obtain ⟨c₁, htaken, hrep, ⟨heq, hc₁, hpos⟩ | ⟨⟨a, heq⟩, hslow, hat⟩⟩ :=
          flushChecked_counted start h hfull
        · rw [heq] at hrun
          exact hturn c₁ _ (Nat.min_le_left _ _) hc₁ htaken hrep (by omega) hrun
        · rw [heq] at hrun
          cases hrun
          exact ⟨hrep, c.flushes, hslow, htaken.trans hat, by simp [← hat]⟩
      · exact hturn c _ (Nat.min_le_left _ _) h rfl rfl (by omega) hrun

/-! ## The pieces of a body -/

theorem extent_add (expected : Option ℤ) (m n : ℕ) :
    extent expected (extent expected m + n) = extent expected (m + n) := by
  cases expected with
  | none => rfl
  | some e =>
    simp only [extent]
    omega

theorem extent_le (expected : Option ℤ) (n : ℕ) : extent expected n ≤ n := by
  cases expected with
  | none => exact le_rfl
  | some e => exact Nat.min_le_left _ _

theorem extent_mono (expected : Option ℤ) {m n : ℕ} (h : m ≤ n) : extent expected m ≤ extent expected n := by
  cases expected with
  | none => exact h
  | some e => exact min_le_min_right _ h

theorem clamp_length {expected : Option ℤ} {c : Cursor} (x : Bytes)
    (hfit : ∀ e ∈ expected, (c.taken : ℤ) ≤ e) :
    (clamp expected c x).2 = (clamp expected c x).1.length ∧
      c.taken + (clamp expected c x).1.length = extent expected (c.taken + x.length) := by
  cases expected with
  | none => exact ⟨rfl, rfl⟩
  | some e =>
    have he := hfit e rfl
    simp only [Cursor.taken] at he ⊢
    simp only [clamp, extent]
    split
    · rw [sliceTo, if_pos (by omega), List.length_take]
      omega
    · refine ⟨rfl, ?_⟩
      show c.bytesWritten + c.writePos + x.length = _
      omega

theorem Level.report_counted {c : Cursor} (h : Level cfg att c) (n : ℤ) : Counted cfg att (c.report n) :=
  ⟨h.aligned, h.posLe, h.calm⟩

theorem FirstSlow.unique {i j : ℕ} (hi : FirstSlow cfg att i) (hj : FirstSlow cfg att j) : i = j := by
  rcases Nat.lt_trichotomy i j with h | h | h
  · exact absurd hi.1 (ne_true_of_eq_false (hj.2 i h))
  · exact h
  · exact absurd hj.1 (ne_true_of_eq_false (hi.2 j h))

/-- A step that has reported `rep` and copied up to byte `n`, or to the first flush that found the mirror too
slow. -/
def Step.Consumed (cfg : FetcherConfig) (att : Attempt) (n : ℕ) (rep : ℤ) : Step → Prop
  | .going c => Fetcher.Counted cfg att c ∧ c.writePos < cfg.flushThreshold ∧ c.taken = n ∧
      reported c.effects = rep
  | .raised c _ => reported c.effects = rep ∧ ∃ j, FirstSlow cfg att j ∧
      c.taken = (j + 1) * cfg.flushThreshold ∧ (j + 1) * cfg.flushThreshold ≤ n

theorem Step.Consumed.reported_eq {n : ℕ} {rep : ℤ} {st : Step} (h : st.Consumed cfg att n rep) :
    reported st.cursor.effects = rep := by
  cases st with
  | going c => exact h.2.2.2
  | raised c a => exact h.1

/-- A piece is reported at once, whatever becomes of its bytes. -/
theorem consumePiece_consumed {expected : Option ℤ} {x : Bytes} {c : Cursor} {st : Step}
    (hthr : 0 < cfg.flushThreshold) (h : Level cfg att c)
    (hrun : consumePiece cfg att start expected x c = some st) :
    st.Consumed cfg att (c.taken + (clamp expected c x).1.length)
      (reported c.effects + (clamp expected c x).2) := by
  have hcopy : ∀ {st' : Step}, copyLoop cfg att start (clamp expected c x).1.length (clamp expected c x).1
      (c.report (clamp expected c x).2) = some st' →
      st'.Counted cfg att (c.taken + (clamp expected c x).1.length)
        (reported c.effects + (clamp expected c x).2) := by
    intro st' hst
    have hcounted := copyLoop_counted (h.report_counted _) hst
    have hrep : reported (c.report (clamp expected c x).2).effects =
        reported c.effects + (clamp expected c x).2 := by
      simp only [Cursor.report, reported_append, reported_update, reported_nil, add_zero]
    rwa [hrep] at hcounted
  unfold consumePiece at hrun
  simp only at hrun
  split at hrun
  · cases hrun
  · rename_i heq
    cases hrun
    obtain ⟨hrep, j, hj, htaken, hlt⟩ := hcopy heq
    exact ⟨hrep, j, hj, htaken, hlt.le⟩
  · rename_i c₁ heq
    obtain ⟨hc₁, htaken, hrep⟩ := hcopy heq
    split at hrun
    · -- the piece has filled the buffer
      rename_i hfull
      cases hrun
      obtain ⟨c₂, htaken₂, hrep₂, ⟨heq₂, hc₂, hpos⟩ | ⟨⟨a, heq₂⟩, hslow, hat⟩⟩ :=
        flushChecked_counted start hc₁ hfull
      · rw [heq₂]
        exact ⟨hc₂, by omega, htaken₂.trans htaken, hrep₂.trans hrep⟩
      · rw [heq₂]
        exact ⟨hrep₂.trans hrep, c₁.flushes, hslow, htaken₂.trans hat, by rw [← hat, htaken]⟩
    · rename_i hfull
      cases hrun
      exact ⟨hc₁, by omega, htaken, hrep⟩

/-- A step that takes the bytes from `low` to `high` and reports them all: a piece is taken whole, or the
first flush to find the mirror too slow is made in it or at its end. -/
def Step.Piece (cfg : FetcherConfig) (att : Attempt) (low high : ℕ) : Step → Prop
  | .going c => Level cfg att c ∧ c.taken = high
  | .raised c _ => reported c.effects = high ∧ ∃ j, FirstSlow cfg att j ∧
      c.taken = (j + 1) * cfg.flushThreshold ∧ low < (j + 1) * cfg.flushThreshold ∧
      (j + 1) * cfg.flushThreshold ≤ high

theorem consumePiece_counted {expected : Option ℤ} {x : Bytes} {c : Cursor} {st : Step}
    (hthr : 0 < cfg.flushThreshold) (h : Level cfg att c) (hfit : ∀ e ∈ expected, (c.taken : ℤ) ≤ e)
    (hrun : consumePiece cfg att start expected x c = some st) :
    st.Piece cfg att c.taken (extent expected (c.taken + x.length)) := by
  obtain ⟨hreport, hextent⟩ := clamp_length x hfit
  have hconsumed := consumePiece_consumed hthr h hrun
  have hrep : reported c.effects + (clamp expected c x).2 = (extent expected (c.taken + x.length) : ℕ) := by
    rw [h.reported_eq, hreport, ← hextent, Nat.cast_add]
  rw [hextent, hrep] at hconsumed
  cases st with
  | going c' =>
    obtain ⟨hc', hpos, htaken, hrep'⟩ := hconsumed
    exact ⟨⟨hc', hpos, by rw [hrep', htaken]⟩, htaken⟩
  | raised c' a =>
    obtain ⟨hrep', j, hj, htaken, hle⟩ := hconsumed
    have hlater : c.taken < (j + 1) * cfg.flushThreshold := by
      by_contra hlt
      exact absurd hj.1 (ne_true_of_eq_false (h.calm_of_le (not_lt.mp hlt)))
    exact ⟨hrep', j, hj, htaken, hlater, hle⟩

theorem slowInPiece_cons {expected : Option ℤ} {k taken : ℕ} {x : Bytes} {rest : List Bytes}
    (htaken : extent expected taken = taken) :
    SlowInPiece cfg att expected k taken (x :: rest) ↔ att.stopSeen k = false ∧
      ((∃ j, FirstSlow cfg att j ∧ taken < (j + 1) * cfg.flushThreshold ∧
          (j + 1) * cfg.flushThreshold < extent expected (taken + x.length)) ∨
        SlowInPiece cfg att expected (k + 1) (extent expected (taken + x.length)) rest) := by
  constructor
  · rintro ⟨before, y, after, j, heq, hstop, hj, hlow, hhigh⟩
    refine ⟨hstop 0 (Nat.zero_le _), ?_⟩
    cases before with
    | nil =>
      cases heq
      rw [List.flatten_nil, List.length_nil, Nat.add_zero] at hlow hhigh
      exact .inl ⟨j, hj, htaken ▸ hlow, hhigh⟩
    | cons z before =>
      cases heq
      refine .inr ⟨before, y, after, j, rfl, fun i hi => ?_, hj, ?_, ?_⟩
      · rw [Nat.add_assoc, Nat.add_comm 1 i]
        exact hstop (i + 1) (Nat.succ_le_succ hi)
      · rw [extent_add]
        rwa [List.flatten_cons, List.length_append, ← Nat.add_assoc] at hlow
      · rw [Nat.add_assoc, extent_add, ← Nat.add_assoc]
        rwa [List.flatten_cons, List.length_append, ← Nat.add_assoc] at hhigh
  · rintro ⟨hstop, ⟨j, hj, hlow, hhigh⟩ | ⟨before, y, after, j, rfl, hstops, hj, hlow, hhigh⟩⟩
    · refine ⟨[], x, rest, j, rfl, fun i hi => ?_, hj, ?_, ?_⟩
      · rwa [Nat.le_zero.mp hi]
      · rwa [List.flatten_nil, List.length_nil, Nat.add_zero, htaken]
      · rwa [List.flatten_nil, List.length_nil, Nat.add_zero]
    · refine ⟨x :: before, y, after, j, rfl, fun i hi => ?_, hj, ?_, ?_⟩
      · cases i with
        | zero => exact hstop
        | succ i =>
          rw [← Nat.add_assoc, Nat.add_right_comm]
          exact hstops i (Nat.le_of_succ_le_succ hi)
      · rw [extent_add] at hlow
        rwa [List.flatten_cons, List.length_append, ← Nat.add_assoc]
      · rw [Nat.add_assoc, extent_add, ← Nat.add_assoc] at hhigh
        rwa [List.flatten_cons, List.length_append, ← Nat.add_assoc]

/-! ## The whole body -/

/-- What is known when the body loop ends that began with `k` pieces and `taken` bytes behind it. -/
def Step.Tallied (cfg : FetcherConfig) (att : Attempt) (expected : Option ℤ) (ending : Option FetchFailure)
    (k taken : ℕ) (pieces : List Bytes) : Step → Prop
  | .going c =>
      Level cfg att c ∧ c.taken = extent expected (taken + pieces.flatten.length) ∧
        ¬ SlowInPiece cfg att expected k taken pieces ∧
        (expectedReached expected c = true ∨
          ending = none ∧ ∀ i < pieces.length, att.stopSeen (k + i) = false)
  | .raised c _ =>
      (reported c.effects = c.taken ↔ ¬ SlowInPiece cfg att expected k taken pieces) ∧
        ((∃ i < pieces.length, ReadsOn expected taken (pieces.take i) ∧ att.stopSeen (k + i) = true) ∨
          (ReadsOn expected taken pieces ∧ ending ≠ none) ∨
          ∃ j, (j + 1) * cfg.flushThreshold ≤ extent expected (taken + pieces.flatten.length) ∧
            slowFlush cfg att j = true)

theorem not_slowInPiece_of_reached {expected : Option ℤ} {c : Cursor} {k : ℕ} {pieces : List Bytes}
    (hc : extent expected c.taken = c.taken) (hreach : expectedReached expected c = true) :
    ¬ SlowInPiece cfg att expected k c.taken pieces := by
  rintro ⟨before, x, after, j, -, -, -, hlow, hhigh⟩
  cases expected with
  | none => cases hreach
  | some e =>
    simp only [expectedReached, decide_eq_true_eq] at hreach
    simp only [extent, Cursor.taken] at hc hlow hhigh
    omega

theorem stops_cons {k : ℕ} {x : Bytes} {rest : List Bytes} (hstop : att.stopSeen k = false)
    (h : ∀ i < rest.length, att.stopSeen (k + 1 + i) = false) :
    ∀ i < (x :: rest).length, att.stopSeen (k + i) = false := by
  intro i hi
  cases i with
  | zero => exact hstop
  | succ i =>
    rw [← Nat.add_assoc, Nat.add_right_comm]
    exact h i (Nat.lt_of_succ_lt_succ hi)

theorem ReadsOn.cons {expected : Option ℤ} {taken : ℕ} {x : Bytes} {before : List Bytes}
    (hmore : x = [] ∨ ∀ e ∈ expected, (extent expected (taken + x.length) : ℤ) < e)
    (h : ReadsOn expected (extent expected (taken + x.length)) before) (htaken : extent expected taken = taken) :
    ReadsOn expected taken (x :: before) := by
  rcases hmore with rfl | hmore
  · rw [List.length_nil, Nat.add_zero, htaken] at h
    exact h
  · right
    intro e he
    have hwhole : extent expected (taken + x.length) = taken + x.length := by
      have hlt := hmore e he
      cases he
      simp only [extent] at hlt ⊢
      omega
    rw [List.flatten_cons, List.length_append]
    rcases h with hnil | hrest
    · rw [hnil, List.length_nil, Nat.add_zero, ← hwhole]
      exact hmore e he
    · rw [← Nat.add_assoc, ← hwhole]
      exact hrest e he

/-- A piece that is taken whole hands the tally on to the rest of the body. -/
theorem Step.Tallied.cons {expected : Option ℤ} {ending : Option FetchFailure} {k taken : ℕ} {x : Bytes}
    {rest : List Bytes} {st : Step} (htaken : extent expected taken = taken)
    (hstop : att.stopSeen k = false)
    (hcalm : ∀ j, FirstSlow cfg att j → taken < (j + 1) * cfg.flushThreshold →
      extent expected (taken + x.length) ≤ (j + 1) * cfg.flushThreshold)
    (hmore : ∀ c a, st = .raised c a → x = [] ∨ ∀ e ∈ expected, (extent expected (taken + x.length) : ℤ) < e)
    (h : st.Tallied cfg att expected ending (k + 1) (extent expected (taken + x.length)) rest) :
    st.Tallied cfg att expected ending k taken (x :: rest) := by
  have hslow : SlowInPiece cfg att expected k taken (x :: rest) ↔
      SlowInPiece cfg att expected (k + 1) (extent expected (taken + x.length)) rest := by
    rw [slowInPiece_cons htaken]
    constructor
    · rintro ⟨-, ⟨j, hj, hlow, hhigh⟩ | hrest⟩
      · exact absurd hhigh (not_lt.mpr (hcalm j hj hlow))
      · exact hrest
    · exact fun hrest => ⟨hstop, .inr hrest⟩
  have hlen : extent expected (extent expected (taken + x.length) + rest.flatten.length) =
      extent expected (taken + (x :: rest).flatten.length) := by
    rw [extent_add, List.flatten_cons, List.length_append, Nat.add_assoc]
  cases st with
  | going c =>
    obtain ⟨hc, hext, hnot, hend⟩ := h
    refine ⟨hc, hext.trans hlen, mt hslow.mp hnot, hend.imp_right fun ⟨hnone, hstops⟩ => ?_⟩
    exact ⟨hnone, stops_cons hstop hstops⟩
  | raised c a =>
    obtain ⟨hiff, hwhy⟩ := h
    refine ⟨hiff.trans (not_congr hslow.symm), ?_⟩
    rcases hwhy with ⟨i, hi, hread, hseen⟩ | ⟨hread, hend⟩ | ⟨j, hj, hs⟩
    · refine .inl ⟨i + 1, Nat.succ_lt_succ hi, hread.cons (hmore c a rfl) htaken, ?_⟩
      rw [← Nat.add_assoc, Nat.add_right_comm]
      exact hseen
    · exact .inr (.inl ⟨hread.cons (hmore c a rfl) htaken, hend⟩)
    · exact .inr (.inr ⟨j, hj.trans_eq hlen, hs⟩)

theorem extent_fit {expected : Option ℤ} {n : ℕ} (hfit : ∀ e ∈ expected, (n : ℤ) ≤ e) :
    extent expected n = n := by
  cases expected with
  | none => rfl
  | some e =>
    have := hfit e rfl
    simp only [extent]
    omega

theorem Step.Tallied.slow {expected : Option ℤ} {ending : Option FetchFailure} {k taken : ℕ} {x : Bytes}
    {rest : List Bytes} {c : Cursor} {a : Abort} (htaken : extent expected taken = taken)
    (hstop : att.stopSeen k = false)
    (h : (Step.raised c a).Piece cfg att taken (extent expected (taken + x.length))) :
    (Step.raised c a).Tallied cfg att expected ending k taken (x :: rest) := by
  obtain ⟨hrep, j, hj, hat, hlow, hhigh⟩ := h
  have hgrow : extent expected (taken + x.length) ≤ extent expected (taken + (x :: rest).flatten.length) := by
    apply extent_mono
    rw [List.flatten_cons, List.length_append]
    omega
  refine ⟨?_, .inr (.inr ⟨j, hhigh.trans hgrow, hj.1⟩)⟩
  rw [slowInPiece_cons htaken, hrep, hat]
  constructor
  · rintro hsum ⟨-, ⟨i, hi, -, hin⟩ | ⟨before, y, after, i, -, -, hi, hlater, -⟩⟩
    · obtain rfl := hi.unique hj
      omega
    · obtain rfl := hi.unique hj
      have hmono := extent_mono expected (Nat.le_add_right (extent expected (taken + x.length))
        before.flatten.length)
      have hsame : extent expected (extent expected (taken + x.length)) =
        extent expected (taken + x.length) := extent_add expected _ 0
      omega
  · intro hnot
    by_contra hne
    exact hnot ⟨hstop, .inl ⟨j, hj, hlow, by omega⟩⟩

theorem Step.Tallied.full {expected : Option ℤ} {ending : Option FetchFailure} {k : ℕ} {rest : List Bytes}
    {c : Cursor} (h : Level cfg att c) (hfit : ∀ e ∈ expected, (c.taken : ℤ) ≤ e)
    (hreach : expectedReached expected c = true) :
    (Step.going c).Tallied cfg att expected ending k c.taken rest := by
  refine ⟨h, ?_, not_slowInPiece_of_reached (extent_fit hfit) hreach, .inl hreach⟩
  cases expected with
  | none => cases hreach
  | some e =>
    have := hfit e rfl
    simp only [expectedReached, decide_eq_true_eq] at hreach
    simp only [extent, Cursor.taken] at this ⊢
    omega

theorem bodyLoop_tallied {expected : Option ℤ} {ending : Option FetchFailure} {k : ℕ}
    {pieces : List Bytes} {c : Cursor} {st : Step} (hthr : 0 < cfg.flushThreshold) (h : Level cfg att c)
    (hfit : ∀ e ∈ expected, (c.taken : ℤ) ≤ e)
    (hrun : bodyLoop cfg att start expected ending k pieces c = some st) :
    st.Tallied cfg att expected ending k c.taken pieces := by
  induction pieces generalizing k c with
  | nil =>
    have hnone : ¬ SlowInPiece cfg att expected k c.taken [] := by
      rintro ⟨before, x, after, j, heq, -⟩
      cases before <;> cases heq
    unfold bodyLoop at hrun
    cases ending with
    | none =>
      cases hrun
      exact ⟨h, (extent_fit hfit).symm, hnone, .inr ⟨rfl, by simp⟩⟩
    | some e =>
      cases hrun
      exact ⟨⟨fun _ => hnone, fun _ => h.reported_eq⟩, .inr (.inl ⟨.inl rfl, by simp⟩)⟩
  | cons x rest ih =>
    have htaken := extent_fit hfit
    rw [bodyLoop] at hrun
    split at hrun
    · -- the stop event is seen before the piece is reported
      rename_i hstop
      cases hrun
      refine ⟨⟨fun _ => ?_, fun _ => h.reported_eq⟩, .inl ⟨0, by simp, .inl rfl, hstop⟩⟩
      rw [slowInPiece_cons htaken]
      exact fun hs => absurd hstop (ne_true_of_eq_false hs.1)
    · rename_i hstop
      have hstop : att.stopSeen k = false := Bool.not_eq_true _ ▸ hstop
      split at hrun
      · rename_i hx
        subst hx
        have hrest := ih h hfit hrun
        apply Step.Tallied.cons htaken hstop
        · intro j _ hlow
          rw [List.length_nil, Nat.add_zero, htaken]
          exact hlow.le
        · exact fun _ _ _ => .inl rfl
        · rw [show extent expected (c.taken + ([] : Bytes).length) = c.taken from htaken]
          exact hrest
      · split at hrun
        · cases hrun
        · rename_i c' a heq
          cases hrun
          exact .slow htaken hstop (consumePiece_counted hthr h hfit heq)
        · rename_i c' heq
          obtain ⟨hc', hext⟩ := consumePiece_counted hthr h hfit heq
          have hcalm : ∀ j, FirstSlow cfg att j → c.taken < (j + 1) * cfg.flushThreshold →
              extent expected (c.taken + x.length) ≤ (j + 1) * cfg.flushThreshold := by
            intro j hj _
            by_contra hlt
            exact absurd hj.1 (ne_true_of_eq_false (hc'.calm_of_le (hext ▸ (not_le.mp hlt).le)))
          have hfit' : ∀ e ∈ expected, (c'.taken : ℤ) ≤ e := by
            intro e he
            have h0 := hfit e he
            cases he
            rw [hext]
            simp only [extent]
            omega
          have hmore : ∀ c₁ a, st = .raised c₁ a →
              x = [] ∨ ∀ e ∈ expected, (extent expected (c.taken + x.length) : ℤ) < e := by
            rintro c₁ a rfl
            rw [← hext]
            split at hrun
            · cases hrun
            · rename_i hreach
              refine .inr fun e he => ?_
              cases he
              simp only [expectedReached, decide_eq_true_eq, not_le, ge_iff_le] at hreach
              exact_mod_cast hreach
          apply Step.Tallied.cons htaken hstop hcalm hmore
          rw [← hext]
          split at hrun
          · rename_i hreach
            cases hrun
            exact .full hc' hfit' hreach
          · exact ih hc' hfit' hrun

/-! ## Ranges of negative length -/

theorem byteArrives_cons {k : ℕ} {x : Bytes} {rest : List Bytes} :
    ByteArrives att k (x :: rest) ↔
      att.stopSeen k = false ∧ (x ≠ [] ∨ ByteArrives att (k + 1) rest) := by
  constructor
  · rintro ⟨before, y, after, heq, hy, hbefore, hstop⟩
    refine ⟨hstop 0 (Nat.zero_le _), ?_⟩
    cases before with
    | nil =>
      cases heq
      exact .inl hy
    | cons z before =>
      cases heq
      refine .inr ⟨before, y, after, rfl, hy, fun w hw => hbefore w (List.mem_cons_of_mem _ hw), ?_⟩
      intro i hi
      rw [Nat.add_assoc, Nat.add_comm 1 i]
      exact hstop (i + 1) (Nat.succ_le_succ hi)
  · rintro ⟨hstop, h⟩
    by_cases hx : x = []
    · obtain ⟨before, y, after, rfl, hy, hbefore, hstops⟩ := h.resolve_left (not_not.mpr hx)
      refine ⟨x :: before, y, after, rfl, hy, fun w hw => ?_, fun i hi => ?_⟩
      · rcases List.mem_cons.mp hw with rfl | hw
        · exact hx
        · exact hbefore w hw
      · cases i with
        | zero => exact hstop
        | succ i =>
          rw [← Nat.add_assoc, Nat.add_right_comm]
          exact hstops i (Nat.le_of_succ_le_succ hi)
    · refine ⟨[], x, rest, rfl, hx, by simp, fun i hi => ?_⟩
      rwa [Nat.le_zero.mp hi]

theorem clamp_negative {e : ℤ} {c : Cursor} (x : Bytes) (he : e < 0) (h0 : c.taken = 0) :
    (clamp (some e) c x).2 = e := by
  have hpos : c.bytesWritten + c.writePos = 0 := h0
  simp only [clamp]
  rw [if_pos (by omega)]
  omega

/-- The first byte that arrives for a range of negative length is reported with that length, and the
loop ends with it. -/
theorem bodyLoop_negative {e : ℤ} {ending : Option FetchFailure} {k : ℕ} {pieces : List Bytes}
    {c : Cursor} {st : Step} (hthr : 0 < cfg.flushThreshold) (he : e < 0) (hc : Level cfg att c)
    (h0 : c.taken = 0) (hrun : bodyLoop cfg att start (some e) ending k pieces c = some st) :
    st.cursor = c ∧ ¬ ByteArrives att k pieces ∨
      reported st.cursor.effects = e ∧ ByteArrives att k pieces := by
  induction pieces generalizing k with
  | nil =>
    left
    unfold bodyLoop at hrun
    refine ⟨?_, by rintro ⟨before, x, after, heq, -⟩; cases before <;> cases heq⟩
    cases ending with
    | none =>
      cases hrun
      rfl
    | some f =>
      cases hrun
      rfl
  | cons x rest ih =>
    rw [bodyLoop] at hrun
    rw [byteArrives_cons]
    split at hrun
    · rename_i hstop
      cases hrun
      exact .inl ⟨rfl, fun h => absurd hstop (ne_true_of_eq_false h.1)⟩
    · rename_i hstop
      have hstop : att.stopSeen k = false := Bool.not_eq_true _ ▸ hstop
      split at hrun
      · rename_i hx
        simpa [hstop, hx] using ih hrun
      · rename_i hx
        right
        refine ⟨?_, hstop, .inl hx⟩
        have hpiece : ∀ {st' : Step}, consumePiece cfg att start (some e) x c = some st' →
            reported st'.cursor.effects = e := by
          intro st' hst
          rw [(consumePiece_consumed hthr hc hst).reported_eq, hc.reported_eq, clamp_negative x he h0, h0,
            Nat.cast_zero, zero_add]
        split at hrun
        · cases hrun
        · rename_i c' a heq
          cases hrun
          exact hpiece heq
        · rename_i c' heq
          rw [if_pos (by simp only [expectedReached, decide_eq_true_eq]; omega)] at hrun
          cases hrun
          exact hpiece heq

/-! ## The whole fetch -/

theorem rollback_balanced (metadata : FileMetadata) (c : Cursor) (a : Abort) :
    (rollback metadata c a).Balanced ↔ reported c.effects = c.taken := by
  have hsum : reported (rollback metadata c a).effects = reported c.effects - c.taken := by
    simp only [rollback]
    split
    · simp [Cursor.taken, sub_eq_add_neg]
    · rename_i hzero
      have hnone : c.taken = 0 := Nat.eq_zero_of_not_pos hzero
      rw [hnone, Nat.cast_zero, sub_zero]
  have hbal : (rollback metadata c a).Balanced ↔ reported (rollback metadata c a).effects = 0 := by
    cases a <;> exact Iff.rfl
  rw [hbal, hsum]
  exact sub_eq_zero

theorem lastFlush_taken (start : ℕ) (c : Cursor) :
    (lastFlush start c).bytesWritten = c.taken ∧
      reported (lastFlush start c).effects = reported c.effects := by
  unfold lastFlush
  split
  · exact ⟨rfl, by simp [Cursor.flush]⟩
  · rename_i hzero
    have hpos : c.writePos = 0 := Nat.eq_zero_of_not_pos hzero
    exact ⟨by rw [Cursor.taken, hpos, Nat.add_zero], rfl⟩

/-- A fetch that reads its body to the end keeps what it reported, whether it returns or not. -/
theorem finish_balanced (metadata : FileMetadata) (idx : ℕ) (expected : Option ℤ) (c : Cursor) :
    (finish metadata idx start expected c).Balanced ↔
      reported c.effects = if ∀ e ∈ expected, (c.taken : ℤ) = e then (c.taken : ℤ) else 0 := by
  obtain ⟨htaken, hrep⟩ := lastFlush_taken start c
  have hreturned : ∀ b : List Effect, (b = [] ∨ ∃ n, b = [.command (.truncate n)]) →
      (FetchResult.Balanced ⟨(lastFlush start c).effects ++ (b ++ [.command (.mark idx), .update 0 (some idx)]),
        .returned (lastFlush start c).bytesWritten, ⟨metadata, (lastFlush start c).buffer⟩⟩ ↔
        reported c.effects = c.taken) := by
    rintro b (rfl | ⟨n, rfl⟩) <;> simp [FetchResult.Balanced, hrep, htaken]
  have htail : (if metadata.totalSize ≤ 0 then [Effect.command (.truncate (lastFlush start c).bytesWritten)]
      else []) = [] ∨ ∃ n, (if metadata.totalSize ≤ 0 then
        [Effect.command (.truncate (lastFlush start c).bytesWritten)] else []) = [.command (.truncate n)] := by
    split
    · exact .inr ⟨_, rfl⟩
    · exact .inl rfl
  cases expected with
  | none =>
    rw [if_pos (by simp)]
    exact hreturned _ htail
  | some e =>
    by_cases he : ((lastFlush start c).bytesWritten : ℤ) = e
    · have hfin : finish metadata idx start (some e) c = finish metadata idx start none c :=
        if_neg (not_not.mpr he)
      rw [hfin, if_pos (by simpa [← htaken] using he)]
      exact hreturned _ htail
    · have hfin : finish metadata idx start (some e) c = ⟨(lastFlush start c).effects,
          .fetchError ⟨.incompleteChunk, incompleteText idx e (lastFlush start c).bytesWritten⟩,
          ⟨metadata, (lastFlush start c).buffer⟩⟩ := if_pos he
      rw [hfin, if_neg (by simpa [← htaken] using he), ← hrep]
      exact Iff.rfl

/-- An attempt that leaves the body loop by an exception. -/
theorem Step.Tallied.raised {expected : Option ℤ} {r : Response} {metadata : FileMetadata} {c : Cursor}
    {a : Abort} (h : (Step.raised c a).Tallied cfg att expected r.ending 0 0 r.pieces) :
    (rollback metadata c a).Balanced ↔
      ¬ (SlowInPiece cfg att expected 0 0 r.pieces ∨ ShortBody cfg att expected r) := by
  obtain ⟨hiff, hwhy⟩ := h
  have hshort : ¬ ShortBody cfg att expected r := by
    rintro ⟨hend, hstops, hcalm, -, -⟩
    rcases hwhy with ⟨i, hi, -, hseen⟩ | ⟨-, hend'⟩ | ⟨j, hj, hslow⟩
    · rw [Nat.zero_add, hstops i hi] at hseen
      cases hseen
    · exact hend' hend
    · rw [Nat.zero_add] at hj
      rw [hcalm j (hj.trans (extent_le _ _))] at hslow
      cases hslow
  rw [rollback_balanced, hiff, not_or]
  exact ⟨fun h => ⟨h, hshort⟩, fun h => h.1⟩

/-- An attempt that reads the body to its end, or to the end of the range. -/
theorem Step.Tallied.going {expected : Option ℤ} {r : Response} {metadata : FileMetadata} {c : Cursor}
    {idx : ℕ} (hpos : ∀ e ∈ expected, (0 : ℤ) ≤ e)
    (h : (Step.going c).Tallied cfg att expected r.ending 0 0 r.pieces) :
    (finish metadata idx start expected c).Balanced ↔
      ¬ (SlowInPiece cfg att expected 0 0 r.pieces ∨ ShortBody cfg att expected r) := by
  obtain ⟨hc, hext, hslow, hend⟩ := h
  rw [Nat.zero_add] at hext
  rw [finish_balanced, hc.reported_eq]
  cases expected with
  | none =>
    have hshort : ¬ ShortBody cfg att none r := by
      rintro ⟨-, -, -, -, e, he, -⟩
      cases he
    simp [hslow, hshort]
  | some e =>
    have he := hpos e rfl
    simp only [extent] at hext
    by_cases hfull : (c.taken : ℤ) = e
    · have hshort : ¬ ShortBody cfg att (some e) r := by
        rintro ⟨-, -, -, -, e', he', hlt⟩
        cases he'
        omega
      simp [hfull, hslow, hshort]
    · have hnot : ¬ expectedReached (some e) c = true := by
        simp only [expectedReached, decide_eq_true_eq]
        have : (c.bytesWritten : ℤ) + c.writePos = c.taken := by simp [Cursor.taken]
        omega
      obtain ⟨hnone, hstops⟩ := hend.resolve_left hnot
      have htotal : c.taken = r.pieces.flatten.length := by omega
      have hshort : ShortBody cfg att (some e) r ↔ 0 < c.taken := by
        constructor
        · rintro ⟨-, -, -, hlen, -⟩
          omega
        · refine fun hlen => ⟨hnone, fun i hi => ?_, fun j hj => ?_, by omega, e, rfl, by omega⟩
          · have hseen := hstops i hi
            rwa [Nat.zero_add] at hseen
          · exact hc.calm_of_le (by omega)
      have hcond : ¬ ∀ e' ∈ some e, (c.taken : ℤ) = e' := fun hall => hfull (hall e rfl)
      rw [if_neg hcond, hshort]
      simp only [hslow, false_or, not_lt, Nat.le_zero, Nat.cast_eq_zero]

theorem Level.init (hthr : 0 < cfg.flushThreshold) (buffer : Bytes) : Level cfg att { buffer } where
  aligned := (Nat.zero_mul _).symm
  posLe := hthr.le
  calm := fun i hi => absurd hi (Nat.not_lt_zero i)
  posLt := hthr
  reported_eq := rfl

theorem misreports_answer {metadata : FileMetadata} {idx : ℕ} {r : Response} (hreply : att.reply = .answer r)
    (hfail : r.failed = false) {metadata' : FileMetadata} {expected : Option ℤ}
    (hres : resolveSize cfg metadata (idx * cfg.chunkSize) r = (metadata', expected)) :
    Misreports cfg metadata idx att ↔ SlowInPiece cfg att expected 0 0 r.pieces ∨
      ShortBody cfg att expected r ∨ (∃ e ∈ expected, e < 0) ∧ ByteArrives att 0 r.pieces := by
  unfold Misreports
  constructor
  · rintro ⟨r', heq, -, h⟩
    cases hreply.symm.trans heq
    rwa [hres] at h
  · intro h
    refine ⟨r, hreply, hfail, ?_⟩
    rwa [hres]

theorem misreports_fitting {expected : Option ℤ} {r : Response} (hpos : ∀ e ∈ expected, (0 : ℤ) ≤ e) :
    (SlowInPiece cfg att expected 0 0 r.pieces ∨ ShortBody cfg att expected r ∨
      (∃ e ∈ expected, e < 0) ∧ ByteArrives att 0 r.pieces) ↔
        SlowInPiece cfg att expected 0 0 r.pieces ∨ ShortBody cfg att expected r := by
  have hneg : ¬ ∃ e ∈ expected, e < 0 := fun ⟨e, he, hlt⟩ => absurd hlt (not_lt.mpr (hpos e he))
  simp only [hneg, false_and, or_false]

/-- In a range of negative length there are no flushes and nothing is missing. -/
theorem misreports_negative {e : ℤ} {r : Response} (he : e < 0) :
    (SlowInPiece cfg att (some e) 0 0 r.pieces ∨ ShortBody cfg att (some e) r ∨
      (∃ e' ∈ some e, e' < 0) ∧ ByteArrives att 0 r.pieces) ↔ ByteArrives att 0 r.pieces := by
  have hslow : ¬ SlowInPiece cfg att (some e) 0 0 r.pieces := by
    rintro ⟨before, x, after, j, -, -, -, -, hhigh⟩
    simp only [extent] at hhigh
    omega
  have hshort : ¬ ShortBody cfg att (some e) r := by
    rintro ⟨-, -, -, -, e', he', hlt⟩
    cases he'
    omega
  simp only [hslow, hshort, false_or]
  exact ⟨fun h => h.2, fun h => ⟨⟨e, rfl, he⟩, h⟩⟩

theorem negative_balanced {e : ℤ} {ending : Option FetchFailure} {pieces : List Bytes} {buffer : Bytes}
    {st : Step} (hthr : 0 < cfg.flushThreshold) (he : e < 0)
    (hrun : bodyLoop cfg att start (some e) ending 0 pieces { buffer } = some st) :
    (reported st.cursor.effects = 0 ↔ ¬ ByteArrives att 0 pieces) ∧
      (reported st.cursor.effects = st.cursor.taken ↔ ¬ ByteArrives att 0 pieces) := by
  rcases bodyLoop_negative hthr he (Level.init hthr buffer) rfl hrun with ⟨hcursor, hno⟩ | ⟨hrep, hyes⟩
  · rw [hcursor]
    exact ⟨⟨fun _ => hno, fun _ => rfl⟩, ⟨fun _ => hno, fun _ => rfl⟩⟩
  · rw [hrep]
    refine ⟨⟨fun hzero => ?_, fun h => absurd hyes h⟩, ⟨fun htaken => ?_, fun h => absurd hyes h⟩⟩
    · omega
    · omega

theorem finish_negative {e : ℤ} (he : e < 0) (metadata : FileMetadata) (idx : ℕ) (c : Cursor) :
    (finish metadata idx start (some e) c).Balanced ↔ reported c.effects = 0 := by
  rw [finish_balanced, if_neg]
  intro hall
  have := hall e rfl
  omega

/-- The reports of a fetch add up exactly when no flush in the middle of a piece is the first to find
the mirror too slow, the body is not short, and no byte arrives for a range of negative length. -/
theorem fetch_balanced_iff {f : ChunkFetcher} {idx : ℕ} {res : FetchResult}
    (hthr : 0 < cfg.flushThreshold) (h : fetch cfg f idx att = some res) :
    res.Balanced ↔ ¬ Misreports cfg f.metadata idx att := by
  cases fetch_path h with
  | unread e failed =>
    refine ⟨fun _ => ?_, fun _ => (rollback_balanced _ _ _).mpr rfl⟩
    rintro ⟨r, hreply, hok, -⟩
    rw [failed r hreply] at hok
    cases hok
  | cutShort r metadata expected c a reply ok resolved body =>
    rw [misreports_answer reply ok resolved]
    by_cases hpos : ∀ e ∈ expected, (0 : ℤ) ≤ e
    · rw [misreports_fitting hpos]
      exact (bodyLoop_tallied hthr (Level.init hthr f.buffer) hpos body).raised
    · obtain ⟨e, rfl, hneg⟩ : ∃ e, expected = some e ∧ e < 0 := by simpa using hpos
      rw [misreports_negative hneg, rollback_balanced]
      exact (negative_balanced hthr hneg body).2
  | finished r metadata expected c reply ok resolved body =>
    rw [misreports_answer reply ok resolved]
    by_cases hpos : ∀ e ∈ expected, (0 : ℤ) ≤ e
    · rw [misreports_fitting hpos]
      exact (bodyLoop_tallied hthr (Level.init hthr f.buffer) hpos body).going hpos
    · obtain ⟨e, rfl, hneg⟩ : ∃ e, expected = some e ∧ e < 0 := by simpa using hpos
      rw [misreports_negative hneg, finish_negative hneg]
      exact (negative_balanced hthr hneg body).1

/-- A body of two bytes for a chunk of four: two bytes stay reported. -/
theorem fetch_short_misreports :
    ∃ res, fetch { chunkSize := 4 } (.new { chunkSize := 4 } { totalSize := 4, acceptsRanges := true }) 0
        { reply := .answer { status := 206, pieces := [[1, 2]] } } = some res ∧
      (∃ e, res.outcome = .fetchError e) ∧ reported res.effects = 2 ∧ ¬ res.Balanced :=
  ⟨_, rfl, ⟨_, rfl⟩, rfl, fun h => absurd h (by decide : ¬ (2 : ℤ) = 0)⟩

/-- The same chunk with its whole body. -/
theorem fetch_whole_balanced_iff :
    ∃ res, fetch { chunkSize := 4 } (.new { chunkSize := 4 } { totalSize := 4, acceptsRanges := true }) 0
        { reply := .answer { status := 206, pieces := [[1, 2], [3, 4]] } } = some res ∧
      (res.Balanced ↔ ¬ Misreports { chunkSize := 4 } { totalSize := 4, acceptsRanges := true } 0
        { reply := .answer { status := 206, pieces := [[1, 2], [3, 4]] } }) := by
  have hthr : 0 < ({ chunkSize := 4 } : FetcherConfig).flushThreshold := by decide
  obtain ⟨res, hres⟩ := fetch_total hthr
    (.new { chunkSize := 4 } { totalSize := 4, acceptsRanges := true }) 0
    { reply := .answer { status := 206, pieces := [[1, 2], [3, 4]] } }
  exact ⟨res, hres, fetch_balanced_iff hthr hres⟩

end Mrdl.Fetcher
