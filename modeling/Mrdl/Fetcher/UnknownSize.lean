import Mrdl.Fetcher.Outcome
import Mrdl.Session.Core
import Mrdl.Foundations.Runs

/-! # Downloads of unknown size

When the probe finds neither a size nor range support there is one chunk, and a fetcher that has not
learnt a size takes the whole body and truncates the file to it. The first accepted response with a
positive `Content-Length` teaches the fetcher a size for good: from then on a fetch takes at most that
many bytes, and nothing truncates the file.
-/

namespace Mrdl.Fetcher
open FileBytes Runs Session
set_option autoImplicit false

/-- A failed attempt at chunk 0: the fetcher keeps its state, the writer carries out what it was
handed. -/
def failedAttempt (cfg : FetcherConfig) (s : ChunkFetcher × Bytes) (att : Attempt) :
    Option (ChunkFetcher × Bytes) :=
  match fetch cfg s.1 0 att with
  | none => none
  | some res =>
      match res.outcome with
      | .fetchError _ => some (res.fetcher, performAll s.2 (commands res.effects))
      | _ => none

/-- The positive `Content-Length` of an accepted response, otherwise 0. -/
def announced (att : Attempt) : ℕ :=
  match att.reply with
  | .noAnswer _ => 0
  | .answer r => if r.failed then 0 else r.contentLength.getD 0

/-- The first size that an accepted response announced. -/
def firstAnnounced : List Attempt → ℕ
  | [] => 0
  | att :: rest => if announced att = 0 then firstAnnounced rest else announced att

/-- A response that carries `body`: all of it when the stream ends normally, a prefix otherwise. -/
structure Carries (r : Response) (body : Bytes) : Prop where
  received : r.pieces.flatten <+: body
  whole : r.ending = none → r.pieces.flatten = body
  length : ∀ len, r.contentLength = some len → len = body.length

section
variable {cfg : FetcherConfig}

theorem metadataAfter_unknown {metadata : FileMetadata} {att : Attempt}
    (hsize : metadata.totalSize = 0) (hranges : metadata.acceptsRanges = false) :
    (metadataAfter cfg metadata 0 att.reply).totalSize = announced att ∧
      (metadataAfter cfg metadata 0 att.reply).acceptsRanges = false := by
  unfold metadataAfter announced
  cases att.reply with
  | noAnswer e => exact ⟨by simp [hsize], hranges⟩
  | answer r =>
    simp only
    cases r.failed with
    | true => exact ⟨by simp [hsize], hranges⟩
    | false =>
      simp only [Bool.false_eq_true, if_false, resolveSize, hsize]
      by_cases hlen : r.contentLength.getD 0 > 0
      · simp [hlen, hranges]
      · have hzero : r.contentLength.getD 0 = 0 := by omega
        simp [hzero, hsize, hranges]

theorem expectation_unknown (cfg : FetcherConfig) {metadata : FileMetadata} {r : Response} (hok : r.failed = false)
    (hsize : metadata.totalSize = 0) (hranges : metadata.acceptsRanges = false) :
    expectation cfg metadata 0 (.answer r) =
      if r.contentLength.getD 0 = 0 then none else some (r.contentLength.getD 0 : ℤ) := by
  simp only [expectation, hok, Bool.false_eq_true, if_false, resolveSize, hsize]
  by_cases hlen : r.contentLength.getD 0 > 0
  · have hne : r.contentLength.getD 0 ≠ 0 := by omega
    simp [hlen, hne, hranges]
  · have hzero : r.contentLength.getD 0 = 0 := by omega
    simp [hzero]

theorem rangeEnd_zero {totalSize : ℤ} :
    rangeEnd cfg totalSize 0 - (0 : ℕ) + 1 = min (cfg.chunkSize : ℤ) totalSize := by
  unfold rangeEnd
  omega

theorem fits_first_chunk {metadata : FileMetadata} {reply : Reply}
    (hranges : metadata.acceptsRanges = false) (hsize : 0 ≤ metadata.totalSize) :
    Fits (expectation cfg metadata 0 reply) [] := by
  intro e he
  rw [List.length_nil, Nat.cast_zero]
  by_cases hpos : 0 < metadata.totalSize
  · rw [expectation_known hpos, rangeEnd_zero] at he
    cases he
    omega
  · have hzero : metadata.totalSize = 0 := by omega
    cases reply with
    | noAnswer err => simp [expectation, expectedBytes, hzero] at he
    | answer r =>
      cases hok : r.failed with
      | true => simp [expectation, expectedBytes, hzero, hok] at he
      | false =>
        rw [expectation_unknown cfg hok hzero hranges] at he
        split at he
        · cases he
        · cases he
          omega

/-- The fetcher after failed attempts: it knows the size that was announced first. -/
structure Learnt (cfg : FetcherConfig) (size : ℕ) (f : ChunkFetcher) : Prop where
  bufferLength : f.buffer.length = cfg.flushThreshold
  totalSize : f.metadata.totalSize = size
  acceptsRanges : f.metadata.acceptsRanges = false

theorem failedAttempt_learnt {s t : ChunkFetcher × Bytes} {size : ℕ} {att : Attempt}
    (h : Learnt cfg size s.1) (hstep : failedAttempt cfg s att = some t) :
    Learnt cfg (if size = 0 then announced att else size) t.1 := by
  unfold failedAttempt at hstep
  split at hstep
  · cases hstep
  rename_i res hfetch
  split at hstep
  case h_2 => cases hstep
  cases hstep
  have hfits : Fits (expectation cfg s.1.metadata (0 * cfg.chunkSize) att.reply) [] := by
    rw [Nat.zero_mul]
    exact fits_first_chunk h.acceptsRanges (by rw [h.totalSize]; omega)
  obtain ⟨ws, d, hd⟩ := fetch_handed h.bufferLength hfits hfetch
  have hmeta := hd.metadata_eq
  rw [Nat.zero_mul] at hmeta
  refine ⟨hd.bufferLength, ?_, ?_⟩
  · by_cases hsize : size = 0
    · rw [if_pos hsize, hmeta]
      exact (metadataAfter_unknown (by rw [h.totalSize, hsize]; rfl) h.acceptsRanges).1
    · rw [if_neg hsize, hmeta, metadataAfter_known (by rw [h.totalSize]; omega)]
      exact h.totalSize
  · by_cases hsize : size = 0
    · rw [hmeta]
      exact (metadataAfter_unknown (by rw [h.totalSize, hsize]; rfl) h.acceptsRanges).2
    · rw [hmeta, metadataAfter_known (by rw [h.totalSize]; omega)]
      exact h.acceptsRanges

theorem failedAttempts_learnt {s t : ChunkFetcher × Bytes} {size : ℕ} {failed : List Attempt}
    (h : Learnt cfg size s.1) (hrun : exec (failedAttempt cfg) s failed = some t) :
    Learnt cfg (if size = 0 then firstAnnounced failed else size) t.1 := by
  induction failed generalizing s size with
  | nil =>
    cases hrun
    have hsame : (if size = 0 then firstAnnounced [] else size) = size := by
      split
      · rename_i hz
        exact hz.symm
      · rfl
    rw [hsame]
    exact h
  | cons att rest ih =>
    obtain ⟨u, hu, ht⟩ := exec_cons.mp hrun
    have hrest := ih (failedAttempt_learnt h hu) ht
    by_cases hsize : size = 0
    · simp only [hsize, if_true] at hrest ⊢
      by_cases ha : announced att = 0
      · simpa [firstAnnounced, ha] using hrest
      · simpa [firstAnnounced, ha] using hrest
    · simpa [hsize] using hrest

/-- The bytes a fetch that returns takes of a body, when `size` is the size it knows already. -/
def taken (cfg : FetcherConfig) (size : ℕ) (body : Bytes) : ℕ :=
  if size = 0 then body.length else min cfg.chunkSize size

/-- What a returning fetch of chunk 0 makes of the file. -/
theorem returned_file {f : ChunkFetcher} {size : ℕ} {att : Attempt} {r : Response} {body : Bytes}
    {res : FetchResult} {n : ℕ} (file : Bytes) (h : Learnt cfg size f) (hreply : att.reply = .answer r)
    (hbody : Carries r body) (hrun : fetch cfg f 0 att = some res) (hn : res.outcome = .returned n) :
    taken cfg size body ≤ body.length ∧
    performAll file (commands res.effects) =
      if size = 0 ∧ r.contentLength.getD 0 = 0 then body
      else body.take (taken cfg size body) ++ file.drop (taken cfg size body) := by
  obtain ⟨r', ws, d, -, hd⟩ := fetch_delivered h.bufferLength hrun hn
  cases hreply.symm.trans hd.answered
  have hok := hd.ok
  have hclip := hd.clipped
  have hall := hd.expected
  have hcmd := hd.handed
  have htiles := hd.tiles
  have hmeta := hd.metadata_eq
  rw [Nat.zero_mul] at hclip hall htiles hmeta
  have hwritten : performAll file (asCommands ws) = writeAt file 0 d := by
    rw [performAll_asCommands, htiles.writeAll]
  have hkeep : 0 < res.fetcher.metadata.totalSize → d = body.take d.length →
      performAll file (commands res.effects) = body.take d.length ++ file.drop d.length := by
    intro hpos hpre
    rw [hcmd, performAll_append, hwritten, if_neg (by omega), writeAt_zero, ← hpre]
    rfl
  have hstart : d <+: body := by
    refine List.IsPrefix.trans ?_ hbody.received
    rw [hclip]
    unfold clip
    split
    · exact List.prefix_rfl
    · exact List.take_prefix _ _
  have hpre : d = body.take d.length := List.prefix_iff_eq_take.mp hstart
  rw [hreply] at hall hmeta
  by_cases hsize : size = 0
  · have htotal : f.metadata.totalSize = 0 := by rw [h.totalSize, hsize]; rfl
    have hexp := expectation_unknown cfg hok htotal h.acceptsRanges
    have hnow : res.fetcher.metadata.totalSize = announced att := by
      rw [hmeta, ← hreply]
      exact (metadataAfter_unknown htotal h.acceptsRanges).1
    have hann : announced att = r.contentLength.getD 0 := by simp [announced, hreply, hok]
    have htaken : taken cfg size body = body.length := by simp [taken, hsize]
    by_cases hlen : r.contentLength.getD 0 = 0
    · -- no length announced: the whole body, and the truncation
      rw [if_pos hlen] at hexp
      have hend := fetch_returned_ended hrun hn hreply (by rw [Nat.zero_mul, hreply, hexp])
      have hd' : d = body := by
        rw [hclip, hreply, hexp, clip, hbody.whole hend]
      refine ⟨by rw [htaken], ?_⟩
      rw [if_pos ⟨hsize, hlen⟩, hcmd, performAll_append, hwritten, hnow, hann, hlen, writeAt_zero,
        ← hd']
      exact resize_append d _
    · rw [if_neg hlen] at hexp
      have hd' : d.length = body.length := by
        have h1 := hall _ hexp
        obtain ⟨len, hl⟩ : ∃ len, r.contentLength = some len := by
          cases hc : r.contentLength with
          | none => rw [hc] at hlen; exact absurd rfl hlen
          | some len => exact ⟨len, rfl⟩
        have h2 := hbody.length len hl
        rw [hl, Option.getD_some] at h1
        omega
      refine ⟨by rw [htaken], ?_⟩
      rw [if_neg (by simp [hlen]), htaken, ← hd']
      exact hkeep (by rw [hnow, hann]; omega) hpre
  · have hpos : 0 < f.metadata.totalSize := by rw [h.totalSize]; omega
    have htaken : taken cfg size body = d.length := by
      have h1 := hall _ (expectation_known hpos)
      rw [rangeEnd_zero, h.totalSize] at h1
      rw [taken, if_neg hsize]
      omega
    rw [htaken, if_neg (by simp [hsize])]
    refine ⟨hstart.length_le, hkeep ?_ hpre⟩
    rw [hmeta, metadataAfter_known hpos]
    exact hpos

end

theorem new_learnt (cfg : FetcherConfig) {metadata : FileMetadata} (hsize : metadata.totalSize = 0)
    (hranges : metadata.acceptsRanges = false) : Learnt cfg 0 (ChunkFetcher.new cfg metadata) :=
  ⟨by simp [ChunkFetcher.new], hsize, hranges⟩

/-- The download ends as the body, exactly when no accepted response announced a length, or the file
before the successful attempt agrees with the body beyond the bytes which that attempt takes. -/
theorem ends_as_body_iff (cfg : FetcherConfig) (metadata : FileMetadata) (os : Platform)
    (old : Option Bytes) (failed : List Attempt) (f : ChunkFetcher) (leftover : Bytes)
    (last : Attempt) (r : Response) (body : Bytes) (res : FetchResult) (n : ℕ)
    (hsize : metadata.totalSize = 0) (hranges : metadata.acceptsRanges = false)
    (hfailed : exec (failedAttempt cfg) (ChunkFetcher.new cfg metadata,
      prepareFile os old metadata.totalSize) failed = some (f, leftover))
    (hreply : last.reply = .answer r) (hbody : Carries r body)
    (hrun : fetch cfg f 0 last = some res) (hn : res.outcome = .returned n) :
    performAll leftover (commands res.effects) = body ↔
      (firstAnnounced failed = 0 ∧ r.contentLength.getD 0 = 0) ∨
      leftover.drop (taken cfg (firstAnnounced failed) body) =
        body.drop (taken cfg (firstAnnounced failed) body) := by
  have hf : Learnt cfg (firstAnnounced failed) f := by
    have h := failedAttempts_learnt (new_learnt cfg hsize hranges) hfailed
    rwa [if_pos rfl] at h
  obtain ⟨hle, hfile⟩ := returned_file leftover hf hreply hbody hrun hn
  rw [hfile]
  split
  · rename_i hnone
    simp [hnone]
  · rename_i hsome
    simp only [hsome, false_or]
    generalize taken cfg (firstAnnounced failed) body = k at hle ⊢
    constructor
    · intro h
      have hdrop := congrArg (List.drop k) h
      rwa [List.drop_append_of_le_length (by rw [List.length_take]; omega),
        List.drop_eq_nil_of_le (by rw [List.length_take]; omega), List.nil_append] at hdrop
    · intro h
      rw [h, List.take_append_drop]

/-- A shorter file over a longer one: the announced length leaves the old bytes behind. -/
theorem announced_length_keeps_old :
    ∃ res, fetch { chunkSize := fallbackUnknownSizeChunk }
        (ChunkFetcher.new { chunkSize := fallbackUnknownSizeChunk } ⟨0, false, none, none⟩) 0
        { reply := .answer { status := 200, contentLength := some 1, pieces := [[9]] } } = some res ∧
      res.outcome = .returned 1 ∧
      performAll (prepareFile {} (some [1, 2, 3]) 0) (commands res.effects) ≠ [9] := by
  refine ⟨_, rfl, rfl, ?_⟩
  decide +kernel

/-- A body without an announced length replaces the longer file. -/
theorem unannounced_length_ends_as_body :
    ∃ res, fetch { chunkSize := fallbackUnknownSizeChunk }
        (ChunkFetcher.new { chunkSize := fallbackUnknownSizeChunk } ⟨0, false, none, none⟩) 0
        { reply := .answer { status := 200, pieces := [[9]] } } = some res ∧
      performAll (prepareFile {} (some [1, 2, 3]) 0) (commands res.effects) = [9] :=
  ⟨_, rfl, (ends_as_body_iff { chunkSize := fallbackUnknownSizeChunk } ⟨0, false, none, none⟩ {}
    (some [1, 2, 3]) [] _ _ { reply := .answer { status := 200, pieces := [[9]] } }
    { status := 200, pieces := [[9]] } [9] _ 1 rfl rfl rfl rfl
    ⟨List.prefix_rfl, fun _ => rfl, fun _ h => by cases h⟩ rfl rfl).mpr (Or.inl ⟨rfl, rfl⟩)⟩

end Mrdl.Fetcher
