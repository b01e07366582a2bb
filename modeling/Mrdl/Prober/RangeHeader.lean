import Mrdl.Foundations.Runs
import Mrdl.Fetcher.Outcome
import Mrdl.Prober.Core
import Mrdl.Session.Core

/-! # The `Range` headers of a run

From the headers of the probe's response to the headers that the fetchers send. The prober takes the
total of a 206 response as it is parsed; the fallback looks for a total of zero, the number of chunks and
the fetcher for one that is not positive.
-/

namespace Mrdl.Prober
open Fetcher Runs Session
set_option autoImplicit false

/-- The header as it is sent. -/
def headerText (start : ℕ) (last : Option ℤ) : String :=
  "bytes=" ++ toString start ++ "-" ++
    match last with
    | some last => toString last
    | none => "None"

/-- What a fetch that begins at `start` may send about a file of `totalSize` bytes. -/
def ValidRequest (totalSize : ℤ) (start : ℕ) : Option (ℕ × Option ℤ) → Prop
  | none => start = 0
  | some (first, last) => ∃ b, last = some b ∧ (first : ℤ) ≤ b ∧ b ≤ totalSize - 1

/-- One of the fetches that a fetcher has behind it. -/
def fetchBefore (cfg : FetcherConfig) (f : ChunkFetcher) (call : ℕ × Attempt) : Option ChunkFetcher :=
  (fetch cfg f call.1 call.2).map FetchResult.fetcher

/-- The configuration of the fetchers of a run. -/
def fetcherConfig (base : FetcherConfig) (cfg : DownloadConfig) (m : FileMetadata) : FetcherConfig :=
  { base with chunkSize := (applyProbeFallback cfg m).chunkSize }

/-! ## The metadata of a fetcher -/

theorem fetch_metadata {cfg : FetcherConfig} {f : ChunkFetcher} {idx : ℕ} {att : Attempt} {res : FetchResult}
    (h : fetch cfg f idx att = some res) :
    res.fetcher.metadata = metadataAfter cfg f.metadata (idx * cfg.chunkSize) att.reply := by
  cases fetch_path h with
  | unread e failed => exact (metadataAfter_unread failed).symm
  | cutShort r metadata expected c a reply ok resolved => exact (metadataAfter_read reply ok resolved).1.symm
  | finished r metadata expected c reply ok resolved =>
    rw [(finish_eq _ _ _ _ _).1]
    exact (metadataAfter_read reply ok resolved).1.symm

theorem metadataAfter_acceptsRanges {cfg : FetcherConfig} {metadata : FileMetadata} {start : ℕ}
    {reply : Reply} : (metadataAfter cfg metadata start reply).acceptsRanges = metadata.acceptsRanges := by
  cases reply with
  | noAnswer e => rfl
  | answer r =>
    simp only [metadataAfter, resolveSize]
    split
    · rfl
    · split
      · split
        · split <;> rfl
        · rfl
      · rfl

/-- A known size never changes, and range support neither. -/
theorem fetchBefore_metadata {cfg : FetcherConfig} {f f' : ChunkFetcher} {calls : List (ℕ × Attempt)}
    (hrun : exec (fetchBefore cfg) f calls = some f') :
    f'.metadata.acceptsRanges = f.metadata.acceptsRanges ∧
      (0 < f.metadata.totalSize → f'.metadata = f.metadata) := by
  refine exec_invariant (P := fun g => g.metadata.acceptsRanges = f.metadata.acceptsRanges ∧
    (0 < f.metadata.totalSize → g.metadata = f.metadata)) ?_ ⟨rfl, fun _ => rfl⟩ hrun
  intro g call g' hg hstep
  obtain ⟨res, hres, rfl⟩ := Option.map_eq_some_iff.mp hstep
  rw [fetch_metadata hres]
  refine ⟨metadataAfter_acceptsRanges.trans hg.1, fun hsize => ?_⟩
  have hsame := hg.2 hsize
  rw [metadataAfter_known (by rw [hsame]; exact hsize), hsame]

/-! ## The chunks of the fallback -/

theorem single_chunk {cfg : DownloadConfig} {m : FileMetadata} (h : m.acceptsRanges = false ∨ m.totalSize ≤ 0) :
    computeTotalChunks m.totalSize (applyProbeFallback cfg m).chunkSize = 1 := by
  by_cases hsize : m.totalSize ≤ 0
  · exact if_pos hsize
  · have hno := h.resolve_right hsize
    have hpos : 0 < m.totalSize := not_le.mp hsize
    have hchunk : (applyProbeFallback cfg m).chunkSize = m.totalSize.toNat := by
      rw [applyProbeFallback, if_pos (.inr hno)]
      exact if_pos hpos
    rw [hchunk, computeTotalChunks_eq_count hpos (by omega), Tiling.count, Nat.div_eq_of_lt_le] <;> omega

theorem fallback_chunkSize_pos {cfg : DownloadConfig} {m : FileMetadata} (hchunk : 0 < cfg.chunkSize) :
    0 < (applyProbeFallback cfg m).chunkSize := by
  unfold applyProbeFallback
  split
  · simp only
    split
    · omega
    · decide
  · exact hchunk

/-- What the prober makes of a response it accepts. -/
theorem probeSingle_cases {r : ProbeResponse} {m : FileMetadata} (h : probeSingle (some r) = some m) :
    r.status = 200 ∧ m.acceptsRanges = false ∨
      r.status ≠ 200 ∧ m.acceptsRanges = true ∧ rangeTotal r = some m.totalSize := by
  simp only [probeSingle] at h
  split at h
  · rename_i hstatus
    obtain ⟨total, htotal, rfl⟩ := Option.map_eq_some_iff.mp h
    exact .inr ⟨by omega, rfl, htotal⟩
  · split at h
    · rename_i hstatus
      obtain ⟨total, -, rfl⟩ := Option.map_eq_some_iff.mp h
      exact .inl ⟨hstatus, rfl⟩
    · cases h

theorem range_request {cfg : FetcherConfig} {m : FileMetadata} {i : ℕ} (hranges : m.acceptsRanges = true)
    (hsize : 0 < m.totalSize) (hchunk : 0 < cfg.chunkSize)
    (hi : i < computeTotalChunks m.totalSize cfg.chunkSize) :
    ValidRequest m.totalSize (i * cfg.chunkSize) (rangeHeader cfg m i) := by
  rw [computeTotalChunks_eq_count hsize hchunk, Tiling.lt_count_iff hchunk] at hi
  rw [rangeHeader, if_pos hranges, if_pos hsize]
  refine ⟨_, rfl, ?_, ?_⟩
  · rw [rangeEnd]
    omega
  · exact min_le_right _ _

/-- Every fetch of a queued chunk asks for a valid range, exactly when the mirror answered with status
200, or with a positive total, or the only chunk is not queued. -/
theorem range_header_iff (cfg : DownloadConfig) (base : FetcherConfig) (r : ProbeResponse)
    (m : FileMetadata) (completed : List Json) (hchunk : 0 < cfg.chunkSize)
    (hprobe : probeSingle (some r) = some m) :
    (∀ item ∈ buildChunkQueue (computeTotalChunks m.totalSize (applyProbeFallback cfg m).chunkSize) completed,
      ∀ calls f, exec (fetchBefore (fetcherConfig base cfg m)) (.new (fetcherConfig base cfg m) m) calls = some f →
        ValidRequest m.totalSize (item.chunkIdx.toNat * (fetcherConfig base cfg m).chunkSize)
          (rangeHeader (fetcherConfig base cfg m) f.metadata item.chunkIdx.toNat)) ↔
    r.status = 200 ∨ (∃ total, rangeTotal r = some total ∧ 0 < total) ∨ inSet completed 0 = true := by
  obtain ⟨fcfg, hfcfg⟩ : ∃ fcfg, fcfg = fetcherConfig base cfg m := ⟨_, rfl⟩
  have hsame : fcfg.chunkSize = (applyProbeFallback cfg m).chunkSize := by
    rw [hfcfg]
    rfl
  rw [← hfcfg]
  constructor
  · intro h
    rcases probeSingle_cases hprobe with ⟨hstatus, -⟩ | ⟨-, hranges, htotal⟩
    · exact .inl hstatus
    · refine .inr (Classical.or_iff_not_imp_right.mpr fun hqueued => ?_)
      refine ⟨m.totalSize, htotal, not_le.mp fun hsize => ?_⟩
      have hitem : (⟨0, (0 : ℕ), 0⟩ : QueueItem) ∈
          buildChunkQueue (computeTotalChunks m.totalSize (applyProbeFallback cfg m).chunkSize) completed :=
        mem_buildChunkQueue.mpr ⟨0, by rw [single_chunk (.inr hsize)]; exact one_pos,
          by simpa using hqueued, rfl⟩
      have hsent := h _ hitem [] _ rfl
      rw [rangeHeader, ChunkFetcher.new, if_pos hranges, if_neg (not_lt.mpr hsize)] at hsent
      obtain ⟨b, hb, -⟩ := hsent
      cases hb
  · intro h item hitem calls f hcalls
    obtain ⟨i, hi, hqueued, rfl⟩ := mem_buildChunkQueue.mp hitem
    obtain ⟨hkeep, hknown⟩ := fetchBefore_metadata hcalls
    simp only [Int.toNat_natCast]
    have hzero : (m.acceptsRanges = false ∨ m.totalSize ≤ 0) → i = 0 := by
      intro hsingle
      rw [single_chunk hsingle] at hi
      omega
    rcases probeSingle_cases hprobe with ⟨-, hranges⟩ | ⟨hstatus, hranges, htotal⟩
    · rw [rangeHeader, hkeep, ChunkFetcher.new, hranges, hzero (.inl hranges)]
      exact Nat.zero_mul _
    · have hsize : 0 < m.totalSize := by
        rcases h with h | ⟨total, htotal', hpos⟩ | hin
        · exact absurd h hstatus
        · rw [htotal] at htotal'
          rwa [Option.some.inj htotal']
        · refine not_le.mp fun hle => ?_
          rw [hzero (.inr hle), hin] at hqueued
          cases hqueued
      have hmeta : f.metadata = m := hknown hsize
      rw [hmeta]
      rw [← hsame] at hi
      exact range_request hranges hsize (hsame ▸ fallback_chunkSize_pos hchunk) hi

/-- A 206 with the total 0: the header is `bytes=0-None`. -/
theorem none_header_sent :
    probeSingle (some { status := 206, contentRange := some "bytes 0-0/0" }) =
        some ⟨0, true, none, none⟩ ∧
      ∃ item ∈ buildChunkQueue (computeTotalChunks 0
          (applyProbeFallback { urls := ["m"] } ⟨0, true, none, none⟩).chunkSize) [],
        ∃ calls f, exec (fetchBefore (fetcherConfig { chunkSize := 1 } { urls := ["m"] } ⟨0, true, none, none⟩))
            (.new (fetcherConfig { chunkSize := 1 } { urls := ["m"] } ⟨0, true, none, none⟩)
              ⟨0, true, none, none⟩) calls = some f ∧
          rangeHeader (fetcherConfig { chunkSize := 1 } { urls := ["m"] } ⟨0, true, none, none⟩) f.metadata
            item.chunkIdx.toNat = some (0, none) ∧ headerText 0 none = "bytes=0-None" ∧
          ¬ ValidRequest 0 (item.chunkIdx.toNat *
              (fetcherConfig { chunkSize := 1 } { urls := ["m"] } ⟨0, true, none, none⟩).chunkSize)
            (rangeHeader (fetcherConfig { chunkSize := 1 } { urls := ["m"] } ⟨0, true, none, none⟩) f.metadata
              item.chunkIdx.toNat) := by
  refine ⟨by decide +kernel, ⟨0, 0, 0⟩, List.mem_singleton.mpr rfl, [], _, rfl, rfl, by decide, ?_⟩
  rintro ⟨b, hb, -⟩
  cases hb

/-- The last byte of five, in chunks of two. -/
theorem range_header_five :
    ValidRequest 5 4 (rangeHeader
      (fetcherConfig { chunkSize := 1 } { urls := ["m"], chunkSize := 2 } ⟨5, true, none, none⟩)
      ⟨5, true, none, none⟩ 2) :=
  (range_header_iff { urls := ["m"], chunkSize := 2 } { chunkSize := 1 }
    { status := 206, contentRange := some "bytes 0-0/5" } ⟨5, true, none, none⟩ [] (by decide)
    (by decide +kernel)).mpr (.inr (.inl ⟨5, by decide +kernel, by decide⟩)) ⟨0, (2 : ℕ), 0⟩
    (mem_buildChunkQueue.mpr ⟨2, by decide, rfl, rfl⟩) [] _ rfl

end Mrdl.Prober
