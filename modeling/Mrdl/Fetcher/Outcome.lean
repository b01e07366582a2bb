import Mrdl.Fetcher.Buffer

/-! # The outcome of a whole fetch

The extent of a fetch is decided once, before the body is read (`expectation`). A fetch that returns
has handed the writer one block of exactly that extent, cut from the body, and then its mark; one that
raises has handed over some part of it and no mark. A fetch with a buffer to copy into always ends.
-/

namespace Mrdl.Fetcher
open FileBytes
set_option autoImplicit false

/-- The bytes expected by the body loop. -/
def expectation (cfg : FetcherConfig) (metadata : FileMetadata) (start : ℕ) (reply : Reply) : Option ℤ :=
  match reply with
  | .noAnswer _ => expectedBytes cfg metadata start
  | .answer r => if r.failed then expectedBytes cfg metadata start else (resolveSize cfg metadata start r).2

/-- The metadata the fetcher holds after the fetch. -/
def metadataAfter (cfg : FetcherConfig) (metadata : FileMetadata) (start : ℕ) (reply : Reply) :
    FileMetadata :=
  match reply with
  | .noAnswer _ => metadata
  | .answer r => if r.failed then metadata else (resolveSize cfg metadata start r).1

variable {cfg : FetcherConfig}

theorem resolveSize_known {metadata : FileMetadata} {start : ℕ} {r : Response}
    (h : 0 < metadata.totalSize) :
    resolveSize cfg metadata start r = (metadata, expectedBytes cfg metadata start) := by
  unfold resolveSize
  rw [if_neg (by omega)]

theorem metadataAfter_known {metadata : FileMetadata} {start : ℕ} {reply : Reply}
    (h : 0 < metadata.totalSize) : metadataAfter cfg metadata start reply = metadata := by
  cases reply with
  | noAnswer e => rfl
  | answer r =>
    simp only [metadataAfter, resolveSize_known h]
    exact ite_self _

theorem expectation_known {metadata : FileMetadata} {start : ℕ} {reply : Reply}
    (h : 0 < metadata.totalSize) :
    expectation cfg metadata start reply = some (rangeEnd cfg metadata.totalSize start - start + 1) := by
  have he : expectedBytes cfg metadata start = some (rangeEnd cfg metadata.totalSize start - start + 1) :=
    if_pos h
  cases reply with
  | noAnswer e => exact he
  | answer r =>
    simp only [expectation, resolveSize_known h, he]
    exact ite_self _

/-! ## The steps after the body -/

theorem Fed.lastFlush {start : ℕ} {c : Cursor} {d : Bytes} (h : Fed cfg start c d) :
    Fed cfg start (lastFlush start c) d ∧ ∃ ws, commands (lastFlush start c).effects = asCommands ws ∧
      Tiles start ws d ∧ d.length = (Fetcher.lastFlush start c).bytesWritten := by
  have key : ∀ c' : Cursor, Fed cfg start c' d → c'.writePos = 0 →
      ∃ ws, commands c'.effects = asCommands ws ∧ Tiles start ws d ∧ d.length = c'.bytesWritten := by
    intro c' hfed hpos
    obtain ⟨ws, w, hc, ht, hw, rfl⟩ := hfed.tiles
    rw [hpos, List.take_zero, List.append_nil]
    exact ⟨ws, hc, ht, hw⟩
  unfold Fetcher.lastFlush
  split
  · exact ⟨h.flush _, key _ (h.flush c.flushes) rfl⟩
  · exact ⟨h, key c h (by omega)⟩

theorem finish_eq (metadata : FileMetadata) (idx start : ℕ) (expected : Option ℤ) (c : Cursor) :
    (finish metadata idx start expected c).fetcher = ⟨metadata, (lastFlush start c).buffer⟩ ∧
    ((∃ e, expected = some e ∧ ((lastFlush start c).bytesWritten : ℤ) ≠ e ∧
        (finish metadata idx start expected c).effects = (lastFlush start c).effects ∧
        (finish metadata idx start expected c).outcome =
          .fetchError ⟨.incompleteChunk, incompleteText idx e (lastFlush start c).bytesWritten⟩) ∨
      ((∀ e ∈ expected, ((lastFlush start c).bytesWritten : ℤ) = e) ∧
        (finish metadata idx start expected c).outcome = .returned (lastFlush start c).bytesWritten ∧
        commands (finish metadata idx start expected c).effects =
          commands (lastFlush start c).effects ++
            ((if metadata.totalSize ≤ 0 then [.truncate (lastFlush start c).bytesWritten] else []) ++
              [.mark idx]))) := by
  have htail : commands ((if metadata.totalSize ≤ 0 then
        [Effect.command (.truncate (lastFlush start c).bytesWritten)] else []) ++
      [Effect.command (.mark idx), Effect.update 0 (some idx)]) =
      (if metadata.totalSize ≤ 0 then [.truncate (lastFlush start c).bytesWritten] else []) ++
        [Command.mark idx] := by
    split <;> rfl
  cases expected with
  | none =>
    refine ⟨rfl, Or.inr ⟨by simp, rfl, ?_⟩⟩
    rw [← htail, ← commands_append]
    rfl
  | some e =>
    by_cases he : ((lastFlush start c).bytesWritten : ℤ) = e
    · have hfin : finish metadata idx start (some e) c =
          finish metadata idx start none c := if_neg (not_not.mpr he)
      rw [hfin]
      refine ⟨rfl, Or.inr ⟨by simpa using he, rfl, ?_⟩⟩
      rw [← htail, ← commands_append]
      rfl
    · have hfin : finish metadata idx start (some e) c = ⟨(lastFlush start c).effects,
          .fetchError ⟨.incompleteChunk, incompleteText idx e (lastFlush start c).bytesWritten⟩,
          ⟨metadata, (lastFlush start c).buffer⟩⟩ := if_pos he
      rw [hfin]
      exact ⟨rfl, Or.inl ⟨e, rfl, he, rfl, rfl⟩⟩

theorem rollback_outcome (metadata : FileMetadata) (c : Cursor) (a : Abort) (n : ℕ) :
    (rollback metadata c a).outcome ≠ .returned n := by
  cases a <;> simp [rollback]

theorem rollback_commands (metadata : FileMetadata) (c : Cursor) (a : Abort) :
    commands (rollback metadata c a).effects = commands c.effects := by
  simp only [rollback]
  split
  · simp
  · rfl

/-! ## The ways through `fetch` -/

/-- The body was not read, it was read in part, or to its end. -/
inductive FetchPath (cfg : FetcherConfig) (f : ChunkFetcher) (idx : ℕ) (att : Attempt) : FetchResult → Prop
  | unread (e : FetchFailure) (failed : ∀ r, att.reply = .answer r → r.failed = true) :
      FetchPath cfg f idx att (rollback f.metadata { buffer := f.buffer } (.failure e))
  | cutShort (r : Response) (metadata : FileMetadata) (expected : Option ℤ) (c : Cursor) (a : Abort)
      (reply : att.reply = .answer r) (ok : r.failed = false)
      (resolved : resolveSize cfg f.metadata (idx * cfg.chunkSize) r = (metadata, expected))
      (body : bodyLoop cfg att (idx * cfg.chunkSize) expected r.ending 0 r.pieces { buffer := f.buffer } =
        some (.raised c a)) :
      FetchPath cfg f idx att (rollback metadata c a)
  | finished (r : Response) (metadata : FileMetadata) (expected : Option ℤ) (c : Cursor)
      (reply : att.reply = .answer r) (ok : r.failed = false)
      (resolved : resolveSize cfg f.metadata (idx * cfg.chunkSize) r = (metadata, expected))
      (body : bodyLoop cfg att (idx * cfg.chunkSize) expected r.ending 0 r.pieces { buffer := f.buffer } =
        some (.going c)) :
      FetchPath cfg f idx att (finish metadata idx (idx * cfg.chunkSize) expected c)

theorem fetch_path {f : ChunkFetcher} {idx : ℕ} {att : Attempt} {res : FetchResult}
    (h : fetch cfg f idx att = some res) : FetchPath cfg f idx att res := by
  unfold fetch at h
  cases hreply : att.reply with
  | noAnswer e =>
    simp only [hreply] at h
    cases h
    refine .unread e fun r hr => ?_
    rw [hreply] at hr
    cases hr
  | answer r =>
    simp only [hreply] at h
    cases hfail : r.failed with
    | true =>
      simp only [hfail, if_true] at h
      cases h
      refine .unread _ fun r' hr => ?_
      cases hreply.symm.trans hr
      exact hfail
    | false =>
      simp only [hfail, Bool.false_eq_true, if_false] at h
      split at h
      · cases h
      · rename_i c a heq
        cases h
        exact .cutShort r _ _ c a hreply hfail rfl heq
      · rename_i c heq
        cases h
        exact .finished r _ _ c hreply hfail rfl heq

section
variable {metadata metadata' : FileMetadata} {start : ℕ} {reply : Reply}

theorem metadataAfter_unread (h : ∀ r, reply = .answer r → r.failed = true) :
    metadataAfter cfg metadata start reply = metadata := by
  cases reply with
  | noAnswer e => rfl
  | answer r => exact if_pos (h r rfl)

theorem metadataAfter_read {r : Response} {expected : Option ℤ} (hreply : reply = .answer r)
    (hok : r.failed = false) (hres : resolveSize cfg metadata start r = (metadata', expected)) :
    metadataAfter cfg metadata start reply = metadata' ∧ expectation cfg metadata start reply = expected := by
  subst hreply
  simp [metadataAfter, expectation, hok, hres]

end

/-! ## The fetch -/

/-- What a fetch has handed to the writer when it ends, in every case. -/
structure Handed (cfg : FetcherConfig) (metadata : FileMetadata) (idx : ℕ) (reply : Reply)
    (res : FetchResult) (ws : List (Write UInt8)) (d : Bytes) : Prop where
  metadata_eq : res.fetcher.metadata = metadataAfter cfg metadata (idx * cfg.chunkSize) reply
  bufferLength : res.fetcher.buffer.length = cfg.flushThreshold
  tiles : Tiles (idx * cfg.chunkSize) ws d
  fits : Fits (expectation cfg metadata (idx * cfg.chunkSize) reply) d
  ended :
    ((∀ n, res.outcome ≠ .returned n) ∧ commands res.effects = asCommands ws) ∨
    (∃ r, reply = .answer r ∧ r.failed = false ∧
      d = clip (expectation cfg metadata (idx * cfg.chunkSize) reply) r.pieces.flatten ∧
      res.outcome = .returned d.length ∧
      (∀ e ∈ expectation cfg metadata (idx * cfg.chunkSize) reply, (d.length : ℤ) = e) ∧
      commands res.effects = asCommands ws ++
        ((if res.fetcher.metadata.totalSize ≤ 0 then [.truncate d.length] else []) ++ [.mark idx]))

theorem fetch_handed {f : ChunkFetcher} {idx : ℕ} {att : Attempt} {res : FetchResult}
    (hbuf : f.buffer.length = cfg.flushThreshold)
    (hfit : Fits (expectation cfg f.metadata (idx * cfg.chunkSize) att.reply) [])
    (h : fetch cfg f idx att = some res) :
    ∃ ws d, Handed cfg f.metadata idx att.reply res ws d := by
  have h0 : Fed cfg (idx * cfg.chunkSize) { buffer := f.buffer } [] := Fed.init hbuf
  have hroll : ∀ (m : FileMetadata) (c : Cursor) (a : Abort) (d : Bytes),
      m = metadataAfter cfg f.metadata (idx * cfg.chunkSize) att.reply →
      Fed cfg (idx * cfg.chunkSize) c d →
      Fits (expectation cfg f.metadata (idx * cfg.chunkSize) att.reply) d →
      ∃ ws d', Handed cfg f.metadata idx att.reply (rollback m c a) ws d' := by
    intro m c a d hm hfed hd
    obtain ⟨ws, w, hc, ht, hw, rfl⟩ := hfed.tiles
    refine ⟨ws, w, hm, hfed.bufferLength, ht, hd.of_prefix (List.prefix_append _ _),
      Or.inl ⟨rollback_outcome m c a, ?_⟩⟩
    rw [rollback_commands, hc]
  cases fetch_path h with
  | unread e failed => exact hroll _ _ _ [] (metadataAfter_unread failed).symm h0 hfit
  | cutShort r metadata expected c a reply ok resolved body =>
    obtain ⟨hmeta, hexp⟩ := metadataAfter_read reply ok resolved
    rw [hexp] at hfit
    obtain ⟨d, hd, hfed⟩ := bodyLoop_taken h0 hfit body
    exact hroll _ c a d hmeta.symm hfed (hexp ▸ hd)
  | finished r metadata expected c reply ok resolved body =>
    obtain ⟨hmeta, hexp⟩ := metadataAfter_read reply ok resolved
    rw [hexp] at hfit
    have hfed : Fed cfg (idx * cfg.chunkSize) c (clip expected ([] ++ r.pieces.flatten)) :=
      bodyLoop_taken h0 hfit body
    rw [List.nil_append] at hfed
    obtain ⟨hlast, ws, hc, ht, hlen⟩ := hfed.lastFlush
    obtain ⟨hf, hend⟩ := finish_eq metadata idx (idx * cfg.chunkSize) expected c
    refine ⟨ws, _, ?_, ?_, ht, ?_, ?_⟩
    · rw [hf, hmeta]
    · rw [hf]
      exact hlast.bufferLength
    · rw [hexp]
      exact fits_clip hfit _
    · rcases hend with ⟨e, -, -, hes, hout⟩ | ⟨hall, hout, hcmd⟩
      · left
        refine ⟨fun n => ?_, by rw [hes, hc]⟩
        rw [hout]
        exact fun hn => Outcome.noConfusion hn
      · right
        rw [hexp, hf]
        exact ⟨r, reply, ok, rfl, by rw [hout, hlen], by rw [hlen]; exact hall, by rw [hcmd, hc, hlen]⟩

/-- Only an extent that is not negative lets a fetch return. -/
theorem fetch_returned_fits {f : ChunkFetcher} {idx : ℕ} {att : Attempt} {res : FetchResult} {n : ℕ}
    (h : fetch cfg f idx att = some res) (hn : res.outcome = .returned n) :
    Fits (expectation cfg f.metadata (idx * cfg.chunkSize) att.reply) [] := by
  cases fetch_path h with
  | unread | cutShort => exact absurd hn (rollback_outcome _ _ _ n)
  | finished r metadata expected c reply ok resolved body =>
    intro e he
    rw [(metadataAfter_read reply ok resolved).2] at he
    rcases (finish_eq metadata idx (idx * cfg.chunkSize) expected c).2 with
      ⟨e', -, -, -, hout⟩ | ⟨hall, -, -⟩
    · rw [hout] at hn
      cases hn
    · have := hall e he
      simp only [List.length_nil]
      omega

/-- What a fetch that returns has taken of which body, and handed over. -/
structure Delivered (cfg : FetcherConfig) (metadata : FileMetadata) (idx : ℕ) (reply : Reply)
    (res : FetchResult) (r : Response) (ws : List (Write UInt8)) (d : Bytes) : Prop where
  answered : reply = .answer r
  ok : r.failed = false
  clipped : d = clip (expectation cfg metadata (idx * cfg.chunkSize) reply) r.pieces.flatten
  expected : ∀ e ∈ expectation cfg metadata (idx * cfg.chunkSize) reply, (d.length : ℤ) = e
  tiles : Tiles (idx * cfg.chunkSize) ws d
  metadata_eq : res.fetcher.metadata = metadataAfter cfg metadata (idx * cfg.chunkSize) reply
  handed : commands res.effects = asCommands ws ++
    ((if res.fetcher.metadata.totalSize ≤ 0 then [.truncate d.length] else []) ++ [.mark idx])

theorem fetch_delivered {f : ChunkFetcher} {idx : ℕ} {att : Attempt} {res : FetchResult} {n : ℕ}
    (hbuf : f.buffer.length = cfg.flushThreshold) (h : fetch cfg f idx att = some res)
    (hn : res.outcome = .returned n) :
    ∃ r ws d, d.length = n ∧ Delivered cfg f.metadata idx att.reply res r ws d := by
  obtain ⟨ws, d, hd⟩ := fetch_handed hbuf (fetch_returned_fits h hn) h
  rcases hd.ended with ⟨hno, -⟩ | ⟨r, hreply, hok, hclip, hout, hall, hcmd⟩
  · exact absurd hn (hno n)
  · refine ⟨r, ws, d, ?_, hreply, hok, hclip, hall, hd.tiles, hd.metadata_eq, hcmd⟩
    exact Outcome.returned.inj (hout.symm.trans hn)

/-- Without an extent a fetch returns only at the end of the body. -/
theorem fetch_returned_ended {f : ChunkFetcher} {idx : ℕ} {att : Attempt} {res : FetchResult} {n : ℕ}
    {r : Response} (h : fetch cfg f idx att = some res) (hn : res.outcome = .returned n)
    (hreply : att.reply = .answer r)
    (hexp : expectation cfg f.metadata (idx * cfg.chunkSize) att.reply = none) : r.ending = none := by
  cases fetch_path h with
  | unread | cutShort => exact absurd hn (rollback_outcome _ _ _ n)
  | finished r' metadata expected c reply ok resolved body =>
    cases hreply.symm.trans reply
    cases (metadataAfter_read reply ok resolved).2.symm.trans hexp
    exact bodyLoop_ended body

theorem fetch_total (hthr : 0 < cfg.flushThreshold) (f : ChunkFetcher) (idx : ℕ) (att : Attempt) :
    ∃ res, fetch cfg f idx att = some res := by
  unfold fetch
  cases att.reply with
  | noAnswer e => exact ⟨_, rfl⟩
  | answer r =>
    simp only
    split
    · exact ⟨_, rfl⟩
    · obtain ⟨st, hst⟩ := bodyLoop_total (idx * cfg.chunkSize) att hthr
        (resolveSize cfg f.metadata (idx * cfg.chunkSize) r).2 r.ending 0 r.pieces { buffer := f.buffer }
      rw [hst]
      cases st with
      | going c => exact ⟨_, rfl⟩
      | raised c a => exact ⟨_, rfl⟩

end Mrdl.Fetcher
