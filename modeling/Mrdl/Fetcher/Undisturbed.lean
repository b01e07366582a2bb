import Mrdl.Fetcher.Reports

/-! # Fetches that nothing interrupts

A mirror that answers can still be left: the stop event is looked at with every piece of the body that is
read, the stream may break, and the speed is looked at after every flush of a full buffer. A fetch is
undisturbed when these looks, and no others, come out well: pieces after the last byte that is expected are
not read, and the last flush is not followed by a look at the speed.
-/

namespace Mrdl.Fetcher
set_option autoImplicit false

/-- The stop event is not seen at any piece that is read, none of the flushes made while the body is taken finds
the mirror too slow, and the stream does not break while it is read. -/
structure Calm (cfg : FetcherConfig) (att : Attempt) (expected : Option ℤ) (r : Response) : Prop where
  stop : ∀ k < r.pieces.length, ReadsOn expected 0 (r.pieces.take k) → att.stopSeen k = false
  speed : ∀ j, (j + 1) * cfg.flushThreshold ≤ extent expected r.pieces.flatten.length → slowFlush cfg att j = false
  ending : ReadsOn expected 0 r.pieces → r.ending = none

variable {cfg : FetcherConfig} {att : Attempt}

/-- A fetch within the grace period, of a stream that ends well. -/
theorem Calm.of_unwatched {expected : Option ℤ} {r : Response} (hstop : ∀ k, att.stopSeen k = false)
    (hspeed : ∀ k, (att.speed k).networkElapsed ≤ cfg.speedGracePeriod) (hend : r.ending = none) :
    Calm cfg att expected r where
  stop k _ _ := hstop k
  speed j _ := by
    rw [slowFlush, tooSlow, decide_eq_false (not_lt.mpr (hspeed j)), Bool.false_and]
  ending _ := hend

theorem bodyLoop_calm {expected : Option ℤ} {r : Response} (h : Calm cfg att expected r)
    (hthr : 0 < cfg.flushThreshold) (hfit : Fits expected []) {start : ℕ} {buffer : Bytes} {c : Cursor} {a : Abort} :
    bodyLoop cfg att start expected r.ending 0 r.pieces { buffer } ≠ some (.raised c a) := by
  intro hrun
  obtain ⟨-, hwhy⟩ := bodyLoop_tallied hthr (Level.init hthr buffer) hfit hrun
  rcases hwhy with ⟨i, hi, hread, hseen⟩ | ⟨hread, hend⟩ | ⟨j, hj, hslow⟩
  · rw [Nat.zero_add, h.stop i hi hread] at hseen
    cases hseen
  · exact hend (h.ending hread)
  · have htaken : Cursor.taken { buffer } + r.pieces.flatten.length = r.pieces.flatten.length := Nat.zero_add _
    rw [htaken] at hj
    rw [h.speed j hj] at hslow
    cases hslow

theorem fetch_calm_finish {f : ChunkFetcher} (idx : ℕ) {r : Response}
    (hthr : 0 < cfg.flushThreshold) (hbuf : f.buffer.length = cfg.flushThreshold)
    (hcalm : Calm cfg att (resolveSize cfg f.metadata (idx * cfg.chunkSize) r).2 r)
    (hreply : att.reply = .answer r) (hok : r.failed = false)
    (hfit : Fits (resolveSize cfg f.metadata (idx * cfg.chunkSize) r).2 []) :
    ∃ c, bodyLoop cfg att (idx * cfg.chunkSize) (resolveSize cfg f.metadata (idx * cfg.chunkSize) r).2
        r.ending 0 r.pieces { buffer := f.buffer } = some (.going c) ∧
      fetch cfg f idx att =
        some (finish (resolveSize cfg f.metadata (idx * cfg.chunkSize) r).1 idx (idx * cfg.chunkSize)
          (resolveSize cfg f.metadata (idx * cfg.chunkSize) r).2 c) ∧
      Fed cfg (idx * cfg.chunkSize) c
        (clip (resolveSize cfg f.metadata (idx * cfg.chunkSize) r).2 r.pieces.flatten) := by
  obtain ⟨st, hst⟩ := bodyLoop_total (idx * cfg.chunkSize) att hthr
    (resolveSize cfg f.metadata (idx * cfg.chunkSize) r).2 r.ending 0 r.pieces { buffer := f.buffer }
  cases st with
  | raised c a => exact absurd hst (bodyLoop_calm hcalm hthr hfit)
  | going c =>
    have hfed : Fed cfg (idx * cfg.chunkSize) c
        (clip (resolveSize cfg f.metadata (idx * cfg.chunkSize) r).2 ([] ++ r.pieces.flatten)) :=
      bodyLoop_taken (Fed.init hbuf) hfit hst
    refine ⟨c, hst, ?_, hfed⟩
    unfold fetch
    simp only [hreply, hok, hst, Bool.false_eq_true, if_false]

theorem fetch_calm {f : ChunkFetcher} {idx : ℕ} {r : Response}
    (hthr : 0 < cfg.flushThreshold) (hbuf : f.buffer.length = cfg.flushThreshold)
    (hcalm : Calm cfg att (expectation cfg f.metadata (idx * cfg.chunkSize) att.reply) r)
    (hreply : att.reply = .answer r) (hok : r.failed = false)
    (hfit : Fits (expectation cfg f.metadata (idx * cfg.chunkSize) att.reply) [])
    (hlong : ∀ e ∈ expectation cfg f.metadata (idx * cfg.chunkSize) att.reply,
      e ≤ r.pieces.flatten.length) :
    ∃ res n, fetch cfg f idx att = some res ∧ res.outcome = .returned n := by
  have hexp : expectation cfg f.metadata (idx * cfg.chunkSize) att.reply =
      (resolveSize cfg f.metadata (idx * cfg.chunkSize) r).2 := by simp [expectation, hreply, hok]
  rw [hexp] at hcalm hfit hlong
  obtain ⟨c, -, hrun, hfed⟩ := fetch_calm_finish idx hthr hbuf hcalm hreply hok hfit
  obtain ⟨-, ws, -, -, hlen⟩ := hfed.lastFlush
  rcases (finish_eq (resolveSize cfg f.metadata (idx * cfg.chunkSize) r).1 idx
    (idx * cfg.chunkSize) (resolveSize cfg f.metadata (idx * cfg.chunkSize) r).2 c).2 with
    ⟨e, he, hne, -, -⟩ | ⟨-, hout, -⟩
  · have h1 := hlong e he
    have h2 := hfit e he
    simp only [he, clip, List.length_take] at hlen
    simp only [List.length_nil] at h2
    omega
  · exact ⟨_, _, hrun, hout⟩

end Mrdl.Fetcher
