import Mrdl.Fetcher.Answers

/-! # The buffer loops are exact

`fetchCursors` lists the cursors a fetch passes through: at every turn of the body loop and of the copy
loop, and after every flush in them. What reporting, flushing a full buffer and copying what fits
preserve holds of all of them (`fetchCursors_invariant`). From there an undisturbed fetch is exact: it
cuts the body into non-empty writes that fit the buffer, laid side by side from the start of the chunk.
-/

namespace Mrdl.Fetcher
open FileBytes
set_option autoImplicit false

/-! ## The cursors of a fetch -/

def copyCursors (cfg : FetcherConfig) (att : Attempt) (start : ℕ) : ℕ → Bytes → Cursor → List Cursor
  | _, [], c => [c]
  | 0, _ :: _, c => [c]
  | fuel + 1, b :: rest, c =>
      let d := b :: rest
      if cfg.flushThreshold ≤ c.writePos then
        match flushChecked cfg att start c with
        | .raised c' _ => [c, c']
        | .going c' =>
            let toCopy := min d.length cfg.flushThreshold
            c :: c' :: copyCursors cfg att start fuel (d.drop toCopy) (c'.copy (d.take toCopy))
      else
        let toCopy := min d.length (cfg.flushThreshold - c.writePos)
        c :: copyCursors cfg att start fuel (d.drop toCopy) (c.copy (d.take toCopy))

def bodyCursors (cfg : FetcherConfig) (att : Attempt) (start : ℕ) (expected : Option ℤ) :
    ℕ → List Bytes → Cursor → List Cursor
  | _, [], c => [c]
  | k, piece :: rest, c =>
      if att.stopSeen k then [c]
      else if piece = [] then bodyCursors cfg att start expected (k + 1) rest c
      else
        let d := clamp expected c piece
        c :: (copyCursors cfg att start d.1.length d.1 (c.report d.2) ++
          match consumePiece cfg att start expected piece c with
          | none => []
          | some (.raised c' _) => [c']
          | some (.going c') =>
              if expectedReached expected c' then [c']
              else bodyCursors cfg att start expected (k + 1) rest c')

def fetchCursors (cfg : FetcherConfig) (f : ChunkFetcher) (idx : ℕ) (att : Attempt) : List Cursor :=
  let start := idx * cfg.chunkSize
  match att.reply with
  | .noAnswer _ => [{ buffer := f.buffer }]
  | .answer r =>
      if r.failed then [{ buffer := f.buffer }]
      else
        bodyCursors cfg att start (resolveSize cfg f.metadata start r).2 0 r.pieces { buffer := f.buffer }

variable {cfg : FetcherConfig} {start : ℕ} {att : Attempt}

theorem bodyLoop_mem_cursors {expected : Option ℤ} {ending : Option FetchFailure} {k : ℕ}
    {pieces : List Bytes} {c : Cursor} {st : Step}
    (hrun : bodyLoop cfg att start expected ending k pieces c = some st) :
    st.cursor ∈ bodyCursors cfg att start expected k pieces c := by
  induction pieces generalizing k c with
  | nil =>
    cases ending <;> cases hrun <;> exact List.mem_singleton_self _
  | cons x rest ih =>
    rw [bodyLoop] at hrun
    rw [bodyCursors]
    split at hrun
    · rename_i hstop
      cases hrun
      rw [if_pos hstop]
      exact List.mem_singleton_self _
    · rename_i hstop
      rw [if_neg hstop]
      split at hrun
      · rename_i hx
        rw [if_pos hx]
        exact ih hrun
      · rename_i hx
        rw [if_neg hx]
        apply List.mem_cons_of_mem
        apply List.mem_append_right
        rcases heq : consumePiece cfg att start expected x c with _ | ⟨c'⟩ | ⟨c', a⟩
        · rw [heq] at hrun
          cases hrun
        · rw [heq] at hrun
          simp only at hrun ⊢
          split at hrun
          · rename_i hreach
            cases hrun
            rw [if_pos hreach]
            exact List.mem_singleton_self _
          · rename_i hreach
            rw [if_neg hreach]
            exact ih hrun
        · rw [heq] at hrun
          cases hrun
          exact List.mem_singleton_self _

/-! ## What all cursors have in common -/

/-- A property of the cursor that the three things the loops do to it preserve. -/
structure Preserved (cfg : FetcherConfig) (start : ℕ) (P : Cursor → Prop) : Prop where
  report : ∀ {c} (n : ℤ), P c → P (c.report n)
  flush : ∀ {c} (k : ℕ), P c → cfg.flushThreshold ≤ c.writePos → P { c.flush start with flushes := k }
  copy : ∀ {c} (x : Bytes), P c → c.writePos + x.length ≤ cfg.flushThreshold → P (c.copy x)

variable {P : Cursor → Prop}

theorem flushChecked_preserved (att : Attempt) (hP : Preserved cfg start P) {c : Cursor} (hc : P c)
    (hfull : cfg.flushThreshold ≤ c.writePos) : P (flushChecked cfg att start c).cursor := by
  unfold flushChecked
  simp only
  split <;> exact hP.flush _ hc hfull

theorem copyCursors_preserved (hP : Preserved cfg start P) {fuel : ℕ} {x : Bytes} {c : Cursor} (hc : P c) :
    ∀ c' ∈ copyCursors cfg att start fuel x c, P c' := by
  induction fuel generalizing x c with
  | zero => cases x <;> simpa [copyCursors] using hc
  | succ fuel ih =>
    cases x with
    | nil => simpa [copyCursors] using hc
    | cons b x =>
      rw [copyCursors]
      split
      · rename_i hfull
        have hf := flushChecked_preserved att hP hc hfull
        have hpos := flushChecked_writePos cfg att start c
        split <;> rename_i heq <;> rw [heq] at hf hpos
        · simpa using ⟨hc, hf⟩
        · rename_i c₁
          have hf : P c₁ := hf
          simp only at hpos
          have hrest := ih (x := (b :: x).drop (min (b :: x).length cfg.flushThreshold))
            (hP.copy ((b :: x).take (min (b :: x).length cfg.flushThreshold)) hf (by
              rw [List.length_take]
              omega))
          intro c' hmem
          rcases List.mem_cons.mp hmem with rfl | hmem
          · exact hc
          rcases List.mem_cons.mp hmem with rfl | hmem
          · exact hf
          · exact hrest c' hmem
      · have hrest := ih (x := (b :: x).drop (min (b :: x).length (cfg.flushThreshold - c.writePos)))
          (hP.copy ((b :: x).take (min (b :: x).length (cfg.flushThreshold - c.writePos))) hc (by
            rw [List.length_take]
            omega))
        intro c' hmem
        rcases List.mem_cons.mp hmem with rfl | hmem
        · exact hc
        · exact hrest c' hmem

theorem copyLoop_mem_cursors {fuel : ℕ} {x : Bytes} {c : Cursor} {st : Step}
    (hrun : copyLoop cfg att start fuel x c = some st) :
    st.cursor ∈ copyCursors cfg att start fuel x c := by
  induction fuel generalizing x c with
  | zero =>
    cases x with
    | nil =>
      cases hrun
      exact List.mem_singleton_self _
    | cons b x => cases hrun
  | succ fuel ih =>
    cases x with
    | nil =>
      cases hrun
      exact List.mem_singleton_self _
    | cons b x =>
      rw [copyLoop] at hrun
      rw [copyCursors]
      split at hrun
      · rename_i hfull
        rw [if_pos hfull]
        cases heq : flushChecked cfg att start c with
        | raised c' a =>
          rw [heq] at hrun
          cases hrun
          exact List.mem_cons_of_mem _ (List.mem_singleton_self _)
        | going c' =>
          rw [heq] at hrun
          exact List.mem_cons_of_mem _ (List.mem_cons_of_mem _ (ih hrun))
      · rename_i hfull
        rw [if_neg hfull]
        exact List.mem_cons_of_mem _ (ih hrun)

theorem consumePiece_preserved (hP : Preserved cfg start P) {expected : Option ℤ} {x : Bytes} {c : Cursor}
    {st : Step} (hc : P c) (hrun : consumePiece cfg att start expected x c = some st) : P st.cursor := by
  unfold consumePiece at hrun
  simp only at hrun
  have hcopy : ∀ {st' : Step}, copyLoop cfg att start (clamp expected c x).1.length (clamp expected c x).1
      (c.report (clamp expected c x).2) = some st' → P st'.cursor := fun h =>
    copyCursors_preserved hP (hP.report _ hc) _ (copyLoop_mem_cursors h)
  split at hrun
  · cases hrun
  · rename_i heq
    cases hrun
    exact hcopy heq
  · rename_i c' heq
    split at hrun
    · rename_i hfull
      cases hrun
      exact flushChecked_preserved att hP (hcopy heq) hfull
    · cases hrun
      exact hcopy heq

theorem bodyCursors_preserved (hP : Preserved cfg start P) {expected : Option ℤ} {k : ℕ}
    {pieces : List Bytes} {c : Cursor} (hc : P c) :
    ∀ c' ∈ bodyCursors cfg att start expected k pieces c, P c' := by
  induction pieces generalizing k c with
  | nil => simpa [bodyCursors] using hc
  | cons x rest ih =>
    rw [bodyCursors]
    split
    · simpa using hc
    · split
      · exact ih hc
      · intro c' hmem
        rcases List.mem_cons.mp hmem with rfl | hmem
        · exact hc
        rcases List.mem_append.mp hmem with hmem | hmem
        · exact copyCursors_preserved hP (hP.report _ hc) c' hmem
        · split at hmem
          · cases hmem
          · rename_i heq
            rw [List.mem_singleton.mp hmem]
            exact consumePiece_preserved hP hc heq
          · rename_i c₁ heq
            have h₁ : P c₁ := consumePiece_preserved hP hc heq
            split at hmem
            · rw [List.mem_singleton.mp hmem]
              exact h₁
            · exact ih h₁ c' hmem

theorem fetchCursors_preserved {f : ChunkFetcher} {idx : ℕ} (hP : Preserved cfg (idx * cfg.chunkSize) P)
    (hc : P { buffer := f.buffer }) : ∀ c ∈ fetchCursors cfg f idx att, P c := by
  unfold fetchCursors
  simp only
  split
  · simpa using hc
  · split
    · simpa using hc
    · exact bodyCursors_preserved hP hc

/-! ## The sizes of the writes -/

/-- Nothing but non-empty writes that fit the buffer has been handed over. -/
def Sized (cfg : FetcherConfig) (c : Cursor) : Prop :=
  ∀ w ∈ writesOf (commands c.effects), w.2 ≠ [] ∧ w.2.length ≤ cfg.flushThreshold

theorem Sized.flush {c : Cursor} {d : Bytes} (h : Sized cfg c) (hfed : Fed cfg start c d)
    (hpos : 0 < c.writePos) (k : ℕ) : Sized cfg { c.flush start with flushes := k } := by
  have hlen : (c.buffer.take c.writePos).length = c.writePos := by
    rw [List.length_take, hfed.bufferLength]
    exact Nat.min_eq_left hfed.posLe
  intro w hw
  simp only [Cursor.flush, commands_append, commands_command, commands_nil, writesOf_append,
    writesOf_write, writesOf_nil, List.mem_append, List.mem_singleton] at hw
  rcases hw with hw | rfl
  · exact h w hw
  · refine ⟨List.ne_nil_of_length_pos ?_, ?_⟩
    · exact hpos.trans_eq hlen.symm
    · exact hlen.trans_le hfed.posLe

theorem preserved_fed (hthr : 0 < cfg.flushThreshold) :
    Preserved cfg start fun c => (∃ d, Fed cfg start c d) ∧ Sized cfg c where
  report n := by
    rintro ⟨⟨d, hd⟩, hs⟩
    exact ⟨⟨d, hd.report n⟩, by simpa [Sized, Cursor.report] using hs⟩
  flush k := by
    rintro ⟨⟨d, hd⟩, hs⟩ hfull
    exact ⟨⟨d, hd.flush k⟩, hs.flush hd (by omega) k⟩
  copy x := by
    rintro ⟨⟨d, hd⟩, hs⟩ hx
    exact ⟨⟨d ++ x, hd.copy hx⟩, hs⟩

/-! ## Undisturbed fetches -/

/-- The writes `ws` put the block `d` down from `start` on, each non-empty, at most as long as the
buffer, and where the one before it ends. -/
structure LaidOut (start bufferLength : ℕ) (ws : List (Write UInt8)) (d : Bytes) : Prop where
  offset : ∀ k w, ws[k]? = some w → w.1 = start + ((ws.take k).map fun v => v.2.length).sum
  sized : ∀ w ∈ ws, w.2 ≠ [] ∧ w.2.length ≤ bufferLength
  whole : (ws.map Prod.snd).flatten = d

theorem lastFlush_laidOut {c : Cursor} {d : Bytes} (hfed : Fed cfg start c d) (hsized : Sized cfg c) :
    ∃ ws, commands (lastFlush start c).effects = asCommands ws ∧
      LaidOut start cfg.flushThreshold ws d ∧ d.length = (lastFlush start c).bytesWritten := by
  have hlast : Sized cfg (lastFlush start c) := by
    unfold lastFlush
    split
    · rename_i hpos
      exact hsized.flush hfed hpos c.flushes
    · exact hsized
  obtain ⟨-, ws, hws, ht, hlen⟩ := hfed.lastFlush
  refine ⟨ws, hws, ⟨fun k w hw => ht.offset hw, fun w hw => hlast w ?_, ht.flatten⟩, hlen⟩
  rw [hws, writesOf_asCommands]
  exact hw

/-- An undisturbed fetch lays out what it takes of the body, and ends with what `finish` makes of it. -/
theorem fetch_calm_laidOut {f : ChunkFetcher} {idx : ℕ} {r : Response} {metadata : FileMetadata}
    {expected : Option ℤ} (hthr : 0 < cfg.flushThreshold) (hbuf : f.buffer.length = cfg.flushThreshold)
    (hcalm : Calm cfg att expected r) (hreply : att.reply = .answer r) (hok : r.failed = false)
    (hfit : Fits expected [])
    (hres : resolveSize cfg f.metadata (idx * cfg.chunkSize) r = (metadata, expected)) :
    ∃ c ws, fetch cfg f idx att = some (finish metadata idx (idx * cfg.chunkSize) expected c) ∧
      commands (lastFlush (idx * cfg.chunkSize) c).effects = asCommands ws ∧
      LaidOut (idx * cfg.chunkSize) cfg.flushThreshold ws (clip expected r.pieces.flatten) ∧
      (clip expected r.pieces.flatten).length = (lastFlush (idx * cfg.chunkSize) c).bytesWritten := by
  have hexp : expected = (resolveSize cfg f.metadata (idx * cfg.chunkSize) r).2 := by rw [hres]
  obtain ⟨c, hbody, hrun, hfed⟩ :=
    fetch_calm_finish idx hthr hbuf (hexp ▸ hcalm) hreply hok (hexp ▸ hfit)
  rw [hres] at hbody hrun hfed
  have hsized : Sized cfg c := (bodyCursors_preserved (preserved_fed hthr)
    ⟨⟨[], Fed.init hbuf⟩, by simp [Sized]⟩ c (bodyLoop_mem_cursors hbody)).2
  obtain ⟨ws, hws, hlaid, hlen⟩ := lastFlush_laidOut hfed hsized
  exact ⟨c, ws, hrun, hws, hlaid, hlen⟩

theorem rangeLength_pos {metadata : FileMetadata} {idx : ℕ} (hchunk : 0 < cfg.chunkSize)
    (hstart : ((idx * cfg.chunkSize : ℕ) : ℤ) < metadata.totalSize) : 0 < rangeLength cfg metadata idx := by
  unfold rangeLength rangeEnd
  omega

theorem fetch_calm_known {f : ChunkFetcher} {idx : ℕ} {r : Response} {e : ℤ}
    (hthr : 0 < cfg.flushThreshold) (hbuf : f.buffer.length = cfg.flushThreshold)
    (hcalm : Calm cfg att (some e) r) (hreply : att.reply = .answer r) (hok : r.failed = false)
    (hsize : 0 < f.metadata.totalSize) (he : e = rangeLength cfg f.metadata idx) (hpos : 0 < e) :
    ∃ res ws, fetch cfg f idx att = some res ∧
      LaidOut (idx * cfg.chunkSize) cfg.flushThreshold ws (r.pieces.flatten.take e.toNat) ∧
      (e ≤ r.pieces.flatten.length → res.outcome = .returned e.toNat ∧
        commands res.effects = asCommands ws ++ [.mark idx]) ∧
      ((r.pieces.flatten.length : ℤ) < e →
        (∃ e, res.outcome = .fetchError e) ∧ commands res.effects = asCommands ws) := by
  have hres : resolveSize cfg f.metadata (idx * cfg.chunkSize) r = (f.metadata, some e) := by
    rw [resolveSize_known hsize, expectedBytes, if_pos hsize, he]
    rfl
  have hfit : Fits (some e) [] := by
    intro e' he'
    cases he'
    exact hpos.le
  obtain ⟨c, ws, hrun, hws, hlaid, hlen⟩ := fetch_calm_laidOut hthr hbuf hcalm hreply hok hfit hres
  simp only [clip] at hlaid hlen
  rw [List.length_take] at hlen
  refine ⟨_, ws, hrun, hlaid, fun hlong => ?_, fun hshort => ?_⟩
  · rcases (finish_eq f.metadata idx (idx * cfg.chunkSize) (some e) c).2 with
      ⟨e', he', hne, -, -⟩ | ⟨-, hout, hcmd⟩
    · cases he'
      omega
    · rw [if_neg (by omega), List.nil_append] at hcmd
      refine ⟨by rw [hout, ← hlen, Nat.min_eq_left (by omega)], by rw [hcmd, hws]⟩
  · rcases (finish_eq f.metadata idx (idx * cfg.chunkSize) (some e) c).2 with
      ⟨e', -, -, heff, hout⟩ | ⟨hall, -, -⟩
    · exact ⟨⟨_, hout⟩, by rw [heff, hws]⟩
    · have := hall e rfl
      omega

theorem resolveSize_unannounced {metadata : FileMetadata} {start : ℕ} {r : Response}
    (hsize : metadata.totalSize ≤ 0) (hlength : r.contentLength = none) :
    resolveSize cfg metadata start r = (metadata, none) := by
  unfold resolveSize
  rw [if_pos hsize, hlength]
  rfl

theorem fetch_calm_unknown {f : ChunkFetcher} {idx : ℕ} {r : Response}
    (hthr : 0 < cfg.flushThreshold) (hbuf : f.buffer.length = cfg.flushThreshold)
    (hcalm : Calm cfg att none r) (hreply : att.reply = .answer r) (hok : r.failed = false)
    (hsize : f.metadata.totalSize ≤ 0) (hlength : r.contentLength = none) :
    ∃ res ws, fetch cfg f idx att = some res ∧
      LaidOut (idx * cfg.chunkSize) cfg.flushThreshold ws r.pieces.flatten ∧
      res.outcome = .returned r.pieces.flatten.length ∧
      commands res.effects = asCommands ws ++ [.truncate r.pieces.flatten.length, .mark idx] := by
  have hfit : Fits none [] := fun e he => by cases he
  obtain ⟨c, ws, hrun, hws, hlaid, hlen⟩ :=
    fetch_calm_laidOut hthr hbuf hcalm hreply hok hfit (resolveSize_unannounced hsize hlength)
  simp only [clip] at hlaid hlen
  rcases (finish_eq f.metadata idx (idx * cfg.chunkSize) none c).2 with ⟨e, he, -⟩ | ⟨-, hout, hcmd⟩
  · cases he
  · rw [if_pos hsize] at hcmd
    exact ⟨_, ws, hrun, hlaid, by rw [hout, hlen], by rw [hcmd, hws, hlen]; rfl⟩

/-- An undisturbed fetch is exact, whatever the pieces of the body, the flush limit and the range. -/
theorem fetch_exact {f : ChunkFetcher} {idx : ℕ} {r : Response} (hchunk : 0 < cfg.chunkSize)
    (hlimit : 0 < cfg.flushLimit) (hbuf : f.buffer.length = cfg.flushThreshold)
    (hreply : att.reply = .answer r) (hok : r.failed = false)
    (hcalm : Calm cfg att (resolveSize cfg f.metadata (idx * cfg.chunkSize) r).2 r) :
    (∃ res, fetch cfg f idx att = some res) ∧
    (∀ c ∈ fetchCursors cfg f idx att, c.writePos ≤ c.buffer.length) ∧
    (((idx * cfg.chunkSize : ℕ) : ℤ) < f.metadata.totalSize →
      ∃ res ws, fetch cfg f idx att = some res ∧
        LaidOut (idx * cfg.chunkSize) cfg.flushThreshold ws
          (r.pieces.flatten.take (rangeLength cfg f.metadata idx).toNat) ∧
        (rangeLength cfg f.metadata idx ≤ r.pieces.flatten.length →
          res.outcome = .returned (rangeLength cfg f.metadata idx).toNat ∧
          commands res.effects = asCommands ws ++ [.mark idx]) ∧
        ((r.pieces.flatten.length : ℤ) < rangeLength cfg f.metadata idx →
          (∃ e, res.outcome = .fetchError e) ∧ commands res.effects = asCommands ws)) ∧
    (f.metadata.totalSize ≤ 0 → r.contentLength = none →
      ∃ res ws, fetch cfg f idx att = some res ∧
        LaidOut (idx * cfg.chunkSize) cfg.flushThreshold ws r.pieces.flatten ∧
        res.outcome = .returned r.pieces.flatten.length ∧
        commands res.effects = asCommands ws ++ [.truncate r.pieces.flatten.length, .mark idx]) := by
  have hthr : 0 < cfg.flushThreshold := lt_min hlimit hchunk
  refine ⟨fetch_total hthr f idx att, fun c hc => ?_, fun hstart => ?_, fun hsize hlength => ?_⟩
  · obtain ⟨⟨d, hd⟩, -⟩ := fetchCursors_preserved (preserved_fed hthr)
      ⟨⟨[], Fed.init hbuf⟩, by simp [Sized]⟩ c hc
    rw [hd.bufferLength]
    exact hd.posLe
  · have hsize : 0 < f.metadata.totalSize := by omega
    rw [resolveSize_known hsize, expectedBytes, if_pos hsize] at hcalm
    exact fetch_calm_known hthr hbuf hcalm hreply hok hsize rfl (rangeLength_pos hchunk hstart)
  · rw [resolveSize_unannounced hsize hlength] at hcalm
    exact fetch_calm_unknown hthr hbuf hcalm hreply hok hsize hlength

/-- Two mirrors that have to keep up a speed, and the buffer takes four bytes. -/
def watched : FetcherConfig where
  chunkSize := 8
  minSpeedKbps := 1 / 1000000
  sources := some ["a", "b"]
  flushLimit := 4

/-- Seven bytes for the last six of the file, and then the stream breaks. -/
def sevenBytes : Response where
  status := 206
  pieces := [[1, 2, 3], [], [4, 5, 6, 7]]
  ending := some ⟨.clientError, "Connection closed"⟩

/-- They arrive slowly. -/
def slowSeven : Attempt where
  reply := .answer sevenBytes
  speed := fun _ => ⟨11, 2, "0.0"⟩

theorem fetch_exact_six :
    ∃ res ws, fetch watched (.new watched { totalSize := 14, acceptsRanges := true }) 1 slowSeven = some res ∧
      LaidOut 8 4 ws [1, 2, 3, 4, 5, 6] ∧ res.outcome = .returned 6 ∧
      commands res.effects = asCommands ws ++ [.mark 1] := by
  have hchunk : 0 < watched.chunkSize := by decide
  have hlimit : 0 < watched.flushLimit := by decide
  have hbuf : (ChunkFetcher.new watched { totalSize := 14, acceptsRanges := true }).buffer.length = 4 := rfl
  have hstart : ((1 * 8 : ℕ) : ℤ) < 14 := by decide
  have hcalm : Calm watched slowSeven (some 6) sevenBytes := by
    refine ⟨fun _ _ _ => rfl, fun j hj => ?_, fun hread => ?_⟩
    · -- one flush is made while the six bytes are taken
      have hflush : (j + 1) * 4 ≤ 6 := hj
      obtain rfl : j = 0 := by omega
      decide +kernel
    · rcases hread with hnil | hmore
      · cases hnil
      · exact absurd (hmore 6 rfl) (by decide)
  obtain ⟨res, ws, hrun, hlaid, hlong, -⟩ :=
    (@fetch_exact watched slowSeven _ 1 sevenBytes hchunk hlimit hbuf rfl rfl hcalm).2.2.1 hstart
  obtain ⟨hout, hcmd⟩ := hlong (by decide)
  exact ⟨res, ws, hrun, hlaid, hout, hcmd⟩

end Mrdl.Fetcher
