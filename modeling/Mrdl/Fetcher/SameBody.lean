import Mrdl.Fetcher.UnknownSize
import Mrdl.Writer.OneBody

/-! # Fetches of one body

Every answer carries the same body, whole or cut off, with its length announced or not. What a fetch of
the one chunk hands to the writer is then made of pieces of that body, whether it returns or not, and a
fetch that returns has handed over all of it, with the truncation if no length was announced before.
-/

namespace Mrdl.Fetcher
open FileBytes
set_option autoImplicit false

variable {cfg : FetcherConfig} {start : ℕ}

/-- The reply is a failure, or carries `body`. -/
def Reply.Serves (body : Bytes) : Reply → Prop
  | .noAnswer _ => True
  | .answer r => r.failed = true ∨ Carries r body

instance (r : Response) (body : Bytes) : Decidable (Carries r body) :=
  decidable_of_iff
    (r.pieces.flatten <+: body ∧ (r.ending.isNone = true → r.pieces.flatten = body) ∧
      ∀ len ∈ r.contentLength, len = body.length)
    ⟨fun h => ⟨h.1, fun hend => h.2.1 (Option.isNone_iff_eq_none.mpr hend), h.2.2⟩,
      fun h => ⟨h.received, fun hend => h.whole (Option.isNone_iff_eq_none.mp hend), h.length⟩⟩

instance (body : Bytes) : (reply : Reply) → Decidable (reply.Serves body)
  | .noAnswer _ => .isTrue trivial
  | .answer r => inferInstanceAs (Decidable (r.failed = true ∨ Carries r body))

/-! ## What was taken of the body -/

theorem clip_prefix (expected : Option ℤ) (x y : Bytes) : clip expected x <+: clip expected (x ++ y) := by
  cases expected with
  | none => exact List.prefix_append _ _
  | some e =>
    rw [clip, clip, List.take_append]
    exact List.prefix_append _ _

theorem bodyLoop_prefix {att : Attempt} {expected : Option ℤ} {ending : Option FetchFailure} {k : ℕ}
    {pieces : List Bytes} {c : Cursor} {d : Bytes} {st : Step} (h : Fed cfg start c d)
    (hfit : Fits expected d) (hrun : bodyLoop cfg att start expected ending k pieces c = some st) :
    ∃ y, y <+: clip expected (d ++ pieces.flatten) ∧ Fed cfg start st.cursor y := by
  have here : ∀ z, d <+: clip expected (d ++ z) := by
    intro z
    have hclip := clip_prefix expected d z
    rwa [clip_of_fits hfit] at hclip
  induction pieces generalizing k c d with
  | nil =>
    unfold bodyLoop at hrun
    cases ending <;> cases hrun <;> exact ⟨d, here _, h⟩
  | cons x rest ih =>
    rw [bodyLoop] at hrun
    split at hrun
    · cases hrun
      exact ⟨d, here _, h⟩
    · split at hrun
      · rename_i hx
        rw [hx, List.flatten_cons, List.nil_append]
        exact ih h hfit hrun here
      · have hclamp := clamp_spec (x := x) h hfit
        have hfit' : Fits expected (d ++ (clamp expected c x).1) := by
          rw [hclamp]
          exact fits_clip hfit.nil _
        have hbody : clip expected (d ++ (clamp expected c x).1 ++ rest.flatten) =
            clip expected (d ++ (x :: rest).flatten) := by
          rw [hclamp, clip_append, List.flatten_cons, List.append_assoc]
        have here' : ∀ z, d ++ (clamp expected c x).1 <+: clip expected (d ++ (clamp expected c x).1 ++ z) := by
          intro z
          have hclip := clip_prefix expected (d ++ (clamp expected c x).1) z
          rwa [clip_of_fits hfit'] at hclip
        split at hrun
        · cases hrun
        · rename_i c' a heq
          cases hrun
          obtain ⟨y, hy, hfed⟩ := consumePiece_fed h heq
          refine ⟨d ++ y, ?_, hfed⟩
          rw [← hbody]
          exact ((List.prefix_append_right_inj d).mpr hy).trans (here' _)
        · rename_i c' heq
          have hfed : Fed cfg start c' (d ++ (clamp expected c x).1) := consumePiece_fed h heq
          rw [← hbody]
          split at hrun
          · cases hrun
            exact ⟨_, here' _, hfed⟩
          · exact ih hfed hfit' hrun here'

/-- Whatever becomes of a fetch, what it has handed over is a beginning of what it was sent. -/
theorem fetch_prefix {f : ChunkFetcher} {idx : ℕ} {att : Attempt} {res : FetchResult}
    (hbuf : f.buffer.length = cfg.flushThreshold)
    (hfit : Fits (expectation cfg f.metadata (idx * cfg.chunkSize) att.reply) [])
    (h : fetch cfg f idx att = some res) :
    ∃ ws d tail, commands res.effects = asCommands ws ++ tail ∧ Tiles (idx * cfg.chunkSize) ws d ∧
      (d = [] ∨ ∃ r, att.reply = .answer r ∧ r.failed = false ∧ d <+: r.pieces.flatten) ∧
      ∀ cmd ∈ tail, cmd = .mark idx ∨ (cmd = .truncate d.length ∧ res.outcome = .returned d.length) := by
  have hclip : ∀ (r : Response) (expected : Option ℤ) (y : Bytes), y <+: clip expected ([] ++ r.pieces.flatten) →
      y <+: r.pieces.flatten := by
    intro r expected y hy
    refine hy.trans ?_
    rw [List.nil_append]
    cases expected with
    | none => exact List.prefix_rfl
    | some e => exact List.take_prefix _ _
  cases fetch_path h with
  | unread e failed =>
    refine ⟨[], [], [], ?_, rfl, Or.inl rfl, fun cmd hcmd => by cases hcmd⟩
    rw [rollback_commands]
    rfl
  | cutShort r metadata expected c a reply ok resolved body =>
    rw [(metadataAfter_read reply ok resolved).2] at hfit
    obtain ⟨y, hy, hfed⟩ := bodyLoop_prefix (Fed.init hbuf) hfit body
    obtain ⟨ws, w, hc, ht, hw, rfl⟩ := hfed.tiles
    refine ⟨ws, w, [], ?_, ht, Or.inr ⟨r, reply, ok, (List.prefix_append _ _).trans (hclip r expected _ hy)⟩,
      fun cmd hcmd => by cases hcmd⟩
    rw [rollback_commands, List.append_nil]
    exact hc
  | finished r metadata expected c reply ok resolved body =>
    rw [(metadataAfter_read reply ok resolved).2] at hfit
    obtain ⟨y, hy, hfed⟩ := bodyLoop_prefix (Fed.init hbuf) hfit body
    obtain ⟨-, ws, hc, ht, hlen⟩ := hfed.lastFlush
    have htaken : y = [] ∨ ∃ r, att.reply = .answer r ∧ r.failed = false ∧ y <+: r.pieces.flatten :=
      Or.inr ⟨r, reply, ok, hclip r expected y hy⟩
    rcases (finish_eq metadata idx (idx * cfg.chunkSize) expected c).2 with
      ⟨e, -, -, hes, -⟩ | ⟨-, hout, hcmd⟩
    · refine ⟨ws, y, [], ?_, ht, htaken, fun cmd hcmd => by cases hcmd⟩
      rw [hes, List.append_nil]
      exact hc
    · refine ⟨ws, y, _, hcmd.trans (congrArg (· ++ _) hc), ht, htaken, fun cmd hmem => ?_⟩
      rcases List.mem_append.mp hmem with htruncate | hmark
      · split at htruncate
        · rw [hlen]
          exact Or.inr ⟨List.mem_singleton.mp htruncate, hout⟩
        · cases htruncate
      · exact Or.inl (List.mem_singleton.mp hmark)

/-! ## The one chunk of a body of unknown size -/

theorem metadataAfter_total {metadata : FileMetadata} {att : Attempt} (hsize : metadata.totalSize = 0) :
    (metadataAfter cfg metadata start att.reply).totalSize = announced att := by
  unfold metadataAfter announced
  cases att.reply with
  | noAnswer e => exact hsize
  | answer r =>
    simp only
    cases r.failed with
    | true => simpa using hsize
    | false =>
      simp only [Bool.false_eq_true, if_false, resolveSize, hsize, le_refl, if_true]
      by_cases hlen : r.contentLength.getD 0 > 0
      · rw [if_pos hlen]
        split <;> rfl
      · rw [if_neg hlen, hsize]
        omega

theorem expectation_first (cfg : FetcherConfig) {metadata : FileMetadata} {r : Response} (hok : r.failed = false)
    (hsize : metadata.totalSize = 0) :
    expectation cfg metadata 0 (.answer r) =
      if r.contentLength.getD 0 = 0 then none else some (r.contentLength.getD 0 : ℤ) := by
  simp only [expectation, hok, Bool.false_eq_true, if_false, resolveSize, hsize]
  by_cases hlen : r.contentLength.getD 0 > 0
  · have hne : r.contentLength.getD 0 ≠ 0 := by omega
    simp [hlen, hne]
  · have hzero : r.contentLength.getD 0 = 0 := by omega
    simp [hzero]

theorem announced_serves {att : Attempt} {body : Bytes} (h : att.reply.Serves body) :
    announced att = 0 ∨ announced att = body.length := by
  unfold announced
  cases hreply : att.reply with
  | noAnswer e => exact Or.inl rfl
  | answer r =>
    rw [hreply] at h
    simp only
    by_cases hok : r.failed = true
    · exact Or.inl (if_pos hok)
    · have hcarries : Carries r body := h.resolve_left hok
      rw [if_neg hok]
      cases hlen : r.contentLength with
      | none => exact Or.inl rfl
      | some len => exact Or.inr (hcarries.length len hlen)

/-- The fetcher knows no size, or that of the body, which was announced to it. -/
def ChunkFetcher.Knows (body : Bytes) (quiet : Prop) (f : ChunkFetcher) : Prop :=
  f.metadata.totalSize = 0 ∨ (¬ quiet ∧ f.metadata.totalSize = body.length)

section
variable {f : ChunkFetcher} {att : Attempt} {res : FetchResult} {body : Bytes} {quiet : Prop}

theorem ChunkFetcher.Knows.known (h : f.Knows body quiet) (hsize : f.metadata.totalSize ≠ 0) :
    ¬ quiet ∧ f.metadata.totalSize = body.length ∧ 0 < f.metadata.totalSize := by
  obtain ⟨hquiet, hbody⟩ := h.resolve_left hsize
  exact ⟨hquiet, hbody, by omega⟩

theorem fetch_knows (hbuf : f.buffer.length = cfg.flushThreshold) (hknows : f.Knows body quiet)
    (hserves : att.reply.Serves body) (hquiet : quiet → announced att = 0)
    (hfit : Fits (expectation cfg f.metadata (0 * cfg.chunkSize) att.reply) [])
    (h : fetch cfg f 0 att = some res) : res.fetcher.Knows body quiet := by
  obtain ⟨ws, d, hd⟩ := fetch_handed hbuf hfit h
  have hmeta := hd.metadata_eq
  rw [ChunkFetcher.Knows, hmeta]
  by_cases hsize : f.metadata.totalSize = 0
  · rw [metadataAfter_total hsize]
    by_cases hzero : announced att = 0
    · exact Or.inl (by rw [hzero]; rfl)
    · refine Or.inr ⟨fun hq => hzero (hquiet hq), ?_⟩
      rw [(announced_serves hserves).resolve_left hzero]
  · obtain ⟨hloud, hbody, hpos⟩ := hknows.known hsize
    rw [metadataAfter_known hpos]
    exact Or.inr ⟨hloud, hbody⟩

/-- A fetch that returns has handed over the whole body. -/
theorem fetch_returns_body (hbuf : f.buffer.length = cfg.flushThreshold) (hknows : f.Knows body quiet)
    (hserves : att.reply.Serves body) (hquiet : quiet → announced att = 0)
    (hfits : quiet ∨ body.length ≤ cfg.chunkSize) (h : fetch cfg f 0 att = some res) {n : ℕ}
    (hn : res.outcome = .returned n) :
    n = body.length ∧ (quiet → .truncate body.length ∈ commands res.effects) := by
  obtain ⟨r, ws, d, rfl, hd⟩ := fetch_delivered hbuf h hn
  have hok := hd.ok
  have hcarries : Carries r body := by
    rw [hd.answered] at hserves
    exact hserves.resolve_left (by rw [hok]; exact Bool.false_ne_true)
  have hclip := hd.clipped
  have hall := hd.expected
  rw [Nat.zero_mul, hd.answered] at hclip hall
  by_cases hsize : f.metadata.totalSize = 0
  · have hexp := expectation_first cfg hok hsize
    have hannounced : announced att = r.contentLength.getD 0 := by
      rw [announced, hd.answered]
      exact if_neg (by rw [hok]; exact Bool.false_ne_true)
    by_cases hlen : r.contentLength.getD 0 = 0
    · -- no length announced: the body was read to its end, and the file is cut
      rw [if_pos hlen] at hexp
      have hend := fetch_returned_ended h hn hd.answered (by rw [Nat.zero_mul, hd.answered, hexp])
      have hbody : d = body := by
        rw [hclip, hexp, clip, hcarries.whole hend]
      have htotal : res.fetcher.metadata.totalSize = 0 := by
        rw [hd.metadata_eq, metadataAfter_total hsize, hannounced, hlen]
        rfl
      have hcommands := hd.handed
      rw [htotal, hbody] at hcommands
      refine ⟨congrArg List.length hbody, fun _ => ?_⟩
      rw [hcommands]
      exact List.mem_append_right _ (List.mem_append_left _ (List.mem_singleton.mpr rfl))
    · rw [if_neg hlen] at hexp
      have hbody := (announced_serves hserves).resolve_left (by rw [hannounced]; exact hlen)
      have htaken := hall _ hexp
      exact ⟨by omega, fun hq => absurd (hquiet hq) (by rw [hannounced]; exact hlen)⟩
  · -- the size was learnt from an answer before
    obtain ⟨hloud, hbody, hpos⟩ := hknows.known hsize
    have htaken := hall _ (expectation_known hpos)
    rw [rangeEnd_zero, hbody] at htaken
    have hchunk := hfits.resolve_left hloud
    exact ⟨by omega, fun hq => absurd hq hloud⟩

/-- Everything a fetch hands over is from the body, whether it returns or not. -/
theorem fetch_from_body (hbuf : f.buffer.length = cfg.flushThreshold) (hknows : f.Knows body quiet)
    (hserves : att.reply.Serves body) (hquiet : quiet → announced att = 0)
    (hfits : quiet ∨ body.length ≤ cfg.chunkSize)
    (hfit : Fits (expectation cfg f.metadata (0 * cfg.chunkSize) att.reply) [])
    (h : fetch cfg f 0 att = some res) : ∀ cmd ∈ commands res.effects, cmd.FromBody body := by
  obtain ⟨ws, d, tail, hcommands, htiles, hsent, htail⟩ := fetch_prefix hbuf hfit h
  have hbody : d <+: body.drop (0 * cfg.chunkSize) := by
    rw [Nat.zero_mul, List.drop_zero]
    rcases hsent with rfl | ⟨r, hreply, hok, hd⟩
    · exact List.nil_prefix
    · rw [hreply] at hserves
      have hcarries : Carries r body := hserves.resolve_left (by rw [hok]; exact Bool.false_ne_true)
      exact hd.trans hcarries.received
  intro cmd hcmd
  rw [hcommands] at hcmd
  rcases List.mem_append.mp hcmd with hwrite | hend
  · obtain ⟨w, hw, rfl⟩ := List.mem_map.mp hwrite
    exact htiles.pieces hbody w hw
  · rcases htail cmd hend with rfl | ⟨rfl, hreturned⟩
    · exact trivial
    · exact (fetch_returns_body hbuf hknows hserves hquiet hfits h hreturned).1

end

end Mrdl.Fetcher
