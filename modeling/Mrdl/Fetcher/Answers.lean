import Mrdl.Fetcher.Undisturbed

/-! # What a mirror answers, and what the fetch makes of it

A mirror holds some content and answers a GET for a byte range either with 206 and that range or, as
a server that does not know ranges, with 200 and the full content. `raise_for_status` lets both pass
and the status is not looked at again, so the body loop cuts the first bytes of a full answer to the
length of the range and hands them over at the offset of the range.
-/

namespace Mrdl.Fetcher
open FileBytes
set_option autoImplicit false

inductive AnswerKind
  | partialContent
  | fullContent
  deriving DecidableEq, Repr

def AnswerKind.status : AnswerKind → ℕ
  | .partialContent => 206
  | .fullContent => 200

/-- The bytes `first..last` of the content. -/
def byteRange (content : Bytes) (first : ℕ) (last : ℤ) : Bytes :=
  (content.drop first).take (last - first + 1).toNat

/-- The body of the answer to a request with this `Range` header. -/
def answerBody (content : Bytes) (kind : AnswerKind) : Option (ℕ × Option ℤ) → Bytes
  | some (first, some last) =>
      match kind with
      | .partialContent => byteRange content first last
      | .fullContent => content
  | _ => content

/-- In the attempt `att` the mirror answers the request for chunk `idx`, its body cut into pieces
anyhow; the connection may also break off after some of them. -/
def Answers (cfg : FetcherConfig) (metadata : FileMetadata) (idx : ℕ) (content : Bytes)
    (kind : AnswerKind) (att : Attempt) : Prop :=
  ∃ r, att.reply = .answer r ∧ r.status = kind.status ∧
    r.pieces.flatten <+: answerBody content kind (rangeHeader cfg metadata idx)

/-- The byte the writer was last given for an offset. -/
def handedByte (cmds : List Command) (offset : ℕ) : Option UInt8 :=
  lastWritten (writesOf cmds) offset

/-- Whenever the fetch returns `n`, the writer was given the content's own bytes for the `n` offsets
from the start of the chunk on. -/
def RightBytes (cfg : FetcherConfig) (metadata : FileMetadata) (idx : ℕ) (content : Bytes)
    (kind : AnswerKind) : Prop :=
  ∀ (buffer : Bytes) (att : Attempt) (res : FetchResult) (n : ℕ),
    buffer.length = cfg.flushThreshold → Answers cfg metadata idx content kind att →
    fetch cfg ⟨metadata, buffer⟩ idx att = some res → res.outcome = .returned n →
    ∀ j < n, handedByte (commands res.effects) (idx * cfg.chunkSize + j) =
      content[idx * cfg.chunkSize + j]?

theorem handedByte_of_tiles {start : ℕ} {ws : List (Write UInt8)} {d : Bytes} {rest : List Command}
    (ht : Tiles start ws d) (hrest : writesOf rest = []) (j : ℕ) :
    handedByte (asCommands ws ++ rest) (start + j) = d[j]? := by
  unfold handedByte
  rw [writesOf_append, writesOf_asCommands, hrest, List.append_nil, ht.lastWritten,
    if_pos (by omega)]
  congr 1
  omega

/-- The number of bytes in the range of a chunk; not positive past the end of the file. -/
def rangeLength (cfg : FetcherConfig) (metadata : FileMetadata) (idx : ℕ) : ℤ :=
  rangeEnd cfg metadata.totalSize (idx * cfg.chunkSize) - (idx * cfg.chunkSize : ℕ) + 1

section
variable {cfg : FetcherConfig} {metadata : FileMetadata} {idx : ℕ}

theorem answerBody_range (cfg : FetcherConfig) (idx : ℕ) (content : Bytes) (kind : AnswerKind)
    (hsize : 0 < metadata.totalSize) (hranges : metadata.acceptsRanges = true) :
    answerBody content kind (rangeHeader cfg metadata idx) =
      match kind with
      | .partialContent =>
          (content.drop (idx * cfg.chunkSize)).take (rangeLength cfg metadata idx).toNat
      | .fullContent => content := by
  unfold rangeHeader rangeLength
  rw [if_pos hranges, if_pos hsize]
  cases kind <;> rfl

/-- A fetch that returns has handed over the first bytes of the body, as many as the range has. -/
theorem returned_bytes {content : Bytes} {kind : AnswerKind} {buffer : Bytes} {att : Attempt}
    {res : FetchResult} {n : ℕ} (hsize : 0 < metadata.totalSize)
    (hbuf : buffer.length = cfg.flushThreshold) (hans : Answers cfg metadata idx content kind att)
    (hrun : fetch cfg ⟨metadata, buffer⟩ idx att = some res) (hn : res.outcome = .returned n) :
    (n : ℤ) = rangeLength cfg metadata idx ∧
      n ≤ (answerBody content kind (rangeHeader cfg metadata idx)).length ∧
      ∀ j < n, handedByte (commands res.effects) (idx * cfg.chunkSize + j) =
        (answerBody content kind (rangeHeader cfg metadata idx))[j]? := by
  obtain ⟨r, hreply, -, hpre⟩ := hans
  have hexp : expectation cfg metadata (idx * cfg.chunkSize) att.reply =
      some (rangeLength cfg metadata idx) := expectation_known hsize
  obtain ⟨r', ws, d, rfl, hd⟩ := fetch_delivered hbuf hrun hn
  cases hreply.symm.trans hd.answered
  have hlen := hd.expected _ (by rw [hexp]; rfl)
  have hclip := hd.clipped
  rw [hexp, clip, ← hlen, Int.toNat_natCast] at hclip
  have hle : d.length ≤ r.pieces.flatten.length := by
    have := congrArg List.length hclip
    rw [List.length_take] at this
    omega
  refine ⟨hlen, hle.trans hpre.length_le, fun j hj => ?_⟩
  rw [hd.handed, handedByte_of_tiles hd.tiles (by split <;> rfl), hclip, List.getElem?_take_of_lt hj]
  obtain ⟨rest, hrest⟩ := hpre
  rw [← hrest, List.getElem?_append_left (by omega)]

/-- An undisturbed attempt in which the mirror answers in one piece. -/
def wholeAnswer (cfg : FetcherConfig) (metadata : FileMetadata) (idx : ℕ) (content : Bytes)
    (kind : AnswerKind) : Attempt where
  reply := .answer
    { status := kind.status, pieces := [answerBody content kind (rangeHeader cfg metadata idx)] }
  speed := fun _ => ⟨cfg.speedGracePeriod, 0, ""⟩

theorem wholeAnswer_answers (cfg : FetcherConfig) (metadata : FileMetadata) (idx : ℕ)
    (content : Bytes) (kind : AnswerKind) :
    Answers cfg metadata idx content kind (wholeAnswer cfg metadata idx content kind) :=
  ⟨_, rfl, rfl, by simp⟩

theorem wholeAnswer_calm (content : Bytes) (kind : AnswerKind) (expected : Option ℤ) :
    Calm cfg (wholeAnswer cfg metadata idx content kind) expected
      { status := kind.status, pieces := [answerBody content kind (rangeHeader cfg metadata idx)] } :=
  .of_unwatched (fun _ => rfl) (fun _ => le_rfl) rfl

theorem wholeAnswer_returns {content : Bytes} {kind : AnswerKind} (hthr : 0 < cfg.flushThreshold)
    (hsize : 0 < metadata.totalSize) (hpos : 0 ≤ rangeLength cfg metadata idx)
    (hlong : rangeLength cfg metadata idx ≤
      (answerBody content kind (rangeHeader cfg metadata idx)).length) :
    ∃ res n, fetch cfg (ChunkFetcher.new cfg metadata) idx (wholeAnswer cfg metadata idx content kind) =
      some res ∧ res.outcome = .returned n := by
  have hexp : expectation cfg metadata (idx * cfg.chunkSize)
      (wholeAnswer cfg metadata idx content kind).reply = some (rangeLength cfg metadata idx) :=
    expectation_known hsize
  apply fetch_calm hthr (by simp [ChunkFetcher.new]) (wholeAnswer_calm content kind _) rfl
    (by cases kind <;> rfl)
  · intro e he
    rw [show (ChunkFetcher.new cfg metadata).metadata = metadata from rfl, hexp] at he
    cases he
    exact hpos
  · intro e he
    rw [show (ChunkFetcher.new cfg metadata).metadata = metadata from rfl, hexp] at he
    cases he
    simpa using hlong

end

theorem flushThreshold_pos {cfg : FetcherConfig} (hchunk : 0 < cfg.chunkSize)
    (hlimit : 0 < cfg.flushLimit) : 0 < cfg.flushThreshold := Nat.lt_min.mpr ⟨hlimit, hchunk⟩

/-- The bytes handed over are the content's own for every way the answer arrives, exactly when the
mirror answers with the range, or its full content is shorter than the range (the fetch then raises),
or happens to begin with the bytes of the range: so always for the chunk at offset 0. -/
theorem rightBytes_iff (cfg : FetcherConfig) (metadata : FileMetadata) (idx : ℕ) (content : Bytes)
    (kind : AnswerKind) (hchunk : 0 < cfg.chunkSize) (hlimit : 0 < cfg.flushLimit)
    (hsize : 0 < metadata.totalSize) (hranges : metadata.acceptsRanges = true) :
    RightBytes cfg metadata idx content kind ↔
      kind = .partialContent ∨ (content.length : ℤ) < rangeLength cfg metadata idx ∨
        content.take (rangeLength cfg metadata idx).toNat =
          (content.drop (idx * cfg.chunkSize)).take (rangeLength cfg metadata idx).toNat := by
  have hbody := answerBody_range cfg idx content kind hsize hranges
  constructor
  · intro hright
    cases kind with
    | partialContent => exact Or.inl rfl
    | fullContent =>
      by_cases hshort : (content.length : ℤ) < rangeLength cfg metadata idx
      · exact Or.inr (Or.inl hshort)
      refine Or.inr (Or.inr ?_)
      by_cases hneg : rangeLength cfg metadata idx < 0
      · have hz : (rangeLength cfg metadata idx).toNat = 0 := by omega
        rw [hz, List.take_zero, List.take_zero]
      simp only at hbody
      obtain ⟨res, n, hrun, hn⟩ := wholeAnswer_returns (flushThreshold_pos hchunk hlimit) hsize
        (by omega : 0 ≤ rangeLength cfg metadata idx) (by rw [hbody]; omega)
      have hans := wholeAnswer_answers cfg metadata idx content .fullContent
      have hbuf : (ChunkFetcher.new cfg metadata).buffer.length = cfg.flushThreshold := by
        simp [ChunkFetcher.new]
      obtain ⟨hlen, -, hgot⟩ := returned_bytes hsize hbuf hans hrun hn
      have hwant := hright _ _ res n hbuf hans hrun hn
      rw [← hlen, Int.toNat_natCast]
      apply List.ext_getElem?
      intro j
      by_cases hj : j < n
      · rw [List.getElem?_take_of_lt hj, List.getElem?_take_of_lt hj, List.getElem?_drop, ← hwant j hj,
          hgot j hj, hbody]
      · rw [List.getElem?_eq_none (by rw [List.length_take]; omega),
          List.getElem?_eq_none (by rw [List.length_take]; omega)]
  · intro hcond buffer att res n hbuf hans hrun hn j hj
    obtain ⟨hlen, hle, hgot⟩ := returned_bytes hsize hbuf hans hrun hn
    have hnat : (rangeLength cfg metadata idx).toNat = n := by omega
    rw [hgot j hj, hbody]
    rw [hbody] at hle
    cases kind with
    | partialContent =>
      simp only
      rw [hnat, List.getElem?_take_of_lt hj, List.getElem?_drop]
    | fullContent =>
      simp only at hle ⊢
      rcases hcond with hk | hshort | hsame
      · cases hk
      · omega
      · rw [hnat] at hsame
        rw [← List.getElem?_drop, ← List.getElem?_take_of_lt hj (l := content), hsame,
          List.getElem?_take_of_lt hj]

/-- Four bytes in chunks of two: a server that ignores the range of chunk 1 has its first two bytes
written in the place of the last two. -/
theorem fullContent_misplaced :
    ¬ RightBytes { chunkSize := 2 } ⟨4, true, none, none⟩ 1 [1, 2, 3, 4] .fullContent := by
  intro h
  have h' := h [0, 0] (wholeAnswer { chunkSize := 2 } ⟨4, true, none, none⟩ 1 [1, 2, 3, 4] .fullContent)
    _ 2 rfl (wholeAnswer_answers _ _ _ _ _) rfl rfl 0 (by decide)
  exact absurd h' (by decide)

/-- A mirror that answers with the range delivers the last two bytes in their place. -/
theorem partialContent_placed :
    RightBytes { chunkSize := 2 } ⟨4, true, none, none⟩ 1 [1, 2, 3, 4] .partialContent :=
  (rightBytes_iff { chunkSize := 2 } ⟨4, true, none, none⟩ 1 [1, 2, 3, 4] .partialContent (by decide)
    (by decide) (by decide) rfl).mpr (Or.inl rfl)

end Mrdl.Fetcher
