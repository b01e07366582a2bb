import Mrdl.Types

/-! # `ChunkFetcher.fetch`

The fetch of one chunk as a function of everything it reads: the configuration, the fetcher's own
metadata and buffer, and the `Attempt` the outside world makes of it (the reply of the mirror with
its body cut into pieces, what the stop event answers at each piece, the clock at each flush). The
result lists what fetch did, in order: progress reports and the writer's coroutines it awaited.

The copy loop is run with fuel. It makes progress only while the buffer is not empty, so
`chunk_size = 0` runs out of fuel where the source loops for ever; `Buffer.lean` shows that nothing
else does.
-/

namespace Mrdl.Fetcher
set_option autoImplicit false

/-- `FetcherConfig`. The flush limit is the module constant `_FLUSH_THRESHOLD`, which the tests
replace; of the throttles only the time they take is visible, in the clock readings. -/
structure FetcherConfig where
  chunkSize : ℕ
  minSpeedKbps : ℚ := 0
  speedGracePeriod : ℚ := 10
  sources : Option (List String) := none
  hasHealth : Bool := true
  flushLimit : ℕ := 16 * 1024 * 1024

/-- `min(_FLUSH_THRESHOLD, config.chunk_size)`, also the length of the buffer. -/
def FetcherConfig.flushThreshold (cfg : FetcherConfig) : ℕ := min cfg.flushLimit cfg.chunkSize

/-- The fetcher's own state: it survives from one fetch to the next. -/
structure ChunkFetcher where
  metadata : FileMetadata
  buffer : Bytes

/-- `ChunkFetcher.__init__`: the buffer is allocated once, zero-filled. -/
def ChunkFetcher.new (cfg : FetcherConfig) (metadata : FileMetadata) : ChunkFetcher :=
  ⟨metadata, List.replicate cfg.flushThreshold 0⟩

/-- What fetch does to the outside: a progress report, or one of the writer's coroutines awaited
(`write`, `truncate`, `mark_complete`), which begins by building the command. -/
inductive Effect
  | update (bytesDownloaded : ℤ) (chunkIndex : Option ℕ)
  | command (cmd : Command)
  deriving DecidableEq, Repr

/-! ## The outside world -/

/-- A response: its status line and headers, the text of the error that `raise_for_status` makes of a failed
status, the pieces `iter_any` yields, and how the stream ends (`none` at the end of the body, otherwise the
transport error raised there). -/
structure Response where
  status : ℕ
  contentLength : Option ℕ := none
  etag : Option String := none
  lastModified : Option String := none
  retryAfter : Option String := none
  statusError : String := ""
  pieces : List Bytes
  ending : Option FetchFailure := none

inductive Reply
  | noAnswer (e : FetchFailure)
  | answer (r : Response)

/-- The clock at a flush, the number of active mirrors then, and the speed as it is printed. -/
structure SpeedSample where
  networkElapsed : ℚ
  activeCount : ℕ
  shown : String

structure Attempt where
  reply : Reply
  stopSeen : ℕ → Bool := fun _ => false
  speed : ℕ → SpeedSample := fun _ => ⟨0, 0, ""⟩

inductive Outcome
  | returned (n : ℕ)
  | stopped
  | fetchError (e : FetchFailure)
  deriving DecidableEq, Repr

/-! ## The buffer -/

/-- The locals of fetch that change in its loops, and the effects so far. -/
structure Cursor where
  bytesWritten : ℕ := 0
  writePos : ℕ := 0
  buffer : Bytes
  flushes : ℕ := 0
  effects : List Effect := []

/-- `buf[pos:pos + len(d)] = d`. -/
def setSlice (buf : Bytes) (pos : ℕ) (d : Bytes) : Bytes :=
  buf.take pos ++ d ++ buf.drop (pos + d.length)

/-- Copy `d` to the cursor's place in the buffer. -/
def Cursor.copy (c : Cursor) (d : Bytes) : Cursor :=
  { c with buffer := setSlice c.buffer c.writePos d, writePos := c.writePos + d.length }

def Cursor.report (c : Cursor) (n : ℤ) : Cursor := { c with effects := c.effects ++ [.update n none] }

/-- `await self._writer.write(start + bytes_written, self._buffer_view[:write_pos])`. -/
def Cursor.flush (start : ℕ) (c : Cursor) : Cursor :=
  { c with
    effects := c.effects ++ [.command (.write (start + c.bytesWritten) (c.buffer.take c.writePos))]
    bytesWritten := c.bytesWritten + c.writePos
    writePos := 0 }

/-- Why the `try` block was left before its end. -/
inductive Abort
  | stopped
  | failure (e : FetchFailure)

inductive Step
  | going (c : Cursor)
  | raised (c : Cursor) (a : Abort)

def Step.cursor : Step → Cursor
  | .going c => c
  | .raised c _ => c

/-- `_should_raise_slow_mirror`. -/
def shouldRaiseSlowMirror (cfg : FetcherConfig) (speedKbps : ℚ) (activeCount : ℕ) : Bool :=
  if speedKbps ≥ cfg.minSpeedKbps then false
  else
    match cfg.sources with
    | none => false
    | some sources =>
      if sources.length ≤ 1 then false else !(cfg.hasHealth && decide (activeCount ≤ 1))

/-- The speed check after a flush. -/
def tooSlow (cfg : FetcherConfig) (sample : SpeedSample) (bytesWritten : ℕ) : Bool :=
  decide (sample.networkElapsed > cfg.speedGracePeriod) &&
    shouldRaiseSlowMirror cfg ((bytesWritten : ℚ) / 1024 / sample.networkElapsed) sample.activeCount

/-- A flush inside the body loop, with the speed check that follows it. -/
def flushChecked (cfg : FetcherConfig) (att : Attempt) (start : ℕ) (c : Cursor) : Step :=
  let sample := att.speed c.flushes
  let c' := { c.flush start with flushes := c.flushes + 1 }
  if tooSlow cfg sample c'.bytesWritten then
    .raised c' (.failure ⟨.slowMirror, "Speed dropped to " ++ sample.shown ++ " KB/s"⟩)
  else .going c'

/-- `while data_offset < data_len`: copy a piece into the buffer, flushing whenever it is full. -/
def copyLoop (cfg : FetcherConfig) (att : Attempt) (start : ℕ) : ℕ → Bytes → Cursor → Option Step
  | _, [], c => some (.going c)
  | 0, _ :: _, _ => none
  | fuel + 1, b :: rest, c =>
      let d := b :: rest
      if cfg.flushThreshold ≤ c.writePos then
        match flushChecked cfg att start c with
        | .raised c' a => some (.raised c' a)
        | .going c' =>
            let toCopy := min d.length cfg.flushThreshold
            copyLoop cfg att start fuel (d.drop toCopy) (c'.copy (d.take toCopy))
      else
        let toCopy := min d.length (cfg.flushThreshold - c.writePos)
        copyLoop cfg att start fuel (d.drop toCopy) (c.copy (d.take toCopy))

/-! ## The body loop -/

/-- Python's `data[:stop]` for an integer `stop`: a negative one counts from the end. -/
def sliceTo (d : Bytes) (stop : ℤ) : Bytes :=
  if 0 ≤ stop then d.take stop.toNat else d.take (d.length + stop).toNat

/-- Clamp a piece to the bytes still expected; also the length that is reported. -/
def clamp (expected : Option ℤ) (c : Cursor) (d : Bytes) : Bytes × ℤ :=
  match expected with
  | none => (d, d.length)
  | some e =>
      let remaining := e - ((c.bytesWritten : ℤ) + c.writePos)
      if (d.length : ℤ) > remaining then (sliceTo d remaining, remaining) else (d, d.length)

def expectedReached (expected : Option ℤ) (c : Cursor) : Bool :=
  match expected with
  | none => false
  | some e => decide ((c.bytesWritten : ℤ) + c.writePos ≥ e)

/-- One turn of the body loop on a piece that is not empty. -/
def consumePiece (cfg : FetcherConfig) (att : Attempt) (start : ℕ) (expected : Option ℤ)
    (piece : Bytes) (c : Cursor) : Option Step :=
  let d := clamp expected c piece
  match copyLoop cfg att start d.1.length d.1 (c.report d.2) with
  | none => none
  | some (.raised c' a) => some (.raised c' a)
  | some (.going c') =>
      if cfg.flushThreshold ≤ c'.writePos then some (flushChecked cfg att start c')
      else some (.going c')

/-- `async for chunk_data in response.content.iter_any()`; `k` counts the pieces. -/
def bodyLoop (cfg : FetcherConfig) (att : Attempt) (start : ℕ) (expected : Option ℤ)
    (ending : Option FetchFailure) : ℕ → List Bytes → Cursor → Option Step
  | _, [], c =>
      match ending with
      | none => some (.going c)
      | some e => some (.raised c (.failure e))
  | k, piece :: rest, c =>
      if att.stopSeen k then some (.raised c .stopped)
      else if piece = [] then bodyLoop cfg att start expected ending (k + 1) rest c
      else
        match consumePiece cfg att start expected piece c with
        | none => none
        | some (.raised c' a) => some (.raised c' a)
        | some (.going c') =>
            if expectedReached expected c' then some (.going c')
            else bodyLoop cfg att start expected ending (k + 1) rest c'

/-! ## The whole fetch -/

/-- Python's `a or b` on optional strings: the empty string counts as absent. -/
def pyOr (a b : Option String) : Option String :=
  match a with
  | none => b
  | some s => if s = "" then b else some s

/-- `end`, the last byte of the range: only of use when the total size is known. -/
def rangeEnd (cfg : FetcherConfig) (totalSize : ℤ) (start : ℕ) : ℤ :=
  min ((start : ℤ) + cfg.chunkSize - 1) (totalSize - 1)

/-- The bytes expected before the request is sent. -/
def expectedBytes (cfg : FetcherConfig) (metadata : FileMetadata) (start : ℕ) : Option ℤ :=
  if metadata.totalSize > 0 then some (rangeEnd cfg metadata.totalSize start - start + 1) else none

/-- For an unknown size, take the total from the response: the new metadata and expectation. -/
def resolveSize (cfg : FetcherConfig) (metadata : FileMetadata) (start : ℕ) (r : Response) :
    FileMetadata × Option ℤ :=
  if metadata.totalSize ≤ 0 then
    let contentLen := r.contentLength.getD 0
    if contentLen > 0 then
      let metadata' : FileMetadata :=
        { totalSize := contentLen
          acceptsRanges := metadata.acceptsRanges
          etag := pyOr metadata.etag r.etag
          lastModified := pyOr metadata.lastModified r.lastModified }
      if !metadata.acceptsRanges || decide (start = 0) then
        (metadata', some (metadata'.totalSize - start))
      else (metadata', some (rangeEnd cfg metadata'.totalSize start - start + 1))
    else (metadata, none)
  else (metadata, expectedBytes cfg metadata start)

structure FetchResult where
  effects : List Effect
  outcome : Outcome
  fetcher : ChunkFetcher

/-- The two `except` clauses: take the reported bytes back and raise. -/
def rollback (metadata : FileMetadata) (c : Cursor) (a : Abort) : FetchResult :=
  let reported := c.bytesWritten + c.writePos
  { effects := if reported > 0 then c.effects ++ [.update (-(reported : ℤ)) none] else c.effects
    outcome := match a with
      | .stopped => .stopped
      | .failure e => .fetchError e
    fetcher := ⟨metadata, c.buffer⟩ }

/-- The text of the `FetchError` for a body of the wrong length. -/
def incompleteText (chunkIdx : ℕ) (expected : ℤ) (got : ℕ) : String :=
  "Chunk " ++ toString chunkIdx ++ ": expected " ++ toString expected ++ " bytes, got " ++
    toString got ++ "."

/-- Flush what did not fill the buffer; no speed check follows. -/
def lastFlush (start : ℕ) (c : Cursor) : Cursor := if c.writePos > 0 then c.flush start else c

/-- After the body loop: the last flush, the length check, the truncation of a file of unknown size
and the mark. -/
def finish (metadata : FileMetadata) (chunkIdx start : ℕ) (expected : Option ℤ) (c : Cursor) :
    FetchResult :=
  let c' := lastFlush start c
  let fetcher : ChunkFetcher := ⟨metadata, c'.buffer⟩
  let tail : List Effect :=
    (if metadata.totalSize ≤ 0 then [.command (.truncate c'.bytesWritten)] else []) ++
      [.command (.mark chunkIdx), .update 0 (some chunkIdx)]
  match expected with
  | none => ⟨c'.effects ++ tail, .returned c'.bytesWritten, fetcher⟩
  | some e =>
      if (c'.bytesWritten : ℤ) ≠ e then
        ⟨c'.effects, .fetchError ⟨.incompleteChunk, incompleteText chunkIdx e c'.bytesWritten⟩, fetcher⟩
      else ⟨c'.effects ++ tail, .returned c'.bytesWritten, fetcher⟩

/-- `response.raise_for_status()` raises from status 400 on. -/
def Response.failed (r : Response) : Bool := decide (400 ≤ r.status)

/-- `ChunkFetcher.fetch`. `none` is a fetch that never ends. -/
def fetch (cfg : FetcherConfig) (f : ChunkFetcher) (chunkIdx : ℕ) (att : Attempt) :
    Option FetchResult :=
  let start := chunkIdx * cfg.chunkSize
  let c : Cursor := { buffer := f.buffer }
  match att.reply with
  | .noAnswer e => some (rollback f.metadata c (.failure e))
  | .answer r =>
      if r.failed then
        some (rollback f.metadata c (.failure ⟨.clientResponse r.status r.retryAfter, r.statusError⟩))
      else
        let resolved := resolveSize cfg f.metadata start r
        match bodyLoop cfg att start resolved.2 r.ending 0 r.pieces c with
        | none => none
        | some (.raised c' a) => some (rollback resolved.1 c' a)
        | some (.going c') => some (finish resolved.1 chunkIdx start resolved.2 c')

/-- The `Range` header of the request, if one is sent: first and last byte. -/
def rangeHeader (cfg : FetcherConfig) (metadata : FileMetadata) (chunkIdx : ℕ) :
    Option (ℕ × Option ℤ) :=
  if metadata.acceptsRanges then
    some (chunkIdx * cfg.chunkSize,
      if metadata.totalSize > 0 then
        some (rangeEnd cfg metadata.totalSize (chunkIdx * cfg.chunkSize))
      else none)
  else none

end Mrdl.Fetcher
