import Mathlib.Data.Rat.Defs

/-! # Shared types

`types.py` and `exceptions.py`: the downloader's states with the table of allowed transitions, what a
probe reports about the remote file, and the failures a fetcher hands to its worker. Bytes are lists
of `UInt8`. Sizes are Python integers and may be negative, offsets and lengths are naturals.
-/

namespace Mrdl
set_option autoImplicit false

abbrev Bytes := List UInt8

/-- `DownloadState`. -/
inductive DownloadState
  | idle | probing | downloading | paused | completed | failed | cancelled
  deriving DecidableEq, Repr

/-- `VALID_TRANSITIONS`. -/
def validTransitions : DownloadState → List DownloadState
  | .idle => [.probing, .cancelled]
  | .probing => [.downloading, .failed, .cancelled]
  | .downloading => [.paused, .completed, .failed, .cancelled]
  | .paused => [.downloading, .completed, .cancelled]
  | .completed => []
  | .failed => []
  | .cancelled => []

/-- `FileMetadata`. -/
structure FileMetadata where
  totalSize : ℤ
  acceptsRanges : Bool
  etag : Option String := none
  lastModified : Option String := none
  deriving DecidableEq, Repr

/-- `HashSpec`. -/
structure HashSpec where
  algo : String
  expected : Option String
  deriving DecidableEq, Repr

/-- `DownloadResult`, without the path and the time taken. -/
structure DownloadResult where
  status : DownloadState
  hashMatched : Bool
  error : Option String
  computedHash : Option String
  deriving DecidableEq, Repr

/-- The part of `DownloadConfig` that decides which chunks are fetched and by how many workers. -/
structure DownloadConfig where
  urls : List String
  threadsPerMirror : ℕ := 1
  chunkSize : ℕ := 64 * 1024 * 1024
  overwrite : Bool := false
  deriving DecidableEq, Repr

/-- The fatal errors of a `WorkerPool`. -/
inductive PoolError
  | allBanned
  | fatal (chunkIdx : ℤ) (typeName message : String)
  deriving DecidableEq, Repr

/-- `WorkerPool.last_error`. -/
def PoolError.text : PoolError → String
  | .allBanned => "All mirrors are currently banned due to failures or slow speeds."
  | .fatal chunkIdx typeName message =>
      "Fatal error on chunk " ++ toString chunkIdx ++ " after 5 retries. Last error: " ++ typeName ++
        ": " ++ message

/-- An entry of the chunk queue, a tuple `(retry_time, chunk_idx, retries)`. -/
structure QueueItem where
  retryTime : ℚ
  chunkIdx : ℤ
  retries : ℕ
  deriving DecidableEq, Repr

/-- `FALLBACK_UNKNOWN_SIZE_CHUNK`. -/
def fallbackUnknownSizeChunk : ℕ := 1024 * 1024 * 1024

/-- `WriteCommand`, `MarkCommand` and `TruncateCommand`: what a fetcher asks of the writer. -/
inductive Command
  | write (offset : ℕ) (data : Bytes)
  | mark (chunkIndex : ℕ)
  | truncate (size : ℕ)
  deriving DecidableEq, Repr

/-- The exception behind a failed fetch. Of an `aiohttp.ClientResponseError` the status and the
`Retry-After` header are kept, the other client errors are told apart by nothing that reads them. -/
inductive Cause
  | timeout
  | clientError
  | clientResponse (status : ℕ) (retryAfter : Option String)
  | slowMirror
  | incompleteChunk
  deriving DecidableEq, Repr

/-- A `FetchError`: its text and its `__cause__`. -/
structure FetchFailure where
  cause : Cause
  text : String
  deriving DecidableEq, Repr

end Mrdl
