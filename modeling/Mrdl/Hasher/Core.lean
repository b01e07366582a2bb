import Mrdl.Types

/-! # `StreamingHasher`

The hasher's thread takes the chunks in order, each as soon as the writer reports it on disk, and
feeds what it reads there to the digest. It looks at the stop event before every chunk and before
every read, and once more before it compares. The machine keeps the pieces fed to the digest.
-/

namespace Mrdl.Hasher
set_option autoImplicit false

/-! ## The digest -/

/-- A hash object of `hashlib`. -/
structure HashAlgo where
  State : Type
  new : State
  update : State → Bytes → State
  hexdigest : State → String

namespace HashAlgo

/-- `update(a); update(b)` is `update(a + b)`. -/
def Streams (algo : HashAlgo) : Prop :=
  ∀ s a b, algo.update (algo.update s a) b = algo.update s (a ++ b)

/-- The object after the pieces. -/
def feed (algo : HashAlgo) (pieces : List Bytes) : algo.State := pieces.foldl algo.update algo.new

theorem feed_flatten {algo : HashAlgo} (h : algo.Streams) {piece : Bytes} {pieces : List Bytes} :
    algo.feed (piece :: pieces) = algo.update algo.new (piece :: pieces).flatten := by
  have key : ∀ s, pieces.foldl algo.update (algo.update s piece) =
      algo.update s (piece ++ pieces.flatten) := by
    intro s
    induction pieces generalizing piece with
    | nil => rw [List.flatten_nil, List.append_nil, List.foldl_nil]
    | cons p rest ih => rw [List.foldl_cons, h, ih, List.flatten_cons, List.append_assoc]
  exact key algo.new

end HashAlgo

/-! ## The thread -/

/-- `_READ_CHUNK`. -/
def readChunk : ℕ := 1 <<< 22

/-- What the hasher is constructed with. -/
structure HashJob where
  chunkSize : ℕ
  totalSize : ℤ
  totalChunks : ℕ
  spec : HashSpec
  algo : HashAlgo

/-- The `length` of a chunk in `_hash_single_chunk`. -/
def HashJob.chunkLength (job : HashJob) (i : ℕ) : ℕ :=
  if job.totalSize > 0 then (min (job.chunkSize : ℤ) (job.totalSize - i * job.chunkSize)).toNat
  else job.chunkSize

/-- `looking` is the head of the loop over the chunks, `hashing` the head of the loop over the reads
of a chunk, `reading` an `os.read` that was decided on, `closing` the way to the comparison. -/
inductive HasherPc
  | looking
  | hashing (bytesRead : ℕ)
  | reading (bytesRead : ℕ)
  | closing
  | dead
  deriving DecidableEq, Repr

structure StreamingHasher where
  pc : HasherPc := .looking
  currentChunk : ℕ := 0
  updates : List Bytes := []
  verified : Option Bool := none
  computedHash : Option String := none
  deriving DecidableEq, Repr

inductive HasherAct
  | look
  | checkStop
  | read (n : ℕ)
  | conclude
  | die
  deriving DecidableEq, Repr

namespace StreamingHasher

def nextChunk (h : StreamingHasher) : StreamingHasher :=
  { h with pc := .looking, currentChunk := h.currentChunk + 1 }

/-- `_verify_hash`. -/
def verifyHash (job : HashJob) (h : StreamingHasher) : StreamingHasher :=
  let digest := job.algo.hexdigest (job.algo.feed h.updates)
  { h with
    pc := .dead
    computedHash := some digest
    verified :=
      match job.spec.expected with
      | none => some true
      | some expected => some (digest.toLower == expected.toLower) }

/-- One step of the thread. `os.read` returns at most what was asked for, and nothing only at the end
of the file; `die` is an exception of `os.open`, `os.read` or the digest. -/
def step (job : HashJob) (stopThread : Bool) (isOnDisk : ℕ → Bool) (file : Bytes)
    (h : StreamingHasher) : HasherAct → Option StreamingHasher
  | .look =>
      match h.pc with
      | .looking =>
          if h.currentChunk < job.totalChunks ∧ stopThread = false then
            if isOnDisk h.currentChunk then some { h with pc := .hashing 0 } else some h
          else some { h with pc := .closing }
      | _ => none
  | .checkStop =>
      match h.pc with
      | .hashing bytesRead =>
          if bytesRead < job.chunkLength h.currentChunk ∧ stopThread = false then
            some { h with pc := .reading bytesRead }
          else some h.nextChunk
      | _ => none
  | .read n =>
      match h.pc with
      | .reading bytesRead =>
          if 0 < n then
            let readSize := min readChunk (job.chunkLength h.currentChunk - bytesRead)
            let data := (file.drop (h.currentChunk * job.chunkSize + bytesRead)).take (min n readSize)
            if data = [] then some h.nextChunk
            else
              some { h with pc := .hashing (bytesRead + data.length), updates := h.updates ++ [data] }
          else none
      | _ => none
  | .conclude =>
      match h.pc with
      | .closing =>
          if h.currentChunk = job.totalChunks ∧ stopThread = false then some (h.verifyHash job)
          else some { h with pc := .dead }
      | _ => none
  | .die => if h.pc = .dead then none else some { h with pc := .dead }

/-- The message of the `IncompleteHashError`. -/
def incompleteHashText : String := "Background hashing thread failed to complete verification."

/-- `finalize`; without a hash spec there is no work. -/
def finalize (hasWork : Bool) (h : StreamingHasher) : Except String Bool :=
  if hasWork then
    match h.verified with
    | none => .error incompleteHashText
    | some verified => .ok verified
  else .ok true

end StreamingHasher

end Mrdl.Hasher
