import Mrdl.Downloader.Core
import Mrdl.Workers.Core
import Mrdl.Fetcher.Buffer
import Mrdl.Writer.Core
import Mrdl.Hasher.Core
import Mrdl.Session.Core
import Mathlib.Data.List.Dedup

/-! # A whole run

`start` with its workers, each in `ChunkFetcher.fetch`, the writer's queue and thread, the hasher's
thread, and the two savers. An action is one step of one of them. A fetch is computed when it begins,
from everything its attempt will meet; its commands are then handed to the writer one by one, and its
outcome counts when the last one is gone. The event loop stands still while `start` waits for the
writer and the hasher to stop.
-/

namespace Mrdl.System
open FileBytes Downloader Workers Writer Hasher
set_option autoImplicit false

/-- What the run is about, as the probe and the resume state decide it. `dest` is the destination
before `prepare_file`, `resumed` the `completed` list of the resume state. -/
structure Setup where
  sources : List String
  threadsPerSource : ℕ
  cfg : Fetcher.FetcherConfig
  metadata : FileMetadata
  resumed : List ℕ := []
  os : Session.Platform := {}
  dest : Option Bytes := none
  hash : Option (HashSpec × HashAlgo) := none

namespace Setup

def totalChunks (S : Setup) : ℕ := Session.computeTotalChunks S.metadata.totalSize S.cfg.chunkSize

/-- The number of bytes of the file, where it is known. -/
def size (S : Setup) : ℕ := S.metadata.totalSize.toNat

/-- The chunks of `build_chunk_queue`. -/
def chunks (S : Setup) : List ℕ := (List.range S.totalChunks).filter fun i => i ∉ S.resumed

def file (S : Setup) : Bytes := Session.prepareFile S.os S.dest S.metadata.totalSize

/-- `init_hasher`. -/
def job (S : Setup) : Option HashJob :=
  S.hash.map fun h => ⟨S.cfg.chunkSize, S.metadata.totalSize, S.totalChunks, h.1, h.2⟩

/-- The run on what `openSession` decided, with the rest of its configuration. -/
def ofOpened (o : Session.Opened) (fetcher : Fetcher.FetcherConfig) (os : Session.Platform)
    (dest : Option Bytes) (hash : Option (HashSpec × HashAlgo)) : Setup where
  sources := o.cfg.urls
  threadsPerSource := o.cfg.threadsPerMirror
  cfg := { fetcher with chunkSize := o.cfg.chunkSize }
  metadata := o.metadata
  resumed := (List.range (Session.computeTotalChunks o.metadata.totalSize o.cfg.chunkSize)).filter
    fun i => Session.inSet o.completedSet i
  os := os
  dest := dest
  hash := hash

theorem ofOpened_chunks (o : Session.Opened) (fetcher : Fetcher.FetcherConfig) (os : Session.Platform)
    (dest : Option Bytes) (hash : Option (HashSpec × HashAlgo)) :
    (ofOpened o fetcher os dest hash).chunks.map (fun i : ℕ => (⟨0, i, 0⟩ : QueueItem)) =
      Session.buildChunkQueue (Session.computeTotalChunks o.metadata.totalSize o.cfg.chunkSize)
        o.completedSet := by
  unfold chunks Session.buildChunkQueue
  refine congrArg _ (List.filter_congr fun i hi => ?_)
  have hmem : i ∈ (ofOpened o fetcher os dest hash).resumed ↔ Session.inSet o.completedSet i = true := by
    rw [ofOpened, List.mem_filter]
    exact and_iff_right hi
  rw [decide_not, Bool.not_inj_iff, Bool.eq_iff_iff, decide_eq_true_eq]
  exact hmem

/-- It begins with the file and the queue of the session. -/
theorem ofOpened_begins {cfg : DownloadConfig} {os : Session.Platform} {disk : Session.Disk}
    {metadata : FileMetadata} {o : Session.Opened}
    (h : Session.openSession cfg os disk metadata = .ok o) (fetcher : Fetcher.FetcherConfig)
    (hash : Option (HashSpec × HashAlgo)) :
    ∃ dest, (ofOpened o fetcher os dest hash).file = o.file ∧
      (ofOpened o fetcher os dest hash).chunks.map (fun i : ℕ => (⟨0, i, 0⟩ : QueueItem)) =
        o.remainingChunks := by
  obtain ⟨disk', state, completed, -, -, rfl⟩ := Session.openSession_ok h
  exact ⟨disk'.dest, rfl, ofOpened_chunks _ fetcher os disk'.dest hash⟩

end Setup

/-- A fetch under way: its chunk, the commands it has still to hand over, whether the first of them is
in `asyncio.to_thread`, and how the fetch will end. -/
structure Call where
  chunkIdx : ℕ
  todo : List Command
  putting : Bool := false
  outcome : Fetcher.Outcome

/-- A worker's fetcher, with its fetch. -/
structure Task where
  fetcher : Fetcher.ChunkFetcher
  call : Option Call := none

/-- The command whose put is in its thread. -/
def Task.inFlight (t : Task) : List Command :=
  match t.call with
  | some ⟨_, cmd :: _, true, _⟩ => [cmd]
  | _ => []

/-- A worker acts on the end of its fetch only when the fetch has ended that way. -/
def fetchesReady (tasks : ℕ → Task) : PoolAct → Bool
  | .fetchReturned w =>
      match (tasks w).call with
      | some ⟨_, [], _, .returned _⟩ => true
      | _ => false
  | .fetchStopped w =>
      match (tasks w).call with
      | some ⟨_, [], _, .stopped⟩ => true
      | _ => false
  | .fetchFailed w _ _ _ =>
      match (tasks w).call with
      | some ⟨_, [], _, .fetchError _⟩ => true
      | _ => false
  | _ => true

/-- What was passed to `state_manager.save`, and what `pwrite` had written by then. -/
structure Save where
  completed : List ℕ
  pwrites : List (Write UInt8)
  deriving DecidableEq, Repr

/-- `orphans` are puts whose fetch was cancelled while they were in their thread, `dropped` the
commands that `write` or `mark_complete` gave up on, `recorded` the chunks whose fetch returned, with
the number of bytes. -/
structure Sys where
  ctl : Control := {}
  pool : WorkerPool
  tasks : ℕ → Task
  orphans : List Command := []
  dropped : List Command := []
  recorded : List (ℕ × ℕ) := []
  writer : DiskWriter
  stopPut : Bool := false
  hasher : StreamingHasher := {}
  saverCopy : Option (List ℕ) := none
  lastSaved : ℕ
  saves : List Save := []

inductive SysAct
  | control (a : Act)
  | pool (a : PoolAct)
  | begin (w : ℕ) (att : Fetcher.Attempt)
  | offer (w : ℕ)
  | putDone (w : ℕ)
  | putFull (w : ℕ)
  | orphanPut (k : ℕ)
  | orphanGone (k : ℕ)
  | stopPut
  | writer (a : ThreadAct)
  | writerFails (e : String)
  | hasher (a : HasherAct)
  | saverWakes
  | saverSaves

/-- `start` stands in a call that does not give the event loop back. -/
def blocksLoop : Pc → Bool
  | .stoppingWriter | .stoppingHasher | .saving | .checking => true
  | _ => false

/-- The descriptor is closed after the session. -/
def fdOpen : Pc → Bool
  | .verifying | .clearingState | .ended => false
  | _ => true

namespace Sys

def init (S : Setup) : Sys where
  pool := WorkerPool.init S.sources S.threadsPerSource S.chunks S.resumed.dedup
  tasks := fun _ => { fetcher := Fetcher.ChunkFetcher.new S.cfg S.metadata }
  writer := { diskCompleted := S.resumed, file := S.file }
  lastSaved := S.resumed.length

def setTask (s : Sys) (w : ℕ) (t : Task) : Sys := { s with tasks := Function.update s.tasks w t }

def setCall (s : Sys) (w : ℕ) (c : Option Call) : Sys := s.setTask w { s.tasks w with call := c }

/-- What `finalize` tells `start`. -/
def verification (S : Setup) (s : Sys) : Verification :=
  match s.hasher.finalize S.hash.isSome with
  | .ok true => .verified
  | .ok false => .mismatch
  | .error text => .incomplete text

/-- The actions of `start` that wait for another part of the program. The last three come with the
steps of the other threads. -/
def controlReady (S : Setup) (s : Sys) : Act → Bool
  | .poolReturns success error =>
      decide (s.pool.run = .ended (.returned success) ∧ error = s.pool.lastError)
  | .poolRaises => decide (s.pool.run = .ended .valueError)
  | .startCancelled =>
      !blocksLoop s.ctl.pc && decide (s.ctl.pc = .running → s.pool.run = .ended .cancelled)
  | .callback => !blocksLoop s.ctl.pc
  | .hasherStopped => S.hash.isNone || decide (s.hasher.pc = .dead)
  | .finalizeReturns v => decide (v = s.verification S)
  | .writerFails _ | .poolStops | .digestComputed _ => false
  | _ => true

/-- The saves that come with an action of `start` or with `pause`: `_save_state`. The completed set is
empty until the resume state is loaded. -/
def savesWith (s : Sys) : Act → List Save
  | .stateSaved => [⟨s.pool.completed, s.writer.pwrites⟩]
  | .pause =>
      if s.ctl.pc ≠ .created ∧ s.ctl.state = .downloading then
        [⟨if s.ctl.writerStarted then s.pool.completed else [], s.writer.pwrites⟩]
      else []
  | _ => []

def poolReady (s : Sys) (a : PoolAct) : Bool := fetchesReady s.tasks a

/-- What becomes of the fetch when its worker goes on, or is cancelled in it. -/
def settleCall (s : Sys) : PoolAct → Sys
  | .fetchReturned w =>
      match (s.tasks w).call with
      | some ⟨i, _, _, .returned n⟩ => { s.setCall w none with recorded := s.recorded ++ [(i, n)] }
      | _ => s
  | .fetchStopped w | .fetchFailed w _ _ _ => s.setCall w none
  | .workerCancelled w => { s.setCall w none with orphans := s.orphans ++ (s.tasks w).inFlight }
  | _ => s

end Sys

def sysStep (S : Setup) (s : Sys) : SysAct → Option Sys
  | .control a =>
      if s.controlReady S a then
        match controlStep s.ctl a with
        | none => none
        | some ctl => some { s with ctl := ctl, saves := s.saves ++ s.savesWith a }
      else none
  | .pool a =>
      if s.ctl.writerStarted = true ∧ blocksLoop s.ctl.pc = false ∧ s.poolReady a = true then
        match poolStep s.ctl.ev s.pool a with
        | none => none
        | some (ev, pool) => some { s.settleCall a with ctl := { s.ctl with ev := ev }, pool := pool }
      else none
  | .begin w att =>
      match s.pool.pcOf w, (s.tasks w).call with
      | some (.fetching item _), none =>
          if blocksLoop s.ctl.pc then none
          else
            match Fetcher.fetch S.cfg (s.tasks w).fetcher item.chunkIdx.toNat att with
            | none => none
            | some res =>
                some (s.setTask w
                  ⟨res.fetcher, some
                    { chunkIdx := item.chunkIdx.toNat
                      todo := Fetcher.commands res.effects
                      outcome := res.outcome }⟩)
      | _, _ => none
  | .offer w =>
      match (s.tasks w).call with
      | some ⟨i, cmd :: rest, false, outcome⟩ =>
          if blocksLoop s.ctl.pc then none
          else if s.ctl.ev.stopThread then
            some { s.setCall w (some ⟨i, rest, false, outcome⟩) with dropped := s.dropped ++ [cmd] }
          else some (s.setCall w (some ⟨i, cmd :: rest, true, outcome⟩))
      | _ => none
  | .putDone w =>
      match (s.tasks w).call with
      | some ⟨i, cmd :: rest, true, outcome⟩ =>
          (s.writer.put (some cmd)).map fun writer =>
            { s.setCall w (some ⟨i, rest, false, outcome⟩) with writer := writer }
      | _ => none
  | .putFull w =>
      match (s.tasks w).call with
      | some ⟨i, cmd :: rest, true, outcome⟩ =>
          if maxsize ≤ s.writer.queue.length then some (s.setCall w (some ⟨i, cmd :: rest, false, outcome⟩))
          else none
      | _ => none
  | .orphanPut k =>
      match s.orphans[k]? with
      | some cmd =>
          (s.writer.put (some cmd)).map fun writer =>
            { s with writer := writer, orphans := s.orphans.eraseIdx k }
      | none => none
  | .orphanGone k =>
      if k < s.orphans.length then some { s with orphans := s.orphans.eraseIdx k } else none
  | .stopPut =>
      if s.ctl.pc = .stoppingWriter ∧ s.stopPut = false then
        (s.writer.put none).map fun writer => { s with writer := writer, stopPut := true }
      else none
  | .writer a =>
      if s.ctl.writerStarted = true ∧ a ≠ .fail then
        (s.writer.step s.ctl.ev.stopThread (fdOpen s.ctl.pc) a).map fun writer =>
          { s with writer := writer }
      else none
  | .writerFails e =>
      match s.writer.step s.ctl.ev.stopThread (fdOpen s.ctl.pc) .fail, controlStep s.ctl (.writerFails e) with
      | some writer, some ctl => some { s with writer := writer, ctl := ctl }
      | _, _ => none
  | .hasher a =>
      match S.job with
      | none => none
      | some job =>
          if s.ctl.writerStarted then
            (s.hasher.step job s.ctl.ev.stopThread s.writer.isOnDisk s.writer.file a).map fun hasher =>
              { s with hasher := hasher, ctl := { s.ctl with computedHash := hasher.computedHash } }
          else none
  | .saverWakes =>
      if s.ctl.pc = .running ∧ s.ctl.ev.stopEvent = false ∧ s.saverCopy = none ∧
          s.lastSaved < s.pool.completed.length then
        some { s with saverCopy := some s.pool.completed, lastSaved := s.pool.completed.length }
      else none
  | .saverSaves =>
      match s.saverCopy with
      | some completed =>
          some { s with saverCopy := none, saves := s.saves ++ [⟨completed, s.writer.pwrites⟩] }
      | none => none

end Mrdl.System
