import Mrdl.System.Exclusive
import Mrdl.System.RightBytes
import Mrdl.Writer.Mmap

/-! # A whole run with the mapped writer

`start` with its workers and its savers on a `MmapDiskWriter`. A fetch's commands are carried out as it
issues them, inside the mapping, so there is no queue, no thread of the writer and nothing to drain. The
hasher's thread only reads the mapping; what it comes to is left open here, and so is whether
`MmapDiskWriter.stop` finds one of its views alive.
-/

namespace Mrdl.System
open FileBytes Downloader Workers Writer Hasher Runs
set_option autoImplicit false

/-- `saves` are the lists that were passed to `state_manager.save`. -/
structure MapSys where
  ctl : Control := {}
  pool : WorkerPool
  tasks : ℕ → Task
  writer : MmapDiskWriter
  saverCopy : Option (List ℕ) := none
  lastSaved : ℕ
  saves : List (List ℕ) := []

inductive MapAct
  | control (a : Act)
  | stopRaises
  | pool (a : PoolAct)
  | begin (w : ℕ) (att : Fetcher.Attempt)
  | carryOut (w : ℕ)
  | saverWakes
  | saverSaves

namespace MapSys

def init (S : Setup) : MapSys where
  pool := WorkerPool.init S.sources S.threadsPerSource S.chunks S.resumed.dedup
  tasks := fun _ => { fetcher := Fetcher.ChunkFetcher.new S.cfg S.metadata }
  writer := { totalSize := S.size, file := S.file, diskCompleted := S.resumed }
  lastSaved := S.resumed.length

def setCall (s : MapSys) (w : ℕ) (c : Option Call) : MapSys :=
  { s with tasks := Function.update s.tasks w { s.tasks w with call := c } }

/-- The actions of `start` that wait for another part of the program. The writer's `error` is always
`None`. -/
def controlReady (s : MapSys) : Act → Bool
  | .poolReturns success error =>
      decide (s.pool.run = .ended (.returned success) ∧ error = s.pool.lastError)
  | .poolRaises => decide (s.pool.run = .ended .valueError)
  | .startCancelled =>
      !blocksLoop s.ctl.pc && decide (s.ctl.pc = .running → s.pool.run = .ended .cancelled)
  | .callback => !blocksLoop s.ctl.pc
  | .writerFails _ | .poolStops => false
  | _ => true

/-- `start` maps the file before the workers run, and unmaps it in its `finally` block. -/
def writerAfter (s : MapSys) : Act → Option MmapDiskWriter
  | .stateReady true => s.writer.start
  | .writerStopped => some s.writer.stop
  | _ => some s.writer

/-- The lists that `_save_state` passes on, at the end and in `pause`. -/
def savesWith (s : MapSys) : Act → List (List ℕ)
  | .stateSaved => [s.pool.completed]
  | .pause =>
      if s.ctl.pc ≠ .created ∧ s.ctl.state = .downloading then
        [if s.ctl.writerStarted then s.pool.completed else []]
      else []
  | _ => []

def poolReady (s : MapSys) (a : PoolAct) : Bool := fetchesReady s.tasks a

/-- The fetches that are over with a step of the pool. -/
def settle (s : MapSys) (a : PoolAct) (w : ℕ) : Task :=
  if a.settles w then { s.tasks w with call := none } else s.tasks w

/-- What a call raises on a mapping that is gone, or at data that does not fit into it. The worker treats
it as it does a `FetchError`. -/
def callError (writer : MmapDiskWriter) : FetchFailure :=
  ⟨.clientError, if writer.mapped then "mmap slice assignment is wrong size"
    else "MmapDiskWriter has not been started."⟩

end MapSys

def mapStep (S : Setup) (s : MapSys) : MapAct → Option MapSys
  | .control a =>
      if s.controlReady a then
        match controlStep s.ctl a, s.writerAfter a with
        | some ctl, some writer =>
            some { s with ctl := ctl, writer := writer, saves := s.saves ++ s.savesWith a }
        | _, _ => none
      else none
  | .stopRaises =>
      if s.ctl.pc = .stoppingWriter then some { s with ctl := s.ctl.raise .other } else none
  | .pool a =>
      if s.ctl.writerStarted = true ∧ blocksLoop s.ctl.pc = false ∧ s.poolReady a = true then
        match poolStep s.ctl.ev s.pool a with
        | none => none
        | some (ev, pool) =>
            some { s with tasks := s.settle a, ctl := { s.ctl with ev := ev }, pool := pool }
      else none
  | .begin w att =>
      match s.pool.pcOf w, (s.tasks w).call with
      | some (.fetching item _), none =>
          if blocksLoop s.ctl.pc then none
          else
            match Fetcher.fetch S.cfg (s.tasks w).fetcher item.chunkIdx.toNat att with
            | none => none
            | some res =>
                some
                  { s with
                    tasks := Function.update s.tasks w
                      ⟨res.fetcher, some
                        { chunkIdx := item.chunkIdx.toNat
                          todo := Fetcher.commands res.effects
                          outcome := res.outcome }⟩ }
      | _, _ => none
  | .carryOut w =>
      match (s.tasks w).call with
      | some ⟨i, cmd :: rest, putting, outcome⟩ =>
          if blocksLoop s.ctl.pc then none
          else
            match s.writer.call cmd with
            | some writer => some { s.setCall w (some ⟨i, rest, putting, outcome⟩) with writer := writer }
            | none => some (s.setCall w (some ⟨i, [], putting, .fetchError (MapSys.callError s.writer)⟩))
      | _ => none
  | .saverWakes =>
      if s.ctl.pc = .running ∧ s.ctl.ev.stopEvent = false ∧ s.saverCopy = none ∧
          s.lastSaved < s.pool.completed.length then
        some { s with saverCopy := some s.pool.completed, lastSaved := s.pool.completed.length }
      else none
  | .saverSaves =>
      match s.saverCopy with
      | some completed => some { s with saverCopy := none, saves := s.saves ++ [completed] }
      | none => none

/-! ## What one step can do -/

inductive MapMoves (S : Setup) (s : MapSys) : MapAct → MapSys → Prop
  | control (a : Act) (ctl : Control) (writer : MmapDiskWriter) (ready : s.controlReady a = true)
      (h : controlStep s.ctl a = some ctl) (file : writer.file = s.writer.file)
      (size : writer.totalSize = s.writer.totalSize) :
      MapMoves S s (.control a) { s with ctl := ctl, writer := writer, saves := s.saves ++ s.savesWith a }
  | stopRaises (here : s.ctl.pc = .stoppingWriter) :
      MapMoves S s .stopRaises { s with ctl := s.ctl.raise .other }
  | pool (a : PoolAct) (ev : Events) (p : WorkerPool) (started : s.ctl.writerStarted = true)
      (ready : s.poolReady a = true) (h : poolStep s.ctl.ev s.pool a = some (ev, p)) :
      MapMoves S s (.pool a) { s with tasks := s.settle a, ctl := { s.ctl with ev := ev }, pool := p }
  | begin (w : ℕ) (item : QueueItem) (t : ℚ) (att : Fetcher.Attempt) (res : Fetcher.FetchResult)
      (hands : s.pool.pcOf w = some (.fetching item t)) (free : (s.tasks w).call = none)
      (h : Fetcher.fetch S.cfg (s.tasks w).fetcher item.chunkIdx.toNat att = some res) :
      MapMoves S s (.begin w att)
        { s with
          tasks := Function.update s.tasks w
            ⟨res.fetcher, some
              { chunkIdx := item.chunkIdx.toNat
                todo := Fetcher.commands res.effects
                outcome := res.outcome }⟩ }
  | carriedOut (w i : ℕ) (cmd : Command) (rest : List Command) (putting : Bool) (outcome : Fetcher.Outcome)
      (writer : MmapDiskWriter) (call : (s.tasks w).call = some ⟨i, cmd :: rest, putting, outcome⟩)
      (h : s.writer.call cmd = some writer) :
      MapMoves S s (.carryOut w) { s.setCall w (some ⟨i, rest, putting, outcome⟩) with writer := writer }
  | raised (w i : ℕ) (cmd : Command) (rest : List Command) (putting : Bool) (outcome : Fetcher.Outcome)
      (e : FetchFailure) (call : (s.tasks w).call = some ⟨i, cmd :: rest, putting, outcome⟩) :
      MapMoves S s (.carryOut w) (s.setCall w (some ⟨i, [], putting, .fetchError e⟩))
  | saverWakes :
      MapMoves S s .saverWakes
        { s with saverCopy := some s.pool.completed, lastSaved := s.pool.completed.length }
  | saverSaves (completed : List ℕ) (copy : s.saverCopy = some completed) :
      MapMoves S s .saverSaves { s with saverCopy := none, saves := s.saves ++ [completed] }

section
variable {S : Setup} {s s' : MapSys} {a : MapAct}

theorem writerAfter_file {a : Act} {writer : MmapDiskWriter} (h : s.writerAfter a = some writer) :
    writer.file = s.writer.file ∧ writer.totalSize = s.writer.totalSize := by
  unfold MapSys.writerAfter at h
  split at h
  · simp only [MmapDiskWriter.start, Option.ite_none_right_eq_some, Option.some.injEq] at h
    obtain ⟨-, rfl⟩ := h
    exact ⟨rfl, rfl⟩
  · cases h
    exact ⟨rfl, rfl⟩
  · cases h
    exact ⟨rfl, rfl⟩

theorem mapStep_moves (hs : mapStep S s a = some s') : MapMoves S s a s' := by
  cases a with
  | control a =>
    simp only [mapStep] at hs
    split at hs
    · rename_i hready
      split at hs <;> cases hs
      rename_i ctl writer hctl hwriter
      obtain ⟨hfile, hsize⟩ := writerAfter_file hwriter
      exact .control a ctl writer hready hctl hfile hsize
    · cases hs
  | stopRaises =>
    simp only [mapStep, Option.ite_none_right_eq_some, Option.some.injEq] at hs
    obtain ⟨hpc, rfl⟩ := hs
    exact .stopRaises hpc
  | pool a =>
    simp only [mapStep] at hs
    split at hs
    · rename_i hready
      split at hs <;> cases hs
      rename_i ev p hp
      exact .pool a ev p hready.1 hready.2.2 hp
    · cases hs
  | begin w att =>
    simp only [mapStep] at hs
    split at hs
    · rename_i item t hpc hcall
      split at hs
      · cases hs
      · split at hs <;> cases hs
        rename_i res hres
        exact .begin w item t att res hpc hcall hres
    · cases hs
  | carryOut w =>
    simp only [mapStep] at hs
    split at hs
    · rename_i i cmd rest putting outcome hcall
      split at hs
      · cases hs
      · split at hs <;> cases hs
        · rename_i writer hwriter
          exact .carriedOut w i cmd rest putting outcome writer hcall hwriter
        · exact .raised w i cmd rest putting outcome _ hcall
    · cases hs
  | saverWakes =>
    simp only [mapStep, Option.ite_none_right_eq_some, Option.some.injEq] at hs
    obtain ⟨-, rfl⟩ := hs
    exact .saverWakes
  | saverSaves =>
    simp only [mapStep] at hs
    split at hs <;> cases hs
    rename_i completed hcopy
    exact .saverSaves completed hcopy

end

end Mrdl.System
