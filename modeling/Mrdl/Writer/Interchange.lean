import Mathlib.Logic.Function.Basic
import Mrdl.Foundations.Runs
import Mrdl.Foundations.Strands
import Mrdl.Writer.Core
import Mrdl.Writer.Mmap

/-! # The two writers under the same tasks

Tasks call a writer one command after the other. `DiskWriter` copies each command into its queue from an
executor thread, which tries again while the queue is full, and its own thread carries them out later;
`MmapDiskWriter` carries each out at once. Both machines keep every command that went through, with the
task it came from. Per task these are the task's calls in their order, so that on disjoint ranges the two
writers leave the same file (`writers_agree`).
-/

namespace Mrdl.Writer
open FileBytes Runs Strands
set_option autoImplicit false

/-! ## `DiskWriter` and its producers -/

/-- Where a task stands in a call: before it, in the executor's `put`, or with the `put` done. -/
inductive ProducerPc
  | ready
  | putting (cmd : Command)
  | returning
  deriving DecidableEq, Repr

structure Producer where
  calls : List Command
  pc : ProducerPc := .ready
  deriving DecidableEq, Repr

def Producer.finished (p : Producer) : Prop := p.calls = [] ∧ p.pc = .ready

instance (p : Producer) : Decidable p.finished := inferInstanceAs (Decidable (_ ∧ _))

/-- What a task has called but not yet put, and what it has yet to call. -/
def Producer.ahead (p : Producer) : List Command :=
  match p.pc with
  | .putting cmd => cmd :: p.calls
  | _ => p.calls

/-- `n` tasks, the writer, and what was put in its queue. `stopped` is set when `stop` has put its
`None`. -/
structure Feeding (n : ℕ) where
  writer : DiskWriter
  producers : Fin n → Producer
  stopped : Bool := false
  sent : List (Fin n × Command) := []

inductive FeedingAct (n : ℕ)
  | call (p : Fin n)
  | put (p : Fin n)
  | full (p : Fin n)
  | returns (p : Fin n)
  | thread (a : ThreadAct)
  | stop

/-- `queue.put` on a queue of the given capacity. -/
def DiskWriter.enqueue (capacity : ℕ) (w : DiskWriter) (x : Option Command) : Option DiskWriter :=
  if w.queue.length < capacity then some { w with queue := w.queue ++ [x] } else none

theorem DiskWriter.put_eq_enqueue (w : DiskWriter) (x : Option Command) : w.put x = w.enqueue maxsize x := rfl

namespace Feeding

variable {n : ℕ}

def init (file : Bytes) (resumed : List ℕ) (programs : Fin n → List Command) : Feeding n where
  writer := { diskCompleted := resumed, file := file }
  producers p := { calls := programs p }

/-- One step, with the stop event unset and no I/O error. `full` is a `put` that ran into its timeout,
after which the task tries again. -/
def step (capacity : ℕ) (s : Feeding n) : FeedingAct n → Option (Feeding n)
  | .call p =>
      match (s.producers p).pc, (s.producers p).calls with
      | .ready, cmd :: rest =>
          some { s with producers := Function.update s.producers p ⟨rest, .putting cmd⟩ }
      | _, _ => none
  | .put p =>
      match (s.producers p).pc with
      | .putting cmd =>
          match s.writer.enqueue capacity (some cmd) with
          | none => none
          | some w =>
              some { s with
                writer := w
                producers := Function.update s.producers p ⟨(s.producers p).calls, .returning⟩
                sent := s.sent ++ [(p, cmd)] }
      | _ => none
  | .full p =>
      match (s.producers p).pc with
      | .putting _ => if capacity ≤ s.writer.queue.length then some s else none
      | _ => none
  | .returns p =>
      match (s.producers p).pc with
      | .returning => some { s with
          producers := Function.update s.producers p ⟨(s.producers p).calls, .ready⟩ }
      | _ => none
  | .thread a =>
      if a = .fail then none
      else (s.writer.step false true a).map fun w => { s with writer := w }
  | .stop =>
      if s.stopped = false ∧ ∀ p, (s.producers p).finished then
        (s.writer.enqueue capacity none).map fun w => { s with writer := w, stopped := true }
      else none

/-- `stop` was called after all tasks had returned, and the join has returned too. -/
def Done (s : Feeding n) : Prop := s.stopped = true ∧ s.writer.pc = .exited

end Feeding

/-! ## `MmapDiskWriter` and its callers -/

structure Mapping (n : ℕ) where
  writer : MmapDiskWriter
  calls : Fin n → List Command
  stopped : Bool := false
  sent : List (Fin n × Command) := []

inductive MappingAct (n : ℕ)
  | start
  | call (p : Fin n)
  | stop

namespace Mapping

variable {n : ℕ}

def init (file : Bytes) (resumed : List ℕ) (programs : Fin n → List Command) : Mapping n where
  writer := { totalSize := file.length, file := file, diskCompleted := resumed }
  calls := programs

def step (s : Mapping n) : MappingAct n → Option (Mapping n)
  | .start => s.writer.start.map fun w => { s with writer := w }
  | .call p =>
      match s.calls p with
      | [] => none
      | cmd :: rest =>
          (s.writer.call cmd).map fun w =>
            { s with writer := w, calls := Function.update s.calls p rest, sent := s.sent ++ [(p, cmd)] }
  | .stop =>
      if ∀ p, s.calls p = [] then some { s with writer := s.writer.stop, stopped := true } else none

/-- `stop` was called after all tasks had returned. -/
def Done (s : Mapping n) : Prop := s.stopped = true

end Mapping

/-! ## The tasks -/

/-- The calls stay inside the file, and no two tasks write the same byte. -/
structure Apart {n : ℕ} (size : ℕ) (programs : Fin n → List Command) : Prop where
  inside : ∀ p, ∀ offset data, .write offset data ∈ programs p → offset + data.length ≤ size
  whole : ∀ p size', .truncate size' ∉ programs p
  apart : ∀ p q b, ∀ c ∈ programs p, ∀ d ∈ programs q, c.Covers b → d.Covers b → p = q

/-- What a writer leaves when exactly the commands `cmds` went through, in this order. -/
structure Leaves (file : Bytes) (resumed : List ℕ) (cmds : List Command) (file' : Bytes)
    (completed : List ℕ) : Prop where
  length : file'.length = file.length
  contents : ∀ b < file.length, file'[b]? = (lastWritten (writesOf cmds) b).or file[b]?
  marks : ∀ i, i ∈ completed ↔ i ∈ resumed ∨ .mark i ∈ cmds

variable {n : ℕ} {file : Bytes} {resumed : List ℕ} {programs : Fin n → List Command}

/-- Two interleavings of the same tasks leave the same. -/
theorem leaves_eq {sent sent' : List (Fin n × Command)} {file₁ file₂ : Bytes} {completed₁ completed₂ : List ℕ}
    (htasks : Apart file.length programs) (hs : ∀ p, strand p sent = programs p)
    (hs' : ∀ p, strand p sent' = programs p)
    (h₁ : Leaves file resumed (sent.map Prod.snd) file₁ completed₁)
    (h₂ : Leaves file resumed (sent'.map Prod.snd) file₂ completed₂) :
    file₁ = file₂ ∧ ∀ i, i ∈ completed₁ ↔ i ∈ completed₂ := by
  constructor
  · apply List.ext_getElem?
    intro b
    by_cases hb : b < file.length
    · have hsame : (sent.map Prod.snd).filter (fun cmd => cmd.Covers b) =
          (sent'.map Prod.snd).filter (fun cmd => cmd.Covers b) := by
        apply filter_eq_of_strands fun p => (hs p).trans (hs' p).symm
        intro p q c hc d hd
        rw [hs] at hc hd
        exact htasks.apart p q b c hc d hd
      rw [h₁.contents b hb, h₂.contents b hb, ← lastWritten_filter_covers, hsame,
        lastWritten_filter_covers]
    · rw [List.getElem?_eq_none (by rw [h₁.length]; omega),
        List.getElem?_eq_none (by rw [h₂.length]; omega)]
  · intro i
    rw [h₁.marks, h₂.marks, mem_entries, mem_entries]
    simp only [hs, hs']

theorem Leaves.init (file : Bytes) (resumed : List ℕ) : Leaves file resumed [] file resumed :=
  ⟨rfl, fun _ _ => rfl, by simp⟩

namespace Mapping

/-- After every step the mapping holds what the calls that went through leave. -/
structure Inv (file : Bytes) (resumed : List ℕ) (programs : Fin n → List Command) (s : Mapping n) :
    Prop where
  strands : ∀ p, strand p s.sent ++ s.calls p = programs p
  size : s.writer.totalSize = file.length
  leaves : Leaves file resumed (s.sent.map Prod.snd) s.writer.file s.writer.diskCompleted
  done : s.stopped = true → ∀ p, s.calls p = []

theorem Inv.call (htasks : Apart file.length programs) {s : Mapping n} (h : Inv file resumed programs s)
    {p : Fin n} {cmd : Command} {rest : List Command} (hcalls : s.calls p = cmd :: rest)
    {w : MmapDiskWriter} (hw : s.writer.call cmd = some w) :
    w.totalSize = file.length ∧
      Leaves file resumed (s.sent.map Prod.snd ++ [cmd]) w.file w.diskCompleted := by
  have hmem : cmd ∈ programs p := by
    rw [← h.strands p, hcalls]
    simp
  cases cmd with
  | write offset data =>
    have hin := htasks.inside p offset data hmem
    have hmapped : s.writer.mapped = true := by
      by_contra hno
      simp [MmapDiskWriter.call, MmapDiskWriter.write, hno] at hw
    simp only [MmapDiskWriter.call] at hw
    rw [MmapDiskWriter.write_inside hmapped (h.size ▸ hin)] at hw
    cases hw
    have hlen : (writeAll s.writer.file [(offset, data)]).length = s.writer.file.length :=
      writeAll_length fun x hx => by
        rw [List.mem_singleton.mp hx, h.leaves.length]
        exact hin
    refine ⟨h.size, hlen.trans h.leaves.length, fun b hb => ?_, fun i => ?_⟩
    · rw [← h.leaves.length] at hb
      have hcell : (writeAll s.writer.file [(offset, data)])[b]? = _ := writeAll_getElem? hb
      rw [h.leaves.length] at hb
      rw [writesOf_append, lastWritten_append, Option.or_assoc, ← h.leaves.contents b hb]
      exact hcell
    · rw [h.leaves.marks]
      simp
  | mark i =>
    simp only [MmapDiskWriter.call, Option.some.injEq] at hw
    subst hw
    refine ⟨h.size, h.leaves.length, fun b hb => ?_, fun j => ?_⟩
    · rw [writesOf_append, writesOf_mark, writesOf_nil, List.append_nil]
      exact h.leaves.contents b hb
    · rw [MmapDiskWriter.mem_markComplete, h.leaves.marks]
      simp only [List.mem_append, List.mem_singleton, Command.mark.injEq]
      exact or_assoc
  | truncate size => exact absurd hmem (htasks.whole p size)

theorem Inv.step (htasks : Apart file.length programs) {s s' : Mapping n} {a : MappingAct n}
    (h : Inv file resumed programs s) (hs : s.step a = some s') : Inv file resumed programs s' := by
  cases a with
  | start =>
    simp only [Mapping.step, MmapDiskWriter.start, Option.map_eq_some_iff] at hs
    obtain ⟨w, hw, rfl⟩ := hs
    split at hw <;> cases hw
    exact ⟨h.strands, h.size, h.leaves, h.done⟩
  | call p =>
    simp only [Mapping.step] at hs
    split at hs
    · cases hs
    · rename_i cmd rest hcalls
      rw [Option.map_eq_some_iff] at hs
      obtain ⟨w, hw, rfl⟩ := hs
      obtain ⟨hsize, hleaves⟩ := h.call htasks hcalls hw
      refine ⟨fun q => ?_, hsize, ?_, fun hd => absurd (h.done hd p) (by simp [hcalls])⟩
      · rw [strand_snoc, ← h.strands q]
        dsimp only
        by_cases hq : q = p
        · subst hq
          rw [if_pos rfl, Function.update_self, hcalls, List.append_assoc]
          rfl
        · rw [if_neg hq, Function.update_of_ne hq, List.append_nil]
      · rw [List.map_append]
        exact hleaves
  | stop =>
    simp only [Mapping.step] at hs
    split at hs <;> cases hs
    rename_i hall
    exact ⟨h.strands, h.size, h.leaves, fun _ => hall⟩

theorem Inv.init (file : Bytes) (resumed : List ℕ) (programs : Fin n → List Command) :
    Inv file resumed programs (.init file resumed programs) :=
  ⟨fun _ => rfl, rfl, Leaves.init file resumed, fun hd => by cases hd⟩

theorem run_leaves (htasks : Apart file.length programs) {s : Mapping n} {acts : List (MappingAct n)}
    (hrun : exec Mapping.step (.init file resumed programs) acts = some s) (hdone : s.Done) :
    (∀ p, strand p s.sent = programs p) ∧
      Leaves file resumed (s.sent.map Prod.snd) s.writer.file s.writer.diskCompleted := by
  have hinv : Inv file resumed programs s :=
    exec_invariant (fun _ _ _ h hs => h.step htasks hs) (Inv.init file resumed programs) hrun
  refine ⟨fun p => ?_, hinv.leaves⟩
  have hp := hinv.strands p
  rwa [hinv.done hdone p, List.append_nil] at hp

end Mapping

namespace Feeding

/-- What is in the queue, before and after `stop`. -/
def QueueInv (s : Feeding n) : Prop :=
  if s.stopped then
    (∀ p, (s.producers p).finished) ∧
      ((∃ cmds : List Command, s.writer.queue = cmds.map some ++ [none]) ∧ s.writer.pc ≠ .exited ∨
        s.writer.queue = [] ∧ s.writer.pc = .exited)
  else (∃ cmds : List Command, s.writer.queue = cmds.map some) ∧ s.writer.pc ≠ .exited

structure Inv (file : Bytes) (resumed : List ℕ) (programs : Fin n → List Command) (s : Feeding n) :
    Prop where
  strands : ∀ p, strand p s.sent ++ (s.producers p).ahead = programs p
  log : s.sent.map Prod.snd = s.writer.log
  performed : DiskWriter.Performed resumed file s.writer
  inside : ∀ x ∈ s.writer.pwrites, x.1 + x.2.length ≤ file.length
  queue : s.QueueInv

theorem thread_queue {w w' : DiskWriter} {a : ThreadAct} (h : w.step false true a = some w') :
    w.pc ≠ .exited ∧
      (w'.queue = w.queue ∧ w'.pc ≠ .exited ∨
        (∃ cmd, w.queue = some cmd :: w'.queue) ∧ w'.pc ≠ .exited ∨
        w.queue = none :: w'.queue ∧ w'.pc = .exited) := by
  cases a with
  | poll =>
    simp only [DiskWriter.step] at h
    split at h <;> cases h
    rename_i hpc
    exact ⟨by simp [hpc], .inl ⟨rfl, by simp⟩⟩
  | get =>
    simp only [DiskWriter.step] at h
    split at h <;> cases h
    · rename_i cmd rest hpc hqueue
      exact ⟨by simp [hpc], .inr (.inl ⟨⟨cmd, hqueue⟩, by simp⟩)⟩
    · rename_i rest hpc hqueue
      exact ⟨by simp [hpc], .inr (.inr ⟨hqueue, rfl⟩)⟩
  | getTimeout =>
    simp only [DiskWriter.step] at h
    split at h <;> cases h
    rename_i hpc hqueue
    exact ⟨by simp [hpc], .inl ⟨rfl, by simp⟩⟩
  | pwrite k =>
    simp only [DiskWriter.step] at h
    split at h
    · split at h <;> cases h
      rename_i hpc _
      exact ⟨by simp [hpc], .inl ⟨rfl, by simp⟩⟩
    · cases h
  | done =>
    simp only [DiskWriter.step] at h
    split at h
    · split at h <;> cases h
      rename_i hpc _
      exact ⟨by simp [hpc], .inl ⟨rfl, by simp⟩⟩
    · cases h
      rename_i hpc
      exact ⟨by simp [hpc], .inl ⟨rfl, by simp⟩⟩
    · split at h <;> cases h
      rename_i hpc _
      exact ⟨by simp [hpc], .inl ⟨rfl, by simp⟩⟩
    · cases h
  | fail =>
    simp only [DiskWriter.step] at h
    split at h
    · split at h <;> cases h
      rename_i hpc _
      exact ⟨by simp [hpc], .inl ⟨rfl, by simp⟩⟩
    · cases h
      rename_i hpc
      exact ⟨by simp [hpc], .inl ⟨rfl, by simp⟩⟩
    · cases h

/-- The thread takes commands from the front of the queue, and what follows them only when they are gone. -/
theorem thread_commands {w w' : DiskWriter} {a : ThreadAct} {cmds : List Command}
    {ending : List (Option Command)} (h : w.step false true a = some w')
    (hqueue : w.queue = cmds.map some ++ ending) (hending : ∀ cmd, some cmd ∉ ending) :
    (∃ rest : List Command, w'.queue = rest.map some ++ ending) ∧ w'.pc ≠ .exited ∨
      ending = none :: w'.queue ∧ w'.pc = .exited := by
  obtain ⟨-, ⟨hq, hpc⟩ | ⟨⟨cmd, hq⟩, hpc⟩ | ⟨hq, hpc⟩⟩ := thread_queue h
  · exact .inl ⟨⟨cmds, hq.trans hqueue⟩, hpc⟩
  · rw [hqueue] at hq
    cases cmds with
    | nil =>
      have hmem : some cmd ∈ ending := by
        rw [show ending = some cmd :: w'.queue from hq]
        exact List.mem_cons_self
      exact absurd hmem (hending cmd)
    | cons c cmds => exact .inl ⟨⟨cmds, (List.cons.inj hq).2.symm⟩, hpc⟩
  · rw [hqueue] at hq
    cases cmds with
    | nil => exact .inr ⟨hq, hpc⟩
    | cons c cmds => cases hq

theorem QueueInv.thread {s : Feeding n} (h : s.QueueInv) {w : DiskWriter} {a : ThreadAct}
    (hs : s.writer.step false true a = some w) : QueueInv { s with writer := w } := by
  unfold QueueInv at h ⊢
  simp only at h ⊢
  split
  · rename_i hstopped
    rw [if_pos hstopped] at h
    obtain ⟨hall, ⟨⟨cmds, hqueue⟩, -⟩ | ⟨-, hexited⟩⟩ := h
    · refine ⟨hall, ?_⟩
      rcases thread_commands hs hqueue (by simp) with ⟨hcmds, hpc⟩ | ⟨hlast, hpc⟩
      · exact .inl ⟨hcmds, hpc⟩
      · exact .inr ⟨(List.cons.inj hlast).2.symm, hpc⟩
    · exact absurd hexited (thread_queue hs).1
  · rename_i hstopped
    rw [if_neg hstopped] at h
    obtain ⟨⟨cmds, hqueue⟩, -⟩ := h
    rw [← List.append_nil (cmds.map some)] at hqueue
    rcases thread_commands hs hqueue (by simp) with ⟨⟨rest, hrest⟩, hpc⟩ | ⟨hlast, -⟩
    · exact ⟨⟨rest, hrest.trans (List.append_nil _)⟩, hpc⟩
    · cases hlast

theorem enqueue_spec {capacity : ℕ} {w w' : DiskWriter} {x : Option Command}
    (h : w.enqueue capacity x = some w') :
    w' = { w with queue := w.queue ++ [x] } ∧ w'.log = w.log ++ x.toList := by
  simp only [DiskWriter.enqueue, Option.ite_none_right_eq_some, Option.some.injEq] at h
  obtain ⟨-, rfl⟩ := h
  refine ⟨rfl, ?_⟩
  simp only [DiskWriter.log, DiskWriter.pending, DiskWriter.hand, DiskWriter.queued_snoc, List.append_assoc]

theorem strands_update {s : Feeding n} (h : ∀ q, strand q s.sent ++ (s.producers q).ahead = programs q)
    {p : Fin n} {next : Producer} {sent : List (Fin n × Command)}
    (hother : ∀ q, q ≠ p → strand q sent = strand q s.sent)
    (hp : strand p sent ++ next.ahead = strand p s.sent ++ (s.producers p).ahead) (q : Fin n) :
    strand q sent ++ (Function.update s.producers p next q).ahead = programs q := by
  rw [← h q]
  by_cases hq : q = p
  · rw [hq, Function.update_self, hp]
  · rw [Function.update_of_ne hq, hother q hq]

/-- While a task has a call to finish, `stop` was not called. -/
theorem QueueInv.unfinished {s : Feeding n} (h : s.QueueInv) {p : Fin n} (hp : ¬ (s.producers p).finished) :
    s.stopped = false ∧ (∃ cmds : List Command, s.writer.queue = cmds.map some) ∧ s.writer.pc ≠ .exited := by
  unfold QueueInv at h
  split at h
  · exact absurd (h.1 p) hp
  · rename_i hstopped
    exact ⟨by simpa using hstopped, h⟩

theorem Inv.move {s : Feeding n} (h : Inv file resumed programs s) {p : Fin n} {next : Producer}
    (hp : ¬ (s.producers p).finished) (hahead : next.ahead = (s.producers p).ahead) :
    Inv file resumed programs { s with producers := Function.update s.producers p next } := by
  obtain ⟨hstopped, hqueue⟩ := h.queue.unfinished hp
  refine ⟨strands_update h.strands (fun _ _ => rfl) (by rw [hahead]), h.log, h.performed, h.inside, ?_⟩
  unfold QueueInv
  rw [if_neg (by simp [hstopped])]
  exact hqueue

theorem Inv.thread (htasks : Apart file.length programs) {s : Feeding n} (h : Inv file resumed programs s)
    {w : DiskWriter} {a : ThreadAct} (hs : s.writer.step false true a = some w) :
    Inv file resumed programs { s with writer := w } := by
  refine ⟨h.strands, h.log.trans (DiskWriter.step_log hs).symm, h.performed.step hs, ?_, h.queue.thread hs⟩
  cases DiskWriter.step_moves hs with
  | waits w' hfile hpwrites hexecuted hdisk hpending hbegun =>
    rw [hpwrites]
    exact h.inside
  | pwrote offset written k data pc fits =>
    intro x hx
    rcases List.mem_append.mp hx with hx | hx
    · exact h.inside x hx
    · -- the piece belongs to a call of some task
      have hlog : Command.write offset data ∈ s.writer.log := by
        rw [DiskWriter.log, DiskWriter.pending, DiskWriter.hand_of_working pc]
        simp
      rw [← h.log] at hlog
      obtain ⟨p, hp⟩ := mem_entries.mp hlog
      have hin := htasks.inside p offset data (h.strands p ▸ List.mem_append_left _ hp)
      rw [List.mem_singleton.mp hx]
      simp only [List.length_take, List.length_drop]
      omega
  | wrote | marked | truncated => exact h.inside

theorem Inv.step (htasks : Apart file.length programs) {capacity : ℕ} {s s' : Feeding n} {a : FeedingAct n}
    (h : Inv file resumed programs s) (hs : s.step capacity a = some s') : Inv file resumed programs s' := by
  cases a with
  | call p =>
    simp only [Feeding.step] at hs
    split at hs <;> cases hs
    rename_i cmd rest hpc hcalls
    apply h.move
    · simp [Producer.finished, hcalls]
    · simp [Producer.ahead, hpc, hcalls]
  | put p =>
    simp only [Feeding.step] at hs
    split at hs
    · rename_i cmd hpc
      split at hs <;> cases hs
      rename_i w hw
      obtain ⟨rfl, hlog⟩ := enqueue_spec hw
      obtain ⟨hstopped, ⟨cmds, hqueue⟩, hpc'⟩ := h.queue.unfinished (p := p) (by simp [Producer.finished, hpc])
      refine ⟨strands_update h.strands (fun q hq => ?_) ?_, ?_, ?_, h.inside, ?_⟩
      · rw [strand_snoc, if_neg hq, List.append_nil]
      · rw [strand_snoc, if_pos rfl]
        simp [Producer.ahead, hpc]
      · rw [List.map_append, h.log, hlog]
        rfl
      · exact ⟨h.performed.written, h.performed.marks, h.performed.contents⟩
      · unfold QueueInv
        rw [if_neg (by simp [hstopped])]
        exact ⟨⟨cmds ++ [cmd], by simp [hqueue]⟩, hpc'⟩
    · cases hs
  | full p =>
    simp only [Feeding.step] at hs
    split at hs
    · split at hs <;> cases hs
      exact h
    · cases hs
  | returns p =>
    simp only [Feeding.step] at hs
    split at hs <;> cases hs
    rename_i hpc
    apply h.move
    · simp [Producer.finished, hpc]
    · simp [Producer.ahead, hpc]
  | thread a =>
    simp only [Feeding.step] at hs
    split at hs
    · cases hs
    · rw [Option.map_eq_some_iff] at hs
      obtain ⟨w, hw, rfl⟩ := hs
      exact h.thread htasks hw
  | stop =>
    simp only [Feeding.step] at hs
    split at hs
    · rename_i hgo
      rw [Option.map_eq_some_iff] at hs
      obtain ⟨w, hw, rfl⟩ := hs
      obtain ⟨rfl, hlog⟩ := enqueue_spec hw
      have hqueue := h.queue
      unfold QueueInv at hqueue
      rw [if_neg (by simp [hgo.1])] at hqueue
      obtain ⟨⟨cmds, hcmds⟩, hpc⟩ := hqueue
      refine ⟨h.strands, ?_, ?_, h.inside, ?_⟩
      · rw [h.log, hlog]
        simp
      · exact ⟨h.performed.written, h.performed.marks, h.performed.contents⟩
      · unfold QueueInv
        rw [if_pos rfl]
        exact ⟨hgo.2, .inl ⟨⟨cmds, by rw [← hcmds]⟩, hpc⟩⟩
    · cases hs

theorem Inv.init (file : Bytes) (resumed : List ℕ) (programs : Fin n → List Command) :
    Inv file resumed programs (.init file resumed programs) := by
  refine ⟨fun _ => rfl, rfl, .start resumed file, by simp [Feeding.init], ?_⟩
  unfold QueueInv
  rw [if_neg (by simp [Feeding.init])]
  exact ⟨⟨[], rfl⟩, by simp [Feeding.init]⟩

theorem run_leaves (htasks : Apart file.length programs) {capacity : ℕ} {s : Feeding n}
    {acts : List (FeedingAct n)}
    (hrun : exec (Feeding.step capacity) (.init file resumed programs) acts = some s) (hdone : s.Done) :
    (∀ p, strand p s.sent = programs p) ∧
      Leaves file resumed (s.sent.map Prod.snd) s.writer.file s.writer.diskCompleted := by
  have hinv : Inv file resumed programs s :=
    exec_invariant (fun _ _ _ h hs => h.step htasks hs) (Inv.init file resumed programs) hrun
  have hqueue := hinv.queue
  unfold QueueInv at hqueue
  rw [if_pos hdone.1] at hqueue
  obtain ⟨hall, ⟨-, hpc⟩ | ⟨hempty, hpc⟩⟩ := hqueue
  · exact absurd hdone.2 hpc
  have hstrands : ∀ p, strand p s.sent = programs p := by
    intro p
    have hp := hinv.strands p
    obtain ⟨hcalls, hready⟩ := hall p
    rwa [Producer.ahead, hready, hcalls, List.append_nil] at hp
  have hpending : s.writer.pending = [] := by
    rw [DiskWriter.pending, DiskWriter.hand, hpc, hempty]
    rfl
  have hlog : s.sent.map Prod.snd = s.writer.executed := by
    rw [hinv.log, DiskWriter.log, hpending, List.append_nil]
  have hnot : ∀ k, .truncate k ∉ s.writer.executed := by
    intro k hmem
    rw [← hlog] at hmem
    obtain ⟨p, hp⟩ := mem_entries.mp hmem
    exact htasks.whole p k (hstrands p ▸ hp)
  have hfile := hinv.performed.contents hnot
  refine ⟨hstrands, ?_, fun b hb => ?_, fun i => ?_⟩
  · rw [hfile]
    exact writeAll_length hinv.inside
  · have hwritten := hinv.performed.written b
    rw [DiskWriter.begun, hpc, List.append_nil] at hwritten
    rw [hfile, writeAll_getElem? hb, hwritten, hlog]
  · rw [hlog]
    exact hinv.performed.marks i

end Feeding

/-- On a file of its full size the two writers are interchangeable: whatever the schedules of tasks and
threads, the sizes of the queue and of the single `pwrite`s, both leave the same file and the same chunks
on disk. -/
theorem writers_agree {capacity : ℕ} (htasks : Apart file.length programs) {s : Feeding n} {t : Mapping n}
    {acts : List (FeedingAct n)} {acts' : List (MappingAct n)}
    (hrun : exec (Feeding.step capacity) (.init file resumed programs) acts = some s) (hdone : s.Done)
    (hrun' : exec Mapping.step (.init file resumed programs) acts' = some t) (hdone' : t.Done) :
    s.writer.file = t.writer.file ∧ ∀ i, s.writer.isOnDisk i = t.writer.isOnDisk i := by
  obtain ⟨hs, hleaves⟩ := Feeding.run_leaves htasks hrun hdone
  obtain ⟨ht, hleaves'⟩ := Mapping.run_leaves htasks hrun' hdone'
  obtain ⟨hfile, hmarks⟩ := leaves_eq htasks hs ht hleaves hleaves'
  exact ⟨hfile, fun i => decide_eq_decide.mpr (hmarks i)⟩

private def twoTasks : Fin 2 → List Command
  | 0 => [.write 0 [1], .mark 0]
  | 1 => [.write 1 [2, 3], .mark 1]

/-- The queue holds one command; task `1` finds it full, and its write goes out in two pieces. -/
private def queued : List (FeedingAct 2) :=
  [.call 0, .call 1, .put 0, .full 1, .returns 0, .thread .poll, .thread .get, .put 1, .returns 1,
    .thread (.pwrite 1), .thread .done, .thread .poll, .thread .get, .thread (.pwrite 1), .call 0, .put 0,
    .returns 0, .thread (.pwrite 1), .thread .done, .thread .poll, .thread .get, .thread .done, .call 1,
    .put 1, .returns 1, .thread .poll, .thread .get, .thread .done, .stop, .thread .poll, .thread .get]

private def mapped : List (MappingAct 2) := [.start, .call 1, .call 0, .call 1, .call 0, .stop]

private theorem twoTasks_apart : Apart ([0, 0, 0] : Bytes).length twoTasks where
  inside := by
    rw [Fin.forall_fin_two]
    simp [twoTasks]
  whole := by
    rw [Fin.forall_fin_two]
    simp [twoTasks]
  apart := by
    rw [Fin.forall_fin_two]
    constructor
    all_goals
      rw [Fin.forall_fin_two]
      simp [twoTasks, Command.Covers]
      try omega

theorem writers_agree_two :
    ∃ s t, exec (Feeding.step 1) (.init [0, 0, 0] [] twoTasks) queued = some s ∧ s.Done ∧
      exec Mapping.step (.init [0, 0, 0] [] twoTasks) mapped = some t ∧ t.Done ∧
      s.writer.file = t.writer.file ∧ ∀ i, s.writer.isOnDisk i = t.writer.isOnDisk i := by
  have hrun : exec (Feeding.step 1) (.init [0, 0, 0] [] twoTasks) queued =
      some ((exec (Feeding.step 1) (.init [0, 0, 0] [] twoTasks) queued).get rfl) := rfl
  have hrun' : exec Mapping.step (.init [0, 0, 0] [] twoTasks) mapped =
      some ((exec Mapping.step (.init [0, 0, 0] [] twoTasks) mapped).get rfl) := rfl
  exact ⟨_, _, hrun, ⟨rfl, rfl⟩, hrun', rfl, writers_agree twoTasks_apart hrun ⟨rfl, rfl⟩ hrun' rfl⟩

end Mrdl.Writer
