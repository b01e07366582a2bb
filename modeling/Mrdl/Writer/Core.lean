import Mrdl.Writer.Commands

/-! # `DiskWriter`

The writer's thread and its bounded queue. The thread tests the stop event, waits for a command,
carries it out and begins again; every `pwrite` is a step of its own. Beside the fields of the class
the machine keeps what the thread has carried out and every `pwrite` it made. Everything that was ever
put in the queue is then in `log`, in that order, and only a put changes it.
-/

namespace Mrdl.Writer
open FileBytes
set_option autoImplicit false

/-- The `maxsize` of the queue. -/
def maxsize : ℕ := 128

/-- Where the thread stands. `broken` is a thread that died of an exception, with the command it had
in its hands. -/
inductive ThreadPc
  | checking
  | getting
  | working (cmd : Command) (written : ℕ)
  | broken (cmd : Command) (written : ℕ)
  | exited
  deriving DecidableEq, Repr

structure DiskWriter where
  queue : List (Option Command) := []
  pc : ThreadPc := .checking
  diskCompleted : List ℕ
  file : Bytes
  executed : List Command := []
  pwrites : List (Write UInt8) := []
  deriving DecidableEq, Repr

inductive ThreadAct
  | poll
  | get
  | getTimeout
  | pwrite (n : ℕ)
  | done
  | fail
  deriving DecidableEq, Repr

namespace DiskWriter

/-- `self._queue.put`, when there is room. -/
def put (w : DiskWriter) (x : Option Command) : Option DiskWriter :=
  if w.queue.length < maxsize then some { w with queue := w.queue ++ [x] } else none

/-- `is_on_disk`. -/
def isOnDisk (w : DiskWriter) (i : ℕ) : Bool := decide (i ∈ w.diskCompleted)

/-- One step of `_run`. A `pwrite` may write fewer bytes than asked for; when it writes none, raises,
or finds the descriptor closed, the thread ends. -/
def step (stopThread fdOpen : Bool) (w : DiskWriter) : ThreadAct → Option DiskWriter
  | .poll =>
      match w.pc with
      | .checking => some { w with pc := if stopThread then .exited else .getting }
      | _ => none
  | .get =>
      match w.pc, w.queue with
      | .getting, some cmd :: rest => some { w with queue := rest, pc := .working cmd 0 }
      | .getting, none :: rest => some { w with queue := rest, pc := .exited }
      | _, _ => none
  | .getTimeout =>
      match w.pc, w.queue with
      | .getting, [] => some { w with pc := .checking }
      | _, _ => none
  | .pwrite n =>
      match w.pc with
      | .working (.write offset data) written =>
          if fdOpen = true ∧ 0 < n ∧ written + n ≤ data.length then
            let piece := (data.drop written).take n
            some
              { w with
                pc := .working (.write offset data) (written + n)
                file := writeAt w.file (offset + written) piece
                pwrites := w.pwrites ++ [(offset + written, piece)] }
          else none
      | _ => none
  | .done =>
      match w.pc with
      | .working (.write offset data) written =>
          if data.length ≤ written then
            some { w with pc := .checking, executed := w.executed ++ [.write offset data] }
          else none
      | .working (.mark i) _ =>
          some
            { w with
              pc := .checking
              executed := w.executed ++ [.mark i]
              diskCompleted := if i ∈ w.diskCompleted then w.diskCompleted else w.diskCompleted ++ [i] }
      | .working (.truncate n) _ =>
          if fdOpen then
            some
              { w with
                pc := .checking
                executed := w.executed ++ [.truncate n]
                file := resize w.file n }
          else none
      | _ => none
  | .fail =>
      match w.pc with
      | .working (.write offset data) written =>
          if written < data.length then some { w with pc := .broken (.write offset data) written }
          else none
      | .working (.truncate n) written => some { w with pc := .broken (.truncate n) written }
      | _ => none

/-! ## The commands -/

/-- The command in the thread's hands. -/
def hand (w : DiskWriter) : List Command :=
  match w.pc with
  | .working cmd _ | .broken cmd _ => [cmd]
  | _ => []

/-- What the thread has not finished: the command in its hands, then the queue. -/
def pending (w : DiskWriter) : List Command := w.hand ++ w.queue.filterMap id

/-- Everything that was put in the queue. -/
def log (w : DiskWriter) : List Command := w.executed ++ w.pending

/-- The part of the command in hand that is written. -/
def begun (w : DiskWriter) : List (Write UInt8) :=
  match w.pc with
  | .working (.write offset data) written | .broken (.write offset data) written =>
      [(offset, data.take written)]
  | _ => []

theorem queued_snoc (queue : List (Option Command)) (x : Option Command) :
    (queue ++ [x]).filterMap id = queue.filterMap id ++ x.toList := by
  rw [List.filterMap_append]
  cases x <;> rfl

theorem put_pending {w w' : DiskWriter} {x : Option Command} (h : w.put x = some w') :
    w'.executed = w.executed ∧ w'.pending = w.pending ++ x.toList := by
  simp only [put, Option.ite_none_right_eq_some, Option.some.injEq] at h
  obtain ⟨-, rfl⟩ := h
  refine ⟨rfl, ?_⟩
  simp only [pending, hand, queued_snoc, List.append_assoc]

theorem put_log {w w' : DiskWriter} {x : Option Command} (h : w.put x = some w') :
    w'.log = w.log ++ x.toList := by
  obtain ⟨hexec, hpending⟩ := put_pending h
  rw [log, log, hexec, hpending, List.append_assoc]

/-- What one step of the thread can do: wait or take a command, write a piece of the write in hand, or
be done with the command in hand. -/
inductive ThreadMove (w : DiskWriter) : DiskWriter → Prop
  | waits (w' : DiskWriter) (file : w'.file = w.file) (pwrites : w'.pwrites = w.pwrites)
      (executed : w'.executed = w.executed) (disk : w'.diskCompleted = w.diskCompleted)
      (pending : w'.pending = w.pending) (begun : ∀ b, lastWritten w'.begun b = lastWritten w.begun b) :
      ThreadMove w w'
  | pwrote (offset written n : ℕ) (data : Bytes) (pc : w.pc = .working (.write offset data) written)
      (fits : written + n ≤ data.length) :
      ThreadMove w
        { w with
          pc := .working (.write offset data) (written + n)
          file := writeAt w.file (offset + written) ((data.drop written).take n)
          pwrites := w.pwrites ++ [(offset + written, (data.drop written).take n)] }
  | wrote (offset written : ℕ) (data : Bytes) (pc : w.pc = .working (.write offset data) written)
      (all : data.length ≤ written) :
      ThreadMove w { w with pc := .checking, executed := w.executed ++ [.write offset data] }
  | marked (i written : ℕ) (pc : w.pc = .working (.mark i) written) :
      ThreadMove w
        { w with
          pc := .checking
          executed := w.executed ++ [.mark i]
          diskCompleted := if i ∈ w.diskCompleted then w.diskCompleted else w.diskCompleted ++ [i] }
  | truncated (n written : ℕ) (pc : w.pc = .working (.truncate n) written) :
      ThreadMove w
        { w with pc := .checking, executed := w.executed ++ [.truncate n], file := resize w.file n }

theorem step_moves {stopThread fdOpen : Bool} {w w' : DiskWriter} {a : ThreadAct}
    (h : w.step stopThread fdOpen a = some w') : ThreadMove w w' := by
  cases a with
  | poll =>
    simp only [step] at h
    split at h <;> cases h
    rename_i hpc
    refine .waits _ rfl rfl rfl rfl ?_ fun b => ?_
    · unfold pending hand
      rw [hpc]
      cases stopThread <;> rfl
    · unfold begun
      rw [hpc]
      cases stopThread <;> rfl
  | get =>
    simp only [step] at h
    split at h <;> cases h
    · rename_i cmd rest hpc hqueue
      refine .waits _ rfl rfl rfl rfl ?_ fun b => ?_
      · unfold pending hand
        rw [hpc, hqueue]
        rfl
      · unfold begun
        rw [hpc]
        cases cmd with
        | write offset data =>
          simp only [List.take_zero, lastWritten_single, lastWritten_nil]
          exact ite_self _
        | mark i => rfl
        | truncate n => rfl
    · rename_i rest hpc hqueue
      refine .waits _ rfl rfl rfl rfl ?_ fun b => ?_
      · unfold pending hand
        rw [hpc, hqueue]
        rfl
      · unfold begun
        rw [hpc]
  | getTimeout =>
    simp only [step] at h
    split at h <;> cases h
    rename_i hpc hqueue
    refine .waits _ rfl rfl rfl rfl ?_ fun b => ?_
    · unfold pending hand
      rw [hpc]
    · unfold begun
      rw [hpc]
  | pwrite n =>
    simp only [step] at h
    split at h
    · split at h <;> cases h
      rename_i offset data written hpc hn
      exact .pwrote offset written n data hpc hn.2.2
    · cases h
  | done =>
    simp only [step] at h
    split at h
    · split at h <;> cases h
      rename_i offset data written hpc hall
      exact .wrote offset written data hpc hall
    · cases h
      rename_i i written hpc
      exact .marked i written hpc
    · split at h <;> cases h
      rename_i n written hpc _
      exact .truncated n written hpc
    · cases h
  | fail =>
    simp only [step] at h
    split at h
    · split at h <;> cases h
      rename_i hpc _
      refine .waits _ rfl rfl rfl rfl ?_ fun b => ?_
      · unfold pending hand
        rw [hpc]
      · unfold begun
        rw [hpc]
    · cases h
      rename_i hpc
      refine .waits _ rfl rfl rfl rfl ?_ fun b => ?_
      · unfold pending hand
        rw [hpc]
      · unfold begun
        rw [hpc]
    · cases h

theorem hand_of_working {w : DiskWriter} {cmd : Command} {written : ℕ} (h : w.pc = .working cmd written) :
    w.hand = [cmd] := by
  rw [hand, h]

/-- The thread takes the commands in their order. -/
theorem step_pending {stopThread fdOpen : Bool} {w w' : DiskWriter} {a : ThreadAct}
    (h : w.step stopThread fdOpen a = some w') :
    ∃ cmds, w'.executed = w.executed ++ cmds ∧ w.pending = cmds ++ w'.pending := by
  cases step_moves h with
  | waits w' file pwrites executed disk pending begun =>
    exact ⟨[], executed.trans (List.append_nil _).symm, pending.symm⟩
  | pwrote offset written n data pc fits =>
    refine ⟨[], (List.append_nil _).symm, ?_⟩
    rw [pending, hand_of_working pc]
    rfl
  | wrote offset written data pc all =>
    refine ⟨[.write offset data], rfl, ?_⟩
    rw [pending, hand_of_working pc]
    rfl
  | marked i written pc =>
    refine ⟨[.mark i], rfl, ?_⟩
    rw [pending, hand_of_working pc]
    rfl
  | truncated n written pc =>
    refine ⟨[.truncate n], rfl, ?_⟩
    rw [pending, hand_of_working pc]
    rfl

theorem step_log {stopThread fdOpen : Bool} {w w' : DiskWriter} {a : ThreadAct}
    (h : w.step stopThread fdOpen a = some w') : w'.log = w.log := by
  obtain ⟨cmds, hexec, hpending⟩ := step_pending h
  rw [log, log, hexec, hpending, List.append_assoc]

/-- A step changes the file only where the command in hand puts bytes. -/
theorem step_file {stopThread fdOpen : Bool} {w w' : DiskWriter} {a : ThreadAct}
    (hno : ∀ n, .truncate n ∉ w.hand) (h : w.step stopThread fdOpen a = some w') :
    w.file.length ≤ w'.file.length ∧ ∀ b < w.file.length, (∀ cmd ∈ w.hand, ¬ cmd.Covers b) →
      w'.file[b]? = w.file[b]? := by
  cases step_moves h with
  | waits w' file pwrites executed disk pending begun =>
    rw [file]
    exact ⟨Nat.le_refl _, fun _ _ _ => rfl⟩
  | pwrote offset written n data pc fits =>
    refine ⟨le_writeAt_length _ _ _, fun b hb hcov => writeAt_getElem?_outside hb ?_⟩
    rw [hand_of_working pc] at hcov
    have hhand := hcov (.write offset data) (List.mem_singleton.mpr rfl)
    simp only [Command.Covers] at hhand
    simp only [List.length_take, List.length_drop]
    omega
  | wrote | marked => exact ⟨Nat.le_refl _, fun _ _ _ => rfl⟩
  | truncated n written pc =>
    refine absurd ?_ (hno n)
    rw [hand_of_working pc]
    exact List.mem_singleton.mpr rfl

theorem step_isOnDisk {stopThread fdOpen : Bool} {w w' : DiskWriter} {a : ThreadAct} {i : ℕ}
    (hi : w.isOnDisk i = true) (h : w.step stopThread fdOpen a = some w') : w'.isOnDisk i = true := by
  cases step_moves h with
  | waits w' file pwrites executed disk pending begun =>
    rw [isOnDisk, disk]
    exact hi
  | marked j written pc =>
    refine decide_eq_true ?_
    have hmem := of_decide_eq_true hi
    dsimp only
    split
    · exact hmem
    · exact List.mem_append_left _ hmem
  | pwrote | wrote | truncated => exact hi

/-! ## What the thread has done -/

/-- The `pwrite`s made so far put the bytes of the executed commands, and of the one begun; the chunks
on disk are those resumed from and those whose mark was executed. -/
structure Performed (resumed : List ℕ) (file : Bytes) (w : DiskWriter) : Prop where
  written : ∀ b, lastWritten w.pwrites b = lastWritten (writesOf w.executed ++ w.begun) b
  marks : ∀ i, i ∈ w.diskCompleted ↔ i ∈ resumed ∨ .mark i ∈ w.executed
  contents : (∀ n, .truncate n ∉ w.executed) → w.file = writeAll file w.pwrites

theorem Performed.start (resumed : List ℕ) (file : Bytes) :
    Performed resumed file { diskCompleted := resumed, file := file } :=
  ⟨fun _ => rfl, fun _ => by simp, fun _ => rfl⟩

theorem Performed.put {resumed : List ℕ} {file : Bytes} {w w' : DiskWriter} {x : Option Command}
    (hw : Performed resumed file w) (h : w.put x = some w') : Performed resumed file w' := by
  simp only [DiskWriter.put, Option.ite_none_right_eq_some, Option.some.injEq] at h
  obtain ⟨-, rfl⟩ := h
  exact ⟨hw.written, hw.marks, hw.contents⟩

theorem Performed.settled {resumed : List ℕ} {file : Bytes} {w : DiskWriter} {b : ℕ}
    (hw : Performed resumed file w) (hno : ∀ cmd ∈ w.pending, ¬ cmd.Covers b) :
    lastWritten w.pwrites b = lastWritten (writesOf w.log) b := by
  have hbegun : lastWritten w.begun b = none := by
    refine lastWritten_eq_none fun x hx hcov => ?_
    have hhand : ∀ cmd ∈ w.hand, ¬ cmd.Covers b := fun cmd hcmd => hno cmd (List.mem_append_left _ hcmd)
    unfold begun at hx
    unfold hand at hhand
    split at hx
    · rename_i offset data written hpc
      rw [List.mem_singleton.mp hx] at hcov
      simp only [List.length_take] at hcov
      refine hhand (.write offset data) ?_ ⟨hcov.1, by omega⟩
      rw [hpc]
      exact List.mem_singleton.mpr rfl
    · rename_i offset data written hpc
      rw [List.mem_singleton.mp hx] at hcov
      simp only [List.length_take] at hcov
      refine hhand (.write offset data) ?_ ⟨hcov.1, by omega⟩
      rw [hpc]
      exact List.mem_singleton.mpr rfl
    · cases hx
  rw [hw.written, lastWritten_append, hbegun, Option.none_or, log, lastWritten_append_of_not_covers hno]

theorem lastWritten_grow (ws : List (Write UInt8)) (offset written n b : ℕ) (data : Bytes)
    (hn : written + n ≤ data.length) :
    lastWritten (ws ++ [(offset, data.take (written + n))]) b =
      (lastWritten [(offset + written, (data.drop written).take n)] b).or
        (lastWritten (ws ++ [(offset, data.take written)]) b) := by
  rw [lastWritten_append, lastWritten_append, lastWritten_single, lastWritten_single,
    lastWritten_single]
  by_cases hlow : offset ≤ b
  · rw [if_pos hlow, if_pos hlow]
    by_cases hmid : offset + written ≤ b
    · have hold : (data.take written)[b - offset]? = none :=
        List.getElem?_eq_none (by rw [List.length_take]; omega)
      have hnew : (data.take (written + n))[b - offset]? =
          ((data.drop written).take n)[b - (offset + written)]? := by
        simp only [List.getElem?_take, List.getElem?_drop]
        rw [show written + (b - (offset + written)) = b - offset by omega]
        by_cases hin : b - offset < written + n
        · rw [if_pos hin, if_pos (by omega)]
        · rw [if_neg hin, if_neg (by omega)]
      rw [if_pos hmid, hold, hnew, Option.none_or]
    · have hkeep : (data.take (written + n))[b - offset]? = (data.take written)[b - offset]? := by
        simp only [List.getElem?_take]
        rw [if_pos (by omega), if_pos (by omega)]
      rw [if_neg hmid, hkeep, Option.none_or]
  · rw [if_neg hlow, if_neg hlow, if_neg (by omega)]
    rfl

theorem Performed.step {resumed : List ℕ} {file : Bytes} {stopThread fdOpen : Bool} {w w' : DiskWriter}
    {a : ThreadAct} (hw : Performed resumed file w) (h : w.step stopThread fdOpen a = some w') :
    Performed resumed file w' := by
  cases step_moves h with
  | waits w' hfile hpwrites hexecuted hdisk hpending hbegun =>
    refine ⟨fun b => ?_, fun i => ?_, fun hno => ?_⟩
    · rw [hpwrites, hexecuted, lastWritten_append, hbegun, ← lastWritten_append]
      exact hw.written b
    · rw [hdisk, hexecuted]
      exact hw.marks i
    · rw [hfile, hpwrites]
      rw [hexecuted] at hno
      exact hw.contents hno
  | pwrote offset written n data pc fits =>
    refine ⟨fun b => ?_, hw.marks, fun hno => ?_⟩
    · have hwritten := hw.written b
      rw [begun, pc] at hwritten
      rw [lastWritten_append, hwritten]
      exact (lastWritten_grow (writesOf w.executed) offset written n b data fits).symm
    · rw [writeAll_append, ← hw.contents hno]
      rfl
  | wrote offset written data pc all =>
    refine ⟨fun b => ?_, fun i => ?_, fun hno => ?_⟩
    · have hwritten := hw.written b
      rw [begun, pc] at hwritten
      simp only [List.take_of_length_le all] at hwritten
      rw [hwritten, begun, List.append_nil, writesOf_append]
      rfl
    · rw [hw.marks i]
      simp
    · exact hw.contents fun n hmem => hno n (List.mem_append_left _ hmem)
  | marked i written pc =>
    refine ⟨fun b => ?_, fun j => ?_, fun hno => ?_⟩
    · have hwritten := hw.written b
      rw [begun, pc, List.append_nil] at hwritten
      rw [hwritten, begun, List.append_nil, writesOf_append]
      simp
    · have hmarks := hw.marks j
      by_cases hmem : i ∈ w.diskCompleted
      · simp only [if_pos hmem, List.mem_append, List.mem_singleton, Command.mark.injEq]
        rw [hmarks]
        refine ⟨fun hj => hj.imp id Or.inl, fun hj => ?_⟩
        rcases hj with hj | hj | rfl
        · exact Or.inl hj
        · exact Or.inr hj
        · exact (hw.marks j).mp hmem
      · simp only [if_neg hmem, List.mem_append, List.mem_singleton, Command.mark.injEq]
        rw [hmarks]
        exact or_assoc
    · exact hw.contents fun n hmem => hno n (List.mem_append_left _ hmem)
  | truncated n written pc =>
    refine ⟨fun b => ?_, fun i => ?_, fun hno => ?_⟩
    · have hwritten := hw.written b
      rw [begun, pc, List.append_nil] at hwritten
      rw [hwritten, begun, List.append_nil, writesOf_append]
      simp
    · rw [hw.marks i]
      simp
    · exact absurd (List.mem_append_right _ (List.mem_singleton.mpr rfl)) (hno n)

end DiskWriter

end Mrdl.Writer
