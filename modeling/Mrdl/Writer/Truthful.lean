import Mathlib.Data.List.Forall2
import Mrdl.Writer.Interchange

/-! # `is_on_disk` under faults

The stop event can be set at any moment, by anybody, and is never unset. A task that finds it set drops
its command and returns as if nothing had happened; the writer's thread leaves its loop, or dies in the
middle of a command and sets the event itself. What a task drops it has not put in the queue, and it puts
nothing in after that. So its mark, which it calls last, is only ever carried out behind all of its
other commands (`on_disk_truthful`).
-/

namespace Mrdl.Writer
open FileBytes Runs Strands
set_option autoImplicit false

/-! ## Tasks that look at the stop event -/

/-- Where a task stands in a call: before it, about to look at the stop event, in the executor's `put`,
or with the call over. -/
inductive CallPc
  | ready
  | testing (cmd : Command)
  | putting (cmd : Command)
  | returning
  deriving DecidableEq, Repr

structure Caller where
  calls : List Command
  pc : CallPc := .ready
  deriving DecidableEq, Repr

/-- The call the task is in, unless it is over, and those it has yet to make. -/
def Caller.ahead (c : Caller) : List Command :=
  match c.pc with
  | .testing cmd | .putting cmd => cmd :: c.calls
  | _ => c.calls

structure Supply (n : ℕ) where
  writer : DiskWriter
  stopEvent : Bool := false
  callers : Fin n → Caller
  sent : List (Fin n × Command) := []

inductive SupplyAct (n : ℕ)
  | call (p : Fin n)
  | test (p : Fin n)
  | put (p : Fin n)
  | full (p : Fin n)
  | returns (p : Fin n)
  | thread (a : ThreadAct)
  | raised
  | setStop
  | stop

/-- The calls of one task: writes and truncations, then the mark of its chunk. -/
structure ChunkCalls where
  body : List Command
  index : ℕ
  unmarked : ∀ i, .mark i ∉ body

def ChunkCalls.program (c : ChunkCalls) : List Command := c.body ++ [.mark c.index]

namespace Supply

variable {n : ℕ}

def init (file : Bytes) (resumed : List ℕ) (chunks : Fin n → ChunkCalls) : Supply n where
  writer := { diskCompleted := resumed, file := file }
  callers p := { calls := (chunks p).program }

/-- The task `p` goes on. -/
def goes (s : Supply n) (p : Fin n) (pc : CallPc) (calls : List Command) : Supply n :=
  { s with callers := Function.update s.callers p ⟨calls, pc⟩ }

/-- One step. `full` is a `put` that ran into its timeout, `raised` the handler of the thread's exception,
`stop` the `None` that `DiskWriter.stop` puts in the queue. -/
def step (capacity : ℕ) (s : Supply n) : SupplyAct n → Option (Supply n)
  | .call p =>
      match (s.callers p).pc, (s.callers p).calls with
      | .ready, cmd :: rest => some (s.goes p (.testing cmd) rest)
      | _, _ => none
  | .test p =>
      match (s.callers p).pc with
      | .testing cmd => some (s.goes p (if s.stopEvent then .returning else .putting cmd) (s.callers p).calls)
      | _ => none
  | .put p =>
      match (s.callers p).pc with
      | .putting cmd =>
          (s.writer.enqueue capacity (some cmd)).map fun w =>
            { s.goes p .returning (s.callers p).calls with writer := w, sent := s.sent ++ [(p, cmd)] }
      | _ => none
  | .full p =>
      match (s.callers p).pc with
      | .putting cmd =>
          if capacity ≤ s.writer.queue.length then some (s.goes p (.testing cmd) (s.callers p).calls)
          else none
      | _ => none
  | .returns p =>
      match (s.callers p).pc with
      | .returning => some (s.goes p .ready (s.callers p).calls)
      | _ => none
  | .thread a => (s.writer.step s.stopEvent true a).map fun w => { s with writer := w }
  | .raised =>
      match s.writer.pc with
      | .broken _ _ => some { s with stopEvent := true }
      | _ => none
  | .setStop => some { s with stopEvent := true }
  | .stop => (s.writer.enqueue capacity none).map fun w => { s with writer := w }

/-- The commands carried out, with the tasks they came from. -/
def executed (s : Supply n) : List (Fin n × Command) := s.sent.take s.writer.executed.length

/-- The commands in the thread's hands or still queued, with the tasks they came from. -/
def waiting (s : Supply n) : List (Fin n × Command) := s.sent.drop s.writer.executed.length

end Supply

/-! ## What the thread has written -/

/-- The `pwrite`s of a whole command. -/
def WrittenBy : Command → List (Write UInt8) → Prop
  | .write offset data, ps => Tiles offset ps data
  | _, ps => ps = []

/-- The `pwrite`s of the write in hand. -/
def BegunBy : List (Write UInt8) → List (Write UInt8) → Prop
  | [], ps => ps = []
  | x :: _, ps => Tiles x.1 ps x.2

/-- Every executed command was carried out in full, once, and in the order of the queue: the `pwrite`s
are theirs one after the other, then those of the write in hand, and the file is what comes of that. -/
structure CarriedOut (file : Bytes) (w : DiskWriter) : Prop where
  pieces : ∃ pieces last, List.Forall₂ WrittenBy w.executed pieces ∧ BegunBy w.begun last ∧
    w.pwrites = pieces.flatten ++ last
  contents : w.file = writeAll (performAll file w.executed) w.begun

theorem CarriedOut.start (resumed : List ℕ) (file : Bytes) :
    CarriedOut file { diskCompleted := resumed, file := file } :=
  ⟨⟨[], [], .nil, rfl, rfl⟩, rfl⟩

namespace DiskWriter

theorem begun_of_working {w : DiskWriter} {offset written : ℕ} {data : Bytes}
    (h : w.pc = .working (.write offset data) written) : w.begun = [(offset, data.take written)] := by
  rw [begun, h]

/-- A step without a `pwrite` or the end of a command leaves the write in hand where it was. -/
theorem step_begun {stopThread fdOpen : Bool} {w w' : DiskWriter} {a : ThreadAct}
    (h : w.step stopThread fdOpen a = some w') (hpwrites : w'.pwrites = w.pwrites)
    (hexecuted : w'.executed = w.executed) :
    w'.begun = w.begun ∨ w.begun = [] ∧ ∃ offset, w'.begun = [(offset, [])] := by
  cases a with
  | poll =>
    simp only [step] at h
    split at h <;> cases h
    rename_i hpc
    left
    unfold begun
    rw [hpc]
    cases stopThread <;> rfl
  | get =>
    simp only [step] at h
    split at h <;> cases h
    · rename_i cmd rest hpc hqueue
      unfold begun
      rw [hpc]
      cases cmd with
      | write offset data => exact .inr ⟨rfl, offset, rfl⟩
      | mark | truncate => exact .inl rfl
    · rename_i rest hpc hqueue
      left
      unfold begun
      rw [hpc]
  | getTimeout =>
    simp only [step] at h
    split at h <;> cases h
    rename_i hpc hqueue
    left
    unfold begun
    rw [hpc]
  | pwrite k =>
    simp only [step] at h
    split at h
    · split at h <;> cases h
      simp at hpwrites
    · cases h
  | done =>
    simp only [step] at h
    split at h
    · split at h <;> cases h
      simp at hexecuted
    · cases h
      simp at hexecuted
    · split at h <;> cases h
      simp at hexecuted
    · cases h
  | fail =>
    simp only [step] at h
    split at h
    · split at h <;> cases h
      rename_i hpc _
      left
      unfold begun
      rw [hpc]
    · cases h
      rename_i hpc
      left
      unfold begun
      rw [hpc]
    · cases h

end DiskWriter

theorem BegunBy.step {ws ws' ps : List (Write UInt8)} (h : BegunBy ws ps)
    (hstep : ws' = ws ∨ ws = [] ∧ ∃ offset, ws' = [(offset, [])]) : BegunBy ws' ps := by
  rcases hstep with rfl | ⟨rfl, offset, rfl⟩
  · exact h
  · rw [show ps = [] from h]
    rfl

theorem pieces_finish {w : DiskWriter} {cmd : Command} {ps : List (List (Write UInt8))}
    {last : List (Write UInt8)} (hpieces : List.Forall₂ WrittenBy w.executed ps)
    (hpwrites : w.pwrites = ps.flatten ++ last) (hlast : WrittenBy cmd last) :
    ∃ pieces rest, List.Forall₂ WrittenBy (w.executed ++ [cmd]) pieces ∧ BegunBy [] rest ∧
      w.pwrites = pieces.flatten ++ rest := by
  refine ⟨ps ++ [last], [], ?_, rfl, ?_⟩
  · exact List.rel_append hpieces (.cons hlast .nil)
  · rw [hpwrites, List.flatten_append, List.flatten_singleton, List.append_nil]

theorem CarriedOut.step {file : Bytes} {stopThread fdOpen : Bool} {w w' : DiskWriter} {a : ThreadAct}
    (hw : CarriedOut file w) (h : w.step stopThread fdOpen a = some w') : CarriedOut file w' := by
  obtain ⟨ps, last, hpieces, hlast, hpwrites⟩ := hw.pieces
  have hcontents := hw.contents
  cases DiskWriter.step_moves h with
  | waits w' hfile hpw hexecuted hdisk hpending hbegun =>
    have hstep := DiskWriter.step_begun h hpw hexecuted
    refine ⟨⟨ps, last, hexecuted ▸ hpieces, hlast.step hstep, hpw.trans hpwrites⟩, ?_⟩
    rw [hfile, hcontents, hexecuted]
    rcases hstep with hstep | ⟨hnone, offset, hstep⟩
    · rw [hstep]
    · rw [hstep, hnone]
      rfl
  | pwrote offset written k data pc fits =>
    rw [DiskWriter.begun_of_working pc] at hlast hcontents
    have hlen : (data.take written).length = written := by
      rw [List.length_take]
      omega
    have htake : data.take (written + k) = data.take written ++ (data.drop written).take k := List.take_add
    refine ⟨⟨ps, last ++ [(offset + written, (data.drop written).take k)], hpieces, ?_, ?_⟩, ?_⟩
    · have htiles := Tiles.snoc hlast ((data.drop written).take k)
      rw [hlen, ← htake] at htiles
      exact htiles
    · rw [hpwrites, List.append_assoc]
    · have hpiece := writeAt_writeAt (performAll file w.executed) (data.take written)
        ((data.drop written).take k) offset
      rw [hlen, ← htake] at hpiece
      rw [hcontents]
      exact hpiece
  | wrote offset written data pc all =>
    rw [DiskWriter.begun_of_working pc, List.take_of_length_le all] at hlast hcontents
    refine ⟨pieces_finish hpieces hpwrites hlast, ?_⟩
    rw [performAll_append]
    exact hcontents
  | marked i written pc =>
    rw [DiskWriter.begun, pc] at hlast hcontents
    refine ⟨pieces_finish hpieces hpwrites hlast, ?_⟩
    rw [performAll_append]
    exact hcontents
  | truncated k written pc =>
    rw [DiskWriter.begun, pc] at hlast hcontents
    refine ⟨pieces_finish hpieces hpwrites hlast, ?_⟩
    rw [performAll_append]
    exact congrArg (resize · k) hcontents

/-! ## What a task has put in the queue -/

variable {n : ℕ} {file : Bytes} {resumed : List ℕ} {chunks : Fin n → ChunkCalls}

/-- Every task marks a chunk of its own, and none that was complete before. -/
structure OwnChunks (resumed : List ℕ) (chunks : Fin n → ChunkCalls) : Prop where
  own : ∀ p q, (chunks p).index = (chunks q).index → p = q
  fresh : ∀ p, (chunks p).index ∉ resumed

namespace Supply

/-- What a task has put in the queue is the beginning of its program. Either the rest is all still ahead
of it, or it has dropped a command, and will drop all that follow. -/
def Issued (chunks : Fin n → ChunkCalls) (s : Supply n) (p : Fin n) : Prop :=
  ∃ missed, strand p s.sent ++ missed = (chunks p).program ∧
    (missed = (s.callers p).ahead ∨
      s.stopEvent = true ∧ missed ≠ [] ∧ ∀ cmd, (s.callers p).pc ≠ .putting cmd)

structure Inv (file : Bytes) (resumed : List ℕ) (chunks : Fin n → ChunkCalls) (s : Supply n) : Prop where
  issued : ∀ p, s.Issued chunks p
  log : s.sent.map Prod.snd = s.writer.log
  performed : DiskWriter.Performed resumed file s.writer
  carried : CarriedOut file s.writer

theorem Inv.init (file : Bytes) (resumed : List ℕ) (chunks : Fin n → ChunkCalls) :
    Inv file resumed chunks (.init file resumed chunks) :=
  ⟨fun p => ⟨(chunks p).program, rfl, .inl rfl⟩, rfl, .start resumed file, .start resumed file⟩

theorem Inv.goes {s : Supply n} (h : Inv file resumed chunks s) {p : Fin n} {pc : CallPc}
    {calls : List Command} (hp : (s.goes p pc calls).Issued chunks p) :
    Inv file resumed chunks (s.goes p pc calls) := by
  refine ⟨fun q => ?_, h.log, h.performed, h.carried⟩
  by_cases hq : q = p
  · rw [hq]
    exact hp
  · obtain ⟨missed, hprogram, hmissed⟩ := h.issued q
    refine ⟨missed, hprogram, ?_⟩
    rw [show (s.goes p pc calls).callers q = s.callers q from Function.update_of_ne hq _ _]
    exact hmissed

theorem goes_self (s : Supply n) (p : Fin n) (pc : CallPc) (calls : List Command) :
    (s.goes p pc calls).callers p = ⟨calls, pc⟩ := Function.update_self _ _ _

/-- The task goes on to where it has the same calls ahead, and to no `put` once it has dropped one. -/
theorem Issued.goes {s : Supply n} {p : Fin n} (h : s.Issued chunks p) {pc : CallPc} {calls : List Command}
    (hahead : (Caller.mk calls pc).ahead = (s.callers p).ahead)
    (hput : ∀ cmd, pc = .putting cmd → s.stopEvent = false) : (s.goes p pc calls).Issued chunks p := by
  obtain ⟨missed, hprogram, hmissed⟩ := h
  refine ⟨missed, hprogram, ?_⟩
  rw [goes_self, hahead]
  refine hmissed.imp_right fun ⟨hstop, hne, _⟩ => ⟨hstop, hne, fun cmd hpc => ?_⟩
  have hstop' : s.stopEvent = false := hput cmd hpc
  rw [show s.stopEvent = true from hstop] at hstop'
  cases hstop'

/-- A task in a `put` has dropped nothing. -/
theorem Issued.putting {s : Supply n} {p : Fin n} (h : s.Issued chunks p) {cmd : Command}
    (hpc : (s.callers p).pc = .putting cmd) :
    strand p s.sent ++ cmd :: (s.callers p).calls = (chunks p).program := by
  obtain ⟨missed, hprogram, rfl | ⟨-, -, hno⟩⟩ := h
  · rwa [Caller.ahead, hpc] at hprogram
  · exact absurd hpc (hno cmd)

theorem Issued.drop {s : Supply n} {p : Fin n} (h : s.Issued chunks p) {cmd : Command}
    (hpc : (s.callers p).pc = .testing cmd) (hstop : s.stopEvent = true) :
    (s.goes p .returning (s.callers p).calls).Issued chunks p := by
  obtain ⟨missed, hprogram, hmissed⟩ := h
  refine ⟨missed, hprogram, .inr ⟨hstop, ?_, ?_⟩⟩
  · rcases hmissed with rfl | ⟨-, hne, -⟩
    · simp [Caller.ahead, hpc]
    · exact hne
  · rw [goes_self]
    exact fun _ => CallPc.noConfusion

theorem Inv.put {capacity : ℕ} {s : Supply n} (h : Inv file resumed chunks s) {p : Fin n} {cmd : Command}
    (hpc : (s.callers p).pc = .putting cmd) {w : DiskWriter}
    (hw : s.writer.enqueue capacity (some cmd) = some w) :
    Inv file resumed chunks
      { s.goes p .returning (s.callers p).calls with writer := w, sent := s.sent ++ [(p, cmd)] } := by
  obtain ⟨rfl, hlog⟩ := Feeding.enqueue_spec hw
  refine ⟨fun q => ?_, ?_, ⟨h.performed.written, h.performed.marks, h.performed.contents⟩,
    ⟨h.carried.pieces, h.carried.contents⟩⟩
  · by_cases hq : q = p
    · subst hq
      refine ⟨(s.callers q).calls, ?_, .inl ?_⟩
      · rw [strand_snoc, if_pos rfl, List.append_assoc]
        exact (h.issued q).putting hpc
      · show (s.callers q).calls = ((s.goes q .returning (s.callers q).calls).callers q).ahead
        rw [goes_self]
        rfl
    · obtain ⟨missed, hprogram, hmissed⟩ := h.issued q
      refine ⟨missed, ?_, ?_⟩
      · rw [strand_snoc, if_neg hq, List.append_nil]
        exact hprogram
      · show missed = ((s.goes p .returning _).callers q).ahead ∨ _ ∧ _ ∧
          ∀ cmd, ((s.goes p .returning _).callers q).pc ≠ _
        rw [show (s.goes p .returning _).callers q = s.callers q from Function.update_of_ne hq _ _]
        exact hmissed
  · rw [List.map_append, h.log, hlog]
    rfl

theorem Inv.setStop {s : Supply n} (h : Inv file resumed chunks s) :
    Inv file resumed chunks { s with stopEvent := true } := by
  refine ⟨fun q => ?_, h.log, h.performed, h.carried⟩
  obtain ⟨missed, hprogram, hmissed⟩ := h.issued q
  exact ⟨missed, hprogram, hmissed.imp_right fun hdropped => ⟨rfl, hdropped.2⟩⟩

theorem Inv.step {capacity : ℕ} {s s' : Supply n} {a : SupplyAct n} (h : Inv file resumed chunks s)
    (hs : s.step capacity a = some s') : Inv file resumed chunks s' := by
  cases a with
  | call p =>
    simp only [Supply.step] at hs
    split at hs <;> cases hs
    rename_i cmd rest hpc hcalls
    exact h.goes ((h.issued p).goes (by simp [Caller.ahead, hpc, hcalls]) (by simp))
  | test p =>
    simp only [Supply.step] at hs
    split at hs <;> cases hs
    rename_i cmd hpc
    apply h.goes
    split
    · rename_i hstop
      exact (h.issued p).drop hpc hstop
    · rename_i hstop
      exact (h.issued p).goes (by simp [Caller.ahead, hpc]) (fun _ _ => by simpa using hstop)
  | put p =>
    simp only [Supply.step] at hs
    split at hs
    · rename_i cmd hpc
      obtain ⟨w, hw, rfl⟩ := Option.map_eq_some_iff.mp hs
      exact h.put hpc hw
    · cases hs
  | full p =>
    simp only [Supply.step] at hs
    split at hs
    · rename_i cmd hpc
      split at hs <;> cases hs
      exact h.goes ((h.issued p).goes (by simp [Caller.ahead, hpc]) (by simp))
    · cases hs
  | returns p =>
    simp only [Supply.step] at hs
    split at hs <;> cases hs
    rename_i hpc
    exact h.goes ((h.issued p).goes (by simp [Caller.ahead, hpc]) (by simp))
  | thread a =>
    obtain ⟨w, hw, rfl⟩ := Option.map_eq_some_iff.mp hs
    exact ⟨h.issued, h.log.trans (DiskWriter.step_log hw).symm, h.performed.step hw, h.carried.step hw⟩
  | raised =>
    simp only [Supply.step] at hs
    split at hs <;> cases hs
    exact h.setStop
  | setStop =>
    cases hs
    exact h.setStop
  | stop =>
    obtain ⟨w, hw, rfl⟩ := Option.map_eq_some_iff.mp hs
    obtain ⟨rfl, hlog⟩ := Feeding.enqueue_spec hw
    refine ⟨h.issued, ?_, ⟨h.performed.written, h.performed.marks, h.performed.contents⟩,
      ⟨h.carried.pieces, h.carried.contents⟩⟩
    rw [hlog, Option.toList_none, List.append_nil]
    exact h.log

end Supply

/-! ## The mark is the last command -/

theorem append_eq_snoc {α : Type*} {l m xs : List α} {x : α} (h : l ++ m = xs ++ [x]) (hmem : x ∈ l)
    (hnot : x ∉ xs) : l = xs ++ [x] ∧ m = [] := by
  rcases List.eq_nil_or_concat m with rfl | ⟨m', y, rfl⟩
  · exact ⟨by rwa [List.append_nil] at h, rfl⟩
  · rw [List.concat_eq_append, ← List.append_assoc] at h
    obtain ⟨hxs, -⟩ := List.append_inj' h rfl
    exact absurd (hxs ▸ List.mem_append_left m' hmem) hnot

/-- When the chunk of a task counts as on disk, all that the task called before its mark is carried out,
in full, once, and in the order of its calls, and none of it is left in the queue. -/
theorem on_disk_truthful {capacity : ℕ} (hown : OwnChunks resumed chunks) {s : Supply n}
    {acts : List (SupplyAct n)}
    (hrun : exec (Supply.step capacity) (.init file resumed chunks) acts = some s) {p : Fin n}
    (hon : s.writer.isOnDisk (chunks p).index = true) :
    (strand p s.executed = (chunks p).program ∧ strand p s.waiting = []) ∧
      s.executed.map Prod.snd = s.writer.executed ∧ s.waiting.map Prod.snd = s.writer.pending ∧
      CarriedOut file s.writer := by
  have hinv : Supply.Inv file resumed chunks s :=
    exec_invariant (fun _ _ _ h hs => h.step hs) (Supply.Inv.init file resumed chunks) hrun
  have hexecuted : s.executed.map Prod.snd = s.writer.executed := by
    rw [Supply.executed, List.map_take, hinv.log, DiskWriter.log, List.take_left]
  have hwaiting : s.waiting.map Prod.snd = s.writer.pending := by
    rw [Supply.waiting, List.map_drop, hinv.log, DiskWriter.log, List.drop_left]
  refine ⟨?_, hexecuted, hwaiting, hinv.carried⟩
  have hsplit : ∀ q, strand q s.executed ++ strand q s.waiting = strand q s.sent := fun q => by
    rw [← strand_append, Supply.executed, Supply.waiting, List.take_append_drop]
  have hmark : Command.mark (chunks p).index ∈ s.executed.map Prod.snd := by
    rw [hexecuted]
    exact ((hinv.performed.marks _).mp (of_decide_eq_true hon)).resolve_left (hown.fresh p)
  -- only the task itself calls for its mark
  obtain ⟨q, hq⟩ := mem_entries.mp hmark
  have hqp : q = p := by
    obtain ⟨missed, hprogram, -⟩ := hinv.issued q
    have hmem : Command.mark (chunks p).index ∈ (chunks q).program := by
      rw [← hprogram, ← hsplit]
      exact List.mem_append_left _ (List.mem_append_left _ hq)
    rcases List.mem_append.mp hmem with hbody | hlast
    · exact absurd hbody ((chunks q).unmarked _)
    · exact hown.own q p (Command.mark.inj (List.mem_singleton.mp hlast)).symm
  subst hqp
  obtain ⟨missed, hprogram, -⟩ := hinv.issued q
  rw [← hsplit, List.append_assoc] at hprogram
  obtain ⟨hall, hnone⟩ := append_eq_snoc hprogram hq ((chunks q).unmarked _)
  exact ⟨hall, (List.append_eq_nil_iff.mp hnone).1⟩

private def twoChunks : Fin 2 → ChunkCalls
  | 0 => ⟨[.truncate 2, .write 0 [1, 2]], 0, by simp⟩
  | 1 => ⟨[.write 2 [3]], 1, by simp⟩

private def oneCall (p : Fin 2) : List (SupplyAct 2) := [.call p, .test p, .put p, .returns p]

private def taken : List (SupplyAct 2) := [.thread .poll, .thread .get]

/-- The queue holds one command, a write goes out in two pieces, the thread dies of the write of task `q`,
and that task drops its mark. -/
private def faults (p q : Fin 2) : List (SupplyAct 2) :=
  [oneCall p, [.call q, .test q, .full q], taken, [.thread .done], oneCall p, taken,
    [.thread (.pwrite 1), .thread (.pwrite 1), .thread .done], oneCall p, taken, [.thread .done],
    [.test q, .put q, .returns q], taken,
    [.thread .fail, .raised, .call q, .test q, .returns q]].flatten

theorem on_disk_truthful_faults :
    ∃ s : Supply 2, exec (Supply.step 1) (.init [9, 9, 9] [7] twoChunks) (faults 0 1) = some s ∧
      s.stopEvent = true ∧ s.writer.isOnDisk 1 = false ∧
      strand 0 s.executed = [.truncate 2, .write 0 [1, 2], .mark 0] ∧ strand 0 s.waiting = [] := by
  have hown : OwnChunks [7] twoChunks :=
    ⟨by simp only [Fin.forall_fin_two]; decide, by simp only [Fin.forall_fin_two]; decide⟩
  suffices ∃ s : Supply 2, exec (Supply.step 1) (.init [9, 9, 9] [7] twoChunks) (faults 0 1) = some s ∧
      s.stopEvent = true ∧ s.writer.isOnDisk 1 = false ∧ s.writer.isOnDisk (twoChunks 0).index = true by
    obtain ⟨s, hrun, hstop, hoff, hon⟩ := this
    exact ⟨s, hrun, hstop, hoff, (on_disk_truthful hown hrun hon).1⟩
  exact ⟨_, rfl, rfl, by decide, by decide⟩

end Mrdl.Writer
