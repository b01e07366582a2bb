import Mrdl.System.Core
import Mrdl.Workers.Conservation
import Mrdl.Downloader.Success

/-! # What one step can do

Every step of a run, with all that it needs and all that it changes. What a step does to one part of
the state is read off from here.
-/

namespace Mrdl.System
open FileBytes Downloader Workers Writer Hasher
set_option autoImplicit false

inductive Moves (S : Setup) (s : Sys) : SysAct → Sys → Prop
  | control (a : Act) (ctl : Control) (ready : s.controlReady S a = true)
      (h : controlStep s.ctl a = some ctl) :
      Moves S s (.control a) { s with ctl := ctl, saves := s.saves ++ s.savesWith a }
  | pool (a : PoolAct) (ev : Events) (p : WorkerPool) (started : s.ctl.writerStarted = true)
      (ready : s.poolReady a = true) (h : poolStep s.ctl.ev s.pool a = some (ev, p)) :
      Moves S s (.pool a) { s.settleCall a with ctl := { s.ctl with ev := ev }, pool := p }
  | begin (w : ℕ) (item : QueueItem) (t : ℚ) (att : Fetcher.Attempt) (res : Fetcher.FetchResult)
      (hands : s.pool.pcOf w = some (.fetching item t)) (free : (s.tasks w).call = none)
      (h : Fetcher.fetch S.cfg (s.tasks w).fetcher item.chunkIdx.toNat att = some res) :
      Moves S s (.begin w att)
        (s.setTask w
          ⟨res.fetcher, some
            { chunkIdx := item.chunkIdx.toNat
              todo := Fetcher.commands res.effects
              outcome := res.outcome }⟩)
  | drop (w i : ℕ) (cmd : Command) (rest : List Command) (outcome : Fetcher.Outcome)
      (call : (s.tasks w).call = some ⟨i, cmd :: rest, false, outcome⟩)
      (stopped : s.ctl.ev.stopThread = true) :
      Moves S s (.offer w)
        { s.setCall w (some ⟨i, rest, false, outcome⟩) with dropped := s.dropped ++ [cmd] }
  | reach (w i : ℕ) (cmd : Command) (rest : List Command) (outcome : Fetcher.Outcome)
      (call : (s.tasks w).call = some ⟨i, cmd :: rest, false, outcome⟩)
      (running : s.ctl.ev.stopThread = false) :
      Moves S s (.offer w) (s.setCall w (some ⟨i, cmd :: rest, true, outcome⟩))
  | putDone (w i : ℕ) (cmd : Command) (rest : List Command) (outcome : Fetcher.Outcome)
      (writer : DiskWriter) (call : (s.tasks w).call = some ⟨i, cmd :: rest, true, outcome⟩)
      (h : s.writer.put (some cmd) = some writer) :
      Moves S s (.putDone w) { s.setCall w (some ⟨i, rest, false, outcome⟩) with writer := writer }
  | putFull (w i : ℕ) (cmd : Command) (rest : List Command) (outcome : Fetcher.Outcome)
      (call : (s.tasks w).call = some ⟨i, cmd :: rest, true, outcome⟩) :
      Moves S s (.putFull w) (s.setCall w (some ⟨i, cmd :: rest, false, outcome⟩))
  | orphanPut (k : ℕ) (cmd : Command) (writer : DiskWriter) (get : s.orphans[k]? = some cmd)
      (h : s.writer.put (some cmd) = some writer) :
      Moves S s (.orphanPut k) { s with writer := writer, orphans := s.orphans.eraseIdx k }
  | orphanGone (k : ℕ) (lt : k < s.orphans.length) :
      Moves S s (.orphanGone k) { s with orphans := s.orphans.eraseIdx k }
  | stopPut (writer : DiskWriter) (h : s.writer.put none = some writer) :
      Moves S s .stopPut { s with writer := writer, stopPut := true }
  | writer (a : ThreadAct) (writer : DiskWriter)
      (h : s.writer.step s.ctl.ev.stopThread (fdOpen s.ctl.pc) a = some writer) :
      Moves S s (.writer a) { s with writer := writer }
  | writerFails (e : String) (writer : DiskWriter) (ctl : Control)
      (h : s.writer.step s.ctl.ev.stopThread (fdOpen s.ctl.pc) .fail = some writer)
      (noticed : controlStep s.ctl (.writerFails e) = some ctl) :
      Moves S s (.writerFails e) { s with writer := writer, ctl := ctl }
  | hasher (a : HasherAct) (job : HashJob) (hasher : StreamingHasher) (job_eq : S.job = some job)
      (h : s.hasher.step job s.ctl.ev.stopThread s.writer.isOnDisk s.writer.file a = some hasher) :
      Moves S s (.hasher a) { s with hasher := hasher, ctl := { s.ctl with computedHash := hasher.computedHash } }
  | saverWakes :
      Moves S s .saverWakes
        { s with saverCopy := some s.pool.completed, lastSaved := s.pool.completed.length }
  | saverSaves (completed : List ℕ) (copy : s.saverCopy = some completed) :
      Moves S s .saverSaves
        { s with saverCopy := none, saves := s.saves ++ [⟨completed, s.writer.pwrites⟩] }

section
variable {S : Setup} {s s' : Sys} {a : SysAct}

theorem sysStep_moves (hs : sysStep S s a = some s') : Moves S s a s' := by
  cases a with
  | control a =>
    simp only [sysStep] at hs
    split at hs
    · rename_i hready
      split at hs <;> cases hs
      rename_i ctl hctl
      exact .control a ctl hready hctl
    · cases hs
  | pool a =>
    simp only [sysStep] at hs
    split at hs
    · rename_i hready
      split at hs <;> cases hs
      rename_i ev p hp
      exact .pool a ev p hready.1 hready.2.2 hp
    · cases hs
  | begin w att =>
    simp only [sysStep] at hs
    split at hs
    · rename_i item t hpc hcall
      split at hs
      · cases hs
      · split at hs <;> cases hs
        rename_i res hres
        exact .begin w item t att res hpc hcall hres
    · cases hs
  | offer w =>
    simp only [sysStep] at hs
    split at hs
    · rename_i i cmd rest outcome hcall
      split at hs
      · cases hs
      · split at hs <;> cases hs
        · rename_i hstop
          exact .drop w i cmd rest outcome hcall hstop
        · rename_i hrun
          exact .reach w i cmd rest outcome hcall (Bool.eq_false_of_not_eq_true hrun)
    · cases hs
  | putDone w =>
    simp only [sysStep] at hs
    split at hs
    · rename_i i cmd rest outcome hcall
      obtain ⟨writer, hput, rfl⟩ := Option.map_eq_some_iff.mp hs
      exact .putDone w i cmd rest outcome writer hcall hput
    · cases hs
  | putFull w =>
    simp only [sysStep] at hs
    split at hs
    · rename_i i cmd rest outcome hcall
      split at hs <;> cases hs
      exact .putFull w i cmd rest outcome hcall
    · cases hs
  | orphanPut k =>
    simp only [sysStep] at hs
    split at hs
    · rename_i cmd hcmd
      obtain ⟨writer, hput, rfl⟩ := Option.map_eq_some_iff.mp hs
      exact .orphanPut k cmd writer hcmd hput
    · cases hs
  | orphanGone k =>
    simp only [sysStep, Option.ite_none_right_eq_some, Option.some.injEq] at hs
    obtain ⟨hk, rfl⟩ := hs
    exact .orphanGone k hk
  | stopPut =>
    simp only [sysStep] at hs
    split at hs
    · obtain ⟨writer, hput, rfl⟩ := Option.map_eq_some_iff.mp hs
      exact .stopPut writer hput
    · cases hs
  | writer a =>
    simp only [sysStep] at hs
    split at hs
    · obtain ⟨writer, hstep, rfl⟩ := Option.map_eq_some_iff.mp hs
      exact .writer a writer hstep
    · cases hs
  | writerFails e =>
    simp only [sysStep] at hs
    split at hs
    · rename_i writer ctl hstep hctl
      cases hs
      exact .writerFails e writer ctl hstep hctl
    · cases hs
  | hasher a =>
    simp only [sysStep] at hs
    split at hs
    · cases hs
    · rename_i job hjob
      split at hs
      · obtain ⟨hasher, hstep, rfl⟩ := Option.map_eq_some_iff.mp hs
        exact .hasher a job hasher hjob hstep
      · cases hs
  | saverWakes =>
    simp only [sysStep, Option.ite_none_right_eq_some, Option.some.injEq] at hs
    obtain ⟨-, rfl⟩ := hs
    exact .saverWakes
  | saverSaves =>
    simp only [sysStep] at hs
    split at hs <;> cases hs
    rename_i completed hcopy
    exact .saverSaves completed hcopy

theorem settleCall_rest (s : Sys) (a : PoolAct) :
    (s.settleCall a).writer = s.writer ∧ (s.settleCall a).hasher = s.hasher ∧
      (s.settleCall a).saves = s.saves ∧ (s.settleCall a).saverCopy = s.saverCopy := by
  cases a with
  | fetchReturned w =>
    simp only [Sys.settleCall]
    split <;> exact ⟨rfl, rfl, rfl, rfl⟩
  | _ => exact ⟨rfl, rfl, rfl, rfl⟩

/-! ## The pool, the writer and the hasher -/

theorem sysStep_pool (hs : sysStep S s a = some s') :
    (∃ b, a = .pool b ∧ poolStep s.ctl.ev s.pool b = some (s'.ctl.ev, s'.pool)) ∨
      ((∀ b, a ≠ .pool b) ∧ s'.pool = s.pool) := by
  cases sysStep_moves hs with
  | pool b ev p started ready h => exact Or.inl ⟨b, rfl, h⟩
  | _ => exact Or.inr ⟨fun b h => (by cases h), rfl⟩

theorem sysStep_writer (hs : sysStep S s a = some s') :
    s'.writer = s.writer ∨ (∃ x, s.writer.put x = some s'.writer) ∨
      ∃ b, s.writer.step s.ctl.ev.stopThread (fdOpen s.ctl.pc) b = some s'.writer := by
  cases sysStep_moves hs with
  | pool b => exact Or.inl (settleCall_rest s b).1
  | putDone w i cmd rest outcome writer call h => exact Or.inr (Or.inl ⟨some cmd, h⟩)
  | orphanPut k cmd writer get h => exact Or.inr (Or.inl ⟨some cmd, h⟩)
  | stopPut writer h => exact Or.inr (Or.inl ⟨none, h⟩)
  | writer b writer h => exact Or.inr (Or.inr ⟨b, h⟩)
  | writerFails e writer ctl h noticed => exact Or.inr (Or.inr ⟨.fail, h⟩)
  | _ => exact Or.inl rfl

theorem sysStep_hasher (hs : sysStep S s a = some s') :
    s'.hasher = s.hasher ∨ ∃ job b, S.job = some job ∧
      s.hasher.step job s.ctl.ev.stopThread s.writer.isOnDisk s.writer.file b = some s'.hasher ∧
      s'.writer = s.writer ∧ s'.ctl.ev = s.ctl.ev := by
  cases sysStep_moves hs with
  | pool b => exact Or.inl (settleCall_rest s b).2.1
  | hasher b job hasher hjob h => exact Or.inr ⟨job, b, hjob, h, rfl, rfl⟩
  | _ => exact Or.inl rfl

/-! ## The events of a run -/

/-- Before `start` is entered no event is set. -/
def Untouched (c : Control) : Prop := c.pc = .created → c.ev = {} ∧ c.writerStarted = false

structure Ordered (s : Sys) : Prop where
  untouched : Untouched s.ctl
  accounted : Accounted s.ctl

theorem le_fresh (ev : Events) : ({} : Events).Le ev := ⟨fun h => (by cases h), fun h => (by cases h)⟩

theorem control_le {c d : Control} {a : Act} (h : Untouched c) (hs : controlStep c a = some d) :
    c.ev.Le d.ev := by
  by_cases hpc : c.pc = .created
  · rw [(h hpc).1]
    exact le_fresh _
  · exact controlStep_le hpc hs

/-- What a step does to `start` itself: an action of its own, the failure of the writer, or another
value of the events and of the digest's text. -/
inductive ControlMove (c : Control) : SysAct → Control → Prop
  | own (a : Act) (d : Control) (h : controlStep c a = some d) : ControlMove c (.control a) d
  | writerFails (e : String) (d : Control) (h : controlStep c (.writerFails e) = some d) :
      ControlMove c (.writerFails e) d
  | events (a : SysAct) (ev : Events) (digest : Option String) (other : ∀ b, a ≠ .control b)
      (le : c.ev.Le ev) (started : c.writerStarted = true ∨ ev = c.ev) :
      ControlMove c a { c with ev := ev, computedHash := digest }

theorem ControlMove.rest {c : Control} {a : SysAct} (other : ∀ b, a ≠ .control b) : ControlMove c a c :=
  .events a c.ev c.computedHash other (Events.Le.refl _) (Or.inr rfl)

theorem sysStep_control (hs : sysStep S s a = some s') : ControlMove s.ctl a s'.ctl := by
  cases sysStep_moves hs with
  | control b ctl ready h => exact .own b ctl h
  | pool b ev p started ready h =>
    exact .events _ ev s.ctl.computedHash (fun b h => by cases h) (poolStep_onward h).le (Or.inl started)
  | writerFails e writer ctl h noticed => exact .writerFails e ctl noticed
  | hasher b job hasher hjob h =>
    exact .events _ s.ctl.ev hasher.computedHash (fun b h => by cases h) (Events.Le.refl _) (Or.inr rfl)
  | _ => exact .rest fun b h => by cases h

theorem ControlMove.le {c d : Control} (h : Untouched c) (hm : ControlMove c a d) :
    c.ev.Le d.ev := by
  cases hm with
  | own b d hs => exact control_le h hs
  | writerFails e d hs => exact control_le h hs
  | events a ev digest other le started => exact le

theorem advance_untouched {c d : Control} {a : Act} (h : Untouched c) (ha : Accounted c)
    (hs : controlStep c a = some d) : Untouched d := by
  intro hd
  have hc := (controlStep_advance ha hs).created hd
  exact created_keeps hc (h hc).1 (h hc).2 hs hd

theorem Ordered.step (h : Ordered s) (hs : sysStep S s a = some s') : Ordered s' := by
  have hm := sysStep_control hs
  obtain ⟨hu, ha⟩ := h
  generalize hc : s.ctl = c at hm hu ha
  generalize hd : s'.ctl = d at hm
  suffices hsuff : Untouched d ∧ Accounted d by
    rw [← hd] at hsuff
    exact ⟨hsuff.1, hsuff.2⟩
  cases hm with
  | own b d hb => exact ⟨advance_untouched hu ha hb, (controlStep_advance ha hb).accounted⟩
  | writerFails e d hb => exact ⟨advance_untouched hu ha hb, (controlStep_advance ha hb).accounted⟩
  | events a ev digest other le started =>
    refine ⟨fun hpc => ?_, ⟨ha.verifying, ha.clearing, ha.cleared, ha.state, ha.outcome⟩⟩
    rcases started with hst | hev
    · rw [(hu hpc).2] at hst
      cases hst
    · rw [hev]
      exact hu hpc

theorem Ordered.init (S : Setup) : Ordered (Sys.init S) :=
  ⟨fun _ => ⟨rfl, rfl⟩, Accounted.fresh {}⟩

theorem sysStep_le (h : Ordered s) (hs : sysStep S s a = some s') :
    s.ctl.ev.Le s'.ctl.ev := (sysStep_control hs).le h.untouched

end

end Mrdl.System
