import Mrdl.System.Steps
import Mrdl.Workers.Hands
import Mrdl.Foundations.Runs

/-! # The traffic between the fetches and the writer

What counts for the bytes of the file is which worker fetches which chunk, which commands it has still
to hand over, and which commands ever reached the queue. The steps of a run change this in eleven ways
only, and the writer's and the hasher's threads, the savers and `start` itself do not change it.
-/

namespace Mrdl.System
open FileBytes Downloader Workers Writer Hasher Runs
set_option autoImplicit false

structure Traffic where
  pool : WorkerPool
  tasks : ℕ → Task
  orphans : List Command
  dropped : List Command
  recorded : List (ℕ × ℕ)
  log : List Command

def Sys.traffic (s : Sys) : Traffic :=
  ⟨s.pool, s.tasks, s.orphans, s.dropped, s.recorded, s.writer.log⟩

namespace Traffic

def setCall (T : Traffic) (w : ℕ) (c : Option Call) : Traffic :=
  { T with tasks := Function.update T.tasks w { T.tasks w with call := c } }

inductive Step (S : Setup) (ev : Events) (T : Traffic) : SysAct → Traffic → Prop
  | pool (a : PoolAct) (ev' : Events) (p : WorkerPool) (h : poolStep ev T.pool a = some (ev', p))
      (quiet : ∀ w, a.settles w = false) : Step S ev T (.pool a) { T with pool := p }
  | returned (w i n : ℕ) (putting : Bool) (ev' : Events) (p : WorkerPool)
      (h : poolStep ev T.pool (.fetchReturned w) = some (ev', p))
      (call : (T.tasks w).call = some ⟨i, [], putting, .returned n⟩) :
      Step S ev T (.pool (.fetchReturned w))
        { T.setCall w none with pool := p, recorded := T.recorded ++ [(i, n)] }
  | failed (w : ℕ) (a : PoolAct) (c : Call) (ev' : Events) (p : WorkerPool)
      (h : poolStep ev T.pool a = some (ev', p)) (settles : a.settles w = true)
      (only : ∀ v, v ≠ w → a.settles v = false) (call : (T.tasks w).call = some c)
      (outcome : ∀ n, c.outcome ≠ .returned n) (todo : c.todo = []) (kind : ∀ v, a ≠ .fetchReturned v) :
      Step S ev T (.pool a) { T.setCall w none with pool := p }
  | cancelled (w : ℕ) (ev' : Events) (p : WorkerPool)
      (h : poolStep ev T.pool (.workerCancelled w) = some (ev', p)) :
      Step S ev T (.pool (.workerCancelled w))
        { T.setCall w none with pool := p, orphans := T.orphans ++ (T.tasks w).inFlight }
  | begin (w : ℕ) (item : QueueItem) (t : ℚ) (att : Fetcher.Attempt) (res : Fetcher.FetchResult)
      (hands : T.pool.pcOf w = some (.fetching item t)) (free : (T.tasks w).call = none)
      (h : Fetcher.fetch S.cfg (T.tasks w).fetcher item.chunkIdx.toNat att = some res) :
      Step S ev T (.begin w att)
        { T with
          tasks := Function.update T.tasks w
            ⟨res.fetcher, some
              { chunkIdx := item.chunkIdx.toNat
                todo := Fetcher.commands res.effects
                outcome := res.outcome }⟩ }
  | drop (w i : ℕ) (cmd : Command) (rest : List Command) (outcome : Fetcher.Outcome)
      (call : (T.tasks w).call = some ⟨i, cmd :: rest, false, outcome⟩)
      (stopped : ev.stopThread = true) :
      Step S ev T (.offer w)
        { T.setCall w (some ⟨i, rest, false, outcome⟩) with dropped := T.dropped ++ [cmd] }
  | reach (w i : ℕ) (cmd : Command) (rest : List Command) (outcome : Fetcher.Outcome)
      (call : (T.tasks w).call = some ⟨i, cmd :: rest, false, outcome⟩)
      (running : ev.stopThread = false) :
      Step S ev T (.offer w) (T.setCall w (some ⟨i, cmd :: rest, true, outcome⟩))
  | put (w i : ℕ) (cmd : Command) (rest : List Command) (outcome : Fetcher.Outcome)
      (call : (T.tasks w).call = some ⟨i, cmd :: rest, true, outcome⟩) :
      Step S ev T (.putDone w)
        { T.setCall w (some ⟨i, rest, false, outcome⟩) with log := T.log ++ [cmd] }
  | refuse (w i : ℕ) (cmd : Command) (rest : List Command) (outcome : Fetcher.Outcome)
      (call : (T.tasks w).call = some ⟨i, cmd :: rest, true, outcome⟩) :
      Step S ev T (.putFull w) (T.setCall w (some ⟨i, cmd :: rest, false, outcome⟩))
  | orphanPut (k : ℕ) (before after : List Command) (cmd : Command)
      (orphans : T.orphans = before ++ cmd :: after) :
      Step S ev T (.orphanPut k) { T with orphans := before ++ after, log := T.log ++ [cmd] }
  | orphanGone (k : ℕ) (before after : List Command) (cmd : Command)
      (orphans : T.orphans = before ++ cmd :: after) :
      Step S ev T (.orphanGone k) { T with orphans := before ++ after }

end Traffic

section
variable {S : Setup} {s s' : Sys}

theorem eraseIdx_split {l : List Command} {k : ℕ} (h : k < l.length) :
    ∃ before cmd after, l[k]? = some cmd ∧ l = before ++ cmd :: after ∧ l.eraseIdx k = before ++ after :=
  ⟨l.take k, l[k], l.drop (k + 1), List.getElem?_eq_getElem h,
    by rw [List.getElem_cons_drop, List.take_append_drop], List.eraseIdx_eq_take_drop_succ ..⟩

theorem poolStep_traffic {a : PoolAct} {ev : Events} {p : WorkerPool} (ready : s.poolReady a = true)
    (h : poolStep s.ctl.ev s.pool a = some (ev, p)) :
    Traffic.Step S s.ctl.ev s.traffic (.pool a)
      (Sys.traffic { s.settleCall a with ctl := { s.ctl with ev := ev }, pool := p }) := by
  cases a with
  | fetchReturned w =>
    simp only [Sys.poolReady, fetchesReady] at ready
    split at ready
    · rename_i i putting n hcall
      have hstep := Traffic.Step.returned (T := s.traffic) (S := S) w i n putting ev p h hcall
      have hsettle : s.settleCall (.fetchReturned w) =
          { s.setCall w none with recorded := s.recorded ++ [(i, n)] } := by
        rw [Sys.settleCall, hcall]
      rw [hsettle]
      exact hstep
    · cases ready
  | fetchStopped w =>
    simp only [Sys.poolReady, fetchesReady] at ready
    split at ready
    · rename_i i putting hcall
      exact .failed w _ _ ev p h (decide_eq_true rfl) (fun v hv => decide_eq_false hv.symm) hcall
        (fun n h => by cases h) rfl (fun v h => by cases h)
    · cases ready
  | fetchFailed w typeName message healthRaises =>
    simp only [Sys.poolReady, fetchesReady] at ready
    split at ready
    · rename_i i putting e hcall
      exact .failed w _ _ ev p h (decide_eq_true rfl) (fun v hv => decide_eq_false hv.symm) hcall
        (fun n h => by cases h) rfl (fun v h => by cases h)
    · cases ready
  | workerCancelled w => exact .cancelled w ev p h
  | _ => exact .pool _ ev p h fun _ => rfl

/-- Every step of a run leaves the traffic alone or changes it in one of the eleven ways. -/
theorem sysStep_traffic {a : SysAct} (hs : sysStep S s a = some s') :
    s'.traffic = s.traffic ∨ Traffic.Step S s.ctl.ev s.traffic a s'.traffic := by
  have hlog : ∀ (t : Sys) (writer : DiskWriter), writer.log = t.writer.log →
      Sys.traffic { t with writer := writer } = t.traffic := by
    intro t writer h
    unfold Sys.traffic
    simp only [h]
  cases sysStep_moves hs with
  | pool b ev p started ready h => exact Or.inr (poolStep_traffic ready h)
  | begin w item t att res hands free h => exact Or.inr (.begin w item t att res hands free h)
  | drop w i cmd rest outcome call stopped => exact Or.inr (.drop w i cmd rest outcome call stopped)
  | reach w i cmd rest outcome call running => exact Or.inr (.reach w i cmd rest outcome call running)
  | putFull w i cmd rest outcome call => exact Or.inr (.refuse w i cmd rest outcome call)
  | putDone w i cmd rest outcome writer call h =>
    right
    have hstep : Traffic.Step S s.ctl.ev s.traffic (.putDone w) _ := .put w i cmd rest outcome call
    have hput : writer.log = s.writer.log ++ [cmd] := DiskWriter.put_log h
    unfold Sys.traffic
    simp only [hput]
    exact hstep
  | orphanPut k cmd writer get h =>
    right
    obtain ⟨before, cmd', after, hget, hsplit, herase⟩ :=
      eraseIdx_split (List.getElem?_eq_some_iff.mp get).1
    rw [get] at hget
    cases hget
    have hstep : Traffic.Step S s.ctl.ev s.traffic (.orphanPut k) _ :=
      .orphanPut k before after cmd hsplit
    have hput : writer.log = s.writer.log ++ [cmd] := DiskWriter.put_log h
    unfold Sys.traffic
    simp only [hput, herase]
    exact hstep
  | orphanGone k lt =>
    right
    obtain ⟨before, cmd, after, -, hsplit, herase⟩ := eraseIdx_split lt
    have hstep : Traffic.Step S s.ctl.ev s.traffic (.orphanGone k) _ :=
      .orphanGone k before after cmd hsplit
    unfold Sys.traffic
    simp only [herase]
    exact hstep
  | stopPut writer h => exact Or.inl (hlog s writer ((DiskWriter.put_log h).trans (List.append_nil _)))
  | writer b writer h | writerFails e writer ctl h noticed =>
    exact Or.inl (hlog s writer (DiskWriter.step_log h))
  | control | hasher | saverWakes | saverSaves => exact Or.inl rfl

end

end Mrdl.System
