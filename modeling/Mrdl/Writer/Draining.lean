import Mrdl.Foundations.Reaching
import Mrdl.Writer.Core

/-! # What the writer's thread still does by itself

Without the stop event and without a failing call the thread carries out the command in its hands and then
those that stand before the first sentinel in its queue, and it does so whatever the other threads do: it
waits for nobody.
-/

namespace Mrdl.Writer
open FileBytes Runs
set_option autoImplicit false

/-- The commands before the first sentinel. -/
def upcoming : List (Option Command) → List Command
  | some cmd :: rest => cmd :: upcoming rest
  | _ => []

namespace DiskWriter

/-- What the thread will carry out. -/
def due (w : DiskWriter) : List Command :=
  match w.pc with
  | .checking | .getting => upcoming w.queue
  | .working cmd _ => cmd :: upcoming w.queue
  | .broken _ _ | .exited => []

/-- The thread is done with these, or will be. -/
def settled (w : DiskWriter) : List Command := w.executed ++ w.due

/-- More steps than the thread takes for the rest of a command. -/
def left (written : ℕ) : Command → ℕ
  | .write _ data => data.length - written + 3
  | _ => 3

/-- More steps than the thread takes until nothing is due. -/
def work (w : DiskWriter) : ℕ :=
  match w.pc with
  | .checking => ((upcoming w.queue).map (left 0)).sum + 2
  | .getting => ((upcoming w.queue).map (left 0)).sum + 1
  | .working cmd written => ((upcoming w.queue).map (left 0)).sum + left written cmd
  | .broken _ _ | .exited => 0

end DiskWriter

section
variable {w w' : DiskWriter} {a : ThreadAct}

theorem mem_upcoming_snoc {queue : List (Option Command)} {cmd : Command} (x : Option Command)
    (h : cmd ∈ upcoming queue) : cmd ∈ upcoming (queue ++ [x]) := by
  induction queue with
  | nil => cases h
  | cons y rest ih =>
    cases y with
    | none => cases h
    | some c =>
      rcases List.mem_cons.mp h with rfl | h
      · exact List.mem_cons_self ..
      · exact List.mem_cons_of_mem _ (ih h)

/-- Without a sentinel every command of the queue comes up. -/
theorem upcoming_eq {queue : List (Option Command)} (h : none ∉ queue) :
    upcoming queue = queue.filterMap id := by
  induction queue with
  | nil => rfl
  | cons x rest ih =>
    cases x with
    | none => exact absurd (List.mem_cons_self ..) h
    | some cmd => exact congrArg (cmd :: ·) (ih fun hmem => h (List.mem_cons_of_mem _ hmem))

namespace DiskWriter

/-- As long as something is due, the thread has a step that does not fail. -/
theorem due_step (hdue : w.due ≠ []) :
    ∃ a w', a ≠ .fail ∧ w.step false true a = some w' ∧ w'.settled = w.settled ∧ w'.work < w.work := by
  cases hpc : w.pc with
  | broken | exited => exact absurd (by rw [due, hpc]) hdue
  | checking =>
    refine ⟨.poll, { w with pc := .getting }, by simp, by rw [step, hpc]; rfl, ?_, ?_⟩
    · rw [settled, settled, due, due, hpc]
    · rw [work, work, hpc]
      exact Nat.lt_succ_self _
  | getting =>
    cases hqueue : w.queue with
    | nil => exact absurd (by rw [due, hpc, hqueue]; rfl) hdue
    | cons x rest =>
      cases x with
      | none => exact absurd (by rw [due, hpc, hqueue]; rfl) hdue
      | some cmd =>
        refine ⟨.get, { w with queue := rest, pc := .working cmd 0 }, by simp, ?_, ?_, ?_⟩
        · rw [step, hpc, hqueue]
        · rw [settled, settled, due, due, hpc, hqueue]
          rfl
        · rw [work, work, hpc, hqueue]
          simp only [upcoming, List.map_cons, List.sum_cons]
          omega
  | working cmd written =>
    have hdone : ∀ v : DiskWriter, v.pc = .checking → v.queue = w.queue →
        v.executed = w.executed ++ [cmd] → v.settled = w.settled ∧ v.work < w.work := by
      intro v hv hqueue hexec
      have hleft : 3 ≤ left written cmd := by
        cases cmd <;> exact Nat.le_add_left ..
      refine ⟨?_, ?_⟩
      · rw [settled, settled, due, due, hpc, hv, hqueue, hexec, List.append_assoc]
        rfl
      · rw [work, work, hpc, hv, hqueue]
        dsimp only
        omega
    cases cmd with
    | write offset data =>
      by_cases hwritten : data.length ≤ written
      · let v : DiskWriter := { w with pc := .checking, executed := w.executed ++ [.write offset data] }
        refine ⟨.done, v, by simp, ?_, hdone v rfl rfl rfl⟩
        rw [step, hpc]
        exact if_pos hwritten
      · -- the rest is written at once
        let v : DiskWriter :=
          { w with
            pc := .working (.write offset data) (written + (data.length - written))
            file := writeAt w.file (offset + written) ((data.drop written).take (data.length - written))
            pwrites := w.pwrites ++
              [(offset + written, (data.drop written).take (data.length - written))] }
        refine ⟨.pwrite (data.length - written), v, by simp, ?_, ?_, ?_⟩
        · rw [step, hpc]
          exact if_pos ⟨rfl, by omega, by omega⟩
        · rw [settled, settled, due, due, hpc]
        · rw [work, work, hpc]
          simp only [v, left]
          omega
    | mark i =>
      let v : DiskWriter :=
        { w with
          pc := .checking
          executed := w.executed ++ [.mark i]
          diskCompleted := if i ∈ w.diskCompleted then w.diskCompleted else w.diskCompleted ++ [i] }
      refine ⟨.done, v, by simp, ?_, hdone v rfl rfl rfl⟩
      rw [step, hpc]
    | truncate n =>
      let v : DiskWriter :=
        { w with
          pc := .checking
          executed := w.executed ++ [.truncate n]
          file := resize w.file n }
      refine ⟨.done, v, by simp, ?_, hdone v rfl rfl rfl⟩
      rw [step, hpc]
      rfl

/-- All that is due gets done. -/
theorem drains (w : DiskWriter) : ∃ v, Leads (fun w a => w.step false true a) (fun _ a => a ≠ .fail) w v ∧
    v.due = [] ∧ v.executed = w.settled := by
  obtain ⟨v, hv, hsettled, hdue⟩ := leads_of_measure (fun w a => w.step false true a)
    (K := fun _ (a : ThreadAct) => a ≠ .fail) (P := fun v => v.settled = w.settled) (Q := fun v => v.due = [])
    work (fun v hv hdue => by
      obtain ⟨a, u, ha, hs, hu, hlt⟩ := due_step hdue
      exact ⟨a, u, ha, hs, hu.trans hv, hlt⟩) rfl
  refine ⟨v, hv, hdue, ?_⟩
  rw [settled, hdue, List.append_nil] at hsettled
  exact hsettled

/-- As long as the stop event is not set, a step that does not fail changes nothing in what is settled. -/
theorem step_settled {fdOpen : Bool} (ha : a ≠ .fail) (hs : w.step false fdOpen a = some w') :
    w'.settled = w.settled := by
  cases a with
  | fail => exact absurd rfl ha
  | poll =>
    simp only [step] at hs
    split at hs <;> cases hs
    rename_i hpc
    simp only [settled, due, hpc, Bool.false_eq_true, if_false]
  | get =>
    simp only [step] at hs
    split at hs <;> cases hs
    · rename_i x rest hpc hqueue
      simp only [settled, due, hpc, hqueue, upcoming]
    · rename_i rest hpc hqueue
      simp only [settled, due, hpc, hqueue, upcoming]
  | getTimeout =>
    simp only [step] at hs
    split at hs <;> cases hs
    rename_i hpc hqueue
    simp only [settled, due, hpc, hqueue]
  | pwrite n =>
    simp only [step] at hs
    split at hs
    · rename_i offset data written hpc
      split at hs <;> cases hs
      simp only [settled, due, hpc]
    · cases hs
  | done =>
    simp only [step] at hs
    split at hs
    · rename_i offset data written hpc
      split at hs <;> cases hs
      simp only [settled, due, hpc, List.append_assoc, List.singleton_append]
    · rename_i i written hpc
      cases hs
      simp only [settled, due, hpc, List.append_assoc, List.singleton_append]
    · rename_i n written hpc
      split at hs <;> cases hs
      simp only [settled, due, hpc, List.append_assoc, List.singleton_append]
    · cases hs

/-- What is put comes after what is settled. -/
theorem put_settled {x : Option Command} {cmd : Command} (hs : w.put x = some w') (hcmd : cmd ∈ w.settled) :
    cmd ∈ w'.settled := by
  simp only [put, Option.ite_none_right_eq_some, Option.some.injEq] at hs
  obtain ⟨-, rfl⟩ := hs
  refine (List.mem_append.mp hcmd).elim (List.mem_append_left _) fun hdue => List.mem_append_right _ ?_
  cases hpc : w.pc with
  | checking | getting =>
    simp only [due, hpc] at hdue ⊢
    exact mem_upcoming_snoc x hdue
  | working c written =>
    simp only [due, hpc] at hdue ⊢
    rcases List.mem_cons.mp hdue with rfl | hdue
    · exact List.mem_cons_self ..
    · exact List.mem_cons_of_mem _ (mem_upcoming_snoc x hdue)
  | broken | exited =>
    simp only [due, hpc] at hdue
    cases hdue

/-- The thread goes on, and nothing tells it to end. -/
structure Open (w : DiskWriter) : Prop where
  whole : ∀ cmd written, w.pc ≠ .broken cmd written
  running : w.pc ≠ .exited
  queue : none ∉ w.queue

theorem Open.settled_eq (h : Open w) : w.settled = w.log := by
  rw [settled, log, pending, ← upcoming_eq h.queue]
  cases hpc : w.pc with
  | broken cmd written => exact absurd hpc (h.whole cmd written)
  | exited => exact absurd hpc h.running
  | _ => simp only [due, hand, hpc, List.nil_append, List.singleton_append]

/-- When nothing is due the thread waits for the next command. -/
theorem Open.idle (h : Open w) (hdue : w.due = []) :
    w.queue = [] ∧ (w.pc = .checking ∨ w.pc = .getting) := by
  have hqueue : upcoming w.queue = [] → w.queue = [] := by
    intro hnil
    rw [upcoming_eq h.queue, List.filterMap_eq_nil_iff] at hnil
    refine List.eq_nil_iff_forall_not_mem.mpr fun x hx => ?_
    cases x with
    | none => exact h.queue hx
    | some cmd => exact Option.some_ne_none cmd (hnil _ hx)
  rw [due] at hdue
  cases hpc : w.pc with
  | checking =>
    rw [hpc] at hdue
    exact ⟨hqueue hdue, Or.inl rfl⟩
  | getting =>
    rw [hpc] at hdue
    exact ⟨hqueue hdue, Or.inr rfl⟩
  | working cmd written =>
    rw [hpc] at hdue
    cases hdue
  | broken cmd written => exact absurd hpc (h.whole cmd written)
  | exited => exact absurd hpc h.running

/-- It ends at the sentinel. -/
theorem exits (hqueue : w.queue = [none]) (hpc : w.pc = .checking ∨ w.pc = .getting) :
    Leads (fun w a => w.step false true a) (fun _ a => a ≠ .fail) w { w with queue := [], pc := .exited } := by
  have hget : Leads (fun w a => step false true w a) (fun _ a => a ≠ .fail) { w with pc := .getting }
      { w with queue := [], pc := .exited } := by
    refine .single (a := .get) ThreadAct.noConfusion ?_
    simp only [step, hqueue]
  rcases hpc with hpc | hpc
  · refine .head (a := .poll) ThreadAct.noConfusion ?_ hget
    simp only [step, hpc, Bool.false_eq_true, if_false]
  · rwa [← hpc] at hget

theorem Open.put {cmd : Command} (h : Open w) (hs : w.put (some cmd) = some w') : Open w' := by
  simp only [DiskWriter.put, Option.ite_none_right_eq_some, Option.some.injEq] at hs
  obtain ⟨-, rfl⟩ := hs
  refine ⟨h.whole, h.running, fun hmem => ?_⟩
  rcases List.mem_append.mp hmem with hold | hnew
  · exact h.queue hold
  · cases List.mem_singleton.mp hnew

theorem Open.step {fdOpen : Bool} (h : Open w) (ha : a ≠ .fail) (hs : w.step false fdOpen a = some w') :
    Open w' := by
  cases a with
  | fail => exact absurd rfl ha
  | poll =>
    simp only [DiskWriter.step] at hs
    split at hs <;> cases hs
    exact ⟨by simp, by simp, h.queue⟩
  | get =>
    simp only [DiskWriter.step] at hs
    split at hs <;> cases hs
    · rename_i x rest hpc hqueue
      refine ⟨by simp, by simp, fun hmem => h.queue ?_⟩
      rw [hqueue]
      exact List.mem_cons_of_mem _ hmem
    · rename_i rest hpc hqueue
      refine absurd ?_ h.queue
      rw [hqueue]
      exact List.mem_cons_self ..
  | getTimeout =>
    simp only [DiskWriter.step] at hs
    split at hs <;> cases hs
    exact ⟨by simp, by simp, h.queue⟩
  | pwrite n =>
    simp only [DiskWriter.step] at hs
    split at hs
    · split at hs <;> cases hs
      exact ⟨by simp, by simp, h.queue⟩
    · cases hs
  | done =>
    simp only [DiskWriter.step] at hs
    split at hs
    · split at hs <;> cases hs
      exact ⟨by simp, by simp, h.queue⟩
    · cases hs
      exact ⟨by simp, by simp, h.queue⟩
    · split at hs <;> cases hs
      exact ⟨by simp, by simp, h.queue⟩
    · cases hs

end DiskWriter

end

end Mrdl.Writer
