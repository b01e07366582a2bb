import Mrdl.Workers.Conservation

/-! # Which worker holds which chunk

A worker takes a chunk into its hands by `get` and keeps it until its fetch ends or the worker is
cancelled. A chunk comes back to the queue only from the hands of the worker whose fetch failed.
-/

namespace Mrdl.Workers
set_option autoImplicit false

section
variable {p q : WorkerPool} {v w : ℕ} {pc e : WorkerPc}

theorem move_pcOf_self (h : p.pcOf w = some pc) (e : WorkerPc) : (p.move w e).pcOf w = some e := by
  obtain ⟨x, hx, -⟩ := Option.map_eq_some_iff.mp h
  simp only [WorkerPool.pcOf, WorkerPool.move, List.getElem?_modify, hx]
  simp

theorem move_pcOf_other (h : v ≠ w) (e : WorkerPc) : (p.move w e).pcOf v = p.pcOf v := by
  simp only [WorkerPool.pcOf, WorkerPool.move, List.getElem?_modify, if_neg h.symm]
  simp

/-- What an action does to the hands of the workers and to the chunks in the queue. -/
structure Handling (a : PoolAct) (p q : WorkerPool) : Prop where
  keeps : ∀ w item t, p.pcOf w = some (.fetching item t) → a.settles w = false →
    q.pcOf w = some (.fetching item t)
  settled : ∀ w, a.settles w = true → ∀ item t, q.pcOf w ≠ some (.fetching item t)
  takes : ∀ w item t, q.pcOf w = some (.fetching item t) → p.pcOf w = some (.fetching item t) ∨
    (p.pcOf w = some .getting ∧ item ∈ p.queue)
  queue : ∀ item ∈ q.queue, item ∈ p.queue ∨ item.chunkIdx = stopSentinel ∨
    ∃ w typeName message, a = .fetchFailed w typeName message false ∧
      ∃ item₀ t, p.pcOf w = some (.fetching item₀ t) ∧ item.chunkIdx = item₀.chunkIdx

theorem handling_move {a : PoolAct} (hpc : p.pcOf w = some pc) (hq : q.workers = (p.move w e).workers)
    (he : e.item? = none) (hown : a.settles w = true ∨ pc.item? = none)
    (hother : ∀ v, v ≠ w → a.settles v = false)
    (hqueue : ∀ item ∈ q.queue, item ∈ p.queue ∨ item.chunkIdx = stopSentinel ∨
      ∃ w typeName message, a = .fetchFailed w typeName message false ∧
        ∃ item₀ t, p.pcOf w = some (.fetching item₀ t) ∧ item.chunkIdx = item₀.chunkIdx) :
    Handling a p q := by
  have hself : q.pcOf w = some e := by
    rw [WorkerPool.pcOf, hq]
    exact move_pcOf_self hpc e
  have hrest : ∀ v, v ≠ w → q.pcOf v = p.pcOf v := by
    intro v hv
    rw [WorkerPool.pcOf, hq]
    exact move_pcOf_other hv e
  have hempty : ∀ item t, q.pcOf w ≠ some (.fetching item t) := by
    intro item t heq
    rw [hself] at heq
    cases heq
    cases he
  refine ⟨fun v item t hv hset => ?_, fun v hset => ?_, fun v item t hv => ?_, hqueue⟩
  · by_cases hvw : v = w
    · subst hvw
      rcases hown with htrue | hnone
      · rw [htrue] at hset
        cases hset
      · rw [hpc] at hv
        cases hv
        cases hnone
    · rw [hrest v hvw]
      exact hv
  · by_cases hvw : v = w
    · subst hvw
      exact hempty
    · rw [hother v hvw] at hset
      cases hset
  · by_cases hvw : v = w
    · subst hvw
      exact absurd hv (hempty item t)
    · rw [hrest v hvw] at hv
      exact Or.inl hv

theorem handling_same {a : PoolAct} (hw : q.workers = p.workers) (ha : ∀ w, a.settles w = false)
    (hqueue : ∀ item ∈ q.queue, item ∈ p.queue ∨ item.chunkIdx = stopSentinel) : Handling a p q := by
  have hpc : ∀ w, q.pcOf w = p.pcOf w := by
    intro w
    rw [WorkerPool.pcOf, WorkerPool.pcOf, hw]
  refine ⟨fun w item t h _ => (hpc w).trans h, fun w h => ?_, fun w item t h => Or.inl ((hpc w).symm.trans h),
    fun item h => (hqueue item h).imp id Or.inl⟩
  rw [ha w] at h
  cases h

theorem mem_put {item x : QueueItem} (h : item ∈ (p.put x).queue) : item = x ∨ item ∈ p.queue :=
  List.mem_cons.mp ((put_queue p x).subset h)

theorem mem_leave {result : RunResult} {item : QueueItem} (h : item ∈ (p.leave result).queue) :
    item ∈ p.queue ∨ item.chunkIdx = stopSentinel := by
  obtain ⟨n, hn⟩ := leave_spec p result
  rcases List.mem_append.mp (hn.queue.subset h) with hs | hp
  · rw [List.eq_of_mem_replicate hs]
    exact Or.inr rfl
  · exact Or.inl hp

theorem leave_handling {a : PoolAct} (ha : ∀ w, a.settles w = false) (result : RunResult) :
    Handling a p (p.leave result) := by
  obtain ⟨n, hn⟩ := leave_spec p result
  exact handling_same hn.workers ha fun _ => mem_leave

theorem failed_handling {item : QueueItem} {t : ℚ} {typeName message : String} {healthRaises : Bool}
    (hpc : p.pcOf w = some (.fetching item t)) (hw : q.workers = (p.move w e).workers)
    (he : e.item? = none) (hqueue : q.queue = p.queue) :
    Handling (.fetchFailed w typeName message healthRaises) p q := by
  refine handling_move hpc hw he (Or.inl (decide_eq_true rfl)) (fun v hv => decide_eq_false hv.symm)
    fun x hx => Or.inl ?_
  rwa [hqueue] at hx

theorem taken_handling {item : QueueItem} {rest : List QueueItem} {banned allBanned : Bool}
    (hpc : p.pcOf w = some .getting) (hw : q.workers = (p.move w e).workers) (he : e.item? = none)
    (hhead : p.queue = item :: rest) (hqueue : ∀ x ∈ q.queue, x = item ∨ x ∈ rest) :
    Handling (.get w banned allBanned) p q := by
  refine handling_move hpc hw he (Or.inr rfl) (fun _ _ => rfl) fun x hx => Or.inl ?_
  rw [hhead]
  exact List.mem_cons.mpr (hqueue x hx)

theorem started_handling {item : QueueItem} {rest : List QueueItem} {banned allBanned : Bool} {t : ℚ}
    (hpc : p.pcOf w = some .getting) (hhead : p.queue = item :: rest) :
    Handling (.get w banned allBanned) p ({ p with queue := rest }.move w (.fetching item t)) := by
  have hself : ({ p with queue := rest }.move w (.fetching item t)).pcOf w = some (.fetching item t) :=
    move_pcOf_self (p := { p with queue := rest }) hpc _
  have hother : ∀ v, v ≠ w → ({ p with queue := rest }.move w (.fetching item t)).pcOf v = p.pcOf v :=
    fun v hvw => move_pcOf_other (p := { p with queue := rest }) hvw _
  refine ⟨fun v x u hv _ => ?_, fun v h => (by cases h), fun v x u hv => ?_, fun x hx => Or.inl ?_⟩
  · have hvw : v ≠ w := by
      rintro rfl
      rw [hpc] at hv
      cases hv
    rw [hother v hvw]
    exact hv
  · by_cases hvw : v = w
    · subst hvw
      rw [hself] at hv
      cases hv
      refine Or.inr ⟨hpc, ?_⟩
      rw [hhead]
      exact List.mem_cons_self ..
    · rw [hother v hvw] at hv
      exact Or.inl hv
  · rw [hhead]
    exact List.mem_cons_of_mem _ hx

theorem poolStep_handling {ev ev' : Events} {a : PoolAct} (hs : poolStep ev p a = some (ev', q)) :
    Handling a p q := by
  cases poolStep_moves hs with
  | idle a w pc e here free after other =>
    exact handling_move here rfl (item_of_owes after) (Or.inr (item_of_owes free)) other fun _ => Or.inl
  | pays a w pc e here debt after other down =>
    exact handling_move here rfl (item_of_owes after) (down.symm.imp And.left id) other fun _ => Or.inl
  | sentinel w item rest banned allBanned here head chunk =>
    exact taken_handling (e := .exited) here rfl rfl head fun _ => Or.inr
  | putBack w item rest banned allBanned here head =>
    exact taken_handling (e := .backoff) here rfl rfl head fun _ => mem_put
  | allBanned w item rest banned allBanned here head =>
    exact taken_handling (e := .exited) here rfl rfl head fun _ => Or.inr
  | starts w item rest banned allBanned here head chunk due => exact started_handling here head
  | returned w item t here =>
    exact handling_move here rfl (loopHead_item ev) (Or.inl (decide_eq_true rfl))
      (fun v hv => decide_eq_false hv.symm) (fun _ => Or.inl)
  | dropped w item t typeName message healthRaises e here after why =>
    exact failed_handling here rfl (item_of_owes after) rfl
  | retried w item t typeName message here few =>
    refine handling_move here rfl (loopHead_item ev) (Or.inl (decide_eq_true rfl))
      (fun v hv => decide_eq_false hv.symm) fun x hx => ?_
    rcases mem_put (p := { p with failures := _ }) hx with rfl | hx
    · exact Or.inr (Or.inr ⟨w, typeName, message, rfl, item, t, here, rfl⟩)
    · exact Or.inl hx
  | gaveUp w item t typeName message here => exact failed_handling here rfl (loopHead_item _) rfl
  | wakes joinDone woken => exact leave_handling (fun _ => rfl) _
  | stopped => exact leave_handling (fun _ => rfl) _
  | joined zero => exact handling_same rfl (fun _ => rfl) (fun _ => Or.inl)
  | cancelled result run => exact handling_same rfl (fun _ => rfl) (fun _ => Or.inl)
  | ends result run => exact handling_same rfl (fun _ => rfl) (fun _ => Or.inl)
  | tick d => exact handling_same rfl (fun _ => rfl) (fun _ => Or.inl)

theorem leave_completed (p : WorkerPool) (result : RunResult) :
    (p.leave result).completed = p.completed := by
  obtain ⟨n, hn⟩ := leave_spec p result
  exact hn.completed

/-- Only a fetch that returned completes its chunk. -/
theorem poolStep_completed {ev ev' : Events} {a : PoolAct} (hs : poolStep ev p a = some (ev', q)) :
    q.completed = p.completed ∨ ∃ w item t, a = .fetchReturned w ∧
      p.pcOf w = some (.fetching item t) ∧ q.completed = (p.record item.chunkIdx.toNat).completed := by
  cases poolStep_moves hs with
  | returned w item t here => exact Or.inr ⟨w, item, t, rfl, here, rfl⟩
  | wakes | stopped => exact Or.inl (leave_completed p _)
  | _ => exact Or.inl rfl

theorem mem_record {i j : ℕ} : j ∈ (p.record i).completed ↔ j ∈ p.completed ∨ j = i := by
  unfold WorkerPool.record
  by_cases hmem : i ∈ p.completed
  · simp only [if_pos hmem]
    refine ⟨Or.inl, fun h => h.elim id ?_⟩
    rintro rfl
    exact hmem
  · simp [hmem]

theorem poolStep_completed_mono {ev ev' : Events} {a : PoolAct} (hs : poolStep ev p a = some (ev', q))
    {i : ℕ} (hi : i ∈ p.completed) : i ∈ q.completed := by
  rcases poolStep_completed hs with heq | ⟨w, item, t, -, -, heq⟩
  · rw [heq]
    exact hi
  · rw [heq]
    exact mem_record.mpr (Or.inl hi)

/-- `run` returns `True`, or has done so. -/
def RunPc.succeeds : RunPc → Bool
  | .leaving (.returned success) | .ended (.returned success) => success
  | _ => false

theorem leave_succeeds {result : RunResult} (h : (p.leave result).run.succeeds = true) :
    result = .returned true := by
  unfold WorkerPool.leave at h
  split at h
  · cases h
  · cases result with
    | returned success =>
      cases success
      · cases h
      · rfl
    | _ => cases h

/-- `run` returns `True` only after `join` was released with the stop event not set. -/
theorem poolStep_succeeds {ev ev' : Events} {a : PoolAct} (hs : poolStep ev p a = some (ev', q))
    (hq : q.run.succeeds = true) :
    p.run.succeeds = true ∨ (p.joined = true ∧ ev.stopEvent = false) := by
  cases poolStep_moves hs with
  | wakes joinDone woken =>
    have hresult := leave_succeeds hq
    simp only [RunResult.returned.injEq, Bool.and_eq_true, Bool.not_eq_true'] at hresult
    rw [if_pos hresult.1] at woken
    exact Or.inr ⟨woken, hresult.2⟩
  | stopped => cases leave_succeeds hq
  | cancelled result run => cases hq
  | ends result run =>
    rw [run]
    exact Or.inl (by cases result <;> exact hq)
  | _ => exact Or.inl hq

/-- The success of `run` is a completed queue. -/
def Finished (chunks : List ℕ) (p : WorkerPool) : Prop :=
  p.run.succeeds = true → ∀ i ∈ chunks, i ∈ p.completed

theorem poolStep_finished {chunks : List ℕ} {ev ev' : Events} {a : PoolAct} (h : Conserved chunks ev p)
    (hkept : Kept chunks ev p) (hfinished : Finished chunks p) (hs : poolStep ev p a = some (ev', q)) :
    Finished chunks q := by
  intro hq i hi
  refine poolStep_completed_mono hs ?_
  rcases poolStep_succeeds hs hq with hold | ⟨hjoin, hstop⟩
  · exact hfinished hold i hi
  · exact hkept.all_completed h hstop (Or.inr hjoin) i hi

/-! ## One worker for a chunk -/

theorem mem_hands_of_pcOf {item : QueueItem} {t : ℚ} (h : p.pcOf w = some (.fetching item t)) :
    item ∈ hands p.workers := by
  obtain ⟨x, hx, hpc⟩ := pcOf_mem h
  exact mem_hands.mpr ⟨x, hx, t, hpc⟩

/-- A chunk in the hands of a worker is nowhere else. -/
theorem Conserved.in_hands {chunks : List ℕ} {ev : Events} {item : QueueItem} {t : ℚ} {i : ℕ}
    (hp : Conserved chunks ev p) (h : p.pcOf w = some (.fetching item t)) (hi : item.chunkIdx = (i : ℤ)) :
    countOf i p.tokens = 1 ∧ p.done i = 0 ∧ ∀ x ∈ p.queue, x.chunkIdx ≠ (i : ℤ) := by
  have honce := hp.once i
  have hhand := countOf_pos (mem_hands_of_pcOf h) hi
  have htokens : countOf i p.tokens = countOf i p.queue + countOf i (hands p.workers) :=
    countOf_append i p.queue (hands p.workers)
  refine ⟨by omega, by omega, fun x hx hxi => ?_⟩
  have hqueue := countOf_pos hx hxi
  omega

theorem Conserved.one_worker {chunks : List ℕ} {ev : Events} {x y : QueueItem} {t u : ℚ}
    (hp : Conserved chunks ev p) (hv : p.pcOf v = some (.fetching x t))
    (hw : p.pcOf w = some (.fetching y u)) {i : ℕ} (hx : x.chunkIdx = (i : ℤ))
    (hy : y.chunkIdx = (i : ℤ)) : v = w := by
  by_contra hne
  have hdown := move_tokens_down (e := .exited) hv rfl rfl
  have hstill : (p.move v .exited).pcOf w = some (.fetching y u) :=
    (move_pcOf_other (Ne.symm hne) .exited).trans hw
  have hpos : 0 < countOf i (p.move v .exited).tokens :=
    countOf_pos (List.mem_append_right _ (mem_hands_of_pcOf hstill)) hy
  have honce := (hp.in_hands hv hx).1
  rw [countOf_perm hdown, countOf_cons, if_pos hx] at honce
  omega

/-- A worker cancelled in its fetch takes its chunk out of the run. -/
theorem cancelled_gone {chunks : List ℕ} {ev ev' : Events} {item : QueueItem} {t : ℚ} {i : ℕ}
    (hp : Conserved chunks ev p) (hs : poolStep ev p (.workerCancelled w) = some (ev', q))
    (h : p.pcOf w = some (.fetching item t)) (hi : item.chunkIdx = (i : ℤ)) :
    countOf i q.tokens + q.done i = 0 := by
  simp only [poolStep, h] at hs
  split at hs
  · rename_i result pc hrun hpc
    cases hpc
    simp only [reduceCtorEq, if_false, WorkerPc.owes, if_true, Option.some.injEq, Prod.mk.injEq] at hs
    obtain ⟨-, rfl⟩ := hs
    have hdown : p.tokens.Perm (item :: (p.move w .exited).taskDone.tokens) :=
      move_tokens_down h rfl rfl
    obtain ⟨hone, hzero, -⟩ := hp.in_hands h hi
    have hdone : (p.move w .exited).taskDone.done i = p.done i := rfl
    rw [countOf_perm hdown, countOf_cons, if_pos hi] at hone
    omega
  · cases hs

end

end Mrdl.Workers
