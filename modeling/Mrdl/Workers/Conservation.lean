import Mrdl.Workers.Moves
import Mrdl.Foundations.Runs

/-! # The pool neither loses nor doubles a chunk

The entries of the queue together with those in the workers' hands are the pool's tokens. An action
leaves the tokens as they are, drops one, exchanges one for its retry, or turns one into a completed
chunk; only the first is possible for a chunk as long as the stop event is not set, apart from the
last two. Everything else follows from what is kept of each token.
-/

namespace Mrdl.Workers
open Runs
set_option autoImplicit false

/-! ## Tokens -/

def hands (workers : List Worker) : List QueueItem := workers.filterMap fun x => x.pc.item?

namespace WorkerPool

def tokens (p : WorkerPool) : List QueueItem := p.queue ++ hands p.workers

/-- How many workers owe the queue a `task_done`. -/
def owed (p : WorkerPool) : ℕ := p.workers.countP fun x => x.pc.owes

end WorkerPool

section
variable {p : WorkerPool} {w : ℕ} {pc e : WorkerPc}

theorem countP_modify {f : WorkerPc → Bool} {l : List Worker}
    (h : l[w]?.map Worker.pc = some pc) :
    (l.modify w fun x => { x with pc := e }).countP (fun x => f x.pc) + (f pc).toNat =
      l.countP (fun x => f x.pc) + (f e).toNat := by
  induction l generalizing w with
  | nil => simp at h
  | cons x l ih =>
    cases w with
    | zero =>
      simp only [List.getElem?_cons_zero, Option.map_some, Option.some.injEq] at h
      subst h
      simp only [List.modify_zero_cons, List.countP_cons]
      cases f x.pc <;> cases f e <;> simp
    | succ w =>
      simp only [List.getElem?_cons_succ] at h
      have := ih h
      simp only [List.modify_succ_cons, List.countP_cons]
      omega

theorem hands_modify {l : List Worker} (h : l[w]?.map Worker.pc = some pc) :
    (pc.item?.toList ++ hands (l.modify w fun x => { x with pc := e })).Perm
      (e.item?.toList ++ hands l) := by
  induction l generalizing w with
  | nil => simp at h
  | cons x l ih =>
    cases w with
    | zero =>
      simp only [List.getElem?_cons_zero, Option.map_some, Option.some.injEq] at h
      subst h
      simp only [List.modify_zero_cons, hands, List.filterMap_cons]
      cases x.pc.item? <;> cases e.item? <;> simp [List.Perm.swap]
    | succ w =>
      simp only [List.getElem?_cons_succ] at h
      have hih := ih h
      simp only [List.modify_succ_cons, hands, List.filterMap_cons] at hih ⊢
      cases x.pc.item? with
      | none => exact hih
      | some item =>
        exact (List.perm_middle.trans (hih.cons item)).trans List.perm_middle.symm

theorem move_owed (h : p.pcOf w = some pc) :
    (p.move w e).owed + pc.owes.toNat = p.owed + e.owes.toNat := countP_modify h

theorem move_hands (h : p.pcOf w = some pc) :
    (pc.item?.toList ++ hands (p.move w e).workers).Perm (e.item?.toList ++ hands p.workers) :=
  hands_modify h

theorem mem_move {x : Worker} (h : x ∈ (p.move w e).workers) : x.pc = e ∨ x ∈ p.workers := by
  obtain ⟨j, hj⟩ := List.mem_iff_getElem?.mp h
  simp only [WorkerPool.move, List.getElem?_modify, Option.map_eq_map, Option.map_eq_some_iff] at hj
  obtain ⟨y, hy, rfl⟩ := hj
  split
  · exact Or.inl rfl
  · exact Or.inr (List.mem_of_getElem? hy)

theorem put_queue (p : WorkerPool) (item : QueueItem) :
    (p.put item).queue.Perm (item :: p.queue) := List.perm_orderedInsert _ _ _

/-- `n` sentinels are put, and nothing else changes except where `run` stands. -/
structure Sentinels (n : ℕ) (p q : WorkerPool) : Prop where
  queue : q.queue.Perm (List.replicate n ⟨0, stopSentinel, 0⟩ ++ p.queue)
  unfinished : q.unfinished = p.unfinished + n
  workers : q.workers = p.workers
  completed : q.completed = p.completed
  failures : q.failures = p.failures
  misacked : q.misacked = p.misacked
  joined : q.joined = p.joined

theorem putSentinels_spec (n : ℕ) (p : WorkerPool) : Sentinels n p (p.putSentinels n) := by
  induction n generalizing p with
  | zero => exact ⟨List.Perm.refl _, rfl, rfl, rfl, rfl, rfl, rfl⟩
  | succ n ih =>
    have hput := ih (p.put ⟨0, stopSentinel, 0⟩)
    refine ⟨?_, ?_, hput.workers, hput.completed, hput.failures, hput.misacked, hput.joined⟩
    · rw [List.replicate_succ]
      exact (hput.queue.trans ((put_queue p _).append_left _)).trans List.perm_middle
    · rw [WorkerPool.putSentinels, hput.unfinished]
      simp only [WorkerPool.put]
      omega

theorem leave_spec (p : WorkerPool) (result : RunResult) : ∃ n, Sentinels n p (p.leave result) := by
  unfold WorkerPool.leave
  split
  · exact ⟨0, List.Perm.refl _, rfl, rfl, rfl, rfl, rfl, rfl⟩
  · have hput := putSentinels_spec p.workers.length p
    exact ⟨p.workers.length, hput.queue, hput.unfinished, hput.workers, hput.completed, hput.failures,
      hput.misacked, hput.joined⟩

theorem Sentinels.tokens {n : ℕ} {q : WorkerPool} (h : Sentinels n p q) :
    q.tokens.Perm (List.replicate n ⟨0, stopSentinel, 0⟩ ++ p.tokens) := by
  rw [WorkerPool.tokens, h.workers, WorkerPool.tokens, ← List.append_assoc]
  exact h.queue.append_right _

/-! ## What an action does to the tokens -/

/-- `lossy` allows a chunk to be dropped while the stop event is not set. -/
inductive Change (lossy : Bool) (ev : Events) (p q : WorkerPool) : Prop
  | same (tokens : q.tokens.Perm p.tokens) (completed : q.completed = p.completed)
      (failures : q.failures = p.failures)
  | sentinels (n : ℕ) (tokens : q.tokens.Perm (List.replicate n ⟨0, stopSentinel, 0⟩ ++ p.tokens))
      (completed : q.completed = p.completed) (failures : q.failures = p.failures)
  | dropped (item : QueueItem) (tokens : p.tokens.Perm (item :: q.tokens))
      (completed : q.completed = p.completed)
      (failures : q.failures = p.failures ∨
        (item.chunkIdx ≠ stopSentinel ∧ q.failures = p.failures ++ [item.chunkIdx.toNat]))
      (stopped : lossy = true ∨ ev.stopEvent = true ∨ item.chunkIdx = stopSentinel)
  | retried (item : QueueItem) (retryTime : ℚ) (rest : List QueueItem)
      (before : p.tokens.Perm (item :: rest))
      (after : q.tokens.Perm (⟨retryTime, item.chunkIdx, item.retries + 1⟩ :: rest))
      (completed : q.completed = p.completed)
      (failures : q.failures = p.failures ++ [item.chunkIdx.toNat]) (few : item.retries < 5)
      (chunk : item.chunkIdx ≠ stopSentinel)
  | finished (item : QueueItem) (tokens : p.tokens.Perm (item :: q.tokens))
      (completed : q.completed = (p.record item.chunkIdx.toNat).completed)
      (failures : q.failures = p.failures) (chunk : item.chunkIdx ≠ stopSentinel)

theorem loopHead_item (ev : Events) : (loopHead ev).item? = none := by
  unfold loopHead
  split <;> rfl

theorem move_tokens_none (h : p.pcOf w = some pc) (hpc : pc.item? = none) (hpc' : e.item? = none) :
    (p.move w e).tokens.Perm p.tokens := by
  have hm := move_hands (e := e) h
  rw [hpc, hpc'] at hm
  exact hm.append_left p.queue

theorem move_tokens_down {item : QueueItem} (h : p.pcOf w = some pc) (hpc : pc.item? = some item)
    (hpc' : e.item? = none) : p.tokens.Perm (item :: (p.move w e).tokens) := by
  have hm := move_hands (e := e) h
  rw [hpc, hpc'] at hm
  exact (hm.symm.append_left p.queue).trans List.perm_middle

theorem mem_hands {item : QueueItem} {workers : List Worker} :
    item ∈ hands workers ↔ ∃ x ∈ workers, ∃ t, x.pc = .fetching item t := by
  simp only [hands, List.mem_filterMap]
  refine exists_congr fun x => and_congr_right fun _ => ?_
  cases x.pc <;> simp [WorkerPc.item?]

theorem pcOf_mem (h : p.pcOf w = some pc) : ∃ x ∈ p.workers, x.pc = pc := by
  obtain ⟨x, hx, hpc⟩ := Option.map_eq_some_iff.mp h
  exact ⟨x, List.mem_of_getElem? hx, hpc⟩

/-! ## The invariant -/

def countOf (i : ℕ) (items : List QueueItem) : ℕ := items.countP fun item => item.chunkIdx = (i : ℤ)

def WorkerPool.done (p : WorkerPool) (i : ℕ) : ℕ := if i ∈ p.completed then 1 else 0

/-- What is known of every token: it is a sentinel or carries its chunk's number of failures. -/
def Marked (chunks failures : List ℕ) (item : QueueItem) : Prop :=
  item.chunkIdx = stopSentinel ∨
    ∃ i ∈ chunks, item.chunkIdx = (i : ℤ) ∧ item.retries = failures.count i ∧ item.retries ≤ 5

structure Conserved (chunks : List ℕ) (ev : Events) (p : WorkerPool) : Prop where
  once : ∀ i, countOf i p.tokens + p.done i ≤ 1
  marked : ∀ item ∈ p.tokens, Marked chunks p.failures item
  due : ∀ x ∈ p.workers, ∀ item t, x.pc = .fetching item t →
    item.retryTime ≤ t ∧ item.chunkIdx ≠ stopSentinel
  balance : p.unfinished = p.queue.length + p.owed
  acked : p.misacked = false
  joined : p.joined = true → ∀ item ∈ p.tokens, item.chunkIdx = stopSentinel
  leaving : p.run ≠ .waiting → p.joined = true ∨ ev.stopEvent = true

/-- No chunk is lost as long as the stop event is not set. -/
def Kept (chunks : List ℕ) (ev : Events) (p : WorkerPool) : Prop :=
  ev.stopEvent = false → ∀ i ∈ chunks, countOf i p.tokens + p.done i = 1

/-- What the queue's count and `join` come to, whatever entries the queue began with. -/
structure Ledger (ev : Events) (p : WorkerPool) : Prop where
  due : ∀ x ∈ p.workers, ∀ item t, x.pc = .fetching item t →
    item.retryTime ≤ t ∧ item.chunkIdx ≠ stopSentinel
  balance : p.unfinished = p.queue.length + p.owed
  acked : p.misacked = false
  joined : p.joined = true → ∀ item ∈ p.tokens, item.chunkIdx = stopSentinel
  leaving : p.run ≠ .waiting → p.joined = true ∨ ev.stopEvent = true

theorem Conserved.ledger {chunks : List ℕ} {ev : Events} (h : Conserved chunks ev p) : Ledger ev p :=
  ⟨h.due, h.balance, h.acked, h.joined, h.leaving⟩

theorem fetching_not_sentinel {ev : Events} {item : QueueItem} {t : ℚ}
    (h : Ledger ev p) (hpc : p.pcOf w = some (.fetching item t)) :
    item.chunkIdx ≠ stopSentinel ∧ item ∈ p.tokens := by
  obtain ⟨x, hx, hxpc⟩ := pcOf_mem hpc
  exact ⟨(h.due x hx item t hxpc).2, List.mem_append_right _ (mem_hands.mpr ⟨x, hx, t, hxpc⟩)⟩

theorem mem_tokens_of_item {item : QueueItem} (h : p.pcOf w = some pc) (hpc : pc.item? = some item) :
    item ∈ p.tokens := by
  obtain ⟨x, hx, rfl⟩ := pcOf_mem h
  exact List.mem_append_right _ (List.mem_filterMap.mpr ⟨x, hx, hpc⟩)

theorem tokens_of_head {item : QueueItem} {rest : List QueueItem} (h : p.queue = item :: rest) :
    p.tokens = item :: ({ p with queue := rest } : WorkerPool).tokens := by
  rw [WorkerPool.tokens, h]
  rfl

theorem take_down {item : QueueItem} {rest : List QueueItem} (hpc : p.pcOf w = some .getting)
    (hqueue : p.queue = item :: rest) (hpc' : e.item? = none) :
    p.tokens.Perm (item :: ({ p with queue := rest }.move w e).tokens) := by
  rw [tokens_of_head hqueue]
  exact (move_tokens_none (p := { p with queue := rest }) hpc rfl hpc').symm.cons item

/-- Every action of the pool is one of the five changes. -/
theorem poolStep_change {ev ev' : Events} {q : WorkerPool} {a : PoolAct}
    (h : Ledger ev p) (hs : poolStep ev p a = some (ev', q)) : Change a.lossy ev' p q := by
  cases poolStep_moves hs with
  | idle a w pc e here free after other =>
    exact .same (move_tokens_none here (item_of_owes free) (item_of_owes after)) rfl rfl
  | pays a w pc e here debt after other down =>
    cases hitem : pc.item? with
    | none => exact .same (move_tokens_none here hitem (item_of_owes after)) rfl rfl
    | some item =>
      -- the stop event is set, or `run` has left its wait because the queue was joined
      refine .dropped item (move_tokens_down here hitem (item_of_owes after)) rfl (Or.inl rfl) (Or.inr ?_)
      obtain ⟨-, hstop | hleft⟩ := down.resolve_left fun hnone => by rw [hitem] at hnone; cases hnone
      · exact Or.inl hstop
      · rcases h.leaving hleft with hj | hstop
        · exact Or.inr (h.joined hj item (mem_tokens_of_item here hitem))
        · exact Or.inl hstop
  | sentinel w item rest banned allBanned here head chunk =>
    exact .dropped item (take_down here head rfl) rfl (Or.inl rfl) (Or.inr (Or.inr chunk))
  | putBack w item rest banned allBanned here head =>
    refine .same ?_ rfl rfl
    have hmove := move_tokens_none (p := { p with queue := rest }.put item) (e := .backoff) here rfl rfl
    rw [tokens_of_head head]
    exact hmove.trans ((put_queue { p with queue := rest } item).append_right (hands p.workers))
  | allBanned w item rest banned allBanned here head =>
    exact .dropped item (take_down here head rfl) rfl (Or.inl rfl) (Or.inr (Or.inl rfl))
  | starts w item rest banned allBanned here head chunk due =>
    refine .same ?_ rfl rfl
    rw [tokens_of_head head]
    have hmove := move_hands (p := { p with queue := rest }) (e := .fetching item p.now) here
    exact (List.Perm.append_left rest hmove).trans List.perm_middle
  | returned w item t here =>
    exact .finished item (move_tokens_down (p := p.record _) here rfl (loopHead_item ev)) rfl rfl
      (fetching_not_sentinel h here).1
  | dropped w item t typeName message healthRaises e here after why =>
    refine .dropped item (move_tokens_down (p := { p with failures := _ }) here rfl (item_of_owes after))
      rfl (Or.inr ⟨(fetching_not_sentinel h here).1, rfl⟩) (why.imp id Or.inl)
  | retried w item t typeName message here few =>
    refine .retried item (p.now + WorkerPool.backoffDelay item.retries) (p.move w (loopHead ev)).tokens
      (move_tokens_down here rfl (loopHead_item ev)) ?_ rfl rfl few (fetching_not_sentinel h here).1
    exact (put_queue _ _).append_right _
  | gaveUp w item t typeName message here =>
    exact .dropped item
      (move_tokens_down (p := { p with failures := _, lastError := _ }) here rfl (loopHead_item _)) rfl
      (Or.inr ⟨(fetching_not_sentinel h here).1, rfl⟩) (Or.inr (Or.inl rfl))
  | wakes joinDone woken =>
    obtain ⟨n, hn⟩ := leave_spec p (.returned (joinDone && !ev.stopEvent))
    exact .sentinels n hn.tokens hn.completed hn.failures
  | stopped =>
    obtain ⟨n, hn⟩ := leave_spec p .cancelled
    exact .sentinels n hn.tokens hn.completed hn.failures
  | joined zero => exact .same (List.Perm.refl _) rfl rfl
  | cancelled result run => exact .same (List.Perm.refl _) rfl rfl
  | ends result run => exact .same (List.Perm.refl _) rfl rfl
  | tick d => exact .same (List.Perm.refl _) rfl rfl

/-! ## What a change keeps -/

theorem countOf_perm {i : ℕ} {xs ys : List QueueItem} (h : xs.Perm ys) : countOf i xs = countOf i ys :=
  h.countP_eq _

theorem countOf_cons (i : ℕ) (item : QueueItem) (xs : List QueueItem) :
    countOf i (item :: xs) = countOf i xs + if item.chunkIdx = (i : ℤ) then 1 else 0 := by
  simp [countOf, List.countP_cons]

theorem countOf_append (i : ℕ) (xs ys : List QueueItem) :
    countOf i (xs ++ ys) = countOf i xs + countOf i ys := List.countP_append

theorem countOf_sentinels (i n : ℕ) (xs : List QueueItem) :
    countOf i (List.replicate n ⟨0, stopSentinel, 0⟩ ++ xs) = countOf i xs := by
  have hne : ¬ stopSentinel = (i : ℤ) := by unfold stopSentinel; omega
  simp [countOf, List.countP_append, List.countP_replicate, hne]

theorem countOf_pos {i : ℕ} {item : QueueItem} {xs : List QueueItem} (h : item ∈ xs)
    (hi : item.chunkIdx = (i : ℤ)) : 0 < countOf i xs :=
  List.countP_pos_iff.mpr ⟨item, h, by simpa using hi⟩

theorem record_done (p : WorkerPool) (i j : ℕ) :
    (p.record i).done j = if j = i then 1 else p.done j := by
  unfold WorkerPool.done WorkerPool.record
  by_cases hj : j = i
  · subst hj
    by_cases hmem : j ∈ p.completed <;> simp [hmem]
  · by_cases hmem : i ∈ p.completed <;> simp [hmem, hj]

theorem done_congr {q : WorkerPool} (h : q.completed = p.completed) (i : ℕ) : q.done i = p.done i := by
  rw [WorkerPool.done, WorkerPool.done, h]

/-- The tokens of a chunk, counted with the completed ones, after a change. -/
theorem Change.places {chunks : List ℕ} {lossy : Bool} {ev ev' : Events} {q : WorkerPool}
    (hp : Conserved chunks ev p) (h : Change lossy ev' p q) (i : ℕ) :
    countOf i q.tokens + q.done i ≤ countOf i p.tokens + p.done i ∧
      (lossy = false → ev'.stopEvent = false →
        countOf i q.tokens + q.done i = countOf i p.tokens + p.done i) := by
  cases h with
  | same ht hc hf => rw [countOf_perm ht, done_congr hc]; exact ⟨Nat.le_refl _, fun _ _ => rfl⟩
  | sentinels n ht hc hf =>
    rw [countOf_perm ht, countOf_sentinels, done_congr hc]
    exact ⟨Nat.le_refl _, fun _ _ => rfl⟩
  | dropped item ht hc hf hstop =>
    rw [countOf_perm ht, countOf_cons, done_congr hc]
    refine ⟨by omega, fun hl hs => ?_⟩
    have hsentinel : ¬ item.chunkIdx = (i : ℤ) := by
      rcases hstop with hl' | hs' | hidx
      · rw [hl] at hl'
        cases hl'
      · rw [hs] at hs'
        cases hs'
      · rw [hidx]
        unfold stopSentinel
        omega
    rw [if_neg hsentinel]
    omega
  | retried item retryTime rest hb ha hc hf hfew hchunk =>
    rw [countOf_perm hb, countOf_perm ha, countOf_cons, countOf_cons, done_congr hc]
    exact ⟨Nat.le_refl _, fun _ _ => rfl⟩
  | finished item ht hc hf hchunk =>
    have hmem : item ∈ p.tokens := ht.symm.subset (List.mem_cons_self ..)
    obtain ⟨j, -, hj, -⟩ := (hp.marked item hmem).resolve_left hchunk
    have hdone : q.done i = if i = j then 1 else p.done i := by
      rw [done_congr (p := p.record item.chunkIdx.toNat) hc, record_done, hj, Int.toNat_natCast]
    have h1 := hp.once i
    rw [countOf_perm ht, countOf_cons, hj] at h1 ⊢
    rw [hdone]
    by_cases hij : i = j
    · subst hij
      simp only [if_true] at h1 ⊢
      omega
    · have hne : ¬ (j : ℤ) = (i : ℤ) := by omega
      simp only [if_neg hij, if_neg hne] at h1 ⊢
      omega

theorem Conserved.other {chunks : List ℕ} {ev : Events} {item y : QueueItem} {rest : List QueueItem}
    (hp : Conserved chunks ev p) (ht : p.tokens.Perm (item :: rest)) (hy : y ∈ rest) {i : ℕ}
    (hi : y.chunkIdx = (i : ℤ)) : item.chunkIdx ≠ (i : ℤ) := by
  intro heq
  have h1 := hp.once i
  have hpos := countOf_pos hy hi
  rw [countOf_perm ht, countOf_cons, if_pos heq] at h1
  omega

/-- A failure of one chunk is not counted for another. -/
theorem Conserved.marked_failure {chunks : List ℕ} {ev : Events} {item y : QueueItem}
    {rest : List QueueItem} (hp : Conserved chunks ev p) (ht : p.tokens.Perm (item :: rest))
    (hchunk : item.chunkIdx ≠ stopSentinel) (hy : y ∈ rest) :
    Marked chunks (p.failures ++ [item.chunkIdx.toNat]) y := by
  have hmem : item ∈ p.tokens := ht.symm.subset (List.mem_cons_self ..)
  rcases hp.marked y (ht.symm.subset (List.mem_cons_of_mem _ hy)) with hs | ⟨i, hi, hidx, hcount, hle⟩
  · exact Or.inl hs
  · obtain ⟨j, -, hj, -⟩ := (hp.marked item hmem).resolve_left hchunk
    have hne : ¬ j = i := by
      have hother := hp.other ht hy hidx
      omega
    refine Or.inr ⟨i, hi, hidx, ?_, hle⟩
    rw [hcount, hj, Int.toNat_natCast, List.count_append, List.count_singleton]
    simp [hne]

theorem Change.marked {chunks : List ℕ} {lossy : Bool} {ev ev' : Events} {q : WorkerPool}
    (hp : Conserved chunks ev p) (h : Change lossy ev' p q) :
    ∀ item ∈ q.tokens, Marked chunks q.failures item := by
  intro y hy
  cases h with
  | same ht hc hf =>
    rw [hf]
    exact hp.marked y (ht.subset hy)
  | sentinels n ht hc hf =>
    rw [hf]
    rcases List.mem_append.mp (ht.subset hy) with hs | hp'
    · rw [List.eq_of_mem_replicate hs]
      exact Or.inl rfl
    · exact hp.marked y hp'
  | dropped item ht hc hf hstop =>
    rcases hf with hf | ⟨hchunk, hf⟩
    · rw [hf]
      exact hp.marked y (ht.symm.subset (List.mem_cons_of_mem _ hy))
    · rw [hf]
      exact hp.marked_failure ht hchunk hy
  | retried item retryTime rest hb ha hc hf hfew hchunk =>
    rw [hf]
    rcases List.mem_cons.mp (ha.subset hy) with rfl | hrest
    · have hmem : item ∈ p.tokens := hb.symm.subset (List.mem_cons_self ..)
      obtain ⟨j, hj, hidx, hcount, -⟩ := (hp.marked item hmem).resolve_left hchunk
      refine Or.inr ⟨j, hj, hidx, ?_, hfew⟩
      rw [hidx, Int.toNat_natCast, List.count_append, List.count_singleton]
      simp [hcount]
    · exact hp.marked_failure hb hchunk hrest
  | finished item ht hc hf hchunk =>
    rw [hf]
    exact hp.marked y (ht.symm.subset (List.mem_cons_of_mem _ hy))

theorem Change.all_sentinels {lossy : Bool} {ev : Events} {q : WorkerPool} (h : Change lossy ev p q)
    (hp : ∀ item ∈ p.tokens, item.chunkIdx = stopSentinel) :
    ∀ item ∈ q.tokens, item.chunkIdx = stopSentinel := by
  intro y hy
  cases h with
  | same ht hc hf => exact hp y (ht.subset hy)
  | sentinels n ht hc hf =>
    rcases List.mem_append.mp (ht.subset hy) with hs | hp'
    · rw [List.eq_of_mem_replicate hs]
    · exact hp y hp'
  | dropped item ht hc hf hstop => exact hp y (ht.symm.subset (List.mem_cons_of_mem _ hy))
  | retried item retryTime rest hb ha hc hf hfew hchunk =>
    exact absurd (hp item (hb.symm.subset (List.mem_cons_self ..))) hchunk
  | finished item ht hc hf hchunk => exact hp y (ht.symm.subset (List.mem_cons_of_mem _ hy))

/-! ## The count of unfinished tasks -/

/-- `unfinished` exceeds the entries and the workers that owe a `task_done` by `k`. -/
def WorkerPool.Owing (k : ℕ) (p : WorkerPool) : Prop :=
  p.unfinished = p.queue.length + p.owed + k ∧ p.misacked = false

theorem owing_put {k : ℕ} (h : p.Owing k) (item : QueueItem) : (p.put item).Owing k := by
  obtain ⟨hu, hm⟩ := h
  refine ⟨?_, hm⟩
  have hlen := (put_queue p item).length_eq
  have howed : (p.put item).owed = p.owed := rfl
  have hunf : (p.put item).unfinished = p.unfinished + 1 := rfl
  rw [List.length_cons] at hlen
  omega

theorem owing_move {k k' : ℕ} (h : p.Owing k) (hpc : p.pcOf w = some pc)
    (hk : k + pc.owes.toNat = k' + e.owes.toNat) : (p.move w e).Owing k' := by
  obtain ⟨hu, hm⟩ := h
  refine ⟨?_, hm⟩
  have howed := move_owed (e := e) hpc
  have hunf : (p.move w e).unfinished = p.unfinished := rfl
  have hqueue : (p.move w e).queue = p.queue := rfl
  rw [hunf, hqueue]
  omega

theorem owing_taskDone {k : ℕ} (h : p.Owing (k + 1)) : p.taskDone.Owing k := by
  obtain ⟨hu, hm⟩ := h
  have hpos : ¬ p.unfinished = 0 := by omega
  have howed : p.taskDone.owed = p.owed := rfl
  have hqueue : p.taskDone.queue = p.queue := rfl
  have hunf : p.taskDone.unfinished = p.unfinished - 1 := rfl
  refine ⟨by rw [hunf, hqueue, howed]; omega, ?_⟩
  simp only [WorkerPool.taskDone, hm, Bool.false_or]
  exact decide_eq_false hpos

theorem owing_finish (h : p.Owing 0) (hpc : p.pcOf w = some pc) (howes : pc.owes = true)
    (hpc' : e.owes = false) : (p.move w e).taskDone.Owing 0 :=
  owing_taskDone (owing_move h hpc (by rw [howes, hpc']; rfl))

theorem owing_take {item : QueueItem} {rest : List QueueItem} (h : p.Owing 0)
    (hqueue : p.queue = item :: rest) : ({ p with queue := rest } : WorkerPool).Owing 1 := by
  obtain ⟨hu, hm⟩ := h
  rw [hqueue, List.length_cons] at hu
  refine ⟨?_, hm⟩
  rw [hu]
  simp only [WorkerPool.owed]
  omega

theorem leave_owing (h : p.Owing 0) (result : RunResult) : (p.leave result).Owing 0 := by
  obtain ⟨n, hn⟩ := leave_spec p result
  refine ⟨?_, hn.misacked.trans h.2⟩
  have hbalance := h.1
  have hlen := hn.queue.length_eq
  rw [List.length_append, List.length_replicate] at hlen
  rw [hn.unfinished, WorkerPool.owed, hn.workers]
  simp only [WorkerPool.owed] at hbalance
  omega

theorem poolStep_owing {ev ev' : Events} {q : WorkerPool} {a : PoolAct} (h : p.Owing 0)
    (hs : poolStep ev p a = some (ev', q)) : q.Owing 0 := by
  cases poolStep_moves hs with
  | idle a w pc e here free after other => exact owing_move h here (by rw [free, after])
  | pays a w pc e here debt after other down => exact owing_finish h here debt after
  | sentinel w item rest banned allBanned here head chunk =>
    exact owing_taskDone (owing_move (owing_take h head) here rfl)
  | putBack w item rest banned allBanned here head =>
    exact owing_move (owing_put (owing_take h head) item) here rfl
  | allBanned w item rest banned allBanned here head =>
    exact owing_taskDone
      (owing_move (p := { p with queue := rest, lastError := _ }) (owing_take h head) here rfl)
  | starts w item rest banned allBanned here head chunk due => exact owing_move (owing_take h head) here rfl
  | returned w item t here =>
    exact owing_finish (p := p.record item.chunkIdx.toNat) h here rfl (loopHead_owes ev)
  | dropped w item t typeName message healthRaises e here after why =>
    exact owing_finish (p := { p with failures := _ }) h here rfl after
  | retried w item t typeName message here few =>
    exact owing_finish (p := { p with failures := _ }.put _) (owing_put (p := { p with failures := _ }) h _)
      here rfl (loopHead_owes ev)
  | gaveUp w item t typeName message here =>
    exact owing_finish (p := { p with failures := _, lastError := _ }) h here rfl (loopHead_owes _)
  | wakes joinDone woken => exact leave_owing h _
  | stopped => exact leave_owing h _
  | joined zero => exact h
  | cancelled result run => exact h
  | ends result run => exact h
  | tick d => exact h

/-! ## When a fetch starts and when `run` goes on -/

/-- Every fetch under way started when its entry was due, and is a chunk's. -/
def Due (workers : List Worker) : Prop :=
  ∀ x ∈ workers, ∀ item t, x.pc = .fetching item t → item.retryTime ≤ t ∧ item.chunkIdx ≠ stopSentinel

theorem due_move (h : Due p.workers)
    (hpc' : ∀ item t, e = .fetching item t → item.retryTime ≤ t ∧ item.chunkIdx ≠ stopSentinel) :
    Due (p.move w e).workers := by
  intro x hx item t hxpc
  rcases mem_move hx with heq | hmem
  · exact hpc' item t (heq ▸ hxpc)
  · exact h x hmem item t hxpc

theorem due_down (h : Due p.workers) (hpc' : e.item? = none) : Due (p.move w e).workers := by
  refine due_move h fun item t heq => ?_
  rw [heq] at hpc'
  cases hpc'

theorem leave_due (h : Due p.workers) (result : RunResult) : Due (p.leave result).workers := by
  obtain ⟨n, hn⟩ := leave_spec p result
  rwa [hn.workers]

theorem poolStep_due {ev ev' : Events} {q : WorkerPool} {a : PoolAct} (h : Due p.workers)
    (hs : poolStep ev p a = some (ev', q)) : Due q.workers := by
  cases poolStep_moves hs with
  | starts w item rest banned allBanned here head chunk due =>
    refine due_move (p := { p with queue := rest }) h fun item' t heq => ?_
    cases heq
    exact ⟨Rat.not_lt.mp due, chunk⟩
  | idle a w pc e here free after other => exact due_down h (item_of_owes after)
  | pays a w pc e here debt after other down => exact due_down h (item_of_owes after)
  | sentinel w item rest banned allBanned here head chunk =>
    exact due_down (p := { p with queue := rest }) h rfl
  | putBack w item rest banned allBanned here head =>
    exact due_down (p := { p with queue := rest }.put item) (e := .backoff) h rfl
  | allBanned w item rest banned allBanned here head =>
    exact due_down (p := { p with queue := rest, lastError := _ }) h rfl
  | returned w item t here => exact due_down (p := p.record _) h (loopHead_item ev)
  | dropped w item t typeName message healthRaises e here after why =>
    exact due_down (p := { p with failures := _ }) h (item_of_owes after)
  | retried w item t typeName message here few =>
    exact due_down (p := { p with failures := _ }.put _) h (loopHead_item ev)
  | gaveUp w item t typeName message here =>
    exact due_down (p := { p with failures := _, lastError := _ }) h (loopHead_item _)
  | wakes joinDone woken => exact leave_due h _
  | stopped => exact leave_due h _
  | joined zero => exact h
  | cancelled result run => exact h
  | ends result run => exact h
  | tick d => exact h

/-- What an action does to `run` and to its wait for the queue. -/
structure Onward (ev : Events) (p : WorkerPool) (ev' : Events) (q : WorkerPool) : Prop where
  le : ev.Le ev'
  joined : q.joined = true → p.joined = true ∨ (p.unfinished = 0 ∧ q.tokens = p.tokens)
  stays : p.joined = true → q.joined = true
  leaving : q.run ≠ .waiting → p.run ≠ .waiting ∨ q.joined = true ∨ ev'.stopEvent = true

theorem onward_same {ev ev' : Events} {q : WorkerPool} (hle : ev.Le ev') (hj : q.joined = p.joined)
    (hr : q.run = p.run) : Onward ev p ev' q where
  le := hle
  joined h := Or.inl (hj ▸ h)
  stays h := hj.trans h
  leaving h := Or.inl (hr ▸ h)

theorem leave_onward {ev ev' : Events} {result : RunResult} (hle : ev.Le ev')
    (hleft : p.joined = true ∨ ev'.stopEvent = true) : Onward ev p ev' (p.leave result) := by
  obtain ⟨n, hn⟩ := leave_spec p result
  refine ⟨hle, fun h => Or.inl (hn.joined ▸ h), fun h => hn.joined.trans h, fun _ => Or.inr ?_⟩
  rwa [hn.joined]

theorem ended_onward {ev : Events} {r result : RunResult} (hrun : p.run = .leaving r) :
    Onward ev p ev { p with run := .ended result } := by
  refine ⟨Events.Le.refl ev, Or.inl, id, fun _ => Or.inl ?_⟩
  rw [hrun]
  exact fun h => RunPc.noConfusion h

theorem poolStep_onward {ev ev' : Events} {q : WorkerPool} {a : PoolAct}
    (hs : poolStep ev p a = some (ev', q)) : Onward ev p ev' q := by
  cases poolStep_moves hs with
  | joined zero => exact ⟨Events.Le.refl ev, fun _ => Or.inr ⟨zero, rfl⟩, fun _ => rfl, fun h => Or.inl h⟩
  | wakes joinDone woken =>
    refine leave_onward (Events.Le.refl ev) ?_
    split at woken
    · exact Or.inl woken
    · exact Or.inr woken
  | stopped => exact leave_onward ⟨fun _ => rfl, id⟩ (Or.inr rfl)
  | cancelled result run => exact ended_onward run
  | ends result run => exact ended_onward run
  | allBanned | gaveUp => exact onward_same (Events.le_stopBoth ev) rfl rfl
  | _ => exact onward_same (Events.Le.refl ev) rfl rfl

/-- With nothing unfinished no entry is left and nobody owes a `task_done`. -/
theorem Ledger.sentinels_of_zero {ev : Events} (h : Ledger ev p) (hzero : p.unfinished = 0) :
    ∀ item ∈ p.tokens, item.chunkIdx = stopSentinel := by
  have hempty := h.balance
  rw [hzero] at hempty
  have hqueue : p.queue = [] := List.length_eq_zero_iff.mp (by omega)
  have howed : p.owed = 0 := by omega
  intro item hitem
  rw [WorkerPool.tokens, hqueue, List.nil_append, mem_hands] at hitem
  obtain ⟨x, hx, t, hpc⟩ := hitem
  have hno := List.countP_eq_zero.mp howed x hx
  rw [hpc] at hno
  exact absurd rfl hno

theorem poolStep_ledger {ev ev' : Events} {q : WorkerPool} {a : PoolAct} (h : Ledger ev p)
    (hs : poolStep ev p a = some (ev', q)) : Ledger ev' q := by
  have hchange := poolStep_change h hs
  have honward := poolStep_onward hs
  obtain ⟨hbalance, hacked⟩ := poolStep_owing ⟨h.balance, h.acked⟩ hs
  refine ⟨poolStep_due h.due hs, hbalance, hacked, fun hj => ?_, fun hrun => ?_⟩
  · rcases honward.joined hj with hj' | ⟨hzero, htokens⟩
    · exact hchange.all_sentinels (h.joined hj')
    · rw [htokens]
      exact h.sentinels_of_zero hzero
  · rcases honward.leaving hrun with hleft | hnow
    · exact (h.leaving hleft).imp honward.stays honward.le.stopEvent
    · exact hnow

theorem poolStep_conserved {chunks : List ℕ} {ev ev' : Events} {q : WorkerPool} {a : PoolAct}
    (h : Conserved chunks ev p) (hs : poolStep ev p a = some (ev', q)) : Conserved chunks ev' q := by
  have hchange := poolStep_change h.ledger hs
  obtain ⟨hdue, hbalance, hacked, hjoined, hleaving⟩ := poolStep_ledger h.ledger hs
  exact ⟨fun i => (hchange.places h i).1.trans (h.once i), hchange.marked h, hdue, hbalance, hacked, hjoined,
    hleaving⟩

theorem poolStep_kept {chunks : List ℕ} {ev ev' : Events} {q : WorkerPool} {a : PoolAct}
    (h : Conserved chunks ev p) (hkept : Kept chunks ev p) (hcalm : a.lossy = false)
    (hs : poolStep ev p a = some (ev', q)) : Kept chunks ev' q := by
  intro hstop i hi
  rw [((poolStep_change h.ledger hs).places h i).2 hcalm hstop]
  exact hkept (Events.not_stopped_of_le (poolStep_onward hs).le hstop) i hi

/-- When `join` can be released, every chunk is completed. -/
theorem Kept.all_completed {chunks : List ℕ} {ev : Events} (hkept : Kept chunks ev p)
    (h : Conserved chunks ev p) (hstop : ev.stopEvent = false) (hend : p.unfinished = 0 ∨ p.joined = true) :
    ∀ i ∈ chunks, i ∈ p.completed := by
  intro i hi
  have hall : ∀ item ∈ p.tokens, item.chunkIdx = stopSentinel := hend.elim h.ledger.sentinels_of_zero h.joined
  have hnone : countOf i p.tokens = 0 := by
    refine List.countP_eq_zero.mpr fun item hitem => ?_
    rw [hall item hitem, decide_eq_true_eq]
    unfold stopSentinel
    omega
  have hplace := hkept hstop i hi
  rw [hnone, Nat.zero_add] at hplace
  exact Decidable.byContradiction fun hmem => Nat.zero_ne_one ((if_neg hmem).symm.trans hplace)

end

/-! ## Runs -/

/-- An action of the pool, or the events as other threads and callbacks leave them. -/
inductive MachineAct
  | pool (a : PoolAct)
  | events (ev : Events)
  deriving DecidableEq, Repr

def MachineAct.lossy : MachineAct → Bool
  | .pool a => a.lossy
  | .events _ => false

def machineStep (s : Events × WorkerPool) : MachineAct → Option (Events × WorkerPool)
  | .pool a => poolStep s.1 s.2 a
  | .events ev => if s.1.Le ev then some (ev, s.2) else none

theorem Conserved.le {chunks : List ℕ} {ev ev' : Events} {p : WorkerPool} (h : Conserved chunks ev p)
    (hle : ev.Le ev') : Conserved chunks ev' p :=
  { h with leaving := fun hrun => (h.leaving hrun).imp id hle.stopEvent }

theorem Kept.le {chunks : List ℕ} {ev ev' : Events} {p : WorkerPool} (h : Kept chunks ev p)
    (hle : ev.Le ev') : Kept chunks ev' p :=
  fun hstop => h (Events.not_stopped_of_le hle hstop)

theorem machineStep_conserved {chunks : List ℕ} {s s' : Events × WorkerPool} {a : MachineAct}
    (h : Conserved chunks s.1 s.2 ∧ Kept chunks s.1 s.2) (hcalm : a.lossy = false)
    (hs : machineStep s a = some s') : Conserved chunks s'.1 s'.2 ∧ Kept chunks s'.1 s'.2 := by
  cases a with
  | pool a => exact ⟨poolStep_conserved h.1 hs, poolStep_kept h.1 h.2 hcalm hs⟩
  | events ev =>
    simp only [machineStep, Option.ite_none_right_eq_some, Option.some.injEq] at hs
    obtain ⟨hle, rfl⟩ := hs
    exact ⟨h.1.le hle, h.2.le hle⟩

theorem init_hands (sources : List String) (threadsPerSource : ℕ) (chunks completed : List ℕ) :
    hands (WorkerPool.init sources threadsPerSource chunks completed).workers = [] := by
  refine List.filterMap_eq_nil_iff.mpr fun x hx => ?_
  obtain ⟨s, -, hx⟩ := List.mem_flatMap.mp hx
  rw [List.eq_of_mem_replicate hx]
  rfl

theorem init_startup {sources : List String} {threadsPerSource : ℕ} {chunks completed : List ℕ}
    {x : Worker} (hx : x ∈ (WorkerPool.init sources threadsPerSource chunks completed).workers) :
    x.pc = .startup := by
  obtain ⟨s, -, hx⟩ := List.mem_flatMap.mp hx
  rw [List.eq_of_mem_replicate hx]

theorem init_owed (sources : List String) (threadsPerSource : ℕ) (chunks completed : List ℕ) :
    (WorkerPool.init sources threadsPerSource chunks completed).owed = 0 := by
  apply List.countP_eq_zero.mpr
  intro x hx
  rw [init_startup hx]
  exact Bool.false_ne_true

theorem init_tokens (sources : List String) (threadsPerSource : ℕ) (chunks completed : List ℕ) :
    (WorkerPool.init sources threadsPerSource chunks completed).tokens.Perm
      (chunks.map fun i : ℕ => (⟨0, i, 0⟩ : QueueItem)) := by
  rw [WorkerPool.tokens, init_hands, List.append_nil]
  exact List.perm_insertionSort _ _

theorem countOf_chunks (i : ℕ) (chunks : List ℕ) :
    countOf i (chunks.map fun j : ℕ => (⟨0, j, 0⟩ : QueueItem)) = chunks.count i := by
  simp only [countOf, List.count, List.countP_map]
  refine List.countP_congr fun j _ => ?_
  simp only [Function.comp_apply, decide_eq_true_eq, beq_iff_eq]
  omega

theorem init_conserved (ev : Events) (sources : List String) (threadsPerSource : ℕ)
    {chunks completed : List ℕ} (hnodup : chunks.Nodup) (hdisjoint : ∀ i ∈ chunks, i ∉ completed) :
    Conserved chunks ev (WorkerPool.init sources threadsPerSource chunks completed) where
  once i := by
    rw [countOf_perm (init_tokens ..), countOf_chunks]
    have hcount := List.nodup_iff_count_le_one.mp hnodup i
    unfold WorkerPool.done
    split
    · rename_i hmem
      have hnot : i ∉ chunks := fun hi => hdisjoint i hi hmem
      rw [List.count_eq_zero_of_not_mem hnot]
    · exact hcount
  marked item hitem := by
    obtain ⟨i, hi, rfl⟩ := List.mem_map.mp ((init_tokens ..).subset hitem)
    exact Or.inr ⟨i, hi, rfl, rfl, Nat.zero_le _⟩
  due x hx item t hpc := by
    rw [init_startup hx] at hpc
    cases hpc
  balance := by
    rw [init_owed]
    simp [WorkerPool.init]
  acked := rfl
  joined h := by cases h
  leaving h := absurd rfl h

theorem init_kept (ev : Events) (sources : List String) (threadsPerSource : ℕ)
    {chunks completed : List ℕ} (hnodup : chunks.Nodup) (hdisjoint : ∀ i ∈ chunks, i ∉ completed) :
    Kept chunks ev (WorkerPool.init sources threadsPerSource chunks completed) := by
  intro _ i hi
  rw [countOf_perm (init_tokens ..), countOf_chunks, List.count_eq_one_of_mem hnodup hi]
  exact congrArg (1 + ·) (if_neg (hdisjoint i hi))

theorem conserved_of_run {sources : List String} {threadsPerSource : ℕ} {chunks completed : List ℕ}
    {ev : Events} {as : List MachineAct} {s : Events × WorkerPool} (hnodup : chunks.Nodup)
    (hdisjoint : ∀ i ∈ chunks, i ∉ completed)
    (hrun : exec machineStep (ev, WorkerPool.init sources threadsPerSource chunks completed) as = some s)
    (hcalm : ∀ a ∈ as, a.lossy = false) : Conserved chunks s.1 s.2 ∧ Kept chunks s.1 s.2 :=
  exec_guarded (P := fun s => Conserved chunks s.1 s.2 ∧ Kept chunks s.1 s.2)
    (G := fun _ a => a.lossy = false) (fun _ _ _ => machineStep_conserved)
    ⟨init_conserved ev sources threadsPerSource hnodup hdisjoint,
      init_kept ev sources threadsPerSource hnodup hdisjoint⟩ (Guarded.of_mem (fun _ => hcalm) _) hrun

/-- As long as the stop event is not set, every chunk is in the queue, in the hands of one worker or
completed; an entry knows its chunk's failures and is not fetched before it is due; the queue counts
what was taken and not acknowledged, so `join` is not released before every chunk is completed. -/
theorem chunk_in_one_place {sources : List String} {threadsPerSource : ℕ} {chunks completed : List ℕ}
    {ev : Events} {as : List MachineAct} {s : Events × WorkerPool} (hnodup : chunks.Nodup)
    (hdisjoint : ∀ i ∈ chunks, i ∉ completed)
    (hrun : exec machineStep (ev, WorkerPool.init sources threadsPerSource chunks completed) as = some s)
    (hcalm : ∀ a ∈ as, a.lossy = false) (hstop : s.1.stopEvent = false) :
    (∀ i ∈ chunks, countOf i s.2.queue + countOf i (hands s.2.workers) + s.2.done i = 1) ∧
      (∀ item ∈ s.2.queue ++ hands s.2.workers, ∀ i ∈ chunks, item.chunkIdx = (i : ℤ) →
        item.retries = s.2.failures.count i ∧ item.retries ≤ 5) ∧
      (∀ x ∈ s.2.workers, ∀ item t, x.pc = .fetching item t → item.retryTime ≤ t) ∧
      s.2.unfinished = s.2.queue.length + s.2.owed ∧ s.2.misacked = false ∧
      (s.2.unfinished = 0 ∨ s.2.joined = true → ∀ i ∈ chunks, i ∈ s.2.completed) := by
  obtain ⟨h, hkept⟩ := conserved_of_run hnodup hdisjoint hrun hcalm
  refine ⟨fun i hi => ?_, fun item hitem i _ hidx => ?_, fun x hx item t hpc => (h.due x hx item t hpc).1,
    h.balance, h.acked, fun hend i hi => ?_⟩
  · have hplace := hkept hstop i hi
    rwa [WorkerPool.tokens, countOf_append] at hplace
  · have hchunk : item.chunkIdx ≠ stopSentinel := by
      unfold stopSentinel
      omega
    obtain ⟨j, -, hj, hcount, hle⟩ := (h.marked item hitem).resolve_left hchunk
    have hij : j = i := by omega
    exact ⟨hij ▸ hcount, hle⟩
  · exact hkept.all_completed h hstop hend i hi

/-- Two workers on two chunks: chunk 0 has failed once and waits, chunk 1 is fetched. -/
def failedOnce : List MachineAct :=
  [.pool (.wake 0 false), .pool (.openGate 0), .pool (.passGate 0), .pool (.get 0 false false),
    .pool (.fetchFailed 0 "FetchError" "reset" false), .pool (.wake 1 false), .pool (.openGate 1),
    .pool (.passGate 1), .pool (.get 1 false false)]

theorem chunk_in_one_place_failedOnce : ∃ s : Events × WorkerPool,
    exec machineStep (({} : Events), WorkerPool.init ["a", "b"] 1 [0, 1] []) failedOnce = some s ∧
      countOf 0 s.2.queue + countOf 0 (hands s.2.workers) + s.2.done 0 = 1 := by
  refine ⟨(exec machineStep (({} : Events), WorkerPool.init ["a", "b"] 1 [0, 1] []) failedOnce).get
    (by decide +kernel), (Option.some_get _).symm, ?_⟩
  exact (chunk_in_one_place (by decide : ([0, 1] : List ℕ).Nodup) (by decide) (Option.some_get _).symm
    (by decide) (by decide +kernel)).1 0 (by decide)

end Mrdl.Workers
