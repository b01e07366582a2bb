import Mathlib.Data.Set.Insert
import Mathlib.Data.Fintype.Lattice
import Mathlib.Logic.Function.Basic
import Mrdl.Foundations.Runs

/-! # Threads that take locks

Each thread carries out operations one after the other. An operation takes and gives back locks, reads
and changes what the threads share, and branches; between any two of its steps every other thread may
go. When all operations take their locks in the order of a rank (`Ordered`), no thread waits for a lock
below one it holds, and the threads never all stand still (`Disciplined.canLock`).
-/

namespace Mrdl.Locks
open Runs
set_option autoImplicit false

variable {L S O T : Type*}

/-- What is left of an operation. `choose` is a branch on something outside the shared state, and
`again` starts an operation over. -/
inductive Code (L S O : Type*)
  | done
  | again (op : O)
  | acquire (l : L) (next : Code L S O)
  | release (l : L) (next : Code L S O)
  | look (next : S → Code L S O)
  | change (f : S → S) (next : Code L S O)
  | choose (next : Bool → Code L S O)

structure Thread (L S O : Type*) where
  code : Code L S O := .done
  ops : List O

/-- `owner l` is the thread that has taken `l` and not given it back; a lock is not reentrant. -/
structure System (T L S O : Type*) where
  shared : S
  owner : L → Option T := fun _ => none
  threads : T → Thread L S O

namespace Code

/-- The next step is on a lock. -/
def AtLock : Code L S O → Prop
  | .acquire _ _ | .release _ _ => True
  | _ => False

/-- Taking every lock above the ones held, giving back what is held, and holding nothing at the end. -/
def Ordered (rank : L → ℕ) : Code L S O → Set L → Prop
  | .done, held => held = ∅
  | .again _, held => held = ∅
  | .acquire l next, held => (∀ k ∈ held, rank k < rank l) ∧ next.Ordered rank (insert l held)
  | .release l next, held => l ∈ held ∧ next.Ordered rank (held \ {l})
  | .look next, held => ∀ s, (next s).Ordered rank held
  | .change _ next, held => next.Ordered rank held
  | .choose next, held => ∀ b, (next b).Ordered rank held

/-- Giving back the lock taken last. -/
theorem ordered_release {rank : L → ℕ} {l : L} {next : Code L S O} {held : Set L}
    (hl : ∀ k ∈ held, rank k < rank l) (h : next.Ordered rank held) :
    (release l next).Ordered rank (insert l held) := by
  have hnot : l ∉ held := fun hmem => lt_irrefl _ (hl l hmem)
  refine ⟨Set.mem_insert l held, ?_⟩
  rw [Set.insert_sdiff_self_of_notMem hnot]
  exact h

theorem ordered_ite {rank : L → ℕ} {P : Prop} [Decidable P] {c d : Code L S O} {held : Set L}
    (hc : c.Ordered rank held) (hd : d.Ordered rank held) : (if P then c else d).Ordered rank held := by
  split
  · exact hc
  · exact hd

theorem ordered_look {rank : L → ℕ} {next : S → Code L S O} {held : Set L}
    (h : ∀ s, (next s).Ordered rank held) : (look next).Ordered rank held := h

theorem ordered_choose {rank : L → ℕ} {next : Bool → Code L S O} {held : Set L}
    (h : ∀ b, (next b).Ordered rank held) : (choose next).Ordered rank held := h

/-- What is left, and what is shared, when a thread goes on alone up to its next lock. -/
def upToLock : Code L S O → S → Code L S O × S
  | .look next, s => (next s).upToLock s
  | .change f next, s => next.upToLock (f s)
  | .choose next, s => (next false).upToLock s
  | c, s => (c, s)

theorem Ordered.upToLock {rank : L → ℕ} {c : Code L S O} {held : Set L} (h : c.Ordered rank held)
    (s : S) : (c.upToLock s).1.Ordered rank held := by
  induction c generalizing s with
  | look next ih => exact ih s (h s) s
  | change f next ih => exact ih h (f s)
  | choose next ih => exact ih false (h false) s
  | done => exact h
  | again op => exact h
  | acquire l next => exact h
  | release l next => exact h

/-- Whoever holds a lock comes to another step on a lock. -/
theorem Ordered.atLock {rank : L → ℕ} {c : Code L S O} {held : Set L} {l : L}
    (h : c.Ordered rank held) (hl : l ∈ held) (s : S) : (c.upToLock s).1.AtLock := by
  induction c generalizing s with
  | look next ih => exact ih s (h s) s
  | change f next ih => exact ih h (f s)
  | choose next ih => exact ih false (h false) s
  | done | again op =>
    rw [Ordered] at h
    rw [h] at hl
    exact absurd hl (Set.notMem_empty l)
  | acquire l next => trivial
  | release l next => trivial

end Code

/-! ## Steps -/

namespace System

/-- What the thread `t` holds. -/
def held (s : System T L S O) (t : T) : Set L := {l | s.owner l = some t}

section
variable [DecidableEq T]

/-- The thread `t` goes on with `c`. -/
def goes (s : System T L S O) (t : T) (c : Code L S O) : System T L S O :=
  { s with threads := Function.update s.threads t { s.threads t with code := c } }

@[simp] theorem goes_owner (s : System T L S O) (t : T) (c : Code L S O) : (s.goes t c).owner = s.owner :=
  rfl

@[simp] theorem held_goes (s : System T L S O) (t : T) (c : Code L S O) (u : T) :
    (s.goes t c).held u = s.held u := rfl

@[simp] theorem goes_code (s : System T L S O) (t : T) (c : Code L S O) :
    ((s.goes t c).threads t).code = c := by
  simp [goes]

theorem goes_other (s : System T L S O) {t u : T} (c : Code L S O) (h : u ≠ t) :
    (s.goes t c).threads u = s.threads u := by
  simp only [goes, Function.update_of_ne h]

end

section
variable [DecidableEq L]

/-- The lock is taken by `o`, or free. -/
def withOwner (s : System T L S O) (l : L) (o : Option T) : System T L S O :=
  { s with owner := Function.update s.owner l o }

@[simp] theorem withOwner_threads (s : System T L S O) (l : L) (o : Option T) :
    (s.withOwner l o).threads = s.threads := rfl

theorem held_withOwner [DecidableEq T] (s : System T L S O) (l : L) (o : Option T) (u : T) :
    (s.withOwner l o).held u = if o = some u then insert l (s.held u) else s.held u \ {l} := by
  ext k
  by_cases hk : k = l
  · subst hk
    split <;> rename_i ho <;> simp [held, withOwner, ho]
  · split <;> simp [held, withOwner, hk]

end

section
variable [DecidableEq T] [DecidableEq L] (body : O → Code L S O)

/-- One step of the thread `a.1`; `a.2` is the branch it takes at a `choose`. An `acquire` waits while
any thread has the lock, also when it is the thread itself. -/
def step (s : System T L S O) (a : T × Bool) : Option (System T L S O) :=
  match (s.threads a.1).code with
  | .done =>
      match (s.threads a.1).ops with
      | [] => none
      | op :: ops => some { s with threads := Function.update s.threads a.1 ⟨body op, ops⟩ }
  | .again op => some (s.goes a.1 (body op))
  | .acquire l next =>
      if s.owner l = none then
        some ((s.goes a.1 next).withOwner l (some a.1))
      else none
  | .release l next => some ((s.goes a.1 next).withOwner l none)
  | .look next => some (s.goes a.1 (next s.shared))
  | .change f next => some { s.goes a.1 next with shared := f s.shared }
  | .choose next => some (s.goes a.1 (next a.2))

/-- The thread `t`, going on alone, carries out a step on a lock. -/
def CanLock (s : System T L S O) (t : T) : Prop :=
  ∃ as u, (∀ a ∈ as, a.1 = t) ∧ exec (step body) s as = some u ∧ u.owner = s.owner ∧
    (u.threads t).code.AtLock ∧ step body u (t, false) ≠ none

end

/-- The thread's next step is to take the lock. -/
def Wants (s : System T L S O) (t : T) (l : L) : Prop := ∃ next, (s.threads t).code = .acquire l next

/-- The thread's next step is to take the lock, and the lock is taken. -/
def Waits (s : System T L S O) (t : T) (l : L) : Prop := s.Wants t l ∧ s.owner l ≠ none

/-! ## All operations take their locks in order -/

/-- Every thread is at a point of an ordered operation that fits the locks it holds. -/
def Disciplined (rank : L → ℕ) (s : System T L S O) : Prop :=
  ∀ t, (s.threads t).code.Ordered rank (s.held t)

theorem Disciplined.init (rank : L → ℕ) (shared : S) (ops : T → List O) :
    Disciplined rank { shared := shared, threads := fun t => { ops := ops t } : System T L S O } := by
  intro t
  show {l : L | (none : Option T) = some t} = ∅
  simp

/-- A thread wants only locks above all it holds. -/
theorem Disciplined.wants_above {rank : L → ℕ} {s : System T L S O} (h : Disciplined rank s) {t : T} {k l : L}
    (hwants : s.Wants t l) (hk : s.owner k = some t) : rank k < rank l := by
  obtain ⟨next, hcode⟩ := hwants
  have ht := h t
  rw [hcode] at ht
  exact ht.1 k hk

section
variable [DecidableEq T] [DecidableEq L] {body : O → Code L S O} {rank : L → ℕ} {s s' : System T L S O}

/-- What one step does: to a lock, or to nothing but the thread's own place and the shared state. -/
inductive Moves (body : O → Code L S O) (s : System T L S O) (t : T) : System T L S O → Prop
  | inside (th : Thread L S O) (shared : S)
      (hcode : ∀ {rank : L → ℕ} {held : Set L}, (∀ op, (body op).Ordered rank ∅) →
        (s.threads t).code.Ordered rank held → th.code.Ordered rank held) :
      Moves body s t { s with shared := shared, threads := Function.update s.threads t th }
  | acquires (l : L) (next : Code L S O) (hcode : (s.threads t).code = .acquire l next)
      (hfree : s.owner l = none) :
      Moves body s t ((s.goes t next).withOwner l (some t))
  | releases (l : L) (next : Code L S O) (hcode : (s.threads t).code = .release l next) :
      Moves body s t ((s.goes t next).withOwner l none)

theorem step_moves {a : T × Bool} (h : s.step body a = some s') : Moves body s a.1 s' := by
  unfold step at h
  split at h
  · rename_i hcode
    split at h <;> cases h
    refine .inside _ s.shared fun hbody hold => ?_
    rw [hcode, Code.Ordered] at hold
    exact hold ▸ hbody _
  · rename_i op hcode
    cases h
    refine .inside _ s.shared fun hbody hold => ?_
    rw [hcode, Code.Ordered] at hold
    exact hold ▸ hbody op
  · rename_i l next hcode
    split at h <;> cases h
    rename_i hfree
    exact .acquires l next hcode hfree
  · rename_i l next hcode
    cases h
    exact .releases l next hcode
  · rename_i next hcode
    cases h
    refine .inside _ s.shared fun _ hold => ?_
    rw [hcode] at hold
    exact hold s.shared
  · rename_i f next hcode
    cases h
    refine .inside { s.threads a.1 with code := next } (f s.shared) fun _ hold => ?_
    rw [hcode] at hold
    exact hold
  · rename_i next hcode
    cases h
    refine .inside _ s.shared fun _ hold => ?_
    rw [hcode] at hold
    exact hold a.2

theorem Disciplined.step (hbody : ∀ op, (body op).Ordered rank ∅) (h : Disciplined rank s)
    {a : T × Bool} (hs : s.step body a = some s') : Disciplined rank s' := by
  intro u
  have hu := h u
  cases step_moves hs with
  | inside th shared hcode =>
    by_cases hut : u = a.1
    · subst hut
      simp only [Function.update_self]
      exact hcode hbody hu
    · simp only [Function.update_of_ne hut]
      exact hu
  | acquires l next hcode hfree =>
    rw [held_withOwner, withOwner_threads, held_goes]
    by_cases hut : u = a.1
    · subst hut
      rw [hcode] at hu
      rw [if_pos rfl, goes_code]
      exact hu.2
    · have hnot : l ∉ s.held u := by simp [held, hfree]
      rw [if_neg (by simpa using Ne.symm hut), Set.sdiff_singleton_eq_self hnot, goes_other _ _ hut]
      exact hu
  | releases l next hcode =>
    have hl : s.owner l = some a.1 := by
      have ha := h a.1
      rw [hcode] at ha
      exact ha.1
    rw [held_withOwner, withOwner_threads, held_goes, if_neg (by simp)]
    by_cases hut : u = a.1
    · subst hut
      rw [hcode] at hu
      rw [goes_code]
      exact hu.2
    · have hnot : l ∉ s.held u := by simp [held, hl, Ne.symm hut]
      rw [Set.sdiff_singleton_eq_self hnot, goes_other _ _ hut]
      exact hu

theorem Disciplined.run (hbody : ∀ op, (body op).Ordered rank ∅) (h : Disciplined rank s)
    {as : List (T × Bool)} (hrun : exec (System.step body) s as = some s') : Disciplined rank s' :=
  exec_invariant (fun _ _ _ hs hstep => hs.step hbody hstep) h hrun

/-! ## Somebody can go on -/

/-- Alone, a thread comes to its next lock without touching any on the way. -/
theorem exec_upToLock (body : O → Code L S O) (s : System T L S O) (t : T) :
    ∃ as u, (∀ a ∈ as, a.1 = t) ∧ exec (System.step body) s as = some u ∧ u.owner = s.owner ∧
      (u.threads t).code = ((s.threads t).code.upToLock s.shared).1 := by
  generalize hc : (s.threads t).code = c
  induction c generalizing s with
  | look next ih =>
    obtain ⟨as, u, has, hrun, howner, hcode⟩ := ih s.shared (s.goes t (next s.shared)) (by simp [goes])
    refine ⟨(t, false) :: as, u, by simpa using has, exec_cons.mpr ⟨_, ?_, hrun⟩, howner, hcode⟩
    simp [System.step, hc]
  | change f next ih =>
    obtain ⟨as, u, has, hrun, howner, hcode⟩ :=
      ih { s.goes t next with shared := f s.shared } (by simp [goes])
    refine ⟨(t, false) :: as, u, by simpa using has, exec_cons.mpr ⟨_, ?_, hrun⟩, howner, hcode⟩
    simp [System.step, hc]
  | choose next ih =>
    obtain ⟨as, u, has, hrun, howner, hcode⟩ := ih false (s.goes t (next false)) (by simp [goes])
    refine ⟨(t, false) :: as, u, by simpa using has, exec_cons.mpr ⟨_, ?_, hrun⟩, howner, hcode⟩
    simp [System.step, hc]
  | done => exact ⟨[], s, by simp, rfl, rfl, hc⟩
  | again op => exact ⟨[], s, by simp, rfl, rfl, hc⟩
  | acquire l next => exact ⟨[], s, by simp, rfl, rfl, hc⟩
  | release l next => exact ⟨[], s, by simp, rfl, rfl, hc⟩

/-- The rank, plus one, of the lock a thread takes next; 0 when it gives one back or is between two
operations. -/
def wanted (rank : L → ℕ) (s : System T L S O) (t : T) : ℕ :=
  match ((s.threads t).code.upToLock s.shared).1 with
  | .acquire l _ => rank l + 1
  | _ => 0

/-- Some thread is not kept waiting, as long as one is at a lock: of all threads the one with the
highest lock ahead of it, or who has that lock. -/
theorem Disciplined.canLock [Finite T] (h : Disciplined rank s) {t₀ : T} {l₀ : L} (hwants : s.Wants t₀ l₀) :
    ∃ t, s.CanLock body t := by
  have : Nonempty T := ⟨t₀⟩
  obtain ⟨t, hmax⟩ := Finite.exists_max (s.wanted rank)
  have hpos : 0 < s.wanted rank t := by
    obtain ⟨next, hcode⟩ := hwants
    have h0 : s.wanted rank t₀ = rank l₀ + 1 := by simp [wanted, hcode, Code.upToLock]
    have := hmax t₀
    omega
  obtain ⟨as, u, has, hrun, howner, hcode⟩ := exec_upToLock body s t
  obtain ⟨l, next, hl⟩ : ∃ l next, ((s.threads t).code.upToLock s.shared).1 = .acquire l next := by
    unfold wanted at hpos
    split at hpos
    · rename_i l next hl
      exact ⟨l, next, hl⟩
    · omega
  rw [hl] at hcode
  rcases hfree : s.owner l with _ | t'
  · refine ⟨t, as, u, has, hrun, howner, by rw [hcode]; trivial, ?_⟩
    simp [System.step, hcode, howner, hfree]
  · obtain ⟨as', u', has', hrun', howner', hcode'⟩ := exec_upToLock body s t'
    have hord := (h t').upToLock s.shared
    have hat := (h t').atLock (show l ∈ s.held t' from hfree) s.shared
    rw [← hcode'] at hord hat
    cases hc : (u'.threads t').code with
    | acquire l' next' =>
      rw [hc] at hord
      have hlt : rank l < rank l' := hord.1 l hfree
      have hw : s.wanted rank t = rank l + 1 := by simp [wanted, hl]
      have hw' : s.wanted rank t' = rank l' + 1 := by simp [wanted, ← hcode', hc]
      have := hmax t'
      omega
    | release l' next' =>
      refine ⟨t', as', u', has', hrun', howner', by rw [hc]; trivial, ?_⟩
      simp [System.step, hc]
    | done | again | look | change | choose =>
      rw [hc] at hat
      exact hat.elim

end
end System
end Mrdl.Locks
