import Mathlib.Data.List.Induction
import Mathlib.Tactic.Linarith
import Mrdl.Workers.Tracked

/-! # How long a ban lasts

`record_failure` overwrites the end of a mirror's ban. A ban lasts as long as each of its failures asks
for while no failure is recorded that ends before the ban in force; the first one that does cuts the ban
short.
-/

namespace Mrdl.Workers
open Runs
set_option autoImplicit false

/-- A call of `record_failure`. -/
structure FailureCall where
  time : ℚ
  error : Failure
  source : String
  deriving DecidableEq, Repr

/-- The ban of the failure is running at the time `now`. -/
def FailureCall.window (c : FailureCall) (now : ℚ) : Bool :=
  c.error.banDuration.any fun d => (d.from c.time).after now

/-- Some failure of the mirror bans it at the time `now`. -/
def barred (calls : List FailureCall) (now : ℚ) (source : String) : Bool :=
  calls.any fun c => c.source == source && c.window now

/-- A call that raises leaves the tracker as it was. -/
def recordCall (h : MirrorHealthTracker) (c : FailureCall) : MirrorHealthTracker :=
  (h.recordFailure c.time c.error c.source).getD h

def recordAll (h : MirrorHealthTracker) (calls : List FailureCall) : MirrorHealthTracker :=
  calls.foldl recordCall h

/-- `a < b`. -/
def Instant.before : Instant → Instant → Bool
  | .finite a, .finite b => decide (a < b)
  | .finite _, .infinite => true
  | .infinite, _ => false

/-- The mirror is banned for longer than the failure asks for. -/
def Shortens (h : MirrorHealthTracker) (c : FailureCall) : Bool :=
  c.error.banDuration.any fun d => (h.banned.lookup c.source).any fun e => (d.from c.time).before e

/-- At every later time `is_banned` and `get_active_count` answer by the failures. -/
def Honoured (calls : List FailureCall) (h : MirrorHealthTracker) : Prop :=
  ∀ t, 0 ≤ t → (∀ c ∈ calls, c.time ≤ t) →
    (∀ s, barred calls t s = true → h.isBanned t s = true) ∧
      ∀ sources, h.getActiveCount t sources = sources.countP fun s => !barred calls t s

/-! ## Ends of bans -/

theorem Instant.after_of_not_before {a b : Instant} {t : ℚ} (h : a.before b = false) (hb : b.after t = true) :
    a.after t = true := by
  cases a with
  | infinite => rfl
  | finite x =>
    cases b with
    | infinite => cases h
    | finite y =>
      simp only [Instant.before, Instant.after, decide_eq_false_iff_not, not_lt, decide_eq_true_eq] at h hb ⊢
      exact hb.trans_le h

theorem Instant.not_before_trans {a b c : Instant} (h : a.before b = false) (h' : b.before c = false) :
    a.before c = false := by
  cases a with
  | infinite => rfl
  | finite x =>
    cases b with
    | infinite => cases h
    | finite y =>
      cases c with
      | infinite => cases h'
      | finite z =>
        simp only [Instant.before, decide_eq_false_iff_not, not_lt] at h h' ⊢
        exact h'.trans h

theorem Instant.before_irrefl (a : Instant) : a.before a = false := by
  cases a <;> simp [Instant.before]

/-- The end of a ban that is not the later one is a time at which the later one still runs. -/
theorem Instant.exists_between {a b : Instant} (h : a.before b = true) :
    ∃ q, a = .finite q ∧ b.after q = true := by
  cases a with
  | infinite => cases h
  | finite q =>
    refine ⟨q, rfl, ?_⟩
    cases b with
    | infinite => rfl
    | finite y => exact h

theorem foldl_digits_nonneg {digits : List ℚ} {n : ℚ} (hn : 0 ≤ n) (hdigits : ∀ d ∈ digits, 0 ≤ d) :
    0 ≤ digits.foldl (fun n d => 10 * n + d) n := by
  induction digits generalizing n with
  | nil => exact hn
  | cons d digits ih =>
    have hd := hdigits d (List.mem_cons_self ..)
    exact ih (by linarith) fun x hx => hdigits x (List.mem_cons_of_mem _ hx)

theorem banDuration_nonneg {e : Failure} {q : ℚ} (h : e.banDuration = some (.finite q)) : 0 ≤ q := by
  have hconst : ∀ n : ℕ, some (Instant.finite (n : ℚ)) = some (.finite q) → 0 ≤ q := by
    intro n hn
    cases hn
    exact Nat.cast_nonneg n
  unfold Failure.banDuration at h
  split at h
  · exact hconst 120 h
  · split at h
    · obtain ⟨digits, -, hvalue⟩ := Option.map_eq_some_iff.mp h
      simp only at hvalue
      split at hvalue
      · cases hvalue
        refine foldl_digits_nonneg le_rfl fun d hd => ?_
        obtain ⟨n, -, rfl⟩ : ∃ n ∈ digits, d = (n : ℚ) := by simpa using hd
        exact Nat.cast_nonneg n
      · cases hvalue
    · exact hconst 120 h
  · exact hconst 120 h
  · exact hconst 60 h

/-! ## What the tracker holds -/

section
variable {h h' : MirrorHealthTracker} {calls : List FailureCall} {c : FailureCall} {s : String} {d e : Instant}

/-- The ban in force comes from a failure, and no failure asked for a longer one. -/
structure Longest (calls : List FailureCall) (h : MirrorHealthTracker) : Prop where
  recorded : ∀ s e, h.banned.lookup s = some e →
    ∃ c ∈ calls, c.source = s ∧ ∃ d, c.error.banDuration = some d ∧ e = d.from c.time
  longest : ∀ c ∈ calls, ∀ d, c.error.banDuration = some d →
    ∃ e, h.banned.lookup c.source = some e ∧ e.before (d.from c.time) = false

theorem recordCall_none (hd : c.error.banDuration = none) : recordCall h c = h := by
  simp [recordCall, MirrorHealthTracker.recordFailure, hd]

theorem recordCall_lookup (hd : c.error.banDuration = some d) (s : String) :
    (recordCall h c).banned.lookup s = if s = c.source then some (d.from c.time) else h.banned.lookup s := by
  simp only [recordCall, MirrorHealthTracker.recordFailure, hd, Option.map_some, Option.getD_some,
    List.lookup_cons]
  by_cases hs : s = c.source
  · simp [hs]
  · have hbeq : (s == c.source) = false := by simpa using hs
    simp [hs, hbeq]

theorem recordAll_concat (h : MirrorHealthTracker) (calls : List FailureCall) (c : FailureCall) :
    recordAll h (calls ++ [c]) = recordCall (recordAll h calls) c := by
  simp [recordAll]

theorem not_shortens (hns : Shortens h c = false) (hd : c.error.banDuration = some d)
    (he : h.banned.lookup c.source = some e) : (d.from c.time).before e = false := by
  simpa [Shortens, hd, he] using hns

/-- A ban after another call was there before it, or is asked for by it. -/
theorem recordCall_recorded (hbefore : ∀ e, h.banned.lookup s = some e →
      ∃ c ∈ calls, c.source = s ∧ ∃ d, c.error.banDuration = some d ∧ e = d.from c.time)
    (he : (recordCall h c).banned.lookup s = some e) :
    ∃ c' ∈ calls ++ [c], c'.source = s ∧ ∃ d, c'.error.banDuration = some d ∧ e = d.from c'.time := by
  have hold : h.banned.lookup s = some e →
      ∃ c' ∈ calls ++ [c], c'.source = s ∧ ∃ d, c'.error.banDuration = some d ∧ e = d.from c'.time := by
    intro he
    obtain ⟨c', hc', hrest⟩ := hbefore e he
    exact ⟨c', List.mem_append_left _ hc', hrest⟩
  cases hd : c.error.banDuration with
  | none =>
    rw [recordCall_none hd] at he
    exact hold he
  | some d =>
    rw [recordCall_lookup hd] at he
    split at he
    · rename_i hs
      exact ⟨c, List.mem_append_right _ (List.mem_singleton_self c), hs.symm, d, hd, (Option.some.inj he).symm⟩
    · exact hold he

theorem Longest.record (hl : Longest calls h) (hns : Shortens h c = false) :
    Longest (calls ++ [c]) (recordCall h c) := by
  refine ⟨fun s e => recordCall_recorded (hl.recorded s), fun c' hc' d' hd' => ?_⟩
  rcases List.mem_append.mp hc' with hc' | hc'
  · obtain ⟨e, he, hbefore⟩ := hl.longest c' hc' d' hd'
    cases hd : c.error.banDuration with
    | none =>
      rw [recordCall_none hd]
      exact ⟨e, he, hbefore⟩
    | some d =>
      rw [recordCall_lookup hd]
      split
      · rename_i hs
        rw [hs] at he
        -- the new ban ends no earlier than the one in force, which ends no earlier than this one
        refine ⟨_, rfl, ?_⟩
        exact Instant.not_before_trans (not_shortens hns hd he) hbefore
      · exact ⟨e, he, hbefore⟩
  · obtain rfl := List.mem_singleton.mp hc'
    rw [recordCall_lookup hd']
    exact ⟨_, if_pos rfl, Instant.before_irrefl _⟩

theorem barred_iff {t : ℚ} : barred calls t s = true ↔
    ∃ c ∈ calls, c.source = s ∧ ∃ d, c.error.banDuration = some d ∧ (d.from c.time).after t = true := by
  simp [barred, FailureCall.window, Option.any_eq_true]

/-- Then the tracker answers by the failures. -/
theorem Longest.isBanned_eq (hl : Longest calls h) {t : ℚ} (ht : 0 ≤ t) (s : String) :
    h.isBanned t s = barred calls t s := by
  rw [Bool.eq_iff_iff, barred_iff, MirrorHealthTracker.isBanned]
  constructor
  · intro hb
    cases he : h.banned.lookup s with
    | none =>
      rw [he] at hb
      exact absurd (of_decide_eq_true hb) (not_lt.mpr ht)
    | some e =>
      rw [he] at hb
      obtain ⟨c, hc, hs, d, hd, rfl⟩ := hl.recorded s e he
      exact ⟨c, hc, hs, d, hd, hb⟩
  · rintro ⟨c, hc, rfl, d, hd, hafter⟩
    obtain ⟨e, he, hbefore⟩ := hl.longest c hc d hd
    rw [he]
    exact Instant.after_of_not_before hbefore hafter

theorem Longest.honoured (hl : Longest calls h) : Honoured calls h := by
  intro t ht _
  refine ⟨fun s hs => by rw [hl.isBanned_eq ht, hs], fun sources => ?_⟩
  rw [MirrorHealthTracker.getActiveCount]
  congr 1
  funext s
  rw [hl.isBanned_eq ht]

end

/-- No call shortens the ban that the calls before it left. -/
def Calm (calls : List FailureCall) : Prop :=
  ∀ before c after, calls = before ++ c :: after → Shortens (recordAll {} before) c = false

theorem Calm.of_append {calls rest : List FailureCall} (h : Calm (calls ++ rest)) : Calm calls := by
  intro before c after heq
  exact h before c (after ++ rest) (by rw [heq]; simp)

theorem Calm.longest {calls : List FailureCall} (h : Calm calls) : Longest calls (recordAll {} calls) := by
  induction calls using List.reverseRecOn with
  | nil => exact ⟨fun s e he => (by cases he), fun c hc => (by cases hc)⟩
  | append_singleton calls c ih =>
    rw [recordAll_concat]
    exact (ih h.of_append).record (h calls c [] rfl)

/-- What the tracker holds was recorded. -/
theorem recordAll_recorded {calls : List FailureCall} {s : String} {e : Instant}
    (he : (recordAll {} calls).banned.lookup s = some e) :
    ∃ c ∈ calls, c.source = s ∧ ∃ d, c.error.banDuration = some d ∧ e = d.from c.time := by
  induction calls using List.reverseRecOn generalizing e with
  | nil => cases he
  | append_singleton calls c ih =>
    rw [recordAll_concat] at he
    exact recordCall_recorded (fun _ => ih) he

/-- A ban that is cut short is one that the tracker forgets while it should run. -/
theorem not_honoured_of_shortens {before : List FailureCall} {c : FailureCall} (hnow : 0 ≤ c.time)
    (hlast : ∀ c' ∈ before, c'.time ≤ c.time) (hs : Shortens (recordAll {} before) c = true) :
    ¬ Honoured (before ++ [c]) (recordAll {} (before ++ [c])) := by
  intro hon
  obtain ⟨d, hd, e, he, hbefore⟩ : ∃ d, c.error.banDuration = some d ∧
      ∃ e, (recordAll {} before).banned.lookup c.source = some e ∧ (d.from c.time).before e = true := by
    simpa [Shortens, Option.any_eq_true] using hs
  obtain ⟨q, hq, hafter⟩ := Instant.exists_between hbefore
  have hlater : c.time ≤ q := by
    cases d with
    | infinite => cases hq
    | finite x =>
      cases hq
      exact le_add_of_nonneg_right (banDuration_nonneg hd)
  obtain ⟨c', hc', hsource, d', hd', rfl⟩ := recordAll_recorded he
  have hbanned := (hon q (hnow.trans hlater) (by
    intro x hx
    rcases List.mem_append.mp hx with hx | hx
    · exact (hlast x hx).trans hlater
    · rw [List.mem_singleton.mp hx]
      exact hlater)).1 c.source
    (barred_iff.mpr ⟨c', List.mem_append_left _ hc', hsource, d', hd', hafter⟩)
  rw [MirrorHealthTracker.isBanned, recordAll_concat, recordCall_lookup hd, if_pos rfl, Option.getD_some,
    hq] at hbanned
  exact absurd (of_decide_eq_true hbanned) (lt_irrefl q)

/-! ## The pool -/

/-- The call of `record_failure` in a step. -/
def failureOf (s : TrackedPool) : TrackedAct → List FailureCall
  | .fetchFailed w e =>
      match s.source w with
      | none => []
      | some source => [⟨s.pool.now, e.recorded, source⟩]
  | _ => []

def failuresIn (sources : List String) : TrackedPool → List TrackedAct → List FailureCall
  | _, [] => []
  | s, a :: as =>
      failureOf s a ++
        match trackedStep sources s a with
        | none => []
        | some t => failuresIn sources t as

/-- The step records no failure that shortens a ban. -/
def RecordsCalmly (s : TrackedPool) (a : TrackedAct) : Prop :=
  ∀ c ∈ failureOf s a, Shortens s.health c = false

section
variable {sources : List String} {s t : TrackedPool} {calls : List FailureCall}

theorem health_step {a : TrackedAct} (hs : trackedStep sources s a = some t) :
    t.health = recordAll s.health (failureOf s a) := by
  cases trackedStep_moves hs with
  | pool a free step health => exact health
  | get w source here step health => exact health
  | failed w e source here record step =>
    have hfail : failureOf s (.fetchFailed w e) = [⟨s.pool.now, e.recorded, source⟩] := by
      simp only [failureOf, here]
    rw [hfail, recordAll, List.foldl_cons, List.foldl_nil, recordCall, record, Option.getD_some]
  | unreadable w e header step health =>
    rw [health, failureOf]
    cases s.source w with
    | none => rfl
    | some source =>
      have hnone := banDuration_eq_none.mpr header
      exact (recordCall_none (c := ⟨s.pool.now, e.recorded, source⟩) hnone).symm
  | events ev le next =>
    rw [next]
    rfl

theorem failureOf_cases (s : TrackedPool) (a : TrackedAct) :
    failureOf s a = [] ∨ ∃ c, failureOf s a = [c] := by
  unfold failureOf
  split
  · split
    · exact .inl rfl
    · exact .inr ⟨_, rfl⟩
  · exact .inl rfl

theorem longest_step {a : TrackedAct} (h : Longest calls s.health) (hcalm : RecordsCalmly s a)
    (hs : trackedStep sources s a = some t) : Longest (calls ++ failureOf s a) t.health := by
  rw [health_step hs]
  rcases failureOf_cases s a with hnone | ⟨c, hc⟩
  · rw [hnone, List.append_nil]
    exact h
  · have hns := hcalm c (by rw [hc]; exact List.mem_singleton_self c)
    rw [hc]
    exact h.record hns

theorem longest_run {as : List TrackedAct} (h : Longest calls s.health)
    (hcalm : Guarded (trackedStep sources) RecordsCalmly s as) (hrun : exec (trackedStep sources) s as = some t) :
    Longest (calls ++ failuresIn sources s as) t.health := by
  induction as generalizing s calls with
  | nil =>
    cases hrun
    rw [failuresIn, List.append_nil]
    exact h
  | cons a as ih =>
    obtain ⟨u, hu, hrest⟩ := exec_cons.mp hrun
    obtain ⟨ha, hcalm⟩ := hcalm.cons hu
    have hend := ih (longest_step h ha hu) hcalm hrest
    simp only [failuresIn, hu]
    rwa [← List.append_assoc]

theorem now_run {as : List TrackedAct} (hrun : exec (trackedStep sources) s as = some t) :
    s.pool.now ≤ t.pool.now := by
  refine exec_invariant (P := fun u => s.pool.now ≤ u.pool.now) (fun u a v hu hs => ?_) le_rfl hrun
  refine hu.trans ?_
  cases trackedStep_moves hs with
  | pool a free step health => exact poolStep_now step
  | get w source here step health => exact poolStep_now step
  | failed w e source here record step => exact poolStep_now step
  | unreadable w e header step health => exact poolStep_now step
  | events ev le next => rw [next]

/-- A worker that begins to fetch was told that its mirror is not banned. -/
theorem begins_unbanned {w : ℕ} {source : String} {item : QueueItem} {t₀ : ℚ} (hsource : s.source w = some source)
    (hs : trackedStep sources s (.get w) = some t) (hfetch : t.pool.pcOf w = some (.fetching item t₀)) :
    s.isBanned source = false := by
  simp only [trackedStep, hsource, TrackedPool.poolMove, Option.map_eq_some_iff] at hs
  obtain ⟨⟨ev, q⟩, hq, rfl⟩ := hs
  simp only [poolStep] at hq
  split at hq
  · rename_i item' rest hpc hqueue
    by_contra hbanned
    rw [Bool.not_eq_false] at hbanned
    have hmoved : ∀ (p : WorkerPool) (pc : WorkerPc), p.pcOf w = some .getting → pc.item? = none →
        (p.move w pc).pcOf w ≠ some (.fetching item t₀) := by
      intro p pc hget hfree heq
      rw [move_pcOf_self hget] at heq
      rw [Option.some.inj heq] at hfree
      cases hfree
    rw [hbanned, takeItem] at hq
    split at hq
    · cases hq
      exact hmoved { s.pool with queue := rest } .exited hpc rfl hfetch
    · split at hq
      · cases hq
        exact hmoved (WorkerPool.put { s.pool with queue := rest } item') .backoff hpc rfl hfetch
      · rw [if_pos rfl] at hq
        split at hq
        · cases hq
          exact hmoved { s.pool with queue := rest, lastError := some .allBanned } .exited hpc rfl hfetch
        · cases hq
          exact hmoved (WorkerPool.put { s.pool with queue := rest } item') .backoff hpc rfl hfetch
  · cases hq

end

/-- A ban is never shortened, exactly when no failure is recorded for a mirror whose ban lasts longer
than the failure asks for. In a pool that records no such failure, no fetch begins from a mirror before
the bans that its failures asked for are over. -/
theorem ban_kept_iff (calls : List FailureCall) (htime : calls.Pairwise fun c c' => c.time ≤ c'.time)
    (hstart : ∀ c ∈ calls, 0 ≤ c.time) :
    ((∀ before after, calls = before ++ after → Honoured before (recordAll {} before)) ↔ Calm calls) ∧
    (Calm calls → ∀ sources s₀ as s w source s' item t₀, s₀.health = recordAll {} calls → 0 ≤ s₀.pool.now →
      exec (trackedStep sources) s₀ as = some s → Guarded (trackedStep sources) RecordsCalmly s₀ as →
      s.source w = some source → trackedStep sources s (.get w) = some s' →
      s'.pool.pcOf w = some (.fetching item t₀) →
      barred (calls ++ failuresIn sources s₀ as) s.pool.now source = false) := by
  refine ⟨⟨fun h before c after heq => ?_, fun hcalm before after heq => ?_⟩, ?_⟩
  · rw [heq, List.pairwise_append] at htime
    by_contra hs
    rw [Bool.not_eq_false] at hs
    refine not_honoured_of_shortens (hstart c (by simp [heq])) (fun c' hc' => ?_) hs
      (h (before ++ [c]) after (by rw [heq]; simp))
    exact htime.2.2 c' hc' c (List.mem_cons_self ..)
  · rw [heq] at hcalm
    exact hcalm.of_append.longest.honoured
  · intro hcalm sources s₀ as s w source s' item t₀ hhealth hnow hrun hrecords hsource hget hfetch
    have hlongest : Longest calls s₀.health := hhealth ▸ hcalm.longest
    have hend := longest_run hlongest hrecords hrun
    rw [← hend.isBanned_eq (hnow.trans (now_run hrun))]
    exact begins_unbanned hsource hget hfetch

/-- A `Retry-After` of five minutes, and a second later another worker of the mirror loses its
connection: after 100 seconds the mirror is not banned. -/
theorem retry_after_cut_short :
    ¬ Honoured [⟨0, .clientResponse 429 (some "300"), "a"⟩, ⟨1, .other, "a"⟩]
        (recordAll {} [⟨0, .clientResponse 429 (some "300"), "a"⟩, ⟨1, .other, "a"⟩]) ∧
      barred [⟨0, .clientResponse 429 (some "300"), "a"⟩, ⟨1, .other, "a"⟩] 100 "a" = true ∧
      (recordAll {} [⟨0, .clientResponse 429 (some "300"), "a"⟩, ⟨1, .other, "a"⟩]).isBanned 100 "a" =
        false := by
  have hbarred : barred [⟨0, .clientResponse 429 (some "300"), "a"⟩, ⟨1, .other, "a"⟩] 100 "a" = true := by
    decide +kernel
  have hfree : (recordAll {} [⟨0, .clientResponse 429 (some "300"), "a"⟩, ⟨1, .other, "a"⟩]).isBanned 100 "a" =
      false := by decide +kernel
  refine ⟨fun h => ?_, hbarred, hfree⟩
  have hbanned := (h 100 (by norm_num) (by simp)).1 "a" hbarred
  rw [hfree] at hbanned
  cases hbanned

/-- The other order: the short ban first. -/
theorem ban_kept_longer :
    Honoured [⟨0, .other, "a"⟩, ⟨1, .clientResponse 429 (some "300"), "a"⟩]
      (recordAll {} [⟨0, .other, "a"⟩, ⟨1, .clientResponse 429 (some "300"), "a"⟩]) := by
  refine (ban_kept_iff [⟨0, .other, "a"⟩, ⟨1, .clientResponse 429 (some "300"), "a"⟩] (by simp) (by simp)).1.mpr
    ?_ _ [] (List.append_nil _).symm
  intro before c after heq
  match before with
  | [] =>
    cases heq
    decide +kernel
  | [_] =>
    cases heq
    decide +kernel
  | _ :: _ :: _ => simp at heq

end Mrdl.Workers
