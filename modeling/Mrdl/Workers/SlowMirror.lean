import Mathlib.Logic.Function.Basic
import Mrdl.Fetcher.Core
import Mrdl.Workers.Tracked

/-! # The speed check and the ban it leads to

A fetcher that finds its mirror too slow raises only while more than one mirror of its list is active. The
exception then leaves the context of the response, which awaits, and is recorded by the worker some time later.
For each exception on its way the machine keeps which other mirrors were active at the check and have not been
banned since.
-/

namespace Mrdl.Workers
open Runs
set_option autoImplicit false

/-- `raised w` is set while a `SlowMirrorException` of worker `w` is on its way. -/
structure SlowPool where
  tracked : TrackedPool
  raised : ℕ → Option (List String) := fun _ => none

inductive SlowAct
  | speedCheck (w : ℕ) (speedKbps : ℚ)
  | tracked (a : TrackedAct)
  deriving DecidableEq, Repr

namespace SlowPool

/-- The mirrors of the list beside `source` that are active. -/
def others (s : SlowPool) (sources : List String) (source : String) : List String :=
  sources.filter fun m => m ≠ source && !s.tracked.isBanned m

/-- The exceptions on their way after worker `w` of `source` has recorded `e`. -/
def afterFailure (s : SlowPool) (w : ℕ) (source : String) (e : Failure) : ℕ → Option (List String) :=
  Function.update
    (fun v => (s.raised v).map fun ms => ms.filter fun m => m ≠ source || e.unreadable) w none

end SlowPool

/-- The pool whose fetchers are `ChunkFetcher`s with the tracker and the list of sources in their configuration:
a failure for slow speed comes from a speed check. -/
def slowStep (sources : List String) (cfg : Fetcher.FetcherConfig) (s : SlowPool) : SlowAct → Option SlowPool
  | .speedCheck w speedKbps =>
      match s.tracked.source w, s.tracked.pool.pcOf w, s.raised w with
      | some source, some (.fetching _ _), none =>
          if Fetcher.shouldRaiseSlowMirror { cfg with sources := some sources, hasHealth := true } speedKbps
              (s.tracked.activeCount sources) then
            some { s with raised := Function.update s.raised w (some (s.others sources source)) }
          else some s
      | _, _, _ => none
  | .tracked (.fetchFailed w e) =>
      if e.recorded = .slowMirror ∧ (s.raised w).isNone then none
      else
        match s.tracked.source w, trackedStep sources s.tracked (.fetchFailed w e) with
        | some source, some t => some ⟨t, s.afterFailure w source e.recorded⟩
        | _, _ => none
  | .tracked (.pool a) =>
      (trackedStep sources s.tracked (.pool a)).map fun t =>
        ⟨t, fun v => if a.settles v then none else s.raised v⟩
  | .tracked a => (trackedStep sources s.tracked a).map fun t => { s with tracked := t }

/-- A ban for slow speed finds one of the other mirrors that were active at its check not banned since. -/
def Spared (s : SlowPool) : SlowAct → Prop
  | .tracked (.fetchFailed w e) => e.recorded = .slowMirror → s.raised w ≠ some []
  | _ => True

instance (s : SlowPool) (a : SlowAct) : Decidable (Spared s a) := by
  unfold Spared
  split <;> infer_instance

section
variable {sources : List String} {s t : TrackedPool} {a : TrackedAct}

theorem trackedStep_source (h : trackedStep sources s a = some t) (w : ℕ) : t.source w = s.source w := by
  have hsame : t.pool.workers.map Worker.source = s.pool.workers.map Worker.source := by
    cases trackedStep_moves h with
    | pool a free step health => exact poolStep_sources step
    | get w source here step health => exact poolStep_sources step
    | failed w e source here record step => exact poolStep_sources step
    | unreadable w e header step health => exact poolStep_sources step
    | events ev le next => rw [next]
  rw [TrackedPool.source, TrackedPool.source, ← List.getElem?_map, ← List.getElem?_map, hsame]

/-- Only a failure of a mirror's own workers bans it. -/
theorem trackedStep_active (h : trackedStep sources s a = some t) {m : String} (hm : s.isBanned m = false)
    (hother : ∀ w e, a = .fetchFailed w e → e.recorded.unreadable = false → s.source w ≠ some m) :
    t.isBanned m = false := by
  have hkeep : s.pool.now ≤ t.pool.now → t.health = s.health → t.isBanned m = false := by
    intro hle hhealth
    rw [TrackedPool.isBanned, hhealth]
    exact isBanned_mono hle hm
  cases trackedStep_moves h with
  | pool a free step health => exact hkeep (poolStep_now step) health
  | get w source here step health => exact hkeep (poolStep_now step) health
  | failed w e source here record step =>
    have hread : e.recorded.unreadable = false := by
      cases hr : e.recorded.unreadable with
      | false => rfl
      | true =>
        rw [recordFailure_eq_none.mpr hr] at record
        cases record
    have hne : m ≠ source := by
      rintro rfl
      exact hother w e rfl hread here
    rw [TrackedPool.isBanned, isBanned_other record hne]
    exact isBanned_mono (poolStep_now step) hm
  | unreadable w e header step health => exact hkeep (poolStep_now step) health
  | events ev le next =>
    subst next
    exact hm

end

/-- What is kept of each exception on its way: other mirrors of the list, active now. -/
def StillActive (sources : List String) (s : SlowPool) : Prop :=
  ∀ w source ms, s.tracked.source w = some source → s.raised w = some ms →
    ∀ m ∈ ms, m ∈ sources ∧ m ≠ source ∧ s.tracked.isBanned m = false

section
variable {sources : List String} {cfg : Fetcher.FetcherConfig} {s t : SlowPool} {a : SlowAct}

theorem StillActive.calm (h : StillActive sources s) {u : TrackedPool} {b : TrackedAct}
    {raised : ℕ → Option (List String)} (hstep : trackedStep sources s.tracked b = some u)
    (hcalm : ∀ w e, b ≠ .fetchFailed w e) (hkept : ∀ w ms, raised w = some ms → s.raised w = some ms) :
    StillActive sources ⟨u, raised⟩ := by
  intro w source ms hsource hraised m hm
  rw [trackedStep_source hstep] at hsource
  obtain ⟨hmem, hne, hactive⟩ := h w source ms hsource (hkept w ms hraised) m hm
  exact ⟨hmem, hne, trackedStep_active hstep hactive fun v e heq => absurd heq (hcalm v e)⟩

theorem StillActive.speedCheck (h : StillActive sources s) {v : ℕ} {own : String}
    (hown : s.tracked.source v = some own) :
    StillActive sources { s with raised := Function.update s.raised v (some (s.others sources own)) } := by
  intro w source ms hsource hraised m hm
  dsimp only at hraised
  by_cases hwv : w = v
  · subst hwv
    rw [Function.update_self] at hraised
    cases hraised
    cases hsource.symm.trans hown
    simp only [SlowPool.others, List.mem_filter, Bool.and_eq_true, decide_eq_true_eq, Bool.not_eq_true'] at hm
    exact ⟨hm.1, hm.2.1, hm.2.2⟩
  · rw [Function.update_of_ne hwv] at hraised
    exact h w source ms hsource hraised m hm

theorem StillActive.fetchFailed (h : StillActive sources s) {u : TrackedPool} {v : ℕ} {own : String}
    {e : FetchException} (hown : s.tracked.source v = some own)
    (hstep : trackedStep sources s.tracked (.fetchFailed v e) = some u) :
    StillActive sources ⟨u, s.afterFailure v own e.recorded⟩ := by
  intro w source ms hsource hraised m hm
  rw [trackedStep_source hstep] at hsource
  dsimp only at hraised
  by_cases hwv : w = v
  · subst hwv
    rw [SlowPool.afterFailure, Function.update_self] at hraised
    cases hraised
  · rw [SlowPool.afterFailure, Function.update_of_ne hwv] at hraised
    obtain ⟨ms', hms', rfl⟩ := Option.map_eq_some_iff.mp hraised
    obtain ⟨hold, hkept⟩ := List.mem_filter.mp hm
    obtain ⟨hmem, hne, hactive⟩ := h w source ms' hsource hms' m hold
    refine ⟨hmem, hne, trackedStep_active hstep hactive ?_⟩
    rintro v' e' heq hread hv
    cases heq
    rw [hown] at hv
    cases hv
    simp [hread] at hkept

theorem slowStep_active (h : StillActive sources s) (hs : slowStep sources cfg s a = some t) :
    StillActive sources t := by
  cases a with
  | speedCheck v speedKbps =>
    simp only [slowStep] at hs
    split at hs
    · rename_i own item started hown hpc hnone
      split at hs <;> cases hs
      · exact h.speedCheck hown
      · exact h
    · cases hs
  | tracked b =>
    cases b with
    | fetchFailed v e =>
      simp only [slowStep, Option.ite_none_left_eq_some] at hs
      obtain ⟨-, hs⟩ := hs
      split at hs
      · rename_i own u hown hstep
        cases hs
        exact h.fetchFailed hown hstep
      · cases hs
    | pool b =>
      simp only [slowStep, Option.map_eq_some_iff] at hs
      obtain ⟨u, hstep, rfl⟩ := hs
      apply h.calm hstep (by simp)
      intro w ms hraised
      split at hraised
      · cases hraised
      · exact hraised
    | get v | events ev =>
      simp only [slowStep, Option.map_eq_some_iff] at hs
      obtain ⟨u, hstep, rfl⟩ := hs
      exact h.calm hstep (by simp) fun _ _ hraised => hraised

/-- A ban for slow speed that meets the condition leaves another mirror active. -/
theorem slowBan_leaves (h : StillActive sources s) {w : ℕ} {e : FetchException}
    (hslow : e.recorded = .slowMirror) (hspared : Spared s (.tracked (.fetchFailed w e)))
    (hs : slowStep sources cfg s (.tracked (.fetchFailed w e)) = some t) :
    t.tracked.activeCount sources ≠ 0 := by
  simp only [slowStep, Option.ite_none_left_eq_some, hslow, true_and] at hs
  obtain ⟨hraised, hs⟩ := hs
  split at hs
  · rename_i source u hsource hstep
    cases hs
    cases hms : s.raised w with
    | none => simp [hms] at hraised
    | some ms =>
      cases ms with
      | nil => exact absurd hms (hspared hslow)
      | cons m ms =>
        obtain ⟨hmem, hne, hactive⟩ := h w source (m :: ms) hsource hms m List.mem_cons_self
        have hafter : u.isBanned m = false := by
          apply trackedStep_active hstep hactive
          rintro v e' heq - hv
          cases heq
          exact hne (Option.some.inj (hv.symm.trans hsource))
        intro hzero
        have hbanned := getActiveCount_eq_zero.mp hzero m hmem
        rw [TrackedPool.isBanned, hbanned] at hafter
        cases hafter
  · cases hs

end

/-- No ban for slow speed takes the last active mirror, in any run in which one of the other mirrors that were
active at the speed check has not been banned by the time the ban is recorded. -/
theorem slow_ban_spares_last {sources : List String} {threadsPerSource : ℕ} {health : MirrorHealthTracker}
    {entries : List Entry} {completed : List ℕ} {ev : Events} {cfg : Fetcher.FetcherConfig}
    {acts : List SlowAct} {s t : SlowPool} {w : ℕ} {e : FetchException}
    (hrun : exec (slowStep sources cfg) ⟨.init ev health sources threadsPerSource entries completed, fun _ => none⟩
      acts = some s)
    (hspared : Guarded (slowStep sources cfg) Spared
      ⟨.init ev health sources threadsPerSource entries completed, fun _ => none⟩
      (acts ++ [.tracked (.fetchFailed w e)]))
    (hslow : e.recorded = .slowMirror)
    (hs : slowStep sources cfg s (.tracked (.fetchFailed w e)) = some t) :
    ¬ (1 ≤ s.tracked.activeCount sources ∧ t.tracked.activeCount sources = 0) := by
  have hinit : StillActive sources
      ⟨.init ev health sources threadsPerSource entries completed, fun _ => none⟩ :=
    fun w source ms _ hraised => by cases hraised
  have hactive : StillActive sources s :=
    exec_invariant (fun _ _ _ h hs => slowStep_active h hs) hinit hrun
  obtain ⟨-, hlast⟩ := (Guarded.append_iff hrun).mp hspared
  exact fun h => slowBan_leaves hactive hslow hlast.1 hs h.2

/-! ## Two mirrors with one worker each -/

private def config : Fetcher.FetcherConfig := { chunkSize := 1, minSpeedKbps := 100 }

private def twoMirrors : SlowPool := ⟨.init {} {} ["a", "b"] 1 [(0, 0, 0), (0, 1, 0)] [], fun _ => none⟩

private def tooSlow : FetchException := .fetchError (some .slowMirror) "Speed dropped to 1.0 KB/s"

private def bothFetch : List SlowAct :=
  [.tracked (.pool (.wake 0 false)), .tracked (.pool (.openGate 0)), .tracked (.pool (.passGate 0)),
    .tracked (.get 0), .tracked (.pool (.wake 1 false)), .tracked (.pool (.openGate 1)),
    .tracked (.pool (.passGate 1)), .tracked (.get 1)]

private def oneSlow : List SlowAct := bothFetch ++ [.speedCheck 0 1]

private def bothSlow : List SlowAct :=
  bothFetch ++ [.speedCheck 0 1, .speedCheck 1 1, .tracked (.fetchFailed 0 tooSlow)]

private abbrev slow : SlowPool → SlowAct → Option SlowPool := slowStep ["a", "b"] config

theorem slow_ban_spares_last_two :
    ∃ s t, exec slow twoMirrors oneSlow = some s ∧ slow s (.tracked (.fetchFailed 0 tooSlow)) = some t ∧
      ¬ (1 ≤ s.tracked.activeCount ["a", "b"] ∧ t.tracked.activeCount ["a", "b"] = 0) := by
  have hrun : exec slow twoMirrors oneSlow = some ((exec slow twoMirrors oneSlow).get (by decide +kernel)) :=
    (Option.some_get _).symm
  generalize hstate : (exec slow twoMirrors oneSlow).get (by decide +kernel) = s at hrun
  have hs : (slow s (.tracked (.fetchFailed 0 tooSlow))).isSome = true := by
    rw [← hstate]
    decide +kernel
  obtain ⟨t, ht⟩ := Option.isSome_iff_exists.mp hs
  exact ⟨s, t, hrun, ht, slow_ban_spares_last hrun (by decide +kernel) rfl ht⟩

/-- Both workers pass the check before either has recorded its ban. -/
theorem both_mirrors_banned :
    ∃ s t, exec slow twoMirrors bothSlow = some s ∧ slow s (.tracked (.fetchFailed 1 tooSlow)) = some t ∧
      1 ≤ s.tracked.activeCount ["a", "b"] ∧ t.tracked.activeCount ["a", "b"] = 0 := by
  refine ⟨(exec slow twoMirrors bothSlow).get (by decide +kernel),
    (slow ((exec slow twoMirrors bothSlow).get (by decide +kernel)) (.tracked (.fetchFailed 1 tooSlow))).get
      (by decide +kernel), (Option.some_get _).symm, (Option.some_get _).symm, ?_, ?_⟩
  · decide +kernel
  · decide +kernel

end Mrdl.Workers
