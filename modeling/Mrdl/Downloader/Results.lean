import Mrdl.Downloader.Success

/-! # What a result tells

A result with `COMPLETED` is verified and has no error, one with `FAILED` names an error, and no run returns
in the middle of its work. For `FAILED` this rests on `resume` not being called after the stop signal: the
run goes down to the end all the same then, and finds itself `DOWNLOADING` without a reason to stop.
-/

namespace Mrdl.Downloader
set_option autoImplicit false

/-- What a caller may rely on. -/
def Coherent (r : DownloadResult) : Prop :=
  match r.status with
  | .completed => r.hashMatched = true ∧ r.error = none
  | .failed => r.hashMatched = false ∧ r.error ≠ none
  | .paused | .cancelled => r.hashMatched = false
  | .idle | .probing | .downloading => False

/-- A result that the caller has not asked for by a call. -/
def Fits (calm : Prop) (r : DownloadResult) : Prop :=
  Coherent r ∧ (calm → r.status = .completed ∨ r.status = .failed)

/-- A call of the user of `start`. -/
def Act.isCall : Act → Bool
  | .pause | .resume | .stop | .cancel => true
  | _ => false

/-- `resume` is not called once the thread event is set. -/
def NotRevived (c : Control) (a : Act) : Prop := a = .resume → c.ev.stopThread = false

instance (c : Control) (a : Act) : Decidable (NotRevived c a) := by
  unfold NotRevived
  infer_instance

/-- The action leaves `start` where it stands. -/
def Act.apart : Act → Bool
  | .pause | .resume | .stop | .cancel | .callback | .writerFails _ | .digestComputed _ => true
  | _ => false

/-! ## The stages of `start`

`calm` says that there are no calls.
-/

/-- Before the first state of a download. -/
structure Opening (calm : Prop) (c : Control) : Prop where
  started : c.writerStarted = false
  error : c.lastError = none
  success : c.success = false
  pending : c.pending = none
  paused : c.paused = false
  state : c.state = .idle ∨ c.state = .probing ∨ c.state = .cancelled
  stopped : c.ev.stopThread = true → c.state = .cancelled
  alone : calm → c.state ≠ .cancelled

/-- Up to the end of `pool.run`. `told` says that the pool has an error. -/
structure Fetching (told calm : Prop) (c : Control) : Prop where
  error : c.lastError = none
  success : c.success = false
  pending : c.pending = none
  paused : c.paused = false
  state : c.state = .downloading ∨ c.state = .paused ∨ c.state = .cancelled
  stopped : c.ev.stopThread = true → c.state ≠ .downloading ∨ c.writerError ≠ none ∨ told
  alone : calm → c.state = .downloading

/-- Up to the check. -/
structure Draining (calm : Prop) (c : Control) : Prop where
  state : c.state = .downloading ∨ c.state = .paused ∨ c.state = .cancelled
  clean : c.success = true → c.lastError = none
  stopped : c.success = false → c.ev.stopThread = true
  paused : c.paused = true → c.pending ≠ none
  reason : c.success = false → c.pending = none →
    c.state ≠ .downloading ∨ c.lastError ≠ none ∨ c.writerError ≠ none
  alone : calm → c.state = .downloading ∨ (c.state = .paused ∧ c.pending ≠ none)

/-- After the check. -/
structure Closing (calm : Prop) (c : Control) : Prop where
  stopped : c.ev.stopThread = true
  state : c.state ≠ .idle ∧ c.state ≠ .probing
  failed : c.pending = none → c.state = .failed → c.lastError ≠ none
  finished : c.pending = none → c.success = false → c.state ≠ .downloading
  spoiled : c.success = true → c.lastError ≠ none → c.state ≠ .downloading ∧ c.state ≠ .paused
  alone : calm → c.state ≠ .cancelled ∧ (c.state = .paused → c.pending ≠ none)

def InStage (told calm : Prop) (c : Control) : Prop :=
  match c.pc with
  | .created | .clearing | .loading | .probing => Opening calm c
  | .preparing | .loadingState | .running => Fetching told calm c
  | .stoppingWriter | .stoppingHasher | .saving | .checking => Draining calm c
  | .closing | .verifying | .clearingState => Closing calm c
  | .ended => True

structure Reported (told calm : Prop) (c : Control) : Prop where
  accounted : Accounted c
  stage : InStage told calm c
  outcome : ∀ r, c.outcome = some (.returned r) → Fits calm r

/-! ## Calls and failures at any time -/

/-- The step leaves `start` where it is. -/
structure Aside (told calm : Prop) (c d : Control) : Prop where
  same : d = { c with
    ev := d.ev, state := d.state, writerError := d.writerError, computedHash := d.computedHash }
  state : d.state = c.state ∨ (c.state = .downloading ∧ d.state = .paused) ∨
    (.cancelled ∈ validTransitions c.state ∧ d.state = .cancelled) ∨
    (c.state = .paused ∧ d.state = .downloading ∧ c.ev.stopThread = false ∧ d.ev.stopThread = false)
  le : c.ev.Le d.ev
  stopped : d.ev.stopThread = true → c.ev.stopThread = true ∨ d.state = .paused ∨ d.state = .cancelled ∨
    (c.writerStarted = true ∧ (d.writerError ≠ none ∨ told))
  writer : c.writerError ≠ none → d.writerError ≠ none
  alone : calm → d.state = c.state

section
variable {told told' calm : Prop} {c d : Control}

theorem Opening.aside (h : Opening calm c) (ha : Aside told calm c d) : Opening calm d := by
  have hstate : d.state = .idle ∨ d.state = .probing ∨ d.state = .cancelled := by
    rcases ha.state with heq | ⟨hdown, -⟩ | ⟨-, hcancel⟩ | ⟨hpaused, -⟩
    · rw [heq]
      exact h.state
    · rcases h.state with hs | hs | hs <;> rw [hs] at hdown <;> cases hdown
    · exact Or.inr (Or.inr hcancel)
    · rcases h.state with hs | hs | hs <;> rw [hs] at hpaused <;> cases hpaused
  rw [ha.same]
  refine ⟨h.started, h.error, h.success, h.pending, h.paused, hstate, fun hstop => ?_, fun hcalm => ?_⟩
  on_goal 2 => exact (ha.alone hcalm).trans_ne (h.alone hcalm)
  rcases ha.stopped hstop with hold | hpaused | hcancel | ⟨hstarted, -⟩
  · rcases ha.state with heq | ⟨hdown, -⟩ | ⟨-, hcancel⟩ | ⟨-, -, hno, -⟩
    · exact heq.trans (h.stopped hold)
    · rw [h.stopped hold] at hdown
      cases hdown
    · exact hcancel
    · rw [hno] at hold
      cases hold
  · rcases hstate with hs | hs | hs
    · rw [hs] at hpaused
      cases hpaused
    · rw [hs] at hpaused
      cases hpaused
    · exact hs
  · exact hcancel
  · rw [h.started] at hstarted
    cases hstarted

theorem Aside.working (ha : Aside told calm c d)
    (h : c.state = .downloading ∨ c.state = .paused ∨ c.state = .cancelled) :
    d.state = .downloading ∨ d.state = .paused ∨ d.state = .cancelled := by
  rcases ha.state with heq | ⟨-, hs⟩ | ⟨-, hs⟩ | ⟨-, hs, -⟩
  · rwa [heq]
  · exact Or.inr (Or.inl hs)
  · exact Or.inr (Or.inr hs)
  · exact Or.inl hs

/-- With the thread event set no call makes it `DOWNLOADING`. -/
theorem Aside.not_revived (ha : Aside told calm c d) (hstop : c.ev.stopThread = true)
    (hd : d.state = .downloading) : c.state = .downloading := by
  rcases ha.state with heq | ⟨-, hs⟩ | ⟨-, hs⟩ | ⟨-, -, hno, -⟩
  · exact heq.symm.trans hd
  · rw [hs] at hd
    cases hd
  · rw [hs] at hd
    cases hd
  · rw [hno] at hstop
    cases hstop

theorem Fetching.aside (h : Fetching told calm c) (ha : Aside told' calm c d) (htold : told → told') :
    Fetching told' calm d := by
  have hstate := ha.working h.state
  rw [ha.same]
  refine ⟨h.error, h.success, h.pending, h.paused, hstate, fun hstop => ?_,
    fun hcalm => (ha.alone hcalm).trans (h.alone hcalm)⟩
  rcases ha.stopped hstop with hold | hpaused | hcancel | ⟨-, hwhy⟩
  · rcases h.stopped hold with hne | hwriter | ht
    · exact Or.inl fun hd => hne (ha.not_revived hold hd)
    · exact Or.inr (Or.inl (ha.writer hwriter))
    · exact Or.inr (Or.inr (htold ht))
  · left
    change d.state ≠ .downloading
    rw [hpaused]
    decide
  · left
    change d.state ≠ .downloading
    rw [hcancel]
    decide
  · exact Or.inr hwhy

theorem Draining.aside (h : Draining calm c) (ha : Aside told calm c d) : Draining calm d := by
  have hstate := ha.working h.state
  rw [ha.same]
  refine ⟨hstate, h.clean, fun hs => ha.le.stopThread (h.stopped hs), h.paused, fun hs hp => ?_, fun hcalm => ?_⟩
  on_goal 2 =>
    simp only [ha.alone hcalm]
    exact h.alone hcalm
  rcases h.reason hs hp with hne | herror | hwriter
  · exact Or.inl fun hd => hne (ha.not_revived (h.stopped hs) hd)
  · exact Or.inr (Or.inl herror)
  · exact Or.inr (Or.inr (ha.writer hwriter))

theorem Closing.aside (h : Closing calm c) (ha : Aside told calm c d) : Closing calm d := by
  have hcases : d.state = c.state ∨ (c.state = .downloading ∧ d.state = .paused) ∨ d.state = .cancelled := by
    rcases ha.state with heq | hpause | ⟨-, hs⟩ | ⟨-, -, hno, -⟩
    · exact Or.inl heq
    · exact Or.inr (Or.inl hpause)
    · exact Or.inr (Or.inr hs)
    · rw [h.stopped] at hno
      cases hno
  rw [ha.same]
  refine ⟨ha.le.stopThread h.stopped, ?_, fun hp hs => ?_, fun hp hs hd => ?_, fun hs he => ?_, fun hcalm => ?_⟩
  · rcases hcases with heq | ⟨-, hs⟩ | hs
    · simp only [heq]
      exact h.state
    · simp [hs]
    · simp [hs]
  · change d.state = .failed at hs
    rcases hcases with heq | ⟨-, hs'⟩ | hs'
    · exact h.failed hp (heq.symm.trans hs)
    · rw [hs'] at hs
      cases hs
    · rw [hs'] at hs
      cases hs
  · exact h.finished hp hs (ha.not_revived h.stopped hd)
  · have hne := h.spoiled hs he
    rcases hcases with heq | ⟨hdown, -⟩ | hs'
    · simp only [heq]
      exact hne
    · exact absurd hdown hne.1
    · simp [hs']
  · simp only [ha.alone hcalm]
    exact h.alone hcalm

theorem Aside.stage (ha : Aside told' calm c d) (htold : told → told') (h : InStage told calm c) :
    InStage told' calm d := by
  have hpc : d.pc = c.pc := by rw [ha.same]
  unfold InStage at h ⊢
  rw [hpc]
  split at h
  · exact h.aside ha
  · exact h.aside ha
  · exact h.aside ha
  · exact h.aside ha
  · exact h.aside ha htold
  · exact h.aside ha htold
  · exact h.aside ha htold
  · exact h.aside ha
  · exact h.aside ha
  · exact h.aside ha
  · exact h.aside ha
  · exact h.aside ha
  · exact h.aside ha
  · exact h.aside ha
  · trivial

theorem call_aside {a : Act} (hcall : a = .pause ∨ a = .resume ∨ a = .stop ∨ a = .cancel)
    (hguard : NotRevived c a) (hcalm : ¬ calm) (hs : controlStep c a = some d) : Aside told calm c d := by
  have hstays : Aside told calm c c := ⟨rfl, Or.inl rfl, Events.Le.refl _, Or.inl, id, fun _ => rfl⟩
  rcases hcall with rfl | rfl | rfl | rfl <;>
    simp only [controlStep, Option.ite_none_left_eq_some, Option.some.injEq] at hs <;>
    obtain ⟨-, rfl⟩ := hs
  · unfold Control.pause
    split
    · rename_i hstate
      exact ⟨rfl, Or.inr (Or.inl ⟨hstate, rfl⟩), Events.le_schedule _ _, Or.inl, id,
        fun h => absurd h hcalm⟩
    · exact hstays
  · unfold Control.resume
    split
    · rename_i hstate
      exact ⟨rfl, Or.inr (Or.inr (Or.inr ⟨hstate, rfl, hguard rfl, hguard rfl⟩)), Events.le_schedule _ _,
        Or.inl, id, fun h => absurd h hcalm⟩
    · exact hstays
  · unfold Control.stop
    split
    · rename_i hstate
      refine ⟨rfl, ?_, signalStop_le _, fun _ => Or.inr (Or.inl rfl), id, fun h => absurd h hcalm⟩
      exact hstate.elim (fun h => Or.inr (Or.inl ⟨h, rfl⟩)) fun h => Or.inl h.symm
    · exact hstays
  · unfold Control.cancel
    split
    · rename_i hvalid
      exact ⟨rfl, Or.inr (Or.inr (Or.inl ⟨hvalid, rfl⟩)), signalStop_le _,
        fun _ => Or.inr (Or.inr (Or.inl rfl)), id, fun h => absurd h hcalm⟩
    · exact hstays

theorem runCallback_stopThread {ev ev' : Events} (h : ev.runCallback = some ev') :
    ev'.stopThread = ev.stopThread := by
  unfold Events.runCallback at h
  split at h <;> cases h <;> rfl

/-! ## The steps -/

/-- What `pool.run` returns goes with its error, where `told` says that there is one. -/
def PoolSays (told : Prop) (c : Control) : Act → Prop
  | .poolReturns success error =>
      (success = true → error = none) ∧ (success = false → c.ev.stopThread = true ∧ (told → error ≠ none))
  | .poolStops => False
  | _ => True

/-- Where `start` goes, and what it returns if it does. -/
structure Next (told calm : Prop) (c d : Control) : Prop where
  stage : InStage told calm d
  outcome : d.outcome = c.outcome ∨ (∃ x, d.outcome = some (.raised x)) ∨
    ∃ r, d.outcome = some (.returned r) ∧ Fits calm r

theorem Next.raise (c : Control) (x : Raised) : Next told calm c (c.raise x) :=
  ⟨trivial, Or.inr (Or.inl ⟨x, rfl⟩)⟩

theorem Next.transition {b : Control} {new : DownloadState} {next : Control → Control}
    (h : new ∈ validTransitions b.state → Next told calm c (next { b with state := new })) :
    Next told calm c (b.transitionTo new next) := by
  unfold Control.transitionTo
  split
  · rename_i hvalid
    exact h hvalid
  · exact ⟨trivial, Or.inr (Or.inl ⟨_, rfl⟩)⟩

theorem Next.returns {b : Control} {verified : Bool}
    (h : Fits calm ⟨b.state, verified, b.lastError, b.computedHash⟩) : Next told calm c (b.finish verified) :=
  ⟨trivial, Or.inr (Or.inr ⟨_, rfl, h⟩)⟩

theorem Opening.probes (h : Opening calm c) (hvalid : .probing ∈ validTransitions c.state) :
    Opening calm ({ c with state := .probing }.goto .probing) := by
  refine ⟨h.started, h.error, h.success, h.pending, h.paused, Or.inr (Or.inl rfl), fun hstop => ?_, nofun⟩
  rw [h.stopped hstop] at hvalid
  cases hvalid

theorem Opening.prepares (h : Opening calm c) (hvalid : .downloading ∈ validTransitions c.state) :
    Fetching told calm ({ c with state := .downloading }.goto .preparing) := by
  refine ⟨h.error, h.success, h.pending, h.paused, Or.inl rfl, fun hstop => ?_, fun _ => rfl⟩
  rw [h.stopped hstop] at hvalid
  simp [validTransitions] at hvalid

theorem Fetching.leaves (h : Fetching told calm c) {success : Bool} {error : Option PoolError}
    (hrule : PoolSays told c (.poolReturns success error)) :
    Draining calm { c with
      success := success, lastError := (error.map PoolError.text).or c.lastError }.leavePool := by
  have hp : c.paused = false := h.paused
  refine ⟨h.state, fun hs => ?_, fun hs => ?_, fun hpaused => ?_, fun hs _ => ?_, fun hcalm => Or.inl (h.alone hcalm)⟩
  · change success = true at hs
    change (error.map PoolError.text).or c.lastError = none
    rw [hrule.1 hs, h.error]
    rfl
  · change success = false at hs
    subst hs
    rfl
  · change c.paused = true at hpaused
    rw [hp] at hpaused
    cases hpaused
  · change success = false at hs
    obtain ⟨hstop, hsome⟩ := hrule.2 hs
    rcases h.stopped hstop with hne | hwriter | ht
    · exact Or.inl hne
    · exact Or.inr (Or.inr hwriter)
    · obtain ⟨e, rfl⟩ := Option.ne_none_iff_exists'.mp (hsome ht)
      exact Or.inr (Or.inl nofun)

/-- `pool.run` raises, or is cancelled. -/
theorem Fetching.breaks (h : Fetching told calm c) (x : Raised) {paused : Bool} {state : DownloadState}
    (hstate : state = .downloading ∨ state = .paused ∨ state = .cancelled)
    (halone : calm → state = .downloading ∨ state = .paused) :
    Draining calm { c with paused := paused, pending := some x, state := state }.leavePool := by
  refine ⟨hstate, fun hs => absurd (h.success.symm.trans hs) Bool.false_ne_true, fun _ => ?_,
    fun _ => nofun, fun _ hp => (by cases hp), fun hcalm => (halone hcalm).imp id fun hs => ⟨hs, nofun⟩⟩
  simp only [Control.leavePool, h.success]
  rfl

/-- The check asks for `FAILED`. -/
theorem closing_failed (herror : c.pending = none → c.lastError ≠ none) :
    Closing calm ({ c with state := .failed }.closeSession) := by
  refine ⟨rfl, ?_, fun hp _ => herror hp, fun _ _ => ?_, fun _ _ => ?_, fun _ => ?_⟩ <;> simp [Control.closeSession]

theorem Draining.checks (h : Draining calm c) : Next told calm c c.checkEnd := by
  have hnever : c.state ≠ .idle ∧ c.state ≠ .probing := by
    rcases h.state with hs | hs | hs <;> rw [hs] <;> decide
  have hnot : c.state ≠ .failed := by
    rcases h.state with hs | hs | hs <;> rw [hs] <;> decide
  have halone : calm → c.state ≠ .cancelled ∧ (c.state = .paused → c.pending ≠ none) := by
    intro hcalm
    rcases h.alone hcalm with hs | ⟨hs, hp⟩
    · simp [hs]
    · simp [hs, hp]
  unfold Control.checkEnd
  split
  · rename_i e herror
    simp only
    split
    · exact .transition fun hvalid => ⟨closing_failed fun _ => Option.some_ne_none _, Or.inl rfl⟩
    · rename_i hstate
      refine ⟨⟨rfl, hnever, fun _ hs => absurd hs hnot, fun _ _ hs => hstate (Or.inl hs), fun _ _ => ?_,
        halone⟩, Or.inl rfl⟩
      exact ⟨fun hs => hstate (Or.inl hs), fun hs => hstate (Or.inr hs)⟩
  · rename_i hwriter
    have hspoiled : c.success = true → c.lastError ≠ none → c.state ≠ .downloading ∧ c.state ≠ .paused :=
      fun hs he => absurd (h.clean hs) he
    split
    · rename_i hpaused
      refine ⟨⟨rfl, hnever, fun _ hs => absurd hs hnot, fun hp _ (hs : c.state = .downloading) => ?_, hspoiled,
        halone⟩, Or.inl rfl⟩
      rcases hpaused with hpaused | hpaused
      · exact h.paused hpaused hp
      · rw [hpaused] at hs
        cases hs
    · split
      · rename_i hfails
        refine .transition fun hvalid => ⟨closing_failed fun hp => ?_, Or.inl rfl⟩
        rcases h.reason hfails.1 hp with hne | herror | hw
        · exact absurd hfails.2 hne
        · exact herror
        · exact absurd hwriter hw
      · rename_i hgoes
        exact ⟨⟨rfl, hnever, fun _ hs => absurd hs hnot, fun _ hs hd => hgoes ⟨hs, hd⟩, hspoiled, halone⟩,
          Or.inl rfl⟩

/-- The result of a run that did not succeed. -/
theorem Closing.returns (h : Closing calm c) (ha : Accounted c) (hpending : c.pending = none)
    (hsuccess : c.success = false) : Fits calm ⟨c.state, false, c.lastError, c.computedHash⟩ := by
  have hne : c.state ≠ .completed := by
    intro hs
    have := (ha.cleared (ha.state hs)).1
    rw [hsuccess] at this
    cases this
  have halone := h.alone
  cases hs : c.state with
  | idle => exact absurd hs h.state.1
  | probing => exact absurd hs h.state.2
  | downloading => exact absurd hs (h.finished hpending hsuccess)
  | paused => exact ⟨rfl, fun hcalm => absurd hpending ((halone hcalm).2 hs)⟩
  | completed => exact absurd hs hne
  | failed => exact ⟨⟨rfl, h.failed hpending hs⟩, fun _ => Or.inr rfl⟩
  | cancelled => exact ⟨rfl, fun hcalm => absurd hs (halone hcalm).1⟩

/-- The result of a run that was verified. -/
theorem Closing.completes (h : Closing calm c) (hsuccess : c.success = true)
    (hvalid : .completed ∈ validTransitions c.state) : c.lastError = none := by
  by_contra herror
  obtain ⟨h1, h2⟩ := h.spoiled hsuccess herror
  cases hs : c.state with
  | downloading => exact h1 hs
  | paused => exact h2 hs
  | _ =>
    rw [hs] at hvalid
    simp [validTransitions] at hvalid

theorem controlStep_next {a : Act} (h : Reported told calm c) (hrule : PoolSays told c a) (hown : a.apart = false)
    (hs : controlStep c a = some d) : Next told calm c d := by
  have hstage := h.stage
  cases a with
  | enter dest =>
    obtain ⟨hpc, rfl⟩ := at'_eq_some.mp hs
    rw [InStage, hpc] at hstage
    have hfresh : Opening calm { c with ev := {} } := { hstage with stopped := fun hstop => by cases hstop }
    cases dest with
    | missing => exact .transition fun hvalid => ⟨hfresh.probes hvalid, Or.inl rfl⟩
    | overwritten | kept => exact ⟨{ hfresh with }, Or.inl rfl⟩
  | clearReturns ok =>
    obtain ⟨hpc, rfl⟩ := at'_eq_some.mp hs
    rw [InStage, hpc] at hstage
    cases ok with
    | true => exact .transition fun hvalid => ⟨hstage.probes hvalid, Or.inl rfl⟩
    | false => exact .raise c _
  | loadReturns found =>
    obtain ⟨hpc, rfl⟩ := at'_eq_some.mp hs
    rw [InStage, hpc] at hstage
    match found with
    | some true => exact .transition fun hvalid => ⟨hstage.probes hvalid, Or.inl rfl⟩
    | some false => exact .raise c _
    | none => exact .raise c _
  | probeReturns result =>
    obtain ⟨hpc, rfl⟩ := at'_eq_some.mp hs
    rw [InStage, hpc] at hstage
    cases result with
    | metadata => exact .transition fun hvalid => ⟨hstage.prepares hvalid, Or.inl rfl⟩
    | failed text => exact .transition fun _ => .returns ⟨⟨rfl, Option.some_ne_none _⟩, fun _ => Or.inr rfl⟩
    | raises => exact .raise c _
  | fileReady ok | stateReady ok =>
    obtain ⟨hpc, rfl⟩ := at'_eq_some.mp hs
    rw [InStage, hpc] at hstage
    cases ok with
    | true => exact ⟨{ hstage with }, Or.inl rfl⟩
    | false => exact .raise c _
  | poolReturns success error =>
    obtain ⟨hpc, rfl⟩ := at'_eq_some.mp hs
    rw [InStage, hpc] at hstage
    exact ⟨hstage.leaves hrule, Or.inl rfl⟩
  | poolRaises =>
    obtain ⟨hpc, rfl⟩ := at'_eq_some.mp hs
    rw [InStage, hpc] at hstage
    exact ⟨hstage.breaks .other hstage.state fun hcalm => Or.inl (hstage.alone hcalm), Or.inl rfl⟩
  | writerStopped | hasherStopped | stateSaved =>
    obtain ⟨hpc, rfl⟩ := at'_eq_some.mp hs
    rw [InStage, hpc] at hstage
    exact ⟨{ hstage with }, Or.inl rfl⟩
  | check =>
    obtain ⟨hpc, rfl⟩ := at'_eq_some.mp hs
    rw [InStage, hpc] at hstage
    exact hstage.checks
  | sessionClosed =>
    obtain ⟨hpc, rfl⟩ := at'_eq_some.mp hs
    rw [InStage, hpc] at hstage
    cases hpending : c.pending with
    | some x => exact .raise c x
    | none =>
      cases hsuccess : c.success with
      | true => exact ⟨{ hstage with }, Or.inl rfl⟩
      | false => exact .returns (hstage.returns h.accounted hpending hsuccess)
  | finalizeReturns v =>
    obtain ⟨hpc, rfl⟩ := at'_eq_some.mp hs
    rw [InStage, hpc] at hstage
    cases v with
    | verified => exact ⟨{ hstage with }, Or.inl rfl⟩
    | mismatch | incomplete text =>
      exact .transition fun _ => .returns ⟨⟨rfl, Option.some_ne_none _⟩, fun _ => Or.inr rfl⟩
    | raises => exact .raise c _
  | stateCleared ok =>
    obtain ⟨hpc, rfl⟩ := at'_eq_some.mp hs
    rw [InStage, hpc] at hstage
    cases ok with
    | true =>
      have hsuccess := (h.accounted.cleared (h.accounted.clearing hpc)).1
      rw [if_pos rfl]
      exact .transition fun hvalid => .returns ⟨⟨rfl, hstage.completes hsuccess hvalid⟩, fun _ => Or.inl rfl⟩
    | false => exact .raise c _
  | startCancelled =>
    simp only [controlStep] at hs
    split at hs <;> cases hs
    case h_8 hpc =>
      rw [InStage, hpc] at hstage
      split
      · exact ⟨hstage.breaks .cancelled (Or.inr (Or.inl rfl)) fun _ => Or.inr rfl, Or.inl rfl⟩
      · exact ⟨hstage.breaks .cancelled hstage.state fun hcalm => Or.inl (hstage.alone hcalm), Or.inl rfl⟩
    case h_9 hpc => exact ⟨h.stage, Or.inl rfl⟩
    all_goals exact .raise c _
  | poolStops => exact absurd hrule id
  | _ => cases hown

theorem apart_aside {a : Act} (hguard : NotRevived c a) (hcalm : calm → a.isCall = false) (hown : a.apart = true)
    (hs : controlStep c a = some d) : Aside told calm c d := by
  have hcalled : a.isCall = true → ¬ calm := fun hcall h => by rw [hcalm h] at hcall; cases hcall
  cases a with
  | pause => exact call_aside (.inl rfl) hguard (hcalled rfl) hs
  | resume => exact call_aside (.inr (.inl rfl)) hguard (hcalled rfl) hs
  | stop => exact call_aside (.inr (.inr (.inl rfl))) hguard (hcalled rfl) hs
  | cancel => exact call_aside (.inr (.inr (.inr rfl))) hguard (hcalled rfl) hs
  | callback =>
    simp only [controlStep, Option.map_eq_some_iff] at hs
    obtain ⟨ev, hev, rfl⟩ := hs
    exact ⟨rfl, Or.inl rfl, Events.le_runCallback hev, fun h => Or.inl (runCallback_stopThread hev ▸ h), id,
      fun _ => rfl⟩
  | writerFails e =>
    simp only [controlStep, Option.ite_none_right_eq_some, Option.some.injEq] at hs
    obtain ⟨⟨hstarted, -⟩, rfl⟩ := hs
    exact ⟨rfl, Or.inl rfl, ⟨id, fun _ => rfl⟩,
      fun _ => Or.inr (Or.inr (Or.inr ⟨hstarted, Or.inl (Option.some_ne_none _)⟩)), fun _ => Option.some_ne_none _,
      fun _ => rfl⟩
  | digestComputed x =>
    simp only [controlStep, Option.ite_none_right_eq_some, Option.some.injEq] at hs
    obtain ⟨-, rfl⟩ := hs
    exact ⟨rfl, Or.inl rfl, Events.Le.refl _, Or.inl, id, fun _ => rfl⟩
  | _ => cases hown

theorem Reported.aside (h : Reported told calm c) (ha : Aside told' calm c d) (htold : told → told')
    (haccounted : Accounted d) : Reported told' calm d := by
  refine ⟨haccounted, ha.stage htold h.stage, fun r hr => h.outcome r ?_⟩
  rw [ha.same] at hr
  exact hr

theorem Reported.step {a : Act} (h : Reported told calm c) (hguard : NotRevived c a)
    (hcalm : calm → a.isCall = false) (hrule : PoolSays told c a) (hs : controlStep c a = some d) :
    Reported told calm d := by
  have haccounted := (controlStep_advance h.accounted hs).accounted
  cases hown : a.apart with
  | true => exact h.aside (apart_aside hguard hcalm hown hs) id haccounted
  | false =>
    obtain ⟨hstage, houtcome⟩ := controlStep_next h hrule hown hs
    refine ⟨haccounted, hstage, fun r hr => ?_⟩
    rcases houtcome with heq | ⟨x, hx⟩ | ⟨r', hr', hfits⟩
    · exact h.outcome r (heq ▸ hr)
    · rw [hx] at hr
      cases hr
    · rw [hr'] at hr
      cases hr
      exact hfits

theorem Reported.fresh (told calm : Prop) : Reported told calm {} :=
  ⟨Accounted.fresh {}, ⟨rfl, rfl, rfl, rfl, rfl, Or.inl rfl, fun h => (by cases h), nofun⟩, fun _ h => by cases h⟩

/-! ## The events -/

/-- The thread event is set at once where the stop event is only asked for. -/
def Forewarned (ev : Events) (excused : Prop) : Prop :=
  (.setStop ∈ ev.callbacks → ev.stopThread = true) ∧ (ev.stopEvent = true → ev.stopThread = true ∨ excused)

theorem Forewarned.stopBoth {ev : Events} (excused : Prop) : Forewarned ev.stopBoth excused :=
  ⟨fun _ => rfl, fun _ => Or.inl rfl⟩

theorem Forewarned.imp {ev : Events} {P Q : Prop} (h : Forewarned ev P) (himp : P → Q) : Forewarned ev Q :=
  ⟨h.1, fun hstop => (h.2 hstop).imp id himp⟩

theorem Forewarned.schedule {ev : Events} {P : Prop} {cbs : List Callback} (h : Forewarned ev P)
    (hno : .setStop ∉ cbs) : Forewarned (ev.schedule cbs) P := by
  refine ⟨fun hmem => ?_, h.2⟩
  rcases List.mem_append.mp hmem with hold | hnew
  · exact h.1 hold
  · exact absurd hnew hno

theorem Forewarned.signalStop {ev : Events} {P : Prop} : Forewarned (Control.signalStop ev) P :=
  ⟨fun _ => rfl, fun _ => Or.inl rfl⟩

theorem Forewarned.callback {ev ev' : Events} {P : Prop} (h : Forewarned ev P)
    (hs : ev.runCallback = some ev') : Forewarned ev' P := by
  unfold Events.runCallback at hs
  split at hs
  · cases hs
  · rename_i hcbs
    cases hs
    have hstop := h.1 (by rw [hcbs]; exact List.mem_cons_self ..)
    exact ⟨fun _ => hstop, fun _ => Or.inl hstop⟩
  · rename_i hcbs
    cases hs
    exact ⟨fun hmem => h.1 (by rw [hcbs]; exact List.mem_cons_of_mem _ hmem), h.2⟩
  · rename_i hcbs
    cases hs
    exact ⟨fun hmem => h.1 (by rw [hcbs]; exact List.mem_cons_of_mem _ hmem), h.2⟩

theorem transitionTo_ev {b : Control} {new : DownloadState} {next : Control → Control} {P : Prop}
    (h : Forewarned b.ev P) (hnext : Forewarned (next { b with state := new }).ev P) :
    Forewarned (b.transitionTo new next).ev P :=
  transitionTo_cases (P := fun d => Forewarned d.ev P) hnext fun _ => h

theorem leavePool_ev {b : Control} {P : Prop} (h : Forewarned b.ev P) : Forewarned b.leavePool.ev P := by
  unfold Control.leavePool
  cases b.success with
  | true => exact h
  | false => exact .stopBoth P

theorem controlStep_forewarned {a : Act} {P : Prop} (h : Forewarned c.ev P) (hs : controlStep c a = some d) :
    Forewarned d.ev P := by
  cases a with
  | enter dest =>
    obtain ⟨-, rfl⟩ := at'_eq_some.mp hs
    have hfresh : Forewarned {} P := ⟨fun hmem => (by cases hmem), fun hstop => (by cases hstop)⟩
    cases dest with
    | missing => exact transitionTo_ev hfresh hfresh
    | overwritten | kept => exact hfresh
  | clearReturns ok | stateCleared ok =>
    obtain ⟨-, rfl⟩ := at'_eq_some.mp hs
    split
    · exact transitionTo_ev h h
    · exact h
  | fileReady ok | stateReady ok =>
    obtain ⟨-, rfl⟩ := at'_eq_some.mp hs
    split <;> exact h
  | loadReturns found =>
    obtain ⟨-, rfl⟩ := at'_eq_some.mp hs
    match found with
    | some true => exact transitionTo_ev h h
    | some false => exact h
    | none => exact h
  | probeReturns result =>
    obtain ⟨-, rfl⟩ := at'_eq_some.mp hs
    cases result with
    | metadata | failed text => exact transitionTo_ev h h
    | raises => exact h
  | poolReturns | poolRaises =>
    obtain ⟨-, rfl⟩ := at'_eq_some.mp hs
    exact leavePool_ev h
  | writerStopped | hasherStopped | stateSaved =>
    obtain ⟨-, rfl⟩ := at'_eq_some.mp hs
    exact h
  | check =>
    obtain ⟨-, rfl⟩ := at'_eq_some.mp hs
    exact checkEnd_cases (P := fun d => Forewarned d.ev P) (fun _ => .stopBoth P)
      fun _ => transitionTo_ev h (.stopBoth P)
  | sessionClosed =>
    obtain ⟨-, rfl⟩ := at'_eq_some.mp hs
    split
    · exact h
    · split <;> exact h
  | finalizeReturns v =>
    obtain ⟨-, rfl⟩ := at'_eq_some.mp hs
    cases v with
    | mismatch | incomplete text => exact transitionTo_ev h h
    | verified | raises => exact h
  | startCancelled =>
    simp only [controlStep] at hs
    split at hs <;> cases hs
    case h_8 => split <;> exact leavePool_ev h
    all_goals exact h
  | pause | resume | stop | cancel =>
    simp only [controlStep, Option.ite_none_left_eq_some, Option.some.injEq, Control.pause, Control.resume,
      Control.stop, Control.cancel] at hs
    obtain ⟨-, rfl⟩ := hs
    split
    · first | exact h.schedule (by decide) | exact .signalStop
    · exact h
  | callback =>
    simp only [controlStep, Option.map_eq_some_iff] at hs
    obtain ⟨ev, hev, rfl⟩ := hs
    exact h.callback hev
  | poolStops =>
    simp only [controlStep, Option.ite_none_right_eq_some, Option.some.injEq] at hs
    obtain ⟨-, rfl⟩ := hs
    exact .stopBoth P
  | writerFails e =>
    simp only [controlStep, Option.ite_none_right_eq_some, Option.some.injEq] at hs
    obtain ⟨-, rfl⟩ := hs
    exact ⟨fun _ => rfl, fun _ => Or.inl rfl⟩
  | digestComputed x =>
    simp only [controlStep, Option.ite_none_right_eq_some, Option.some.injEq] at hs
    obtain ⟨-, rfl⟩ := hs
    exact h

end

end Mrdl.Downloader
