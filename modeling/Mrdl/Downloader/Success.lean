import Mrdl.Downloader.UserControl

/-! # The way to a result

Within a run the stop events are only set, never cleared. A result with the status `COMPLETED` has
gone one way only: the pool returned `True`, `DiskWriter.stop` came back, and the verification let it
pass.
-/

namespace Mrdl.Downloader
set_option autoImplicit false

section
variable {c d : Control}

theorem transitionTo_le {new : DownloadState} {next : Control → Control}
    (h : c.ev.Le (next { c with state := new }).ev) : c.ev.Le (c.transitionTo new next).ev :=
  transitionTo_cases (P := fun d => c.ev.Le d.ev) h fun _ => Events.Le.refl _

theorem leavePool_le (c : Control) : c.ev.Le c.leavePool.ev := by
  unfold Control.leavePool
  simp only
  split
  · exact Events.Le.refl _
  · exact Events.le_stopBoth _

/-- `start` creates the events when it is entered; from then on the stop events stay set. -/
theorem controlStep_le {a : Act} (hc : c.pc ≠ .created) (hs : controlStep c a = some d) :
    c.ev.Le d.ev := by
  cases controlStep_moves hs with
  | begins _ _ here | probesAtOnce here => exact absurd here hc
  | probes | prepares | probeFails | unverified | completes => exact transitionTo_le (Events.Le.refl c.ev)
  | poolReturned success error => exact leavePool_le { c with success := success, lastError := _ }
  | poolLeft a x paused state => exact leavePool_le { c with paused := _, pending := _, state := _ }
  | checks =>
    apply checkEnd_cases (P := fun d => c.ev.Le d.ev)
    · exact fun _ => Events.le_stopBoth c.ev
    · exact fun text => transitionTo_le (c := { c with lastError := text }) (Events.le_stopBoth c.ev)
  | called a ev state entered calm le => exact le
  | events a ev calm why =>
    rcases why with hev | ⟨-, rfl⟩
    · exact Events.le_runCallback hev
    · exact Events.le_stopBoth _
  | writerFails => exact ⟨id, fun _ => rfl⟩
  | raises | goes | starts | reraises | verifies | returns | verified | stays | digest =>
    exact Events.Le.refl _

/-- The fields that tell how far a run has come agree with each other. -/
structure Accounted (c : Control) : Prop where
  verifying : c.pc = .verifying → c.success = true
  clearing : c.pc = .clearingState → c.cleared = true
  cleared : c.cleared = true → c.success = true ∧ (c.pc = .clearingState ∨ c.pc = .ended)
  state : c.state = .completed → c.cleared = true
  outcome : ∀ r, c.outcome = some (.returned r) → r.status = .completed → c.cleared = true

theorem Accounted.fresh (ev : Events) : Accounted { ev := ev } :=
  ⟨fun h => (by cases h), fun h => (by cases h), fun h => (by cases h), fun h => (by cases h),
    fun r h => (by cases h)⟩

/-- What an action may change of these fields. -/
structure Advance (c : Control) (a : Act) (d : Control) : Prop where
  started : c.writerStarted = true → d.writerStarted = true
  success : d.success = true → c.success = true ∨
    ((∃ error, a = .poolReturns true error) ∧ d.pc = .stoppingWriter)
  waits : c.pc = .stoppingWriter → d.pc = .stoppingWriter ∨ a = .writerStopped
  cleared : d.cleared = true → c.cleared = true ∨ a = .finalizeReturns .verified
  created : d.pc = .created → c.pc = .created
  accounted : Accounted d

theorem not_steered_completed {old new : DownloadState} (h : Steered old new) : new ≠ .completed := by
  rcases h with ⟨-, rfl⟩ | ⟨-, rfl | rfl⟩ | ⟨-, rfl⟩ <;> decide

/-- Everything but the stop events, the text of the error and the texts of the digest stays. -/
theorem Advance.same {a : Act} (h : Accounted c) (hpc : d.pc = c.pc) (hsuccess : d.success = c.success)
    (hcleared : d.cleared = c.cleared) (hstate : d.state = .completed → c.state = .completed)
    (houtcome : d.outcome = c.outcome) (hstarted : d.writerStarted = c.writerStarted) :
    Advance c a d where
  started h := hstarted.trans h
  success h := Or.inl (hsuccess.symm.trans h)
  waits h := Or.inl (hpc.trans h)
  cleared h := Or.inl (hcleared.symm.trans h)
  created h := hpc.symm.trans h
  accounted := by
    refine ⟨fun hv => ?_, fun hv => ?_, fun hv => ?_, fun hv => ?_, fun r hv hr => ?_⟩
    · rw [hsuccess]
      exact h.verifying (hpc.symm.trans hv)
    · rw [hcleared]
      exact h.clearing (hpc.symm.trans hv)
    · rw [hsuccess, hpc]
      exact h.cleared (hcleared.symm.trans hv)
    · rw [hcleared]
      exact h.state (hstate hv)
    · rw [hcleared]
      exact h.outcome r (houtcome.symm.trans hv) hr

/-- What tells how far the run has come is the same. -/
structure Level (c d : Control) : Prop where
  success : d.success = c.success
  cleared : d.cleared = c.cleared
  started : c.writerStarted = true → d.writerStarted = true

theorem Advance.onward {a : Act} (h : Accounted c) (hc : c.pc ≠ .clearingState ∧ c.pc ≠ .ended)
    (hw : c.pc = .stoppingWriter → a = .writerStopped) (hlevel : Level c d)
    (hpc : d.pc ≠ .created ∧ d.pc ≠ .clearingState) (hverifying : d.pc = .verifying → d.success = true)
    (hstate : d.state ≠ .completed ∨ d.state = c.state)
    (houtcome : ∀ r, d.outcome = some (.returned r) →
      c.outcome = some (.returned r) ∨ r.status = d.state) : Advance c a d := by
  have hno : c.cleared ≠ true := fun hcl => (h.cleared hcl).2.elim hc.1 hc.2
  have hrunning : d.state ≠ .completed := by
    rcases hstate with hne | heq
    · exact hne
    · rw [heq]
      exact fun hst => hno (h.state hst)
  refine ⟨hlevel.started, fun hs => Or.inl (hlevel.success ▸ hs), fun hst => Or.inr (hw hst),
    fun hcl => Or.inl (hlevel.cleared ▸ hcl), fun hcr => absurd hcr hpc.1, hverifying,
    fun hcl => absurd hcl hpc.2, fun hcl => ?_, fun hst => absurd hst hrunning, fun r hr hst => ?_⟩
  · exact absurd (hlevel.cleared ▸ hcl) hno
  · rcases houtcome r hr with hold | hnew
    · exact absurd (h.outcome r hold hst) hno
    · exact absurd (hnew.symm.trans hst) hrunning

/-- Not where the writer is stopped, nor where a verified result is on its way. -/
def Pc.plain : Pc → Bool
  | .stoppingWriter | .clearingState | .ended => false
  | _ => true

theorem Pc.plain_ne {pc : Pc} (h : pc.plain = true) :
    (pc ≠ .clearingState ∧ pc ≠ .ended) ∧ pc ≠ .stoppingWriter := by
  refine ⟨⟨?_, ?_⟩, ?_⟩ <;> rintro rfl <;> cases h

/-- Neither the beginning nor the places where a result is on its way. -/
def Pc.between : Pc → Bool
  | .created | .verifying | .clearingState => false
  | _ => true

theorem Pc.between_ne {pc : Pc} (h : pc.between = true) :
    (pc ≠ .created ∧ pc ≠ .clearingState) ∧ pc ≠ .verifying := by
  refine ⟨⟨?_, ?_⟩, ?_⟩ <;> rintro rfl <;> cases h

/-- `start` keeps its state or enters another than `COMPLETED`, and goes on or returns. -/
theorem Advance.moved {a : Act} (h : Accounted c) (hc : c.pc.plain = true) (hlevel : Level c d)
    (hpc : d.pc.between = true) (hstate : d.state = c.state ∨ (d.state == .completed) = false)
    (houtcome : d.outcome = c.outcome ∨ ∃ r, d.outcome = some (.returned r) ∧ r.status = d.state) :
    Advance c a d := by
  refine .onward h (Pc.plain_ne hc).1 (fun hst => absurd hst (Pc.plain_ne hc).2) hlevel
    (Pc.between_ne hpc).1 (fun hv => absurd hv (Pc.between_ne hpc).2)
    (hstate.symm.imp (fun hne => beq_eq_false_iff_ne.mp hne) id) fun r hr => ?_
  rcases houtcome with heq | ⟨r', hr', hst⟩
  · exact Or.inl (heq ▸ hr)
  · rw [hr'] at hr
    cases hr
    exact Or.inr hst

theorem Advance.raise {b : Control} {a : Act} (h : Accounted c) (hc : c.pc.plain = true)
    (hlevel : Level c b) (hstate : b.state = c.state) (x : Raised) : Advance c a (b.raise x) :=
  .onward h (Pc.plain_ne hc).1 (fun hst => absurd hst (Pc.plain_ne hc).2)
    ⟨hlevel.success, hlevel.cleared, hlevel.started⟩ (Pc.between_ne rfl).1
    (fun hv => by cases hv) (Or.inr hstate) fun r hr => by cases hr

theorem Advance.transition {b : Control} {a : Act} {new : DownloadState} {k : Control → Control}
    (h : Accounted c) (hc : c.pc.plain = true) (hlevel : Level c b) (hstate : b.state = c.state)
    (hk : Level c (k { b with state := new })) (hpc : (k { b with state := new }).pc.between = true)
    (hnew : ((k { b with state := new }).state == .completed) = false)
    (houtcome : (k { b with state := new }).outcome = c.outcome ∨
      ∃ r, (k { b with state := new }).outcome = some (.returned r) ∧
        r.status = (k { b with state := new }).state) : Advance c a (b.transitionTo new k) :=
  transitionTo_cases (P := fun d => Advance c a d) (.moved h hc hk hpc (Or.inr hnew) houtcome)
    fun x => .raise h hc hlevel hstate x

theorem Level.refl (c : Control) : Level c c := ⟨rfl, rfl, id⟩

theorem checkEnd_advance (h : Accounted c) (hpc : c.pc = .checking) : Advance c .check c.checkEnd := by
  have hc : c.pc.plain = true := by rw [hpc]; rfl
  apply checkEnd_cases (P := fun d => Advance c .check d)
  · exact fun _ => .moved h hc ⟨rfl, rfl, id⟩ rfl (Or.inl rfl) (Or.inl rfl)
  · exact fun text => .transition (b := { c with lastError := text }) h hc ⟨rfl, rfl, id⟩ rfl ⟨rfl, rfl, id⟩
      rfl rfl (Or.inl rfl)

theorem Advance.last {a : Act} (h : Accounted c) (hpc : c.pc = .clearingState) (hlevel : Level c d)
    (hd : d.pc = .ended) : Advance c a d := by
  have hcl := h.clearing hpc
  have hne : ∀ {pc : Pc}, pc ≠ .ended → d.pc ≠ pc := fun hpc' heq => hpc' (heq.symm.trans hd)
  refine ⟨hlevel.started, fun hs => Or.inl (hlevel.success ▸ hs),
    fun hs => absurd (hpc.symm.trans hs) (by decide), fun hs => Or.inl (hlevel.cleared ▸ hs),
    fun hcr => absurd hcr (hne (by decide)), fun hv => absurd hv (hne (by decide)),
    fun hv => absurd hv (hne (by decide)), fun _ => ?_, fun _ => hlevel.cleared.trans hcl,
    fun _ _ _ => hlevel.cleared.trans hcl⟩
  exact ⟨hlevel.success.trans (h.cleared hcl).1, Or.inr hd⟩

theorem fragile_plain {pc : Pc} (h : pc.fragile = true) : pc = .clearingState ∨ pc.plain = true := by
  revert h
  cases pc <;> decide

theorem next_between {pc pc' : Pc} (h : pc.next = some pc') :
    (pc ≠ .clearingState ∧ pc ≠ .ended) ∧ pc'.between = true := by
  cases pc <;> cases h <;> decide

theorem controlStep_advance {a : Act} (h : Accounted c) (hs : controlStep c a = some d) :
    Advance c a d := by
  have hplain : ∀ {pc : Pc}, c.pc = pc → pc.plain = true → c.pc.plain = true := by
    rintro pc rfl hp
    exact hp
  cases controlStep_moves hs with
  | begins dest pc here present calm =>
    rcases present with rfl | rfl <;>
      exact .moved h (hplain here rfl) ⟨rfl, rfl, id⟩ rfl (Or.inl rfl) (Or.inl rfl)
  | probesAtOnce here =>
    exact .transition h (hplain here rfl) ⟨rfl, rfl, id⟩ rfl ⟨rfl, rfl, id⟩ rfl rfl (Or.inl rfl)
  | probes a here =>
    have hc : c.pc.plain = true := by
      rcases here with ⟨hpc, -⟩ | ⟨hpc, -⟩
      · exact hplain hpc rfl
      · exact hplain hpc rfl
    exact .transition h hc (.refl c) rfl ⟨rfl, rfl, id⟩ rfl rfl (Or.inl rfl)
  | prepares here =>
    exact .transition h (hplain here rfl) (.refl c) rfl ⟨rfl, rfl, id⟩ rfl rfl (Or.inl rfl)
  | probeFails _ here | unverified _ _ here =>
    exact .transition h (hplain here rfl) (.refl c) rfl ⟨rfl, rfl, id⟩ rfl rfl (Or.inr ⟨_, rfl, rfl⟩)
  | raises a x here calm own =>
    rcases fragile_plain here with hpc | hc
    · exact .last h hpc ⟨rfl, rfl, id⟩ rfl
    · exact .raise h hc (.refl c) rfl x
  | goes a pc here calm stopped =>
    obtain ⟨hc, hpc⟩ := next_between here
    exact .onward h hc stopped ⟨rfl, rfl, id⟩ (Pc.between_ne hpc).1
      (fun hv => absurd hv (Pc.between_ne hpc).2) (Or.inr rfl) fun r => Or.inl
  | starts here =>
    exact .moved h (hplain here rfl) ⟨rfl, rfl, fun _ => rfl⟩ rfl (Or.inl rfl) (Or.inl rfl)
  | poolReturned success error here =>
    have hc := hplain here rfl
    have hno : c.cleared ≠ true := fun hcl =>
      (h.cleared hcl).2.elim (Pc.plain_ne hc).1.1 (Pc.plain_ne hc).1.2
    refine ⟨id, fun hst => ?_, fun hst => Or.inl rfl, Or.inl, fun hcr => (by cases hcr),
      fun hv => (by cases hv), fun hcl => (by cases hcl), fun hcl => absurd hcl hno, h.state, h.outcome⟩
    have hsuccess : success = true := hst
    rw [hsuccess]
    exact Or.inr ⟨⟨error, rfl⟩, rfl⟩
  | poolLeft a x paused state here calm own kept =>
    refine .moved h (hplain here rfl) ⟨rfl, rfl, id⟩ rfl ?_ (Or.inl rfl)
    exact kept.imp id fun hp => by rw [show _ = DownloadState.paused from hp.2]; rfl
  | checks here => exact checkEnd_advance h here
  | reraises x here pending => exact .raise h (hplain here rfl) (.refl c) rfl x
  | verifies here pending success =>
    have hc := hplain here rfl
    exact .onward h (Pc.plain_ne hc).1 (fun hst => absurd hst (Pc.plain_ne hc).2) ⟨rfl, rfl, id⟩
      ⟨Pc.noConfusion, Pc.noConfusion⟩ (fun _ => success) (Or.inr rfl) fun r => Or.inl
  | returns here pending success =>
    exact .moved h (hplain here rfl) ⟨rfl, rfl, id⟩ rfl (Or.inl rfl) (Or.inr ⟨_, rfl, rfl⟩)
  | verified here =>
    exact ⟨id, Or.inl, fun hst => absurd hst (Pc.plain_ne (hplain here rfl)).2, fun _ => Or.inr rfl,
      fun hcr => (by cases hcr), fun hv => (by cases hv), fun _ => rfl,
      fun _ => ⟨h.verifying here, Or.inl rfl⟩, fun _ => rfl, fun _ _ _ => rfl⟩
  | completes here =>
    exact transitionTo_cases (P := fun d => Advance c (.stateCleared true) d)
      (.last h here ⟨rfl, rfl, id⟩ rfl) fun x => .last h here ⟨rfl, rfl, id⟩ rfl
  | called a ev state entered calm le steered =>
    refine .same h rfl rfl rfl (fun hst => ?_) rfl rfl
    exact absurd hst (not_steered_completed steered)
  | stays | events | writerFails | digest => exact .same h rfl rfl rfl id rfl rfl

theorem created_keeps {a : Act} (hpc : c.pc = .created) (hev : c.ev = {})
    (hstarted : c.writerStarted = false) (hs : controlStep c a = some d) (hd : d.pc = .created) :
    d.ev = {} ∧ d.writerStarted = false := by
  cases a with
  | enter dest =>
    obtain ⟨-, rfl⟩ := at'_eq_some.mp hs
    exfalso
    cases dest
    · refine transitionTo_cases (P := fun d => d.pc ≠ .created) ?_ (fun x => ?_) hd <;>
        exact fun h => Pc.noConfusion h
    · cases hd
    · cases hd
  | callback => simp [controlStep, hev, Events.runCallback] at hs
  | _ => simp [controlStep, Control.at', hpc, hstarted] at hs

end

end Mrdl.Downloader
