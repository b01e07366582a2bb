import Mrdl.Downloader.UserControl

/-! # What becomes of a disk error

The writer's thread keeps its exception for the check at the end of `start`. That check is the only
place where it is looked at, and it was written for a download that is still `DOWNLOADING` and whose
pool did not succeed. A paused download may not become `FAILED`, a successful one goes on to be
verified, and an error that comes after the check is not seen at all.
-/

namespace Mrdl.Downloader
open Runs
set_option autoImplicit false

/-- `start` has returned a failed result that names the error, and the progress file was kept. -/
def ReportsDiskError (c : Control) (e : String) : Prop :=
  ∃ r, c.outcome = some (.returned r) ∧ r.status = .failed ∧
    r.error = some (Control.diskErrorText e) ∧ c.cleared = false

/-- At the check the error is there, the pool has returned `False`, the download is neither paused
nor cancelled, and no exception is on its way. -/
def NoticedInTime (c : Control) : Act → Prop
  | .check =>
      c.writerError ≠ none ∧ c.success = false ∧ c.state = .downloading ∧ c.pending = none
  | _ => True

def Pc.beforeClosing : Pc → Bool
  | .closing | .verifying | .clearingState | .ended => false
  | _ => true

/-- The text does not name a disk error. -/
def Unnamed (error : Option String) : Prop := ∀ e, error ≠ some (Control.diskErrorText e)

theorem head_append {a : String} {x : Char} (b : String) (h : a.toList.head? = some x) :
    (a ++ b).toList.head? = some x := by
  rw [String.toList_append, List.head?_append, h, Option.some_or]

theorem diskErrorText_head (e : String) : (Control.diskErrorText e).toList.head? = some 'D' :=
  head_append e (by decide)

theorem unnamed_none : Unnamed none := fun e h => by cases h

theorem unnamed_of_head {text : String} {x : Char} (h : text.toList.head? = some x) (hx : x ≠ 'D') :
    Unnamed (some text) := by
  intro e he
  cases he
  rw [diskErrorText_head] at h
  exact hx (Option.some.inj h).symm

theorem poolError_head (error : PoolError) :
    error.text.toList.head? = some 'A' ∨ error.text.toList.head? = some 'F' := by
  cases error with
  | allBanned =>
    left
    decide
  | fatal idx typeName message =>
    right
    unfold PoolError.text
    have hstart : "Fatal error on chunk ".toList.head? = some 'F' := by decide
    exact head_append _ (head_append _ (head_append _ (head_append _ (head_append _ hstart))))

theorem unnamed_pool (error : PoolError) : Unnamed (some error.text) := by
  rcases poolError_head error with h | h
  · exact unnamed_of_head h (by decide)
  · exact unnamed_of_head h (by decide)

theorem unnamed_mismatch : Unnamed (some "Hash verification failed.") :=
  unnamed_of_head (x := 'H') (by decide) (by decide)

theorem unnamed_incomplete (text : String) :
    Unnamed (some ("Hash verification failed: " ++ text)) :=
  unnamed_of_head (x := 'H') (head_append text (by decide)) (by decide)

/-! ## Until the check -/

/-- A run that has not come to its check, or has ended without a writer. -/
structure Untouched (c : Control) : Prop where
  unnamed : c.pc.beforeClosing = true → Unnamed c.lastError
  kept : c.cleared = false
  started : c.writerStarted = true ↔
    c.pc ∈ [.running, .stoppingWriter, .stoppingHasher, .saving, .checking]
  noWriter : c.writerStarted = false → c.writerError = none
  here : c.pc.beforeClosing = true ∨ c.pc = .ended

section
variable {c t : Control}

theorem Untouched.not_started (h : Untouched c)
    (hpc : c.pc ∉ [.running, .stoppingWriter, .stoppingHasher, .saving, .checking]) :
    c.writerStarted = false := by
  rw [← Bool.not_eq_true, h.started]
  exact hpc

theorem Untouched.raise (h : Untouched c) (hw : c.writerStarted = false) (x : Raised) :
    Untouched (c.raise x) :=
  ⟨fun hb => (by cases hb), h.kept, by simp [Control.raise, hw], h.noWriter, Or.inr rfl⟩

theorem Untouched.finish (h : Untouched c) (hw : c.writerStarted = false) (state : DownloadState)
    (error : Option String) (verified : Bool) :
    Untouched ({ c with state := state, lastError := error }.finish verified) :=
  ⟨fun hb => (by cases hb), h.kept, by simp [Control.finish, hw], h.noWriter, Or.inr rfl⟩

theorem Untouched.move (h : Untouched c) (hlast : t.pc.beforeClosing = true → Unnamed t.lastError)
    (hc : t.cleared = c.cleared) (hw : t.writerStarted = c.writerStarted)
    (he : t.writerError = c.writerError)
    (hpc : t.pc ∈ [.running, .stoppingWriter, .stoppingHasher, .saving, .checking] ↔
      c.pc ∈ [.running, .stoppingWriter, .stoppingHasher, .saving, .checking])
    (hhere : t.pc.beforeClosing = true ∨ t.pc = .ended) : Untouched t :=
  ⟨hlast, hc.trans h.kept, by rw [hw, hpc]; exact h.started, by rw [hw, he]; exact h.noWriter, hhere⟩

/-- What leaves the place alone, the calls from outside and the events, keeps everything else. -/
theorem Untouched.stay (h : Untouched c) (hpc : t.pc = c.pc) (hlast : t.lastError = c.lastError)
    (hc : t.cleared = c.cleared) (hw : t.writerStarted = c.writerStarted)
    (he : t.writerError = c.writerError) : Untouched t :=
  h.move (by rw [hlast, hpc]; exact h.unnamed) hc hw he (by rw [hpc]) (by rw [hpc]; exact h.here)

theorem Untouched.goOn (h : Untouched c) (hb : c.pc.beforeClosing = true)
    (hb' : t.pc.beforeClosing = true) (hlast : t.lastError = c.lastError) (hc : t.cleared = c.cleared)
    (hw : t.writerStarted = c.writerStarted) (he : t.writerError = c.writerError)
    (hpc : t.pc ∈ [.running, .stoppingWriter, .stoppingHasher, .saving, .checking] ↔
      c.pc ∈ [.running, .stoppingWriter, .stoppingHasher, .saving, .checking]) : Untouched t :=
  h.move (fun _ => by rw [hlast]; exact h.unnamed hb) hc hw he hpc (Or.inl hb')

theorem Untouched.enters (h : Untouched c) (hb : c.pc.beforeClosing = true) (hw : c.writerStarted = false)
    {new : DownloadState} {pc : Pc} (hb' : pc.beforeClosing = true)
    (hpc : pc ∉ [.running, .stoppingWriter, .stoppingHasher, .saving, .checking]) :
    Untouched (c.transitionTo new (Control.goto pc)) := by
  apply transitionTo_cases
  · have hno : c.pc ∉ [.running, .stoppingWriter, .stoppingHasher, .saving, .checking] := by
      rw [← h.started, hw]
      decide
    exact h.goOn hb hb' rfl rfl rfl rfl ⟨fun hin => absurd hin hpc, fun hin => absurd hin hno⟩
  · exact h.raise hw

theorem fragile_unstarted {pc : Pc} (h : pc.fragile = true) :
    pc ∉ [.running, .stoppingWriter, .stoppingHasher, .saving, .checking] := by
  revert h
  cases pc <;> decide

theorem next_beforeClosing {pc pc' : Pc} (h : pc.next = some pc') :
    pc.beforeClosing = true ∧ pc'.beforeClosing = true ∧
      (pc' ∈ [.running, .stoppingWriter, .stoppingHasher, .saving, .checking] ↔
        pc ∈ [.running, .stoppingWriter, .stoppingHasher, .saving, .checking]) := by
  cases pc <;> cases h <;> decide

theorem controlStep_untouched (h : Untouched c) {a : Act} (ha : a ≠ .check)
    (hs : controlStep c a = some t) : Untouched t := by
  have hearly : ∀ {pc : Pc}, c.pc = pc → pc ∉ [.running, .stoppingWriter, .stoppingHasher, .saving, .checking] →
      c.writerStarted = false := by
    rintro pc rfl hnot
    exact h.not_started hnot
  cases controlStep_moves hs with
  | begins dest pc here present calm =>
    rcases present with rfl | rfl <;>
      exact h.goOn (by rw [here]; rfl) rfl rfl rfl rfl rfl (by simp [Control.goto, here])
  | probesAtOnce here =>
    have h' : Untouched { c with ev := {} } := h.stay rfl rfl rfl rfl rfl
    exact h'.enters (by rw [here]; rfl) (hearly here (by decide)) rfl (by decide)
  | probes a here =>
    rcases here with ⟨here, -⟩ | ⟨here, -⟩ <;>
      exact h.enters (by rw [here]; rfl) (hearly here (by decide)) rfl (by decide)
  | prepares here => exact h.enters (by rw [here]; rfl) (hearly here (by decide)) rfl (by decide)
  | probeFails text here =>
    have hw := hearly here (by decide)
    exact transitionTo_cases (h.finish hw .failed _ false) (h.raise hw)
  | raises a x here calm own => exact h.raise (h.not_started (fragile_unstarted here)) x
  | goes a pc here calm stopped =>
    obtain ⟨hb, hb', hsame⟩ := next_beforeClosing here
    exact h.goOn hb hb' rfl rfl rfl rfl hsame
  | starts here =>
    exact ⟨fun _ => h.unnamed (by rw [here]; rfl), h.kept, by simp, fun hw => (by cases hw), Or.inl rfl⟩
  | poolReturned success error here =>
    refine h.move (fun _ => ?_) rfl rfl rfl (by simp [Control.leavePool, here]) (Or.inl rfl)
    cases error with
    | none => exact h.unnamed (by rw [here]; rfl)
    | some error => exact unnamed_pool error
  | poolLeft a x paused state here calm own kept =>
    exact h.goOn (by rw [here]; rfl) rfl rfl rfl rfl rfl (by simp [Control.leavePool, here])
  | checks => exact absurd rfl ha
  | reraises _ here | verifies here | returns here | verified here | unverified _ _ here | completes here =>
    have hhere := h.here
    rw [here] at hhere
    rcases hhere with hh | hh <;> cases hh
  | stays => exact h
  | called | events | digest => exact h.stay rfl rfl rfl rfl rfl
  | writerFails e started first =>
    exact ⟨h.unnamed, h.kept, h.started, fun hno => (by rw [started] at hno; cases hno), h.here⟩

/-! ## After a check that noticed the error -/

structure Noticed (e : String) (c : Control) : Prop where
  error : c.writerError = some e
  failed : c.state = .failed
  noSuccess : c.success = false
  noPending : c.pending = none
  kept : c.cleared = false
  named : c.lastError = some (Control.diskErrorText e)
  here : c.pc = .closing ∨ (c.pc = .ended ∧ ReportsDiskError c e)

theorem not_steered_final {old new : DownloadState} (h : old = .failed ∨ old = .cancelled) :
    ¬ Steered old new := by
  rcases h with rfl | rfl <;> simp [Steered, validTransitions]

theorem Noticed.events {e : String} (h : Noticed e c) (ev : Events) : Noticed e { c with ev := ev } :=
  ⟨h.error, h.failed, h.noSuccess, h.noPending, h.kept, h.named, h.here⟩

theorem controlStep_noticed {e : String} (h : Noticed e c) {a : Act}
    (hs : controlStep c a = some t) : Noticed e t := by
  have hhere : c.pc = .closing ∨ c.pc = .ended := h.here.imp_right fun hh => hh.1
  have hkept : t.cleared = c.cleared → t.outcome = c.outcome → ReportsDiskError c e →
      ReportsDiskError t e := by
    rintro hc ho ⟨r, hr, hstatus, herror, -⟩
    exact ⟨r, ho.trans hr, hstatus, herror, hc.trans h.kept⟩
  cases controlStep_moves hs with
  | returns here pending success =>
    exact ⟨h.error, h.failed, h.noSuccess, h.noPending, h.kept, h.named,
      Or.inr ⟨rfl, _, rfl, h.failed, h.named, h.kept⟩⟩
  | reraises x here pending =>
    rw [h.noPending] at pending
    cases pending
  | verifies here pending success =>
    rw [h.noSuccess] at success
    cases success
  | stays => exact h
  | called a ev state entered calm le steered => exact absurd steered (not_steered_final (Or.inl h.failed))
  | events => exact h.events _
  | digest =>
    exact ⟨h.error, h.failed, h.noSuccess, h.noPending, h.kept, h.named,
      h.here.imp_right fun hh => ⟨hh.1, hkept rfl rfl hh.2⟩⟩
  | writerFails e' started first =>
    rw [h.error] at first
    cases first
  | probes a here =>
    rcases here with ⟨hpc, -⟩ | ⟨hpc, -⟩ <;> rw [hpc] at hhere <;> rcases hhere with hh | hh <;> cases hh
  | begins _ _ here | probesAtOnce here | prepares here | probeFails _ here | starts here
  | poolReturned _ _ here | poolLeft _ _ _ _ here | checks here | verified here | unverified _ _ here
  | completes here =>
    rw [here] at hhere
    rcases hhere with hh | hh <;> cases hh
  | raises _ _ here | goes _ _ here => rcases hhere with hh | hh <;> rw [hh] at here <;> cases here

theorem noticed_check (h : Untouched c)
    (hG : NoticedInTime c .check) : ∃ e, Noticed e c.checkEnd := by
  obtain ⟨herr, hsuccess, hstate, hpending⟩ := hG
  obtain ⟨e, he⟩ := Option.ne_none_iff_exists'.mp herr
  refine ⟨e, ?_⟩
  unfold Control.checkEnd
  rw [he]
  simp only [hstate, true_or, if_true]
  have hvalid : .failed ∈ validTransitions .downloading := by decide
  rw [Control.transitionTo, if_pos (by simpa [hstate] using hvalid)]
  exact ⟨rfl, rfl, hsuccess, hpending, h.kept, rfl, Or.inl rfl⟩

/-! ## After a check that did not -/

/-- What a check leaves that did not notice the error: a result that names something else, no result,
or a cancelled one. -/
inductive Missed (c : Control) : Prop
  | late (hlast : Unnamed c.lastError)
      (hout : ∀ r, c.outcome = some (.returned r) → Unnamed r.error)
  | doomed (hout : ∀ r, c.outcome ≠ some (.returned r))
      (hend : c.pc = .ended ∨ (c.pc = .closing ∧ c.pending ≠ none) ∨
        (c.success = true ∧ (c.state = .failed ∨ c.state = .cancelled)))
  | cancelled (hstate : c.state = .cancelled) (hsuccess : c.success = false)
      (hout : ∀ r, c.outcome = some (.returned r) → r.status = .cancelled)

theorem Missed.not_reported (h : Missed c) (e : String) : ¬ ReportsDiskError c e := by
  rintro ⟨r, hr, hstatus, herror, -⟩
  cases h with
  | late hlast hout => exact hout r hr e herror
  | doomed hout hend => exact hout r hr
  | cancelled hstate hsuccess hout =>
    rw [hout r hr] at hstatus
    cases hstatus

theorem missed_raise (c : Control) (x : Raised) : Missed (c.raise x) :=
  .doomed (fun r h => by simp [Control.raise] at h) (Or.inl rfl)

theorem Missed.same (h : Missed c) (hlast : t.lastError = c.lastError) (hout : t.outcome = c.outcome)
    (hpc : t.pc = c.pc) (hpending : t.pending = c.pending) (hsuccess : t.success = c.success)
    (hstate : t.state = c.state) : Missed t := by
  cases h with
  | late h1 h2 => exact .late (by rwa [hlast]) (by rwa [hout])
  | doomed h1 h2 => exact .doomed (by rwa [hout]) (by rwa [hpc, hpending, hsuccess, hstate])
  | cancelled h1 h2 h3 => exact .cancelled (by rwa [hstate]) (by rwa [hsuccess]) (by rwa [hout])

/-- A call from outside changes the state at most, and a final state not at all. -/
theorem Missed.called (h : Missed c) (ev : Events) {state : DownloadState} (hs : Steered c.state state) :
    Missed { c with ev := ev, state := state } := by
  cases h with
  | late h1 h2 => exact .late h1 h2
  | doomed h1 h2 =>
    rcases h2 with hended | hclosing | ⟨-, hstate⟩
    · exact .doomed h1 (Or.inl hended)
    · exact .doomed h1 (Or.inr (Or.inl hclosing))
    · exact absurd hs (not_steered_final hstate)
  | cancelled h1 h2 h3 => exact absurd hs (not_steered_final (Or.inr h1))

theorem transitionTo_final {new : DownloadState} {next : Control → Control}
    (h : c.state = .failed ∨ c.state = .cancelled) : Missed (c.transitionTo new next) := by
  have hnot : new ∉ validTransitions c.state := by rcases h with h | h <;> simp [h, validTransitions]
  rw [Control.transitionTo, if_neg hnot]
  exact missed_raise _ _

theorem Missed.verdict (h : Missed c) (hpc : c.pc = .verifying ∨ c.pc = .clearingState)
    {new : DownloadState} {next : Control → Control}
    (hn : Unnamed c.lastError → Missed (next { c with state := new })) :
    Missed (c.transitionTo new next) := by
  cases h with
  | late hlast _ => exact transitionTo_cases (hn hlast) (missed_raise _)
  | doomed _ hend =>
    rcases hend with hended | hclosing | ⟨-, hstate⟩
    · rw [hended] at hpc
      rcases hpc with hpc | hpc <;> cases hpc
    · rw [hclosing.1] at hpc
      rcases hpc with hpc | hpc <;> cases hpc
    · exact transitionTo_final hstate
  | cancelled hstate _ _ => exact transitionTo_final (Or.inr hstate)

theorem missed_finish (hlast : Unnamed c.lastError) (verified : Bool) : Missed (c.finish verified) :=
  .late hlast fun r hr => by
    cases hr
    exact hlast

theorem Missed.closed (h : Missed c) (hpc : c.pc = .closing) (hpending : c.pending = none) :
    (c.success = true → Missed (c.goto .verifying)) ∧ (c.success = false → Missed (c.finish false)) := by
  cases h with
  | late h1 h2 => exact ⟨fun _ => .late h1 h2, fun _ => missed_finish h1 false⟩
  | doomed h1 h2 =>
    rcases h2 with hended | hclosing | ⟨hsuccess, hstate⟩
    · rw [hpc] at hended
      cases hended
    · exact absurd hpending hclosing.2
    · exact ⟨fun _ => .doomed h1 (Or.inr (Or.inr ⟨hsuccess, hstate⟩)), fun hno => by
        rw [hsuccess] at hno
        cases hno⟩
  | cancelled h1 h2 h3 =>
    refine ⟨fun hyes => ?_, fun _ => .cancelled h1 h2 fun r hr => ?_⟩
    · rw [h2] at hyes
      cases hyes
    · cases hr
      exact h1

theorem Missed.verified (h : Missed c) (hpc : c.pc = .verifying) :
    Missed { c with cleared := true, pc := .clearingState } := by
  cases h with
  | late h1 h2 => exact .late h1 h2
  | doomed h1 h2 =>
    rcases h2 with hended | hclosing | hstate
    · rw [hpc] at hended
      cases hended
    · rw [hpc] at hclosing
      cases hclosing.1
    · exact .doomed h1 (Or.inr (Or.inr hstate))
  | cancelled h1 h2 h3 => exact .cancelled h1 h2 h3

theorem controlStep_missed (h : Missed c) (hpast : c.pc.beforeClosing = false) {a : Act}
    (hs : controlStep c a = some t) : Missed t ∧ t.pc.beforeClosing = false := by
  have hbefore : ∀ {pc : Pc}, c.pc = pc → pc.beforeClosing ≠ true := by
    rintro pc rfl
    exact ne_true_of_eq_false hpast
  have hafter : ∀ {new : DownloadState} {next : Control → Control},
      (next { c with state := new }).pc.beforeClosing = false →
      (c.transitionTo new next).pc.beforeClosing = false := fun hn =>
    transitionTo_cases (P := fun d => d.pc.beforeClosing = false) hn fun _ => rfl
  cases controlStep_moves hs with
  | raises a x | reraises x => exact ⟨missed_raise c x, rfl⟩
  | verifies here pending success => exact ⟨(h.closed here pending).1 success, rfl⟩
  | returns here pending success => exact ⟨(h.closed here pending).2 success, rfl⟩
  | verified here => exact ⟨h.verified here, rfl⟩
  | unverified a text here why =>
    refine ⟨h.verdict (Or.inl here) fun _ => missed_finish ?_ _, hafter rfl⟩
    rcases why with ⟨-, rfl⟩ | ⟨m, -, rfl⟩
    · exact unnamed_mismatch
    · exact unnamed_incomplete m
  | completes here =>
    refine ⟨h.verdict (Or.inr here) fun hlast => ?_, hafter rfl⟩
    exact missed_finish (c := { c with state := .completed }) hlast true
  | stays => exact ⟨h, hpast⟩
  | called a ev state entered calm le steered => exact ⟨h.called ev steered, hpast⟩
  | events | writerFails | digest => exact ⟨h.same rfl rfl rfl rfl rfl rfl, hpast⟩
  | probes a here => rcases here with ⟨hpc, -⟩ | ⟨hpc, -⟩ <;> exact absurd rfl (hbefore hpc)
  | goes a pc here => exact absurd (next_beforeClosing here).1 (hbefore rfl)
  | begins _ _ here | probesAtOnce here | prepares here | probeFails _ here | starts here
  | poolReturned _ _ here | poolLeft _ _ _ _ here | checks here => exact absurd rfl (hbefore here)

theorem missed_check (h : Untouched c) (hplace : InPlace c) (hpc : c.pc = .checking)
    (hG : ¬ NoticedInTime c .check) : Missed c.checkEnd ∧ c.checkEnd.pc.beforeClosing = false := by
  have hnone : c.outcome = none := hplace.outcome (by rw [hpc]; decide)
  have hlast : Unnamed c.lastError := h.unnamed (by rw [hpc]; rfl)
  have hthree : c.state = .downloading ∨ c.state = .paused ∨ c.state = .cancelled := by
    have := hplace.state
    simpa [statesAt, hpc] using this
  have hclosed : ∀ s, Missed { c with state := s }.closeSession := fun s =>
    .late hlast fun r hr => by
      have hr' : c.outcome = some (.returned r) := hr
      rw [hnone] at hr'
      cases hr'
  unfold Control.checkEnd
  cases herr : c.writerError with
  | none =>
    simp only
    split
    · exact ⟨hclosed c.state, rfl⟩
    · split
      · exact ⟨transitionTo_cases (hclosed _) (missed_raise c),
          transitionTo_cases (P := fun d => d.pc.beforeClosing = false) rfl fun _ => rfl⟩
      · exact ⟨hclosed c.state, rfl⟩
  | some e =>
    have hno : ∀ r, c.outcome ≠ some (.returned r) := by
      intro r hr
      rw [hnone] at hr
      cases hr
    simp only
    rcases hthree with hs | hs | hs
    · -- the download becomes FAILED, but it is verified all the same or an exception goes on
      have hvalid : .failed ∈ validTransitions c.state := by rw [hs]; decide
      rw [if_pos (Or.inl hs), Control.transitionTo, if_pos hvalid]
      refine ⟨.doomed hno (Or.inr ?_), rfl⟩
      rcases Bool.eq_false_or_eq_true c.success with hsuccess | hsuccess
      · exact Or.inr ⟨hsuccess, Or.inl rfl⟩
      · refine Or.inl ⟨rfl, fun hpending => hG ⟨?_, hsuccess, hs, hpending⟩⟩
        rw [herr]
        exact Option.some_ne_none e
    · -- PAUSED does not lead to FAILED
      have hinvalid : .failed ∉ validTransitions c.state := by rw [hs]; decide
      rw [if_pos (Or.inr hs), Control.transitionTo, if_neg hinvalid]
      exact ⟨missed_raise _ _, rfl⟩
    · rw [if_neg (by rw [hs]; decide)]
      refine ⟨?_, rfl⟩
      rcases Bool.eq_false_or_eq_true c.success with hsuccess | hsuccess
      · exact .doomed hno (Or.inr (Or.inr ⟨hsuccess, Or.inr hs⟩))
      · exact .cancelled hs hsuccess fun r hr => absurd hr (hno r)

end

/-! ## Whole runs -/

theorem untouched_init : Untouched {} :=
  ⟨fun _ => unnamed_none, rfl, by simp, fun _ => rfl, Or.inl rfl⟩

/-- A run that notices every disk error in time has not come to its check, or has noticed one. -/
theorem controlStep_guarded {c t : Control} {a : Act}
    (h : (InPlace c ∧ Untouched c) ∨ ∃ e, Noticed e c) (hG : NoticedInTime c a)
    (hs : controlStep c a = some t) : (InPlace t ∧ Untouched t) ∨ ∃ e, Noticed e t := by
  rcases h with ⟨hplace, h⟩ | ⟨e, h⟩
  · by_cases ha : a = .check
    · subst ha
      obtain ⟨hpc, rfl⟩ := at'_eq_some.mp hs
      exact Or.inr (noticed_check h hG)
    · exact Or.inl ⟨(controlStep_inPlace hplace (fun hc => absurd hc ha) hs).1,
        controlStep_untouched h ha hs⟩
  · exact Or.inr ⟨e, controlStep_noticed h hs⟩

/-- The writer's error is reported by a run of `start` that has ended, exactly when its check noticed
it in time. -/
theorem diskError_reported_iff (as : List Act) (c : Control) (e : String)
    (hrun : exec controlStep {} as = some c) (hended : c.pc = .ended)
    (herror : c.writerError = some e) :
    ReportsDiskError c e ↔ Guarded controlStep NoticedInTime {} as := by
  constructor
  · intro hreport
    by_contra hmissed
    obtain ⟨bs, a, cs, u, v, rfl, hgs, hbs, ha, huv, hcs⟩ := exists_unguarded hmissed hrun
    have hcheck : a = .check := by
      by_contra hne
      cases a with
      | check => exact hne rfl
      | _ => exact ha trivial
    subst hcheck
    obtain ⟨hpc, rfl⟩ := at'_eq_some.mp huv
    have hu : InPlace u ∧ Untouched u := by
      have hprefix := exec_guarded
        (fun s a t hs ha hst => controlStep_guarded hs ha hst) (Or.inl ⟨inPlace_init, untouched_init⟩)
        hgs hbs
      rcases hprefix with hu | ⟨e', hu⟩
      · exact hu
      · rcases hu.here with hh | ⟨hh, -⟩ <;> rw [hpc] at hh <;> cases hh
    have hlast : Missed c ∧ c.pc.beforeClosing = false := by
      refine exec_invariant (P := fun d => Missed d ∧ d.pc.beforeClosing = false) ?_
        (missed_check hu.2 hu.1 hpc ha) hcs
      rintro d b d' ⟨hd, hpast⟩ hst
      exact controlStep_missed hd hpast hst
    exact hlast.1.not_reported e hreport
  · intro hguarded
    have hfin : (InPlace c ∧ Untouched c) ∨ ∃ e, Noticed e c :=
      exec_guarded (P := fun c => (InPlace c ∧ Untouched c) ∨ ∃ e, Noticed e c)
        (fun s a t hs ha hst => controlStep_guarded hs ha hst) (Or.inl ⟨inPlace_init, untouched_init⟩)
        hguarded hrun
    rcases hfin with ⟨-, h⟩ | ⟨e', h⟩
    · have hw := h.not_started (by rw [hended]; decide)
      rw [h.noWriter hw] at herror
      cases herror
    · have hsame : e' = e := Option.some.inj (h.error.symm.trans herror)
      rcases h.here with hclosing | ⟨-, hreport⟩
      · rw [hended] at hclosing
        cases hclosing
      · rwa [hsame] at hreport

/-- The disk fails while the last blocks are written: the pool has succeeded, so the file is verified
after the download became `FAILED`, the progress file is removed, and `start` raises. -/
theorem late_error_raises :
    ∃ c, exec controlStep {} [.enter .missing, .probeReturns .metadata, .fileReady true,
        .stateReady true, .poolReturns true none, .writerFails "No space left", .writerStopped,
        .hasherStopped, .stateSaved, .check, .sessionClosed, .finalizeReturns .verified,
        .stateCleared true] = some c ∧
      c.outcome = some (.raised (.invalidTransition .failed .completed)) ∧ c.cleared = true ∧
      ¬ ReportsDiskError c "No space left" := by
  refine ⟨_, rfl, rfl, rfl, ?_⟩
  rintro ⟨r, hr, -⟩
  cases hr

/-- The pool gives up after the disk error. -/
theorem noticed_error_reported :
    ∃ c, exec controlStep {} [.enter .missing, .probeReturns .metadata, .fileReady true,
        .stateReady true, .writerFails "No space left", .poolReturns false none, .writerStopped,
        .hasherStopped, .stateSaved, .check, .sessionClosed] = some c ∧
      ReportsDiskError c "No space left" :=
  ⟨_, rfl, (diskError_reported_iff [.enter .missing, .probeReturns .metadata, .fileReady true,
    .stateReady true, .writerFails "No space left", .poolReturns false none, .writerStopped,
    .hasherStopped, .stateSaved, .check, .sessionClosed] _ "No space left" rfl rfl rfl).mpr
    (by simp [Guarded, NoticedInTime, controlStep, Control.at', Control.transitionTo,
      validTransitions, Control.goto, Control.leavePool, Control.checkEnd, Control.closeSession])⟩

end Mrdl.Downloader
