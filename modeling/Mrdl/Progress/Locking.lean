import Mathlib.Data.Fintype.EquivFin
import Mrdl.Foundations.Locks

/-! # The locks of stacked bars

`MultiProgress` has a lock, and so has every bar it has added. A bar asks its coordinator to redraw
after it has given its own lock back; the coordinator asks each bar for its line while it holds its own
lock. So the coordinator's lock comes first in every thread, and a bar's lock second.
-/

namespace Mrdl.Progress
open Locks Runs
set_option autoImplicit false

/-- `MultiProgress._lock`, and `BuiltinProgress._lock` of each bar. -/
inductive Lock
  | screen
  | bar (b : ℕ)
  deriving DecidableEq, Repr

namespace Locking

/-- What decides which locks an operation takes. -/
structure Shared where
  isClosed : Bool := false
  bars : List ℕ := []
  hasStarted : ℕ → Bool := fun _ => false
  started : ℕ → Bool := fun _ => false

/-- The operations of a bar of the coordinator, and of the coordinator. -/
inductive Op
  | start (b : ℕ)
  | update (b : ℕ)
  | updateHashed (b : ℕ)
  | setOverlay (b : ℕ)
  | setThrottled (b : ℕ)
  | barLog (b : ℕ)
  | barClose (b : ℕ)
  | renderLine (b : ℕ)
  | addBar
  | render (force : Bool)
  | log
  | close
  | uiLoop
  deriving DecidableEq, Repr

abbrev Step := Code Lock Shared Op

/-- The lines of all bars that have started, with `MultiProgress._lock` held, so that no bar is added
meanwhile. `render_line` may raise, and then both `with` blocks are left. -/
def renderLines : List ℕ → Step → Step
  | [], next => next
  | b :: bars, next =>
      .look fun s =>
        if s.hasStarted b then
          .acquire (.bar b) <| .choose fun raises =>
            .release (.bar b) <| if raises then .release .screen .done else renderLines bars next
        else renderLines bars next

/-- What `_render`, `log` and `close` do with the lines of the bars; a write to the terminal may
raise. -/
def drawAll (next : Step) : Step :=
  .look fun s => renderLines s.bars <| .choose fun raises => .release .screen (if raises then .done else next)

/-- `MultiProgress._render`. -/
def render (force : Bool) (next : Step) : Step :=
  .acquire .screen <| .look fun s =>
    if s.isClosed then .release .screen next
    else if force then drawAll next
    else .choose fun tooSoon => if tooSoon then .release .screen next else drawAll next

/-- `MultiProgress.log`. -/
def log (next : Step) : Step :=
  .acquire .screen <| .look fun s =>
    if s.isClosed then .choose fun raises => .release .screen (if raises then .done else next)
    else drawAll next

/-- `MultiProgress.close`. The join of the UI thread has a timeout. -/
def close (next : Step) : Step :=
  .acquire .screen <| .look fun s =>
    if s.isClosed then .release .screen next
    else .change (fun s => { s with isClosed := true }) (drawAll next)

/-- `MultiProgress.add_bar`. -/
def addBar (next : Step) : Step :=
  .acquire .screen <| .change (fun s => { s with bars := s.bars ++ [s.bars.length] }) <|
    .release .screen next

/-- `BuiltinProgress._render` of a bar with a callback; all its callers force it. -/
def barRender (next : Step) : Step := render true next

/-- What `update`, `update_hashed` and `render_line` have in common: a `with self._lock:` and nothing
else. -/
def underLock (b : ℕ) (next : Step) : Step := .acquire (.bar b) (.release (.bar b) next)

/-- `BuiltinProgress.start`. -/
def start (b : ℕ) (next : Step) : Step :=
  .acquire (.bar b) <|
    .change (fun s => { s with
      hasStarted := Function.update s.hasStarted b true
      started := Function.update s.started b true }) <|
    .release (.bar b) <| barRender next

def update (b : ℕ) (next : Step) : Step := underLock b next

def updateHashed (b : ℕ) (next : Step) : Step := underLock b next

def renderLine (b : ℕ) (next : Step) : Step := underLock b next

def setOverlay (b : ℕ) (next : Step) : Step := underLock b (barRender next)

def setThrottled (b : ℕ) (next : Step) : Step := underLock b (barRender next)

/-- `BuiltinProgress.log`, which calls back with its own lock given back. -/
def barLog (b : ℕ) (next : Step) : Step := underLock b (log next)

/-- `BuiltinProgress.close`. -/
def barClose (b : ℕ) (next : Step) : Step :=
  .acquire (.bar b) <| .look fun s =>
    if s.started b then
      .change (fun s => { s with started := Function.update s.started b false }) <|
        .release (.bar b) <| barRender next
    else .release (.bar b) next

/-- `MultiProgress._ui_loop`. -/
def uiLoop : Step :=
  .acquire .screen <| .look fun s =>
    if s.isClosed then .release .screen .done
    else .release .screen <| render true (.again .uiLoop)

def body : Op → Step
  | .start b => start b .done
  | .update b => update b .done
  | .updateHashed b => updateHashed b .done
  | .setOverlay b => setOverlay b .done
  | .setThrottled b => setThrottled b .done
  | .barLog b => barLog b .done
  | .barClose b => barClose b .done
  | .renderLine b => renderLine b .done
  | .addBar => addBar .done
  | .render force => render force .done
  | .log => log .done
  | .close => close .done
  | .uiLoop => uiLoop

/-! ## The coordinator's lock before a bar's -/

def rank : Lock → ℕ
  | .screen => 0
  | .bar _ => 1

theorem screen_first : ∀ k ∈ (∅ : Set Lock), rank k < rank .screen := fun _ hk => hk.elim

theorem bar_first (b : ℕ) : ∀ k ∈ (∅ : Set Lock), rank k < rank (.bar b) := fun _ hk => hk.elim

theorem bar_second (b : ℕ) : ∀ k ∈ (insert .screen ∅ : Set Lock), rank k < rank (.bar b) := by
  intro k hk
  rcases hk with rfl | hk
  · exact Nat.zero_lt_one
  · exact hk.elim

section
variable {next : Step} (hnext : next.Ordered rank ∅)
include hnext

theorem releaseScreen_ordered : (Code.release .screen next).Ordered rank (insert .screen ∅) :=
  Code.ordered_release screen_first hnext

theorem releaseBar_ordered (b : ℕ) : (Code.release (.bar b) next).Ordered rank (insert (.bar b) ∅) :=
  Code.ordered_release (bar_first b) hnext

theorem underLock_ordered (b : ℕ) : (underLock b next).Ordered rank ∅ :=
  ⟨bar_first b, releaseBar_ordered hnext b⟩

omit hnext in
theorem renderLines_ordered (hnext : next.Ordered rank (insert .screen ∅)) (bars : List ℕ) :
    (renderLines bars next).Ordered rank (insert .screen ∅) := by
  induction bars with
  | nil => exact hnext
  | cons b bars ih =>
    have hraises : (Code.release .screen .done : Step).Ordered rank (insert .screen ∅) :=
      releaseScreen_ordered rfl
    have hline : (Code.acquire (.bar b) <| .choose fun raises => .release (.bar b) <|
        if raises then .release .screen .done else renderLines bars next : Step).Ordered rank
          (insert .screen ∅) :=
      ⟨bar_second b, fun raises => Code.ordered_release (bar_second b) (Code.ordered_ite hraises ih)⟩
    exact Code.ordered_look fun s => Code.ordered_ite hline ih

theorem releaseOrRaise_ordered : (Code.choose fun raises =>
    .release .screen (if raises then .done else next)).Ordered rank (insert .screen ∅) :=
  Code.ordered_choose fun _ => releaseScreen_ordered (Code.ordered_ite rfl hnext)

theorem drawAll_ordered : (drawAll next).Ordered rank (insert .screen ∅) :=
  Code.ordered_look fun s => renderLines_ordered (releaseOrRaise_ordered hnext) s.bars

theorem render_ordered (force : Bool) : (render force next).Ordered rank ∅ := by
  have hskip := releaseScreen_ordered hnext
  have hdraw := drawAll_ordered hnext
  refine ⟨screen_first, Code.ordered_look fun s => Code.ordered_ite hskip (Code.ordered_ite hdraw ?_)⟩
  exact Code.ordered_choose fun tooSoon => Code.ordered_ite hskip hdraw

theorem log_ordered : (log next).Ordered rank ∅ :=
  ⟨screen_first, Code.ordered_look fun _ =>
    Code.ordered_ite (releaseOrRaise_ordered hnext) (drawAll_ordered hnext)⟩

theorem close_ordered : (close next).Ordered rank ∅ :=
  ⟨screen_first, Code.ordered_look fun _ =>
    Code.ordered_ite (releaseScreen_ordered hnext) (drawAll_ordered hnext)⟩

theorem addBar_ordered : (addBar next).Ordered rank ∅ := ⟨screen_first, releaseScreen_ordered hnext⟩

theorem start_ordered (b : ℕ) : (start b next).Ordered rank ∅ :=
  ⟨bar_first b, releaseBar_ordered (render_ordered hnext true) b⟩

theorem barClose_ordered (b : ℕ) : (barClose b next).Ordered rank ∅ :=
  ⟨bar_first b, Code.ordered_look fun _ =>
    Code.ordered_ite (releaseBar_ordered (render_ordered hnext true) b) (releaseBar_ordered hnext b)⟩

end

theorem uiLoop_ordered : uiLoop.Ordered rank ∅ := by
  have hagain : (Code.again .uiLoop : Step).Ordered rank ∅ := rfl
  exact ⟨screen_first, Code.ordered_look fun _ => Code.ordered_ite (releaseScreen_ordered rfl)
    (releaseScreen_ordered (render_ordered hagain true))⟩

theorem body_ordered (op : Op) : (body op).Ordered rank ∅ := by
  have hdone : (Code.done : Step).Ordered rank ∅ := rfl
  cases op with
  | start b => exact start_ordered hdone b
  | update b => exact underLock_ordered hdone b
  | updateHashed b => exact underLock_ordered hdone b
  | setOverlay b => exact underLock_ordered (render_ordered hdone true) b
  | setThrottled b => exact underLock_ordered (render_ordered hdone true) b
  | barLog b => exact underLock_ordered (log_ordered hdone) b
  | barClose b => exact barClose_ordered hdone b
  | renderLine b => exact underLock_ordered hdone b
  | addBar => exact addBar_ordered hdone
  | render force => exact render_ordered hdone force
  | log => exact log_ordered hdone
  | close => exact close_ordered hdone
  | uiLoop => exact uiLoop_ordered

/-! ## Any threads, in any order -/

variable {T : Type*} [DecidableEq T]

/-- A coordinator with any bars, and threads that have not begun. -/
def init (shared : Shared) (ops : T → List Op) : System T Lock Shared Op where
  shared := shared
  threads t := { ops := ops t }

theorem locks_never_deadlock [Finite T] (shared : Shared) (ops : T → List Op)
    {as : List (T × Bool)} {s : System T Lock Shared Op}
    (hrun : exec (System.step body) (init shared ops) as = some s) :
    (∀ t, s.Wants t .screen → ∀ b, s.owner (.bar b) ≠ some t) ∧
      (∀ t l, s.Wants t l → s.owner l ≠ some t) ∧
      ((∃ t l, s.Waits t l) → ∃ t, s.CanLock body t) := by
  have h : s.Disciplined rank := (System.Disciplined.init rank shared ops).run body_ordered hrun
  refine ⟨fun t hwants b hb => ?_, fun t l hwants hl => ?_, ?_⟩
  · exact Nat.not_lt_zero 1 (h.wants_above hwants hb)
  · exact lt_irrefl _ (h.wants_above hwants hl)
  · rintro ⟨t, l, hwants, -⟩
    exact h.canLock hwants

/-- The UI thread is about to take the bar's lock for a redraw, and the bar's own thread waits for the
coordinator's. -/
theorem locks_never_deadlock_redraw :
    ∃ s : System (Fin 2) Lock Shared Op,
      exec (System.step body)
        (init { bars := [0], hasStarted := fun _ => true } fun t => if t = 0 then [.setOverlay 0] else [.uiLoop])
        (List.replicate 8 (1, false) ++ List.replicate 3 (0, false)) = some s ∧
      s.Waits 0 .screen ∧ s.Wants 1 (.bar 0) ∧ ∃ t, s.CanLock body t := by
  suffices ∃ s : System (Fin 2) Lock Shared Op, exec _ _ _ = some s ∧ s.Waits 0 .screen ∧ s.Wants 1 (.bar 0) by
    obtain ⟨s, hrun, hwaits, hwants⟩ := this
    exact ⟨s, hrun, hwaits, hwants, (locks_never_deadlock _ _ hrun).2.2 ⟨0, .screen, hwaits⟩⟩
  exact ⟨_, rfl, ⟨⟨_, rfl⟩, Option.some_ne_none 1⟩, ⟨_, rfl⟩⟩

end Locking
end Mrdl.Progress
