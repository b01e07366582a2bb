import Mathlib.Tactic.FinCases
import Mrdl.Foundations.Runs
import Mrdl.Foundations.Terminal
import Mrdl.Progress.Formatter

/-! # Stacked bars on a terminal

`MultiProgress` on a TTY. It moves the cursor only relative to where it is, by the number of rows it
remembers to have drawn. What the bars show at each operation is given: the text each of them renders at
that moment. The screen is then always the messages logged before `close`, a row for each bar that had
started, and the messages logged after (`screen_holds`).
-/

namespace Mrdl.Progress
open Ansi Terminal Runs
set_option autoImplicit false

/-- `bars` tells of each bar whether it has started. -/
structure MultiProgress where
  bars : List Bool := []
  linesPrinted : ℕ := 0
  isClosed : Bool := false
  screen : Terminal := {}

/-- `log` splits its message at the newlines; `tooSoon` is that the last redraw is less than the refresh
interval ago. -/
inductive MultiOp
  | addBar
  | start (b : ℕ)
  | render (force tooSoon : Bool)
  | log (message : Str)
  | close
  deriving DecidableEq, Repr

/-- The bars that have started, in the order they were added. -/
def startedBars (bars : List Bool) : List ℕ := (List.range bars.length).filter fun b => bars.getD b false

namespace MultiProgress

/-- A carriage return, a text and a newline for each of the texts. -/
def writeLines (W : ℕ) (texts : List Str) (t : Terminal) : Terminal :=
  texts.foldl (fun t text => t.write W ('\r' :: (text ++ ['\n']))) t

def blankLines (W n : ℕ) : List Str := List.replicate n (List.replicate W ' ')

/-- `_draw_lines`. -/
def drawLines (W : ℕ) (m : MultiProgress) (lines : List Str) : MultiProgress :=
  let top := if 0 < m.linesPrinted then m.screen.write W ('\r' :: up m.linesPrinted) else m.screen
  let drawn := writeLines W (lines.map (padLine · W)) top
  let screen :=
    if lines.length < m.linesPrinted then
      (writeLines W (blankLines W (m.linesPrinted - lines.length)) drawn).write W
        (up (m.linesPrinted - lines.length))
    else drawn
  { m with screen := screen, linesPrinted := lines.length }

/-- `_clear_lines`. -/
def clearLines (W : ℕ) (m : MultiProgress) : MultiProgress :=
  if 0 < m.linesPrinted then
    let top := m.screen.write W ('\r' :: up m.linesPrinted)
    let blank := writeLines W (blankLines W m.linesPrinted) top
    { m with screen := blank.write W ('\r' :: up m.linesPrinted), linesPrinted := 0 }
  else m

/-- The lines of all bars that have started. -/
def lines (m : MultiProgress) (rendered : ℕ → Str) : List Str := (startedBars m.bars).map rendered

/-- `_render`. -/
def render (W : ℕ) (m : MultiProgress) (rendered : ℕ → Str) (force tooSoon : Bool) : MultiProgress :=
  if m.isClosed then m
  else if ¬ force ∧ tooSoon then m
  else if m.lines rendered = [] then m
  else m.drawLines W (m.lines rendered)

/-- `log`. -/
def log (W : ℕ) (m : MultiProgress) (rendered : ℕ → Str) (message : Str) : MultiProgress :=
  if m.isClosed then { m with screen := m.screen.write W (message ++ ['\n']) }
  else
    let cleared := m.clearLines W
    let said := (message.splitOn '\n').foldl (fun t line => t.write W (line ++ ['\n'])) cleared.screen
    ({ cleared with screen := said }).drawLines W (m.lines rendered)

/-- `close`. -/
def close (W : ℕ) (m : MultiProgress) (rendered : ℕ → Str) : MultiProgress :=
  if m.isClosed then m
  else { m.drawLines W (m.lines rendered) with isClosed := true, linesPrinted := 0 }

/-- One operation, with the text that each bar renders meanwhile. A bar that starts has itself drawn. -/
def step (W : ℕ) (m : MultiProgress) : MultiOp × (ℕ → Str) → Option MultiProgress
  | (.addBar, _) => some { m with bars := m.bars ++ [false] }
  | (.start b, rendered) =>
      if b < m.bars.length then some (({ m with bars := m.bars.set b true }).render W rendered true false)
      else none
  | (.render force tooSoon, rendered) => some (m.render W rendered force tooSoon)
  | (.log message, rendered) => some (m.log W rendered message)
  | (.close, rendered) => some (m.close W rendered)

end MultiProgress

/-! ## What is to be seen -/

/-- The rows of the screen, apart from how they got there: the lines logged before `close`, the bars
started before `close` with what each of them last drew, and the lines logged after. -/
structure Display where
  bars : List Bool := []
  closed : Bool := false
  before : List Str := []
  shown : List ℕ := []
  latest : ℕ → Str := fun _ => []
  after : List Str := []

namespace Display

/-- All bars that are shown are drawn again. -/
def redraw (d : Display) (rendered : ℕ → Str) : Display :=
  { d with latest := fun b => if b ∈ d.shown then rendered b else d.latest b }

def step (d : Display) : MultiOp × (ℕ → Str) → Display
  | (.addBar, _) => { d with bars := d.bars ++ [false] }
  | (.start b, rendered) =>
      let bars := d.bars.set b true
      if d.closed then { d with bars := bars }
      else ({ d with bars := bars, shown := startedBars bars }).redraw rendered
  | (.render force tooSoon, rendered) => if d.closed ∨ ¬ force ∧ tooSoon then d else d.redraw rendered
  | (.log message, rendered) =>
      if d.closed then { d with after := d.after ++ message.splitOn '\n' }
      else ({ d with before := d.before ++ message.splitOn '\n' }).redraw rendered
  | (.close, rendered) => if d.closed then d else { d.redraw rendered with closed := true }

/-- After the operations, from nothing. -/
def of (ops : List (MultiOp × (ℕ → Str))) : Display := ops.foldl step {}

/-- From top to bottom, as far as it can be seen. -/
def rows (d : Display) : List Str :=
  (d.before ++ d.shown.map d.latest ++ d.after).map (strip [])

end Display

/-! ## Lines on the screen -/

/-- The line has no control characters but colour codes, and is not wider than the terminal. -/
def FitsRow (W : ℕ) (line : Str) : Prop := (∃ v, Shows line v) ∧ visibleLen line ≤ W

theorem FitsRow.shows {W : ℕ} {line : Str} (h : FitsRow W line) :
    Shows line (strip [] line) ∧ (strip [] line).length ≤ W := by
  obtain ⟨⟨v, hv⟩, hlen⟩ := h
  refine ⟨?_, hlen⟩
  rw [hv.strip_eq]
  exact hv

theorem padLine_shows {W : ℕ} {line : Str} (h : FitsRow W line) :
    Shows (padLine line W) (strip [] line ++ List.replicate (W - (strip [] line).length) ' ') := by
  obtain ⟨hshows, hlen⟩ := h.shows
  unfold padLine
  split
  · exact hshows.append (shows_spaces _)
  · rename_i hfull
    have hnone : W - (strip [] line).length = 0 := by
      unfold visibleLen at hfull
      omega
    rw [hnone]
    exact (List.append_nil (strip [] line)).symm ▸ hshows

variable {W : ℕ} {t : Terminal} {above below : List Str}

namespace MultiProgress

/-- Texts that fill their rows replace the rows from the cursor on. -/
theorem writeLines_holds {ι : Type*} (text row : ι → Str) {ls : List ι} (h : Holds W t above below)
    (hls : ∀ l ∈ ls, Shows (text l) (row l ++ List.replicate (W - (row l).length) ' ') ∧ (row l).length ≤ W) :
    Holds W (writeLines W (ls.map text) t) (above ++ ls.map row) (below.drop ls.length) := by
  induction ls generalizing t above below with
  | nil =>
    simp only [List.map_nil, List.append_nil, List.length_nil, List.drop_zero]
    exact h
  | cons l ls ih =>
    obtain ⟨hshows, hlen⟩ := hls l (List.mem_cons_self ..)
    have hcover : (below.getD 0 []).length ≤ (row l).length + (W - (row l).length) := by
      rw [Nat.add_sub_cancel' hlen]
      cases below with
      | nil => exact Nat.zero_le W
      | cons x below => exact h.fits x (List.mem_append_right _ (List.mem_cons_self ..))
    have hline := h.writeReturn.writeLine hshows (by omega) hcover
    have hrest := ih hline fun x hx => hls x (List.mem_cons_of_mem _ hx)
    rw [List.append_assoc, List.singleton_append, List.drop_tail] at hrest
    exact hrest

theorem blankLines_holds (h : Holds W t above below) (n : ℕ) :
    Holds W (writeLines W (blankLines W n) t) (above ++ List.replicate n []) (below.drop n) := by
  have hblank := writeLines_holds (fun _ => List.replicate W ' ') (fun _ => []) h
    (show ∀ _ ∈ List.replicate n (), _ from fun _ _ => ⟨shows_spaces W, Nat.zero_le W⟩)
  rw [List.map_replicate, List.map_replicate, List.length_replicate] at hblank
  exact hblank

theorem message_holds {lines : List Str} (h : Holds W t above []) (hlines : ∀ l ∈ lines, FitsRow W l) :
    Holds W (lines.foldl (fun t line => t.write W (line ++ ['\n'])) t) (above ++ lines.map (strip [])) [] := by
  induction lines generalizing t above with
  | nil =>
    simp only [List.map_nil, List.append_nil]
    exact h
  | cons line lines ih =>
    obtain ⟨hshows, hlen⟩ := (hlines line (List.mem_cons_self ..)).shows
    have hline := h.writeLine (n := 0) (by simpa using hshows) hlen (Nat.zero_le _)
    have hrest := ih hline fun x hx => hlines x (List.mem_cons_of_mem _ hx)
    rw [List.append_assoc, List.singleton_append] at hrest
    exact hrest

variable {m : MultiProgress} {drawn : List Str}

/-- Back to the first row that was drawn. -/
theorem top_holds (h : Holds W m.screen (above ++ drawn) []) (hdrawn : drawn.length = m.linesPrinted) :
    Holds W (if 0 < m.linesPrinted then m.screen.write W ('\r' :: up m.linesPrinted) else m.screen) above
      drawn := by
  split
  · rename_i hpos
    have hdrawn_ne : drawn ≠ [] := by
      rintro rfl
      rw [List.length_nil] at hdrawn
      omega
    have hup := h.writeReturn.writeUp hdrawn_ne
    rw [hdrawn, List.append_nil] at hup
    exact hup
  · have hnone : drawn = [] := List.eq_nil_of_length_eq_zero (by omega)
    rw [hnone, List.append_nil] at h
    rw [hnone]
    exact h

theorem drawLines_holds {lines : List Str} (h : Holds W m.screen (above ++ drawn) [])
    (hdrawn : drawn.length = m.linesPrinted) (hlines : ∀ l ∈ lines, FitsRow W l) :
    Holds W (m.drawLines W lines).screen (above ++ lines.map (strip [])) [] := by
  have htop := top_holds h hdrawn
  have hrows := writeLines_holds (fun line => padLine line W) (strip []) htop
    fun l hl => ⟨padLine_shows (hlines l hl), (hlines l hl).shows.2⟩
  unfold drawLines
  dsimp only
  split
  · rename_i hfewer
    have hblank := blankLines_holds hrows (m.linesPrinted - lines.length)
    have hrest : (drawn.drop lines.length).drop (m.linesPrinted - lines.length) = [] := by
      apply List.eq_nil_of_length_eq_zero
      rw [List.length_drop, List.length_drop]
      omega
    rw [hrest] at hblank
    have hup := hblank.writeUp (mt (List.replicate_eq_nil_iff _).mp (Nat.sub_ne_zero_of_lt hfewer))
    rw [List.length_replicate, List.append_nil] at hup
    exact hup.blanks
  · have hrest : drawn.drop lines.length = [] := List.drop_eq_nil_of_le (by omega)
    rw [hrest] at hrows
    exact hrows

theorem clearLines_holds (h : Holds W m.screen (above ++ drawn) []) (hdrawn : drawn.length = m.linesPrinted) :
    Holds W (m.clearLines W).screen above [] ∧ (m.clearLines W).linesPrinted = 0 := by
  have htop := top_holds h hdrawn
  unfold clearLines
  split
  · rename_i hpos
    rw [if_pos hpos] at htop
    have hblank := blankLines_holds htop m.linesPrinted
    rw [List.drop_eq_nil_of_le (Nat.le_of_eq hdrawn)] at hblank
    have hup := hblank.writeReturn.writeUp (mt (List.replicate_eq_nil_iff _).mp hpos.ne')
    rw [List.length_replicate, List.append_nil] at hup
    exact ⟨hup.blanks, rfl⟩
  · rename_i hpos
    rw [if_neg hpos] at htop
    have hnone : drawn = [] := List.eq_nil_of_length_eq_zero (by omega)
    rw [hnone] at htop
    exact ⟨htop, Nat.eq_zero_of_not_pos hpos⟩

/-- A message and a newline is each of its lines and a newline. -/
theorem splitOn_newlines (message : Str) :
    (message.splitOn '\n').flatMap (· ++ ['\n']) = message ++ ['\n'] := by
  induction message with
  | nil => rfl
  | cons c message ih =>
    rw [List.splitOn_cons_eq_if_modifyHead]
    split
    · rename_i hc
      rw [List.flatMap_cons, ih, beq_iff_eq.mp hc]
      rfl
    · obtain ⟨line, lines, hlines⟩ := List.exists_cons_of_ne_nil (List.splitOn_ne_nil '\n' message)
      rw [hlines, List.flatMap_cons] at ih
      rw [hlines, List.modifyHead_cons, List.flatMap_cons, List.cons_append, List.cons_append, ih]
      rfl

theorem write_message (W : ℕ) (t : Terminal) (message : Str) :
    t.write W (message ++ ['\n']) =
      (message.splitOn '\n').foldl (fun t line => t.write W (line ++ ['\n'])) t := by
  rw [← splitOn_newlines]
  generalize message.splitOn '\n' = lines
  induction lines generalizing t with
  | nil => rfl
  | cons line lines ih => rw [List.flatMap_cons, write_append, ih, List.foldl_cons]

end MultiProgress

/-! ## After every operation -/

theorem startedBars_snoc (bars : List Bool) : startedBars (bars ++ [false]) = startedBars bars := by
  unfold startedBars
  rw [List.length_append, List.length_singleton, List.range_succ, List.filter_append]
  have hnew : (bars ++ [false]).getD bars.length false = false := by simp
  have hold : ∀ b ∈ List.range bars.length, (bars ++ [false]).getD b false = bars.getD b false := by
    intro b hb
    rw [List.mem_range] at hb
    simp [List.getD_eq_getElem?_getD, List.getElem?_append_left hb]
  rw [List.filter_cons_of_neg (by simp), List.filter_nil, List.append_nil]
  exact List.filter_congr hold

theorem Display.redraw_rows (d : Display) (rendered : ℕ → Str) :
    (d.redraw rendered).shown.map (d.redraw rendered).latest = d.shown.map rendered :=
  List.map_congr_left fun _ hb => if_pos hb

/-- The screen holds what is to be seen; until `close` the bars are its last rows, and as many as were
printed. -/
structure OnScreen (W : ℕ) (m : MultiProgress) (d : Display) : Prop where
  bars : m.bars = d.bars
  closed : m.isClosed = d.closed
  screen : Holds W m.screen d.rows []
  live : d.closed = false → d.after = [] ∧ d.shown = startedBars d.bars ∧ d.shown.length = m.linesPrinted

variable {m m' : MultiProgress} {d : Display}

namespace OnScreen

/-- Until `close` the last rows of the screen are the bars, as many as were printed. -/
theorem live_screen (h : OnScreen W m d) (hopen : d.closed = false) :
    Holds W m.screen (d.before.map (strip []) ++ (d.shown.map d.latest).map (strip [])) [] ∧
      ((d.shown.map d.latest).map (strip [])).length = m.linesPrinted := by
  obtain ⟨hafter, -, hprinted⟩ := h.live hopen
  have hscreen := h.screen
  rw [Display.rows, hafter, List.append_nil, List.map_append] at hscreen
  rw [List.length_map, List.length_map]
  exact ⟨hscreen, hprinted⟩

/-- Drawing the bars that have started, below the messages. -/
theorem draw {before : List Str} {bars : List Bool} {drawn : List Str} {rendered : ℕ → Str}
    (hbars : m.bars = bars) (hclosed : m.isClosed = false)
    (hscreen : Holds W m.screen (before.map (strip []) ++ drawn) []) (hdrawn : drawn.length = m.linesPrinted)
    (hfits : ∀ b, FitsRow W (rendered b)) (latest : ℕ → Str) :
    OnScreen W (m.drawLines W (m.lines rendered))
      (({ bars := bars, before := before, shown := startedBars bars, latest := latest } : Display).redraw
        rendered) := by
  have hline : ∀ l ∈ m.lines rendered, FitsRow W l := by
    intro l hl
    obtain ⟨b, -, rfl⟩ := List.mem_map.mp hl
    exact hfits b
  have hrows := MultiProgress.drawLines_holds hscreen hdrawn hline
  refine ⟨hbars, hclosed, ?_, fun _ => ⟨rfl, rfl, ?_⟩⟩
  · have hlatest := Display.redraw_rows
      { bars := bars, before := before, shown := startedBars bars, latest := latest } rendered
    have hlines : m.lines rendered = (startedBars bars).map rendered := by
      rw [MultiProgress.lines, hbars]
    rw [Display.rows, hlatest]
    simp only [Display.redraw, List.append_nil, List.map_append]
    rw [hlines] at hrows ⊢
    exact hrows
  · rw [MultiProgress.drawLines, MultiProgress.lines, List.length_map, hbars]
    rfl

/-- `_render` past its tests; when no bar has started there is nothing to draw, nor was there before. -/
theorem redraw {before : List Str} {bars : List Bool} {drawn : List Str} {rendered : ℕ → Str}
    (hbars : m.bars = bars) (hclosed : m.isClosed = false)
    (hscreen : Holds W m.screen (before.map (strip []) ++ drawn) []) (hdrawn : drawn.length = m.linesPrinted)
    (hnone : startedBars bars = [] → drawn = []) (hfits : ∀ b, FitsRow W (rendered b)) (latest : ℕ → Str) :
    OnScreen W (if m.lines rendered = [] then m else m.drawLines W (m.lines rendered))
      (({ bars := bars, before := before, shown := startedBars bars, latest := latest } : Display).redraw
        rendered) := by
  split
  · rename_i hlines
    rw [MultiProgress.lines, List.map_eq_nil_iff, hbars] at hlines
    have hempty := hnone hlines
    refine ⟨hbars, hclosed, ?_, fun _ => ⟨rfl, rfl, ?_⟩⟩
    · rw [hempty] at hscreen
      simpa [Display.rows, Display.redraw, hlines] using hscreen
    · rw [hempty] at hdrawn
      show (startedBars bars).length = m.linesPrinted
      rw [hlines]
      exact hdrawn
  · exact draw hbars hclosed hscreen hdrawn hfits latest

theorem mem_startedBars_set {bars : List Bool} {b : ℕ} (hb : b < bars.length) :
    b ∈ startedBars (bars.set b true) := by
  rw [startedBars, List.mem_filter, List.mem_range, List.length_set]
  refine ⟨hb, ?_⟩
  simp [List.getD_eq_getElem?_getD, List.getElem?_set_self hb]

/-- A display whose bars are live, taken apart. -/
theorem live_eq (h : OnScreen W m d) (hopen : d.closed = false) :
    d = { bars := d.bars, before := d.before, shown := startedBars d.bars, latest := d.latest } := by
  obtain ⟨hafter, hshown, -⟩ := h.live hopen
  obtain ⟨bars, closed, before, shown, latest, after⟩ := d
  dsimp only at hopen hafter hshown ⊢
  subst hopen hafter hshown
  rfl

theorem start (h : OnScreen W m d) {b : ℕ} {rendered : ℕ → Str} (hb : b < m.bars.length)
    (hfits : ∀ b, FitsRow W (rendered b)) :
    OnScreen W (({ m with bars := m.bars.set b true }).render W rendered true false)
      (d.step (.start b, rendered)) := by
  have hbars : m.bars.set b true = d.bars.set b true := by rw [h.bars]
  unfold MultiProgress.render
  cases hclosed : d.closed with
  | true =>
    have hstep : d.step (.start b, rendered) = { d with bars := d.bars.set b true } := if_pos hclosed
    rw [if_pos (h.closed.trans hclosed), hstep]
    exact ⟨hbars, h.closed, h.screen, fun hopen => by cases hclosed.symm.trans hopen⟩
  | false =>
    have hm : m.isClosed = false := h.closed.trans hclosed
    obtain ⟨hscreen, hdrawn⟩ := h.live_screen hclosed
    have hstarted := mem_startedBars_set (h.bars ▸ hb)
    have hdraw := redraw (m := { m with bars := m.bars.set b true }) hbars hm hscreen hdrawn
      (fun hnil => absurd hstarted (by rw [hnil]; exact List.not_mem_nil)) hfits d.latest
    have hstep : d.step (.start b, rendered) = ({
        bars := d.bars.set b true, before := d.before
        shown := startedBars (d.bars.set b true), latest := d.latest } : Display).redraw rendered := by
      rw [h.live_eq hclosed]
      rfl
    rw [if_neg (by rw [hm]; decide), if_neg (by decide), hstep]
    exact hdraw

theorem render (h : OnScreen W m d) {force tooSoon : Bool} {rendered : ℕ → Str}
    (hfits : ∀ b, FitsRow W (rendered b)) :
    OnScreen W (m.render W rendered force tooSoon) (d.step (.render force tooSoon, rendered)) := by
  unfold MultiProgress.render
  cases hclosed : d.closed with
  | true =>
    have hstep : d.step (.render force tooSoon, rendered) = d := if_pos (.inl hclosed)
    rw [if_pos (h.closed.trans hclosed), hstep]
    exact h
  | false =>
    have hm : m.isClosed = false := h.closed.trans hclosed
    rw [if_neg (by rw [hm]; decide)]
    by_cases hsoon : ¬ force ∧ tooSoon
    · have hstep : d.step (.render force tooSoon, rendered) = d := if_pos (.inr hsoon)
      rw [if_pos hsoon, hstep]
      exact h
    · have hstep : d.step (.render force tooSoon, rendered) = d.redraw rendered :=
        if_neg (by rw [hclosed]; simpa using hsoon)
      obtain ⟨hscreen, hdrawn⟩ := h.live_screen hclosed
      have hdraw := redraw h.bars hm hscreen hdrawn
        (fun hnil => by rw [(h.live hclosed).2.1, hnil]; rfl) hfits d.latest
      rw [← h.live_eq hclosed] at hdraw
      rw [if_neg hsoon, hstep]
      exact hdraw

theorem log (h : OnScreen W m d) {message : Str} {rendered : ℕ → Str} (hfits : ∀ b, FitsRow W (rendered b))
    (hmessage : ∀ line ∈ message.splitOn '\n', FitsRow W line) :
    OnScreen W (m.log W rendered message) (d.step (.log message, rendered)) := by
  unfold MultiProgress.log
  cases hclosed : d.closed with
  | true =>
    have hsaid := MultiProgress.message_holds h.screen hmessage
    have hstep : d.step (.log message, rendered) = { d with after := d.after ++ message.splitOn '\n' } :=
      if_pos hclosed
    rw [if_pos (h.closed.trans hclosed), hstep]
    refine ⟨h.bars, h.closed, ?_, fun hopen => by cases hclosed.symm.trans hopen⟩
    dsimp only
    rw [MultiProgress.write_message, Display.rows, ← List.append_assoc, List.map_append]
    exact hsaid
  | false =>
    have hm : m.isClosed = false := h.closed.trans hclosed
    obtain ⟨hscreen, hdrawn⟩ := h.live_screen hclosed
    obtain ⟨hcleared, hnone⟩ := MultiProgress.clearLines_holds hscreen hdrawn
    have hsaid := MultiProgress.message_holds hcleared hmessage
    rw [← List.map_append, ← List.append_nil (List.map _ _)] at hsaid
    have hkept : (m.clearLines W).bars = m.bars ∧ (m.clearLines W).isClosed = m.isClosed := by
      unfold MultiProgress.clearLines
      split <;> exact ⟨rfl, rfl⟩
    have hdraw := draw (m := { m.clearLines W with
        screen := (message.splitOn '\n').foldl (fun t line => t.write W (line ++ ['\n']))
          (m.clearLines W).screen })
      (hkept.1.trans h.bars) (hkept.2.trans hm) hsaid hnone.symm hfits d.latest
    have hstep : d.step (.log message, rendered) = ({
        bars := d.bars, before := d.before ++ message.splitOn '\n'
        shown := startedBars d.bars, latest := d.latest } : Display).redraw rendered := by
      rw [h.live_eq hclosed]
      rfl
    have hlines : m.lines rendered = (m.clearLines W).lines rendered := by
      rw [MultiProgress.lines, MultiProgress.lines, hkept.1]
    rw [if_neg (by rw [hm]; decide), hstep, hlines]
    exact hdraw

theorem close (h : OnScreen W m d) {rendered : ℕ → Str} (hfits : ∀ b, FitsRow W (rendered b)) :
    OnScreen W (m.close W rendered) (d.step (.close, rendered)) := by
  unfold MultiProgress.close
  cases hclosed : d.closed with
  | true =>
    have hstep : d.step (.close, rendered) = d := if_pos hclosed
    rw [if_pos (h.closed.trans hclosed), hstep]
    exact h
  | false =>
    have hm : m.isClosed = false := h.closed.trans hclosed
    obtain ⟨hscreen, hdrawn⟩ := h.live_screen hclosed
    have hdraw := draw h.bars hm hscreen hdrawn hfits d.latest
    rw [← h.live_eq hclosed] at hdraw
    have hstep : d.step (.close, rendered) = { d.redraw rendered with closed := true } :=
      if_neg (by rw [hclosed]; decide)
    rw [if_neg (by rw [hm]; decide), hstep]
    exact ⟨hdraw.bars, rfl, hdraw.screen, fun hopen => by cases hopen⟩

theorem step (h : OnScreen W m d) {op : MultiOp × (ℕ → Str)} (hfits : ∀ b, FitsRow W (op.2 b))
    (hmessage : ∀ message, op.1 = .log message → ∀ line ∈ message.splitOn '\n', FitsRow W line)
    (hs : m.step W op = some m') : OnScreen W m' (d.step op) := by
  obtain ⟨op, rendered⟩ := op
  cases op with
  | addBar =>
    cases hs
    refine ⟨congrArg (· ++ [false]) h.bars, h.closed, h.screen, fun hopen => ?_⟩
    obtain ⟨hafter, hshown, hprinted⟩ := h.live hopen
    exact ⟨hafter, hshown.trans (startedBars_snoc d.bars).symm, hprinted⟩
  | start b =>
    simp only [MultiProgress.step, Option.ite_none_right_eq_some, Option.some.injEq] at hs
    obtain ⟨hb, rfl⟩ := hs
    exact h.start hb hfits
  | render force tooSoon =>
    cases hs
    exact h.render hfits
  | log message =>
    cases hs
    exact h.log hfits (hmessage message rfl)
  | close =>
    cases hs
    exact h.close hfits

theorem run {ops : List (MultiOp × (ℕ → Str))} (h : OnScreen W m d)
    (hfits : ∀ op ∈ ops, ∀ b, FitsRow W (op.2 b))
    (hmessages : ∀ op ∈ ops, ∀ message, op.1 = .log message → ∀ line ∈ message.splitOn '\n', FitsRow W line)
    (hrun : exec (MultiProgress.step W) m ops = some m') : OnScreen W m' (ops.foldl Display.step d) := by
  induction ops generalizing m d with
  | nil =>
    cases hrun
    exact h
  | cons op ops ih =>
    obtain ⟨m₁, hs, hrest⟩ := exec_cons.mp hrun
    have hstep := h.step (hfits op (List.mem_cons_self ..)) (hmessages op (List.mem_cons_self ..)) hs
    exact ih hstep (fun x hx => hfits x (List.mem_cons_of_mem _ hx))
      (fun x hx => hmessages x (List.mem_cons_of_mem _ hx)) hrest

end OnScreen

/-- The rows are on the screen and nothing else is, up to spaces, and the cursor is at the beginning of
the next row. -/
def Displays (t : Terminal) (rows : List Str) : Prop :=
  (∀ r k, t.cells r k = cellsOf rows r k) ∧ t.row = rows.length ∧ t.col = 0

/-- After every operation the screen holds the messages and the bars, each bar as it was last drawn. -/
theorem screen_holds (W : ℕ) {ops : List (MultiOp × (ℕ → Str))} (hfits : ∀ op ∈ ops, ∀ b, FitsRow W (op.2 b))
    (hmessages : ∀ op ∈ ops, ∀ message, op.1 = .log message → ∀ line ∈ message.splitOn '\n', FitsRow W line)
    {m : MultiProgress} (hrun : exec (MultiProgress.step W) {} ops = some m) :
    Displays m.screen (Display.of ops).rows := by
  have hstart : OnScreen W {} {} := ⟨rfl, rfl, holds_blank W, fun _ => ⟨rfl, rfl, rfl⟩⟩
  have h := hstart.run hfits hmessages hrun
  refine ⟨fun r k => ?_, h.screen.row, h.screen.col⟩
  rw [h.screen.cells, List.append_nil]
  rfl

/-- Two bars, the second of which starts after a message of two lines, and a message after `close`. -/
def twoBars : List (MultiOp × (ℕ → Str)) :=
  [(.addBar, fun _ => []), (.start 0, fun _ => ['a', '0']), (.log ['x', '\n', 'y'], fun _ => ['a', '1']),
    (.addBar, fun _ => []), (.start 1, fun b => if b = 0 then ['a', '2'] else ['b']),
    (.render false true, fun _ => ['c']), (.close, fun b => if b = 0 then ['a', '3'] else []),
    (.log ['z'], fun _ => ['c'])]

theorem screen_holds_two_bars : ∃ m : MultiProgress, exec (MultiProgress.step 3) {} twoBars = some m ∧
    Displays m.screen [['x'], ['y'], ['a', '3'], [], ['z']] := by
  have hplain : ∀ {line : Str}, line.all (fun c => !isControl c) = true → line.length ≤ 3 → FitsRow 3 line := by
    intro line hline hlen
    have hshows := shows_plain fun c hc => by simpa using List.all_eq_true.mp hline c hc
    exact ⟨⟨line, hshows⟩, by rw [visibleLen, hshows.strip_eq]; exact hlen⟩
  have hfits : ∀ op ∈ twoBars, ∀ b, FitsRow 3 (op.2 b) := by
    intro op hop b
    fin_cases hop <;> dsimp only <;> first | exact hplain rfl (by decide) | split <;> exact hplain rfl (by decide)
  have hmessages : ∀ op ∈ twoBars, ∀ message, op.1 = .log message → ∀ line ∈ message.splitOn '\n',
      FitsRow 3 line := by
    intro op hop message hlog line hline
    fin_cases hop <;> cases hlog <;> fin_cases hline <;> exact hplain rfl (by decide)
  obtain ⟨m, hrun⟩ : ∃ m, exec (MultiProgress.step 3) {} twoBars = some m := ⟨_, rfl⟩
  have hrows : (Display.of twoBars).rows = [['x'], ['y'], ['a', '3'], [], ['z']] := by decide
  exact ⟨m, hrun, hrows ▸ screen_holds 3 hfits hmessages hrun⟩

end Mrdl.Progress
