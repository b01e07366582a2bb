import Mathlib.Logic.Function.Basic
import Mrdl.Foundations.Ansi

/-! # A terminal

Rows without end, each `W` columns wide, and a cursor. A character written in the last column leaves the
cursor behind it, and only the next character goes to a new row. Of the escape sequences, cursor up is
carried out, colour codes and all others show nothing. What text does to a screen that holds given rows
is said row by row (`Holds`): a line replaces the row the cursor is in, and moves on to the next.
-/

namespace Mrdl.Ansi
set_option autoImplicit false

/-- The control characters. -/
def isControl (c : Char) : Bool := c.toNat < 32 || (127 ≤ c.toNat && c.toNat ≤ 159)

structure Terminal where
  cells : ℕ → ℕ → Char := fun _ _ => ' '
  row : ℕ := 0
  col : ℕ := 0
  held : List Char := []

namespace Terminal

/-- Put a character where the cursor is. -/
def print (W : ℕ) (t : Terminal) (c : Char) : Terminal :=
  let row := if t.col < W then t.row else t.row + 1
  let col := if t.col < W then t.col else 0
  { t with
    cells := fun r k => if r = row ∧ k = col then c else t.cells r k
    row := row
    col := col + 1 }

/-- The end of the control sequence `ESC [ params c`. -/
def control (t : Terminal) (params : List Char) (c : Char) : Terminal :=
  if c = 'A' then { t with row := t.row - max 1 (Nat.ofDigitChars 10 params 0) } else t

/-- The next character of the output. -/
def put (W : ℕ) (t : Terminal) (c : Char) : Terminal :=
  if c = esc then { t with held := [esc] }
  else match t.held with
    | [] =>
        if c = '\r' then { t with col := 0 }
        else if c = '\n' then { t with row := t.row + 1, col := 0 }
        else t.print W c
    | [_] => if c = '[' then { t with held := [esc, '['] } else { t with held := [] }
    | _ :: _ :: params =>
        if isParam c then { t with held := esc :: '[' :: (params ++ [c]) }
        else { t.control params c with held := [] }

def write (W : ℕ) (t : Terminal) (s : List Char) : Terminal := s.foldl (put W) t

variable {W : ℕ} {t : Terminal}

@[simp] theorem write_nil (W : ℕ) (t : Terminal) : t.write W [] = t := rfl

@[simp] theorem write_cons (W : ℕ) (t : Terminal) (c : Char) (s : List Char) :
    t.write W (c :: s) = (t.put W c).write W s := rfl

theorem write_append (W : ℕ) (t : Terminal) (a b : List Char) :
    t.write W (a ++ b) = (t.write W a).write W b := List.foldl_append

/-! ## Control sequences -/

theorem put_esc (W : ℕ) (t : Terminal) : t.put W esc = { t with held := [esc] } := if_pos rfl

theorem isParam_ne {c : Char} (hc : isParam c = true) : c ≠ esc := by
  rintro rfl
  exact absurd hc (by decide)

theorem write_params (W : ℕ) (t : Terminal) (before params : List Char) (hparams : ∀ c ∈ params, isParam c = true)
    (h : t.held = esc :: '[' :: before) :
    t.write W params = { t with held := esc :: '[' :: (before ++ params) } := by
  induction params generalizing t before with
  | nil =>
    rw [List.append_nil, ← h]
    rfl
  | cons c params ih =>
    have hc := hparams c (List.mem_cons_self ..)
    have hput : t.put W c = { t with held := esc :: '[' :: (before ++ [c]) } := by
      simp only [put, isParam_ne hc, if_false, h, hc, if_true]
    rw [write_cons, hput, ih _ (before ++ [c]) (fun d hd => hparams d (List.mem_cons_of_mem _ hd)) rfl,
      List.append_assoc]
    rfl

/-- A whole control sequence. -/
theorem write_control (W : ℕ) (params : List Char) (hparams : ∀ c ∈ params, isParam c = true) {c : Char}
    (hc : isParam c = false) (hesc : c ≠ esc) (h : t.held = []) :
    t.write W (esc :: '[' :: (params ++ [c])) = t.control params c := by
  have hbracket : ({ t with held := [esc] } : Terminal).put W '[' = { t with held := [esc, '['] } := rfl
  rw [write_cons, put_esc, write_cons, hbracket, write_append,
    write_params W _ [] params hparams rfl, List.nil_append, write_cons, write_nil]
  simp only [put, hesc, if_false, hc, Bool.false_eq_true]
  cases t
  cases h
  unfold control
  split <;> rfl

theorem write_colour (W : ℕ) (k : Colour) (h : t.held = []) : t.write W k.text = t := by
  have hm : ('m' : Char) ≠ 'A' := by decide
  rw [Colour.text, write_control W k.params (List.all_eq_true.mp k.valid) (by decide) (by decide) h, control,
    if_neg hm]

/-- `ESC [ n A`. -/
def up (n : ℕ) : List Char := esc :: '[' :: (Nat.toDigits 10 n ++ ['A'])

theorem write_up (W : ℕ) {n : ℕ} (hn : 0 < n) (h : t.held = []) :
    t.write W (up n) = { t with row := t.row - n } := by
  have hparams : ∀ c ∈ Nat.toDigits 10 n, isParam c = true := by
    intro c hc
    rw [isParam, Nat.isDigit_of_mem_toDigits (by decide) (by decide) hc, Bool.true_or]
  rw [up, write_control W _ hparams (by decide) (by decide) h, control, if_pos rfl,
    Nat.ofDigitChars_ten_toDigits, Nat.max_eq_right hn]

/-! ## Lines of text -/

end Terminal

/-- The text has no control characters but whole colour codes, and shows `v`. -/
inductive Shows : List Char → List Char → Prop
  | nil : Shows [] []
  | char {s v : List Char} (c : Char) (hc : isControl c = false) (h : Shows s v) : Shows (c :: s) (c :: v)
  | colour {s v : List Char} (k : Colour) (h : Shows s v) : Shows (k.text ++ s) v

theorem ne_esc_of_not_control {c : Char} (hc : isControl c = false) : c ≠ esc := by
  rintro rfl
  exact absurd hc (by decide)

/-- What a text shows is what is left when its colour codes are taken out. -/
theorem Shows.strip_eq {s v : List Char} (h : Shows s v) : strip [] s = v := by
  induction h with
  | nil => rfl
  | char c hc h ih =>
    rw [strip_cons, feed_nil (ne_esc_of_not_control hc), ih]
    rfl
  | colour k h ih =>
    rw [← List.nil_append (k.text ++ _), strip_colour, ih]
    rfl

theorem Shows.append {s s' v v' : List Char} (h : Shows s v) (h' : Shows s' v') :
    Shows (s ++ s') (v ++ v') := by
  induction h with
  | nil => exact h'
  | char c hc h ih => exact .char c hc ih
  | colour k h ih =>
    rw [List.append_assoc]
    exact .colour k ih

theorem shows_plain {s : List Char} (hs : ∀ c ∈ s, isControl c = false) : Shows s s := by
  induction s with
  | nil => exact .nil
  | cons c s ih =>
    exact .char c (hs c (List.mem_cons_self ..)) (ih fun d hd => hs d (List.mem_cons_of_mem _ hd))

theorem shows_spaces (n : ℕ) : Shows (List.replicate n ' ') (List.replicate n ' ') :=
  shows_plain fun c hc => by
    rw [List.eq_of_mem_replicate hc]
    rfl

namespace Terminal

variable {W : ℕ} {t : Terminal}

/-- The cells after `v` is written from the given place on. -/
def overlay (cells : ℕ → ℕ → Char) (row col : ℕ) (v : List Char) : ℕ → ℕ → Char := fun r k =>
  if r = row ∧ col ≤ k ∧ k < col + v.length then v.getD (k - col) ' ' else cells r k

theorem overlay_cons (cells : ℕ → ℕ → Char) (row col : ℕ) (c : Char) (v : List Char) :
    overlay (fun r k => if r = row ∧ k = col then c else cells r k) row (col + 1) v =
      overlay cells row col (c :: v) := by
  funext r k
  simp only [overlay, List.length_cons]
  by_cases hr : r = row
  · rcases Nat.lt_trichotomy k col with hk | hk | hk
    · rw [if_neg (by omega), if_neg (by omega), if_neg (by omega)]
    · rw [if_neg (by omega), if_pos ⟨hr, hk⟩, if_pos (by omega), hk, Nat.sub_self, List.getD_cons_zero]
    · obtain ⟨d, rfl⟩ : ∃ d, k = col + 1 + d := ⟨k - (col + 1), by omega⟩
      have hd : col + 1 + d - col = d + 1 := by omega
      have hd' : col + 1 + d - (col + 1) = d := by omega
      rw [hd, hd', List.getD_cons_succ]
      by_cases hin : d < v.length
      · rw [if_pos (by omega), if_pos (by omega)]
      · rw [if_neg (by omega), if_neg (by omega), if_neg (by omega)]
  · rw [if_neg (by simp [hr]), if_neg (by simp [hr]), if_neg (by simp [hr])]

/-- A text that fits in the row is written there. -/
theorem write_shows {s v : List Char} (hs : Shows s v) (ht : t.held = []) (hfit : t.col + v.length ≤ W) :
    t.write W s = { t with cells := overlay t.cells t.row t.col v, col := t.col + v.length } := by
  induction hs generalizing t with
  | nil =>
    have hsame : overlay t.cells t.row t.col [] = t.cells := by
      funext r k
      exact if_neg (by simp only [List.length_nil]; omega)
    rw [hsame]
    rfl
  | char c hc h ih =>
    rename_i s v
    rw [List.length_cons] at hfit ⊢
    have hr : c ≠ '\r' := by
      rintro rfl
      exact absurd hc (by decide)
    have hn : c ≠ '\n' := by
      rintro rfl
      exact absurd hc (by decide)
    have hput : t.put W c = t.print W c := by
      simp only [put, ne_esc_of_not_control hc, hr, hn, ht, if_false]
    have hcol : t.col < W := by omega
    have hprint : t.print W c = { t with
        cells := fun r k => if r = t.row ∧ k = t.col then c else t.cells r k
        col := t.col + 1 } := by
      simp only [print, hcol, if_true]
    rw [write_cons, hput, hprint, ih (by exact ht) (by dsimp only; omega)]
    dsimp only
    rw [overlay_cons, Nat.add_right_comm, Nat.add_assoc]
  | colour k h ih => rw [write_append, write_colour W k ht, ih ht hfit]

/-! ## Screens that hold rows of text -/

/-- The cells of a screen with these rows on it. -/
def cellsOf (rows : List (List Char)) (r k : ℕ) : Char := (rows.getD r []).getD k ' '

/-- The screen holds `above` and then `below`, and the cursor is at the beginning of the first row
`below`. -/
structure Holds (W : ℕ) (t : Terminal) (above below : List (List Char)) : Prop where
  cells : ∀ r k, t.cells r k = cellsOf (above ++ below) r k
  row : t.row = above.length
  col : t.col = 0
  held : t.held = []
  fits : ∀ x ∈ above ++ below, x.length ≤ W

variable {above below rest : List (List Char)}

theorem holds_blank (W : ℕ) : Holds W {} [] [] :=
  ⟨fun r k => by simp [cellsOf], rfl, rfl, rfl, by simp⟩

theorem getD_spaces (v : List Char) (n k : ℕ) : (v ++ List.replicate n ' ').getD k ' ' = v.getD k ' ' := by
  simp only [List.getD_eq_getElem?_getD, List.getElem?_append]
  split
  · rfl
  · rename_i hk
    rw [List.getElem?_eq_none (by omega : v.length ≤ k), List.getElem?_replicate]
    split <;> rfl

/-- A text written over a whole row takes its place among the rows. -/
theorem overlay_cellsOf {v : List Char} {n : ℕ} (hcover : (below.getD 0 []).length ≤ v.length + n) (r k : ℕ) :
    overlay (cellsOf (above ++ below)) above.length 0 (v ++ List.replicate n ' ') r k =
      cellsOf (above ++ [v] ++ below.tail) r k := by
  rw [overlay, List.length_append, List.length_replicate, Nat.sub_zero, getD_spaces, Nat.zero_add]
  unfold cellsOf
  rcases Nat.lt_trichotomy r above.length with hr | hr | hr
  · rw [if_neg (by omega)]
    simp only [List.getD_eq_getElem?_getD]
    rw [List.append_assoc, List.getElem?_append_left hr, List.getElem?_append_left hr]
  · have hnew : (above ++ [v] ++ below.tail).getD r [] = v := by
      simp [List.getD_eq_getElem?_getD, hr]
    have hold : (above ++ below).getD r [] = below.getD 0 [] := by
      simp only [List.getD_eq_getElem?_getD]
      rw [List.getElem?_append_right (Nat.le_of_eq hr.symm), hr, Nat.sub_self]
    rw [hnew]
    split
    · rfl
    · rename_i hk
      rw [hold]
      simp only [List.getD_eq_getElem?_getD]
      rw [List.getElem?_eq_none (by rw [← List.getD_eq_getElem?_getD]; omega), List.getElem?_eq_none (by omega)]
  · rw [if_neg (by omega)]
    obtain ⟨d, rfl⟩ : ∃ d, r = above.length + (d + 1) := ⟨r - above.length - 1, by omega⟩
    have hlast : (above ++ [v]).length = above.length + 1 := List.length_append
    have hd : above.length + (d + 1) - above.length = d + 1 := by omega
    have hd' : above.length + (d + 1) - (above.length + 1) = d := by omega
    simp only [List.getD_eq_getElem?_getD]
    rw [List.getElem?_append_right (by omega), List.getElem?_append_right (by omega), hlast, hd, hd',
      List.getElem?_tail]

theorem put_newline (W : ℕ) (h : t.held = []) : t.put W '\n' = { t with row := t.row + 1, col := 0 } := by
  have hesc : ('\n' : Char) ≠ esc := by decide
  have hreturn : ('\n' : Char) ≠ '\r' := by decide
  simp only [put, hesc, hreturn, h, if_true, if_false]

/-- Writing a line over the row the cursor is in, as far as that row goes. -/
theorem Holds.writeLine (h : Holds W t above below) {s v : List Char} {n : ℕ}
    (hs : Shows s (v ++ List.replicate n ' ')) (hfit : v.length + n ≤ W)
    (hcover : (below.getD 0 []).length ≤ v.length + n) :
    Holds W (t.write W (s ++ ['\n'])) (above ++ [v]) below.tail := by
  have hroom : t.col + (v ++ List.replicate n ' ').length ≤ W := by
    rw [List.length_append, List.length_replicate, h.col]
    omega
  rw [write_append, write_shows hs h.held hroom, write_cons, write_nil, put_newline W (by exact h.held)]
  have hcells : t.cells = cellsOf (above ++ below) := funext fun r => funext (h.cells r)
  refine ⟨fun r k => ?_, ?_, rfl, h.held, fun x hx => ?_⟩
  · dsimp only
    rw [hcells, h.row, h.col, overlay_cellsOf hcover]
  · dsimp only
    rw [h.row, List.length_append, List.length_singleton]
  · rw [List.append_assoc, List.mem_append, List.mem_append, List.mem_singleton] at hx
    rcases hx with hx | rfl | hx
    · exact h.fits x (List.mem_append_left _ hx)
    · omega
    · exact h.fits x (List.mem_append_right _ (List.mem_of_mem_tail hx))

/-- Going back over rows that were written. -/
theorem Holds.writeUp (h : Holds W t (above ++ rest) below) (hrest : rest ≠ []) :
    Holds W (t.write W (up rest.length)) above (rest ++ below) := by
  rw [write_up W (List.length_pos_iff.mpr hrest) h.held]
  refine ⟨fun r k => ?_, ?_, h.col, h.held, ?_⟩
  · rw [← List.append_assoc]
    exact h.cells r k
  · dsimp only
    rw [h.row, List.length_append, Nat.add_sub_cancel]
  · rw [← List.append_assoc]
    exact h.fits

theorem Holds.writeReturn (h : Holds W t above below) : Holds W (t.write W ['\r']) above below := by
  have hreturn : t.put W '\r' = { t with col := 0 } := by
    have hesc : ('\r' : Char) ≠ esc := by decide
    simp only [put, hesc, h.held, if_true, if_false]
  rw [write_cons, write_nil, hreturn]
  exact ⟨h.cells, h.row, rfl, h.held, h.fits⟩

/-- Blank rows below the cursor are not to be told from none. -/
theorem Holds.blanks {n : ℕ} (h : Holds W t above (List.replicate n [])) : Holds W t above [] := by
  refine ⟨fun r k => ?_, h.row, h.col, h.held, fun x hx => ?_⟩
  · rw [h.cells, List.append_nil]
    unfold cellsOf
    by_cases hr : r < above.length
    · simp only [List.getD_eq_getElem?_getD]
      rw [List.getElem?_append_left hr]
    · have hold : above.getD r [] = [] := by
        rw [List.getD_eq_getElem?_getD, List.getElem?_eq_none (by omega), Option.getD_none]
      rw [hold, List.getD_eq_getElem?_getD (l := above ++ _), List.getElem?_append_right (by omega),
        List.getElem?_replicate]
      split <;> rfl
  · rw [List.append_nil] at hx
    exact h.fits x (List.mem_append_left _ hx)

end Terminal
end Mrdl.Ansi
