import Mrdl.Progress.Formatter

/-! # How wide a rendered line is

The layouts subtract the lengths of uncoloured texts from the width of the terminal and print coloured
ones. What is printed is never wider, with one exception: a line of unknown size with an overlay too
wide for the terminal is not cut (`render_fits_iff`). A line with a bar has exactly the width of the
terminal, unless its speed is coloured, which takes away the spaces in front of a short number
(`bar_lines_fill_iff`).
-/

namespace Mrdl.Progress
open Ansi
set_option autoImplicit false

/-! ## Lengths of the parts -/

theorem truncateFilename_length (filename : Str) (maxLen : ℕ) :
    (truncateFilename filename maxLen).length = min filename.length maxLen := by
  unfold truncateFilename
  split
  · omega
  · split
    · rw [List.length_take]
      omega
    · have hdots : "...".toList.length = 3 := rfl
      simp only [List.length_append, List.length_take, List.length_drop, hdots]
      omega

theorem ljust_length (width : ℕ) (s : Str) : (ljust width s).length = max width s.length := by
  simp only [ljust, List.length_append, List.length_replicate]
  omega

theorem visibleLen_coloured (k : Colour) (a s b : Str) :
    visibleLen (a ++ (coloured k s ++ b)) = visibleLen a + visibleLen s + visibleLen b := by
  rw [coloured, List.append_assoc, List.append_assoc, visibleLen_colour, visibleLen_colour, Nat.add_assoc]

theorem visibleLen_coloured_last (k : Colour) (a s : Str) :
    visibleLen (a ++ coloured k s) = visibleLen a + visibleLen s := by
  have h := visibleLen_coloured k a s []
  rw [List.append_nil] at h
  exact h

/-! ## Texts without an escape character -/

theorem isDigit_seen {c : Char} (h : c.isDigit = true) : c ≠ esc ∧ c.isWhitespace = false := by
  constructor
  · rintro rfl
    exact absurd h (by decide)
  · by_contra hspace
    simp only [Char.isWhitespace, Bool.not_eq_false, Bool.or_eq_true, decide_eq_true_eq] at hspace
    rcases hspace with ((rfl | rfl) | rfl) | rfl <;> exact absurd h (by decide)

theorem seen_of_all {s : Str} (h : (s.all fun c => c != esc && !c.isWhitespace) = true) :
    ∀ c ∈ s, c ≠ esc ∧ c.isWhitespace = false := by
  intro c hc
  simpa using List.all_eq_true.mp h c hc

theorem toDigits_seen {n : ℕ} {c : Char} (h : c ∈ Nat.toDigits 10 n) : c ≠ esc ∧ c.isWhitespace = false :=
  isDigit_seen (Nat.isDigit_of_mem_toDigits (by decide) (by decide) h)

theorem zeroFill_seen {width : ℕ} {s : Str} (h : ∀ c ∈ s, c ≠ esc ∧ c.isWhitespace = false) :
    ∀ c ∈ Number.zeroFill width s, c ≠ esc ∧ c.isWhitespace = false := by
  intro c hc
  rcases List.mem_append.mp hc with hzero | hc
  · rw [(List.mem_replicate.mp hzero).2]
    decide
  · exact h c hc

theorem decimals_seen (p m : ℕ) : ∀ c ∈ Number.decimals p m, c ≠ esc ∧ c.isWhitespace = false := by
  intro c hc
  rcases List.mem_append.mp hc with hc | hc
  · exact toDigits_seen hc
  · rcases List.mem_cons.mp hc with rfl | hc
    · decide
    · exact zeroFill_seen (fun _ => toDigits_seen) c hc

/-- A formatted number has no spaces and no escape character. -/
theorem fixed_seen (p : ℕ) (x : Number) : ∀ c ∈ x.fixed p, c ≠ esc ∧ c.isWhitespace = false := by
  intro c hc
  cases x with
  | finite q =>
    rcases List.mem_append.mp hc with hc | hc
    · split at hc
      · rw [List.mem_singleton.mp hc]
        decide
      · cases hc
    · exact decimals_seen p _ c hc
  | negativeZero =>
    rcases List.mem_cons.mp hc with rfl | hc
    · decide
    · exact decimals_seen p 0 c hc
  | infinite negative =>
    cases negative with
    | true => exact seen_of_all (s := "-inf".toList) (by decide) c hc
    | false => exact seen_of_all (s := "inf".toList) (by decide) c hc
  | nan => exact seen_of_all (s := "nan".toList) (by decide) c hc

theorem fixed_ne_nil (p : ℕ) (x : Number) : x.fixed p ≠ [] := by
  cases x with
  | finite q => simp [Number.fixed, Number.decimals]
  | negativeZero => simp [Number.fixed]
  | infinite negative => cases negative <;> exact List.cons_ne_nil _ _
  | nan => exact List.cons_ne_nil _ _

theorem esc_notMem_fixed (p : ℕ) (x : Number) : esc ∉ x.fixed p := fun h => (fixed_seen p x esc h).1 rfl

theorem esc_notMem_rjust {width : ℕ} {s : Str} (h : esc ∉ s) : esc ∉ rjust width s := by
  rw [rjust, List.mem_append, not_or]
  refine ⟨fun hspace => ?_, h⟩
  exact absurd (List.mem_replicate.mp hspace).2 (by decide)

theorem esc_notMem_ljust {width : ℕ} {s : Str} (h : esc ∉ s) : esc ∉ ljust width s := by
  rw [ljust, List.mem_append, not_or]
  refine ⟨h, fun hspace => ?_⟩
  exact absurd (List.mem_replicate.mp hspace).2 (by decide)

theorem esc_notMem_truncateFilename {filename : Str} {maxLen : ℕ} (h : esc ∉ filename) :
    esc ∉ truncateFilename filename maxLen := by
  unfold truncateFilename
  split
  · exact h
  · split
    · exact fun hmem => h (List.mem_of_mem_take hmem)
    · simp only [List.mem_append, not_or]
      exact ⟨⟨fun hmem => h (List.mem_of_mem_take hmem), by decide⟩, fun hmem => h (List.mem_of_mem_drop hmem)⟩

theorem esc_notMem_formatTime (x : Number) : esc ∉ formatTime x := by
  have hclock : ∀ num den, esc ∉ formatTime.clock num den := by
    intro num den
    have hdigits : ∀ n, esc ∉ Nat.toDigits 10 n := fun n h => (toDigits_seen h).1 rfl
    have htwo : ∀ n, esc ∉ Number.zeroFill 2 (Nat.toDigits 10 n) := fun n h =>
      (zeroFill_seen (fun _ => toDigits_seen) esc h).1 rfl
    have hcolon : esc ≠ ':' := by decide
    unfold formatTime.clock
    dsimp only
    split <;> simp only [List.mem_append, List.mem_cons, not_or] <;>
      simp only [hdigits, htwo, hcolon, not_false_eq_true, and_self]
  cases x with
  | finite q =>
    show esc ∉ if q < 0 then "--:--".toList else formatTime.clock q.num.toNat q.den
    split
    · decide
    · exact hclock _ _
  | negativeZero => exact hclock 0 1
  | infinite | nan =>
    show esc ∉ "--:--".toList
    decide

namespace Formatter

section
variable (fl : ℚ → Number) (s : ProgressState)

theorem esc_notMem_unit (n : Number) : esc ∉ (getUnitAndValue fl n).2 := by
  have hscale : ∀ units : List Str, (∀ u ∈ units, esc ∉ u) → ∀ n, esc ∉ (getUnitAndValue.scale fl units n).2 := by
    intro units hunits
    induction units with
    | nil =>
      have hlast : esc ∉ "PiB".toList := by decide
      exact fun _ => hlast
    | cons unit units ih =>
      intro n
      rw [getUnitAndValue.scale]
      split
      · exact hunits unit (List.mem_cons_self ..)
      · exact ih (fun u hu => hunits u (List.mem_cons_of_mem _ hu)) _
  exact hscale _ (by decide) n

theorem esc_notMem_formatSize (padded : Bool) : esc ∉ formatSize fl s padded := by
  have hspace : esc ≠ ' ' := by decide
  have hslash : esc ≠ '/' := by decide
  unfold formatSize
  split
  · simp only [List.mem_append, List.mem_cons, not_or]
    exact ⟨⟨esc_notMem_rjust (esc_notMem_fixed _ _), hslash, esc_notMem_rjust (esc_notMem_fixed _ _)⟩, hspace,
      esc_notMem_rjust (esc_notMem_unit fl _)⟩
  · dsimp only
    split
    · simp only [List.mem_append, List.mem_cons, not_or]
      exact ⟨esc_notMem_rjust (esc_notMem_fixed _ _), hspace, esc_notMem_rjust (esc_notMem_unit fl _)⟩
    · simp only [List.mem_append, List.mem_cons, not_or]
      exact ⟨esc_notMem_fixed _ _, hspace, esc_notMem_unit fl _⟩

end


section
variable (fl : ℚ → Number) (s : ProgressState)

theorem formatSpeed_padded (s : ProgressState) : ∃ v, (formatSpeed fl s true).1 = ' ' :: v ∧
    (formatSpeed fl s true).2 = if s.isThrottled then ' ' :: coloured red (stripSpace (' ' :: v)) else ' ' :: v :=
  ⟨_, rfl, rfl⟩

theorem stripSpace_length_le (s : Str) : (stripSpace s).length ≤ s.length := by
  rw [stripSpace, List.length_reverse]
  have h1 := (List.dropWhile_sublist (l := (s.dropWhile Char.isWhitespace).reverse) Char.isWhitespace).length_le
  have h2 := (List.dropWhile_sublist (l := s) Char.isWhitespace).length_le
  rw [List.length_reverse] at h1
  omega

/-- The coloured speed takes no more room than the uncoloured one. -/
theorem speed_fits (padded : Bool) (a b : Str) :
    visibleLen (a ++ ((formatSpeed fl s padded).2 ++ b)) ≤
      a.length + (formatSpeed fl s padded).1.length + b.length := by
  have ha := visibleLen_le a
  have hb := visibleLen_le b
  by_cases hthrottled : s.isThrottled = true
  · cases padded with
    | false =>
      have hv := visibleLen_le (formatSpeed fl s false).1
      have hspeed : (formatSpeed fl s false).2 = coloured red (formatSpeed fl s false).1 := if_pos hthrottled
      rw [hspeed, visibleLen_coloured]
      omega
    | true =>
      obtain ⟨v, hseen, hspeed⟩ := formatSpeed_padded fl s
      have hstrip : (stripSpace (' ' :: v)).length ≤ v.length := stripSpace_length_le v
      have hv := visibleLen_le (stripSpace (' ' :: v))
      have hspace := visibleLen_le (a ++ [' '])
      rw [hspeed, if_pos hthrottled, hseen, List.cons_append, ← List.singleton_append, ← List.append_assoc,
        visibleLen_coloured]
      simp only [List.length_append, List.length_cons, List.length_nil] at hspace ⊢
      omega
  · have hspeed : (formatSpeed fl s padded).2 = (formatSpeed fl s padded).1 := by
      cases padded <;> exact if_neg hthrottled
    rw [hspeed]
    refine (visibleLen_le _).trans ?_
    simp only [List.length_append]
    omega

theorem sizeAndSpeed_fits (a : Str) :
    visibleLen (a ++ (sizeAndSpeed fl s).2) ≤ a.length + (sizeAndSpeed fl s).1.length := by
  have h := speed_fits fl s false (a ++ (" | ".toList ++ formatSize fl s false ++ " @ ".toList)) []
  simp only [sizeAndSpeed, List.append_nil, List.append_assoc, List.length_append, List.length_nil] at h ⊢
  omega

theorem standardStats_verify (hmode : s.mode = .verify) :
    ∃ text, standardStats fl s = (text, text.length) ∧ esc ∉ text := by
  refine ⟨_, by rw [standardStats, hmode], ?_⟩
  have hpercent : esc ∉ rjust 5 ((percent fl s).fixed 1) := esc_notMem_rjust (esc_notMem_fixed _ _)
  have htime := esc_notMem_formatTime s.eta
  simp only [List.mem_append, List.mem_cons, not_or]
  exact ⟨⟨by decide, hpercent, by decide⟩, by decide, htime⟩

theorem standardStats_download (hmode : s.mode = .download) :
    ∃ a b, standardStats fl s = (a ++ ((formatSpeed fl s true).2 ++ b),
      a.length + (formatSpeed fl s true).1.length + b.length) ∧ esc ∉ a ∧ esc ∉ b := by
  have hpercent : esc ∉ rjust 5 ((percent fl s).fixed 1) := esc_notMem_rjust (esc_notMem_fixed _ _)
  have htime := esc_notMem_formatTime s.eta
  have hsize := esc_notMem_formatSize fl s true
  have hspace : esc ≠ ' ' := by decide
  by_cases htotal : 0 < s.totalBytes
  · refine ⟨rjust 5 ((percent fl s).fixed 1) ++ ['%'] ++ ' ' :: formatSize fl s true,
      " ETA ".toList ++ formatTime s.eta, ?_, ?_, ?_⟩
    · rw [standardStats, hmode]
      simp only [if_pos htotal, List.append_assoc, List.length_append, Nat.add_assoc]
    · simp only [List.mem_append, List.mem_cons, not_or]
      exact ⟨⟨hpercent, by decide⟩, hspace, hsize⟩
    · rw [List.mem_append, not_or]
      exact ⟨by decide, htime⟩
  · refine ⟨' ' :: formatSize fl s true, [], ?_, ?_, by simp⟩
    · rw [standardStats, hmode]
      simp only [if_neg htotal, List.append_nil, List.length_append, List.length_nil, Nat.add_zero]
    · rw [List.mem_cons, not_or]
      exact ⟨hspace, hsize⟩

/-- The statistics take no more room than their `stats_len`. -/
theorem standardStats_fits (a : Str) :
    visibleLen (a ++ (standardStats fl s).1) ≤ a.length + (standardStats fl s).2 := by
  cases hmode : s.mode with
  | verify =>
    obtain ⟨text, htext, -⟩ := standardStats_verify fl s hmode
    rw [htext]
    exact (visibleLen_le _).trans (List.length_append).le
  | download =>
    obtain ⟨before, after, htext, -, -⟩ := standardStats_download fl s hmode
    have h := speed_fits fl s true (a ++ before) after
    rw [htext, ← List.append_assoc]
    simp only [List.length_append] at h ⊢
    omega

/-! ## The bar -/

/-- A cell shows one character: a block, or a character of the overlay between its colours. -/
def IsCell (cell : Str) : Prop := ∃ k c, cell = Colour.text k ++ [c] ∨ cell = coloured k [c]

theorem cells_visible {cells : List Str} (hcells : ∀ cell ∈ cells, IsCell cell) (a b : Str) :
    visibleLen (a ++ (cells.flatten ++ (reset.text ++ b))) = visibleLen a + cells.length + visibleLen b := by
  induction cells generalizing a with
  | nil => simp only [List.flatten_nil, List.nil_append, visibleLen_colour, List.length_nil, Nat.add_zero]
  | cons cell cells ih =>
    have hrest := ih fun c hc => hcells c (List.mem_cons_of_mem _ hc)
    obtain ⟨k, c, rfl | rfl⟩ := hcells cell (List.mem_cons_self ..)
    · have hone := hrest [c]
      rw [visibleLen_singleton] at hone
      rw [List.flatten_cons, List.append_assoc, List.append_assoc, visibleLen_colour, hone, List.length_cons]
      omega
    · have hnone := hrest []
      have hempty : visibleLen [] = 0 := rfl
      rw [List.nil_append, hempty] at hnone
      rw [List.flatten_cons, List.append_assoc, visibleLen_coloured, visibleLen_singleton, hnone,
        List.length_cons]
      omega

theorem isCell_of_mem {width : ℕ} : ∀ cell ∈ barCells s width, IsCell cell := by
  have hcolumn : ∀ cell ∈ (List.range width).map (fun col =>
      (column s width col).1.text ++ [(column s width col).2]), IsCell cell := by
    intro cell hcell
    obtain ⟨col, -, rfl⟩ := List.mem_map.mp hcell
    exact ⟨_, _, .inl rfl⟩
  intro cell hcell
  unfold barCells at hcell
  dsimp only at hcell
  split at hcell
  · rw [List.mem_append, List.mem_append] at hcell
    obtain (hcell | hcell) | hcell := hcell
    · exact hcolumn cell (List.mem_of_mem_take hcell)
    · obtain ⟨c, -, rfl⟩ := List.mem_map.mp hcell
      exact ⟨_, c, .inr rfl⟩
    · exact hcolumn cell (List.mem_of_mem_drop hcell)
  · exact hcolumn cell hcell

theorem barCells_length (width : ℕ) : (barCells s width).length = width := by
  unfold barCells
  dsimp only
  split
  · rename_i hoverlay
    simp only [List.length_append, List.length_take, List.length_drop, List.length_map, List.length_range]
    omega
  · rw [List.length_map, List.length_range]

theorem buildBar_visible {width : ℕ} (hchunks : s.totalChunks ≠ 0) (hwidth : width ≠ 0) (a b : Str) :
    visibleLen (a ++ (buildBar s width ++ (reset.text ++ b))) = visibleLen a + width + visibleLen b := by
  rw [buildBar, if_neg (by simp [hchunks, hwidth]), cells_visible (isCell_of_mem s), barCells_length]

/-! ## Lines that fit -/

variable (offset : ℕ) (termWidth : ℕ) (filenameWidth : Option ℕ)

theorem take_fits (line : Str) : visibleLen (line.take termWidth) ≤ termWidth :=
  (visibleLen_le _).trans (List.length_take_le _ _)

theorem compactPrefix_visible (b : Str) :
    visibleLen (compactPrefix fl offset s ++ b) ≤ 2 + visibleLen b := by
  have hcoloured : ∀ k c, visibleLen (coloured k [c] ++ ([' '] ++ b)) ≤ 2 + visibleLen b := by
    intro k c
    have h := visibleLen_coloured k [] [c] ([' '] ++ b)
    have hb := visibleLen_append_le [' '] b
    have hempty : visibleLen [] = 0 := rfl
    rw [List.nil_append, visibleLen_singleton, hempty] at h
    rw [List.length_singleton] at hb
    omega
  unfold compactPrefix
  dsimp only
  rw [List.append_assoc]
  split
  · exact hcoloured _ _
  · split
    · exact hcoloured _ _
    · split
      · exact hcoloured _ _
      · exact visibleLen_append_le [_, ' '] b

theorem compactRight_visible (a : Str) :
    visibleLen (a ++ (compactRight fl s).1) ≤ a.length + (compactRight fl s).2 := by
  unfold compactRight
  split
  · have ha := visibleLen_le (a ++ " | ".toList)
    have hoverlay := visibleLen_le s.overlayText
    have hbar : " | ".toList.length = 3 := rfl
    rw [← List.append_assoc, visibleLen_coloured_last]
    rw [List.length_append, hbar] at ha
    dsimp only
    omega
  · exact sizeAndSpeed_fits fl s a

theorem renderCompact_fits :
    visibleLen (renderCompact fl offset s termWidth filenameWidth) ≤ termWidth := by
  unfold renderCompact
  dsimp only
  split
  · have hname := ljust_length (min (filenameWidth.getD s.filename.length) (termWidth - (2 + (compactRight fl s).2)))
      (truncateFilename s.filename
        (min (filenameWidth.getD s.filename.length) (termWidth - (2 + (compactRight fl s).2))))
    rw [truncateFilename_length] at hname
    have hright := compactRight_visible fl s (ljust (min (filenameWidth.getD s.filename.length)
      (termWidth - (2 + (compactRight fl s).2))) (truncateFilename s.filename
        (min (filenameWidth.getD s.filename.length) (termWidth - (2 + (compactRight fl s).2)))))
    rw [List.append_assoc]
    refine (compactPrefix_visible fl s offset _).trans ?_
    omega
  · exact take_fits termWidth _

/-- A line with a bar: the name, cut or filled up to a length, and a bar of the width that is left. -/
theorem renderStandard_bar (hbar : drawsBar fl s termWidth = true) : ∃ cut width,
    cut + 2 + width + 2 + (standardStats fl s).2 = termWidth ∧ width ≠ 0 ∧
      (ljust cut (truncateFilename s.filename cut)).length = cut ∧
      renderStandard fl s termWidth filenameWidth =
        (ljust cut (truncateFilename s.filename cut) ++ " |".toList) ++
          (buildBar s width ++ (reset.text ++ ("| ".toList ++ (standardStats fl s).1))) := by
  have hspace := hbar
  simp only [drawsBar, decide_eq_true_eq] at hspace
  obtain ⟨hspace, -, -⟩ := hspace
  unfold renderStandard
  dsimp only
  rw [if_neg (by omega), if_pos hbar]
  generalize hcut : min (filenameWidth.getD s.filename.length) (termWidth - (standardStats fl s).2 - 4 - 10) =
    cut
  have hlen : (if cut < s.filename.length then (truncateFilename s.filename cut).length else cut) = cut := by
    rw [truncateFilename_length]
    split <;> omega
  rw [hlen]
  refine ⟨cut, termWidth - (standardStats fl s).2 - cut - 4, by omega, by omega, ?_, ?_⟩
  · rw [ljust_length, truncateFilename_length]
    omega
  · simp only [List.append_assoc]

theorem renderStandard_fits : visibleLen (renderStandard fl s termWidth filenameWidth) ≤ termWidth := by
  by_cases hbar : drawsBar fl s termWidth = true
  · obtain ⟨cut, width, htotal, hwidth, hname, hline⟩ := renderStandard_bar fl s termWidth filenameWidth hbar
    have hstats := standardStats_fits fl s "| ".toList
    have hbars : " |".toList.length = 2 ∧ "| ".toList.length = 2 := ⟨rfl, rfl⟩
    have hlabel := visibleLen_le (ljust cut (truncateFilename s.filename cut) ++ " |".toList)
    rw [List.length_append, hname] at hlabel
    simp only [drawsBar, decide_eq_true_eq] at hbar
    rw [hline, buildBar_visible s (by omega) hwidth]
    omega
  · unfold renderStandard
    dsimp only
    split
    · exact take_fits termWidth _
    · have hname := truncateFilename_length s.filename (termWidth - (standardStats fl s).2)
      refine (standardStats_fits fl s _).trans ?_
      omega

theorem statusLine_fits (name : Str) :
    visibleLen (name ++ (unknownStatus fl offset s).1 ++ (sizeAndSpeed fl s).2) ≤
      name.length + (unknownStatus fl offset s).2 + (sizeAndSpeed fl s).1.length := by
  unfold unknownStatus
  split
  · have hname := visibleLen_le (name ++ [' '])
    have hoverlay := visibleLen_le s.overlayText
    have hstats := sizeAndSpeed_fits fl s []
    rw [List.nil_append, List.length_nil] at hstats
    rw [List.append_cons, List.append_assoc, visibleLen_coloured]
    rw [List.length_append, List.length_singleton] at hname
    dsimp only
    omega
  · refine (sizeAndSpeed_fits fl s _).trans ?_
    rw [List.length_append]

theorem overlayLine_visible (hoverlay : s.overlayText ≠ []) (name : Str) :
    visibleLen (name ++ (unknownStatus fl offset s).1) = visibleLen (name ++ [' ']) + visibleLen s.overlayText := by
  rw [unknownStatus, if_pos hoverlay]
  dsimp only
  rw [List.append_cons, visibleLen_coloured_last]

/-- The overlay is wider than the terminal, and the terminal wider than the numbers. -/
def Overflows : Prop :=
  s.overlayText ≠ [] ∧ (sizeAndSpeed fl s).1.length < termWidth ∧ termWidth < 1 + visibleLen s.overlayText

theorem overlayLine_fits_iff (hoverlay : s.overlayText ≠ []) (hwide : (sizeAndSpeed fl s).1.length < termWidth) :
    visibleLen (truncateFilename s.filename (termWidth - (unknownStatus fl offset s).2) ++
      (unknownStatus fl offset s).1) ≤ termWidth ↔ ¬ Overflows fl s termWidth := by
  have hstatus : (unknownStatus fl offset s).2 = s.overlayText.length + 1 := by
    rw [unknownStatus, if_pos hoverlay]
  have hseen := visibleLen_le s.overlayText
  rw [overlayLine_visible fl s offset hoverlay, hstatus, Overflows]
  by_cases hfits : s.overlayText.length + 1 ≤ termWidth
  · have hname := visibleLen_le
      (truncateFilename s.filename (termWidth - (s.overlayText.length + 1)) ++ [' '])
    have hlen := truncateFilename_length s.filename (termWidth - (s.overlayText.length + 1))
    rw [List.length_append, List.length_singleton] at hname
    constructor
    · rintro - ⟨-, -, hover⟩
      omega
    · intro _
      omega
  · -- nothing is left of the name
    have hnone : truncateFilename s.filename (termWidth - (s.overlayText.length + 1)) = [] := by
      apply List.eq_nil_of_length_eq_zero
      rw [truncateFilename_length]
      omega
    rw [hnone, List.nil_append, visibleLen_singleton]
    simp only [hoverlay, hwide, ne_eq, not_false_eq_true, true_and, not_lt]

theorem renderUnknownSize_fits_iff :
    visibleLen (renderUnknownSize fl offset s termWidth) ≤ termWidth ↔ ¬ Overflows fl s termWidth := by
  have hname := truncateFilename_length s.filename
  have hseen := visibleLen_le s.overlayText
  unfold renderUnknownSize
  dsimp only
  split
  · rename_i hnarrow
    refine iff_of_true (take_fits termWidth _) fun h => ?_
    exact Nat.not_lt_of_le hnarrow h.2.1
  rename_i hwide
  have hwide : (sizeAndSpeed fl s).1.length < termWidth := Nat.lt_of_not_le hwide
  have hover : Overflows fl s termWidth → termWidth < (unknownStatus fl offset s).2 := by
    rintro ⟨hoverlay, -, hover⟩
    rw [unknownStatus, if_pos hoverlay]
    dsimp only
    omega
  have hstatus : (unknownStatus fl offset s).2 + (sizeAndSpeed fl s).1.length ≤ termWidth →
      (visibleLen (truncateFilename s.filename (termWidth - ((unknownStatus fl offset s).2 +
        (sizeAndSpeed fl s).1.length)) ++ (unknownStatus fl offset s).1 ++ (sizeAndSpeed fl s).2) ≤ termWidth ↔
          ¬ Overflows fl s termWidth) := by
    intro hroom
    refine iff_of_true ((statusLine_fits fl s offset _).trans ?_) fun h => ?_
    · rw [hname]
      omega
    · have := hover h
      omega
  split
  · exact hstatus (by omega)
  split
  · exact hstatus (by omega)
  split
  · rename_i hoverlay
    exact overlayLine_fits_iff fl s offset termWidth hoverlay hwide
  rename_i hoverlay
  refine iff_of_true ?_ fun h => hoverlay h.1
  split
  · have := hname (termWidth - ((' ' :: spinnerFrame fl offset s :: " downloading".toList).length +
      (sizeAndSpeed fl s).1.length))
    refine (sizeAndSpeed_fits fl s _).trans ?_
    rw [List.length_append]
    omega
  split
  · have := hname (termWidth - 2 - (sizeAndSpeed fl s).1.length)
    refine (sizeAndSpeed_fits fl s _).trans ?_
    simp only [List.length_append, List.length_cons, List.length_nil]
    omega
  · exact take_fits termWidth _

end

/-- A rendered line fits the terminal, except one of unknown size, not compact, whose overlay is wider
than a terminal that has room for the numbers. -/
theorem render_fits_iff (fl : ℚ → Number) (offset : ℕ) (s : ProgressState) (termWidth : ℕ)
    (filenameWidth : Option ℕ) :
    visibleLen (render fl offset s termWidth filenameWidth) ≤ termWidth ↔
      ¬ (s.compact = false ∧ s.totalBytes = 0 ∧ Overflows fl s termWidth) := by
  unfold render
  split
  · rename_i hcompact
    exact iff_of_true (renderCompact_fits fl s offset termWidth filenameWidth) fun h => by simp [hcompact] at h
  · rename_i hcompact
    split
    · rename_i htotal
      rw [renderUnknownSize_fits_iff]
      simp [hcompact, htotal]
    · rename_i htotal
      exact iff_of_true (renderStandard_fits fl s termWidth filenameWidth) fun h => htotal h.2.1

private def waiting : ProgressState where
  totalBytes := 0
  completedBytes := .finite 0
  totalChunks := 0
  filename := "a.iso".toList
  overlayText := " WAITING FOR A MIRROR TO ANSWER ".toList
  speed := .finite 0
  eta := .finite 0
  now := .finite 0

/-- 33 columns in a terminal of 25. -/
theorem overlay_overflows : ¬ ∀ (fl : ℚ → Number) (offset : ℕ) (s : ProgressState) (termWidth : ℕ)
    (filenameWidth : Option ℕ), 1 ≤ termWidth →
    visibleLen (render fl offset s termWidth filenameWidth) ≤ termWidth := by
  intro h
  have hline := h .finite 0 waiting 25 none (by decide)
  have hlen : visibleLen (render .finite 0 waiting 25 none) = 33 := by decide
  omega

/-! ## Lines with a bar -/

section
variable (fl : ℚ → Number) (s : ProgressState)

theorem stripSpace_spaces (n : ℕ) {c d : Char} {t : Str} (hc : c.isWhitespace = false)
    (hd : d.isWhitespace = false) : stripSpace (List.replicate n ' ' ++ c :: (t ++ [d])) = c :: (t ++ [d]) := by
  have hfront : (List.replicate n ' ' ++ c :: (t ++ [d])).dropWhile Char.isWhitespace = c :: (t ++ [d]) := by
    induction n with
    | zero => exact List.dropWhile_cons_of_neg (by simp [hc])
    | succ n ih =>
      rw [List.replicate_succ, List.cons_append, List.dropWhile_cons_of_pos (by decide)]
      exact ih
  have hback : (c :: (t ++ [d])).reverse = d :: (t.reverse ++ [c]) := by simp
  rw [stripSpace, hfront, hback, List.dropWhile_cons_of_neg (by simp [hd]), ← hback, List.reverse_reverse]

/-- The number of a speed, without the spaces in front of it. -/
def speedDigits : Str := (getUnitAndValue fl s.speed).1.fixed 2

/-- What `strip` takes from the padded speed: the spaces in front of the number. -/
theorem speed_strip : (stripSpace (formatSpeed fl s true).1).length + 1 + (7 - (speedDigits fl s).length) =
    (formatSpeed fl s true).1.length := by
  have hspeed : (formatSpeed fl s true).1 = List.replicate (7 - (speedDigits fl s).length + 1) ' ' ++
      (speedDigits fl s ++ ' ' :: rjust 3 (getUnitAndValue fl s.speed).2 ++ ['/', 's']) := by
    rw [List.replicate_succ]
    simp only [formatSpeed, rjust, speedDigits, if_true, List.append_assoc, List.cons_append]
    rfl
  obtain ⟨c, digits, hdigits⟩ := List.exists_cons_of_ne_nil (fixed_ne_nil 2 (getUnitAndValue fl s.speed).1)
  have hc : c.isWhitespace = false :=
    (fixed_seen 2 (getUnitAndValue fl s.speed).1 c (by rw [hdigits]; exact List.mem_cons_self ..)).2
  have hstrip := stripSpace_spaces (7 - (speedDigits fl s).length + 1) (c := c) (d := 's')
    (t := digits ++ ' ' :: rjust 3 (getUnitAndValue fl s.speed).2 ++ ['/']) hc (by decide)
  have hbody : c :: (digits ++ ' ' :: rjust 3 (getUnitAndValue fl s.speed).2 ++ ['/'] ++ ['s']) =
      speedDigits fl s ++ ' ' :: rjust 3 (getUnitAndValue fl s.speed).2 ++ ['/', 's'] := by
    rw [speedDigits, hdigits]
    simp
  rw [hbody] at hstrip
  rw [hspeed, hstrip]
  simp only [List.length_append, List.length_replicate]
  omega

theorem esc_notMem_speed : esc ∉ (formatSpeed fl s true).1 := by
  have hspace : esc ≠ ' ' := by decide
  have hlast : esc ∉ "/s".toList := by decide
  simp only [formatSpeed, if_true, List.mem_append, List.mem_cons, not_or]
  exact ⟨⟨⟨hspace, esc_notMem_rjust (esc_notMem_fixed _ _)⟩, hspace, esc_notMem_rjust (esc_notMem_unit fl _)⟩,
    hlast⟩

/-- The speed is not coloured, or its number fills its column. -/
def Filled : Prop := s.isThrottled = false ∨ s.mode = .verify ∨ 7 ≤ (speedDigits fl s).length

instance : Decidable (Filled fl s) := inferInstanceAs (Decidable (_ ∨ _ ∨ _))

/-- What is missing of the statistics. -/
theorem standardStats_visible : visibleLen (standardStats fl s).1 +
    (if s.isThrottled = true ∧ s.mode = .download then 7 - (speedDigits fl s).length else 0) =
      (standardStats fl s).2 := by
  cases hmode : s.mode with
  | verify =>
    obtain ⟨text, htext, hplain⟩ := standardStats_verify fl s hmode
    rw [htext, if_neg (by simp), visibleLen_of_plain hplain]
    rfl
  | download =>
    obtain ⟨a, b, htext, ha, hb⟩ := standardStats_download fl s hmode
    have hspeed := esc_notMem_speed fl s
    rw [htext]
    dsimp only
    rw [visibleLen_plain ha]
    by_cases hthrottled : s.isThrottled = true
    · have hstrip := speed_strip fl s
      have hplain : esc ∉ stripSpace (formatSpeed fl s true).1 := by
        intro hmem
        have hmem := (List.dropWhile_sublist _).subset (List.mem_reverse.mp hmem)
        exact hspeed ((List.dropWhile_sublist _).subset (List.mem_reverse.mp hmem))
      have hcoloured : (formatSpeed fl s true).2 =
          [' '] ++ coloured red (stripSpace (formatSpeed fl s true).1) := if_pos hthrottled
      rw [hcoloured, List.append_assoc, visibleLen_coloured, visibleLen_singleton, visibleLen_of_plain hplain,
        visibleLen_of_plain hb, if_pos ⟨hthrottled, rfl⟩]
      omega
    · have hsame : (formatSpeed fl s true).2 = (formatSpeed fl s true).1 := if_neg hthrottled
      rw [hsame, visibleLen_plain hspeed, visibleLen_of_plain hb, if_neg (by simp [hthrottled])]
      omega

theorem barLine_visible {termWidth : ℕ} (hname : esc ∉ s.filename) (hbar : drawsBar fl s termWidth = true)
    (filenameWidth : Option ℕ) : visibleLen (renderStandard fl s termWidth filenameWidth) +
      (standardStats fl s).2 = termWidth + visibleLen (standardStats fl s).1 := by
  obtain ⟨cut, width, htotal, hwidth, hcut, hline⟩ := renderStandard_bar fl s termWidth filenameWidth hbar
  have hlabel : esc ∉ ljust cut (truncateFilename s.filename cut) ++ " |".toList := by
    rw [List.mem_append, not_or]
    exact ⟨esc_notMem_ljust (esc_notMem_truncateFilename hname), by decide⟩
  have hmid : esc ∉ "| ".toList := by decide
  have hbars : " |".toList.length = 2 ∧ "| ".toList.length = 2 := ⟨rfl, rfl⟩
  simp only [drawsBar, decide_eq_true_eq] at hbar
  rw [hline, buildBar_visible s (by omega) hwidth, visibleLen_of_plain hlabel, visibleLen_plain hmid,
    List.length_append, hcut]
  omega

theorem barLine_fills_iff {termWidth : ℕ} (hname : esc ∉ s.filename) (hbar : drawsBar fl s termWidth = true)
    (filenameWidth : Option ℕ) :
    visibleLen (renderStandard fl s termWidth filenameWidth) = termWidth ↔ Filled fl s := by
  have hline := barLine_visible fl s hname hbar filenameWidth
  have hstats := standardStats_visible fl s
  unfold Filled
  cases hmode : s.mode with
  | verify =>
    rw [if_neg (by simp [hmode])] at hstats
    exact iff_of_true (by omega) (.inr (.inl rfl))
  | download =>
    by_cases hthrottled : s.isThrottled = true
    · rw [if_pos ⟨hthrottled, hmode⟩] at hstats
      simp only [hthrottled, reduceCtorEq, false_or]
      omega
    · rw [if_neg (by simp [hthrottled])] at hstats
      exact iff_of_true (by omega) (.inl (by simpa using hthrottled))

end

/-- No control characters. -/
def Printable (s : Str) : Prop := ∀ c ∈ s, 32 ≤ c.toNat ∧ ¬ (127 ≤ c.toNat ∧ c.toNat ≤ 159)

instance (s : Str) : Decidable (Printable s) := List.decidableBAll _ s

theorem Printable.esc_notMem {s : Str} (h : Printable s) : esc ∉ s := fun hmem =>
  absurd (h esc hmem).1 (by decide)

/-- Two lines with a bar both have the width of the terminal exactly when neither speed is coloured and
has spaces in front of its number. -/
theorem bar_lines_fill_iff (fl : ℚ → Number) (s t : ProgressState) (termWidth : ℕ)
    (filenameWidth filenameWidth' : Option ℕ) (hs : Printable s.filename ∧ Printable s.overlayText)
    (ht : Printable t.filename ∧ Printable t.overlayText) (hbar : drawsBar fl s termWidth = true)
    (hbar' : drawsBar fl t termWidth = true) :
    (visibleLen (renderStandard fl s termWidth filenameWidth) = termWidth ∧
      visibleLen (renderStandard fl t termWidth filenameWidth') = termWidth) ↔ Filled fl s ∧ Filled fl t :=
  and_congr (barLine_fills_iff fl s hs.1.esc_notMem hbar filenameWidth)
    (barLine_fills_iff fl t ht.1.esc_notMem hbar' filenameWidth')

private def barAt (name : String) (speed : ℚ) (throttled : Bool) : ProgressState where
  totalBytes := 4000
  completedBytes := .finite 1000
  totalChunks := 4
  completedChunks := [0, 2]
  filename := name.toList
  isThrottled := throttled
  speed := .finite speed
  eta := .finite 75
  now := .finite 0

/-- A throttled bar at exactly 1000 bytes a second, and one that is not throttled. -/
theorem bar_lines_fill_thousand :
    visibleLen (renderStandard .finite (barAt "a.iso" 1000 true) 80 (some 8)) = 80 ∧
      visibleLen (renderStandard .finite (barAt "long.iso" 40 false) 80 (some 8)) = 80 :=
  (bar_lines_fill_iff .finite (barAt "a.iso" 1000 true) (barAt "long.iso" 40 false) 80 (some 8) (some 8)
    (by decide) (by decide) (by decide +kernel) (by decide +kernel)).mpr (by decide +kernel)

/-- A throttled bar at 40 bytes a second is two columns short. -/
theorem throttled_bar_short : ¬ ∀ (fl : ℚ → Number) (s t : ProgressState) (termWidth : ℕ)
    (filenameWidth filenameWidth' : Option ℕ), Printable s.filename ∧ Printable s.overlayText →
    Printable t.filename ∧ Printable t.overlayText → drawsBar fl s termWidth = true →
    drawsBar fl t termWidth = true →
    visibleLen (renderStandard fl s termWidth filenameWidth) = termWidth ∧
      visibleLen (renderStandard fl t termWidth filenameWidth') = termWidth := by
  intro h
  have hlines := h .finite (barAt "a.iso" 40 true) (barAt "long.iso" 40 false) 80 (some 8) (some 8)
    (by decide) (by decide) (by decide +kernel) (by decide +kernel)
  have hlen : visibleLen (renderStandard .finite (barAt "a.iso" 40 true) 80 (some 8)) = 78 := by
    decide +kernel
  omega

end Formatter
end Mrdl.Progress
