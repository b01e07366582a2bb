import Mathlib.Data.Rat.Floor
import Mrdl.Foundations.Ansi

/-! # `ProgressFormatter`

The text of one progress bar: numbers, times, sizes and speeds, the bar with its cells and its overlay,
and the three layouts. A text is the list of its characters. Floating point arithmetic is exact
arithmetic followed by a rounding `fl`, which every definition takes as it comes.
-/

namespace Mrdl.Progress
open Ansi
set_option autoImplicit false

abbrev Str := List Char

/-! ## Numbers -/

/-- An int or a float. -/
inductive Number
  | finite (q : ℚ)
  | negativeZero
  | infinite (negative : Bool)
  | nan
  deriving DecidableEq, Repr

namespace Number

/-- Multiplying or dividing by a positive number: only a finite number other than zero changes. -/
def scaled (f : ℚ → Number) : Number → Number
  | finite q => f q
  | x => x

/-- `abs(n) < 1024`. -/
def below1024 : Number → Bool
  | finite q => decide (|q| < 1024)
  | negativeZero => true
  | infinite _ | nan => false

/-- `int(x)`; a float without an integer part raises. -/
def toInt : Number → ℤ
  | finite q => q.num.tdiv q.den
  | _ => 0

/-- The quotient, a half to the even side. -/
def roundHalfEven (num den : ℕ) : ℕ :=
  if 2 * (num % den) < den ∨ 2 * (num % den) = den ∧ num / den % 2 = 0 then num / den else num / den + 1

def zeroFill (width : ℕ) (s : Str) : Str := List.replicate (width - s.length) '0' ++ s

/-- The digits of `m / 10 ^ p`. -/
def decimals (p m : ℕ) : Str :=
  Nat.toDigits 10 (m / 10 ^ p) ++ '.' :: zeroFill p (Nat.toDigits 10 (m % 10 ^ p))

/-- `f"{x:.{p}f}"`. -/
def fixed (p : ℕ) : Number → Str
  | finite q => (if q < 0 then ['-'] else []) ++ decimals p (roundHalfEven (q.num.natAbs * 10 ^ p) q.den)
  | negativeZero => '-' :: decimals p 0
  | infinite negative => if negative then "-inf".toList else "inf".toList
  | nan => "nan".toList

end Number

/-! ## Texts -/

/-- `f"{s:>{width}}"`. -/
def rjust (width : ℕ) (s : Str) : Str := List.replicate (width - s.length) ' ' ++ s

/-- `s.ljust(width)`. -/
def ljust (width : ℕ) (s : Str) : Str := s ++ List.replicate (width - s.length) ' '

/-- `s.strip()`. -/
def stripSpace (s : Str) : Str :=
  ((s.dropWhile Char.isWhitespace).reverse.dropWhile Char.isWhitespace).reverse

/-- `sub in s`. -/
def isIn (sub s : Str) : Bool := s.tails.any sub.isPrefixOf

def green : Colour := ⟨['3', '2'], by decide⟩
def blue : Colour := ⟨['3', '4'], by decide⟩
def gray : Colour := ⟨['9', '0'], by decide⟩
def red : Colour := ⟨['3', '1'], by decide⟩
def orange : Colour := ⟨['3', '3'], by decide⟩
def reset : Colour := ⟨['0'], by decide⟩

def coloured (k : Colour) (s : Str) : Str := k.text ++ s ++ reset.text

/-- `_truncate_filename`. -/
def truncateFilename (filename : Str) (maxLen : ℕ) : Str :=
  if filename.length ≤ maxLen then filename
  else if maxLen ≤ 5 then filename.take maxLen
  else
    let keep := (maxLen - 3) / 2
    filename.take keep ++ "...".toList ++ filename.drop (filename.length - (maxLen - 3 - keep))

/-- `_pad_line`. -/
def padLine (line : Str) (termWidth : ℕ) : Str :=
  if visibleLen line < termWidth then line ++ List.replicate (termWidth - visibleLen line) ' ' else line

/-- `_format_time`. -/
def formatTime : Number → Str
  | .finite q => if q < 0 then "--:--".toList else clock q.num.toNat q.den
  | .negativeZero => clock 0 1
  | .infinite _ | .nan => "--:--".toList
where
  clock (num den : ℕ) : Str :=
    let seconds := num / den
    let two (n : ℕ) : Str := Number.zeroFill 2 (Nat.toDigits 10 n)
    let minutes := seconds % 3600 / 60
    let secs := seconds % 3600 % 60
    if 0 < seconds / 3600 then Nat.toDigits 10 (seconds / 3600) ++ ':' :: two minutes ++ ':' :: two secs
    else two minutes ++ ':' :: two secs

/-! ## The state of a bar -/

inductive Mode
  | download
  | verify
  deriving DecidableEq, Repr

namespace Formatter

/-- `ProgressState`, as `render_line` hands it over. -/
structure ProgressState where
  totalBytes : ℤ
  completedBytes : Number
  totalChunks : ℤ
  completedChunks : List ℤ := []
  hashedChunks : List ℤ := []
  filename : Str
  mode : Mode := .download
  compact : Bool := false
  overlayText : Str := []
  overlaySuccess : Bool := true
  overlayColor : Option Str := none
  isThrottled : Bool := false
  speed : Number
  eta : Number
  now : Number
  hasStarted : Bool := true
  started : Bool := true

section
variable (fl : ℚ → Number)

/-! ## Sizes and speeds -/

/-- `_get_unit_and_value`. -/
def getUnitAndValue (n : Number) : Number × Str :=
  scale ["B".toList, "KiB".toList, "MiB".toList, "GiB".toList, "TiB".toList] n
where
  scale : List Str → Number → Number × Str
    | [], n => (n, "PiB".toList)
    | unit :: units, n =>
        if n.below1024 then (n, unit) else scale units (n.scaled fun q => fl (q / 1024))

/-- `_format_speed`: the text as it is seen, and with its colour. -/
def formatSpeed (s : ProgressState) (padded : Bool) : Str × Str :=
  let (speedVal, speedUnit) := getUnitAndValue fl s.speed
  if padded then
    let visible := ' ' :: rjust 7 (speedVal.fixed 2) ++ ' ' :: rjust 3 speedUnit ++ "/s".toList
    (visible, if s.isThrottled then ' ' :: coloured red (stripSpace visible) else visible)
  else
    let visible := speedVal.fixed 2 ++ ' ' :: speedUnit ++ "/s".toList
    (visible, if s.isThrottled then coloured red visible else visible)

/-- `_format_size`. -/
def formatSize (s : ProgressState) (padded : Bool) : Str :=
  if 0 < s.totalBytes then
    let (tVal, tUnit) := getUnitAndValue fl (.finite s.totalBytes)
    let cVal := scaleTo tUnit
      ["B".toList, "KiB".toList, "MiB".toList, "GiB".toList, "TiB".toList, "PiB".toList] s.completedBytes
    let tWidth := (tVal.fixed 2).length
    rjust tWidth (cVal.fixed 2) ++ '/' :: rjust tWidth (tVal.fixed 2) ++ ' ' :: rjust 3 tUnit
  else
    let (cVal, cUnit) := getUnitAndValue fl s.completedBytes
    if padded then rjust 7 (cVal.fixed 2) ++ ' ' :: rjust 3 cUnit else cVal.fixed 2 ++ ' ' :: cUnit
where
  scaleTo (unit : Str) : List Str → Number → Number
    | [], c => c
    | u :: us, c => if u = unit then c else scaleTo unit us (c.scaled fun q => fl (q / 1024))

end

/-! ## Spinner and overlay -/

def spinnerFrames : List Char := ['⠋', '⠙', '⠹', '⠸', '⠼', '⠴', '⠦', '⠧', '⠇', '⠏']

/-- `SPINNER_FRAMES[frame_idx]`. -/
def spinnerFrame (fl : ℚ → Number) (offset : ℕ) (s : ProgressState) : Char :=
  spinnerFrames.getD (((s.now.scaled fun q => fl (q * 10)).toInt + offset) % 10).toNat ' '

/-- `_get_spinner_char`. -/
def getSpinnerChar (fl : ℚ → Number) (offset : ℕ) (s : ProgressState) : Char :=
  if ¬ s.hasStarted then ' '
  else if s.overlayText ≠ [] ∧ (isIn "PAUSED".toList s.overlayText ∨ isIn "STATE SAVED".toList s.overlayText) then
    '⏸'
  else if ¬ s.started ∧ s.overlayText ≠ [] then if s.overlaySuccess then '✓' else '✗'
  else spinnerFrame fl offset s

/-- `_COLOR_MAP`. -/
def colorMap : List (Str × Colour) :=
  [("red".toList, ⟨"41;30".toList, by decide⟩), ("yellow".toList, ⟨"43;30".toList, by decide⟩),
    ("blue".toList, ⟨"44;30".toList, by decide⟩), ("green".toList, ⟨"42;30".toList, by decide⟩)]

/-- `_get_overlay_bg_color`. -/
def getOverlayBgColor (s : ProgressState) : Colour :=
  match s.overlayColor.bind fun c => colorMap.lookup c with
  | some k => k
  | none =>
      if ¬ s.overlaySuccess then ⟨"41;30".toList, by decide⟩
      else if isIn "HASH OK".toList s.overlayText then ⟨"44;30".toList, by decide⟩
      else ⟨"42;30".toList, by decide⟩

/-! ## The bar -/

def blocks : List Char := ['░', '▒', '▓', '█']

/-- The share of `chunks` among the chunks of a column. -/
def columnShare (chunks : List ℤ) (totalChunks width col : ℕ) : ℚ :=
  let startChunk := col * totalChunks / width
  let endChunk := ((col + 1) * totalChunks + width - 1) / width
  let inColumn := (List.range' startChunk (endChunk - startChunk)).filter fun c => (c : ℤ) ∈ chunks
  if endChunk - startChunk = 1 then if (startChunk : ℤ) ∈ chunks then 1 else 0
  else inColumn.length / (endChunk - startChunk : ℕ)

/-- One column of the bar; the shade is computed without rounding. -/
def column (s : ProgressState) (width col : ℕ) : Colour × Char :=
  let hashed := columnShare s.hashedChunks s.totalChunks.toNat width col
  let completed := columnShare s.completedChunks s.totalChunks.toNat width col
  if 0 < hashed then (green, blocks.getD ⌈hashed * 3⌉.toNat '░')
  else if 0 < completed then (blue, blocks.getD ⌈completed * 3⌉.toNat '░')
  else (gray, '░')

/-- `chars`. -/
def barCells (s : ProgressState) (width : ℕ) : List Str :=
  let chars := (List.range width).map fun col => (column s width col).1.text ++ [(column s width col).2]
  if s.overlayText ≠ [] ∧ s.overlayText.length ≤ width then
    let start := (width - s.overlayText.length) / 2
    chars.take start ++ s.overlayText.map (fun c => coloured (getOverlayBgColor s) [c]) ++
      chars.drop (start + s.overlayText.length)
  else chars

/-- `_build_bar`. -/
def buildBar (s : ProgressState) (width : ℕ) : Str :=
  if s.totalChunks = 0 ∨ width = 0 then gray.text ++ List.replicate width '░'
  else (barCells s width).flatten

/-! ## The layouts

Every subtraction below is compared with a positive number, so that it may stop at 0. -/

section
variable (fl : ℚ → Number) (offset : ℕ) (s : ProgressState) (termWidth : ℕ) (filenameWidth : Option ℕ)

/-- `stats_visible` and `stats_formatted` of the two layouts without a bar. -/
def sizeAndSpeed : Str × Str :=
  let size := formatSize fl s false
  let speed := formatSpeed fl s false
  (" | ".toList ++ size ++ " @ ".toList ++ speed.1, " | ".toList ++ size ++ " @ ".toList ++ speed.2)

/-- `prefix` of `_render_compact`, two columns wide. -/
def compactPrefix : Str :=
  let c := getSpinnerChar fl offset s
  (if c = '✓' then coloured green [c]
    else if c = '✗' then coloured red [c]
    else if c = '⏸' then coloured orange [c]
    else [c]) ++ [' ']

/-- `formatted_right` and `visible_right` of `_render_compact`. -/
def compactRight : Str × ℕ :=
  if s.overlayText ≠ [] then
    (" | ".toList ++ coloured (getOverlayBgColor s) s.overlayText, s.overlayText.length + 3)
  else ((sizeAndSpeed fl s).2, (sizeAndSpeed fl s).1.length)

/-- `_render_compact`. -/
def renderCompact : Str :=
  let right := compactRight fl s
  let effectiveNameLen := filenameWidth.getD s.filename.length
  let spaceForFile := termWidth - (2 + right.2)
  if 5 ≤ spaceForFile then
    let filenameLen := min effectiveNameLen spaceForFile
    compactPrefix fl offset s ++ ljust filenameLen (truncateFilename s.filename filenameLen) ++ right.1
  else (compactPrefix fl offset s ++ right.1).take termWidth

/-- `status_suffix` and `status_len` of `_render_unknown_size`. -/
def unknownStatus : Str × ℕ :=
  if s.overlayText ≠ [] then
    (' ' :: coloured (getOverlayBgColor s) s.overlayText, s.overlayText.length + 1)
  else
    let suffix := ' ' :: spinnerFrame fl offset s :: " downloading (progress unavailable)".toList
    (suffix, suffix.length)

/-- `_render_unknown_size`. -/
def renderUnknownSize : Str :=
  let stats := sizeAndSpeed fl s
  let status := unknownStatus fl offset s
  let neededSpace := status.2 + stats.1.length
  if termWidth ≤ stats.1.length then stats.1.take termWidth
  else if 10 ≤ termWidth - neededSpace then
    truncateFilename s.filename (termWidth - neededSpace) ++ status.1 ++ stats.2
  else if neededSpace + 4 ≤ termWidth then
    truncateFilename s.filename (termWidth - neededSpace) ++ status.1 ++ stats.2
  else if s.overlayText ≠ [] then
    truncateFilename s.filename (termWidth - status.2) ++ status.1
  else
    let spinner := spinnerFrame fl offset s
    let simple := ' ' :: spinner :: " downloading".toList
    if 5 ≤ termWidth - (simple.length + stats.1.length) then
      truncateFilename s.filename (termWidth - (simple.length + stats.1.length)) ++ simple ++ stats.2
    else if 0 < termWidth - 2 - stats.1.length then
      truncateFilename s.filename (termWidth - 2 - stats.1.length) ++ [' ', spinner] ++ stats.2
    else stats.1.take termWidth

/-- `pct`. -/
def percent : Number :=
  if 0 < s.totalBytes then
    (s.completedBytes.scaled fun q => fl (q / s.totalBytes)).scaled fun q => fl (q * 100)
  else .finite 0

/-- `stats` and `stats_len` of `_render_standard`. -/
def standardStats : Str × ℕ :=
  let pct := rjust 5 ((percent fl s).fixed 1) ++ ['%']
  let eta := " ETA ".toList ++ formatTime s.eta
  let speed := formatSpeed fl s true
  let size := formatSize fl s true
  match s.mode with
  | .verify => (' ' :: pct ++ eta, (' ' :: pct ++ eta).length)
  | .download =>
      if 0 < s.totalBytes then
        (pct ++ ' ' :: size ++ speed.2 ++ eta, (pct ++ ' ' :: size ++ speed.1 ++ eta).length)
      else (' ' :: size ++ speed.2, (' ' :: size ++ speed.1).length)

/-- `_render_standard` draws a bar. -/
def drawsBar : Bool :=
  let space := termWidth - (standardStats fl s).2
  decide (min s.filename.length 10 + 4 + 10 ≤ space ∧ 0 < s.totalBytes ∧ 1 < s.totalChunks)

/-- `_render_standard`. -/
def renderStandard : Str :=
  let stats := standardStats fl s
  if termWidth ≤ stats.2 then stats.1.take termWidth
  else
    let space := termWidth - stats.2
    if drawsBar fl s termWidth then
      let effectiveNameLen := filenameWidth.getD s.filename.length
      let filenameLen := min effectiveNameLen (space - 4 - 10)
      let displayFilename := truncateFilename s.filename filenameLen
      -- the length is taken again from the name that was cut
      let filenameLen := if filenameLen < s.filename.length then displayFilename.length else filenameLen
      let bar := buildBar s (space - filenameLen - 4)
      ljust filenameLen displayFilename ++ " |".toList ++ bar ++ reset.text ++ "| ".toList ++ stats.1
    else truncateFilename s.filename space ++ stats.1

/-- `render`. -/
def render : Str :=
  if s.compact then renderCompact fl offset s termWidth filenameWidth
  else if s.totalBytes = 0 then renderUnknownSize fl offset s termWidth
  else renderStandard fl s termWidth filenameWidth

end
end Formatter
end Mrdl.Progress
