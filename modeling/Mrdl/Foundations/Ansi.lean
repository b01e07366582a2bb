import Mathlib.Data.List.Basic

/-! # Colour codes in lines of text

A colour code is an escape character, a bracket, parameters and an `m`; a terminal shows nothing for it.
`strip` takes the codes out of a text. Text around a code is stripped as if the code were the end of one
text and the beginning of the next (`strip_colour`), whatever stands there, and a text without an escape
character is as long as it looks.
-/

namespace Mrdl.Ansi
set_option autoImplicit false

/-- The escape character. -/
def esc : Char := '\x1b'

/-- The characters that may stand between the bracket and the `m`. -/
def isParam (c : Char) : Bool := c.isDigit || c == ';'

/-- A colour code. -/
structure Colour where
  params : List Char
  valid : params.all isParam = true

def Colour.text (k : Colour) : List Char := esc :: '[' :: (k.params ++ ['m'])

/-- Read one more character: what is certainly not part of a match, and what is held back because a match
may have begun. -/
def feed (held : List Char) (c : Char) : List Char × List Char :=
  if c = esc then (held, [esc])
  else match held with
    | [] => ([c], [])
    | [e] => if c = '[' then ([], [e, c]) else ([e, c], [])
    | _ =>
        if c = 'm' then ([], [])
        else if isParam c then ([], held ++ [c])
        else (held ++ [c], [])

/-- Take out every match of `ESC \[ [0-9;]* m`, with `held` read before. -/
def strip : List Char → List Char → List Char
  | held, [] => held
  | held, c :: cs => (feed held c).1 ++ strip (feed held c).2 cs

/-- How much of a text is seen. -/
def visibleLen (s : List Char) : ℕ := (strip [] s).length

variable {held a b : List Char}

@[simp] theorem feed_esc (held : List Char) : feed held esc = (held, [esc]) := if_pos rfl

theorem feed_nil {c : Char} (hc : c ≠ esc) : feed [] c = ([c], []) := if_neg hc

@[simp] theorem strip_nil (held : List Char) : strip held [] = held := rfl

theorem strip_cons (held : List Char) (c : Char) (cs : List Char) :
    strip held (c :: cs) = (feed held c).1 ++ strip (feed held c).2 cs := rfl

theorem feed_length (held : List Char) (c : Char) :
    (feed held c).1.length + (feed held c).2.length ≤ held.length + 1 := by
  unfold feed
  split
  · simp
  · split
    · simp
    · split <;> simp
    · split
      · simp
      · split <;> simp

/-- An escape character cannot be inside a match. -/
theorem strip_append_esc (held a b : List Char) :
    strip held (a ++ esc :: b) = strip held a ++ strip [esc] b := by
  induction a generalizing held with
  | nil => rw [List.nil_append, strip_cons, feed_esc, strip_nil]
  | cons c a ih => rw [List.cons_append, strip_cons, strip_cons, ih, List.append_assoc]

theorem strip_params {params : List Char} (hvalid : ∀ c ∈ params, isParam c = true) (more b : List Char) :
    strip (esc :: '[' :: more) (params ++ 'm' :: b) = strip [] b := by
  induction params generalizing more with
  | nil => rfl
  | cons c params ih =>
    have hc : isParam c = true := hvalid c (List.mem_cons_self ..)
    have hesc : c ≠ esc := by
      rintro rfl
      exact absurd hc (by decide)
    have hm : c ≠ 'm' := by
      rintro rfl
      exact absurd hc (by decide)
    have hfeed : feed (esc :: '[' :: more) c = ([], esc :: '[' :: (more ++ [c])) := by
      simp [feed, hesc, hm, hc]
    rw [List.cons_append, strip_cons, hfeed, List.nil_append]
    exact ih (fun d hd => hvalid d (List.mem_cons_of_mem _ hd)) (more ++ [c])

theorem strip_colour (k : Colour) (a b : List Char) :
    strip [] (a ++ (k.text ++ b)) = strip [] a ++ strip [] b := by
  have hcode : strip [esc] ('[' :: (k.params ++ 'm' :: b)) = strip [] b :=
    strip_params (List.all_eq_true.mp k.valid) [] b
  have htext : k.text ++ b = esc :: '[' :: (k.params ++ 'm' :: b) := by simp [Colour.text]
  rw [htext, strip_append_esc, hcode]

theorem strip_plain (ha : esc ∉ a) : strip [] (a ++ b) = a ++ strip [] b := by
  induction a with
  | nil => rfl
  | cons c a ih =>
    have hc : c ≠ esc := fun h => ha (h ▸ List.mem_cons_self ..)
    rw [List.cons_append, strip_cons, feed_nil hc, ih fun h => ha (List.mem_cons_of_mem _ h)]
    rfl

/-! ## Lengths -/

theorem strip_length_le (held a : List Char) : (strip held a).length ≤ held.length + (strip [] a).length := by
  induction a generalizing held with
  | nil => exact Nat.le_add_right _ _
  | cons c a ih =>
    by_cases hesc : c = esc
    · have hlen : (strip held (esc :: a)).length = held.length + (strip [] (esc :: a)).length := by
        rw [strip_cons, strip_cons, feed_esc, feed_esc, List.length_append, List.nil_append]
      rw [hesc]
      exact Nat.le_of_eq hlen
    · have hfeed := feed_length held c
      have hrest := ih (feed held c).2
      rw [strip_cons, strip_cons, feed_nil hesc, List.length_append, List.length_append]
      simp only [List.length_singleton]
      omega

theorem strip_append_length_le (held a b : List Char) :
    (strip held (a ++ b)).length ≤ held.length + a.length + (strip [] b).length := by
  induction a generalizing held with
  | nil => exact strip_length_le held b
  | cons c a ih =>
    have hfeed := feed_length held c
    have hrest := ih (feed held c).2
    rw [List.cons_append, strip_cons, List.length_append, List.length_cons]
    omega

theorem visibleLen_append_le (a b : List Char) : visibleLen (a ++ b) ≤ a.length + visibleLen b := by
  have h := strip_append_length_le [] a b
  simp only [List.length_nil] at h
  unfold visibleLen
  omega

theorem visibleLen_le (a : List Char) : visibleLen a ≤ a.length := by
  have h := visibleLen_append_le a []
  rw [List.append_nil] at h
  exact h

@[simp] theorem visibleLen_colour (k : Colour) (a b : List Char) :
    visibleLen (a ++ (k.text ++ b)) = visibleLen a + visibleLen b := by
  unfold visibleLen
  rw [strip_colour, List.length_append]

@[simp] theorem visibleLen_colour_last (k : Colour) (a : List Char) :
    visibleLen (a ++ k.text) = visibleLen a := by
  have h := visibleLen_colour k a []
  rw [List.append_nil] at h
  exact h

theorem visibleLen_plain (ha : esc ∉ a) : visibleLen (a ++ b) = a.length + visibleLen b := by
  unfold visibleLen
  rw [strip_plain ha, List.length_append]

theorem visibleLen_of_plain (ha : esc ∉ a) : visibleLen a = a.length := by
  have h := visibleLen_plain (b := []) ha
  rw [List.append_nil] at h
  exact h

theorem visibleLen_singleton (c : Char) : visibleLen [c] = 1 := by
  by_cases hc : c = esc
  · rw [hc]
    rfl
  · rw [visibleLen, strip_cons, feed_nil hc]
    rfl

end Mrdl.Ansi
