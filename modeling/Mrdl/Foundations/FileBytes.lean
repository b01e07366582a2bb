import Mathlib.Data.List.Basic
import Mathlib.Tactic.Linarith

/-! # Positioned writes into a file

A file is the list of its cells. `writeAt` is a positioned write (a write past the end fills the gap
with the default cell), `resize` cuts or extends the file. Three descriptions of a sequence of writes
are kept apart and related: what it does to a file (`writeAll`), which value it last put at one
offset, whatever the file held (`lastWritten`), and that it lays down one block of data piece by
piece (`Tiles`).
-/

namespace Mrdl.FileBytes
set_option autoImplicit false

variable {α : Type*}

/-! ## Sequences of writes -/

/-- One positioned write: an offset and the cells written there. -/
abbrev Write (α : Type*) := ℕ × List α

/-- The value the last write covering offset `i` put there. -/
def lastWritten : List (Write α) → ℕ → Option α
  | [], _ => none
  | w :: ws, i => (lastWritten ws i).or (if w.1 ≤ i then w.2[i - w.1]? else none)

@[simp] theorem lastWritten_nil (i : ℕ) : lastWritten ([] : List (Write α)) i = none := rfl

theorem lastWritten_append (us vs : List (Write α)) (i : ℕ) :
    lastWritten (us ++ vs) i = (lastWritten vs i).or (lastWritten us i) := by
  induction us with
  | nil => simp
  | cons u us ih => rw [List.cons_append, lastWritten, lastWritten, ih, Option.or_assoc]

theorem lastWritten_single (off i : ℕ) (d : List α) :
    lastWritten [(off, d)] i = if off ≤ i then d[i - off]? else none := by
  simp [lastWritten]

theorem lastWritten_eq_none {ws : List (Write α)} {i : ℕ}
    (h : ∀ w ∈ ws, ¬(w.1 ≤ i ∧ i < w.1 + w.2.length)) : lastWritten ws i = none := by
  induction ws with
  | nil => rfl
  | cons w ws ih =>
    rw [lastWritten, ih (fun v hv => h v (List.mem_cons_of_mem w hv)), Option.none_or]
    have hw := h w (List.mem_cons_self ..)
    split
    · exact List.getElem?_eq_none (by omega)
    · rfl

/-! ## A block laid down piece by piece -/

/-- The writes `ws` lay down the block `d` from offset `start` on, in order and without gaps. -/
def Tiles : ℕ → List (Write α) → List α → Prop
  | _, [], d => d = []
  | start, w :: ws, d => w.1 = start ∧ ∃ d', d = w.2 ++ d' ∧ Tiles (start + w.2.length) ws d'

theorem Tiles.snoc {start : ℕ} {ws : List (Write α)} {d : List α} (h : Tiles start ws d)
    (x : List α) : Tiles start (ws ++ [(start + d.length, x)]) (d ++ x) := by
  induction ws generalizing start d with
  | nil =>
    cases h
    exact ⟨by simp, [], by simp, rfl⟩
  | cons w ws ih =>
    obtain ⟨hoff, d', rfl, htail⟩ := h
    refine ⟨hoff, d' ++ x, by simp, ?_⟩
    have h' := ih htail
    rw [List.length_append, ← Nat.add_assoc]
    exact h'

theorem Tiles.within {start : ℕ} {ws : List (Write α)} {d : List α} (h : Tiles start ws d) :
    ∀ w ∈ ws, start ≤ w.1 ∧ w.1 + w.2.length ≤ start + d.length := by
  induction ws generalizing start d with
  | nil => simp
  | cons w ws ih =>
    obtain ⟨hoff, d', rfl, htail⟩ := h
    intro v hv
    rw [List.length_append]
    rcases List.mem_cons.mp hv with rfl | hv
    · omega
    · have := ih htail v hv
      omega

theorem Tiles.lastWritten {start : ℕ} {ws : List (Write α)} {d : List α} (h : Tiles start ws d)
    (i : ℕ) : lastWritten ws i = if start ≤ i then d[i - start]? else none := by
  induction ws generalizing start d with
  | nil =>
    cases h
    simp
  | cons w ws ih =>
    obtain ⟨rfl, d', rfl, htail⟩ := h
    rw [FileBytes.lastWritten, ih htail]
    by_cases h1 : w.1 + w.2.length ≤ i
    · have h2 : w.1 ≤ i := by omega
      rw [if_pos h1, if_pos h2, if_pos h2, List.getElem?_append_right (by omega)]
      have h3 : w.2[i - w.1]? = none := List.getElem?_eq_none (by omega)
      rw [h3, Option.or_none, show i - (w.1 + w.2.length) = i - w.1 - w.2.length by omega]
    · rw [if_neg h1, Option.none_or]
      by_cases h2 : w.1 ≤ i
      · rw [if_pos h2, if_pos h2, List.getElem?_append_left (by omega)]
      · rw [if_neg h2, if_neg h2]

theorem Tiles.flatten {start : ℕ} {ws : List (Write α)} {d : List α} (h : Tiles start ws d) :
    (ws.map Prod.snd).flatten = d := by
  induction ws generalizing start d with
  | nil =>
    cases h
    rfl
  | cons w ws ih =>
    obtain ⟨-, d', rfl, htail⟩ := h
    rw [List.map_cons, List.flatten_cons, ih htail]

theorem Tiles.offset {start k : ℕ} {ws : List (Write α)} {d : List α} {w : Write α}
    (h : Tiles start ws d) (hw : ws[k]? = some w) :
    w.1 = start + ((ws.take k).map fun v => v.2.length).sum := by
  induction ws generalizing start d k with
  | nil => cases hw
  | cons v ws ih =>
    obtain ⟨hoff, d', -, htail⟩ := h
    cases k with
    | zero =>
      cases hw
      simpa using hoff
    | succ k =>
      rw [ih htail hw, List.take_succ_cons, List.map_cons, List.sum_cons, Nat.add_assoc]

/-! ## Writing into a file -/

variable [Inhabited α]

/-- Write the cells `d` at offset `off`; an empty write changes nothing. -/
def writeAt (f : List α) (off : ℕ) (d : List α) : List α :=
  match d with
  | [] => f
  | _ :: _ => f.take off ++ List.replicate (off - f.length) default ++ d ++ f.drop (off + d.length)

/-- Cut the file to `n` cells, or extend it with default cells. -/
def resize (f : List α) (n : ℕ) : List α := f.take n ++ List.replicate (n - f.length) default

@[simp] theorem writeAt_nil (f : List α) (off : ℕ) : writeAt f off [] = f := rfl

theorem writeAt_of_ne_nil {f d : List α} {off : ℕ} (h : d ≠ []) :
    writeAt f off d =
      f.take off ++ List.replicate (off - f.length) default ++ d ++ f.drop (off + d.length) := by
  cases d with
  | nil => exact absurd rfl h
  | cons x d => rfl

theorem writeAt_length {f d : List α} {off : ℕ} (h : d ≠ []) :
    (writeAt f off d).length = max f.length (off + d.length) := by
  rw [writeAt_of_ne_nil h]
  simp only [List.length_append, List.length_take, List.length_replicate, List.length_drop]
  omega

theorem le_writeAt_length (f d : List α) (off : ℕ) : f.length ≤ (writeAt f off d).length := by
  by_cases h : d = []
  · rw [h, writeAt_nil]
  · rw [writeAt_length h]
    exact Nat.le_max_left _ _

theorem writeAt_getElem?_inside {f d : List α} {off i : ℕ} (h1 : off ≤ i) (h2 : i < off + d.length) :
    (writeAt f off d)[i]? = d[i - off]? := by
  have hne : d ≠ [] := by
    rintro rfl
    simp at h2
    omega
  have hpre : (f.take off ++ List.replicate (off - f.length) default).length = off := by
    simp only [List.length_append, List.length_take, List.length_replicate]
    omega
  rw [writeAt_of_ne_nil hne, List.getElem?_append_left (by rw [List.length_append, hpre]; omega),
    List.getElem?_append_right (by rw [hpre]; omega), hpre]

theorem writeAt_getElem?_outside {f d : List α} {off i : ℕ} (hi : i < f.length)
    (h : ¬(off ≤ i ∧ i < off + d.length)) : (writeAt f off d)[i]? = f[i]? := by
  by_cases hne : d = []
  · rw [hne, writeAt_nil]
  have hpre : (f.take off ++ List.replicate (off - f.length) default).length = off := by
    simp only [List.length_append, List.length_take, List.length_replicate]
    omega
  rw [writeAt_of_ne_nil hne]
  by_cases hlt : i < off
  · rw [List.getElem?_append_left (by rw [List.length_append, hpre]; omega),
      List.getElem?_append_left (by rw [hpre]; exact hlt),
      List.getElem?_append_left (by rw [List.length_take]; omega), List.getElem?_take_of_lt hlt]
  · have hge : off + d.length ≤ i := by omega
    rw [List.getElem?_append_right (by rw [List.length_append, hpre]; exact hge),
      List.length_append, hpre, List.getElem?_drop]
    congr 1
    omega

/-- A block written in two pieces is written whole. -/
theorem writeAt_writeAt (f a b : List α) (off : ℕ) :
    writeAt (writeAt f off a) (off + a.length) b = writeAt f off (a ++ b) := by
  by_cases ha : a = []
  · subst ha
    simp
  by_cases hb : b = []
  · subst hb
    simp
  have hab : a ++ b ≠ [] := by simp [ha]
  have hlen : (writeAt f off a).length = max f.length (off + a.length) := writeAt_length ha
  have hpre : (f.take off ++ List.replicate (off - f.length) default).length = off := by
    simp only [List.length_append, List.length_take, List.length_replicate]
    omega
  have htake : (writeAt f off a).take (off + a.length) =
      f.take off ++ List.replicate (off - f.length) default ++ a := by
    rw [writeAt_of_ne_nil ha, List.take_append_of_le_length (by rw [List.length_append, hpre])]
    exact List.take_of_length_le (by rw [List.length_append, hpre])
  have hdrop : (writeAt f off a).drop (off + a.length + b.length) = f.drop (off + (a ++ b).length) := by
    rw [writeAt_of_ne_nil ha, List.drop_append, List.drop_eq_nil_of_le
      (by rw [List.length_append, hpre]; omega), List.nil_append, List.length_append, hpre,
      List.drop_drop, List.length_append]
    congr 1
    omega
  rw [writeAt_of_ne_nil hb, writeAt_of_ne_nil hab, htake, hdrop, hlen]
  have hz : off + a.length - max f.length (off + a.length) = 0 := by omega
  rw [hz]
  simp only [List.replicate_zero, List.append_nil, List.append_assoc]

theorem writeAt_zero {f d : List α} : writeAt f 0 d = d ++ f.drop d.length := by
  cases d with
  | nil => simp
  | cons x d =>
    rw [writeAt_of_ne_nil (by simp)]
    simp

theorem resize_length (f : List α) (n : ℕ) : (resize f n).length = n := by
  simp only [resize, List.length_append, List.length_take, List.length_replicate]
  omega

theorem resize_append (d f : List α) : resize (d ++ f) d.length = d := by
  simp [resize]

/-- Carry out a sequence of writes. -/
def writeAll (f : List α) (ws : List (Write α)) : List α := ws.foldl (fun g w => writeAt g w.1 w.2) f

@[simp] theorem writeAll_nil (f : List α) : writeAll f [] = f := rfl

@[simp] theorem writeAll_cons (f : List α) (w : Write α) (ws : List (Write α)) :
    writeAll f (w :: ws) = writeAll (writeAt f w.1 w.2) ws := rfl

theorem writeAll_append (f : List α) (us vs : List (Write α)) :
    writeAll f (us ++ vs) = writeAll (writeAll f us) vs := List.foldl_append

/-- The cell of a file after a sequence of writes: the last value written there, or the old one. -/
theorem writeAll_getElem? {f : List α} {ws : List (Write α)} {i : ℕ} (hi : i < f.length) :
    (writeAll f ws)[i]? = (lastWritten ws i).or f[i]? := by
  induction ws generalizing f with
  | nil => simp
  | cons w ws ih =>
    rw [writeAll_cons, ih (hi.trans_le (le_writeAt_length _ _ _)), lastWritten, Option.or_assoc]
    congr 1
    by_cases hw : w.1 ≤ i ∧ i < w.1 + w.2.length
    · rw [writeAt_getElem?_inside hw.1 hw.2, if_pos hw.1,
        List.getElem?_eq_getElem (by omega), Option.some_or]
    · rw [writeAt_getElem?_outside hi hw]
      split
      · have hnone : w.2[i - w.1]? = none := List.getElem?_eq_none (by omega)
        rw [hnone, Option.none_or]
      · rw [Option.none_or]

theorem writeAll_length {f : List α} {ws : List (Write α)} (h : ∀ w ∈ ws, w.1 + w.2.length ≤ f.length) :
    (writeAll f ws).length = f.length := by
  induction ws generalizing f with
  | nil => rfl
  | cons w ws ih =>
    have hw : (writeAt f w.1 w.2).length = f.length := by
      by_cases hnil : w.2 = []
      · rw [hnil, writeAt_nil]
      · rw [writeAt_length hnil]
        exact Nat.max_eq_left (h w (List.mem_cons_self ..))
    rw [writeAll_cons, ih fun v hv => hw.symm ▸ h v (List.mem_cons_of_mem w hv), hw]

theorem Tiles.writeAll {start : ℕ} {ws : List (Write α)} {d : List α} (h : Tiles start ws d)
    (f : List α) : writeAll f ws = writeAt f start d := by
  induction ws generalizing start d f with
  | nil =>
    cases h
    rfl
  | cons w ws ih =>
    obtain ⟨rfl, d', rfl, htail⟩ := h
    rw [writeAll_cons, ih htail, writeAt_writeAt]

end Mrdl.FileBytes
