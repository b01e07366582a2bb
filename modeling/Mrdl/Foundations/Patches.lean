import Mrdl.Foundations.FileBytes

/-! # Writing one block over an old file

Pieces of a block are written at their own offsets, in any order and as often as they come, over a file
that may be longer than the block, and the file may be cut to the length of the block on the way. Where
something was written the file agrees with the block; beyond the block it is what it was, until it is cut.
-/

namespace Mrdl.FileBytes
set_option autoImplicit false

variable {α : Type*} {body old d f : List α} {cut : Prop} {w : Write α} {ws : List (Write α)} {b : ℕ}

/-- The write puts a piece of `body` where it stands in `body`. -/
def PieceOf (body : List α) (w : Write α) : Prop := w.2 <+: body.drop w.1

theorem PieceOf.byte (h : PieceOf body w) (hlow : w.1 ≤ b) (hhigh : b < w.1 + w.2.length) :
    w.2[b - w.1]? = body[b]? := by
  have hbyte := h.getElem (i := b - w.1) (by omega)
  have hlen := h.length_le
  rw [List.length_drop] at hlen
  rw [List.getElem?_eq_getElem (by omega), List.getElem?_eq_getElem (by omega), hbyte, List.getElem_drop]
  congr 2
  omega

theorem PieceOf.within (h : PieceOf body w) (hne : w.2 ≠ []) : w.1 + w.2.length ≤ body.length := by
  have hpos := List.length_pos_of_ne_nil hne
  have hlen := h.length_le
  rw [List.length_drop] at hlen
  omega

theorem PieceOf.part {offset : ℕ} (h : PieceOf body (offset, d)) (k n : ℕ) :
    PieceOf body (offset + k, (d.drop k).take n) := by
  obtain ⟨rest, hrest⟩ := h
  refine (List.take_prefix n _).trans ?_
  dsimp only at hrest ⊢
  rw [← List.drop_drop, ← hrest, List.drop_append]
  exact List.prefix_append _ _

theorem Tiles.pieces {start : ℕ} (h : Tiles start ws d) (hd : d <+: body.drop start) :
    ∀ w ∈ ws, PieceOf body w := by
  induction ws generalizing start d with
  | nil => exact fun w hw => absurd hw List.not_mem_nil
  | cons v ws ih =>
    obtain ⟨rfl, d', rfl, htail⟩ := h
    intro w hw
    obtain ⟨rest, hrest⟩ := hd
    have hv : body.drop v.1 = v.2 ++ (d' ++ rest) := by
      rw [← hrest, List.append_assoc]
    rcases List.mem_cons.mp hw with rfl | hw
    · exact ⟨d' ++ rest, hv.symm⟩
    · refine ih htail ⟨rest, ?_⟩ w hw
      rw [← List.drop_drop, hv, List.drop_left]

theorem written_lt (hpieces : ∀ w ∈ ws, PieceOf body w) (h : (lastWritten ws b).isSome = true) :
    b < body.length := by
  by_contra hb
  have hnone : lastWritten ws b = none := by
    refine lastWritten_eq_none fun w hw hcov => ?_
    have hne : w.2 ≠ [] := by
      intro hnil
      rw [hnil, List.length_nil] at hcov
      omega
    have := (hpieces w hw).within hne
    omega
  rw [hnone] at h
  cases h

/-- `f` is the file `old` after the writes `ws` of pieces of `body`, cut to its length on the way when
`cut` holds. -/
structure Patched (body old : List α) (cut : Prop) (ws : List (Write α)) (f : List α) : Prop where
  pieces : ∀ w ∈ ws, PieceOf body w
  bytes : ∀ b, (lastWritten ws b).isSome = true → f[b]? = body[b]?
  kept : ¬ cut → ∀ b, body.length ≤ b → f[b]? = old[b]?
  gone : cut → f.length ≤ body.length

theorem Patched.start (body old : List α) (hcut : ¬ cut) : Patched body old cut [] old := by
  refine ⟨fun w hw => absurd hw List.not_mem_nil, fun b hb => ?_, fun _ _ _ => rfl, fun h => absurd h hcut⟩
  cases hb

theorem Patched.length_lt (h : Patched body old cut ws f) (hb : (lastWritten ws b).isSome = true) :
    b < f.length := by
  have hbody := written_lt h.pieces hb
  have hbyte := h.bytes b hb
  rw [List.getElem?_eq_getElem hbody] at hbyte
  exact (List.getElem?_eq_some_iff.mp hbyte).1

theorem Patched.congr {cut' : Prop} (h : Patched body old cut ws f) (hcut : cut ↔ cut') :
    Patched body old cut' ws f :=
  ⟨h.pieces, h.bytes, fun hno => h.kept fun hc => hno (hcut.mp hc), fun hc => h.gone (hcut.mpr hc)⟩

/-- Once every cell of the block was written, the file is the block, with what was beyond it before. -/
theorem Patched.whole (h : Patched body old cut ws f)
    (hall : ∀ b < body.length, (lastWritten ws b).isSome = true) :
    (cut → f = body) ∧ (¬ cut → f = body ++ old.drop body.length) := by
  refine ⟨fun hcut => List.ext_getElem? fun b => ?_, fun hcut => List.ext_getElem? fun b => ?_⟩
  · by_cases hb : b < body.length
    · exact h.bytes b (hall b hb)
    · have := h.gone hcut
      rw [List.getElem?_eq_none (by omega), List.getElem?_eq_none (by omega)]
  · by_cases hb : b < body.length
    · rw [List.getElem?_append_left hb]
      exact h.bytes b (hall b hb)
    · rw [List.getElem?_append_right (by omega), List.getElem?_drop, Nat.add_sub_cancel' (by omega)]
      exact h.kept hcut b (by omega)

/-! ## The steps -/

variable [Inhabited α]

theorem Patched.write (h : Patched body old cut ws f) (hw : PieceOf body w) :
    Patched body old cut (ws ++ [w]) (writeAt f w.1 w.2) := by
  by_cases hnil : w.2 = []
  · -- an empty write puts nothing anywhere
    have hnone : ∀ b, lastWritten [w] b = none := fun b => lastWritten_eq_none fun v hv hcov => by
      rw [List.mem_singleton.mp hv, hnil, List.length_nil] at hcov
      omega
    rw [hnil, writeAt_nil]
    refine ⟨fun v hv => ?_, fun b hb => ?_, h.kept, h.gone⟩
    · rcases List.mem_append.mp hv with hold | hnew
      · exact h.pieces v hold
      · exact List.mem_singleton.mp hnew ▸ hw
    · rw [lastWritten_append, hnone, Option.none_or] at hb
      exact h.bytes b hb
  have hwithin := hw.within hnil
  have hlen : (writeAt f w.1 w.2).length = max f.length (w.1 + w.2.length) := writeAt_length hnil
  refine ⟨fun v hv => ?_, fun b hb => ?_, fun hcut b hb => ?_, fun hcut => ?_⟩
  · rcases List.mem_append.mp hv with hold | hnew
    · exact h.pieces v hold
    · exact List.mem_singleton.mp hnew ▸ hw
  · by_cases hcov : w.1 ≤ b ∧ b < w.1 + w.2.length
    · rw [writeAt_getElem?_inside hcov.1 hcov.2]
      exact hw.byte hcov.1 hcov.2
    · have hold : (lastWritten ws b).isSome = true := by
        have hnone : lastWritten [w] b = none :=
          lastWritten_eq_none fun v hv => List.mem_singleton.mp hv ▸ hcov
        rwa [lastWritten_append, hnone, Option.none_or] at hb
      rw [writeAt_getElem?_outside (h.length_lt hold) hcov]
      exact h.bytes b hold
  · rw [← h.kept hcut b hb]
    by_cases hin : b < f.length
    · exact writeAt_getElem?_outside hin (by omega)
    · rw [List.getElem?_eq_none (by omega), List.getElem?_eq_none (by omega)]
  · have := h.gone hcut
    omega

/-- The file is cut to the length of the block. -/
theorem Patched.truncate {cut' : Prop} (h : Patched body old cut ws f) (hcut : cut') :
    Patched body old cut' ws (resize f body.length) := by
  refine ⟨h.pieces, fun b hb => ?_, fun hno => absurd hcut hno, fun _ => (resize_length f _).le⟩
  have hbody := written_lt h.pieces hb
  have hin := h.length_lt hb
  rw [resize, List.getElem?_append_left (by rw [List.length_take]; omega), List.getElem?_take_of_lt hbody]
  exact h.bytes b hb

end Mrdl.FileBytes
