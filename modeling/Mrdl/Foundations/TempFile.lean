import Mrdl.Foundations.FileBytes

/-! # Replacing a file through a temporary one

Two names in one directory, a target and a temporary one, and the files they stand for. A descriptor
belongs to a file, not to a name: what is written through it lands in that file under whatever name it is
found by then. A writer that has the temporary file for itself fills it and renames it over the target,
and the target reads as before until the rename and as the new text after it.
-/

namespace Mrdl.TempFile
open FileBytes
set_option autoImplicit false

structure Dir (α : Type*) where
  target : Option ℕ := none
  temp : Option ℕ := none
  files : List (List α) := []
  deriving DecidableEq, Repr

namespace Dir

variable {α : Type*} {d d' : Dir α} {f : ℕ} {text : List α}

def content (d : Dir α) (f : ℕ) : List α := (d.files[f]?).getD []

/-- What a reader of the target finds. -/
def read (d : Dir α) : Option (List α) := d.target.map d.content

def setFile (d : Dir α) (f : ℕ) (text : List α) : Dir α := { d with files := d.files.set f text }

/-- Open the temporary name for writing: the file that has it is cut to nothing, or one is made. -/
def openTemp (d : Dir α) : Dir α × ℕ :=
  match d.temp with
  | some f => (d.setFile f [], f)
  | none => ({ d with temp := some d.files.length, files := d.files ++ [[]] }, d.files.length)

def write [Inhabited α] (d : Dir α) (f off : ℕ) (data : List α) : Dir α :=
  d.setFile f (writeAt (d.content f) off data)

/-- Rename the temporary file over the target. -/
def replace (d : Dir α) : Option (Dir α) := d.temp.map fun f => { d with target := some f, temp := none }

def remove (d : Dir α) : Dir α := { d with target := none }

/-- Each name stands for a file, and not both for one. -/
structure Named (d : Dir α) : Prop where
  target : ∀ f, d.target = some f → f < d.files.length
  temp : ∀ f, d.temp = some f → f < d.files.length
  apart : ∀ f, d.target = some f → d.temp ≠ some f

/-- The temporary file is `f` and holds `text`. -/
def Holds (d : Dir α) (f : ℕ) (text : List α) : Prop := d.temp = some f ∧ d.content f = text

theorem content_setFile (d : Dir α) {g : ℕ} (hg : g < d.files.length) (f : ℕ) (text : List α) :
    (d.setFile g text).content f = if g = f then text else d.content f := by
  unfold content setFile
  rw [List.getElem?_set]
  by_cases hgf : g = f
  · rw [if_pos hgf, if_pos hgf, if_pos hg]
    rfl
  · rw [if_neg hgf, if_neg hgf]

/-- A change of another file than the target's is not seen by its readers. -/
theorem read_setFile (h : d.Named) {g : ℕ} (hg : d.temp = some g) (text : List α) :
    (d.setFile g text).read = d.read := by
  unfold read
  rw [show (d.setFile g text).target = d.target from rfl]
  apply Option.map_congr
  intro f hf
  have hne : g ≠ f := fun heq => h.apart f hf (heq ▸ hg)
  rw [content_setFile d (h.temp g hg), if_neg hne]

theorem Named.setFile (h : d.Named) (g : ℕ) (text : List α) : (d.setFile g text).Named where
  target f hf := by
    rw [Dir.setFile, List.length_set]
    exact h.target f hf
  temp f hf := by
    rw [Dir.setFile, List.length_set]
    exact h.temp f hf
  apart := h.apart

theorem openTemp_holds (h : d.Named) :
    d.openTemp.1.Named ∧ d.openTemp.1.Holds d.openTemp.2 [] ∧ d.openTemp.1.read = d.read := by
  cases htemp : d.temp with
  | some f =>
    rw [show d.openTemp = (d.setFile f [], f) by simp only [openTemp, htemp]]
    refine ⟨h.setFile f [], ⟨htemp, ?_⟩, read_setFile h htemp []⟩
    rw [content_setFile d (h.temp f htemp), if_pos rfl]
  | none =>
    rw [show d.openTemp = ({ d with temp := some d.files.length, files := d.files ++ [[]] },
      d.files.length) by simp only [openTemp, htemp]]
    have hlen : (d.files ++ [[]]).length = d.files.length + 1 := by simp
    refine ⟨⟨fun f hf => ?_, fun f hf => ?_, fun f hf heq => ?_⟩, ⟨rfl, ?_⟩, ?_⟩
    · exact hlen ▸ Nat.lt_succ_of_lt (h.target f hf)
    · exact hlen ▸ Option.some.inj hf ▸ Nat.lt_succ_self _
    · exact absurd (h.target f hf) (by rw [Option.some.inj heq]; exact Nat.lt_irrefl f)
    · show ((d.files ++ [[]])[d.files.length]?).getD [] = []
      rw [List.getElem?_concat_length]
      rfl
    · apply Option.map_congr
      intro f hf
      show ((d.files ++ [[]])[f]?).getD [] = (d.files[f]?).getD []
      rw [List.getElem?_append_left (h.target f hf)]

theorem write_holds [Inhabited α] (h : d.Named) (hf : d.Holds f text) (data : List α) :
    (d.write f text.length data).Named ∧ (d.write f text.length data).Holds f (text ++ data) ∧
      (d.write f text.length data).read = d.read := by
  refine ⟨h.setFile f _, ⟨hf.1, ?_⟩, read_setFile h hf.1 _⟩
  rw [write, content_setFile d (h.temp f hf.1), if_pos rfl, hf.2]
  have hpieces := writeAt_writeAt ([] : List α) text data 0
  rw [writeAt_zero, writeAt_zero, Nat.zero_add] at hpieces
  simpa using hpieces

theorem replace_holds (h : d.Named) (hf : d.Holds f text) :
    ∃ d', d.replace = some d' ∧ d'.Named ∧ d'.read = some text := by
  refine ⟨{ d with target := some f, temp := none }, by rw [replace, hf.1]; rfl, ⟨?_, ?_, ?_⟩, ?_⟩
  · intro g hg
    exact h.temp g (hf.1.trans hg)
  · intro g hg
    cases hg
  · intro g _ hg
    cases hg
  · show some (d.content f) = some text
    rw [hf.2]

theorem Named.remove (h : d.Named) : d.remove.Named where
  target f hf := by cases hf
  temp := h.temp
  apart f hf := by cases hf

@[simp] theorem read_remove (d : Dir α) : d.remove.read = none := rfl

theorem Holds.remove (h : d.Holds f text) : d.remove.Holds f text := h

end Dir

end Mrdl.TempFile
