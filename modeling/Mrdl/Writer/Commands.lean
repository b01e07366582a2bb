import Mrdl.Types
import Mrdl.Foundations.FileBytes

/-! # What a command does to the file

The writer carries out one command after the other: a write puts its bytes at its offset, a
truncation sets the length, a mark leaves the file alone. Marks are what tells the rest of the
program that a chunk is on disk.
-/

namespace Mrdl
open FileBytes
set_option autoImplicit false

/-- `DiskWriter._run`, the branches for the three kinds of command. -/
def Command.perform (file : Bytes) : Command → Bytes
  | .write offset data => writeAt file offset data
  | .mark _ => file
  | .truncate size => resize file size

/-- Carry out commands in the order of the queue. -/
def performAll (file : Bytes) (cmds : List Command) : Bytes := cmds.foldl Command.perform file

@[simp] theorem performAll_nil (file : Bytes) : performAll file [] = file := rfl

@[simp] theorem performAll_cons (file : Bytes) (cmd : Command) (cmds : List Command) :
    performAll file (cmd :: cmds) = performAll (cmd.perform file) cmds := rfl

theorem performAll_append (file : Bytes) (cmds cmds' : List Command) :
    performAll file (cmds ++ cmds') = performAll (performAll file cmds) cmds' := List.foldl_append

/-- The write a command stands for. -/
def Command.asWrite : Command → Option (Write UInt8)
  | .write offset data => some (offset, data)
  | _ => none

/-- The writes among the commands, in order. -/
def writesOf (cmds : List Command) : List (Write UInt8) := cmds.filterMap Command.asWrite

@[simp] theorem writesOf_nil : writesOf [] = [] := rfl

@[simp] theorem writesOf_append (cmds cmds' : List Command) :
    writesOf (cmds ++ cmds') = writesOf cmds ++ writesOf cmds' := List.filterMap_append

@[simp] theorem writesOf_mark (i : ℕ) (cmds : List Command) :
    writesOf (.mark i :: cmds) = writesOf cmds := rfl

@[simp] theorem writesOf_truncate (n : ℕ) (cmds : List Command) :
    writesOf (.truncate n :: cmds) = writesOf cmds := rfl

@[simp] theorem writesOf_write (off : ℕ) (d : Bytes) (cmds : List Command) :
    writesOf (.write off d :: cmds) = (off, d) :: writesOf cmds := rfl

/-- Writes as commands. -/
def asCommands (ws : List (Write UInt8)) : List Command := ws.map fun w => .write w.1 w.2

@[simp] theorem asCommands_append (us vs : List (Write UInt8)) :
    asCommands (us ++ vs) = asCommands us ++ asCommands vs := List.map_append

@[simp] theorem writesOf_asCommands (ws : List (Write UInt8)) : writesOf (asCommands ws) = ws := by
  unfold writesOf asCommands
  rw [List.filterMap_map]
  exact List.filterMap_some

theorem performAll_asCommands (file : Bytes) (ws : List (Write UInt8)) :
    performAll file (asCommands ws) = writeAll file ws := List.foldl_map

theorem mem_writesOf {cmds : List Command} {w : Write UInt8} :
    w ∈ writesOf cmds ↔ .write w.1 w.2 ∈ cmds := by
  simp only [writesOf, List.mem_filterMap]
  constructor
  · rintro ⟨cmd, hcmd, h⟩
    cases cmd <;> cases h
    exact hcmd
  · intro h
    exact ⟨_, h, rfl⟩

/-! ## The bytes of a command -/

/-- Carrying out the command puts a byte at offset `b`. -/
def Command.Covers (cmd : Command) (b : ℕ) : Prop :=
  match cmd with
  | .write offset data => offset ≤ b ∧ b < offset + data.length
  | _ => False

instance (cmd : Command) (b : ℕ) : Decidable (cmd.Covers b) :=
  match cmd with
  | .write offset data => inferInstanceAs (Decidable (offset ≤ b ∧ b < offset + data.length))
  | .mark _ | .truncate _ => .isFalse id

theorem lastWritten_of_covers {cmds : List Command} {cmd : Command} {b : ℕ} (hmem : cmd ∈ cmds)
    (hcov : cmd.Covers b) : (lastWritten (writesOf cmds) b).isSome = true := by
  cases hnone : lastWritten (writesOf cmds) b with
  | some x => rfl
  | none =>
    exfalso
    cases cmd with
    | write offset data =>
      obtain ⟨hlow, hhigh⟩ := hcov
      obtain ⟨before, after, rfl⟩ := List.append_of_mem hmem
      rw [writesOf_append, writesOf_write, ← List.singleton_append, lastWritten_append,
        lastWritten_append, lastWritten_single, if_pos hlow] at hnone
      have hbyte := List.getElem?_eq_getElem (l := data) (i := b - offset) (by omega)
      rw [hbyte] at hnone
      cases hlater : lastWritten (writesOf after) b <;> rw [hlater] at hnone <;> cases hnone
    | mark i => exact hcov
    | truncate n => exact hcov

theorem lastWritten_of_not_covers {cmds : List Command} {b : ℕ}
    (h : ∀ cmd ∈ cmds, ¬ cmd.Covers b) : lastWritten (writesOf cmds) b = none :=
  lastWritten_eq_none fun w hw hcov => h (.write w.1 w.2) (mem_writesOf.mp hw) hcov

/-- The byte last written at `b` is decided by the commands that cover `b`. -/
theorem lastWritten_filter_covers (cmds : List Command) (b : ℕ) :
    lastWritten (writesOf (cmds.filter fun cmd => cmd.Covers b)) b = lastWritten (writesOf cmds) b := by
  induction cmds with
  | nil => rfl
  | cons cmd cmds ih =>
    have hcons : ∀ rest, lastWritten (writesOf (cmd :: rest)) b =
        (lastWritten (writesOf rest) b).or (lastWritten (writesOf [cmd]) b) := fun rest => by
      rw [← List.singleton_append, writesOf_append, lastWritten_append]
    by_cases hcov : cmd.Covers b
    · rw [List.filter_cons_of_pos (by simpa using hcov), hcons, hcons cmds, ih]
    · have hnone : lastWritten (writesOf [cmd]) b = none :=
        lastWritten_of_not_covers fun c hc => List.mem_singleton.mp hc ▸ hcov
      rw [List.filter_cons_of_neg (by simpa using hcov), hcons cmds, ih, hnone, Option.or_none]

theorem lastWritten_append_of_not_covers {cmds later : List Command} {b : ℕ}
    (h : ∀ cmd ∈ later, ¬ cmd.Covers b) :
    lastWritten (writesOf (cmds ++ later)) b = lastWritten (writesOf cmds) b := by
  rw [writesOf_append, lastWritten_append, lastWritten_of_not_covers h, Option.none_or]

end Mrdl
