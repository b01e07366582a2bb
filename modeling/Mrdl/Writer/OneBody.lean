import Mrdl.Writer.Core
import Mrdl.Foundations.Patches

/-! # Commands from one body

Where every command puts a piece of one body in its place, or cuts the file to the length of the body, the
file is the old one patched with that body after every step of the thread.
-/

namespace Mrdl
open FileBytes
set_option autoImplicit false

/-- The command puts a piece of `body` in its place, or cuts the file to its length. -/
def Command.FromBody (body : Bytes) : Command → Prop
  | .write offset data => PieceOf body (offset, data)
  | .truncate n => n = body.length
  | .mark _ => True

namespace Writer

/-- What the thread has made of the file `old`. -/
def DiskWriter.Patches (body old : Bytes) (w : DiskWriter) : Prop :=
  Patched body old (.truncate body.length ∈ w.executed) w.pwrites w.file

theorem DiskWriter.Patches.start (body : Bytes) (resumed : List ℕ) (file : Bytes) :
    DiskWriter.Patches body file { diskCompleted := resumed, file := file } :=
  Patched.start body file List.not_mem_nil

theorem DiskWriter.Patches.put {body old : Bytes} {w w' : DiskWriter} {x : Option Command}
    (h : w.Patches body old) (hs : w.put x = some w') : w'.Patches body old := by
  simp only [DiskWriter.put, Option.ite_none_right_eq_some, Option.some.injEq] at hs
  obtain ⟨-, rfl⟩ := hs
  exact h

theorem DiskWriter.Patches.step {body old : Bytes} {stopThread fdOpen : Bool} {w w' : DiskWriter}
    {a : ThreadAct} (h : w.Patches body old) (hhand : ∀ cmd ∈ w.hand, cmd.FromBody body)
    (hs : w.step stopThread fdOpen a = some w') : w'.Patches body old := by
  unfold Patches at h ⊢
  cases step_moves hs with
  | waits w' file pwrites executed disk pending begun =>
    rw [file, pwrites, executed]
    exact h
  | pwrote offset written n data pc fits =>
    rw [hand_of_working pc] at hhand
    exact h.write (PieceOf.part (hhand _ (List.mem_singleton.mpr rfl)) written n)
  | wrote offset written data pc all => exact h.congr (by simp)
  | marked i written pc => exact h.congr (by simp)
  | truncated n written pc =>
    rw [hand_of_working pc] at hhand
    have hn : n = body.length := hhand _ (List.mem_singleton.mpr rfl)
    rw [hn]
    exact h.truncate (List.mem_append_right _ (List.mem_singleton.mpr rfl))

end Writer

end Mrdl
