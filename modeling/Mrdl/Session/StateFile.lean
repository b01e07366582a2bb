import Mrdl.Foundations.TempFile
import Mrdl.Session.Persistence

/-! # `JsonStateManager.save`, step by step

A call opens the temporary file, writes the JSON text into it piece by piece, closes it and renames it over
the progress file. All calls use the one temporary name, so this goes well for a call that has the file
for itself.
-/

namespace Mrdl.Session
open TempFile
set_option autoImplicit false

/-- Where a call of `save` stands. `raised` is an `OSError`, or a call dropped before its thread took it
up. -/
inductive SavePc
  | calling
  | writing (fd pos : ℕ)
  | replacing
  | returned
  | raised
  deriving DecidableEq, Repr

/-- One call of `save`: which one it is in the order of the calls, and the state it was given. -/
structure SaveCall where
  number : ℕ
  state : Dict
  pc : SavePc := .calling

inductive SaveAct
  | opens
  | appends (n : ℕ)
  | closes
  | replaces
  | raises
  deriving DecidableEq, Repr

namespace SaveCall

/-- The call has neither returned nor raised. -/
def underWay (c : SaveCall) : Bool :=
  match c.pc with
  | .returned | .raised => false
  | _ => true

/-- One step of `save`; `encode` is what `json.dump` writes. -/
def step (encode : Dict → Bytes) (d : Dir UInt8) (c : SaveCall) : SaveAct → Option (Dir UInt8 × SaveCall)
  | .opens =>
      match c.pc with
      | .calling => some (d.openTemp.1, { c with pc := .writing d.openTemp.2 0 })
      | _ => none
  | .appends n =>
      match c.pc with
      | .writing fd pos =>
          if 0 < n ∧ pos + n ≤ (encode c.state).length then
            some (d.write fd pos (((encode c.state).drop pos).take n), { c with pc := .writing fd (pos + n) })
          else none
      | _ => none
  | .closes =>
      match c.pc with
      | .writing _ pos =>
          if pos = (encode c.state).length then some (d, { c with pc := .replacing }) else none
      | _ => none
  | .replaces =>
      match c.pc with
      | .replacing =>
          match d.replace with
          | some d' => some (d', { c with pc := .returned })
          | none => some (d, { c with pc := .raised })
      | _ => none
  | .raises => if c.underWay then some (d, { c with pc := .raised }) else none

/-- What a call that has the temporary file for itself has put there. -/
def Filling (encode : Dict → Bytes) (d : Dir UInt8) (c : SaveCall) : Prop :=
  match c.pc with
  | .writing fd pos => pos ≤ (encode c.state).length ∧ d.Holds fd ((encode c.state).take pos)
  | .replacing => ∃ fd, d.Holds fd (encode c.state)
  | _ => True

variable {encode : Dict → Bytes} {d d' : Dir UInt8} {c c' : SaveCall}

theorem Filling.remove (h : c.Filling encode d) : c.Filling encode d.remove := by
  unfold Filling at h ⊢
  split at h
  · exact h
  · exact h
  · trivial

/-- What a step of such a call does: it goes on filling its file, or the progress file now is the text of
its state. -/
structure Filled (encode : Dict → Bytes) (d : Dir UInt8) (c : SaveCall) (d' : Dir UInt8) (c' : SaveCall) :
    Prop where
  named : d'.Named
  filling : c'.Filling encode d'
  number : c'.number = c.number
  state : c'.state = c.state
  read : c'.pc ≠ .returned ∧ d'.read = d.read ∨ c'.pc = .returned ∧ d'.read = some (encode c.state)

theorem step_filled {a : SaveAct} (hd : d.Named) (hc : c.Filling encode d)
    (h : c.step encode d a = some (d', c')) : Filled encode d c d' c' := by
  cases a with
  | opens =>
    simp only [step] at h
    split at h <;> cases h
    obtain ⟨hnamed, hholds, hread⟩ := Dir.openTemp_holds hd
    exact ⟨hnamed, ⟨Nat.zero_le _, hholds⟩, rfl, rfl, .inl ⟨by simp, hread⟩⟩
  | appends n =>
    simp only [step] at h
    split at h
    · rename_i fd pos hpc
      split at h <;> cases h
      rename_i hfits
      rw [Filling, hpc] at hc
      obtain ⟨hle, hholds⟩ := hc
      have hlen : ((encode c.state).take pos).length = pos := by
        rw [List.length_take]
        omega
      have hw := Dir.write_holds hd hholds (((encode c.state).drop pos).take n)
      rw [hlen, ← List.take_add] at hw
      exact ⟨hw.1, ⟨hfits.2, hw.2.1⟩, rfl, rfl, .inl ⟨by simp, hw.2.2⟩⟩
    · cases h
  | closes =>
    simp only [step] at h
    split at h
    · rename_i fd pos hpc
      split at h <;> cases h
      rename_i hpos
      rw [Filling, hpc] at hc
      obtain ⟨-, hholds⟩ := hc
      rw [hpos, List.take_length] at hholds
      exact ⟨hd, ⟨fd, hholds⟩, rfl, rfl, .inl ⟨by simp, rfl⟩⟩
    · cases h
  | replaces =>
    simp only [step] at h
    split at h
    · rename_i hpc
      rw [Filling, hpc] at hc
      obtain ⟨fd, hholds⟩ := hc
      obtain ⟨d₁, hd₁, hnamed, hread⟩ := Dir.replace_holds hd hholds
      rw [hd₁] at h
      cases h
      exact ⟨hnamed, trivial, rfl, rfl, .inr ⟨rfl, hread⟩⟩
    · cases h
  | raises =>
    simp only [step, Option.ite_none_right_eq_some, Option.some.injEq] at h
    obtain ⟨-, h⟩ := h
    cases h
    exact ⟨hd, trivial, rfl, rfl, .inl ⟨by simp, rfl⟩⟩

end SaveCall

end Mrdl.Session
