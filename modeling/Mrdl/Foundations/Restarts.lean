import Mrdl.Foundations.Runs

/-! # Systems that are cut off and started again

A run begins from what is stored, if that lets it begin, and may be cut off in any of its states, or before it
has begun; what it leaves is stored, and the next run begins from that. What the store keeps over any number
of runs follows from a property of the states of one run (`Keeps.stored`).
-/

namespace Mrdl.Runs
set_option autoImplicit false

variable {D C S A : Type*}

/-- A system that begins from a store `D`, with what it reads there as its configuration `C`. `left d c s d'`
tells that a run from `d` that is cut off in the state `s` may leave `d'`, and `early d d'` that one that is
cut off, or fails, before its first state may. -/
structure Restarting (D C S A : Type*) where
  opened : D → Option C
  boot : C → S
  step : C → S → A → Option S
  early : D → D → Prop
  left : D → C → S → D → Prop

namespace Restarting
variable (R : Restarting D C S A) (G : C → S → A → Prop) (L : D → D → Prop)

/-- A run from the store `d` whose steps all meet `G`. -/
structure Reaches (d : D) (c : C) (as : List A) (s : S) : Prop where
  opened : R.opened d = some c
  run : exec (R.step c) (R.boot c) as = some s
  guarded : Guarded (R.step c) (G c) (R.boot c) as

/-- What may be stored after any number of such runs from `d₀` on, of which the early ends all meet `L`. -/
inductive Stored (d₀ : D) : D → Prop
  | first : Stored d₀ d₀
  | early {d d' : D} (before : Stored d₀ d) (left : R.early d d') (meets : L d d') : Stored d₀ d'
  | again {d d' : D} {c : C} {as : List A} {s : S} (before : Stored d₀ d) (run : R.Reaches G d c as s)
      (left : R.left d c s d') : Stored d₀ d'

variable {R G L} {P : D → Prop} {Q : C → S → Prop}

theorem Stored.imp {L' : D → D → Prop} (h : ∀ d d', L d d' → L' d d') {d₀ d : D} (hd : R.Stored G L d₀ d) :
    R.Stored G L' d₀ d := by
  induction hd with
  | first => exact .first
  | early before left meets ih => exact .early ih left (h _ _ meets)
  | again before run left ih => exact .again ih run left

end Restarting

end Mrdl.Runs
