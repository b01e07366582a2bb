import Mrdl.Types
import Mathlib.Data.List.Basic
import Mathlib.Algebra.Order.Ring.Rat

/-! # `MirrorHealthTracker`

`mirror_health.py`. A failure bans its mirror until a time that the kind of the failure decides. The
`Retry-After` header of a 429 is a text of the server: it is read as a number when `str.isdigit` holds for
it, and `float` accepts fewer characters than `isdigit`.
-/

namespace Mrdl.Workers
set_option autoImplicit false

/-! ## `str.isdigit` and `float` -/

/-- The zeros of the decimal digits of Unicode; the nine code points after each are the other digits. -/
def decimalZeros : List ℕ :=
  [0x30, 0x660, 0x6f0, 0x7c0, 0x966, 0x9e6, 0xa66, 0xae6, 0xb66, 0xbe6, 0xc66, 0xce6, 0xd66, 0xde6, 0xe50,
    0xed0, 0xf20, 0x1040, 0x1090, 0x17e0, 0x1810, 0x1946, 0x19d0, 0x1a80, 0x1a90, 0x1b50, 0x1bb0, 0x1c40,
    0x1c50, 0xa620, 0xa8d0, 0xa900, 0xa9d0, 0xa9f0, 0xaa50, 0xabf0, 0xff10, 0x104a0, 0x10d30, 0x11066,
    0x110f0, 0x11136, 0x111d0, 0x112f0, 0x11450, 0x114d0, 0x11650, 0x116c0, 0x11730, 0x118e0, 0x11950,
    0x11c50, 0x11d50, 0x11da0, 0x11f50, 0x16a60, 0x16ac0, 0x16b50, 0x1d7ce, 0x1d7d8, 0x1d7e2, 0x1d7ec,
    0x1d7f6, 0x1e140, 0x1e2f0, 0x1e4f0, 0x1e950, 0x1fbf0]

/-- The digits that are no decimal digits, such as superscripts and circled ones, as ranges. -/
def otherDigits : List (ℕ × ℕ) :=
  [(0xb2, 0xb3), (0xb9, 0xb9), (0x1369, 0x1371), (0x19da, 0x19da), (0x2070, 0x2070), (0x2074, 0x2079),
    (0x2080, 0x2089), (0x2460, 0x2468), (0x2474, 0x247c), (0x2488, 0x2490), (0x24ea, 0x24ea),
    (0x24f5, 0x24fd), (0x24ff, 0x24ff), (0x2776, 0x277e), (0x2780, 0x2788), (0x278a, 0x2792),
    (0x10a40, 0x10a43), (0x10e60, 0x10e68), (0x11052, 0x1105a), (0x1f100, 0x1f10a)]

def decimalValue (c : Char) : Option ℕ :=
  (decimalZeros.find? fun d => d ≤ c.toNat && c.toNat < d + 10).map fun d => c.toNat - d

def isDigitChar (c : Char) : Bool :=
  (decimalValue c).isSome || otherDigits.any fun r => r.1 ≤ c.toNat && c.toNat ≤ r.2

/-- `str.isdigit`. -/
def isDigit (s : String) : Bool := !s.toList.isEmpty && s.toList.all isDigitChar

/-- A time or a duration; `float` reads a number of many digits as `inf`. -/
inductive Instant
  | finite (t : ℚ)
  | infinite
  deriving DecidableEq, Repr

/-- `float(s)` of a string of digits; `none` is a `ValueError`. The value is not rounded. -/
def floatOfDigits (s : String) : Option Instant :=
  (s.toList.mapM decimalValue).map fun digits =>
    let n := digits.foldl (fun n d => 10 * n + d) 0
    if n < 2 ^ 1024 - 2 ^ 970 then .finite n else .infinite

/-! ## The tracker -/

/-- An exception, as `record_failure` tells it apart. -/
inductive Failure
  | slowMirror
  | clientResponse (status : ℤ) (retryAfter : Option String)
  | other
  deriving DecidableEq, Repr

/-- What `fetch` raises: a `FetchError` with its `__cause__`, when that is an `Exception`, or any other
exception. -/
inductive FetchException
  | fetchError (cause : Option Failure) (message : String)
  | unexpected (error : Failure) (typeName message : String)
  deriving DecidableEq, Repr

namespace FetchException

/-- The exception `_process_chunk` records. -/
def recorded : FetchException → Failure
  | .fetchError (some cause) _ => cause
  | .fetchError none _ => .other
  | .unexpected error _ _ => error

def typeName : FetchException → String
  | .fetchError _ _ => "FetchError"
  | .unexpected _ typeName _ => typeName

def message : FetchException → String
  | .fetchError _ message => message
  | .unexpected _ _ message => message

end FetchException

/-- `_banned`, with the ban recorded last in front. -/
structure MirrorHealthTracker where
  banned : List (String × Instant) := []
  deriving DecidableEq, Repr

/-- `now < t`. -/
def Instant.after (now : ℚ) : Instant → Bool
  | .finite t => decide (now < t)
  | .infinite => true

/-- `now + duration`. -/
def Instant.from (now : ℚ) : Instant → Instant
  | .finite d => .finite (now + d)
  | .infinite => .infinite

/-- The header is one that `isdigit` lets through to a `float` that rejects it. -/
def Failure.unreadable : Failure → Bool
  | .clientResponse 429 (some retryAfter) => isDigit retryAfter && (floatOfDigits retryAfter).isNone
  | _ => false

/-- How long a failure bans its mirror; `none` is the `ValueError` of `float`. -/
def Failure.banDuration : Failure → Option Instant
  | .slowMirror => some (.finite 120)
  | .clientResponse 429 (some retryAfter) =>
      if isDigit retryAfter then floatOfDigits retryAfter else some (.finite 120)
  | .clientResponse 429 none => some (.finite 120)
  | _ => some (.finite 60)

namespace MirrorHealthTracker

/-- `is_banned`. -/
def isBanned (h : MirrorHealthTracker) (now : ℚ) (source : String) : Bool :=
  ((h.banned.lookup source).getD (.finite 0)).after now

/-- `get_active_count`. -/
def getActiveCount (h : MirrorHealthTracker) (now : ℚ) (sources : List String) : ℕ :=
  sources.countP fun s => !h.isBanned now s

/-- `record_failure`. -/
def recordFailure (h : MirrorHealthTracker) (now : ℚ) (error : Failure) (source : String) :
    Option MirrorHealthTracker :=
  error.banDuration.map fun d => { banned := (source, d.from now) :: h.banned }

end MirrorHealthTracker

theorem banDuration_eq_none {e : Failure} : e.banDuration = none ↔ e.unreadable = true := by
  unfold Failure.banDuration Failure.unreadable
  split
  · simp
  · split <;> simp_all
  · simp
  · rename_i hslow hretry hnone
    split
    · exact absurd rfl (hretry _)
    · simp

/-- `record_failure` raises exactly on a header it cannot read. -/
theorem recordFailure_eq_none {h : MirrorHealthTracker} {now : ℚ} {e : Failure} {source : String} :
    h.recordFailure now e source = none ↔ e.unreadable = true := by
  rw [MirrorHealthTracker.recordFailure, Option.map_eq_none_iff, banDuration_eq_none]

theorem isBanned_other {h h' : MirrorHealthTracker} {now t : ℚ} {e : Failure} {source s : String}
    (hs : h.recordFailure now e source = some h') (hne : s ≠ source) : h'.isBanned t s = h.isBanned t s := by
  obtain ⟨d, -, rfl⟩ := Option.map_eq_some_iff.mp hs
  have hbeq : (s == source) = false := by simpa using hne
  simp only [MirrorHealthTracker.isBanned, List.lookup_cons, hbeq]

/-- Bans only run out with time. -/
theorem isBanned_mono {h : MirrorHealthTracker} {now later : ℚ} {s : String} (hle : now ≤ later)
    (hb : h.isBanned now s = false) : h.isBanned later s = false := by
  unfold MirrorHealthTracker.isBanned at hb ⊢
  cases hend : (h.banned.lookup s).getD (.finite 0) with
  | infinite =>
    rw [hend] at hb
    cases hb
  | finite t =>
    rw [hend] at hb
    simp only [Instant.after, decide_eq_false_iff_not, not_lt] at hb ⊢
    exact hb.trans hle

theorem getActiveCount_eq_zero {h : MirrorHealthTracker} {now : ℚ} {sources : List String} :
    h.getActiveCount now sources = 0 ↔ ∀ s ∈ sources, h.isBanned now s = true := by
  simp [MirrorHealthTracker.getActiveCount, List.countP_eq_zero]

end Mrdl.Workers
