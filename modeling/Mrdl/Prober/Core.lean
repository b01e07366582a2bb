import Mrdl.Types
import Mrdl.Workers.Health

/-! # `MirrorProber`

The probes of all mirrors run at once, and the answer is the first in the order in which they complete
that supports ranges, or the first of the others. What a mirror says about the size is a text that goes
through `int`.
-/

namespace Mrdl.Prober
open Workers (decimalValue)
set_option autoImplicit false

/-! ## `int` -/

/-- The white space that `int` skips: of the ASCII characters, those of C. -/
def isSpace (c : Char) : Bool :=
  let n := c.toNat
  9 ≤ n && n ≤ 13 || n = 32 || n = 0x85 || n = 0xa0 || n = 0x1680 || 0x2000 ≤ n && n ≤ 0x200a ||
    n = 0x2028 || n = 0x2029 || n = 0x202f || n = 0x205f || n = 0x3000

/-- Digits, with single underscores between them. -/
def intDigits : List Char → Option (List ℕ)
  | [] => none
  | [c] => (decimalValue c).map fun d => [d]
  | c :: '_' :: rest => (decimalValue c).bind fun d => (intDigits rest).map (d :: ·)
  | c :: rest => (decimalValue c).bind fun d => (intDigits rest).map (d :: ·)

/-- `int(s)`; `none` is a `ValueError`, also for more digits than the interpreter converts. -/
def pyInt (s : String) : Option ℤ :=
  let body := ((s.toList.dropWhile isSpace).reverse.dropWhile isSpace).reverse
  let (negative, digits) : Bool × List Char :=
    match body with
    | '-' :: rest => (true, rest)
    | '+' :: rest => (false, rest)
    | rest => (false, rest)
  (intDigits digits).bind fun ds =>
    let n : ℤ := (ds.foldl (fun n d => 10 * n + d) 0 : ℕ)
    if ds.length ≤ 4300 then some (if negative then -n else n) else none

/-! ## One mirror -/

/-- A response to the probe, with the headers that are read. -/
structure ProbeResponse where
  status : ℕ
  contentRange : Option String := none
  contentLength : Option String := none
  etag : Option String := none
  lastModified : Option String := none
  deriving DecidableEq, Repr

/-- `int(content_range.split("/")[-1])`; `none` also where there is no slash. -/
def rangeTotal (r : ProbeResponse) : Option ℤ :=
  let contentRange := (r.contentRange.getD "").toList
  if contentRange.contains '/' then
    pyInt (String.ofList (contentRange.reverse.takeWhile (· ≠ '/')).reverse)
  else none

/-- `int(headers.get("Content-Length", 0))`. -/
def lengthTotal (r : ProbeResponse) : Option ℤ :=
  match r.contentLength with
  | none => some 0
  | some s => pyInt s

/-- `_parse_range_response`. -/
def parseRangeResponse (r : ProbeResponse) : Option FileMetadata :=
  (rangeTotal r).map fun totalSize => ⟨totalSize, true, r.etag, r.lastModified⟩

/-- `_probe_single`; without a response it ran into a timeout or a client error. -/
def probeSingle : Option ProbeResponse → Option FileMetadata
  | none => none
  | some r =>
      if r.status = 206 then parseRangeResponse r
      else if r.status = 200 then
        (lengthTotal r).map fun totalSize => ⟨totalSize, false, r.etag, r.lastModified⟩
      else none

/-! ## The race -/

inductive ProbeError
  | noUrls
  | notFound
  deriving DecidableEq, Repr

def ProbeError.text : ProbeError → String
  | .noUrls => "No URLs provided to probe."
  | .notFound => "File not found on any of the provided mirrors."

/-- The loop over the probes as they complete, with `fallback_result`. -/
def race (results : ℕ → Option FileMetadata) : Option FileMetadata → List ℕ → Except ProbeError FileMetadata
  | some fallback, [] => .ok fallback
  | none, [] => .error .notFound
  | fallback, i :: rest =>
      match results i with
      | none => race results fallback rest
      | some m =>
          if m.acceptsRanges then .ok m
          else race results (match fallback with | none => some m | some f => some f) rest

/-- `probe`: `results` is what the probe of each URL comes to, `order` the order in which they do. -/
def probe (urls : List String) (results : ℕ → Option FileMetadata) (order : List ℕ) :
    Except ProbeError FileMetadata :=
  if urls = [] then .error .noUrls else race results none order

/-! ## Whose metadata it is -/

def rangeCapable (result : Option FileMetadata) : Bool := result.any fun m => m.acceptsRanges

/-- The probe that decides: the first range-capable one to complete, or else the first to answer. -/
def decider (results : ℕ → Option FileMetadata) (order : List ℕ) : Option ℕ :=
  (order.find? fun i => rangeCapable (results i)).or (order.find? fun i => (results i).isSome)

theorem race_eq (results : ℕ → Option FileMetadata) (fallback : Option FileMetadata) (order : List ℕ) :
    race results fallback order =
      match (order.find? fun i => rangeCapable (results i)).bind results with
      | some m => .ok m
      | none =>
          match fallback.or ((order.find? fun i => (results i).isSome).bind results) with
          | some m => .ok m
          | none => .error .notFound := by
  induction order generalizing fallback with
  | nil => cases fallback <;> rfl
  | cons i rest ih =>
    rw [race]
    cases hi : results i with
    | none =>
      simp only [ih, List.find?_cons, hi]
      rfl
    | some m =>
      cases hm : m.acceptsRanges with
      | true => simp [rangeCapable, hi, hm]
      | false =>
        have hcapable : rangeCapable (some m) = false := by simp [rangeCapable, hm]
        simp only [ih, List.find?_cons, hi, hm, hcapable, Bool.false_eq_true, if_false,
          Option.isSome_some, Option.bind_some]
        cases fallback <;> rfl

theorem answers_of_rangeCapable {result : Option FileMetadata} (h : rangeCapable result = true) :
    ∃ m, result = some m := by
  cases result with
  | none => cases h
  | some m => exact ⟨m, rfl⟩

/-- What `probe` returns is what the deciding probe came to. -/
theorem probe_eq_ok_iff {urls : List String} {results : ℕ → Option FileMetadata} {order : List ℕ}
    {m : FileMetadata} :
    probe urls results order = .ok m ↔
      urls ≠ [] ∧ ∃ j, decider results order = some j ∧ results j = some m := by
  by_cases hurls : urls = []
  · simp [probe, hurls]
  rw [probe, if_neg hurls, race_eq, decider, Option.none_or]
  simp only [hurls, ne_eq, not_false_eq_true, true_and]
  cases hcap : order.find? fun i => rangeCapable (results i) with
  | some j =>
    have hcapable := List.find?_some hcap
    obtain ⟨mj, hj⟩ := answers_of_rangeCapable hcapable
    simp [hj]
  | none =>
    rw [Option.bind_none, Option.none_or]
    cases hfirst : order.find? fun i => (results i).isSome with
    | none => simp
    | some j =>
      have hanswers := List.find?_some hfirst
      obtain ⟨mj, hj⟩ := Option.isSome_iff_exists.mp hanswers
      simp [hj]

end Mrdl.Prober
