import Mrdl.Types

/-! # The progress file

`persistence.py`. The progress file holds one JSON value, usually the object that `save` wrote, but
any text may stand there. `load` answers `None` for a file that is missing or is not JSON, and what a
resumed run does with the value follows Python: a falsy value counts as no state, a number equals the
integer it stands for, a value without `get` raises.
-/

namespace Mrdl.Session
set_option autoImplicit false

/-- A Python float, as far as it can be compared with an integer. -/
inductive PyFloat
  | finite (q : ℚ)
  | nan
  | infinite (negative : Bool)
  deriving DecidableEq, Repr

/-- What `json.load` returns. -/
inductive Json
  | null
  | bool (b : Bool)
  | int (n : ℤ)
  | float (x : PyFloat)
  | str (s : String)
  | arr (xs : List Json)
  | obj (fields : List (String × Json))

namespace Json

/-- `bool(x)`. -/
def truthy : Json → Bool
  | null => false
  | bool b => b
  | int n => n ≠ 0
  | float (.finite q) => q ≠ 0
  | float _ => true
  | str s => s ≠ ""
  | arr xs => !xs.isEmpty
  | obj fields => !fields.isEmpty

/-- The number a value stands for in a comparison: booleans and floats compare as numbers. -/
def number : Json → Option ℚ
  | bool b => some (if b then 1 else 0)
  | int n => some n
  | float (.finite q) => some q
  | _ => none

/-- `x == n` for an integer `n`. -/
def eqInt (n : ℤ) (x : Json) : Bool := x.number = some (n : ℚ)

@[simp] theorem eqInt_int (n m : ℤ) : (int m).eqInt n = decide (m = n) := by
  simp [eqInt, number]

/-- `x == t` for a string `t`. -/
def eqStr (t : String) : Json → Bool
  | str s => s = t
  | _ => false

/-- Lists and dicts cannot be elements of a set. -/
def hashable : Json → Bool
  | arr _ => false
  | obj _ => false
  | _ => true

/-- Two values are one element of a set. -/
def sameElement : Json → Json → Bool
  | null, null => true
  | str s, str t => s = t
  | float .nan, float .nan => true
  | float (.infinite a), float (.infinite b) => a = b
  | x, y => x.number.isSome && decide (x.number = y.number)

theorem eqInt_of_sameElement {x y : Json} (h : sameElement x y = true) (n : ℤ) :
    x.eqInt n = y.eqInt n := by
  unfold sameElement at h
  split at h
  case h_5 =>
    have hnum : x.number = y.number := by simpa using (Bool.and_eq_true_iff.mp h).2
    rw [eqInt, eqInt, hnum]
  all_goals rfl

end Json

/-- `set(xs)`, each element at its first place. -/
def pySet : List Json → List Json
  | [] => []
  | x :: xs => x :: (pySet xs).filter fun y => !x.sameElement y

/-- `i in xs`, for a list or a set. -/
def inSet (xs : List Json) (i : ℕ) : Bool := xs.any (Json.eqInt i)

theorem inSet_pySet (xs : List Json) (i : ℕ) : inSet (pySet xs) i = inSet xs i := by
  induction xs with
  | nil => rfl
  | cons x xs ih =>
    have hcons : inSet (x :: xs) i = (x.eqInt i || inSet xs i) := rfl
    have hset : inSet (pySet (x :: xs)) i =
        (x.eqInt i || inSet ((pySet xs).filter fun y => !x.sameElement y) i) := rfl
    rw [hcons, hset, ← ih]
    cases hx : x.eqInt i with
    | true => rfl
    | false =>
      rw [Bool.false_or, Bool.false_or, Bool.eq_iff_iff]
      simp only [inSet, List.any_filter, List.any_eq_true, Bool.and_eq_true]
      refine exists_congr fun y => and_congr_right fun _ => ⟨fun h => h.2, fun h => ⟨?_, h⟩⟩
      cases hxy : x.sameElement y with
      | false => rfl
      | true =>
        rw [Json.eqInt_of_sameElement hxy, h] at hx
        cases hx

/-! ## Dicts -/

/-- A dict with string keys, as the list of its items. -/
abbrev Dict := List (String × Json)

/-- `d.get(key)`. -/
def Dict.get (d : Dict) (key : String) : Json := (d.lookup key).getD .null

/-- `d[key] = value`. -/
def Dict.set (d : Dict) (key : String) (value : Json) : Dict :=
  if (d.lookup key).isSome then d.map fun kv => if kv.1 = key then (key, value) else kv
  else d ++ [(key, value)]

theorem Dict.lookup_map_self (d : Dict) (key : String) (value : Json)
    (h : (d.lookup key).isSome = true) :
    (d.map fun kv => if kv.1 = key then (key, value) else kv).lookup key = some value := by
  induction d with
  | nil => simp at h
  | cons kv d ih =>
    by_cases hk : kv.1 = key
    · simp [hk]
    · have hne : (key == kv.1) = false := by simpa using fun h => hk h.symm
      rw [List.map_cons, if_neg hk, List.lookup_cons, hne]
      rw [List.lookup_cons, hne] at h
      exact ih h

theorem Dict.lookup_map_other (d : Dict) {key other : String} (value : Json) (h : other ≠ key) :
    (d.map fun kv => if kv.1 = key then (key, value) else kv).lookup other = d.lookup other := by
  induction d with
  | nil => rfl
  | cons kv d ih =>
    rw [List.map_cons, List.lookup_cons, ih]
    by_cases hk : kv.1 = key
    · have h1 : (other == key) = false := by simpa using h
      have h2 : (other == kv.1) = false := by simpa [hk] using h
      rw [if_pos hk, h1, List.lookup_cons, h2]
    · rw [if_neg hk, List.lookup_cons]

@[simp] theorem Dict.get_set_self (d : Dict) (key : String) (value : Json) :
    (d.set key value).get key = value := by
  unfold Dict.get Dict.set
  split
  · rename_i h
    rw [Dict.lookup_map_self d key value h, Option.getD_some]
  · rename_i h
    have hnone : d.lookup key = none := Option.not_isSome_iff_eq_none.mp h
    rw [List.lookup_append, hnone]
    simp

theorem Dict.get_set_other (d : Dict) {key other : String} (value : Json) (h : other ≠ key) :
    (d.set key value).get other = d.get other := by
  unfold Dict.get Dict.set
  split
  · rw [Dict.lookup_map_other d value h]
  · have h1 : (other == key) = false := by simpa using h
    rw [List.lookup_append, List.lookup_cons, h1, List.lookup_nil, Option.or_none]

/-! ## `JsonStateManager` -/

/-- The progress file. A text that is not valid UTF-8 makes `load` raise, any other text that is not
JSON and every `OSError` make it answer `None`. -/
inductive ProgressFile
  | absent
  | malformed
  | undecodable
  | state (saved : Json)

/-- Why `start()` raises before it has built its queue. -/
inductive StartError
  | destinationExists
  | unicodeDecodeError
  | clearFailed
  | attributeError
  | unhashable
  deriving DecidableEq, Repr

/-- `JsonStateManager.load`. -/
def load : ProgressFile → Except StartError (Option Json)
  | .absent => .ok none
  | .malformed => .ok none
  | .undecodable => .error .unicodeDecodeError
  | .state saved => .ok (some saved)

/-- `saved and current and saved != current`, the comparison of `etag` and `last_modified`. -/
def differs (saved : Json) : Option String → Bool
  | none => false
  | some current => saved.truthy && decide (current ≠ "") && !saved.eqStr current

/-- `JsonStateManager.validate_for_resume`. -/
def validateForResume (saved : Dict) (metadata : FileMetadata) (chunkSize : ℕ) : Bool :=
  (saved.get "total_size").eqInt metadata.totalSize && (saved.get "chunk_size").eqInt chunkSize &&
    !differs (saved.get "etag") metadata.etag &&
    !differs (saved.get "last_modified") metadata.lastModified

def optionalString : Option String → Json
  | none => .null
  | some s => .str s

/-- `JsonStateManager.build_fresh_state`. -/
def buildFreshState (metadata : FileMetadata) (chunkSize : ℕ) : Dict :=
  [("total_size", .int metadata.totalSize), ("chunk_size", .int chunkSize), ("completed", .arr []),
    ("etag", optionalString metadata.etag), ("last_modified", optionalString metadata.lastModified)]

theorem differs_self (s : Option String) : differs (optionalString s) s = false := by
  cases s with
  | none => rfl
  | some s => simp [differs, optionalString, Json.eqStr]

/-- A fresh state passes its own check. -/
theorem buildFreshState_valid (metadata : FileMetadata) (chunkSize : ℕ) :
    validateForResume (buildFreshState metadata chunkSize) metadata chunkSize = true := by
  have h1 : (buildFreshState metadata chunkSize).get "total_size" = .int metadata.totalSize := rfl
  have h2 : (buildFreshState metadata chunkSize).get "chunk_size" = .int chunkSize := rfl
  have h3 : (buildFreshState metadata chunkSize).get "etag" = optionalString metadata.etag := rfl
  have h4 : (buildFreshState metadata chunkSize).get "last_modified" =
      optionalString metadata.lastModified := rfl
  simp [validateForResume, h1, h2, h3, h4, differs_self]

/-- The completed list is no part of what is checked. -/
theorem validateForResume_set_completed (saved : Dict) (metadata : FileMetadata) (chunkSize : ℕ)
    (value : Json) : validateForResume (saved.set "completed" value) metadata chunkSize =
      validateForResume saved metadata chunkSize := by
  have h1 := saved.get_set_other value (show "total_size" ≠ "completed" by decide)
  have h2 := saved.get_set_other value (show "chunk_size" ≠ "completed" by decide)
  have h3 := saved.get_set_other value (show "etag" ≠ "completed" by decide)
  have h4 := saved.get_set_other value (show "last_modified" ≠ "completed" by decide)
  simp only [validateForResume, h1, h2, h3, h4]

end Mrdl.Session
