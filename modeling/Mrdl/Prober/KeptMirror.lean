import Mathlib.Data.List.Perm.Basic
import Mrdl.Prober.Core
import Mrdl.Session.Core

/-! # The mirror of single-task mode

The race reports a size and not whose it is. Where the run falls back to a single task, the mirror is
chosen by its place in the list.
-/

namespace Mrdl.Prober
open Session
set_option autoImplicit false

/-- The run falls back to a single task. -/
def SingleTask (m : FileMetadata) : Prop := m.totalSize = 0 ∨ m.acceptsRanges = false

/-- A probe of this URL came to the metadata. -/
def OwnProbe (urls : List String) (results : ℕ → Option FileMetadata) (m : FileMetadata) (url : String) :
    Prop :=
  ∃ i : ℕ, urls[i]? = some url ∧ results i = some m

theorem applyProbeFallback_urls {cfg : DownloadConfig} {m : FileMetadata} {url : String}
    (hsingle : SingleTask m) (hfirst : cfg.urls[0]? = some url) :
    (applyProbeFallback cfg m).urls = [url] := by
  have hsingle' : m.totalSize = 0 ∨ m.acceptsRanges = false := hsingle
  rw [applyProbeFallback, if_pos hsingle']
  cases hurls : cfg.urls with
  | nil => simp [hurls] at hfirst
  | cons first rest => simpa [hurls] using hfirst

/-- The mirror that is kept is one whose probe came to the metadata, exactly when a probe of the first
mirror in the list came to the same as the probe that decides. -/
theorem kept_mirror_iff (cfg : DownloadConfig) (results : ℕ → Option FileMetadata) (order : List ℕ)
    (horder : order.Perm (List.range cfg.urls.length)) :
    (∀ m, probe cfg.urls results order = .ok m → SingleTask m →
      ∃ url, (applyProbeFallback cfg m).urls = [url] ∧ OwnProbe cfg.urls results m url) ↔
    ∀ j m, decider results order = some j → results j = some m → SingleTask m →
      ∃ i < cfg.urls.length, cfg.urls[i]? = cfg.urls[0]? ∧ results i = some m := by
  simp only [probe_eq_ok_iff]
  by_cases hurls : cfg.urls = []
  · rw [hurls, List.length_nil, List.range_zero, List.perm_nil] at horder
    simp [hurls, horder, decider]
  obtain ⟨first, hfirst⟩ : ∃ first, cfg.urls[0]? = some first :=
    ⟨_, List.getElem?_eq_getElem (List.length_pos_iff.mpr hurls)⟩
  constructor
  · intro h j m hj hm hsingle
    obtain ⟨url, hkept, i, hi, hresult⟩ := h m ⟨hurls, j, hj, hm⟩ hsingle
    rw [applyProbeFallback_urls hsingle hfirst, List.singleton_inj] at hkept
    refine ⟨i, (List.getElem?_eq_some_iff.mp hi).1, ?_, hresult⟩
    rw [hi, hfirst, hkept]
  · rintro h m ⟨-, j, hj, hm⟩ hsingle
    obtain ⟨i, -, hi, hresult⟩ := h j m hj hm hsingle
    exact ⟨first, applyProbeFallback_urls hsingle hfirst, i, hi.trans hfirst, hresult⟩

/-- The results of two mirrors. -/
def twoMirrors (first second : Option FileMetadata) : ℕ → Option FileMetadata
  | 0 => first
  | 1 => second
  | _ => none

/-- The first mirror is gone and the second one knows no ranges: the first one is kept. -/
theorem dead_mirror_kept :
    ¬ ∀ m, probe ["a", "b"] (twoMirrors none (some ⟨5, false, none, none⟩)) [0, 1] = .ok m →
      SingleTask m → ∃ url, (applyProbeFallback { urls := ["a", "b"] } m).urls = [url] ∧
        OwnProbe ["a", "b"] (twoMirrors none (some ⟨5, false, none, none⟩)) m url := by
  intro h
  obtain ⟨url, hkept, i, hi, hresult⟩ := h ⟨5, false, none, none⟩ rfl (.inr rfl)
  have hurl : "a" = url := List.singleton_inj.mp hkept
  subst hurl
  match i with
  | 0 => cases hresult
  | 1 => exact absurd hi (by decide)
  | _ + 2 => cases hresult

/-- The first mirror is the only one to answer, after the other one has failed. -/
theorem first_mirror_kept :
    ∃ url, (applyProbeFallback { urls := ["a", "b"] } ⟨5, false, none, none⟩).urls = [url] ∧
      OwnProbe ["a", "b"] (twoMirrors (some ⟨5, false, none, none⟩) none) ⟨5, false, none, none⟩ url := by
  refine (kept_mirror_iff { urls := ["a", "b"] } (twoMirrors (some ⟨5, false, none, none⟩) none) [1, 0]
    (by decide)).mpr ?_ ⟨5, false, none, none⟩ rfl (.inr rfl)
  intro j m hj hm _
  have hzero : 0 = j := Option.some.inj hj
  subst hzero
  exact ⟨0, by decide, rfl, hm⟩

end Mrdl.Prober
