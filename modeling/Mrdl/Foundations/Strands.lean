import Mathlib.Data.List.Basic

/-! # Interleavings

An interleaving is a list of entries, each with the strand it belongs to. Two interleavings of the same
strands can differ in any pair of entries from different strands; what depends on the entries of one
strand only is the same in both (`filter_eq_of_strands`).
-/

namespace Mrdl.Strands
set_option autoImplicit false

variable {ι β : Type*} [DecidableEq ι]

/-- What `p` contributes to an interleaving. -/
def strand (p : ι) (l : List (ι × β)) : List β := (l.filter fun x => x.1 = p).map Prod.snd

@[simp] theorem strand_nil (p : ι) : strand p ([] : List (ι × β)) = [] := rfl

@[simp] theorem strand_append (p : ι) (l m : List (ι × β)) :
    strand p (l ++ m) = strand p l ++ strand p m := by
  simp only [strand, List.filter_append, List.map_append]

@[simp] theorem strand_self (p : ι) (b : β) : strand p [(p, b)] = [b] := by simp [strand]

theorem strand_other {p q : ι} (h : q ≠ p) (b : β) : strand p [(q, b)] = [] := by simp [strand, h]

theorem strand_snoc (p q : ι) (l : List (ι × β)) (b : β) :
    strand q (l ++ [(p, b)]) = strand q l ++ if q = p then [b] else [] := by
  rw [strand_append]
  split
  · rename_i h
    rw [h, strand_self]
  · rename_i h
    rw [strand_other (Ne.symm h)]

theorem mem_strand {p : ι} {b : β} {l : List (ι × β)} : b ∈ strand p l ↔ (p, b) ∈ l := by
  simp only [strand, List.mem_map, List.mem_filter, decide_eq_true_eq]
  constructor
  · rintro ⟨⟨q, c⟩, ⟨hmem, rfl⟩, rfl⟩
    exact hmem
  · exact fun h => ⟨(p, b), ⟨h, rfl⟩, rfl⟩

theorem mem_entries {b : β} {l : List (ι × β)} : b ∈ l.map Prod.snd ↔ ∃ p, b ∈ strand p l := by
  simp only [mem_strand, List.mem_map, Prod.exists, exists_eq_right]

theorem filter_strand {P : β → Prop} [DecidablePred P] {p : ι} {l : List (ι × β)}
    (h : ∀ x ∈ l, P x.2 → x.1 = p) : (l.map Prod.snd).filter P = (strand p l).filter P := by
  induction l with
  | nil => rfl
  | cons x l ih =>
    have hrest := ih fun y hy => h y (List.mem_cons_of_mem x hy)
    have hx := h x (List.mem_cons_self ..)
    by_cases hp : x.1 = p
    · simp only [strand, List.map_cons, List.filter_cons, hp, decide_true, if_true] at hrest ⊢
      rw [hrest]
    · have hno : ¬ P x.2 := fun hP => hp (hx hP)
      simp only [strand, List.map_cons, List.filter_cons, hp, hno, decide_false, Bool.false_eq_true,
        if_false] at hrest ⊢
      exact hrest

/-- The entries that meet a condition which no two strands share come in the same order in every
interleaving. -/
theorem filter_eq_of_strands {P : β → Prop} [DecidablePred P] {l m : List (ι × β)}
    (hsame : ∀ p, strand p l = strand p m)
    (hown : ∀ p q, ∀ b ∈ strand p l, ∀ c ∈ strand q l, P b → P c → p = q) :
    (l.map Prod.snd).filter P = (m.map Prod.snd).filter P := by
  by_cases hex : ∃ p, ∃ b ∈ strand p l, P b
  · obtain ⟨p, b, hb, hPb⟩ := hex
    have hl : ∀ x ∈ l, P x.2 → x.1 = p := fun x hx hPx =>
      hown x.1 p x.2 (mem_strand.mpr hx) b hb hPx hPb
    have hm : ∀ x ∈ m, P x.2 → x.1 = p := fun x hx hPx =>
      hown x.1 p x.2 (hsame x.1 ▸ mem_strand.mpr hx) b hb hPx hPb
    rw [filter_strand hl, filter_strand hm, hsame]
  · have hnone : ∀ k : List (ι × β), (∀ p, strand p k = strand p l) → (k.map Prod.snd).filter P = [] := by
      intro k hk
      rw [List.filter_eq_nil_iff]
      intro b hb
      obtain ⟨p, hp⟩ := mem_entries.mp hb
      simp only [decide_eq_true_eq]
      exact fun hP => hex ⟨p, b, hk p ▸ hp, hP⟩
    rw [hnone l fun _ => rfl, hnone m fun p => (hsame p).symm]

end Mrdl.Strands
