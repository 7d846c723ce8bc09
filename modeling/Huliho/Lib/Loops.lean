import Mathlib.Data.List.Basic

/-!
# Loops over a list

A `for` loop is a fold, and what carries its proof is an invariant over the accumulator **and the
items still to come**: `foldl_rest` for a loop that cannot fail, `foldlM_rest` for one that may.
`foldl_keeps` and `foldlM_keeps` are the cases in which the invariant does not look at the rest,
`foldlM_total` the one in which every turn goes through.
-/

namespace Huliho

variable {α β ε : Type}

/-- A loop that cannot fail: each turn takes the invariant from an item and the rest to the
rest. -/
theorem foldl_rest {P : List α → β → Prop} {f : β → α → β}
    (hstep : ∀ a l b, P (a :: l) b → P l (f b a)) :
    ∀ {l : List α} {b : β}, P l b → P [] (l.foldl f b) := by
  intro l
  induction l with
  | nil => exact fun h => h
  | cons a l ih =>
    intro b h
    exact ih (hstep a l b h)

/-- An invariant every turn keeps. -/
theorem foldl_keeps {P : β → Prop} {f : β → α → β} {l : List α} {b : β} (hb : P b)
    (hstep : ∀ a ∈ l, ∀ b, P b → P (f b a)) : P (l.foldl f b) := by
  refine foldl_rest (P := fun rest b => rest ⊆ l ∧ P b) (fun a rest b h => ?_)
    ⟨List.Subset.refl l, hb⟩ |>.2
  obtain ⟨hsub, hP⟩ := h
  rw [List.cons_subset] at hsub
  exact ⟨hsub.2, hstep a hsub.1 b hP⟩

/-- A loop that may fail: each turn that goes through takes the invariant from an item and the
rest to the rest. -/
theorem foldlM_rest {P : List α → β → Prop} {f : β → α → Except ε β}
    (hstep : ∀ a l b b', P (a :: l) b → f b a = .ok b' → P l b') :
    ∀ {l : List α} {b b' : β}, P l b → l.foldlM f b = .ok b' → P [] b' := by
  intro l
  induction l with
  | nil =>
    intro b b' h hf
    obtain rfl : b = b' := by simpa [pure, Except.pure] using hf
    exact h
  | cons a l ih =>
    intro b b' h hf
    rw [List.foldlM_cons] at hf
    cases h₁ : f b a with
    | error e => rw [h₁] at hf; cases hf
    | ok b₁ =>
      rw [h₁] at hf
      exact ih (hstep a l b b₁ h h₁) hf

/-- An invariant every turn that goes through keeps. -/
theorem foldlM_keeps {P : β → Prop} {f : β → α → Except ε β} {l : List α} {b b' : β} (hb : P b)
    (hstep : ∀ a ∈ l, ∀ b b', P b → f b a = .ok b' → P b') (hf : l.foldlM f b = .ok b') : P b' := by
  refine (foldlM_rest (P := fun rest b => rest ⊆ l ∧ P b) (fun a rest b b' h hb' => ?_)
    ⟨List.Subset.refl l, hb⟩ hf).2
  obtain ⟨hsub, hP⟩ := h
  rw [List.cons_subset] at hsub
  exact ⟨hsub.2, hstep a hsub.1 b b' hP hb'⟩

/-- A loop whose every turn goes through from the invariant goes through. -/
theorem foldlM_total {P : List α → β → Prop} {f : β → α → Except ε β}
    (hstep : ∀ a l b, P (a :: l) b → ∃ b', f b a = .ok b' ∧ P l b') :
    ∀ {l : List α} {b : β}, P l b → ∃ b', l.foldlM f b = .ok b' ∧ P [] b' := by
  intro l
  induction l with
  | nil => exact fun {b} h => ⟨b, rfl, h⟩
  | cons a l ih =>
    intro b h
    obtain ⟨b₁, hf, h₁⟩ := hstep a l b h
    obtain ⟨b', hl, h'⟩ := ih h₁
    refine ⟨b', ?_, h'⟩
    rw [List.foldlM_cons, hf]
    exact hl

end Huliho
