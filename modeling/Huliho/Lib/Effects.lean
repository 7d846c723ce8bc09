import Mathlib.Logic.Basic

/-!
# Programs that keep an invariant

`Gives P x Q`: the program `x` keeps the invariant `P` of its state, and what it answers is a `Q`. A
program is followed step by step: `gives_bind` hands the answer of a step to the next one.
-/

namespace Huliho

variable {σ α β : Type} {P : σ → Prop} {Q : α → Prop} {R : β → Prop}

/-- The program keeps the invariant and answers a `Q`. -/
def Gives (P : σ → Prop) (x : StateM σ α) (Q : α → Prop) : Prop :=
  ∀ s, P s → Q (x.run s).1 ∧ P (x.run s).2

theorem gives_pure {a : α} (h : Q a) : Gives P (pure a) Q := fun _ hs => ⟨h, hs⟩

theorem gives_bind {x : StateM σ α} {f : α → StateM σ β} (hx : Gives P x Q)
    (hf : ∀ a, Q a → Gives P (f a) R) : Gives P (x >>= f) R := by
  intro s hs
  obtain ⟨ha, hs⟩ := hx s hs
  exact hf _ ha _ hs

theorem Gives.weaken {x : StateM σ α} {Q' : α → Prop} (h : Gives P x Q) (hQ : ∀ a, Q a → Q' a) :
    Gives P x Q' := fun s hs => ⟨hQ _ (h s hs).1, (h s hs).2⟩

theorem gives_modify {f : σ → σ} (h : ∀ s, P s → P (f s)) :
    Gives P (modify f : StateM σ PUnit) fun _ => True := fun s hs => ⟨trivial, h s hs⟩

theorem gives_modifyGet {f : σ → α × σ} (h : ∀ s, P s → Q (f s).1 ∧ P (f s).2) :
    Gives P (modifyGet f : StateM σ α) Q := h

end Huliho
