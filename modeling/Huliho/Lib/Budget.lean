import Mathlib.Algebra.GroupWithZero.Nat
import Mathlib.Data.List.Basic

/-!
# Programs on a budget

A `Budgeted` program takes from what is left, answers or fails, and hands on what it leaves; what it took
before it failed stays taken. `Gains x Q` says that what the program answers is a `Q` of what it took,
`Fails x E` that what it fails with is an `E`, and `Frugal x` that it leaves no more than it found. A
program is followed step by step: `Gains.bind`, `Fails.bind`, `Frugal.bind`.
-/

namespace Huliho

/-- A program that takes from a budget. -/
def Budgeted (ε α : Type) := Nat → Except ε α × Nat

namespace Budgeted

variable {ε α β : Type}

protected def pure (a : α) : Budgeted ε α := fun left => (.ok a, left)

protected def bind (x : Budgeted ε α) (f : α → Budgeted ε β) : Budgeted ε β := fun left =>
  match x left with
  | (.ok a, left) => f a left
  | (.error e, left) => (.error e, left)

instance : Monad (Budgeted ε) where
  pure := Budgeted.pure
  bind := Budgeted.bind

/-- The program that fails and takes nothing. -/
def fail (e : ε) : Budgeted ε α := fun left => (.error e, left)

/-- Takes a weight, or fails where it does not fit. -/
def take (weight : Nat) (e : ε) : Budgeted ε Unit := fun left =>
  if weight ≤ left then (.ok (), left - weight) else (.error e, left)

/-- What the program answers is a `Q` of what it took. -/
def Gains (x : Budgeted ε α) (Q : α → Nat → Prop) : Prop :=
  ∀ left a rest, x left = (.ok a, rest) → ∃ taken, taken + rest = left ∧ Q a taken

/-- What the program fails with is an `E`. -/
def Fails (x : Budgeted ε α) (E : ε → Prop) : Prop :=
  ∀ left e rest, x left = (.error e, rest) → E e

/-- The program leaves no more than it found. -/
def Frugal (x : Budgeted ε α) : Prop := ∀ left, (x left).2 ≤ left

section

variable {x : Budgeted ε α} {f : α → Budgeted ε β} {Q Q' : α → Nat → Prop} {R : β → Nat → Prop}
variable {E : ε → Prop} {a : α} {b : β} {e : ε} {left rest weight : Nat}

/-- A program of two steps answers what the second one does. -/
theorem bind_ok (h : (x >>= f) left = (.ok b, rest)) :
    ∃ a mid, x left = (.ok a, mid) ∧ f a mid = (.ok b, rest) := by
  change Budgeted.bind x f left = _ at h
  rw [Budgeted.bind] at h
  split at h
  · rename_i a mid hx
    exact ⟨a, mid, hx, h⟩
  · cases h

/-- A program of two steps fails in one of them. -/
theorem bind_error (h : (x >>= f) left = (.error e, rest)) :
    x left = (.error e, rest) ∨ ∃ a mid, x left = (.ok a, mid) ∧ f a mid = (.error e, rest) := by
  change Budgeted.bind x f left = _ at h
  rw [Budgeted.bind] at h
  split at h
  · rename_i a mid hx
    exact .inr ⟨a, mid, hx, h⟩
  · rename_i found mid hx
    cases h
    exact .inl hx

theorem Gains.bind (hx : Gains x Q)
    (hf : ∀ a spent, Q a spent → Gains (f a) fun b taken => R b (spent + taken)) :
    Gains (x >>= f) R := by
  intro left b rest h
  obtain ⟨a, mid, ha, hb⟩ := bind_ok h
  obtain ⟨spent, hspent, hQ⟩ := hx _ _ _ ha
  obtain ⟨taken, htaken, hR⟩ := hf a spent hQ _ _ _ hb
  exact ⟨spent + taken, by omega, hR⟩

theorem Gains.imp (hx : Gains x Q) (h : ∀ a taken, Q a taken → Q' a taken) : Gains x Q' := by
  intro left a rest ha
  obtain ⟨taken, htaken, hQ⟩ := hx _ _ _ ha
  exact ⟨taken, htaken, h a taken hQ⟩

theorem gains_pure (h : Q a 0) : Gains (pure a : Budgeted ε α) Q := by
  intro left b rest hb
  cases hb
  exact ⟨0, Nat.zero_add _, h⟩

theorem gains_fail : Gains (fail e : Budgeted ε α) Q := by
  intro left b rest hb
  cases hb

theorem gains_take : Gains (take weight e) fun _ taken => taken = weight := by
  intro left b rest hb
  rw [take] at hb
  split at hb
  · rename_i hfits
    cases hb
    exact ⟨weight, Nat.add_sub_cancel' hfits, rfl⟩
  · cases hb

theorem Fails.bind (hx : Fails x E) (hQ : Gains x Q) (hf : ∀ a taken, Q a taken → Fails (f a) E) :
    Fails (x >>= f) E := by
  intro left e rest h
  rcases bind_error h with h | ⟨a, mid, ha, h⟩
  · exact hx _ _ _ h
  · obtain ⟨taken, -, hQ⟩ := hQ _ _ _ ha
    exact hf a taken hQ _ _ _ h

theorem fails_pure : Fails (pure a : Budgeted ε α) E := by
  intro left e rest h
  cases h

theorem fails_fail (h : E e) : Fails (fail e : Budgeted ε α) E := by
  intro left found rest hfound
  cases hfound
  exact h

theorem fails_take (h : E e) : Fails (take weight e) E := by
  intro left found rest hfound
  rw [take] at hfound
  split at hfound
  · cases hfound
  · cases hfound
    exact h

theorem Frugal.bind (hx : Frugal x) (hf : ∀ a, Frugal (f a)) : Frugal (x >>= f) := by
  intro left
  have hfirst := hx left
  change (Budgeted.bind x f left).2 ≤ left
  rw [Budgeted.bind]
  split
  · rename_i a mid ha
    rw [ha] at hfirst
    exact Nat.le_trans (hf a mid) hfirst
  · rename_i e mid he
    rwa [he] at hfirst

theorem frugal_pure : Frugal (pure a : Budgeted ε α) := fun _ => Nat.le_refl _

theorem frugal_fail : Frugal (fail e : Budgeted ε α) := fun _ => Nat.le_refl _

theorem frugal_take : Frugal (take weight e) := by
  intro left
  rw [take]
  split
  · exact Nat.sub_le left weight
  · exact Nat.le_refl left

end

end Budgeted

end Huliho
