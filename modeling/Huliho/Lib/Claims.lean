import Mathlib.Data.List.Basic
import Mathlib.Data.List.Perm.Basic

/-!
# Claims on a pool

Items wait in a pool under keys that may repeat. A claim under a key takes an item of the key while
one waits and nothing otherwise. However the claims come and whichever item each takes, **each key
keeps as many items as the smaller of what waited and what claimed** (`Claims.counts`).
-/

namespace Huliho

variable {κ ι : Type*} [DecidableEq κ] {start kept pool rest : List (κ × ι)} {keys : List κ} {k : κ}
variable {i : ι}

/-- The pool behind the claims of `keys`: what they kept of it and what still waits. -/
structure Claims (start : List (κ × ι)) (keys : List κ) (kept pool : List (κ × ι)) : Prop where
  split : start.Perm (kept ++ pool)
  counts : ∀ k, kept.countP (·.1 = k) = min (start.countP (·.1 = k)) (keys.countP (· = k))

theorem Claims.refl (pool : List (κ × ι)) : Claims pool [] [] pool :=
  ⟨.refl _, fun _ => (Nat.min_zero _).symm⟩

theorem Claims.perm (h : Claims start keys kept pool) (hp : pool.Perm rest) :
    Claims start keys kept rest :=
  ⟨h.split.trans (hp.append_left _), h.counts⟩

/-- What waited of a key is kept or waits still. -/
theorem Claims.countP_start (h : Claims start keys kept pool) (k : κ) :
    start.countP (·.1 = k) = kept.countP (·.1 = k) + pool.countP (·.1 = k) := by
  rw [h.split.countP_eq, List.countP_append]

/-- A claim takes an item of its key. -/
theorem Claims.taken (h : Claims start keys kept pool) (hp : pool.Perm ((k, i) :: rest)) :
    Claims start (keys ++ [k]) (kept ++ [(k, i)]) rest := by
  refine ⟨?_, fun j => ?_⟩
  · rw [List.append_assoc, List.singleton_append]
    exact h.split.trans (hp.append_left _)
  · have hcounts := h.counts j
    have hstart := h.countP_start j
    rw [hp.countP_eq, List.countP_cons] at hstart
    rw [List.countP_append, List.countP_singleton, List.countP_append, List.countP_singleton]
    by_cases hj : k = j
    · simp only [hj, decide_true, if_true] at hstart ⊢
      omega
    · simp only [hj, decide_false, Bool.false_eq_true, if_false] at hstart ⊢
      omega

/-- A claim under a key of which nothing waits takes nothing. -/
theorem Claims.missed (h : Claims start keys kept pool) (hp : ∀ e ∈ pool, e.1 ≠ k) :
    Claims start (keys ++ [k]) kept pool := by
  refine ⟨h.split, fun j => ?_⟩
  have hcounts := h.counts j
  have hstart := h.countP_start j
  rw [List.countP_append, List.countP_singleton]
  by_cases hj : k = j
  · have hnone : pool.countP (·.1 = j) = 0 :=
      List.countP_eq_zero.2 fun e he => by simpa [← hj] using hp e he
    simp only [hj, decide_true, if_true]
    omega
  · simp only [hj, decide_false, Bool.false_eq_true, if_false]
    omega

end Huliho
