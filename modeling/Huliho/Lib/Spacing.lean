import Mathlib.Data.List.Basic
import Mathlib.Data.List.Induction
import Mathlib.Data.List.Pairwise
import Mathlib.Order.Nat

/-!
# Points a distance apart

How many points of a sorted list can be chosen that lie pairwise a distance apart? Going through
the list and taking each point far enough from the last one taken gives as many as any choice
(`Greedy.length_le`), since the last point taken never lies past the last of another choice of the
same length. `chosen_iff_greedy` is the count that comes of it.
-/

namespace Huliho

/-- Two points at least a distance apart. -/
def Spaced (distance a b : Nat) : Prop := a + distance ≤ b ∨ b + distance ≤ a

instance (distance a b : Nat) : Decidable (Spaced distance a b) :=
  inferInstanceAs (Decidable (_ ∨ _))

/-- The points taken so far and the last one taken. -/
def greedy (distance : Nat) : Option (Nat × Nat) → Nat → Option (Nat × Nat)
  | none, point => some (1, point)
  | some (taken, last), point =>
    if point - last < distance then some (taken, last) else some (taken + 1, point)

/-- How many points were taken. -/
def takenOf (state : Option (Nat × Nat)) : Nat := (state.map Prod.fst).getD 0

section Greedy

variable {distance : Nat} {points chosen : List Nat}

/-- In a sorted list the later of two points apart lies past the earlier. -/
theorem Spaced.le_of_le {a b : Nat} (h : Spaced distance a b) (hle : a ≤ b) : a + distance ≤ b := by
  unfold Spaced at h
  omega

/-- The points taken are a choice of points apart, the last one taken its last. -/
theorem greedy_feasible (hsorted : points.Pairwise (· ≤ ·)) {taken last : Nat}
    (h : points.foldl (greedy distance) none = some (taken, last)) :
    ∃ chosen : List Nat, chosen.Sublist points ∧ chosen.Pairwise (fun a b => a + distance ≤ b) ∧
      chosen.length = taken ∧ chosen.getLast? = some last := by
  induction points using List.reverseRecOn generalizing taken last with
  | nil => cases h
  | append_singleton points point ih =>
    obtain ⟨hsorted, -, hafter⟩ := List.pairwise_append.1 hsorted
    rw [List.foldl_concat] at h
    cases hbefore : points.foldl (greedy distance) none with
    | none =>
      rw [hbefore] at h
      obtain ⟨rfl, rfl⟩ := Prod.mk.inj (Option.some.inj h)
      exact ⟨[point], List.sublist_append_right _ _, List.pairwise_singleton _ _, rfl, rfl⟩
    | some state =>
      obtain ⟨before, previous⟩ := state
      obtain ⟨chosen, hsub, hspaced, hlen, hlast⟩ := ih hsorted hbefore
      rw [hbefore, greedy] at h
      split at h
      · obtain ⟨rfl, rfl⟩ := Prod.mk.inj (Option.some.inj h)
        exact ⟨chosen, hsub.trans (List.sublist_append_left _ _), hspaced, hlen, hlast⟩
      · rename_i hfar
        obtain ⟨rfl, rfl⟩ := Prod.mk.inj (Option.some.inj h)
        have hmem := List.mem_of_getLast? hlast
        have hle := hafter previous (hsub.subset hmem) point (by simp)
        refine ⟨chosen ++ [point], hsub.append (List.Sublist.refl _), ?_, by simp [hlen], by simp⟩
        refine List.pairwise_append.2 ⟨hspaced, List.pairwise_singleton _ _, fun a ha b hb => ?_⟩
        -- Every point chosen before lies at or before the last of them.
        have hprevious : a ≤ previous := by
          obtain ⟨front, rfl⟩ : ∃ front, chosen = front ++ [previous] :=
            List.getLast?_eq_some_iff.1 hlast
          rcases List.mem_append.1 ha with ha | ha
          · have := (List.pairwise_append.1 hspaced).2.2 a ha previous (by simp)
            omega
          · exact le_of_eq (List.mem_singleton.1 ha)
        rw [List.mem_singleton.1 hb]
        omega

/-- **No choice has more points than are taken**, and one with as many ends no earlier. -/
theorem greedy_optimal (hsorted : points.Pairwise (· ≤ ·)) (hsub : chosen.Sublist points)
    (hapart : chosen.Pairwise (Spaced distance)) :
    chosen.length ≤ takenOf (points.foldl (greedy distance) none) ∧
      ∀ taken last, points.foldl (greedy distance) none = some (taken, last) →
        chosen.length = taken → ∀ final ∈ chosen.getLast?, last ≤ final := by
  induction points using List.reverseRecOn generalizing chosen with
  | nil =>
    rw [List.sublist_nil.1 hsub]
    exact ⟨le_refl _, fun _ _ h => (by cases h)⟩
  | append_singleton points point ih =>
    obtain ⟨hsorted, -, hafter⟩ := List.pairwise_append.1 hsorted
    rw [List.foldl_concat]
    obtain ⟨front, back, rfl, hfront, hback⟩ := List.sublist_append_iff.1 hsub
    obtain ⟨hspaced, -, hcross⟩ := List.pairwise_append.1 hapart
    obtain ⟨hfew, hearly⟩ := ih hsorted hfront hspaced
    cases hbefore : points.foldl (greedy distance) none with
    | none =>
      rw [hbefore] at hfew
      have hempty : front = [] := List.length_eq_zero_iff.1 (Nat.le_zero.1 hfew)
      have hlen := hback.length_le
      rw [hempty, List.nil_append]
      refine ⟨hlen, fun taken last h _ final hfinal => ?_⟩
      obtain ⟨-, rfl⟩ := Prod.mk.inj (Option.some.inj h)
      exact le_of_eq (List.mem_singleton.1 (hback.subset (List.mem_of_getLast? hfinal))).symm
    | some state =>
      obtain ⟨before, previous⟩ := state
      rw [hbefore] at hfew
      have hfew : front.length ≤ before := hfew
      have hearly := hearly before previous hbefore
      obtain ⟨taken, htaken, -, hlen, hlast⟩ := greedy_feasible hsorted hbefore
      have hprevious : previous ∈ taken := List.mem_of_getLast? hlast
      rcases List.sublist_singleton.1 hback with rfl | rfl
      · -- The new point is not chosen.
        rw [List.append_nil, greedy]
        split
        · refine ⟨hfew, fun taken last h hlen => ?_⟩
          obtain ⟨rfl, rfl⟩ := Prod.mk.inj (Option.some.inj h)
          exact hearly hlen
        · refine ⟨Nat.le_succ_of_le hfew, fun taken last h hlen => ?_⟩
          obtain ⟨rfl, -⟩ := Prod.mk.inj (Option.some.inj h)
          omega
      · rw [List.length_append, List.length_singleton, List.getLast?_concat]
        rw [greedy]
        split
        · -- It is too close to the last one taken, so a choice that ends in it is no longer.
          rename_i hclose
          have hshort : front.length < before := by
            refine lt_of_le_of_ne hfew fun hlen => ?_
            cases hlast : front.getLast? with
            | none =>
              rw [List.getLast?_eq_none_iff.1 hlast, List.length_nil] at hlen
              have := List.length_pos_of_mem hprevious
              omega
            | some final =>
              have hmem := List.mem_of_getLast? hlast
              have hle := hafter final (hfront.subset hmem) point (by simp)
              have hfar := (hcross final hmem point (by simp)).le_of_le hle
              have := hearly hlen final hlast
              omega
          refine ⟨hshort, fun taken last h hlen final hfinal => ?_⟩
          obtain ⟨rfl, rfl⟩ := Prod.mk.inj (Option.some.inj h)
          rw [← Option.some.inj hfinal]
          exact hafter previous (htaken.subset hprevious) point (by simp)
        · refine ⟨Nat.succ_le_succ hfew, fun taken last h _ final hfinal => ?_⟩
          obtain ⟨-, rfl⟩ := Prod.mk.inj (Option.some.inj h)
          exact le_of_eq (Option.some.inj hfinal)

/-- **So many points apart can be chosen exactly where so many are taken.** -/
theorem chosen_iff_greedy (hsorted : points.Pairwise (· ≤ ·)) {count : Nat} :
    (∃ chosen : List Nat, chosen.Sublist points ∧ chosen.length = count ∧
      chosen.Pairwise (Spaced distance)) ↔
      count ≤ takenOf (points.foldl (greedy distance) none) := by
  constructor
  · rintro ⟨chosen, hsub, rfl, hapart⟩
    exact (greedy_optimal hsorted hsub hapart).1
  · intro hcount
    cases hstate : points.foldl (greedy distance) none with
    | none =>
      rw [hstate] at hcount
      exact ⟨[], List.nil_sublist _, (Nat.le_zero.1 hcount).symm, List.Pairwise.nil⟩
    | some state =>
      rw [hstate] at hcount
      obtain ⟨chosen, hsub, hspaced, hlen, -⟩ := greedy_feasible hsorted hstate
      have hcount : count ≤ state.1 := hcount
      refine ⟨chosen.take count, (List.take_sublist _ _).trans hsub, by simp [hlen, hcount], ?_⟩
      exact (hspaced.sublist (List.take_sublist _ _)).imp fun h => .inl h

end Greedy

end Huliho
