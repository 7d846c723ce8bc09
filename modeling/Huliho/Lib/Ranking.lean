import Mathlib.Data.List.Sort

/-!
# Rows in a strict order

Rows are listed by a place each has, in a strict total order `r` of the places. Where no two rows
share a place the list is settled by its members (`List.Pairwise.eq_of_mem_iff`), and the ways a
query counts agree: the number of a row is the number of rows ahead of it
(**`findIdx?_eq_countP`**), and the first row is the one no row is ahead of (**`mem_zipIdx_one`**).
-/

namespace Huliho

variable {α ρ κ : Type} {r : α → α → Prop} [IsStrictTotalOrder α r]

/-- Sorted, the rows of a list no two of which share a place stand strictly. -/
theorem pairwise_sorted {f : ρ → α} {le : ρ → ρ → Prop} [DecidableRel le]
    (hle : ∀ a b, le a b ↔ ¬ r (f b) (f a)) {l : List ρ} (hl : (l.map f).Nodup) :
    ((l.insertionSort le).map f).Pairwise r := by
  have htotal : Std.Total le := ⟨fun a b => by
    rw [hle, hle, ← not_and_or]
    exact fun h => asymm_of r h.1 h.2⟩
  have htrans : IsTrans ρ le := ⟨fun a b c hab hbc => by
    rw [hle] at hab hbc ⊢
    intro hca
    rcases trichotomous_of r (f a) (f b) with h | h | h
    · exact hbc (trans_of r hca h)
    · exact hbc (h ▸ hca)
    · exact hab h⟩
  have hsorted := List.pairwise_insertionSort le l
  have hnodup : ((l.insertionSort le).map f).Nodup :=
    ((List.perm_insertionSort le l).map f).nodup_iff.2 hl
  rw [List.Nodup, List.pairwise_map] at hnodup
  rw [List.pairwise_map]
  refine (hsorted.and hnodup).imp fun {a b} h => ?_
  rcases trichotomous_of r (f a) (f b) with hab | hab | hab
  · exact hab
  · exact absurd hab h.2
  · exact absurd hab ((hle a b).1 h.1)

/-- **The index of a row is the number of rows ahead of it.** -/
theorem findIdx?_eq_countP [DecidableRel r] [DecidableEq κ] {g : α → κ} {x : α} :
    ∀ {l : List α}, l.Pairwise r → (∀ a ∈ l, ∀ b ∈ l, g a = g b → a = b) → x ∈ l →
      l.findIdx? (fun a => g a = g x) = some (l.countP fun a => r a x) := by
  intro l
  induction l with
  | nil => exact fun _ _ h => absurd h List.not_mem_nil
  | cons y l ih =>
    intro hl hg hx
    obtain ⟨hy, hl⟩ := List.pairwise_cons.1 hl
    by_cases hxy : x = y
    · subst hxy
      have hnone : l.countP (fun a => r a x) = 0 := by
        rw [List.countP_eq_zero]
        intro a ha hc
        exact asymm_of r (hy a ha) (of_decide_eq_true hc)
      rw [List.findIdx?_cons, List.countP_cons_of_neg (by simp [irrefl_of r x]), hnone]
      simp
    · have hmem : x ∈ l := (List.mem_cons.1 hx).resolve_left hxy
      have hne : g y ≠ g x := fun hc =>
        hxy (hg y List.mem_cons_self x hx hc).symm
      rw [List.findIdx?_cons, List.countP_cons_of_pos (by simpa using hy x hmem),
        ih hl (fun a ha b hb => hg a (.tail _ ha) b (.tail _ hb)) hmem]
      simp [hne]

/-- Counted from one on, a row's number is one past its index. -/
theorem find?_zipIdx (p : ρ → Bool) (l : List ρ) (k : Nat) :
    ((l.zipIdx (k + 1)).find? fun (x, _) => p x).map (fun (_, number) => number - 1) =
      (l.findIdx? p).map (· + k) := by
  induction l generalizing k with
  | nil => rfl
  | cons y l ih =>
    rw [List.zipIdx_cons, List.findIdx?_cons, List.find?_cons]
    by_cases hy : p y
    · simp [hy]
    · simp only [hy, Bool.false_eq_true, if_false]
      rw [ih, Option.map_map]
      congr 1
      funext n
      simp only [Function.comp_apply]
      omega

/-- **The first row is the one no row is ahead of.** -/
theorem mem_zipIdx_one {f : ρ → α} {x : ρ} {l : List ρ} (hl : (l.map f).Pairwise r) :
    (x, 1) ∈ l.zipIdx 1 ↔ x ∈ l ∧ ∀ y ∈ l, ¬ r (f y) (f x) := by
  cases l with
  | nil => simp
  | cons y l =>
    rw [List.map_cons, List.pairwise_cons] at hl
    have hlater : (x, 1) ∉ l.zipIdx 2 := fun hc => by
      have := (List.mem_zipIdx hc).1
      omega
    rw [List.zipIdx_cons, List.mem_cons, or_iff_left hlater, Prod.mk.injEq]
    constructor
    · rintro ⟨rfl, -⟩
      refine ⟨List.mem_cons_self, fun z hz => ?_⟩
      rcases List.mem_cons.1 hz with rfl | hz
      · exact irrefl_of r _
      · exact asymm_of r (hl.1 _ (List.mem_map_of_mem hz))
    · rintro ⟨hx, hfirst⟩
      refine ⟨?_, rfl⟩
      rcases List.mem_cons.1 hx with hx | hx
      · exact hx
      · exact absurd (hl.1 _ (List.mem_map_of_mem hx)) (hfirst y List.mem_cons_self)

end Huliho
