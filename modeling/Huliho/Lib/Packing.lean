import Mathlib.Algebra.GroupWithZero.Nat
import Mathlib.Data.List.Basic

/-!
# Items packed into runs

`packed bound weight` cuts a list into runs, each taking items for as long as their weights stay within
the bound. Put together again the runs are the list (**`flatten_packed`**), none is empty, and where
every item fits alone no run passes the bound (**`sum_packed_le`**). An item that does not fit alone is
a run of its own.
-/

namespace Huliho

variable {α : Type*} {bound : Nat} {weight : α → Nat}

/-- The rest of a list in runs, behind those the run being filled holds. -/
def packing (bound : Nat) (weight : α → Nat) : List α → List α → List (List α)
  | [], run => if run = [] then [] else [run]
  | item :: items, run =>
    if bound < (run.map weight).sum + weight item ∧ run ≠ [] then
      run :: packing bound weight items [item]
    else packing bound weight items (run ++ [item])

def packed (bound : Nat) (weight : α → Nat) (items : List α) : List (List α) :=
  packing bound weight items []

theorem flatten_packing (items run : List α) :
    (packing bound weight items run).flatten = run ++ items := by
  induction items generalizing run with
  | nil =>
    rw [packing]
    split
    · rename_i hnil
      rw [hnil]
      rfl
    · simp
  | cons item items ih =>
    rw [packing]
    split
    · rw [List.flatten_cons, ih, List.singleton_append]
    · rw [ih, List.append_assoc, List.singleton_append]

/-- **The runs are the list, in order.** -/
theorem flatten_packed (items : List α) : (packed bound weight items).flatten = items :=
  flatten_packing items []

theorem packing_ne_nil {items run part : List α} (h : part ∈ packing bound weight items run) :
    part ≠ [] := by
  induction items generalizing run with
  | nil =>
    rw [packing] at h
    split at h
    · exact absurd h List.not_mem_nil
    · rename_i hrun
      rwa [List.mem_singleton.1 h]
  | cons item items ih =>
    rw [packing] at h
    split at h
    · rename_i hfull
      rcases List.mem_cons.1 h with rfl | h
      · exact hfull.2
      · exact ih h
    · exact ih h

theorem packed_ne_nil {items part : List α} (h : part ∈ packed bound weight items) : part ≠ [] :=
  packing_ne_nil h

theorem sum_packing_le {items run part : List α} (hitems : ∀ item ∈ items, weight item ≤ bound)
    (hrun : (run.map weight).sum ≤ bound) (h : part ∈ packing bound weight items run) :
    (part.map weight).sum ≤ bound := by
  induction items generalizing run with
  | nil =>
    rw [packing] at h
    split at h
    · exact absurd h List.not_mem_nil
    · rwa [List.mem_singleton.1 h]
  | cons item items ih =>
    obtain ⟨hitem, hrest⟩ := List.forall_mem_cons.1 hitems
    rw [packing] at h
    split at h
    · rcases List.mem_cons.1 h with rfl | h
      · exact hrun
      · exact ih hrest (by simpa using hitem) h
    · rename_i hroom
      refine ih hrest ?_ h
      rw [List.map_append, List.sum_append, List.map_singleton, List.sum_singleton]
      by_cases hnone : run = []
      · subst hnone
        rw [List.map_nil, List.sum_nil, Nat.zero_add]
        exact hitem
      · exact Nat.le_of_not_lt fun hover => hroom ⟨hover, hnone⟩

/-- **No run passes the bound where every item fits alone.** -/
theorem sum_packed_le {items part : List α} (hitems : ∀ item ∈ items, weight item ≤ bound)
    (h : part ∈ packed bound weight items) : (part.map weight).sum ≤ bound :=
  sum_packing_le hitems (Nat.zero_le _) h

theorem subset_packed {items part : List α} (h : part ∈ packed bound weight items) :
    part ⊆ items := by
  intro item hitem
  have hin : item ∈ (packed bound weight items).flatten := List.mem_flatten.2 ⟨part, h, hitem⟩
  rwa [flatten_packed] at hin

end Huliho
