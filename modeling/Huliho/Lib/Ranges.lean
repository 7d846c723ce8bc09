import Mathlib.Algebra.GroupWithZero.Nat
import Mathlib.Data.List.Nodup

/-!
# Ranges of numbers

`dedup` takes the repetitions out of a list that stand side by side. `folded` reads a list of numbers
as ranges, a number one past the last joining its range; expanded, the ranges are the list again
(**`expand_folded`**).
-/

namespace Huliho

/-- A list without the repetitions that stand side by side. -/
def dedup {α : Type*} [DecidableEq α] : List α → List α
  | [] => []
  | [a] => [a]
  | a :: b :: l => if a = b then dedup (b :: l) else a :: dedup (b :: l)

section

variable {α : Type*} [DecidableEq α] {R : α → α → Prop}

theorem dedup_sublist : ∀ (l : List α), (dedup l).Sublist l
  | [] => .refl _
  | [_] => .refl _
  | a :: b :: l => by
    rw [dedup]
    split
    · exact (dedup_sublist (b :: l)).trans (List.sublist_cons_self a (b :: l))
    · exact (dedup_sublist (b :: l)).cons_cons a

theorem mem_dedup {a : α} : ∀ {l : List α}, a ∈ dedup l ↔ a ∈ l
  | [] => Iff.rfl
  | [_] => Iff.rfl
  | b :: c :: l => by
    rw [dedup]
    split
    · rename_i hsame
      rw [mem_dedup, hsame]
      simp
    · rw [List.mem_cons, mem_dedup, List.mem_cons (l := c :: l)]

/-- In an order no item comes back once another came. -/
theorem nodup_dedup (hR : ∀ a b, R a b → R b a → a = b) : ∀ {l : List α}, l.Pairwise R →
    (dedup l).Nodup
  | [], _ => List.nodup_nil
  | [_], _ => List.nodup_singleton _
  | a :: b :: l, h => by
    obtain ⟨ha, hrest⟩ := List.pairwise_cons.1 h
    rw [dedup]
    split
    · exact nodup_dedup hR hrest
    · rename_i hother
      refine List.nodup_cons.2 ⟨fun hin => ?_, nodup_dedup hR hrest⟩
      rcases List.mem_cons.1 (mem_dedup.1 hin) with rfl | hin
      · exact hother rfl
      · exact hother (hR a b (ha b List.mem_cons_self) ((List.pairwise_cons.1 hrest).1 a hin))

end

/-- The numbers of a range, both ends in it. -/
def spanned (range : Nat × Nat) : List Nat := List.range' range.1 (range.2 + 1 - range.1)

/-- A list as ranges, the last one still open. -/
def folded : List Nat → Option (Nat × Nat) → List (Nat × Nat)
  | [], run => run.toList
  | n :: rest, none => folded rest (some (n, n))
  | n :: rest, some run =>
    if run.2 + 1 = n then folded rest (some (run.1, n)) else run :: folded rest (some (n, n))

theorem mem_spanned {range : Nat × Nat} {n : Nat} :
    n ∈ spanned range ↔ range.1 ≤ n ∧ n ≤ range.2 := by
  rw [spanned, List.mem_range'_1]
  omega

theorem spanned_self (n : Nat) : spanned (n, n) = [n] := by
  rw [spanned, Nat.add_sub_cancel_left]
  rfl

theorem spanned_succ {a b : Nat} (h : a ≤ b + 1) : spanned (a, b + 1) = spanned (a, b) ++ [b + 1] := by
  have hwidth : b + 1 + 1 - a = (b + 1 - a) + 1 := by omega
  rw [spanned, spanned]
  dsimp only
  rw [hwidth, List.range'_1_concat]
  congr 2
  omega

/-- **The ranges of a list, expanded, are the list.** -/
theorem expand_folded (l : List Nat) (run : Option (Nat × Nat)) (h : ∀ r ∈ run, r.1 ≤ r.2) :
    (folded l run).flatMap spanned = run.toList.flatMap spanned ++ l ∧
      ∀ r ∈ folded l run, r.1 ≤ r.2 := by
  induction l generalizing run with
  | nil =>
    refine ⟨(List.append_nil _).symm, fun r hr => h r ?_⟩
    exact Option.mem_toList.1 hr
  | cons n rest ih =>
    cases run with
    | none =>
      obtain ⟨hexpand, hordered⟩ := ih (some (n, n)) (by rintro _ ⟨⟩; exact Nat.le_refl n)
      refine ⟨hexpand.trans ?_, hordered⟩
      simp [spanned_self]
    | some run =>
      have hrun := h run rfl
      rw [folded]
      split
      · rename_i hnext
        subst hnext
        obtain ⟨hexpand, hordered⟩ := ih (some (run.1, run.2 + 1))
          (by rintro _ ⟨⟩; exact Nat.le_succ_of_le hrun)
        refine ⟨hexpand.trans ?_, hordered⟩
        simp [spanned_succ (Nat.le_succ_of_le hrun)]
      · obtain ⟨hexpand, hordered⟩ := ih (some (n, n)) (by rintro _ ⟨⟩; exact Nat.le_refl n)
        refine ⟨?_, fun r hr => ?_⟩
        · rw [List.flatMap_cons, hexpand]
          simp [spanned_self]
        · rcases List.mem_cons.1 hr with rfl | hr
          · exact hrun
          · exact hordered r hr

end Huliho
