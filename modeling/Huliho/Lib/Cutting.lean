import Mathlib.Data.List.Basic
import Mathlib.Order.Nat

/-!
# A list in blocks

`inBlocks n` cuts a list into blocks of `n`; only the last may be shorter, and it is empty only where
the list is. The blocks are the list again (**`flatten_inBlocks`**), `length_inBlocks` counts them and
`getElem?_inBlocks` says what each holds. A list that arrives piece by piece may be cut as it comes,
as long as something follows the block that is cut (**`inBlocks_append`**).
-/

namespace Huliho

variable {α : Type*} {n : Nat} {l : List α}

/-- The list in blocks of `n`, the last of which holds the rest. -/
def inBlocks (n : Nat) (l : List α) : List (List α) :=
  if h : 0 < n ∧ n < l.length then l.take n :: inBlocks n (l.drop n) else [l]
termination_by l.length
decreasing_by
  rw [List.length_drop]
  omega

theorem inBlocks_of_le (h : l.length ≤ n) : inBlocks n l = [l] := by
  rw [inBlocks, dif_neg fun hlong => absurd hlong.2 (Nat.not_lt.2 h)]

theorem inBlocks_of_lt (hn : 0 < n) (h : n < l.length) :
    inBlocks n l = l.take n :: inBlocks n (l.drop n) := by
  rw [inBlocks, dif_pos ⟨hn, h⟩]

theorem inBlocks_ne_nil : inBlocks n l ≠ [] := by
  rw [inBlocks]
  split <;> exact List.cons_ne_nil _ _

/-- **A block may be cut off as soon as something follows it.** -/
theorem inBlocks_append {block rest : List α} (hn : 0 < n) (hblock : block.length = n)
    (hrest : rest ≠ []) : inBlocks n (block ++ rest) = block :: inBlocks n rest := by
  have hlong : n < (block ++ rest).length := by
    have hpos := List.length_pos_of_ne_nil hrest
    rw [List.length_append]
    omega
  rw [inBlocks_of_lt hn hlong, List.take_left' hblock, List.drop_left' hblock]

/-- **The blocks are the list.** -/
theorem flatten_inBlocks (l : List α) : (inBlocks n l).flatten = l := by
  induction l using inBlocks.induct n with
  | case1 l hlong ih =>
    rw [inBlocks_of_lt hlong.1 hlong.2, List.flatten_cons, ih, List.take_append_drop]
  | case2 l hshort =>
    rw [inBlocks, dif_neg hshort, List.flatten_cons, List.flatten_nil, List.append_nil]

/-- As many blocks as the list fills, its end counted, and one at least. -/
theorem length_inBlocks (hn : 0 < n) (l : List α) :
    (inBlocks n l).length = max 1 ((l.length + n - 1) / n) := by
  induction l using inBlocks.induct n with
  | case1 l hlong ih =>
    obtain ⟨-, hlt⟩ := hlong
    have hcarry : l.length + n - 1 = (l.length - n + n - 1) + n := by omega
    have hone : 1 ≤ (l.length - n + n - 1) / n := (Nat.le_div_iff_mul_le hn).2 (by omega)
    rw [inBlocks_of_lt hn hlt, List.length_cons, ih, List.length_drop, hcarry,
      Nat.add_div_right _ hn]
    omega
  | case2 l hshort =>
    have hle : l.length ≤ n := Nat.not_lt.1 fun h => hshort ⟨hn, h⟩
    have hone : (l.length + n - 1) / n ≤ 1 := by
      refine Nat.lt_succ_iff.1 ((Nat.div_lt_iff_lt_mul hn).2 ?_)
      omega
    rw [inBlocks_of_le hle, List.length_singleton, max_eq_left hone]

/-- What the block at a place holds. -/
theorem getElem?_inBlocks (hn : 0 < n) {i : Nat} (h : i < (inBlocks n l).length) :
    (inBlocks n l)[i]? = some ((l.drop (i * n)).take n) := by
  induction l using inBlocks.induct n generalizing i with
  | case1 l hlong ih =>
    rw [inBlocks_of_lt hn hlong.2] at h ⊢
    cases i with
    | zero => rw [List.getElem?_cons_zero, Nat.zero_mul, List.drop_zero]
    | succ i =>
      rw [List.getElem?_cons_succ, ih (Nat.lt_of_succ_lt_succ h), List.drop_drop, Nat.succ_mul,
        Nat.add_comm]
  | case2 l hshort =>
    have hle : l.length ≤ n := Nat.not_lt.1 fun h => hshort ⟨hn, h⟩
    rw [inBlocks_of_le hle, List.length_singleton] at h
    obtain rfl := Nat.lt_one_iff.1 h
    rw [inBlocks_of_le hle, Nat.zero_mul, List.drop_zero, List.take_of_length_le hle]
    rfl

end Huliho
