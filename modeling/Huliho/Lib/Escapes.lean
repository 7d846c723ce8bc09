import Mathlib.Data.List.Basic

/-!
# Texts with escapes

An escape is an introducer and what follows it: two items more, or one that is short. Where a text
ends inside an escape is a state kept from item to item (`escapeState`). A text that opens no escape
inside another is well escaped, and cut before an introducer among its last two items it ends
outside every escape (**`escapeState_cut`**).
-/

namespace Huliho

variable {α : Type}

/-- Where a text stands: outside every escape, behind an introducer, or behind it and one item. -/
inductive EscapeState
  | closed
  | introduced
  | halfway
deriving DecidableEq

/-- Where a text stands after one item more. -/
def EscapeState.step (introducer short : α → Bool) : EscapeState → α → EscapeState
  | closed, c => if introducer c then introduced else closed
  | introduced, c => if short c then closed else halfway
  | halfway, _ => closed

/-- Where a text stands at its end. -/
def escapeState (introducer short : α → Bool) (text : List α) : EscapeState :=
  text.foldl (EscapeState.step introducer short) .closed

/-- No escape opens inside another. -/
def WellEscaped (introducer short : α → Bool) (text : List α) : Prop :=
  ∀ before c after, text = before ++ c :: after → introducer c = true →
    escapeState introducer short before = .closed

/-- Where a text ends once an introducer among its last two items is cut off. -/
def escapeCut (introducer : α → Bool) (text : List α) : Nat :=
  let tail := text.length - 2
  ((text.drop tail).findIdx? introducer).elim text.length (tail + ·)

variable {introducer short : α → Bool} {text a : List α} {c d : α}

theorem escapeState_snoc (text : List α) (c : α) : escapeState introducer short (text ++ [c]) =
    (escapeState introducer short text).step introducer short c := by
  rw [escapeState, List.foldl_append, escapeState]
  rfl

/-- Behind an item that is no introducer, a text stands behind an introducer by no means. -/
theorem escapeState_ne_introduced (hc : introducer c = false) :
    escapeState introducer short (text ++ [c]) ≠ .introduced := by
  rw [escapeState_snoc]
  cases escapeState introducer short text <;> simp only [EscapeState.step, hc]
  · decide
  · split_ifs <;> decide
  · decide

/-- Behind two items that are no introducers, a text ends outside every escape. -/
theorem escapeState_closed (hc : introducer c = false) (hd : introducer d = false) :
    escapeState introducer short (text ++ [c, d]) = .closed := by
  have hne : escapeState introducer short (text ++ [c]) ≠ .introduced :=
    escapeState_ne_introduced hc
  have hsnoc : escapeState introducer short ((text ++ [c]) ++ [d]) =
      (escapeState introducer short (text ++ [c])).step introducer short d := escapeState_snoc _ d
  rw [List.append_assoc, List.singleton_append] at hsnoc
  rw [hsnoc]
  cases hstate : escapeState introducer short (text ++ [c])
  · simp only [EscapeState.step, hd]
    rfl
  · exact absurd hstate hne
  · rfl

theorem escapeCut_pair (a : List α) (c d : α) : escapeCut introducer (a ++ [c, d]) =
    if introducer c then a.length else if introducer d then a.length + 1 else a.length + 2 := by
  have htail : (a ++ [c, d]).length - 2 = a.length := by
    rw [List.length_append]
    exact Nat.add_sub_cancel ..
  unfold escapeCut
  dsimp only
  rw [htail, List.drop_left, List.findIdx?_cons, List.findIdx?_cons]
  split_ifs
  · rfl
  · rfl
  · rw [List.length_append]
    rfl

/-- **Cut before an introducer among its last two items, a text ends outside every escape.** -/
theorem escapeState_cut (h : WellEscaped introducer short text) :
    escapeState introducer short (text.take (escapeCut introducer text)) = .closed := by
  rcases List.eq_nil_or_concat text with rfl | ⟨front, d, rfl⟩
  · rfl
  rw [List.concat_eq_append] at h ⊢
  rcases List.eq_nil_or_concat front with rfl | ⟨a, c, rfl⟩
  · cases hd : introducer d
    · simp [escapeCut, hd, escapeState, EscapeState.step]
    · simp [escapeCut, hd, escapeState]
  rw [List.concat_eq_append, List.append_assoc, List.singleton_append] at h ⊢
  rw [escapeCut_pair]
  cases hc : introducer c
  · cases hd : introducer d
    · rw [if_neg Bool.false_ne_true, if_neg Bool.false_ne_true, List.take_of_length_le]
      · exact escapeState_closed hc hd
      · rw [List.length_append]
        exact Nat.le_refl _
    · have htake : (a ++ [c, d]).take (a.length + 1) = a ++ [c] := by
        rw [List.take_length_add_append]
        rfl
      rw [if_neg Bool.false_ne_true, if_pos rfl, htake]
      exact h (a ++ [c]) d [] (by rw [List.append_assoc, List.singleton_append]) hd
  · rw [if_pos rfl, List.take_left]
    exact h a c [d] rfl hc

/-- A beginning of a well escaped text is well escaped. -/
theorem WellEscaped.take (h : WellEscaped introducer short text) (n : Nat) :
    WellEscaped introducer short (text.take n) := by
  intro before c after hsplit hc
  refine h before c (after ++ text.drop n) ?_ hc
  rw [← List.cons_append, ← List.append_assoc, ← hsplit, List.take_append_drop]

end Huliho
