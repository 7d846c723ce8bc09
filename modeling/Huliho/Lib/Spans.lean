import Mathlib.Data.List.Basic
import Mathlib.Data.List.Induction
import Mathlib.Data.List.Nodup
import Huliho.Lib.Record

/-!
# Spans of a list

A list read in pages: a span is so many items from some place on. Spans that follow each other are
one span, and **a span laid behind the front of the list it may overlap leaves a longer front**
(`firsts_take_append_span`), once every item stands where it came first.
-/

namespace Huliho

section Firsts

variable {α : Type*} [DecidableEq α] {l m : List α}

theorem firsts_eq_self (h : l.Nodup) : firsts l = l := by
  induction l with
  | nil => rfl
  | cons a l ih =>
    obtain ⟨ha, hl⟩ := List.nodup_cons.1 h
    rw [firsts, ih hl, List.filter_eq_self.2]
    intro b hb
    exact decide_eq_true fun hba => ha (hba ▸ hb)

theorem firsts_append : firsts (l ++ m) = firsts l ++ (firsts m).filter fun a => a ∉ l := by
  induction l with
  | nil => exact (List.filter_eq_self.2 fun a _ => decide_eq_true List.not_mem_nil).symm
  | cons b l ih =>
    simp only [List.cons_append, firsts, ih, List.filter_append, List.filter_filter]
    congr 2
    refine List.filter_congr fun a _ => ?_
    simp only [List.mem_cons, not_or, ← Bool.decide_and, ne_eq]

@[simp] theorem firsts_firsts : firsts (firsts l) = firsts l := firsts_eq_self (nodup_firsts l)

theorem firsts_firsts_append : firsts (firsts l ++ m) = firsts (l ++ m) := by
  rw [firsts_append, firsts_append, firsts_firsts]
  simp only [mem_firsts]

theorem firsts_append_of_subset (h : ∀ a ∈ m, a ∈ l) : firsts (l ++ m) = firsts l := by
  rw [firsts_append, List.filter_eq_nil_iff.2, List.append_nil]
  intro a ha
  simpa using h a (mem_firsts.1 ha)

end Firsts

section Spans

variable {α : Type*} {l : List α}

/-- Two spans of which the second starts where the first ends. -/
theorem span_append (a b c : Nat) :
    (l.drop a).take b ++ (l.drop (a + b)).take c = (l.drop a).take (b + c) := by
  rw [List.take_add, List.drop_drop]

/-- A span, then what is left of a longer one from where the first came to. -/
theorem span_continued {a b c : Nat} (hbc : b ≤ c) :
    (l.drop a).take b ++ (l.drop (a + ((l.drop a).take b).length)).take
      (c - ((l.drop a).take b).length) = (l.drop a).take c := by
  have hlength : ((l.drop a).take b).length ≤ b := by
    rw [List.length_take]
    omega
  have hfront : (l.drop a).take b = (l.drop a).take ((l.drop a).take b).length := by
    rw [List.length_take, ← List.take_eq_take_min]
  calc _ = (l.drop a).take ((l.drop a).take b).length ++
        (l.drop (a + ((l.drop a).take b).length)).take (c - ((l.drop a).take b).length) := by
        rw [← hfront]
    _ = _ := by rw [span_append, Nat.add_sub_cancel' (by omega)]

/-- A span lies in every front that reaches behind it. -/
theorem span_subset {a b m : Nat} (h : a + b ≤ m) {x : α} (hx : x ∈ (l.drop a).take b) :
    x ∈ l.take m := by
  rw [List.take_drop] at hx
  exact (List.take_subset_take_left l h) (List.mem_of_mem_drop hx)

/-- A span cut short has come to the end of the list. -/
theorem span_of_short {a b : Nat} (h : ((l.drop a).take b).length < b) : l.length < a + b := by
  rw [List.length_take, List.length_drop] at h
  omega

/-- The last item of a span stands where the span ends. -/
theorem span_getLast? {a b : Nat} {x : α} (h : ((l.drop a).take b).getLast? = some x) :
    l[a + ((l.drop a).take b).length - 1]? = some x ∧ 0 < ((l.drop a).take b).length := by
  rw [List.getLast?_eq_getElem?, List.getElem?_take] at h
  split at h
  · next hlt =>
    rw [List.getElem?_drop] at h
    have hpos : 0 < ((l.drop a).take b).length := by
      rcases Nat.eq_zero_or_pos ((l.drop a).take b).length with hzero | hpos
      · rw [hzero] at h
        have := (List.getElem?_eq_some_iff.1 h).1
        rw [List.length_take, List.length_drop] at hzero
        omega
      · exact hpos
    refine ⟨?_, hpos⟩
    rwa [Nat.add_sub_assoc hpos]
  · cases h

/-- Fewer items meet a condition that is stronger and fails one of them. -/
theorem countP_lt_countP {p q : α → Bool} {x : α} (hpq : ∀ a ∈ l, p a = true → q a = true)
    (hx : x ∈ l) (hpx : p x = false) (hqx : q x = true) : l.countP p < l.countP q := by
  induction l with
  | nil => exact absurd hx List.not_mem_nil
  | cons a l ih =>
    have hrest : l.countP p ≤ l.countP q :=
      List.countP_mono_left fun b hb => hpq b (List.mem_cons_of_mem a hb)
    rcases List.mem_cons.1 hx with rfl | hx
    · rw [List.countP_cons_of_neg (by simp [hpx]), List.countP_cons_of_pos hqx]
      omega
    · have hfewer := ih (fun b hb => hpq b (List.mem_cons_of_mem a hb)) hx
      have hhead : (if p a = true then 1 else 0) ≤ if q a = true then 1 else 0 := by
        by_cases hpa : p a = true
        · simp only [if_pos hpa, if_pos (hpq a List.mem_cons_self hpa), Nat.le_refl]
        · rw [if_neg hpa]
          exact Nat.zero_le _
      rw [List.countP_cons, List.countP_cons]
      omega

/-- **The last item that meets a condition**: those behind it fail it, so the items up to it count
them all. -/
theorem filter_getLast? {p : α → Bool} {x : α} (h : (l.filter p).getLast? = some x) :
    ∃ i, l[i]? = some x ∧ p x = true ∧ (∀ j y, i < j → l[j]? = some y → p y = false) ∧
      (l.take (i + 1)).countP p = (l.filter p).length := by
  induction l using List.reverseRecOn with
  | nil => cases h
  | append_singleton l a ih =>
    by_cases ha : p a = true
    · rw [List.filter_append, List.filter_singleton, ha, cond_true, List.getLast?_append,
        List.getLast?_singleton, Option.some_or] at h
      obtain rfl := Option.some.inj h
      refine ⟨l.length, List.getElem?_concat_length, ha, fun j y hj hy => ?_, ?_⟩
      · have hlt := (List.getElem?_eq_some_iff.1 hy).1
        rw [List.length_append, List.length_singleton] at hlt
        omega
      · rw [List.take_of_length_le (by simp), List.countP_eq_length_filter]
    · rw [Bool.not_eq_true] at ha
      rw [List.filter_append, List.filter_singleton, ha, cond_false, List.append_nil] at h
      obtain ⟨i, hi, hx, hbehind, hcount⟩ := ih h
      have hlt := (List.getElem?_eq_some_iff.1 hi).1
      refine ⟨i, by rw [List.getElem?_append_left hlt, hi], hx, fun j y hj hy => ?_, ?_⟩
      · rcases Nat.lt_or_ge j l.length with hjl | hjl
        · exact hbehind j y hj (by rwa [List.getElem?_append_left hjl] at hy)
        · rw [List.getElem?_append_right hjl] at hy
          rw [List.mem_singleton.1 (List.mem_of_getElem? hy), ha]
      · rw [List.take_append_of_le_length (by omega), hcount, List.filter_append,
          List.filter_singleton, ha, cond_false, List.append_nil]

/-- A span that ends within the first of two lists is the first one's. -/
theorem span_append_left {m : List α} {a b : Nat} (h : a + b ≤ l.length) :
    ((l ++ m).drop a).take b = (l.drop a).take b := by
  rw [List.drop_append_of_le_length (by omega),
    List.take_append_of_le_length (by rw [List.length_drop]; omega)]

variable [DecidableEq α]

/-- The place of an item, where no item comes twice. -/
theorem idxOf_of_getElem? (h : l.Nodup) {i : Nat} {x : α} (hx : l[i]? = some x) :
    l.idxOf x = i := by
  obtain ⟨hi, rfl⟩ := List.getElem?_eq_some_iff.1 hx
  exact h.idxOf_getElem i hi

theorem mem_take_iff (h : l.Nodup) {m i : Nat} {x : α} (hx : l[i]? = some x) :
    x ∈ l.take m ↔ i < m := by
  constructor
  · intro hmem
    obtain ⟨j, hj⟩ := List.mem_iff_getElem?.1 hmem
    rw [List.getElem?_take] at hj
    split at hj
    · next hlt =>
      rw [← idxOf_of_getElem? h hx, idxOf_of_getElem? h hj]
      exact hlt
    · cases hj
  · intro hlt
    exact List.mem_of_getElem? (i := i) (by rw [List.getElem?_take, if_pos hlt, hx])

/-- **A span behind a front it may overlap leaves a longer front**, every item where it came
first. -/
theorem firsts_take_append_span (h : l.Nodup) {m a : Nat} (ham : a ≤ m) (b : Nat) :
    firsts (l.take m ++ (l.drop a).take b) = l.take (max m (a + b)) := by
  rcases Nat.le_total (a + b) m with hle | hle
  · rw [firsts_append_of_subset (fun x => span_subset hle),
      firsts_eq_self (h.sublist (List.take_sublist _ _)), Nat.max_eq_left hle]
  · -- the span's start is in the front, the rest follows it
    have hsplit : (l.drop a).take b = (l.drop a).take (m - a) ++ (l.drop m).take (a + b - m) := by
      have hjoin := span_append (l := l) a (m - a) (a + b - m)
      rw [Nat.add_sub_cancel' ham] at hjoin
      rw [hjoin]
      congr 1
      omega
    have hstart : ∀ x ∈ (l.drop a).take (m - a), x ∈ l.take m :=
      fun x => span_subset (by omega)
    have hjoined : l.take m ++ (l.drop m).take (a + b - m) = l.take (a + b) := by
      have hjoin := span_append (l := l) 0 m (a + b - m)
      simpa [Nat.add_sub_cancel' hle] using hjoin
    have hfront : (l.take m ++ (l.drop m).take (a + b - m)).Nodup :=
      hjoined ▸ h.sublist (List.take_sublist _ _)
    rw [hsplit, ← List.append_assoc, firsts_append, firsts_append_of_subset hstart,
      firsts_eq_self (h.sublist (List.take_sublist _ _)), Nat.max_eq_right hle, ← hjoined,
      firsts_eq_self ((h.sublist (List.drop_sublist _ _)).sublist (List.take_sublist _ _)),
      List.filter_eq_self.2]
    intro x hx
    have hdisjoint := (List.nodup_append.1 hfront).2.2
    refine decide_eq_true fun hmem => ?_
    rcases List.mem_append.1 hmem with hmem | hmem
    · exact hdisjoint x hmem x hx rfl
    · exact hdisjoint x (hstart x hmem) x hx rfl

end Spans

end Huliho
