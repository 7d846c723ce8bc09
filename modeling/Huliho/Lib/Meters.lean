import Mathlib.Data.List.Basic
import Mathlib.Algebra.Order.Group.Int
import Mathlib.Tactic.Linarith

/-!
# Metered takes

A meter holds a **level** that rises no faster than the clock and pays one `unit` for each take.
Below `full` it rises as fast as the clock; it never stands above `cap`. So the takes of any span
cost at most what the meter can hold and what the span can bring (`Metered.span_le`), and a span
without a take that is long enough fills it (`Metered.full_of_idle`).
-/

namespace Huliho

/-- The takes so far, the clock and the level a meter stands at. -/
inductive Metered (unit full cap : Int) : List Int → Int → Int → Prop
  | start {now level : Int} (hfull : full ≤ level) (hcap : level ≤ cap) :
    Metered unit full cap [] now level
  | rest {taken : List Int} {now level later level' : Int}
    (h : Metered unit full cap taken now level) (hle : now ≤ later)
    (hup : level' ≤ level + (later - now)) (hdown : min full (level + (later - now)) ≤ level')
    (hcap : level' ≤ cap) : Metered unit full cap taken later level'
  | take {taken : List Int} {now level : Int} (h : Metered unit full cap taken now level)
    (henough : unit ≤ level) : Metered unit full cap (taken ++ [now]) now (level - unit)

namespace Metered

variable {unit full cap now level : Int} {taken : List Int}

theorem le_now (h : Metered unit full cap taken now level) : ∀ s ∈ taken, s ≤ now := by
  induction h with
  | start => simp
  | rest _ hle _ _ _ ih => exact fun s hs => le_trans (ih s hs) hle
  | take _ _ ih =>
    intro s hs
    rcases List.mem_append.1 hs with hs | hs
    · exact ih s hs
    · exact le_of_eq (List.mem_singleton.1 hs)

theorem level_nonneg (hfull : 0 ≤ full) (h : Metered unit full cap taken now level) :
    0 ≤ level := by
  induction h with
  | start => omega
  | rest => omega
  | take => omega

theorem level_le (hunit : 0 ≤ unit) (h : Metered unit full cap taken now level) : level ≤ cap := by
  induction h with
  | start _ hcap => exact hcap
  | rest _ _ _ _ hcap => exact hcap
  | take _ _ ih => omega

/-- The takes since `a` and what is left cost no more than the meter holds and the time brought. -/
theorem since_le (hunit : 0 ≤ unit) (h : Metered unit full cap taken now level) (a : Int) :
    ((taken.filter (a ≤ ·)).length : Int) * unit + level ≤ cap + max (now - a) 0 := by
  have hnone : ∀ {taken : List Int} {now level : Int}, Metered unit full cap taken now level →
      now < a → taken.filter (a ≤ ·) = [] := by
    intro taken now level h hlt
    refine List.filter_eq_nil_iff.2 fun s hs => ?_
    have := h.le_now s hs
    simp only [decide_eq_true_eq]
    omega
  induction h with
  | start _ hcap => simpa using le_trans hcap (by omega)
  | @rest taken now level later level' h hle hup hdown hcap ih =>
    by_cases ha : now < a
    · rw [hnone h ha, List.length_nil]
      omega
    · omega
  | @take taken now level h henough ih =>
    by_cases ha : now < a
    · rw [hnone (h.take henough) ha, List.length_nil]
      have := h.level_le hunit
      omega
    · have hnow : [now].filter (a ≤ ·) = [now] := by
        simpa using not_lt.1 ha
      rw [List.filter_append, hnow, List.length_append, List.length_singleton]
      push_cast
      rw [add_mul, one_mul]
      omega

/-- **The takes of a span cost at most what the meter can hold and what the span brings.** -/
theorem span_le (hunit : 0 ≤ unit) (hfull : 0 ≤ full) (hcap : 0 ≤ cap)
    (h : Metered unit full cap taken now level) {a b : Int} (hab : a ≤ b) :
    ((taken.filter fun s => a ≤ s ∧ s ≤ b).length : Int) * unit ≤ cap + (b - a) := by
  induction h with
  | start => simpa using by omega
  | rest _ _ _ _ _ ih => exact ih
  | @take taken now level h henough ih =>
    by_cases hb : now ≤ b
    · have hall : (taken ++ [now]).filter (fun s => a ≤ s ∧ s ≤ b) =
          (taken ++ [now]).filter (a ≤ ·) := by
        refine List.filter_congr fun s hs => ?_
        have := (h.take henough).le_now s hs
        simp only [decide_eq_decide, and_iff_left_iff_imp]
        omega
      have hsince := (h.take henough).since_le hunit a
      have hleft := (h.take henough).level_nonneg hfull
      rw [hall]
      omega
    · have hnone : [now].filter (fun s => a ≤ s ∧ s ≤ b) = [] := by
        simp only [List.filter_eq_nil_iff, List.mem_singleton, decide_eq_true_eq]
        omega
      rw [List.filter_append, hnone, List.append_nil]
      exact ih

/-- **A meter nothing was taken from for as long as it takes to fill is full.** -/
theorem full_of_idle (h : Metered unit full cap taken now level)
    (hidle : ∀ s ∈ taken, s + full ≤ now) : full ≤ level := by
  have hrises : ∀ since : Int, (∀ s ∈ taken, s ≤ since) → min full (now - since) ≤ level := by
    clear hidle
    induction h with
    | start hlevel => exact fun since _ => by omega
    | rest h hle hup hdown hcap ih =>
      intro since hs
      have := ih since hs
      omega
    | @take taken now level h henough ih =>
      intro since hs
      have := hs now (by simp)
      omega
  have := hrises (now - full) fun s hs => by have := hidle s hs; omega
  omega

end Metered

end Huliho
