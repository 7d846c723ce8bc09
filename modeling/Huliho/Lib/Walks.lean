import Huliho.Lib.Loops
import Mathlib.Data.List.Basic
import Mathlib.Data.List.Nodup

/-!
# Walks that mark

Two walks over the nodes of a graph that need not be a tree. `climb` goes from a node to the one
that follows it, marking each, up to the first that is marked; climbs from several nodes leave marks
that are closed, but for the marks they started from (**`climbs_closed`**), and mark nothing else
than what a climb comes by (`climbs_sound`). `sweep` visits a list that grows while it is read: what
it ends with is closed under children (**`sweep_closed`**) and holds nothing else (`sweep_sound`).

Both run on a count of turns; as many turns as there are nodes are enough.
-/

namespace Huliho

variable {α κ : Type} [DecidableEq κ]

/-! ## Climbing -/

/-- Marks a node and what follows it, one after the other, up to the first that is marked. -/
def climb (key : α → κ) (next : α → Option α) : Nat → List κ → Option α → List κ
  | 0, marked, _ => marked
  | _ + 1, marked, none => marked
  | n + 1, marked, some a =>
    if key a ∈ marked then marked else climb key next n (marked ++ [key a]) (next a)

section
variable {key : α → κ} {next : α → Option α} {field : List α} {base marked : List κ} {n : Nat}
  {at' : Option α} {k : κ}

/-- The nodes of a field that are not marked. -/
def unmarked (key : α → κ) (field : List α) (marked : List κ) : List α :=
  field.filter fun a => key a ∉ marked

theorem unmarked_lt {a : α} (ha : a ∈ field) (hk : key a ∉ marked) :
    (unmarked key field (marked ++ [key a])).length < (unmarked key field marked).length := by
  have hless : unmarked key field (marked ++ [key a]) =
      (unmarked key field marked).filter fun b => key b ≠ key a := by
    unfold unmarked
    rw [List.filter_filter]
    refine List.filter_congr fun b _ => ?_
    rw [← Bool.decide_and]
    refine decide_eq_decide.2 ?_
    rw [List.mem_append, List.mem_singleton, not_or, and_comm]
  rw [hless, List.length_filter_lt_length_iff_exists]
  refine ⟨a, List.mem_filter.2 ⟨ha, decide_eq_true hk⟩, ?_⟩
  simp

theorem climb_subset (h : k ∈ marked) : k ∈ climb key next n marked at' := by
  induction n generalizing marked at' with
  | zero => exact h
  | succ n ih =>
    cases at' with
    | none => exact h
    | some a =>
      rw [climb]
      split_ifs
      · exact h
      · exact ih (List.mem_append_left _ h)

/-- What a climb marks, it comes by: a property that passes on over the nodes it goes through holds
of each. -/
theorem climb_sound {P : α → Prop} (hbase : ∀ k ∈ base, k ∈ marked)
    (hpass : ∀ a b, P a → key a ∉ base → next a = some b → P b) (hstart : ∀ a, at' = some a → P a)
    (h : k ∈ climb key next n marked at') : k ∈ marked ∨ ∃ a, P a ∧ key a = k := by
  induction n generalizing marked at' with
  | zero => exact .inl h
  | succ n ih =>
    cases at' with
    | none => exact .inl h
    | some a =>
      rw [climb] at h
      split_ifs at h with hmarked
      · exact .inl h
      · have ha : P a := hstart a rfl
        rcases ih (fun k hk => List.mem_append_left _ (hbase k hk))
          (fun b hb => hpass a b ha (fun hk => hmarked (hbase _ hk)) hb) h with h | h
        · rcases List.mem_append.1 h with h | h
          · exact .inl h
          · exact .inr ⟨a, ha, (List.mem_singleton.1 h).symm⟩
        · exact .inr h

/-- Marks that are closed: what follows a marked node is marked, but for what follows the base. -/
def Closed (key : α → κ) (next : α → Option α) (field : List α) (base marked : List κ) : Prop :=
  ∀ a ∈ field, key a ∈ marked → key a ∉ base → ∀ b, next a = some b → key b ∈ marked

/-- **A climb leaves closed marks closed** and marks the node it starts from. The induction carries
that the marks are closed but for the node the climb has come to. -/
theorem climb_closed (hnext : ∀ a ∈ field, ∀ b, next a = some b → b ∈ field)
    (hkey : ∀ a ∈ field, ∀ b ∈ field, key a = key b → a = b)
    (hturns : (unmarked key field marked).length ≤ n) (hfield : ∀ a, at' = some a → a ∈ field)
    (h : ∀ a ∈ field, key a ∈ marked → key a ∉ base → ∀ b, next a = some b →
      key b ∈ marked ∨ at' = some b) :
    Closed key next field base (climb key next n marked at') ∧
      ∀ a, at' = some a → key a ∈ climb key next n marked at' := by
  have hdone : (∀ a, at' = some a → key a ∈ marked) → Closed key next field base marked :=
    fun hat a ha hk hb b hab => (h a ha hk hb b hab).elim id fun hb => hat b hb
  induction n generalizing marked at' with
  | zero =>
    have hall : ∀ a ∈ field, key a ∈ marked := by
      intro a ha
      by_contra hk
      have hnone : unmarked key field marked = [] := List.eq_nil_of_length_eq_zero (by omega)
      have ha : a ∈ unmarked key field marked := List.mem_filter.2 ⟨ha, decide_eq_true hk⟩
      rw [hnone] at ha
      exact List.not_mem_nil ha
    exact ⟨hdone fun a ha => hall a (hfield a ha), fun a ha => hall a (hfield a ha)⟩
  | succ n ih =>
    cases at' with
    | none => exact ⟨hdone fun a ha => absurd ha (by simp), fun a ha => absurd ha (by simp)⟩
    | some a =>
      have ha : a ∈ field := hfield a rfl
      rw [climb]
      split_ifs with hmarked
      · have hat : ∀ b, some a = some b → key b ∈ marked := by
          rintro b ⟨⟩
          exact hmarked
        exact ⟨hdone hat, hat⟩
      · have hless := unmarked_lt ha hmarked
        have hstep : ∀ c ∈ field, key c ∈ marked ++ [key a] → key c ∉ base → ∀ b,
            next c = some b → key b ∈ marked ++ [key a] ∨ next a = some b := by
          intro c hc hk hb b hcb
          rcases List.mem_append.1 hk with hk | hk
          · rcases h c hc hk hb b hcb with h | h
            · exact .inl (List.mem_append_left _ h)
            · cases h
              exact .inl (List.mem_append_right _ (List.mem_singleton_self _))
          · obtain rfl := hkey c hc a ha (List.mem_singleton.1 hk)
            exact .inr hcb
        obtain ⟨hclosed, -⟩ := ih (by omega) (fun b hb => hnext a ha b hb) hstep
          fun hat c hc hk hb b hcb => (hstep c hc hk hb b hcb).elim id fun hb => hat b hb
        refine ⟨hclosed, ?_⟩
        rintro b ⟨⟩
        exact climb_subset (List.mem_append_right _ (List.mem_singleton_self _))

/-- The marks after a climb from each of several nodes. -/
def climbs (key : α → κ) (next : α → Option α) (n : Nat) (base : List κ) (starts : List α) :
    List κ :=
  starts.foldl (fun marked a => climb key next n marked (some a)) base

/-- What the climbs mark, one of them comes by. -/
theorem climbs_sound {P : α → Prop} {starts : List α}
    (hpass : ∀ a b, P a → key a ∉ base → next a = some b → P b) (hstarts : ∀ a ∈ starts, P a)
    (h : k ∈ climbs key next n base starts) : k ∈ base ∨ ∃ a, P a ∧ key a = k := by
  have hkeeps : (∀ k ∈ base, k ∈ climbs key next n base starts) ∧
      ∀ k ∈ climbs key next n base starts, k ∈ base ∨ ∃ a, P a ∧ key a = k := by
    unfold climbs
    refine foldl_keeps (P := fun marked => (∀ k ∈ base, k ∈ marked) ∧
      ∀ k ∈ marked, k ∈ base ∨ ∃ a, P a ∧ key a = k) ⟨fun _ hk => hk, fun _ hk => .inl hk⟩ ?_
    intro a ha marked ⟨hbase, hmarked⟩
    refine ⟨fun k hk => climb_subset (hbase k hk), fun k hk => ?_⟩
    rcases climb_sound hbase hpass (fun b hb => Option.some.inj hb ▸ hstarts a ha) hk with hk | hk
    · exact hmarked k hk
    · exact .inr hk
  exact hkeeps.2 k h

/-- **After climbs from several nodes the marks are closed**, and hold the base and every start. -/
theorem climbs_closed (hnext : ∀ a ∈ field, ∀ b, next a = some b → b ∈ field)
    (hkey : ∀ a ∈ field, ∀ b ∈ field, key a = key b → a = b) {starts : List α}
    (hstarts : ∀ a ∈ starts, a ∈ field) :
    Closed key next field base (climbs key next field.length base starts) ∧
      (∀ k ∈ base, k ∈ climbs key next field.length base starts) ∧
      ∀ a ∈ starts, key a ∈ climbs key next field.length base starts := by
  have hloop := foldl_rest (l := starts) (b := base)
    (f := fun marked a => climb key next field.length marked (some a))
    (P := fun rest marked => rest ⊆ starts ∧ Closed key next field base marked ∧
      (∀ k ∈ base, k ∈ marked) ∧ ∀ a ∈ starts, a ∈ rest ∨ key a ∈ marked) ?_ ?_
  · exact ⟨hloop.2.1, hloop.2.2.1, fun a ha =>
      (hloop.2.2.2 a ha).elim (fun h => absurd h List.not_mem_nil) id⟩
  · rintro a rest marked ⟨hsub, hclosed, hbase, hdone⟩
    rw [List.cons_subset] at hsub
    obtain ⟨hclosed', hmarked⟩ := climb_closed hnext hkey (List.length_filter_le _ _)
      (fun b hb => Option.some.inj hb ▸ hstarts a hsub.1)
      fun c hc hk hb b hcb => .inl (hclosed c hc hk hb b hcb)
    refine ⟨hsub.2, hclosed', fun k hk => climb_subset (hbase k hk), fun b hb => ?_⟩
    rcases hdone b hb with h | h
    · rcases List.mem_cons.1 h with rfl | h
      · exact .inr (hmarked b rfl)
      · exact .inl h
    · exact .inr (climb_subset h)
  · exact ⟨List.Subset.refl _, fun a _ hk hb => absurd hk hb, fun k hk => hk, fun a ha => .inl ha⟩

end

/-! ## Sweeping -/

/-- Items at the end of a list that does not hold them yet. -/
def pushNew (items list : List κ) : List κ :=
  items.foldl (fun list item => if item ∈ list then list else list ++ [item]) list

/-- Visits the places of a list from one on, and puts the children of each at its end. -/
def sweep (children : κ → List κ) : Nat → Nat → List κ → List κ
  | 0, _, list => list
  | n + 1, i, list =>
    match list[i]? with
    | none => list
    | some k => sweep children n (i + 1) (pushNew (children k) list)

section
variable {children : κ → List κ} {items list field : List κ} {n i : Nat} {k : κ}

theorem pushNew_cons (item : κ) (items list : List κ) :
    pushNew (item :: items) list =
      pushNew items (if item ∈ list then list else list ++ [item]) := rfl

/-- What is pushed stands behind what the list held. -/
theorem pushNew_starts (items list : List κ) : list <+: pushNew items list := by
  induction items generalizing list with
  | nil => exact List.prefix_refl _
  | cons item items ih =>
    rw [pushNew_cons]
    refine List.IsPrefix.trans ?_ (ih _)
    split_ifs
    · exact List.prefix_refl _
    · exact List.prefix_append _ _

theorem mem_pushNew : k ∈ pushNew items list ↔ k ∈ list ∨ k ∈ items := by
  induction items generalizing list with
  | nil => simp [pushNew]
  | cons item items ih =>
    rw [pushNew_cons, ih, List.mem_cons]
    split_ifs with h
    · constructor
      · exact fun hk => hk.imp_right .inr
      · rintro (hk | rfl | hk)
        · exact .inl hk
        · exact .inl h
        · exact .inr hk
    · rw [List.mem_append, List.mem_singleton, or_assoc]

theorem pushNew_nodup (h : list.Nodup) : (pushNew items list).Nodup := by
  induction items generalizing list with
  | nil => exact h
  | cons item items ih =>
    rw [pushNew_cons]
    split_ifs with hmem
    · exact ih h
    · exact ih (List.nodup_append.2 ⟨h, List.nodup_singleton _, fun a ha b hb hab =>
        hmem (List.mem_singleton.1 hb ▸ hab ▸ ha)⟩)

theorem sweep_subset (h : k ∈ list) : k ∈ sweep children n i list := by
  induction n generalizing i list with
  | zero => exact h
  | succ n ih =>
    rw [sweep]
    split
    · exact h
    · exact ih (mem_pushNew.2 (.inl h))

/-- A sweep holds nothing but what a property that passes on to children holds of. -/
theorem sweep_sound {P : κ → Prop} (hpass : ∀ k, P k → ∀ c ∈ children k, P c)
    (hlist : ∀ k ∈ list, P k) (h : k ∈ sweep children n i list) : P k := by
  induction n generalizing i list with
  | zero => exact hlist k h
  | succ n ih =>
    rw [sweep] at h
    split at h
    · exact hlist k h
    · rename_i at' hat
      refine ih (fun c hc => ?_) h
      rcases mem_pushNew.1 hc with hc | hc
      · exact hlist c hc
      · exact hpass at' (hlist at' (List.mem_of_getElem? hat)) c hc

/-- **A sweep is closed under children**, given a turn for each node of a field it stays in. The
induction carries that the places visited are. -/
theorem sweep_closed (hfield : ∀ k ∈ field, ∀ c ∈ children k, c ∈ field) (hnodup : list.Nodup)
    (hlist : list ⊆ field) (hturns : field.length ≤ n + i)
    (hvisited : ∀ j, j < i → ∀ k, list[j]? = some k → children k ⊆ list) :
    ∀ k ∈ sweep children n i list, children k ⊆ sweep children n i list := by
  have hdone : list.length ≤ i → ∀ k ∈ list, children k ⊆ list := by
    intro hlength k hk
    obtain ⟨j, hj, rfl⟩ := List.mem_iff_getElem.1 hk
    exact hvisited j (by omega) _ (List.getElem?_eq_getElem hj)
  induction n generalizing i list with
  | zero =>
    have hlength : list.length ≤ field.length := hnodup.length_le_of_subset hlist
    exact hdone (by omega)
  | succ n ih =>
    rw [sweep]
    split
    · rename_i hnone
      exact hdone (List.getElem?_eq_none_iff.1 hnone)
    · rename_i at' hat
      have hmem : at' ∈ list := List.mem_of_getElem? hat
      have hstart := pushNew_starts (children at') list
      have hvisited' : ∀ j, j < i + 1 → ∀ k, (pushNew (children at') list)[j]? = some k →
          children k ⊆ pushNew (children at') list := by
        intro j hj k hk
        have hi : i < list.length := (List.getElem?_eq_some_iff.1 hat).1
        obtain ⟨rest, hrest⟩ := hstart
        rw [← hrest, List.getElem?_append_left (by omega)] at hk
        rcases Nat.lt_or_eq_of_le (Nat.le_of_lt_succ hj) with hj | rfl
        · exact fun c hc => mem_pushNew.2 (.inl (hvisited j hj k hk hc))
        · obtain rfl := Option.some.inj (hat.symm.trans hk)
          exact fun c hc => mem_pushNew.2 (.inr hc)
      refine ih (pushNew_nodup hnodup) (fun c hc => ?_) (by omega) hvisited' fun hlength k hk => ?_
      · rcases mem_pushNew.1 hc with hc | hc
        · exact hlist hc
        · exact hfield at' (hlist hmem) c hc
      · obtain ⟨j, hj, rfl⟩ := List.mem_iff_getElem.1 hk
        exact hvisited' j (by omega) _ (List.getElem?_eq_getElem hj)

end

end Huliho
