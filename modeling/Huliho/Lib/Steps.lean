import Mathlib.Data.List.Basic

/-!
# Steps that may not apply

A system takes one action at a time, and an action that does not apply in a state takes no step.
`runs` is a whole run, `Meets` says that every action of a run meets a condition in the state before
it. What such a step keeps such a run keeps (**`runs_keeps`**), and what it keeps until some action
comes, a run keeps until that action comes (**`runs_until`**).
-/

namespace Huliho

variable {σ α : Type*} {step : σ → α → Option σ} {ok : σ → α → Prop} {s t : σ} {a : α}
variable {as bs : List α}

/-- The state behind some actions, if each of them applies. -/
def runs (step : σ → α → Option σ) (s : σ) : List α → Option σ
  | [] => some s
  | a :: as => (step s a).bind fun next => runs step next as

@[simp] theorem runs_nil : runs step s [] = some s := rfl

theorem runs_cons : runs step s (a :: as) = some t ↔
    ∃ next, step s a = some next ∧ runs step next as = some t := Option.bind_eq_some_iff

theorem runs_append : runs step s (as ++ bs) = some t ↔
    ∃ middle, runs step s as = some middle ∧ runs step middle bs = some t := by
  induction as generalizing s with
  | nil => simp
  | cons a as ih =>
    simp only [List.cons_append, runs_cons, ih]
    constructor
    · rintro ⟨next, hstep, middle, hfront, hback⟩
      exact ⟨middle, ⟨next, hstep, hfront⟩, hback⟩
    · rintro ⟨middle, ⟨next, hstep, hfront⟩, hback⟩
      exact ⟨next, hstep, middle, hfront, hback⟩

/-- Every action meets the condition in the state before it. -/
def Meets (step : σ → α → Option σ) (ok : σ → α → Prop) (s : σ) : List α → Prop
  | [] => True
  | a :: as => ok s a ∧
    match step s a with
    | none => True
    | some next => Meets step ok next as

instance Meets.decidable [∀ s a, Decidable (ok s a)] :
    ∀ (as : List α) (s : σ), Decidable (Meets step ok s as)
  | [], _ => inferInstanceAs (Decidable True)
  | a :: as, s =>
    have : Decidable (match step s a with
        | none => True
        | some next => Meets step ok next as) :=
      match step s a with
      | none => inferInstanceAs (Decidable True)
      | some next => Meets.decidable as next
    inferInstanceAs (Decidable (_ ∧ _))

theorem Meets.tail (h : Meets step ok s (a :: as)) {next : σ} (hstep : step s a = some next) :
    Meets step ok next as := by
  have hrest := h.2
  rwa [hstep] at hrest

theorem meets_true (as : List α) (s : σ) : Meets step (fun _ _ => True) s as := by
  induction as generalizing s with
  | nil => trivial
  | cons a as ih =>
    refine ⟨trivial, ?_⟩
    cases step s a with
    | none => trivial
    | some next => exact ih next

theorem Meets.append_left (h : Meets step ok s (as ++ bs)) : Meets step ok s as := by
  induction as generalizing s with
  | nil => trivial
  | cons a as ih =>
    refine ⟨h.1, ?_⟩
    cases hstep : step s a with
    | none => trivial
    | some next => exact ih (h.tail hstep)

theorem Meets.append_right (h : Meets step ok s (as ++ bs)) {middle : σ}
    (hrun : runs step s as = some middle) : Meets step ok middle bs := by
  induction as generalizing s with
  | nil =>
    obtain rfl := Option.some.inj hrun
    exact h
  | cons a as ih =>
    obtain ⟨next, hstep, hrest⟩ := runs_cons.1 hrun
    exact ih (h.tail hstep) hrest

/-- **What every step keeps under the condition, every run keeps that meets it.** -/
theorem runs_keeps {P : σ → Prop}
    (hstep : ∀ s a next, P s → ok s a → step s a = some next → P next) (hs : P s)
    (hmeets : Meets step ok s as) (hrun : runs step s as = some t) : P t := by
  induction as generalizing s with
  | nil => exact Option.some.inj hrun ▸ hs
  | cons a as ih =>
    obtain ⟨next, hnext, hrest⟩ := runs_cons.1 hrun
    exact ih (hstep s a next hs hmeets.1 hnext) (hmeets.tail hnext) hrest

/-- **What a run keeps of the actions it took**: a step takes the property from the actions before it
to those with it. -/
theorem runs_traced {P : List α → σ → Prop} (hs : P [] s)
    (hstep : ∀ past a rest s next, as = past ++ a :: rest → P past s → ok s a →
      step s a = some next → P (past ++ [a]) next)
    (hmeets : Meets step ok s as) (hrun : runs step s as = some t) : P as t := by
  suffices h : ∀ rest past s, as = past ++ rest → P past s → Meets step ok s rest →
      runs step s rest = some t → P as t from h as [] s rfl hs hmeets hrun
  intro rest
  induction rest with
  | nil =>
    intro past s hsplit hpast _ hrun
    rw [hsplit, List.append_nil, ← Option.some.inj hrun]
    exact hpast
  | cons a rest ih =>
    intro past s hsplit hpast hmeets hrun
    obtain ⟨next, hnext, hrest⟩ := runs_cons.1 hrun
    refine ih (past ++ [a]) next (by rw [hsplit, List.append_assoc, List.singleton_append])
      (hstep past a rest s next hsplit hpast hmeets.1 hnext) (hmeets.tail hnext) hrest

/-- The run comes by an action of a kind: the actions before it and the state they leave. -/
def ComesBy (step : σ → α → Option σ) (kind : σ → α → Prop) (s : σ) (as : List α) : Prop :=
  ∃ front a back middle, as = front ++ a :: back ∧ runs step s front = some middle ∧ kind middle a

theorem ComesBy.append_left {kind : σ → α → Prop} (h : ComesBy step kind t bs)
    (hrun : runs step s as = some t) : ComesBy step kind s (as ++ bs) := by
  obtain ⟨front, a, back, middle, rfl, hfront, hkind⟩ := h
  exact ⟨as ++ front, a, back, middle, (List.append_assoc _ _ _).symm,
    runs_append.2 ⟨t, hrun, hfront⟩, hkind⟩

theorem not_comesBy_nil {kind : σ → α → Prop} : ¬ ComesBy step kind s [] := by
  rintro ⟨front, a, back, -, h, -⟩
  exact List.cons_ne_nil _ _ (List.append_eq_nil_iff.1 h.symm).2

theorem comesBy_cons {kind : σ → α → Prop} : ComesBy step kind s (a :: as) ↔
    kind s a ∨ ∃ next, step s a = some next ∧ ComesBy step kind next as := by
  constructor
  · rintro ⟨_ | ⟨b, front⟩, c, back, middle, hsplit, hfront, hkind⟩
    · obtain ⟨rfl, rfl⟩ := List.cons.inj hsplit
      obtain rfl := Option.some.inj hfront
      exact .inl hkind
    · obtain ⟨rfl, rfl⟩ := List.cons.inj hsplit
      obtain ⟨next, hnext, hrest⟩ := runs_cons.1 hfront
      exact .inr ⟨next, hnext, front, c, back, middle, rfl, hrest, hkind⟩
  · rintro (hkind | ⟨next, hnext, front, b, back, middle, rfl, hfront, hkind⟩)
    · exact ⟨[], a, as, s, rfl, rfl, hkind⟩
    · exact ⟨a :: front, b, back, middle, rfl, runs_cons.2 ⟨next, hnext, hfront⟩, hkind⟩

instance ComesBy.decidable {kind : σ → α → Prop} [∀ s a, Decidable (kind s a)] :
    ∀ (as : List α) (s : σ), Decidable (ComesBy step kind s as)
  | [], _ => .isFalse not_comesBy_nil
  | a :: as, s =>
    have : Decidable (∃ next, step s a = some next ∧ ComesBy step kind next as) :=
      match step s a with
      | none => .isFalse fun h => nomatch h.choose_spec.1
      | some next =>
        match ComesBy.decidable as next with
        | .isTrue h => .isTrue ⟨next, rfl, h⟩
        | .isFalse h => .isFalse fun ⟨_, heq, hnext⟩ => h (Option.some.inj heq ▸ hnext)
    decidable_of_iff _ comesBy_cons.symm

/-- **What a step keeps unless it is of a kind, a run keeps unless it comes by one.** -/
theorem runs_until {P : σ → Prop} {kind : σ → α → Prop}
    (hstep : ∀ s a next, P s → ok s a → step s a = some next → P next ∨ kind s a) (hs : P s)
    (hmeets : Meets step ok s as) (hrun : runs step s as = some t) :
    P t ∨ ComesBy step kind s as := by
  induction as generalizing s with
  | nil => exact .inl (Option.some.inj hrun ▸ hs)
  | cons a as ih =>
    obtain ⟨next, hnext, hrest⟩ := runs_cons.1 hrun
    rcases hstep s a next hs hmeets.1 hnext with hkept | hkind
    · refine (ih hkept (hmeets.tail hnext) hrest).imp_right ?_
      rintro ⟨front, b, back, middle, rfl, hfront, hkind⟩
      exact ⟨a :: front, b, back, middle, rfl, runs_cons.2 ⟨next, hnext, hfront⟩, hkind⟩
    · exact .inr ⟨[], a, as, s, rfl, rfl, hkind⟩

end Huliho
