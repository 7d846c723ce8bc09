import Mathlib.Data.List.Basic

/-!
# Reading a text turn by turn

A reader of a text is often one loop: while the text is not at its end, a turn takes something off its
front and changes what was read so far. `readLoop` is that loop, where a turn may refuse the text. Each
turn has to take something; `readLoop_turn` and `readLoop_refused` unfold one. Two loops whose turns
agree come to agreeing ends (**`readLoop_agree`**).
-/

namespace Huliho

variable {α σ β τ : Type}

/-- What a turn left: the state and the rest of the text; `none` where the text was refused. -/
abbrev Turn (σ α : Type) := Option (σ × List α)

/-- Takes turns until the text is at its end. -/
def readLoop (atEnd : List α → Bool) (turn : σ → List α → Turn σ α) (s : σ) (text : List α) :
    Turn σ α :=
  if atEnd text then some (s, text)
  else
    match turn s text with
    | none => none
    | some (s', rest) =>
      if rest.length < text.length then readLoop atEnd turn s' rest else none
termination_by text.length

section
variable {atEnd : List α → Bool} {turn : σ → List α → Turn σ α} {s s' : σ} {text rest : List α}

theorem readLoop_end (h : atEnd text = true) : readLoop atEnd turn s text = some (s, text) := by
  rw [readLoop, if_pos h]

theorem readLoop_turn (hend : atEnd text = false) (h : turn s text = some (s', rest))
    (hless : rest.length < text.length) :
    readLoop atEnd turn s text = readLoop atEnd turn s' rest := by
  rw [readLoop, if_neg (by rw [hend]; exact Bool.false_ne_true), h]
  exact if_pos hless

theorem readLoop_refused (hend : atEnd text = false) (h : turn s text = none) :
    readLoop atEnd turn s text = none := by
  rw [readLoop, if_neg (by rw [hend]; exact Bool.false_ne_true), h]

/-- **What every turn keeps holds at the end**, of the state and of the rest. -/
theorem readLoop_keeps {P : σ → List α → Prop}
    (hturn : ∀ s text s' rest, P s text → atEnd text = false → turn s text = some (s', rest) →
      P s' rest)
    (h : P s text) (hread : readLoop atEnd turn s text = some (s', rest)) :
    P s' rest ∧ atEnd rest = true := by
  induction hn : text.length using Nat.strongRecOn generalizing s text with
  | _ n ih =>
    rw [readLoop] at hread
    split_ifs at hread with hend
    · cases hread
      exact ⟨h, hend⟩
    · cases ht : turn s text with
      | none => rw [ht] at hread; cases hread
      | some left =>
        rw [ht] at hread
        dsimp only at hread
        split_ifs at hread with hless
        exact ih _ (hn ▸ hless) (hturn _ _ _ _ h (Bool.eq_false_iff.2 hend) ht) hread rfl

end

/-! ## Two readings -/

/-- Steps after answers that agree agree, where each takes agreeing answers to agreeing ones. -/
theorem rel_bind {γ δ : Type} {R : α → β → Prop} {S : γ → δ → Prop} {x : Option α} {y : Option β}
    (h : Option.Rel R x y) {f : α → Option γ} {g : β → Option δ}
    (hfg : ∀ a b, R a b → Option.Rel S (f a) (g b)) : Option.Rel S (x.bind f) (y.bind g) := by
  cases h with
  | none => exact .none
  | some h => exact hfg _ _ h

theorem rel_map {γ δ : Type} {R : α → β → Prop} {S : γ → δ → Prop} {x : Option α} {y : Option β}
    (h : Option.Rel R x y) {f : α → γ} {g : β → δ} (hfg : ∀ a b, R a b → S (f a) (g b)) :
    Option.Rel S (x.map f) (y.map g) := by
  cases h with
  | none => exact .none
  | some h => exact .some (hfg _ _ h)

/-- Answers that agree, with what they are. -/
theorem rel_known {R : α → β → Prop} {x : Option α} {y : Option β} (h : Option.Rel R x y) :
    Option.Rel (fun a b => R a b ∧ x = some a ∧ y = some b) x y := by
  cases h with
  | none => exact .none
  | some h => exact .some ⟨h, rfl, rfl⟩

/-- An agreement that says less. -/
theorem rel_mono {R S : α → β → Prop} {x : Option α} {y : Option β} (h : Option.Rel R x y)
    (hRS : ∀ a b, R a b → S a b) : Option.Rel S x y := by
  cases h with
  | none => exact .none
  | some h => exact .some (hRS _ _ h)

/-- Answers that agree with one and the same answer are one, where it leaves no choice. -/
theorem rel_unique {R : α → β → Prop} {x x' : Option α} {y : Option β} (h : Option.Rel R x y)
    (h' : Option.Rel R x' y) (hR : ∀ a a' b, R a b → R a' b → a = a') : x = x' := by
  cases h with
  | none =>
    cases h'
    rfl
  | some h =>
    cases h' with
    | some h' => rw [hR _ _ _ h h']

/-- **Loops that agree turn by turn agree**: from related states and texts, each turn of both refuses,
or takes something and leaves related ones. -/
theorem readLoop_agree {R : σ × List α → τ × List β → Prop} {atEnd : List α → Bool}
    {atEnd' : List β → Bool} {turn : σ → List α → Turn σ α} {turn' : τ → List β → Turn τ β}
    (hend : ∀ s text t text', R (s, text) (t, text') → atEnd text = atEnd' text')
    (hturn : ∀ s text t text', R (s, text) (t, text') → atEnd text = false →
      Option.Rel (fun left left' => R left left' ∧ left.2.length < text.length ∧
        left'.2.length < text'.length) (turn s text) (turn' t text'))
    {s : σ} {text : List α} {t : τ} {text' : List β} (h : R (s, text) (t, text')) :
    Option.Rel R (readLoop atEnd turn s text) (readLoop atEnd' turn' t text') := by
  induction hn : text.length using Nat.strongRecOn generalizing s text t text' with
  | _ n ih =>
    cases he : atEnd text with
    | true =>
      rw [readLoop_end he, readLoop_end ((hend _ _ _ _ h).symm.trans he)]
      exact .some h
    | false =>
      have he' : atEnd' text' = false := (hend _ _ _ _ h).symm.trans he
      have hagree := hturn _ _ _ _ h he
      cases ht : turn s text with
      | none =>
        cases ht' : turn' t text' with
        | none =>
          rw [readLoop_refused he ht, readLoop_refused he' ht']
          exact .none
        | some left =>
          rw [ht, ht'] at hagree
          cases hagree
      | some left =>
        cases ht' : turn' t text' with
        | none =>
          rw [ht, ht'] at hagree
          cases hagree
        | some left' =>
          rw [ht, ht'] at hagree
          obtain ⟨hR, hless, hless'⟩ := Option.rel_some_some.1 hagree
          rw [readLoop_turn he ht hless, readLoop_turn he' ht' hless']
          exact ih _ (hn ▸ hless) hR rfl

end Huliho
