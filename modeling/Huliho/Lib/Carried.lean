import Mathlib.Data.List.Infix

/-!
# Decoding window by window

A decoder that is handed its text in windows decodes what stands ahead of a cut and carries the rest to
the next window; the last window is decoded whole. Where the decoder splits at every cut it makes, the
windows decode to what the text does at once (**`carried_eq`**), however the text is divided.
-/

namespace Huliho

variable {α β : Type}

/-- What two parts decode to together: nothing where one of them is given up. -/
def appended (first second : Option (List β)) : Option (List β) :=
  first.bind fun content => second.map (content ++ ·)

/-- Whether the decoder splits behind some text, whatever follows it. -/
def Splits (decode : List α → Option (List β)) (text : List α) : Prop :=
  ∀ rest, decode (text ++ rest) = appended (decode text) (decode rest)

/-- The windows decoded: each with what is carried up to its cut, the last one whole. -/
def carried (decode : List α → Option (List β)) (cut : List α → Nat) :
    List α → List (List α) → Option (List β)
  | _, [] => some []
  | held, [window] => decode (held ++ window)
  | held, window :: next :: windows =>
    let text := held ++ window
    appended (decode (text.take (cut text)))
      (carried decode cut (text.drop (cut text)) (next :: windows))

/-- **The windows of a text decode to what the text does at once.** -/
theorem carried_eq {decode : List α → Option (List β)} {cut : List α → Nat} {held : List α}
    {windows : List (List α)} (hwindows : windows ≠ [])
    (hcut : ∀ text, text <:+: held ++ windows.flatten → Splits decode (text.take (cut text))) :
    carried decode cut held windows = decode (held ++ windows.flatten) := by
  induction windows generalizing held with
  | nil => exact absurd rfl hwindows
  | cons window windows ih =>
    cases windows with
    | nil => rw [carried, List.flatten_singleton]
    | cons next windows =>
      have hwhole : held ++ (window :: next :: windows).flatten =
          (held ++ window) ++ (next :: windows).flatten := by
        rw [List.flatten_cons, List.append_assoc]
      rw [hwhole] at hcut ⊢
      rw [carried]
      generalize (held ++ window) = text at hcut ⊢
      have hsplit := hcut text (List.prefix_append _ _).isInfix
      have hrest : carried decode cut (text.drop (cut text)) (next :: windows) =
          decode (text.drop (cut text) ++ (next :: windows).flatten) := by
        refine ih (List.cons_ne_nil next windows) fun part hpart => hcut part ?_
        refine hpart.trans (List.IsSuffix.isInfix ?_)
        refine ⟨text.take (cut text), ?_⟩
        rw [← List.append_assoc, List.take_append_drop]
      rw [hrest, ← hsplit, ← List.append_assoc, List.take_append_drop]

end Huliho
