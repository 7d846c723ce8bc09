import Mathlib.Data.List.Basic

/-!
# Lines

A text is cut after each end of line, so a line carries its own end and only the last may lack it:
`lines` is the cut, `lines_flatten` says that nothing is lost. A text is `Whole` where no line of it
is left open; such a text can be put before any other without touching it (**`lines_append`**), and
that is all a proof about texts made of lines needs.
-/

namespace Huliho

variable {α : Type} {eol a : α} {text rest : List α}

/-- Puts an item before the first line. -/
def onFirst (a : α) : List (List α) → List (List α)
  | [] => [[a]]
  | line :: rest => (a :: line) :: rest

theorem flatten_onFirst (ls : List (List α)) : (onFirst a ls).flatten = a :: ls.flatten := by
  cases ls <;> simp [onFirst]

theorem onFirst_append {ls : List (List α)} (h : ls ≠ []) (ls' : List (List α)) :
    onFirst a (ls ++ ls') = onFirst a ls ++ ls' := by
  cases ls with
  | nil => exact absurd rfl h
  | cons line ls => rfl

/-- No line is left open. -/
def Whole (eol : α) (text : List α) : Prop := text = [] ∨ text.getLast? = some eol

theorem Whole.of_cons (h : Whole eol (a :: text)) : Whole eol text := by
  cases text with
  | nil => exact .inl rfl
  | cons b text =>
    refine .inr ?_
    rcases h with h | h
    · cases h
    · rwa [List.getLast?_cons_cons] at h

/-- What puts an item before the first line does to the lines, one by one. -/
theorem mem_onFirst {ls : List (List α)} {line : List α} (h : line ∈ onFirst a ls) :
    line = [a] ∧ ls = [] ∨ (∃ first, ls.head? = some first ∧ line = a :: first) ∨
      line ∈ ls.tail := by
  cases ls with
  | nil => exact .inl ⟨List.mem_singleton.1 h, rfl⟩
  | cons first rest =>
    rcases List.mem_cons.1 h with rfl | h
    · exact .inr (.inl ⟨first, rfl, rfl⟩)
    · exact .inr (.inr h)

theorem Whole.append {text rest : List α} (hr : Whole eol rest) (h : rest ≠ []) :
    Whole eol (text ++ rest) := by
  rcases hr with hc | hr
  · exact absurd hc h
  · exact .inr (by rw [List.getLast?_append, hr]; rfl)

variable [DecidableEq α]

/-- The lines of a text, each with its end. -/
def lines (eol : α) : List α → List (List α)
  | [] => []
  | a :: text => if a = eol then [a] :: lines eol text else onFirst a (lines eol text)

@[simp] theorem lines_nil : lines eol [] = [] := rfl

/-- **Nothing is lost.** -/
@[simp] theorem lines_flatten (text : List α) : (lines eol text).flatten = text := by
  induction text with
  | nil => rfl
  | cons a text ih =>
    rw [lines]
    split
    · simp [ih]
    · rw [flatten_onFirst, ih]

theorem lines_ne_nil (h : text ≠ []) : lines eol text ≠ [] := by
  intro hc
  have hflat : (lines eol text).flatten = text := lines_flatten text
  rw [hc] at hflat
  exact h hflat.symm

/-- **A whole text before another one** keeps its lines. -/
theorem lines_append (h : Whole eol text) (rest : List α) :
    lines eol (text ++ rest) = lines eol text ++ lines eol rest := by
  induction text with
  | nil => rfl
  | cons a text ih =>
    rw [List.cons_append, lines, lines, ih h.of_cons]
    split
    · rfl
    · rename_i ha
      refine onFirst_append (lines_ne_nil fun hc => ha ?_) _
      subst hc
      rcases h with h | h
      · cases h
      · simpa using h

/-- A text without an end of line is one open line. -/
theorem lines_of_notMem (h : eol ∉ text) (hne : text ≠ []) : lines eol text = [text] := by
  induction text with
  | nil => exact absurd rfl hne
  | cons a text ih =>
    rw [List.mem_cons, not_or] at h
    rw [lines, if_neg fun hc => h.1 hc.symm]
    cases text with
    | nil => rfl
    | cons b text => rw [ih h.2 (by simp)]; rfl

/-- A text in front of the first end of line belongs to the first line. -/
theorem lines_prefix (h : eol ∉ text) {line : List α} {ls : List (List α)}
    (hl : lines eol rest = line :: ls) : lines eol (text ++ rest) = (text ++ line) :: ls := by
  induction text with
  | nil => exact hl
  | cons a text ih =>
    rw [List.mem_cons, not_or] at h
    rw [List.cons_append, lines, if_neg fun hc => h.1 hc.symm, ih h.2]
    rfl

/-- A text that ends in its one end of line is one line. -/
theorem lines_single (h : eol ∉ text) : lines eol (text ++ [eol]) = [text ++ [eol]] :=
  lines_prefix h (by simp [lines])

theorem ne_nil_of_mem_lines {line : List α} (h : line ∈ lines eol text) : line ≠ [] := by
  induction text generalizing line with
  | nil => cases h
  | cons a text ih =>
    rw [lines] at h
    split at h
    · rcases List.mem_cons.1 h with rfl | h
      · simp
      · exact ih h
    · rcases mem_onFirst h with ⟨rfl, -⟩ | ⟨first, -, rfl⟩ | h
      · simp
      · simp
      · exact ih (List.mem_of_mem_tail h)

/-- A line is one line. -/
theorem lines_of_mem_lines {line : List α} (h : line ∈ lines eol text) :
    lines eol line = [line] := by
  induction text generalizing line with
  | nil => cases h
  | cons a text ih =>
    rw [lines] at h
    split at h
    · rename_i ha
      rcases List.mem_cons.1 h with rfl | h
      · simp [lines, ha]
      · exact ih h
    · rename_i ha
      rcases mem_onFirst h with ⟨rfl, -⟩ | ⟨first, hf, rfl⟩ | h
      · simp [lines, ha, onFirst]
      · rw [lines, if_neg ha, ih (List.mem_of_head? hf)]
        rfl
      · exact ih (List.mem_of_mem_tail h)

/-- Only the last line may be open. -/
theorem whole_of_mem_dropLast {line : List α} (h : line ∈ (lines eol text).dropLast) :
    Whole eol line := by
  induction text generalizing line with
  | nil => cases h
  | cons a text ih =>
    rw [lines] at h
    split at h
    · rename_i ha
      cases hl : lines eol text with
      | nil => rw [hl] at h; cases h
      | cons first ls =>
        rw [hl, List.dropLast_cons_of_ne_nil (by simp)] at h
        rcases List.mem_cons.1 h with rfl | h
        · exact .inr (by simp [ha])
        · exact ih (by rw [hl]; exact h)
    · cases hl : lines eol text with
      | nil => rw [hl] at h; cases h
      | cons first ls =>
        rw [hl] at h
        cases ls with
        | nil => cases h
        | cons second ls =>
          rw [onFirst, List.dropLast_cons_of_ne_nil (by simp)] at h
          rcases List.mem_cons.1 h with rfl | h
          · have hne : first ≠ [] := ne_nil_of_mem_lines (by rw [hl]; exact List.mem_cons_self)
            have hfirst : Whole eol first := ih (by rw [hl]; simp)
            obtain ⟨b, first, rfl⟩ := List.exists_cons_of_ne_nil hne
            rcases hfirst with hc | hlast
            · cases hc
            · exact .inr (by rw [List.getLast?_cons_cons]; exact hlast)
          · exact ih (by rw [hl, List.dropLast_cons_of_ne_nil (by simp)]
                         exact List.mem_cons_of_mem _ h)

/-- Whole texts one after another have their lines one after another. -/
theorem lines_flatten_of_whole :
    ∀ {texts : List (List α)}, (∀ text ∈ texts.dropLast, Whole eol text) →
      lines eol texts.flatten = (texts.map (lines eol)).flatten := by
  intro texts
  induction texts with
  | nil => intro _; rfl
  | cons text texts ih =>
    intro h
    cases texts with
    | nil => simp
    | cons next texts =>
      rw [List.dropLast_cons_of_ne_nil (by simp)] at h
      rw [List.flatten_cons, lines_append (h text List.mem_cons_self),
        ih fun t ht => h t (List.mem_cons_of_mem _ ht)]
      rfl

/-- Lines put together are those lines again. -/
theorem lines_flatten_lines {ls : List (List α)} (hl : ∀ line ∈ ls, lines eol line = [line])
    (hw : ∀ line ∈ ls.dropLast, Whole eol line) : lines eol ls.flatten = ls := by
  rw [lines_flatten_of_whole hw, List.map_congr_left hl, ← List.flatMap_def]
  exact List.flatMap_singleton' ls

/-- A text with an open line takes the next text's first line into it. -/
theorem lines_of_open {line : List α} {ls : List (List α)} (h : ¬ Whole eol text)
    (hl : lines eol rest = line :: ls) :
    ∃ init last, eol ∉ last ∧ lines eol text = init ++ [last] ∧
      lines eol (text ++ rest) = init ++ (last ++ line) :: ls := by
  induction text with
  | nil => exact absurd (.inl rfl) h
  | cons a text ih =>
    by_cases ha : a = eol
    · have hopen : ¬ Whole eol text := by
        rintro (rfl | hw)
        · exact h (.inr (by simp [ha]))
        · refine h (.inr ?_)
          rw [List.getLast?_cons, hw]
          rfl
      obtain ⟨init, last, hlast, htext, hboth⟩ := ih hopen
      refine ⟨[a] :: init, last, hlast, ?_, ?_⟩
      · rw [lines, if_pos ha, htext]
        rfl
      · rw [List.cons_append, lines, if_pos ha, hboth]
        rfl
    · cases text with
      | nil =>
        refine ⟨[], [a], by simpa using Ne.symm ha, by simp [lines, ha, onFirst], ?_⟩
        rw [List.singleton_append, lines, if_neg ha, hl]
        rfl
      | cons b text =>
        have hopen : ¬ Whole eol (b :: text) := by
          rintro (hc | hw)
          · cases hc
          · exact h (.inr (by rw [List.getLast?_cons_cons]; exact hw))
        obtain ⟨init, last, hlast, htext, hboth⟩ := ih hopen
        rw [lines, if_neg ha, htext, List.cons_append, lines, if_neg ha, hboth]
        cases init with
        | nil => exact ⟨[], a :: last, by simp [hlast, Ne.symm ha], rfl, rfl⟩
        | cons first init => exact ⟨(a :: first) :: init, last, hlast, rfl, rfl⟩

end Huliho
