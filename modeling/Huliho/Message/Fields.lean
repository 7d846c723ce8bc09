import Mathlib.Data.List.TakeDrop
import Mathlib.Data.List.TakeWhile
import Huliho.Lib.Loops
import Huliho.Message.Header

/-!
# Reading a header back

`split` and `fields` cut a message into its fields and what follows them, and nothing of it is
lost. `Reads gs body` says which lists of fields and which bodies such a cut can answer;
**`reads`** says that every message is cut so and `Reads.cut` that every such list, put together,
is cut into itself. Between them a message and its fields are the same thing.
-/

namespace Huliho.Message

/-- The fields of a message. -/
def fieldsOf (message : Octets) : List Octets := fields (split message).1

/-- What follows the header block of a message. -/
def bodyOf (message : Octets) : Octets := (split message).2

/-- One field: a line and the folded lines after it. -/
def IsField (field : Octets) : Prop :=
  field ≠ [] ∧ ∀ line ∈ (lines newline field).tail, folded line = true

/-- The fields of one header: none but the first opens folded, none but the last is left open. -/
structure Fields (gs : List Octets) : Prop where
  each : ∀ g ∈ gs, IsField g
  heads : ∀ g ∈ gs.tail, folded g = false
  whole : ∀ g ∈ gs.dropLast, Whole newline g

/-- What may follow a header: nothing, or an empty line and anything. -/
def IsBody (body : Octets) : Prop := ∀ line ∈ (lines newline body).head?, emptyLine line = true

/-- The fields and the rest of one message. -/
structure Reads (gs : List Octets) (body : Octets) : Prop where
  fields : Fields gs
  full : ∀ line ∈ lines newline gs.flatten, emptyLine line = false
  rest : IsBody body
  whole : body ≠ [] → Whole newline gs.flatten

/-! ## Fields put together -/

theorem folded_append {line : Octets} (h : line ≠ []) (text : Octets) :
    folded (line ++ text) = folded line := by
  cases line with
  | nil => exact absurd rfl h
  | cons byte line => rfl

theorem folded_flatten {line : Octets} {ls : List Octets} {text : Octets}
    (h : lines newline text = line :: ls) : folded text = folded line := by
  have hflat : (lines newline text).flatten = text := lines_flatten text
  rw [h, List.flatten_cons] at hflat
  rw [← hflat, folded_append (ne_nil_of_mem_lines (by rw [h]; exact List.mem_cons_self))]

/-- Folded lines all go to the field that is read. -/
theorem read_folded {ls : List Octets} (h : ∀ line ∈ ls, folded line = true)
    (done : List Octets) (current : Octets) :
    ls.foldl readLine (done, current) = (done, current ++ ls.flatten) := by
  induction ls generalizing current with
  | nil => simp
  | cons line ls ih =>
    have hline := h line List.mem_cons_self
    rw [List.foldl_cons, readLine, if_neg (by simp [hline]), ih fun l hl =>
      h l (List.mem_cons_of_mem _ hl)]
    simp

/-- A whole field is read into its place. -/
theorem read_field {g : Octets} (hg : IsField g) (done : List Octets) {current : Octets}
    (h : current = [] ∨ folded g = false) :
    (lines newline g).foldl readLine (done, current) =
      (if current = [] then done else done ++ [current], g) := by
  have hne : lines newline g ≠ [] := lines_ne_nil hg.1
  obtain ⟨line, ls, hl⟩ := List.exists_cons_of_ne_nil hne
  have hflat : (lines newline g).flatten = g := lines_flatten g
  have hrest : ∀ line ∈ ls, folded line = true := by
    have := hg.2
    rwa [hl] at this
  rw [hl] at hflat ⊢
  rw [folded_flatten hl] at h
  rw [List.foldl_cons, readLine]
  split
  · rename_i hc
    rw [if_neg hc.2, read_folded hrest]
    exact congrArg _ hflat
  · rename_i hc
    have hnil : current = [] := by
      rcases h with h | h
      · exact h
      · by_contra hne
        exact hc ⟨by simp [h], hne⟩
    rw [if_pos hnil, hnil, read_folded hrest]
    exact congrArg _ hflat

/-- What the loop of `fields` answers at its end. -/
def finished (read : List Octets × Octets) : List Octets :=
  if read.2 ≠ [] then read.1 ++ [read.2] else read.1

theorem fields_eq (header : Octets) :
    fields header = finished ((lines newline header).foldl readLine ([], [])) := rfl

theorem read_fields {gs : List Octets} (hg : ∀ g ∈ gs, IsField g)
    (hh : ∀ g ∈ gs, folded g = false) (done : List Octets) (current : Octets) :
    finished ((gs.map (lines newline)).flatten.foldl readLine (done, current)) =
      finished (done, current) ++ gs := by
  induction gs generalizing done current with
  | nil => simp
  | cons g gs ih =>
    have hfield := hg g List.mem_cons_self
    rw [List.map_cons, List.flatten_cons, List.foldl_append,
      read_field hfield done (.inr (hh g List.mem_cons_self)),
      ih (fun g h => hg g (List.mem_cons_of_mem _ h)) fun g h => hh g (List.mem_cons_of_mem _ h)]
    by_cases hc : current = []
    · simp [finished, hc, hfield.1]
    · simp [finished, hc, hfield.1]

/-- **Fields put together are those fields again.** -/
theorem Fields.fields_flatten {gs : List Octets} (h : Fields gs) : fields gs.flatten = gs := by
  rw [fields_eq, lines_flatten_of_whole h.whole]
  cases gs with
  | nil => rfl
  | cons g gs =>
    have hfield := h.each g List.mem_cons_self
    rw [List.map_cons, List.flatten_cons, List.foldl_append, read_field hfield [] (.inl rfl),
      read_fields (fun g hg => h.each g (List.mem_cons_of_mem _ hg)) h.heads]
    simp [finished, hfield.1]

/-! ## The fields of any header -/

/-- Where the loop of `fields` stands before the lines to come. -/
structure Reading (header : Octets) (coming : List Octets) (read : List Octets × Octets) :
    Prop where
  flat : read.1.flatten ++ read.2 ++ coming.flatten = header
  first : read.2 = [] → read.1 = []
  done : ∀ g ∈ read.1, IsField g ∧ Whole newline g
  current : read.2 ≠ [] → IsField read.2
  heads : ∀ g ∈ (read.1 ++ [read.2]).tail, folded g = false
  opens : coming ≠ [] → Whole newline read.2
  lines : ∀ line ∈ coming, line ≠ [] ∧ Huliho.lines newline line = [line]
  whole : ∀ line ∈ coming.dropLast, Whole newline line

theorem Reading.step {header line : Octets} {coming : List Octets} {read : List Octets × Octets}
    (h : Reading header (line :: coming) read) : Reading header coming (readLine read line) := by
  obtain ⟨done, current⟩ := read
  obtain ⟨hne, hline⟩ := h.lines line List.mem_cons_self
  have hwhole : coming ≠ [] → Whole newline line := fun hc => by
    refine h.whole line ?_
    rw [List.dropLast_cons_of_ne_nil hc]
    exact List.mem_cons_self
  have hcoming : ∀ l ∈ coming, l ≠ [] ∧ Huliho.lines newline l = [l] := fun l hl =>
    h.lines l (List.mem_cons_of_mem _ hl)
  have hlater : ∀ l ∈ coming.dropLast, Whole newline l := fun l hl => by
    refine h.whole l ?_
    rw [List.dropLast_cons_of_ne_nil (List.ne_nil_of_mem (List.dropLast_subset _ hl))]
    exact List.mem_cons_of_mem _ hl
  have hflat := h.flat
  have hcurrent : Whole newline current := h.opens (by simp)
  rw [readLine]
  split
  · rename_i hc
    have hfield := h.current hc.2
    refine ⟨by simpa using hflat, fun hnil => absurd hnil hne, fun g hg => ?_, fun _ =>
      ⟨hne, by simp [hline]⟩, fun g hg => ?_, hwhole, hcoming, hlater⟩
    · rcases List.mem_append.1 hg with hg | hg
      · exact h.done g hg
      · rw [List.mem_singleton.1 hg]
        exact ⟨hfield, hcurrent⟩
    · rw [List.tail_append_of_ne_nil (by simp)] at hg
      rcases List.mem_append.1 hg with hg | hg
      · exact h.heads g hg
      · rw [List.mem_singleton.1 hg]
        simpa using hc.1
  · rename_i hc
    have hjoined : current ++ line ≠ [] := by simp [hne]
    refine ⟨by simpa using hflat, fun hnil => absurd hnil hjoined, h.done, fun _ =>
      ⟨hjoined, fun l hl => ?_⟩, fun g hg => ?_, fun hne' => (hwhole hne').append hne, hcoming,
      hlater⟩
    · rw [lines_append hcurrent, hline] at hl
      by_cases hnil : current = []
      · rw [hnil] at hl
        cases hl
      · have hfolded : folded line = true := by
          by_contra hf
          exact hc ⟨by simpa using hf, hnil⟩
        rw [List.tail_append_of_ne_nil (lines_ne_nil hnil)] at hl
        rcases List.mem_append.1 hl with hl | hl
        · exact (h.current hnil).2 l hl
        · rw [List.mem_singleton.1 hl]
          exact hfolded
    · by_cases hnil : current = []
      · rw [h.first hnil] at hg
        cases hg
      · have hheads := h.heads
        cases done with
        | nil => cases hg
        | cons first done =>
          rw [List.cons_append, List.tail_cons] at hg hheads
          rcases List.mem_append.1 hg with hg | hg
          · exact hheads g (List.mem_append_left _ hg)
          · rw [List.mem_singleton.1 hg, folded_append hnil]
            exact hheads current (by simp)

/-- **The fields of a header are fields, and together they are the header.** -/
theorem fields_spec (header : Octets) :
    Fields (fields header) ∧ (fields header).flatten = header := by
  have hstart : Reading header (lines newline header) ([], []) := by
    refine ⟨by simp, fun _ => rfl, by simp, by simp, by simp, fun _ => .inl rfl, fun line hl =>
      ⟨ne_nil_of_mem_lines hl, lines_of_mem_lines hl⟩, fun line hl => whole_of_mem_dropLast hl⟩
  have hend := foldl_rest (P := Reading header) (f := readLine)
    (fun line coming read h => h.step) hstart
  rw [fields_eq]
  generalize (lines newline header).foldl readLine ([], []) = read at hend
  obtain ⟨done, current⟩ := read
  have hflat := hend.flat
  have hheads := hend.heads
  by_cases hnil : current = []
  · have hdone := hend.first hnil
    simp only at hdone
    subst hnil hdone
    exact ⟨⟨by simp [finished], by simp [finished], by simp [finished]⟩,
      by simpa [finished] using hflat⟩
  · have hfin : finished (done, current) = done ++ [current] := if_pos hnil
    rw [hfin]
    refine ⟨⟨fun g hg => ?_, hheads, fun g hg => ?_⟩, by simpa using hflat⟩
    · rcases List.mem_append.1 hg with hg | hg
      · exact (hend.done g hg).1
      · rw [List.mem_singleton.1 hg]
        exact hend.current hnil
    · rw [List.dropLast_concat] at hg
      exact (hend.done g hg).2

/-! ## Where the header ends -/

theorem split_eq (message : Octets) :
    split message =
      (((lines newline message).takeWhile fun line => !emptyLine line).flatten,
        ((lines newline message).dropWhile fun line => !emptyLine line).flatten) := by
  rw [split, List.span_eq_takeWhile_dropWhile]

/-- **A header without an empty line and a body cut back into themselves.** -/
theorem split_append {header body : Octets}
    (hf : ∀ line ∈ lines newline header, emptyLine line = false) (hb : IsBody body)
    (hw : body ≠ [] → Whole newline header) : split (header ++ body) = (header, body) := by
  have hlines : lines newline (header ++ body) = lines newline header ++ lines newline body := by
    by_cases hnil : body = []
    · simp [hnil]
    · exact lines_append (hw hnil) body
  have htake : ((lines newline body).takeWhile fun line => !emptyLine line) = [] ∧
      ((lines newline body).dropWhile fun line => !emptyLine line) = lines newline body := by
    cases hl : lines newline body with
    | nil => exact ⟨rfl, rfl⟩
    | cons line ls =>
      have hempty := hb line (by rw [hl]; rfl)
      simp [hempty]
  have hall : ∀ line ∈ lines newline header, (!emptyLine line) = true := fun line hl => by
    simp [hf line hl]
  rw [split_eq, hlines, List.takeWhile_append_of_pos hall, List.dropWhile_append_of_pos hall,
    htake.1, htake.2, List.append_nil, lines_flatten, lines_flatten]

/-- Part of the lines of a text, put together, are those lines again. -/
theorem lines_infix (before : List Octets) {ls : List Octets} (rest : List Octets) {text : Octets}
    (h : lines newline text = before ++ (ls ++ rest)) : lines newline ls.flatten = ls := by
  have hmem : ∀ line ∈ ls, line ∈ lines newline text := fun line hl => by
    rw [h]
    simp [hl]
  refine lines_flatten_lines (fun line hl => lines_of_mem_lines (hmem line hl)) fun line hl => ?_
  have hne : ls ≠ [] := List.ne_nil_of_mem (List.dropLast_subset _ hl)
  have hin : line ∈ (lines newline text).dropLast := by
    rw [h, List.dropLast_append_of_ne_nil (by simp [hne]), List.dropLast_append]
    refine List.mem_append_right _ ?_
    split
    · exact hl
    · exact List.mem_append_left _ (List.dropLast_subset _ hl)
  exact whole_of_mem_dropLast hin

/-- The lines of the header and of the rest are the lines of the message. -/
theorem split_lines (message : Octets) :
    lines newline (split message).1 =
        ((lines newline message).takeWhile fun line => !emptyLine line) ∧
      lines newline (bodyOf message) =
        ((lines newline message).dropWhile fun line => !emptyLine line) ∧
      lines newline message =
        lines newline (split message).1 ++ lines newline (bodyOf message) := by
  have hcut : lines newline message =
      ((lines newline message).takeWhile fun line => !emptyLine line) ++
        ((lines newline message).dropWhile fun line => !emptyLine line) :=
    List.takeWhile_append_dropWhile.symm
  have hheader : lines newline (split message).1 =
      ((lines newline message).takeWhile fun line => !emptyLine line) := by
    rw [split_eq]
    exact lines_infix [] _ hcut
  have hbody : lines newline (bodyOf message) =
      ((lines newline message).dropWhile fun line => !emptyLine line) := by
    rw [bodyOf, split_eq]
    exact lines_infix _ [] (by rw [List.append_nil]; exact hcut)
  exact ⟨hheader, hbody, by rw [hheader, hbody]; exact hcut⟩

/-- A header that is not the whole message is whole. -/
theorem split_whole {message : Octets} (h : bodyOf message ≠ []) :
    Whole newline (split message).1 := by
  obtain ⟨-, -, hlines⟩ := split_lines message
  have hflat : (lines newline (split message).1).flatten = (split message).1 := lines_flatten _
  rcases List.eq_nil_or_concat (lines newline (split message).1) with hnil | ⟨init, last, hlast⟩
  · rw [hnil] at hflat
    exact .inl hflat.symm
  · rw [hlast, List.concat_eq_append] at hlines hflat
    have hin : last ∈ (lines newline message).dropLast := by
      rw [hlines, List.dropLast_append_of_ne_nil (lines_ne_nil h)]
      simp
    rw [List.flatten_append, List.flatten_singleton] at hflat
    rw [← hflat]
    refine (whole_of_mem_dropLast hin).append ?_
    exact ne_nil_of_mem_lines (List.dropLast_subset _ hin)

/-- **Every message is cut into its fields and what follows them.** -/
theorem reads (message : Octets) :
    Reads (fieldsOf message) (bodyOf message) ∧
      (fieldsOf message).flatten ++ bodyOf message = message := by
  obtain ⟨hheader, hbody, hlines⟩ := split_lines message
  obtain ⟨hfields, hflat⟩ := fields_spec (split message).1
  refine ⟨⟨hfields, fun line hl => ?_, fun line hl => ?_, fun hne => ?_⟩, ?_⟩
  · rw [fieldsOf, hflat, hheader] at hl
    simpa using List.mem_takeWhile_imp hl
  · rw [hbody, Option.mem_def] at hl
    have := List.head?_dropWhile_not (fun line => !emptyLine line) (lines newline message)
    rw [hl] at this
    simpa using this
  · rw [fieldsOf, hflat]
    exact split_whole hne
  · have := congrArg List.flatten hlines
    rw [lines_flatten, List.flatten_append, lines_flatten, lines_flatten] at this
    rw [fieldsOf, hflat, ← this]

/-- **And every such list, put together, is cut into itself.** -/
theorem Reads.cut {gs : List Octets} {body : Octets} (h : Reads gs body) :
    fieldsOf (gs.flatten ++ body) = gs ∧ bodyOf (gs.flatten ++ body) = body := by
  rw [fieldsOf, bodyOf, split_append h.full h.rest h.whole]
  exact ⟨h.fields.fields_flatten, rfl⟩

end Huliho.Message
