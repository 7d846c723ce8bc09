import Huliho.AuthResults.Pieces
import Mathlib.Data.List.Basic

/-!
# Words and values

What the readers of a clause take off its front. A reader leaves an ending of its text
(`readWord_suffix`, `readSpec_suffix`), and a value is read as its `Parts` say, up to the next white
space (**`readValue_iff`**): bare units as they stand and quoted strings without their marks.
-/

namespace Huliho.AuthResults

/-- A value as it is written, with what it says. -/
inductive Parts : Text → Text → Prop
  | nil : Parts [] []
  | unit {c : UInt16} {raw value : Text} (hc : c ≠ QUOTE ∧ isSpace c = false)
      (h : Parts raw value) :
      Parts (c :: raw) (c :: value)
  | quoted {inner raw value : Text} (hinner : Quoted inner) (h : Parts raw value) :
      Parts (QUOTE :: inner ++ QUOTE :: raw) (unescape inner ++ value)

variable {text rest raw raw' value value' word : Text} {c : UInt16} {p : UInt16 → Bool}

/-! ## Words -/

theorem skipSpace_suffix (text : Text) : skipSpace text <:+ text := List.dropWhile_suffix _

/-- A word leaves an ending of its text. -/
theorem readWord_suffix (h : readWord text = some (word, rest)) : rest <:+ text := by
  unfold readWord at h
  dsimp only at h
  split_ifs at h
  cases h
  exact (skipSpace_suffix _).trans ((List.dropWhile_suffix _).trans (skipSpace_suffix _))

/-- A word is not empty. -/
theorem readWord_ne (h : readWord text = some (word, rest)) : word ≠ [] := by
  unfold readWord at h
  dsimp only at h
  split_ifs at h with hword
  cases h
  exact hword

/-- A word takes something. -/
theorem readWord_lt (h : readWord text = some (word, rest)) : rest.length < text.length := by
  have hne := readWord_ne h
  unfold readWord at h
  dsimp only at h
  split_ifs at h
  cases h
  have hsplit := congrArg List.length (List.takeWhile_append_dropWhile (p := isKeywordChar)
    (l := skipSpace text))
  rw [List.length_append] at hsplit
  have hword := List.length_pos_iff.2 hne
  have hskip := (skipSpace_suffix text).length_le
  have hleft := (skipSpace_suffix ((skipSpace text).dropWhile isKeywordChar)).length_le
  omega

/-- What a predicate does not let through stays behind. -/
theorem mem_dropWhile (hp : p c = false) (h : c ∈ text) : c ∈ text.dropWhile p := by
  rw [← List.takeWhile_append_dropWhile (p := p) (l := text), List.mem_append] at h
  rcases h with h | h
  · have hpass : p c = true := List.all_eq_true.1 List.all_takeWhile c h
    rw [hp] at hpass
    cases hpass
  · exact h

/-! ## Specs and names -/

theorem readVersion_suffix {known : Bool} (h : readVersion text = some (known, rest)) :
    rest <:+ text := by
  unfold readVersion at h
  split_ifs at h
  · cases h
    exact List.suffix_refl _
  · obtain ⟨⟨version, rest'⟩, hword, h⟩ := Option.bind_eq_some_iff.1 h
    dsimp only at h
    split_ifs at h
    cases h
    exact (readWord_suffix hword).trans (List.tail_suffix _)

/-- What says a result has an equals sign. -/
theorem mem_of_readSpec {lower : Text → Text} {spec : Spec}
    (h : readSpec lower text = some (spec, rest)) : EQUALS ∈ text := by
  obtain ⟨⟨method, afterMethod⟩, hmethod, h⟩ := Option.bind_eq_some_iff.1 h
  obtain ⟨⟨version, afterVersion⟩, hversion, h⟩ := Option.bind_eq_some_iff.1 h
  dsimp only at h hversion
  have hequals : ¬ afterVersion.head? ≠ some EQUALS := fun hne => by
    rw [if_pos hne] at h
    cases h
  have hmem : EQUALS ∈ afterVersion := List.mem_of_mem_head? (not_not.1 hequals)
  exact (readWord_suffix hmethod).subset ((readVersion_suffix hversion).subset hmem)

theorem readName_lt {name : Text} (h : readName text = some (name, rest)) :
    rest.length < text.length := by
  obtain ⟨⟨ptype, afterPtype⟩, hptype, h⟩ := Option.bind_eq_some_iff.1 h
  dsimp only at h
  split_ifs at h
  · cases h
    exact readWord_lt hptype
  · obtain ⟨⟨property, afterProperty⟩, hproperty, h⟩ := Option.map_eq_some_iff.1 h
    obtain rfl : afterProperty = rest := (Prod.mk.inj h).2
    have htail := (List.tail_suffix afterPtype).length_le
    have := readWord_lt hproperty
    have := readWord_lt hptype
    omega

/-! ## Values -/

theorem Parts.append (h : Parts raw value) (h' : Parts raw' value') :
    Parts (raw ++ raw') (value ++ value') := by
  induction h with
  | nil => exact h'
  | unit hc _ ih => exact .unit hc ih
  | quoted hinner _ ih =>
    rw [List.cons_append, List.cons_append, List.append_assoc, List.append_assoc, List.cons_append,
      ← List.cons_append]
    exact .quoted hinner ih

/-- A written value does not start with white space. -/
theorem Parts.starts (h : Parts raw value) (hne : raw ≠ []) (rest : Text) :
    valueEnds (raw ++ rest) = false := by
  cases h with
  | nil => exact absurd rfl hne
  | unit hc _ => exact hc.2
  | quoted => rfl

theorem readQuoted_quoted {inner : Text} (h : Quoted inner) (rest : Text) :
    readQuoted (QUOTE :: inner ++ QUOTE :: rest) = some (unescape inner, rest) := by
  have hend : quotedEnd (QUOTE :: inner ++ QUOTE :: rest).tail = some rest :=
    quotedEnd_quoted h rest
  rw [readQuoted, hend, Option.map_some, slice_quoted]
  simp [quoted]

/-- One turn reads a unit or a quoted string. -/
theorem valueTurn_parts (h : valueTurn value text = some (value', rest))
    (hend : valueEnds text = false) :
    ∃ raw said, raw ≠ [] ∧ text = raw ++ rest ∧ Parts raw said ∧ value' = value ++ said := by
  cases text with
  | nil => cases h
  | cons c text =>
    unfold valueTurn at h
    dsimp only at h
    split_ifs at h with hquote
    · obtain ⟨⟨piece, left⟩, hquoted, h⟩ := Option.map_eq_some_iff.1 h
      obtain ⟨end', hclose, hread⟩ := Option.map_eq_some_iff.1 hquoted
      obtain ⟨inner, hinner, rfl⟩ := exists_quoted hclose
      rw [hquote, ← List.cons_append, readQuoted_quoted hinner] at hquoted
      obtain ⟨rfl, rfl⟩ := Prod.mk.inj (Option.some.inj hquoted)
      obtain ⟨rfl, rfl⟩ := Prod.mk.inj h
      refine ⟨quoted inner, unescape inner, List.cons_ne_nil _ _, ?_, ?_, rfl⟩
      · simp [quoted, hquote]
      · have := Parts.quoted hinner .nil
        rwa [List.append_nil] at this
    · cases h
      exact ⟨[c], [c], List.cons_ne_nil _ _, rfl, .unit ⟨hquote, hend⟩ .nil, rfl⟩

/-- The loop reads what the parts say. -/
theorem readLoop_parts (h : Parts raw value) (hend : valueEnds rest = true) (said : Text) :
    readLoop valueEnds valueTurn said (raw ++ rest) = some (said ++ value, rest) := by
  induction h generalizing said with
  | nil => rw [List.nil_append, readLoop_end hend, List.append_nil]
  | @unit c raw value hc _ ih =>
    have hturn : valueTurn said (c :: (raw ++ rest)) = some (said ++ [c], raw ++ rest) :=
      if_neg hc.1
    rw [List.cons_append, readLoop_turn hc.2 hturn (Nat.lt_succ_self _), ih, List.append_assoc,
      List.singleton_append]
  | @quoted inner raw value hinner _ ih =>
    have hturn : valueTurn said (QUOTE :: inner ++ QUOTE :: (raw ++ rest)) =
        some (said ++ unescape inner, raw ++ rest) := by
      have hquoted := readQuoted_quoted hinner (raw ++ rest)
      rw [List.cons_append] at hquoted ⊢
      rw [valueTurn, if_pos rfl, hquoted]
      rfl
    have hsplit : QUOTE :: inner ++ QUOTE :: raw ++ rest =
        QUOTE :: inner ++ QUOTE :: (raw ++ rest) := List.append_assoc ..
    rw [hsplit, readLoop_turn rfl hturn (by simp; omega), ih, List.append_assoc]

/-- What the loop read are parts. -/
theorem parts_of_readLoop
    (h : readLoop valueEnds valueTurn [] text = some (value, rest)) :
    ∃ raw, text = raw ++ rest ∧ Parts raw value ∧ valueEnds rest = true := by
  have hstep : ∀ said rest said' rest', (∃ raw, text = raw ++ rest ∧ Parts raw said) →
      valueEnds rest = false → valueTurn said rest = some (said', rest') →
      ∃ raw, text = raw ++ rest' ∧ Parts raw said' := by
    rintro said rest said' rest' ⟨raw, hraw, hparts⟩ hend hturn
    obtain ⟨raw', value', -, rfl, hparts', rfl⟩ := valueTurn_parts hturn hend
    exact ⟨raw ++ raw', by rw [hraw, List.append_assoc], hparts.append hparts'⟩
  obtain ⟨⟨raw, hraw, hparts⟩, hend⟩ := readLoop_keeps hstep ⟨[], rfl, .nil⟩ h
  exact ⟨raw, hraw, hparts, hend⟩

/-- **A value is its parts up to the next white space.** -/
theorem readValue_iff : readValue text = some (value, rest) ↔
    ∃ raw, raw ≠ [] ∧ text = raw ++ rest ∧ Parts raw value ∧ valueEnds rest = true := by
  constructor
  · intro h
    obtain ⟨⟨value', rest'⟩, hloop, h⟩ := Option.bind_eq_some_iff.1 h
    dsimp only at h
    split_ifs at h with hlength
    cases h
    obtain ⟨raw, rfl, hparts, hend⟩ := parts_of_readLoop hloop
    refine ⟨raw, ?_, rfl, hparts, hend⟩
    rintro rfl
    exact hlength rfl
  · rintro ⟨raw, hne, rfl, hparts, hend⟩
    have hlength : ¬ rest.length = (raw ++ rest).length := by
      have := List.length_pos_iff.2 hne
      rw [List.length_append]
      omega
    rw [readValue, readLoop_parts hparts hend, List.nil_append, Option.bind_some]
    exact if_neg hlength

/-- One writing of a value says one thing. -/
theorem Parts.unique (h : Parts raw value) (h' : Parts raw value') : value = value' := by
  have hread : readLoop valueEnds valueTurn [] (raw ++ []) = some ([] ++ value, []) :=
    readLoop_parts h rfl []
  rw [readLoop_parts h' rfl] at hread
  exact (Prod.mk.inj (Option.some.inj hread)).1.symm

end Huliho.AuthResults
