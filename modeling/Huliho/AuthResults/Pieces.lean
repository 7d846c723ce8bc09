import Huliho.AuthResults.Header

/-!
# Comments, quoted strings and folds

The grammar of RFC 5322 the scan goes by: `Inside` is what a comment may hold, `Quoted` what a
quoted string may. Whatever follows, the scan ends where the comment or the string does
(**`commentEnd_comment`**, **`quotedEnd_quoted`**), and where a string ends by the scan it does by
the grammar (`exists_quoted`). Taking the folds out of a text keeps both (**`Inside.unfold`**,
**`Quoted.unfold`**), so it does not matter that the header is unfolded before it is read.
-/

namespace Huliho.AuthResults

/-- What a comment holds: units that mean nothing, quoted pairs and comments. -/
inductive Inside : Text → Prop
  | nil : Inside []
  | unit {c : UInt16} {rest : Text} (h : c ≠ OPEN ∧ c ≠ CLOSE ∧ c ≠ BACKSLASH)
      (hrest : Inside rest) : Inside (c :: rest)
  | pair {c : UInt16} {rest : Text} (hrest : Inside rest) : Inside (BACKSLASH :: c :: rest)
  | nested {inner rest : Text} (hinner : Inside inner) (hrest : Inside rest) :
      Inside (OPEN :: inner ++ CLOSE :: rest)

/-- What a quoted string holds: units that mean nothing and quoted pairs. -/
inductive Quoted : Text → Prop
  | nil : Quoted []
  | unit {c : UInt16} {rest : Text} (h : c ≠ QUOTE ∧ c ≠ BACKSLASH) (hrest : Quoted rest) :
      Quoted (c :: rest)
  | pair {c : UInt16} {rest : Text} (hrest : Quoted rest) : Quoted (BACKSLASH :: c :: rest)

/-- A comment as it is written. -/
def comment (inner : Text) : Text := OPEN :: inner ++ [CLOSE]

/-- A quoted string as it is written. -/
def quoted (inner : Text) : Text := QUOTE :: inner ++ [QUOTE]

/-- A unit that starts no piece of its own. -/
def Plain (c : UInt16) : Prop := c ≠ OPEN ∧ c ≠ QUOTE ∧ c ≠ CLOSE

instance (c : UInt16) : Decidable (Plain c) := inferInstanceAs (Decidable (_ ∧ _ ∧ _))

variable {c : UInt16} {text rest inner : Text} {depth : Nat}

/-! ## Ends -/

theorem commentEnd_cons (depth : Nat) (c : UInt16) (rest : Text) :
    commentEnd depth (c :: rest) =
      if c = OPEN then commentEnd (depth + 1) rest
      else if c = CLOSE then if depth = 1 then some rest else commentEnd (depth - 1) rest
      else if c = BACKSLASH then
        match rest with
        | [] => none
        | _ :: rest => commentEnd depth rest
      else commentEnd depth rest := commentEnd.eq_def ..

theorem quotedEnd_cons (c : UInt16) (rest : Text) :
    quotedEnd (c :: rest) =
      if c = QUOTE then some rest
      else if c = BACKSLASH then
        match rest with
        | [] => none
        | _ :: rest => quotedEnd rest
      else quotedEnd rest := quotedEnd.eq_def _

/-- The inside of a comment leaves the depth as it was. -/
theorem commentEnd_inside (h : Inside inner) (depth : Nat) (rest : Text) :
    commentEnd (depth + 1) (inner ++ rest) = commentEnd (depth + 1) rest := by
  induction h generalizing depth rest with
  | nil => rfl
  | unit h _ ih =>
    rw [List.cons_append, commentEnd_cons, if_neg h.1, if_neg h.2.1, if_neg h.2.2, ih]
  | pair _ ih =>
    rw [List.cons_append, commentEnd_cons, if_neg (by decide), if_neg (by decide), if_pos rfl]
    exact ih depth rest
  | nested _ _ ihinner ih =>
    rw [List.cons_append, List.cons_append, List.append_assoc, commentEnd_cons, if_pos rfl, ihinner,
      List.cons_append, commentEnd_cons, if_neg (by decide), if_pos rfl, if_neg (by omega),
      Nat.add_sub_cancel, ih]

/-- **A comment ends where it closes.** -/
theorem commentEnd_comment (h : Inside inner) (rest : Text) :
    commentEnd 0 (OPEN :: inner ++ CLOSE :: rest) = some rest := by
  rw [List.cons_append, commentEnd_cons, if_pos rfl, commentEnd_inside h, commentEnd_cons,
    if_neg (by decide), if_pos rfl, if_pos rfl]

/-- **A quoted string ends where it closes.** -/
theorem quotedEnd_quoted (h : Quoted inner) (rest : Text) :
    quotedEnd (inner ++ QUOTE :: rest) = some rest := by
  induction h with
  | nil => rw [List.nil_append, quotedEnd_cons, if_pos rfl]
  | unit h _ ih => rw [List.cons_append, quotedEnd_cons, if_neg h.1, if_neg h.2, ih]
  | pair _ ih =>
    rw [List.cons_append, quotedEnd_cons, if_neg (by decide), if_pos rfl]
    exact ih

/-- What the scan ends is a quoted string. -/
theorem exists_quoted (h : quotedEnd text = some rest) :
    ∃ inner, Quoted inner ∧ text = inner ++ QUOTE :: rest := by
  induction text using quotedEnd.induct with
  | case1 => cases h
  | case2 text =>
    rw [quotedEnd_cons, if_pos rfl] at h
    cases h
    exact ⟨[], .nil, rfl⟩
  | case3 hne =>
    rw [quotedEnd_cons, if_neg (by decide), if_pos rfl] at h
    cases h
  | case4 d text hne ih =>
    rw [quotedEnd_cons, if_neg (by decide), if_pos rfl] at h
    obtain ⟨inner, hinner, rfl⟩ := ih h
    exact ⟨BACKSLASH :: d :: inner, .pair hinner, rfl⟩
  | case5 c text hquote hback ih =>
    rw [quotedEnd_cons, if_neg hquote, if_neg hback] at h
    obtain ⟨inner, hinner, rfl⟩ := ih h
    exact ⟨c :: inner, .unit ⟨hquote, hback⟩ hinner, rfl⟩

/-- A comment takes something. -/
theorem commentEnd_lt (h : commentEnd depth text = some rest) : rest.length < text.length := by
  induction depth, text using commentEnd.induct with
  | case1 => cases h
  | case2 depth text ih =>
    rw [commentEnd_cons, if_pos rfl] at h
    exact Nat.lt_succ_of_lt (ih h)
  | case3 text hne =>
    rw [commentEnd_cons, if_neg (by decide), if_pos rfl, if_pos rfl] at h
    cases h
    exact Nat.lt_succ_self _
  | case4 depth text hdepth hne ih =>
    rw [commentEnd_cons, if_neg (by decide), if_pos rfl, if_neg hdepth] at h
    exact Nat.lt_succ_of_lt (ih h)
  | case5 depth hopen hclose =>
    rw [commentEnd_cons, if_neg (by decide), if_neg (by decide), if_pos rfl] at h
    cases h
  | case6 depth d text hopen hclose ih =>
    rw [commentEnd_cons, if_neg (by decide), if_neg (by decide), if_pos rfl] at h
    exact Nat.lt_succ_of_lt (Nat.lt_succ_of_lt (ih h))
  | case7 depth c text hopen hclose hback ih =>
    rw [commentEnd_cons, if_neg hopen, if_neg hclose, if_neg hback] at h
    exact Nat.lt_succ_of_lt (ih h)

theorem quotedEnd_lt (h : quotedEnd text = some rest) : rest.length < text.length := by
  obtain ⟨inner, -, rfl⟩ := exists_quoted h
  rw [List.length_append, List.length_cons]
  omega

/-- A piece takes something. -/
theorem pieceEnd_lt (h : pieceEnd text = some rest) : rest.length < text.length := by
  cases text with
  | nil => cases h
  | cons c text =>
    unfold pieceEnd at h
    dsimp only at h
    split_ifs at h
    · exact commentEnd_lt h
    · exact Nat.lt_succ_of_lt (quotedEnd_lt h)
    · cases h
      exact Nat.lt_succ_self _

/-! ## Folds -/

theorem unfold_step (c : UInt16) (rest : Text) :
    unfold (c :: rest) = if startsFold (c :: rest) then unfold rest else c :: unfold rest := rfl

theorem startsFold_append (hc : isSpace c = false) (text rest : Text) :
    startsFold (text ++ c :: rest) = startsFold text := by
  have hblank : isBlank c = false := by
    unfold isSpace at hc
    unfold isBlank
    simp only [Bool.or_eq_false_iff] at hc ⊢
    exact hc.1.1
  have hline : c ≠ CR ∧ c ≠ LF := by
    unfold isSpace at hc
    simp only [Bool.or_eq_false_iff, decide_eq_false_iff_not] at hc
    exact ⟨hc.1.2, hc.2⟩
  -- A fold is seen in three units at most.
  rcases text with _ | ⟨d, _ | ⟨e, _ | ⟨f, text⟩⟩⟩
  · simp [startsFold, hline.1, hline.2]
  · simp [startsFold, hblank, hline.2]
  · simp [startsFold, hblank]
  · simp [startsFold]

/-- A unit that is no space stands between the folds before it and after it. -/
theorem unfold_append (hc : isSpace c = false) (text rest : Text) :
    unfold (text ++ c :: rest) = unfold text ++ c :: unfold rest := by
  induction text with
  | nil =>
    have hstays : startsFold (c :: rest) = false := startsFold_append hc [] rest
    rw [List.nil_append, unfold_step, hstays]
    rfl
  | cons d text ih =>
    have := startsFold_append hc (d :: text) rest
    rw [List.cons_append] at this ⊢
    rw [unfold_step, this, ih, unfold_step]
    split_ifs <;> rfl

/-- Behind a line break that folds a line comes a space or a tab. -/
theorem unfold_of_fold (h : startsFold (c :: text) = true) :
    ∃ blank rest, isBlank blank = true ∧ unfold text = blank :: rest := by
  have hblank : ∀ {b : UInt16} {rest : Text}, isBlank b = true →
      unfold (b :: rest) = b :: unfold rest := by
    intro b rest hb
    have hline : b ≠ LF ∧ b ≠ CR := by
      constructor
      all_goals
        rintro rfl
        exact absurd hb (by decide)
    rw [unfold_step, if_neg]
    simp [startsFold, hline.1, hline.2]
  unfold startsFold at h
  rw [Bool.or_eq_true] at h
  rcases h with h | h
  · obtain ⟨-, h⟩ := Bool.and_eq_true_iff.1 h
    cases text with
    | nil => cases h
    | cons b rest => exact ⟨b, unfold rest, h, hblank h⟩
  · obtain ⟨h, hb⟩ := Bool.and_eq_true_iff.1 h
    obtain ⟨-, hlf⟩ := Bool.and_eq_true_iff.1 h
    rcases text with _ | ⟨d, _ | ⟨b, rest⟩⟩
    · cases hb
    · cases hb
    · obtain rfl : d = LF := by simpa using hlf
      have hb : isBlank b = true := hb
      refine ⟨b, unfold rest, hb, ?_⟩
      rw [unfold_step, if_pos (by simp [startsFold, hb]), hblank hb]

/-- A unit that starts no fold stays. -/
theorem unfold_cons (hc : isSpace c = false) (rest : Text) :
    unfold (c :: rest) = c :: unfold rest :=
  unfold_append hc [] rest

/-- A quoted pair stays one, though what it quotes may be the first unit of a fold. -/
theorem unfold_pair (c : UInt16) (rest : Text) :
    (∃ rest', unfold (BACKSLASH :: c :: rest) = BACKSLASH :: c :: rest' ∧ rest' = unfold rest) ∨
      ∃ blank rest', isBlank blank = true ∧ unfold rest = blank :: rest' ∧
        unfold (BACKSLASH :: c :: rest) = BACKSLASH :: blank :: rest' := by
  rw [unfold_cons (by decide), unfold_step]
  split_ifs with h
  · obtain ⟨blank, rest', hblank, hrest⟩ := unfold_of_fold h
    exact .inr ⟨blank, rest', hblank, hrest, by rw [hrest]⟩
  · exact .inl ⟨_, rfl, rfl⟩

/-- **The inside of a comment stays one when its lines are unfolded.** -/
theorem Inside.unfold (h : Inside inner) : Inside (unfold inner) := by
  induction h with
  | nil => exact .nil
  | @unit c rest h _ ih =>
    rw [unfold_step]
    split_ifs
    · exact ih
    · exact .unit h ih
  | @pair c rest _ ih =>
    rcases unfold_pair c rest with ⟨_, h, rfl⟩ | ⟨blank, rest', hblank, hrest, h⟩
    · rw [h]
      exact .pair ih
    · rw [h]
      rw [hrest] at ih
      cases ih with
      | unit _ hrest' => exact .pair hrest'
      | pair => exact absurd hblank (by decide)
      | nested => exact absurd hblank (by decide)
  | nested _ _ ihinner ih =>
    rw [List.cons_append, unfold_cons (by decide), unfold_append (by decide)]
    exact .nested ihinner ih

/-- **What a quoted string holds stays such when its lines are unfolded.** -/
theorem Quoted.unfold (h : Quoted inner) : Quoted (unfold inner) := by
  induction h with
  | nil => exact .nil
  | @unit c rest h _ ih =>
    rw [unfold_step]
    split_ifs
    · exact ih
    · exact .unit h ih
  | @pair c rest _ ih =>
    rcases unfold_pair c rest with ⟨_, h, rfl⟩ | ⟨blank, rest', hblank, hrest, h⟩
    · rw [h]
      exact .pair ih
    · rw [h]
      rw [hrest] at ih
      cases ih with
      | unit _ hrest' => exact .pair hrest'
      | pair => exact absurd hblank (by decide)

/-! ## Pieces -/

theorem pieceEnd_unit (hc : Plain c) (rest : Text) : pieceEnd (c :: rest) = some rest := by
  rw [pieceEnd, if_neg hc.1, if_neg hc.2.1, if_neg hc.2.2]

theorem pieceEnd_comment (h : Inside inner) (rest : Text) :
    pieceEnd (OPEN :: inner ++ CLOSE :: rest) = some rest := by
  rw [List.cons_append, pieceEnd, if_pos rfl, ← List.cons_append]
  exact commentEnd_comment h rest

theorem pieceEnd_quoted (h : Quoted inner) (rest : Text) :
    pieceEnd (QUOTE :: inner ++ QUOTE :: rest) = some rest := by
  rw [List.cons_append, pieceEnd, if_neg (by decide), if_pos rfl]
  exact quotedEnd_quoted h rest

theorem slice_append (text rest : Text) : slice (text ++ rest) rest = text := by
  unfold slice
  rw [List.length_append, Nat.add_sub_cancel, List.take_left]

theorem slice_unit (c : UInt16) (rest : Text) : slice (c :: rest) rest = [c] :=
  slice_append [c] rest

theorem slice_quoted (inner rest : Text) :
    slice (QUOTE :: inner ++ QUOTE :: rest) rest = quoted inner := by
  have hsplit : QUOTE :: inner ++ QUOTE :: rest = quoted inner ++ rest := by simp [quoted]
  rw [hsplit, slice_append]

/-! ## Cutting -/

/-- The scan from a cut on. -/
abbrev Cut.scan (cut : Cut) (text : Text) : Turn Cut UInt16 :=
  readLoop List.isEmpty Cut.turn cut text

/-- A clause that is closed. -/
def Cut.next (cut : Cut) : Cut := ⟨cut.clauses ++ [cut.clause], []⟩

/-- Text added to the clause. -/
def Cut.add (cut : Cut) (text : Text) : Cut := ⟨cut.clauses, cut.clause ++ text⟩

variable {cut : Cut}

/-- A plain unit goes into the clause. -/
theorem Cut.turn_unit (hc : Plain c) (hsemi : c ≠ SEMICOLON) (rest : Text) :
    cut.turn (c :: rest) = some (cut.add [c], rest) := by
  have hopen : ¬ some c = some OPEN := fun h => hc.1 (Option.some.inj h)
  have hnext : ¬ some c = some SEMICOLON := fun h => hsemi (Option.some.inj h)
  rw [Cut.turn, pieceEnd_unit hc, Option.map_some, List.head?_cons, if_neg hnext, if_neg hopen,
    slice_unit]
  rfl

/-- A semicolon closes the clause. -/
theorem Cut.turn_semicolon (rest : Text) :
    cut.turn (SEMICOLON :: rest) = some (cut.next, rest) := rfl

/-- A comment is one space. -/
theorem Cut.turn_comment (h : Inside inner) (rest : Text) :
    cut.turn (OPEN :: inner ++ CLOSE :: rest) = some (cut.add [SPACE], rest) := by
  rw [Cut.turn, pieceEnd_comment h]
  rfl

/-- A quoted string goes into the clause whole. -/
theorem Cut.turn_quoted (h : Quoted inner) (rest : Text) :
    cut.turn (QUOTE :: inner ++ QUOTE :: rest) = some (cut.add (quoted inner), rest) := by
  rw [Cut.turn, pieceEnd_quoted h, ← slice_quoted inner rest]
  rfl

/-- A turn over what is left takes something. -/
theorem Cut.turn_lt {cut' : Cut} (h : cut.turn text = some (cut', rest)) :
    rest.length < text.length := by
  obtain ⟨rest', hpiece, hleft⟩ := Option.map_eq_some_iff.1 h
  have hrest : rest' = rest := by
    split_ifs at hleft <;> exact (Prod.mk.inj hleft).2
  exact hrest ▸ pieceEnd_lt hpiece

theorem Cut.scan_turn {cut' : Cut} (h : cut.turn text = some (cut', rest)) :
    cut.scan text = cut'.scan rest := by
  have hend : text.isEmpty = false := by
    cases text with
    | nil => cases h
    | cons => rfl
  exact readLoop_turn hend h (Cut.turn_lt h)

end Huliho.AuthResults
