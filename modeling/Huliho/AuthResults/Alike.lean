import Huliho.AuthResults.Pieces
import Mathlib.Data.List.Forall2

/-!
# Headers that differ inside comments and quoted strings

Two headers are `Alike` when they differ only inside comments and, as far as `R` allows, inside
quoted strings. Unfolding keeps them so (`Alike.unfold`), and the scan cuts them into clauses that
are `Like` one another: without their comments, and different inside quoted strings alone
(**`alike_split`**).
-/

namespace Huliho.AuthResults

/-- Two texts that differ only inside comments, and inside quoted strings where `R` relates what
they hold. From some place on they may be the same, whatever stands there. -/
inductive Alike (R : Text → Text → Prop) : Text → Text → Prop
  | same (text : Text) : Alike R text text
  | unit {c : UInt16} {a b : Text} (hc : c ≠ OPEN ∧ c ≠ QUOTE) (h : Alike R a b) :
      Alike R (c :: a) (c :: b)
  | comment {x y a b : Text} (hx : Inside x) (hy : Inside y) (h : Alike R a b) :
      Alike R (OPEN :: x ++ CLOSE :: a) (OPEN :: y ++ CLOSE :: b)
  | quoted {x y a b : Text} (hx : Quoted x) (hy : Quoted y) (hxy : R x y) (h : Alike R a b) :
      Alike R (QUOTE :: x ++ QUOTE :: a) (QUOTE :: y ++ QUOTE :: b)

/-- Two clauses that differ only inside quoted strings, where `R` relates what they hold. -/
inductive Like (R : Text → Text → Prop) : Text → Text → Prop
  | nil : Like R [] []
  | unit {c : UInt16} {a b : Text} (hc : c ≠ QUOTE) (h : Like R a b) : Like R (c :: a) (c :: b)
  | quoted {x y a b : Text} (hx : Quoted x) (hy : Quoted y) (hxy : R x y) (h : Like R a b) :
      Like R (QUOTE :: x ++ QUOTE :: a) (QUOTE :: y ++ QUOTE :: b)

variable {R : Text → Text → Prop} {a b a' b' x y : Text}

/-- Headers are alike behind what starts no comment and no quoted string. -/
theorem Alike.front {text : Text} (htext : (text.all fun c => c ≠ OPEN ∧ c ≠ QUOTE) = true)
    (h : Alike R a b) : Alike R (text ++ a) (text ++ b) := by
  induction text with
  | nil => exact h
  | cons c text ih =>
    rw [List.all_cons, Bool.and_eq_true, decide_eq_true_eq] at htext
    exact .unit htext.1 (ih htext.2)

/-! ## Unfolding -/

theorem Alike.head? (h : Alike R a b) : a.head? = b.head? := by
  cases h <;> rfl

theorem Alike.startsFold (h : Alike R a b) (c : UInt16) :
    startsFold (c :: a) = startsFold (c :: b) := by
  have hhead := h.head?
  cases h with
  | same => rfl
  | unit hc h =>
    have hnext := h.head?
    unfold AuthResults.startsFold
    dsimp only [List.tail_cons]
    rw [hhead, hnext]
  | comment hx hy h =>
    simp [AuthResults.startsFold, OPEN, LF, CR, isBlank, SPACE, TAB]
  | quoted hx hy hxy h =>
    simp [AuthResults.startsFold, QUOTE, LF, CR, isBlank, SPACE, TAB]

/-- **Unfolding keeps headers alike.** -/
theorem Alike.unfold (hR : ∀ x y, R x y → R (unfold x) (unfold y)) (h : Alike R a b) :
    Alike R (unfold a) (unfold b) := by
  induction h with
  | same text => exact .same _
  | @unit c a b hc h ih =>
    rw [unfold_step, unfold_step, h.startsFold c]
    split_ifs
    · exact ih
    · exact .unit hc ih
  | comment hx hy h ih =>
    rw [List.cons_append, List.cons_append, unfold_cons (by decide), unfold_cons (by decide),
      unfold_append (by decide), unfold_append (by decide)]
    exact .comment hx.unfold hy.unfold ih
  | quoted hx hy hxy h ih =>
    rw [List.cons_append, List.cons_append, unfold_cons (by decide), unfold_cons (by decide),
      unfold_append (by decide), unfold_append (by decide)]
    exact .quoted hx.unfold hy.unfold (hR _ _ hxy) ih

/-! ## Clauses -/

theorem Like.append (h : Like R a b) (h' : Like R a' b') : Like R (a ++ a') (b ++ b') := by
  induction h with
  | nil => exact h'
  | unit hc _ ih => exact .unit hc ih
  | quoted hx hy hxy _ ih =>
    rw [List.cons_append, List.cons_append, List.cons_append, List.cons_append, List.append_assoc,
      List.append_assoc]
    exact .quoted hx hy hxy ih

theorem Like.one {c : UInt16} (hc : c ≠ QUOTE) : Like R [c] [c] := .unit hc .nil

theorem Like.string (hx : Quoted x) (hy : Quoted y) (hxy : R x y) :
    Like R (AuthResults.quoted x) (AuthResults.quoted y) := .quoted hx hy hxy .nil

/-- Alike inside quoted strings too, two clauses are one. -/
theorem Like.eq (h : Like Eq a b) : a = b := by
  induction h with
  | nil => rfl
  | unit _ _ ih => rw [ih]
  | quoted _ _ hxy _ ih => rw [hxy, ih]

/-- Two cuts with clauses like one another. -/
structure LikeCuts (R : Text → Text → Prop) (cut cut' : Cut) : Prop where
  clauses : List.Forall₂ (Like R) cut.clauses cut'.clauses
  clause : Like R cut.clause cut'.clause

theorem LikeCuts.add {cut cut' : Cut} (h : LikeCuts R cut cut') (hx : Like R x y) :
    LikeCuts R (cut.add x) (cut'.add y) :=
  ⟨h.clauses, h.clause.append hx⟩

theorem LikeCuts.next {cut cut' : Cut} (h : LikeCuts R cut cut') :
    LikeCuts R cut.next cut'.next :=
  ⟨List.rel_append h.clauses (.cons h.clause .nil), .nil⟩

/-- What is left after a turn over each of two headers alike. -/
def LeftAlike (R : Text → Text → Prop) (left left' : Cut × Text) : Prop :=
  LikeCuts R left.1 left'.1 ∧ Alike R left.2 left'.2

/-- A turn over one header leaves what it takes like itself. -/
theorem turn_same (hrefl : ∀ x, R x x) {cut cut' : Cut} (hcut : LikeCuts R cut cut')
    (text : Text) : Option.Rel (LeftAlike R) (cut.turn text) (cut'.turn text) := by
  cases text with
  | nil => exact .none
  | cons c text =>
    by_cases hsemi : c = SEMICOLON
    · rw [hsemi, Cut.turn_semicolon, Cut.turn_semicolon]
      exact .some ⟨hcut.next, .same _⟩
    by_cases hplain : Plain c
    · rw [Cut.turn_unit hplain hsemi, Cut.turn_unit hplain hsemi]
      exact .some ⟨hcut.add (.one hplain.2.1), .same _⟩
    by_cases hquote : c = QUOTE
    · cases hend : quotedEnd text with
      | none =>
        have hnone : ∀ cut : Cut, cut.turn (c :: text) = none := fun cut => by
          rw [Cut.turn, pieceEnd, hquote, if_neg (by decide), if_pos rfl, hend]
          rfl
        rw [hnone, hnone]
        exact .none
      | some rest =>
        obtain ⟨inner, hinner, rfl⟩ := exists_quoted hend
        rw [hquote, ← List.cons_append, Cut.turn_quoted hinner, Cut.turn_quoted hinner]
        exact .some ⟨hcut.add (.string hinner hinner (hrefl _)), .same _⟩
    · -- A comment, or a parenthesis that closes nothing.
      unfold Cut.turn
      refine rel_map (R := fun rest rest' => rest = rest' ∧ pieceEnd (c :: text) = some rest) ?_ ?_
      · cases pieceEnd (c :: text) with
        | none => exact .none
        | some rest => exact .some ⟨rfl, rfl⟩
      · rintro rest _ ⟨rfl, hpiece⟩
        have hopen : c = OPEN := by
          by_contra hopen
          by_cases hclose : c = CLOSE
          · rw [pieceEnd, if_neg hopen, if_neg hquote, if_pos hclose] at hpiece
            cases hpiece
          · exact hplain ⟨hopen, hquote, hclose⟩
        subst hopen
        exact ⟨hcut.add (.one (by decide)), .same _⟩

/-- One turn over headers alike leaves headers alike. -/
theorem alike_turn (hrefl : ∀ x, R x x) {cut cut' : Cut} (hcut : LikeCuts R cut cut')
    (h : Alike R a b) : Option.Rel (LeftAlike R) (cut.turn a) (cut'.turn b) := by
  cases h with
  | same => exact turn_same hrefl hcut a
  | @unit c a b hc h =>
    by_cases hsemi : c = SEMICOLON
    · rw [hsemi, Cut.turn_semicolon, Cut.turn_semicolon]
      exact .some ⟨hcut.next, h⟩
    by_cases hclose : c = CLOSE
    · rw [hclose]
      exact .none
    · have hplain : Plain c := ⟨hc.1, hc.2, hclose⟩
      rw [Cut.turn_unit hplain hsemi, Cut.turn_unit hplain hsemi]
      exact .some ⟨hcut.add (.one hc.2), h⟩
  | comment hx hy h =>
    rw [Cut.turn_comment hx, Cut.turn_comment hy]
    exact .some ⟨hcut.add (.one (by decide)), h⟩
  | quoted hx hy hxy h =>
    rw [Cut.turn_quoted hx, Cut.turn_quoted hy]
    exact .some ⟨hcut.add (.string hx hy hxy), h⟩

/-- Clauses like one another hold something together. -/
theorem Like.nil_iff (h : Like R a b) : a = [] ↔ b = [] := by
  cases h <;> simp

/-- What a quotation mark ends is dropped from both alike. -/
theorem Like.dropWhile {p : UInt16 → Bool} (hp : p QUOTE = false) (h : Like R a b) :
    Like R (a.dropWhile p) (b.dropWhile p) := by
  induction h with
  | nil => exact .nil
  | unit hc h ih =>
    rw [List.dropWhile_cons, List.dropWhile_cons]
    split_ifs
    · exact ih
    · exact .unit hc h
  | quoted hx hy hxy h ih =>
    rw [List.cons_append, List.cons_append, List.dropWhile_cons, List.dropWhile_cons, hp]
    exact .quoted hx hy hxy h

theorem Like.skipSpace (h : Like R a b) : Like R (skipSpace a) (skipSpace b) := h.dropWhile rfl

theorem LikeCuts.close {cut cut' : Cut} (h : LikeCuts R cut cut') :
    List.Forall₂ (Like R) cut.close cut'.close := by
  have hnone : cut.clauses = [] ↔ cut'.clauses = [] := by
    rw [← List.length_eq_zero_iff, ← List.length_eq_zero_iff, h.clauses.length_eq]
  have hclosed : cut.clauses = [] ∨ AuthResults.skipSpace cut.clause ≠ [] ↔
      cut'.clauses = [] ∨ AuthResults.skipSpace cut'.clause ≠ [] :=
    or_congr hnone (not_congr h.clause.skipSpace.nil_iff)
  unfold Cut.close
  rw [if_congr hclosed rfl rfl]
  split_ifs
  · exact List.rel_append h.clauses (.cons h.clause .nil)
  · exact h.clauses

/-- **The clauses of headers alike are like one another**, or neither header can be cut. -/
theorem alike_split (hrefl : ∀ x, R x x) (h : Alike R a b) :
    Option.Rel (List.Forall₂ (Like R)) (splitClauses a) (splitClauses b) := by
  have hscan : Option.Rel (LeftAlike R) (Cut.scan ⟨[], []⟩ a) (Cut.scan ⟨[], []⟩ b) := by
    refine readLoop_agree (R := LeftAlike R) (fun s text s' text' h => ?_)
      (fun s text s' text' h _ => ?_) ⟨⟨.nil, .nil⟩, h⟩
    · have hhead := h.2.head?
      cases text <;> cases text' <;> simp_all
    · refine rel_mono (rel_known (alike_turn hrefl h.1 h.2)) ?_
      rintro left left' ⟨hleft, hturn, hturn'⟩
      exact ⟨hleft, Cut.turn_lt hturn, Cut.turn_lt hturn'⟩
  exact rel_map hscan fun left left' h => h.1.close

end Huliho.AuthResults
