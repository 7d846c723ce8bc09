import Huliho.AuthResults.Alike
import Huliho.AuthResults.Words

/-!
# Readers over quoted strings

Every reader of a clause reads clauses like one another alike: the same word, and a rest like the
other's (`readWord_like`, `readSpec_like`, `readName_like`). What a value says may differ, and only
where it ends does not (**`readValue_like`**).
-/

namespace Huliho.AuthResults

variable {R : Text → Text → Prop} {a b : Text} {lower : Text → Text}

/-! ## Readers -/

theorem Like.head? (h : Like R a b) : a.head? = b.head? := by
  cases h <;> rfl

theorem Like.tail (h : Like R a b) (hq : a.head? ≠ some QUOTE) : Like R a.tail b.tail := by
  cases h with
  | nil => exact .nil
  | unit hc h => exact h
  | quoted => exact absurd rfl hq

/-- What a quotation mark ends is taken from both alike. -/
theorem Like.takeWhile {p : UInt16 → Bool} (hp : p QUOTE = false) (h : Like R a b) :
    a.takeWhile p = b.takeWhile p := by
  induction h with
  | nil => rfl
  | unit hc h ih => rw [List.takeWhile_cons, List.takeWhile_cons, ih]
  | quoted hx hy hxy h ih =>
    rw [List.cons_append, List.cons_append, List.takeWhile_cons, List.takeWhile_cons, hp]
    rfl

/-- Without quoted strings in one of them, two clauses are one. -/
theorem Like.eq_of_bare (h : Like R a b) (hb : QUOTE ∉ b) : a = b := by
  induction h with
  | nil => rfl
  | unit hc h ih => rw [ih fun hmem => hb (List.mem_cons_of_mem _ hmem)]
  | quoted => exact absurd List.mem_cons_self hb

/-- One reading of two clauses: the same was read, and the rests are like one another. -/
def ReadLike {γ : Type} (R : Text → Text → Prop) (read read' : γ × Text) : Prop :=
  read.1 = read'.1 ∧ Like R read.2 read'.2

theorem readWord_like (h : Like R a b) : Option.Rel (ReadLike R) (readWord a) (readWord b) := by
  unfold readWord
  dsimp only
  rw [h.skipSpace.takeWhile rfl]
  split_ifs
  · exact .none
  · exact .some ⟨rfl, (h.skipSpace.dropWhile rfl).skipSpace⟩

theorem readVersion_like (h : Like R a b) :
    Option.Rel (ReadLike R) (readVersion a) (readVersion b) := by
  unfold readVersion
  rw [← h.head?]
  split_ifs with hslash
  · exact .some ⟨rfl, h⟩
  · have htail : Like R a.tail b.tail := h.tail (by rw [not_not.1 hslash]; decide)
    refine rel_bind (readWord_like htail) ?_
    rintro ⟨version, rest⟩ ⟨_, rest'⟩ ⟨rfl, hrest⟩
    dsimp only
    split_ifs
    · exact .some ⟨rfl, hrest⟩
    · exact .none

theorem readSpec_like (h : Like R a b) :
    Option.Rel (ReadLike R) (readSpec lower a) (readSpec lower b) := by
  refine rel_bind (readWord_like h) ?_
  rintro ⟨method, rest⟩ ⟨_, rest'⟩ ⟨rfl, hrest⟩
  refine rel_bind (readVersion_like hrest) ?_
  rintro ⟨version, rest⟩ ⟨_, rest'⟩ ⟨rfl, hrest⟩
  dsimp only at hrest ⊢
  rw [← hrest.head?]
  by_cases hequals : rest.head? ≠ some EQUALS
  · rw [if_pos hequals, if_pos hequals]
    exact .none
  · rw [if_neg hequals, if_neg hequals]
    have htail : Like R rest.tail rest'.tail := hrest.tail (by rw [not_not.1 hequals]; decide)
    refine rel_map (readWord_like htail) ?_
    rintro ⟨result, rest⟩ ⟨_, rest'⟩ ⟨rfl, hrest⟩
    exact ⟨rfl, hrest⟩

theorem readName_like (h : Like R a b) : Option.Rel (ReadLike R) (readName a) (readName b) := by
  refine rel_bind (readWord_like h) ?_
  rintro ⟨ptype, rest⟩ ⟨_, rest'⟩ ⟨rfl, hrest⟩
  dsimp only at hrest ⊢
  rw [← hrest.head?]
  by_cases hdot : rest.head? ≠ some DOT
  · rw [if_pos hdot, if_pos hdot]
    exact .some ⟨rfl, hrest⟩
  · rw [if_neg hdot, if_neg hdot]
    have htail : Like R rest.tail rest'.tail := hrest.tail (by rw [not_not.1 hdot]; decide)
    refine rel_map (readWord_like htail) ?_
    rintro ⟨property, rest⟩ ⟨_, rest'⟩ ⟨rfl, hrest⟩
    exact ⟨rfl, hrest⟩

theorem isNoResult_like (h : Like R a b) : isNoResult a = isNoResult b := by
  have hrest : skipSpace ((skipSpace a).dropWhile isBareChar) = [] ↔
      skipSpace ((skipSpace b).dropWhile isBareChar) = [] :=
    (h.skipSpace.dropWhile rfl).skipSpace.nil_iff
  unfold isNoResult
  dsimp only
  rw [h.skipSpace.takeWhile rfl, decide_eq_decide.2 hrest]

/-! ## Values -/

/-- What is left after a reading of each of two clauses. -/
def RestLike {γ δ : Type} (R : Text → Text → Prop) (read : γ × Text) (read' : δ × Text) : Prop :=
  Like R read.2 read'.2

/-- Where two values end does not hang on what they quote. -/
theorem valueLoop_like (h : Like R a b) (said said' : Text) : Option.Rel (RestLike R)
    (readLoop valueEnds valueTurn said a) (readLoop valueEnds valueTurn said' b) := by
  refine readLoop_agree (R := RestLike R) (fun s text s' text' h => ?_)
    (fun s text s' text' h hend => ?_) h
  · exact congrArg (Option.all isSpace) h.head?
  · cases h with
    | nil => cases hend
    | @unit c a b hc h =>
      rw [valueTurn, valueTurn, if_neg hc, if_neg hc]
      exact .some ⟨h, Nat.lt_succ_self _, Nat.lt_succ_self _⟩
    | @quoted x y a b hx hy hxy h =>
      have hread := readQuoted_quoted hx a
      have hread' := readQuoted_quoted hy b
      rw [List.cons_append] at hread hread'
      change Option.Rel _ (valueTurn s (QUOTE :: (x ++ QUOTE :: a)))
        (valueTurn s' (QUOTE :: (y ++ QUOTE :: b)))
      rw [valueTurn, valueTurn, if_pos rfl, if_pos rfl, hread, hread']
      refine .some ⟨h, ?_, ?_⟩
      all_goals
        simp only [List.append_eq, List.length_cons, List.length_append]
        omega

theorem readValue_like (h : Like R a b) :
    Option.Rel (RestLike R) (readValue a) (readValue b) := by
  -- Both have something to read or neither has.
  have hlength : ∀ {text value rest : Text},
      readLoop valueEnds valueTurn [] text = some (value, rest) →
      (rest.length = text.length ↔ valueEnds text = true) := by
    intro text value rest hread
    obtain ⟨raw, rfl, hparts, hend⟩ := parts_of_readLoop hread
    by_cases hraw : raw = []
    · rw [hraw, List.nil_append]
      exact iff_of_true rfl hend
    · have := List.length_pos_iff.2 hraw
      rw [hparts.starts hraw, List.length_append]
      exact iff_of_false (by omega) Bool.false_ne_true
  have hends : valueEnds a = valueEnds b := congrArg (Option.all isSpace) h.head?
  refine rel_bind (rel_known (valueLoop_like h [] [])) ?_
  rintro ⟨value, rest⟩ ⟨value', rest'⟩ ⟨hrest, hread, hread'⟩
  dsimp only
  rw [if_congr (hlength hread) rfl rfl, if_congr (hlength hread') rfl rfl, hends]
  split_ifs
  · exact .none
  · exact .some hrest

end Huliho.AuthResults
