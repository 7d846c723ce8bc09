import Huliho.Search.Query

/-!
# What the written pieces say

What a text says, part by part: its senders, the mailbox it asks for and the pieces that stay text
(`take_words`, `take_senders`, `take_scope`), and which operator each piece that `queryOf` writes is.
Texts written one after another read as themselves where they are **`Separate`**: each is one piece by
itself, and behind one that leaves a quote open none has a quote. A day the code wrote reads as itself
in every locale (`typed_written`).
-/

namespace Huliho.Search

variable {platform : Platform} {context : QueryContext} {text value word : Text} {piece : Piece}

/-! ## Pieces as written -/

theorem pieceOf_operator (hne : word ≠ []) (hletters : ∀ c ∈ word, isLetter c = true)
    (after : Text) : pieceOf (operator word after) =
      some ⟨operator word (valueOf after), some (word, valueOf after)⟩ := by
  simp only [pieceOf]
  rw [operator, operatorAt_eq_some.2 ⟨word, after, hne, hletters, rfl, rfl⟩]
  rfl

/-- A piece written as an operator has the word and the value it is written with. -/
theorem operator_of_alone (hne : word ≠ []) (hletters : ∀ c ∈ word, isLetter c = true)
    (halone : piece.Alone) (hwhole : piece.whole = operator word value) :
    piece.operator = some (word, value) := by
  have hread := halone
  rw [Piece.Alone, hwhole, pieceOf_operator hne hletters] at hread
  obtain rfl := Option.some.inj hread
  have hvalue : valueOf value = value := (List.cons.inj (List.append_cancel_left hwhole)).2
  rw [hvalue]

theorem letters_of_all (h : word.all isLetter = true) : ∀ c ∈ word, isLetter c = true :=
  List.all_eq_true.1 h

theorem bare_of_all (h : (value.all fun c => !isSpace c && c ≠ quote) = true) :
    ∀ c ∈ value, isSpace c = false ∧ c ≠ quote := by
  intro c hc
  have hboth := List.all_eq_true.1 h c hc
  rw [Bool.and_eq_true, Bool.not_eq_true', decide_eq_true_eq] at hboth
  exact hboth

theorem valueOf_bare (h : ∀ c ∈ value, isSpace c = false ∧ c ≠ quote) : valueOf value = value := by
  have hnone : quotedRun value = none := by
    rw [quotedRun_eq_none]
    rintro rest rfl
    exact absurd rfl (h quote List.mem_cons_self).2
  rw [valueOf, hnone, Option.getD_none, List.takeWhile_eq_self_iff]
  exact fun c hc => by rw [(h c hc).1]; rfl

/-- The texts are each one piece by themselves, and behind one that leaves a quote open none has a
quote. -/
def Separate (texts : List Text) : Prop :=
  ∃ pieces : List Piece, pieces.map Piece.whole = texts ∧ Settled pieces

/-- Separate texts, written one after another, read as themselves. -/
theorem Separate.read {texts : List Text} (h : Separate texts) :
    (pieces (joined ' ' texts)).map Piece.whole = texts := by
  obtain ⟨pieces, rfl, hsettled⟩ := h
  rw [pieces_written hsettled]

theorem Settled.sublist {some all : List Piece} (h : Settled all) (hsub : some.Sublist all) :
    Settled some :=
  ⟨fun piece hpiece => h.alone piece (hsub.subset hpiece), h.closed.sublist hsub⟩

/-- A piece without a quote. -/
structure Piece.Plain (piece : Piece) : Prop where
  alone : piece.Alone
  unquoted : quote ∉ piece.whole
  closed : piece.leavesOpen = false

/-- Pieces without a quote go between any others. -/
theorem Settled.insert {before between after : List Piece} (h : Settled (before ++ after))
    (hbetween : ∀ piece ∈ between, piece.Plain) : Settled (before ++ (between ++ after)) := by
  obtain ⟨halone, hclosed⟩ := h
  rw [List.pairwise_append] at hclosed
  obtain ⟨hbefore, hafter, hacross⟩ := hclosed
  constructor
  · intro piece hpiece
    rw [List.mem_append, List.mem_append] at hpiece
    rcases hpiece with hpiece | hpiece | hpiece
    · exact halone piece (List.mem_append_left _ hpiece)
    · exact (hbetween piece hpiece).alone
    · exact halone piece (List.mem_append_right _ hpiece)
  · have hopen : ∀ piece ∈ between, ∀ later : Piece, piece.leavesOpen = true →
        quote ∉ later.whole := fun piece hpiece _ hopen => by
      rw [(hbetween piece hpiece).closed] at hopen
      cases hopen
    refine List.pairwise_append.2 ⟨hbefore, List.pairwise_append.2 ⟨?_, hafter, ?_⟩, ?_⟩
    · refine Scanner.pairwise_of_split fun front piece back hsplit later _ => hopen piece ?_ later
      rw [hsplit]
      exact List.mem_append_right _ List.mem_cons_self
    · exact fun piece hpiece later _ => hopen piece hpiece later
    · intro piece hpiece later hlater
      rcases List.mem_append.1 hlater with hlater | hlater
      · exact fun _ => (hbetween later hlater).unquoted
      · exact hacross piece hpiece later hlater

/-- The piece of an operator as it is written. -/
def operatorPiece (word value : Text) : Piece := ⟨operator word value, some (word, value)⟩

theorem operatorPiece_plain (hne : word ≠ []) (hletters : ∀ c ∈ word, isLetter c = true)
    (hvalue : ∀ c ∈ value, isSpace c = false ∧ c ≠ quote) : (operatorPiece word value).Plain where
  alone := by
    rw [Piece.Alone, operatorPiece, pieceOf_operator hne hletters, valueOf_bare hvalue]
  unquoted := by
    rw [operatorPiece, operator, List.mem_append, List.mem_cons]
    rintro (hmem | heq | hmem)
    · have hletter := hletters quote hmem
      rw [quote_not_letter] at hletter
      cases hletter
    · exact absurd heq (by decide)
    · exact (hvalue quote hmem).2 rfl
  closed := by
    show opens value = false
    rw [opens]
    cases value with
    | nil => rfl
    | cons c value =>
      have hc : (some c = some quote) ↔ False :=
        iff_false_intro fun heq => (hvalue c List.mem_cons_self).2 (Option.some.inj heq)
      rw [List.head?_cons, decide_eq_false hc.1, Bool.false_and]

/-! ## What a text says -/

section Said

variable (platform context)

/-- The value a piece gives `from:`. -/
def senderOf (piece : Piece) : Option Text :=
  match foundOf platform context piece with
  | some (.from value) => some value
  | _ => none

/-- The mailbox a piece gives `in:`. -/
def scopeOf (piece : Piece) : Option Text :=
  match foundOf platform context piece with
  | some (.in value) => some value
  | _ => none

/-- The senders of a text, in order. -/
def senders (text : Text) : List Text := (pieces text).filterMap (senderOf platform context)

/-- The mailbox a text asks for: the last one counts. -/
def scope (text : Text) : Option Text := ((pieces text).filterMap (scopeOf platform context)).getLast?

/-- The pieces that stay text, in order. -/
def words (text : Text) : List Piece :=
  (pieces text).filter fun piece => (foundOf platform context piece).isNone

end Said

section Readings

variable {reading : Reading} {read : List Piece}

theorem take_words : (read.foldl (Reading.take platform context) reading).words = reading.words ++
    (read.filter fun piece => (foundOf platform context piece).isNone).map Piece.whole := by
  induction read generalizing reading with
  | nil => simp
  | cons piece read ih =>
    rw [List.foldl_cons, ih, List.filter_cons, Reading.take]
    cases hfound : foundOf platform context piece with
    | none => simp
    | some found => cases found <;> simp [Reading.set]

theorem take_senders : (read.foldl (Reading.take platform context) reading).senders =
    reading.senders ++ read.filterMap (senderOf platform context) := by
  induction read generalizing reading with
  | nil => simp
  | cons piece read ih =>
    rw [List.foldl_cons, ih, List.filterMap_cons, Reading.take, senderOf]
    cases hfound : foundOf platform context piece with
    | none => simp
    | some found => cases found <;> simp [Reading.set]

theorem take_scope : (read.foldl (Reading.take platform context) reading).params.in =
    ((read.filterMap (scopeOf platform context)).getLast? <|> reading.params.in) := by
  induction read generalizing reading with
  | nil => simp
  | cons piece read ih =>
    rw [List.foldl_cons, ih, List.filterMap_cons, Reading.take, scopeOf]
    cases hfound : foundOf platform context piece with
    | none => simp
    | some found => cases found <;> simp [Reading.set, List.getLast?_cons]

theorem take_dates {day : Text} :
    ((read.foldl (Reading.take platform context) reading).params.after = some day →
      reading.params.after = some day ∨
        ∃ piece ∈ read, foundOf platform context piece = some (.after day)) ∧
    ((read.foldl (Reading.take platform context) reading).params.before = some day →
      reading.params.before = some day ∨
        ∃ piece ∈ read, foundOf platform context piece = some (.before day)) := by
  induction read generalizing reading with
  | nil => exact ⟨.inl, .inl⟩
  | cons piece read ih =>
    rw [List.foldl_cons]
    obtain ⟨hafter, hbefore⟩ := @ih (reading.take platform context piece)
    have hlater : ∀ found, (∃ other ∈ read, foundOf platform context other = some found) →
        ∃ other ∈ piece :: read, foundOf platform context other = some found :=
      fun found ⟨other, hother, hfound⟩ => ⟨other, List.mem_cons_of_mem _ hother, hfound⟩
    have hfirst : ∀ found, foundOf platform context piece = some found →
        ∃ other ∈ piece :: read, foundOf platform context other = some found :=
      fun found hfound => ⟨piece, List.mem_cons_self, hfound⟩
    constructor
    · intro h
      refine (hafter h).elim (fun h => ?_) (.inr ∘ hlater _)
      rw [Reading.take] at h
      cases hfound : foundOf platform context piece with
      | none => exact .inl (by simpa [hfound] using h)
      | some found =>
        cases found <;> simp only [hfound, Reading.set] at h
        case after value => exact .inr (hfirst _ (by rw [hfound, Option.some.inj h]))
        all_goals exact .inl h
    · intro h
      refine (hbefore h).elim (fun h => ?_) (.inr ∘ hlater _)
      rw [Reading.take] at h
      cases hfound : foundOf platform context piece with
      | none => exact .inl (by simpa [hfound] using h)
      | some found =>
        cases found <;> simp only [hfound, Reading.set] at h
        case before value => exact .inr (hfirst _ (by rw [hfound, Option.some.inj h]))
        all_goals exact .inl h

end Readings

/-! ## What the operators set -/

/-- A day of the params, wherever it comes from, is a day the code wrote. -/
def Written (platform : Platform) (day : Text) : Prop :=
  ∃ year month date, dayOf platform year month date = some day

theorem written_of_typed {day locale : Text} (h : typedDay platform value locale = some day) :
    Written platform day := by
  rw [typedDay] at h
  split at h
  next year month date _ => exact ⟨year, month, date, h⟩
  next =>
    split at h
    next => cases h
    next => exact ⟨_, _, _, h⟩

theorem digit_plain {c : Char} (h : isDigit c = true) :
    isSpace c = false ∧ c ≠ quote ∧ isDigit '-' = false := by
  have hdigit : 48 ≤ c.toNat ∧ c.toNat ≤ 57 := by
    simp only [isDigit, Bool.and_eq_true, decide_eq_true_eq, Char.le_def,
      UInt32.le_iff_toNat_le] at h
    exact h
  refine ⟨?_, ?_, by decide⟩
  · by_contra hspace
    have hspace := Bool.of_not_eq_false hspace
    simp only [isSpace, Bool.or_eq_true, Bool.and_eq_true, decide_eq_true_eq,
      List.contains_iff_mem, List.mem_cons, List.not_mem_nil, or_false] at hspace
    omega
  · rintro rfl
    exact absurd hdigit.1 (by decide)

theorem number_dash {marks : List Char} (hmarks : '-' ∈ marks) {digits rest : Text}
    (h : ∀ c ∈ digits, isDigit c = true) :
    number marks (digits ++ '-' :: rest) = some (digits, rest) := by
  have hstop : ∀ c ∈ ('-' :: rest).head?, isDigit c = false := fun c hc => by
    obtain rfl := Option.some.inj hc
    decide
  rw [number, dropWhile_append_of_stop h hstop, takeWhile_append_of_stop h hstop]
  exact if_pos hmarks

/-- **A day the code wrote reads as itself.** -/
theorem typed_written (hdocumented : platform.Documented) {day : Text}
    (h : Written platform day) (locale : Text) :
    typedDay platform (unquoted day) locale = some day ∧
      ∀ c ∈ day, isSpace c = false ∧ c ≠ quote := by
  obtain ⟨_, _, _, hday⟩ := h
  simp only [dayOf] at hday
  split at hday
  next hiso =>
    obtain rfl := Option.some.inj hday
    obtain ⟨year, month, date, hyear, hmonth, hdate, hshape⟩ := hdocumented.isoDate_shape _ hiso
    rw [hshape] at hiso ⊢
    have hplain : ∀ c ∈ dashed year month date, isSpace c = false ∧ c ≠ quote := by
      intro c hc
      simp only [dashed, List.mem_append, List.mem_cons] at hc
      rcases hc with hc | rfl | hc | rfl | hc
      · exact ⟨(digit_plain (hyear.2 c hc)).1, (digit_plain (hyear.2 c hc)).2.1⟩
      · decide
      · exact ⟨(digit_plain (hmonth.2 c hc)).1, (digit_plain (hmonth.2 c hc)).2.1⟩
      · decide
      · exact ⟨(digit_plain (hdate.2 c hc)).1, (digit_plain (hdate.2 c hc)).2.1⟩
    refine ⟨?_, hplain⟩
    have hbare : unquoted (dashed year month date) = dashed year month date := by
      cases hwhole : dashed year month date with
      | nil => rfl
      | cons c rest =>
        have hc := (hplain c (by rw [hwhole]; exact List.mem_cons_self)).2
        rw [unquoted, if_neg fun h => hc h.1]
    have hread : yearFirst (dashed year month date) = some (year, month, date) := by
      have hdash : '-' ∈ ['-', '/'] := by decide
      have hnumbers : numbers ['-', '/'] (dashed year month date) = some (year, month, date) := by
        rw [numbers, dashed, number_dash hdash hyear.2, Option.bind_some]
        simp only [number_dash hdash hmonth.2, Option.bind_some,
          if_pos (List.all_eq_true.2 hdate.2)]
      rw [yearFirst, hnumbers, Option.filter_some]
      simp only [hyear.1, hmonth.1, hdate.1]
      rfl
    have hpad : ∀ {part : Text}, Digits 2 part → padStart part = part := fun hpart => by
      rw [padStart, hpart.1]
      rfl
    rw [hbare, typedDay, hread]
    simp only [dayOf, hpad hmonth, hpad hdate, if_pos hiso]
  next => cases hday

/-- The day an operator sets. -/
def Found.day : Found → Option Text
  | .after day => some day
  | .before day => some day
  | _ => none

/-- What an operator can set. -/
theorem found_cases {found : Found} (h : operatorOf platform word value context = some found) :
    (found = .unread ∨ found = .starred ∨ found = .attachment) ∨
      (value ≠ [] ∧ found = .from value) ∨ (∃ id, found = .in id) ∨
      ∃ day, Written platform day ∧ found.day = some day := by
  simp only [operatorOf, Option.orElse_eq_some] at h
  rcases h with hwhole | ⟨-, hvalued⟩
  · simp only [whole] at hwhole
    split at hwhole
    next => exact .inl (.inl (Option.some.inj hwhole).symm)
    next =>
      split at hwhole
      next => exact .inl (.inr (.inl (Option.some.inj hwhole).symm))
      next =>
        split at hwhole
        next => exact .inl (.inr (.inr (Option.some.inj hwhole).symm))
        next => cases hwhole
  · refine .inr ?_
    simp only [valued] at hvalued
    split at hvalued
    next =>
      split at hvalued
      next => cases hvalued
      next hvalue => exact .inl ⟨hvalue, (Option.some.inj hvalued).symm⟩
    next =>
      split at hvalued
      next =>
        simp only [scopeIn] at hvalued
        split at hvalued
        next => exact .inr (.inl ⟨_, (Option.some.inj hvalued).symm⟩)
        next =>
          obtain ⟨id, -, rfl⟩ := Option.map_eq_some_iff.1 hvalued
          exact .inr (.inl ⟨id, rfl⟩)
      next =>
        split at hvalued
        next =>
          obtain ⟨day, hday, rfl⟩ := Option.map_eq_some_iff.1 hvalued
          exact .inr (.inr ⟨day, written_of_typed hday, rfl⟩)
        next =>
          split at hvalued
          next =>
            obtain ⟨day, hday, rfl⟩ := Option.map_eq_some_iff.1 hvalued
            exact .inr (.inr ⟨day, written_of_typed hday, rfl⟩)
          next => cases hvalued

theorem written_of_found {found : Found} {day : Text}
    (h : foundOf platform context piece = some found) (hday : found.day = some day) :
    Written platform day := by
  obtain ⟨⟨word, value⟩, -, hoperator⟩ := Option.bind_eq_some_iff.1 h
  rcases found_cases hoperator with (rfl | rfl | rfl) | ⟨-, rfl⟩ | ⟨id, rfl⟩ | ⟨d, hwritten, hd⟩
  · cases hday
  · cases hday
  · cases hday
  · cases hday
  · cases hday
  · rw [hday] at hd
    exact Option.some.inj hd ▸ hwritten

/-- A sender is the value of its piece, and some text. -/
theorem sender_of_piece (h : senderOf platform context piece = some value) :
    value ≠ [] ∧ ∃ word, piece.operator = some (word, value) := by
  rw [senderOf] at h
  split at h
  next value' hfound =>
    obtain rfl := Option.some.inj h
    obtain ⟨⟨word, value⟩, hpiece, hoperator⟩ := Option.bind_eq_some_iff.1 hfound
    rcases found_cases hoperator with (heq | heq | heq) | ⟨hne, heq⟩ | ⟨id, heq⟩ | ⟨d, -, heq⟩
    · cases heq
    · cases heq
    · cases heq
    · obtain rfl := Found.from.inj heq
      exact ⟨hne, word, hpiece⟩
    · cases heq
    · cases heq
  next => cases h

/-! ## The operators as they are written -/

theorem whole_none {name : Text} (his : name ≠ "is".toList) (hhas : name ≠ "has".toList)
    (hcolon : ':' ∉ name) : whole (name ++ ':' :: value) = none := by
  have hname : (name ++ ':' :: value).takeWhile (· ≠ ':') = name :=
    takeWhile_append_of_stop (fun c hc => decide_eq_true fun heq => hcolon (heq ▸ hc)) (by simp)
  have hne : ∀ word written : Text, name ≠ word → written.takeWhile (· ≠ ':') = word →
      name ++ ':' :: value ≠ written := by
    rintro word written hne hword rfl
    exact hne (hname.symm.trans hword)
  rw [whole, if_neg (hne _ _ his (by decide)), if_neg (hne _ _ his (by decide)),
    if_neg (hne _ _ hhas (by decide))]

theorem found_from (hdocumented : platform.Documented) (hvalue : value ≠ []) :
    operatorOf platform "from".toList value context = some (.from value) := by
  have hlower := hdocumented.lower_small "from".toList (by decide)
  simp only [operatorOf, hlower]
  rw [whole_none (by decide) (by decide) (by decide)]
  simp only [valued, if_true, if_neg hvalue]
  rfl

theorem found_in (hdocumented : platform.Documented) :
    operatorOf platform "in".toList value context = scopeIn platform value context := by
  have hlower := hdocumented.lower_small "in".toList (by decide)
  have hfrom : ("in".toList : Text) ≠ "from".toList := by decide
  simp only [operatorOf, hlower]
  rw [whole_none (by decide) (by decide) (by decide)]
  simp only [valued, if_true, if_neg hfrom]
  rfl

theorem found_after (hdocumented : platform.Documented) (h : Written platform value) :
    operatorOf platform "after".toList value context = some (.after value) := by
  have hlower := hdocumented.lower_small "after".toList (by decide)
  have hfrom : ("after".toList : Text) ≠ "from".toList := by decide
  have hin : ("after".toList : Text) ≠ "in".toList := by decide
  simp only [operatorOf, hlower]
  rw [whole_none (by decide) (by decide) (by decide)]
  simp only [valued, if_true, if_neg hfrom, if_neg hin, dated,
    (typed_written hdocumented h context.locale).1]
  rfl

theorem found_before (hdocumented : platform.Documented) (h : Written platform value) :
    operatorOf platform "before".toList value context = some (.before value) := by
  have hlower := hdocumented.lower_small "before".toList (by decide)
  have hfrom : ("before".toList : Text) ≠ "from".toList := by decide
  have hin : ("before".toList : Text) ≠ "in".toList := by decide
  have hafter : ("before".toList : Text) ≠ "after".toList := by decide
  simp only [operatorOf, hlower]
  rw [whole_none (by decide) (by decide) (by decide)]
  simp only [valued, if_true, if_neg hfrom, if_neg hin, if_neg hafter, dated,
    (typed_written hdocumented h context.locale).1]
  rfl

/-- The flags, by how they are written. -/
theorem found_flag (hdocumented : platform.Documented) {name flag : Text} {found : Found}
    (hname : isSmall name = true) (hflag : isSmall flag = true)
    (h : whole (operator name flag) = some found) :
    operatorOf platform name flag context = some found := by
  simp only [operatorOf, hdocumented.lower_small name hname, hdocumented.lower_small flag hflag]
  rw [operator] at h
  rw [h]
  rfl

end Huliho.Search
