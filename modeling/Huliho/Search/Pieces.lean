import Mathlib.Data.List.TakeWhile
import Huliho.Lib.Scans

/-!
# The pieces of the field's text

The pattern `TOKEN` of `search-text.ts`, followed as the engine matches it. A piece depends on what
follows it only where it opens a quote that it does not close: with no quote in what follows, and a
break right after it, it is the same piece (**`pieceOf_moves`**). So the pieces of a text are each a
piece by themselves, and after one that leaves a quote open no piece holds a quote (`pieces_settled`);
pieces written so read back (**`pieces_joined`**).

A text is a list of code points, as the pattern's `u` flag reads it.
-/

namespace Huliho.Search

/-- A text of the field. -/
abbrev Text := List Char

/-- The quote. -/
def quote : Char := '"'

/-- `\s`: the white space and the line ends of the language. -/
def isSpace (c : Char) : Bool :=
  (9 ≤ c.toNat && c.toNat ≤ 13) || (0x2000 ≤ c.toNat && c.toNat ≤ 0x200a) ||
    [0x20, 0xa0, 0x1680, 0x2028, 0x2029, 0x202f, 0x205f, 0x3000, 0xfeff].contains c.toNat

/-- `[A-Za-z]`. -/
def isLetter (c : Char) : Bool := ('A' ≤ c && c ≤ 'Z') || ('a' ≤ c && c ≤ 'z')

/-! ## The pattern -/

/-- The quoted run at the head of a text: a quote, and up to the next one. -/
def quotedRun : Text → Option Text
  | [] => none
  | c :: rest =>
    if c = quote ∧ quote ∈ rest then some (quote :: (rest.takeWhile (· ≠ quote) ++ [quote]))
    else none

/-- A quoted run, else what stands before the next white space. -/
def valueOf (text : Text) : Text := (quotedRun text).getD (text.takeWhile fun c => !isSpace c)

/-- One match: all of it, and the word and the value of an operator. -/
structure Piece where
  whole : Text
  operator : Option (Text × Text)
deriving DecidableEq, Repr

/-- An operator's word is all the letters at the head of the text, with a colon after them. -/
def operatorAt (text : Text) : Option Piece :=
  let word := text.takeWhile isLetter
  match text.dropWhile isLetter with
  | [] => none
  | c :: after =>
    if word ≠ [] ∧ c = ':' then
      some ⟨word ++ ':' :: valueOf after, some (word, valueOf after)⟩
    else none

/-- The match of `TOKEN` at the head of a text. -/
def pieceOf (text : Text) : Option Piece :=
  match operatorAt text with
  | some piece => some piece
  | none => if valueOf text = [] then none else some ⟨valueOf text, none⟩

/-! ## What the parts of the pattern match -/

variable {text rest rest' value run : Text} {c : Char} {piece : Piece}

theorem quote_not_space : isSpace quote = false := by decide

theorem quote_not_letter : isLetter quote = false := by decide

theorem colon_not_space : isSpace ':' = false := by decide

theorem colon_not_letter : isLetter ':' = false := by decide

/-- A letter is not white space. -/
theorem isSpace_of_isLetter (h : isLetter c = true) : isSpace c = false := by
  have hletter : (65 ≤ c.toNat ∧ c.toNat ≤ 90) ∨ (97 ≤ c.toNat ∧ c.toNat ≤ 122) := by
    simp only [isLetter, Bool.or_eq_true, Bool.and_eq_true, decide_eq_true_eq, Char.le_def,
      UInt32.le_iff_toNat_le] at h
    exact h
  by_contra hspace
  have hspace := Bool.of_not_eq_false hspace
  simp only [isSpace, Bool.or_eq_true, Bool.and_eq_true, decide_eq_true_eq, List.contains_iff_mem,
    List.mem_cons, List.not_mem_nil, or_false] at hspace
  omega

theorem takeWhile_append_of_stop {α : Type} {p : α → Bool} {a b : List α} (ha : ∀ x ∈ a, p x)
    (hb : ∀ x ∈ b.head?, p x = false) : (a ++ b).takeWhile p = a := by
  rw [List.takeWhile_append_of_pos ha]
  cases b with
  | nil => rw [List.takeWhile_nil, List.append_nil]
  | cons x b =>
    rw [List.takeWhile_cons_of_neg (by simpa using hb x rfl), List.append_nil]

theorem dropWhile_append_of_stop {α : Type} {p : α → Bool} {a b : List α} (ha : ∀ x ∈ a, p x)
    (hb : ∀ x ∈ b.head?, p x = false) : (a ++ b).dropWhile p = b := by
  rw [List.dropWhile_append_of_pos ha]
  cases b with
  | nil => rw [List.dropWhile_nil]
  | cons x b => rw [List.dropWhile_cons_of_neg (by simpa using hb x rfl)]

theorem takeWhile_quote {inner rest : Text} (h : quote ∉ inner) :
    (inner ++ quote :: rest).takeWhile (· ≠ quote) = inner :=
  takeWhile_append_of_stop
    (fun c hc => decide_eq_true fun heq => h (heq ▸ hc)) (by simp)

/-- A quoted run holds no quote but its own two. -/
theorem quotedRun_eq_some : quotedRun text = some run ↔
    ∃ inner rest, quote ∉ inner ∧ run = quote :: (inner ++ [quote]) ∧ text = run ++ rest := by
  constructor
  · intro h
    cases text with
    | nil => exact absurd h (by simp [quotedRun])
    | cons c rest =>
      rw [quotedRun] at h
      split at h
      next hquote =>
        obtain ⟨rfl, hmem⟩ := hquote
        obtain rfl := Option.some.inj h
        obtain ⟨inner, after, rfl, hinner⟩ := List.eq_append_cons_of_mem hmem
        rw [takeWhile_quote hinner]
        exact ⟨inner, after, hinner, rfl, by simp⟩
      next => exact absurd h (by simp)
  · rintro ⟨inner, rest, hinner, rfl, rfl⟩
    rw [List.cons_append, quotedRun, if_pos ⟨rfl, by simp⟩, List.append_assoc,
      List.singleton_append, takeWhile_quote hinner]

theorem quotedRun_eq_none : quotedRun text = none ↔ ∀ rest, text = quote :: rest → quote ∉ rest := by
  cases text with
  | nil => simp [quotedRun]
  | cons c rest =>
    rw [quotedRun]
    split
    next h =>
      refine iff_of_false (by simp) fun hnone => hnone rest ?_ h.2
      rw [h.1]
    next h =>
      refine iff_of_true rfl ?_
      rintro rest' heq hmem
      obtain ⟨rfl, rfl⟩ := List.cons.inj heq
      exact h ⟨rfl, hmem⟩

/-! ## A piece in another place -/

/-- The text ends or goes on with white space. -/
def Breaks (rest : Text) : Prop := ∀ c ∈ rest.head?, isSpace c = true

/-- The value opens a quote that it does not close. -/
def opens (value : Text) : Bool := value.head? = some quote && (quotedRun value).isNone

/-- The piece leaves a quote open. -/
def Piece.leavesOpen (piece : Piece) : Bool :=
  match piece.operator with
  | some (_, value) => opens value
  | none => opens piece.whole

theorem breaks_nil : Breaks [] := fun _ h => absurd h (by simp)

theorem breaks_cons : Breaks (' ' :: rest) := fun c h => by
  obtain rfl := Option.some.inj h
  decide

/-- The value at the head of a text is what stands there. -/
theorem valueOf_append (text : Text) : ∃ rest, text = valueOf text ++ rest := by
  rw [valueOf]
  cases h : quotedRun text with
  | none => exact ⟨_, (List.takeWhile_append_dropWhile).symm⟩
  | some run =>
    obtain ⟨_, rest, -, -, htext⟩ := quotedRun_eq_some.1 h
    exact ⟨rest, htext⟩

/-- **The value keeps to itself**: it is read the same before any break, unless it opens a quote that
what follows would close. -/
theorem valueOf_moves (h : valueOf (value ++ rest) = value) (hrest : Breaks rest')
    (hopens : opens value = true → quote ∉ rest') : valueOf (value ++ rest') = value := by
  rw [valueOf] at h ⊢
  cases hrun : quotedRun (value ++ rest) with
  | some run =>
    rw [hrun, Option.getD_some] at h
    obtain ⟨inner, _, hinner, rfl, -⟩ := quotedRun_eq_some.1 hrun
    rw [quotedRun_eq_some.2 ⟨inner, rest', hinner, rfl, by rw [h]⟩, Option.getD_some, h]
  | none =>
    rw [hrun, Option.getD_none] at h
    have hchunk : ∀ c ∈ value, (!isSpace c) = true := by
      rw [← h]
      exact fun c hc => List.mem_takeWhile_imp (p := fun c => !isSpace c) hc
    have hnone : quotedRun (value ++ rest') = none := by
      rw [quotedRun_eq_none] at hrun ⊢
      intro more hmore
      cases value with
      | nil =>
        have hspace := hrest quote (by rw [← List.nil_append rest', hmore]; rfl)
        exact absurd hspace (by decide)
      | cons c value =>
        obtain ⟨rfl, rfl⟩ := List.cons.inj hmore
        have hclosed := hrun (value ++ rest) rfl
        rw [List.mem_append, not_or] at hclosed
        have hopen : opens (quote :: value) = true := by
          rw [opens, quotedRun_eq_none.2 fun other heq => (List.cons.inj heq).2 ▸ hclosed.1]
          rfl
        exact fun hmem => (List.mem_append.1 hmem).elim hclosed.1 (hopens hopen)
    rw [hnone, Option.getD_none]
    exact takeWhile_append_of_stop hchunk fun c hc => by rw [hrest c hc]; rfl

theorem operatorAt_eq_some : operatorAt text = some piece ↔
    ∃ word after, word ≠ [] ∧ (∀ c ∈ word, isLetter c = true) ∧ text = word ++ ':' :: after ∧
      piece = ⟨word ++ ':' :: valueOf after, some (word, valueOf after)⟩ := by
  constructor
  · intro h
    rw [operatorAt] at h
    split at h
    next => exact absurd h (by simp)
    next c after hafter =>
      split at h
      next hword =>
        obtain ⟨hne, rfl⟩ := hword
        refine ⟨_, after, hne, fun c hc => List.mem_takeWhile_imp hc, ?_,
          (Option.some.inj h).symm⟩
        rw [← hafter, List.takeWhile_append_dropWhile]
      next => exact absurd h (by simp)
  · rintro ⟨word, after, hne, hword, rfl, rfl⟩
    have hstop : ∀ c ∈ (':' :: after).head?, isLetter c = false := fun c hc => by
      obtain rfl := Option.some.inj hc
      decide
    rw [operatorAt, takeWhile_append_of_stop hword hstop, dropWhile_append_of_stop hword hstop]
    exact if_pos ⟨hne, rfl⟩

/-- A piece that is no operator is so before any break. -/
theorem operatorAt_none (h : operatorAt (value ++ rest) = none) (hrest : Breaks rest') :
    operatorAt (value ++ rest') = none := by
  by_contra hsome
  obtain ⟨piece, hpiece⟩ := Option.ne_none_iff_exists'.1 hsome
  obtain ⟨word, after, hword, hletters, htext, -⟩ := operatorAt_eq_some.1 hpiece
  have hbreak : ∀ c more, rest' = c :: more → isLetter c = false ∧ c ≠ ':' := by
    rintro c more rfl
    have hspace := hrest c rfl
    refine ⟨?_, fun heq => ?_⟩
    · by_contra hletter
      rw [isSpace_of_isLetter (Bool.of_not_eq_false hletter)] at hspace
      cases hspace
    · rw [heq, colon_not_space] at hspace
      cases hspace
  rcases List.append_eq_append_iff.1 htext with ⟨more, hmore, hafter⟩ | ⟨more, hmore, hafter⟩
  · -- The word would go on behind the break.
    cases more with
    | nil => exact (hbreak ':' after hafter).2 rfl
    | cons c more =>
      have hletter := hletters c (by rw [hmore]; simp)
      rw [(hbreak c _ hafter).1] at hletter
      cases hletter
  · cases more with
    | nil => exact (hbreak ':' after hafter.symm).2 rfl
    | cons c more =>
      obtain ⟨rfl, rfl⟩ := List.cons.inj hafter
      have hread : operatorAt (value ++ rest) ≠ none := by
        rw [hmore, List.append_assoc, operatorAt_eq_some.2
          ⟨word, more ++ rest, hword, hletters, by simp, rfl⟩]
        exact Option.some_ne_none _
      exact hread h

/-- **A piece keeps to itself.** -/
theorem pieceOf_moves (h : pieceOf (piece.whole ++ rest) = some piece) (hrest : Breaks rest')
    (hopens : piece.leavesOpen = true → quote ∉ rest') :
    pieceOf (piece.whole ++ rest') = some piece := by
  cases hoperator : operatorAt (piece.whole ++ rest) with
  | some read =>
    simp only [pieceOf, hoperator] at h
    obtain rfl := Option.some.inj h
    obtain ⟨word, after, hne, hletters, htext, hread⟩ := operatorAt_eq_some.1 hoperator
    have hwhole : read.whole = word ++ ':' :: valueOf after := by rw [hread]
    have hafter : valueOf after ++ rest = after := by
      rw [hwhole, List.append_assoc, List.cons_append] at htext
      exact (List.cons.inj (List.append_cancel_left htext)).2
    have hvalue : valueOf (valueOf after ++ rest') = valueOf after := by
      refine valueOf_moves (by rw [hafter]) hrest fun hopen => hopens ?_
      rw [hread]
      exact hopen
    simp only [pieceOf]
    rw [operatorAt_eq_some.2 ⟨word, valueOf after ++ rest', hne, hletters, by
      rw [hwhole, List.append_assoc, List.cons_append], rfl⟩, hvalue, hread]
  | none =>
    simp only [pieceOf, hoperator] at h
    split at h
    next => exact absurd h (by simp)
    next hne =>
      have hread := (Option.some.inj h).symm
      have hwhole : valueOf (piece.whole ++ rest) = piece.whole := (congrArg Piece.whole hread).symm
      have hnone : piece.operator = none := congrArg Piece.operator hread
      have hvalue : valueOf (piece.whole ++ rest') = piece.whole := by
        refine valueOf_moves hwhole hrest fun hopen => hopens ?_
        rw [Piece.leavesOpen, hnone]
        exact hopen
      rw [hwhole] at hne
      simp only [pieceOf, operatorAt_none hoperator hrest, hvalue, if_neg hne]
      rw [← hnone]

theorem pieceOf_append (h : pieceOf text = some piece) : ∃ rest, text = piece.whole ++ rest := by
  cases hoperator : operatorAt text with
  | some read =>
    simp only [pieceOf, hoperator] at h
    obtain rfl := Option.some.inj h
    obtain ⟨word, after, -, -, rfl, hread⟩ := operatorAt_eq_some.1 hoperator
    obtain ⟨rest, hrest⟩ := valueOf_append after
    refine ⟨rest, ?_⟩
    rw [hread, List.append_assoc, List.cons_append, ← hrest]
  | none =>
    simp only [pieceOf, hoperator] at h
    split at h
    next => exact absurd h (by simp)
    next =>
      obtain rfl := Option.some.inj h
      exact valueOf_append text

theorem pieceOf_ne_nil (h : pieceOf text = some piece) : piece.whole ≠ [] := by
  cases hoperator : operatorAt text with
  | some read =>
    simp only [pieceOf, hoperator] at h
    obtain rfl := Option.some.inj h
    obtain ⟨word, after, hne, -, -, hread⟩ := operatorAt_eq_some.1 hoperator
    rw [hread]
    exact List.append_ne_nil_of_left_ne_nil hne _
  | none =>
    simp only [pieceOf, hoperator] at h
    split at h
    next => exact absurd h (by simp)
    next hne =>
      obtain rfl := Option.some.inj h
      exact hne

/-- No piece starts at a space. -/
theorem pieceOf_space (rest : Text) : pieceOf (' ' :: rest) = none := by
  have hletter : isLetter ' ' = false := by decide
  have hquote : (' ' : Char) ≠ quote := by decide
  have hspace : isSpace ' ' = true := by decide
  simp [pieceOf, operatorAt, valueOf, quotedRun, hletter, hquote, hspace]

/-- `TOKEN`. -/
def TOKEN : Scanner Char Piece where
  whole := Piece.whole
  next := pieceOf
  starts := pieceOf_append
  nonempty := pieceOf_ne_nil

/-- `matchAll(TOKEN)`. -/
def pieces (text : Text) : List Piece := TOKEN.scan text

theorem pieces_cons (h : pieceOf (piece.whole ++ rest) = some piece) :
    pieces (piece.whole ++ rest) = piece :: pieces rest :=
  TOKEN.scan_piece h

theorem pieces_space (rest : Text) : pieces (' ' :: rest) = pieces rest :=
  TOKEN.scan_skip (pieceOf_space rest)

/-! ## Pieces by themselves -/

/-- The text is one piece, whatever breaks off after it. -/
def Piece.Alone (piece : Piece) : Prop := pieceOf piece.whole = some piece

instance (piece : Piece) : Decidable piece.Alone :=
  inferInstanceAs (Decidable (pieceOf piece.whole = some piece))

/-- Each of the texts is one piece by itself, and behind one that leaves a quote open none has a
quote. -/
structure Settled (pieces : List Piece) : Prop where
  alone : ∀ piece ∈ pieces, piece.Alone
  closed : pieces.Pairwise fun piece later => piece.leavesOpen = true → quote ∉ later.whole

theorem alone_of_read (h : pieceOf (piece.whole ++ rest) = some piece) : piece.Alone := by
  have hread := pieceOf_moves h breaks_nil fun _ => List.not_mem_nil
  rwa [List.append_nil] at hread

/-- A piece that leaves a quote open was read where no quote follows. -/
theorem quote_of_leavesOpen (h : pieceOf (piece.whole ++ rest) = some piece)
    (hopen : piece.leavesOpen = true) : quote ∉ rest := by
  -- The value of the piece, the piece itself where it is no operator, and what follows it.
  have hvalue : ∀ value, opens value = true → valueOf (value ++ rest) = value → quote ∉ rest := by
    intro value hopens hread
    rw [opens, Bool.and_eq_true, decide_eq_true_eq, Option.isNone_iff_eq_none] at hopens
    obtain ⟨inner, rfl⟩ : ∃ inner, value = quote :: inner := by
      cases value with
      | nil => exact absurd hopens.1 (by simp)
      | cons c inner => exact ⟨inner, by rw [Option.some.inj hopens.1]⟩
    cases hrun : quotedRun (quote :: inner ++ rest) with
    | some run =>
      rw [valueOf, hrun, Option.getD_some] at hread
      obtain ⟨closed, _, hclosed, hshape, -⟩ := quotedRun_eq_some.1 hrun
      have hsome := quotedRun_eq_some.2 ⟨closed, [], hclosed, rfl, (List.append_nil _).symm⟩
      rw [← hshape, hread, hopens.2] at hsome
      cases hsome
    | none =>
      have hnone := quotedRun_eq_none.1 hrun (inner ++ rest) rfl
      exact fun hmem => hnone (List.mem_append_right _ hmem)
  cases hoperator : operatorAt (piece.whole ++ rest) with
  | some read =>
    simp only [pieceOf, hoperator] at h
    obtain rfl := Option.some.inj h
    obtain ⟨word, after, hne, hletters, htext, hread⟩ := operatorAt_eq_some.1 hoperator
    have hafter : valueOf after ++ rest = after := by
      rw [show read.whole = word ++ ':' :: valueOf after by rw [hread], List.append_assoc,
        List.cons_append] at htext
      exact (List.cons.inj (List.append_cancel_left htext)).2
    refine hvalue (valueOf after) ?_ (by rw [hafter])
    rw [Piece.leavesOpen, hread] at hopen
    exact hopen
  | none =>
    simp only [pieceOf, hoperator] at h
    split at h
    next => exact absurd h (by simp)
    next =>
      have hread := (Option.some.inj h).symm
      have hnone : piece.operator = none := congrArg Piece.operator hread
      rw [Piece.leavesOpen, hnone] at hopen
      exact hvalue piece.whole hopen (congrArg Piece.whole hread).symm

/-- No piece holds a character that its text does not hold. -/
theorem mem_of_mem_piece (hpiece : piece ∈ pieces text) (hc : c ∈ piece.whole) : c ∈ text := by
  obtain ⟨before, after, hsplit⟩ := List.append_of_mem hpiece
  obtain ⟨lead, rest, rfl, -, -⟩ := Scanner.scan_split hsplit
  exact List.mem_append_right _ (List.mem_append_left _ hc)

/-- **The pieces of a text are settled.** -/
theorem pieces_settled (text : Text) : Settled (pieces text) where
  alone := by
    intro piece hpiece
    obtain ⟨before, after, hsplit⟩ := List.append_of_mem hpiece
    obtain ⟨lead, rest, -, hread, -⟩ := Scanner.scan_split hsplit
    exact alone_of_read hread
  closed := by
    refine Scanner.pairwise_of_split fun before piece after hsplit later hlater hopen hquote => ?_
    obtain ⟨lead, rest, -, hread, rfl⟩ := Scanner.scan_split hsplit
    exact quote_of_leavesOpen hread hopen (mem_of_mem_piece hlater hquote)

/-- **Settled pieces read back.** -/
theorem pieces_written {written : List Piece} (h : Settled written) :
    pieces (joined ' ' (written.map Piece.whole)) = written := by
  refine TOKEN.scan_joined (fun rest => ?_) ?_
  · exact pieceOf_space rest
  · obtain ⟨halone, hclosed⟩ := h
    induction written with
    | nil => exact .nil
    | cons piece written ih =>
      rw [List.pairwise_cons] at hclosed
      refine .cons ?_ (ih (fun other hother => halone other (List.mem_cons_of_mem _ hother))
        hclosed.2)
      have hread := halone piece List.mem_cons_self
      rw [Piece.Alone, ← List.append_nil piece.whole] at hread
      refine pieceOf_moves hread ?_ fun hopen hquote => ?_
      · intro c hc
        rw [following] at hc
        split at hc
        next => exact absurd hc (by simp)
        next => exact breaks_cons c hc
      · rcases mem_following hquote with heq | ⟨text, htext, hmem⟩
        · exact absurd heq (by decide)
        · obtain ⟨later, hlater, rfl⟩ := List.mem_map.1 htext
          exact hclosed.1 later hlater hopen hmem

end Huliho.Search
