import Huliho.Search.Reread

/-!
# The field's text keeps its params

`queryOf` puts the operators ahead of the free text, so a quote that a piece leaves open closes in
another piece that used to stand before it. The params read back where the texts written are separate
and the mailbox's word names the mailbox (`parsed_back`); where the senders are separate, a sender that
leaves a quote open keeps them only if no quote is written behind it (`closed_of_back`). Both together
are **`params_kept`**.
-/

namespace Huliho.Search

variable {platform : Platform} {context : QueryContext} {text value word : Text} {piece : Piece}

/-! ## Reading what was written -/

section Folds

variable {reading : Reading}

theorem take_found {found : Found} (h : foundOf platform context piece = some found) :
    reading.take platform context piece = reading.set found := by
  rw [Reading.take, h]

theorem fold_senders (hdocumented : platform.Documented) {values : List Text}
    (hvalues : ∀ value ∈ values, value ≠ []) :
    (values.map (operatorPiece "from".toList)).foldl (Reading.take platform context) reading =
      { reading with senders := reading.senders ++ values } := by
  induction values generalizing reading with
  | nil => simp
  | cons value values ih =>
    have hfound : foundOf platform context (operatorPiece "from".toList value) =
        some (.from value) := found_from hdocumented (hvalues value List.mem_cons_self)
    rw [List.map_cons, List.foldl_cons, take_found hfound,
      ih fun other hother => hvalues other (List.mem_cons_of_mem _ hother)]
    simp [Reading.set]

theorem fold_words {read : List Piece} (h : ∀ piece ∈ read, foundOf platform context piece = none) :
    read.foldl (Reading.take platform context) reading =
      { reading with words := reading.words ++ read.map Piece.whole } := by
  induction read generalizing reading with
  | nil => simp
  | cons piece read ih =>
    rw [List.foldl_cons, Reading.take, h piece List.mem_cons_self,
      ih fun other hother => h other (List.mem_cons_of_mem _ hother)]
    simp

/-- One optional piece. -/
theorem fold_option {value : Option Text} {write : Text → Piece} {key : Text → Found}
    (h : ∀ text, value = some text → foundOf platform context (write text) = some (key text)) :
    (value.toList.map write).foldl (Reading.take platform context) reading =
      (value.map fun text => reading.set (key text)).getD reading := by
  cases value with
  | none => rfl
  | some text => exact take_found (h text rfl)

theorem fold_flag {flag : Bool} {found : Found} (h : foundOf platform context piece = some found) :
    (if flag then [piece] else []).foldl (Reading.take platform context) reading =
      if flag then reading.set found else reading := by
  cases flag with
  | false => rfl
  | true => exact take_found h

end Folds

/-! ## The pieces of the written text -/

/-- Pieces by themselves that are written as operators are these operators. -/
theorem pieces_of_wholes (hne : word ≠ []) (hletters : ∀ c ∈ word, isLetter c = true)
    {values : List Text} {read : List Piece} (halone : ∀ piece ∈ read, piece.Alone)
    (h : read.map Piece.whole = values.map (operator word)) :
    read = values.map (operatorPiece word) := by
  induction values generalizing read with
  | nil => exact List.map_eq_nil_iff.1 h
  | cons value values ih =>
    obtain ⟨piece, read, rfl, hpiece, hread⟩ := List.map_eq_cons_iff.1 h
    have hoperator := operator_of_alone hne hletters (halone piece List.mem_cons_self) hpiece
    rw [List.map_cons, ih (fun other hother => halone other (List.mem_cons_of_mem _ hother)) hread,
      operatorPiece, ← hpiece, ← hoperator]

/-- Pieces by themselves with the same texts are the same. -/
theorem eq_of_wholes {read read' : List Piece} (h : ∀ piece ∈ read, piece.Alone)
    (h' : ∀ piece ∈ read', piece.Alone) (hwholes : read.map Piece.whole = read'.map Piece.whole) :
    read = read' := by
  induction read generalizing read' with
  | nil => exact (List.map_eq_nil_iff.1 hwholes.symm).symm
  | cons piece read ih =>
    obtain ⟨piece', read', rfl, hpiece, hread⟩ := List.map_eq_cons_iff.1 hwholes.symm
    have hfirst := h piece List.mem_cons_self
    rw [Piece.Alone, ← hpiece, h' piece' List.mem_cons_self] at hfirst
    rw [Option.some.inj hfirst, ih (fun other hother => h other (List.mem_cons_of_mem _ hother))
      (fun other hother => h' other (List.mem_cons_of_mem _ hother)) hread.symm]

/-- The pieces of the dates and the flags. -/
def plainPieces (params : SearchParams) : List Piece :=
  params.after.toList.map (operatorPiece "after".toList) ++
    (params.before.toList.map (operatorPiece "before".toList) ++
      ((if params.unread then [operatorPiece "is".toList "unread".toList] else []) ++
        ((if params.starred then [operatorPiece "is".toList "starred".toList] else []) ++
          (if params.attachment then [operatorPiece "has".toList "attachment".toList] else []))))

theorem plainPieces_plain (hdocumented : platform.Documented) {params : SearchParams}
    (hafter : ∀ day, params.after = some day → Written platform day)
    (hbefore : ∀ day, params.before = some day → Written platform day) :
    ∀ piece ∈ plainPieces params, piece.Plain := by
  have hdate : ∀ {word : Text}, word ≠ [] → (∀ c ∈ word, isLetter c = true) →
      ∀ {date : Option Text}, (∀ day, date = some day → Written platform day) →
      ∀ piece ∈ date.toList.map (operatorPiece word), piece.Plain := by
    intro word hne hletters date hwritten piece hpiece
    obtain ⟨day, hday, rfl⟩ := List.mem_map.1 hpiece
    exact operatorPiece_plain hne hletters
      (typed_written hdocumented (hwritten day (Option.mem_toList.1 hday)) []).2
  have hflag : ∀ {flag : Bool} {word value : Text}, word ≠ [] → (∀ c ∈ word, isLetter c = true) →
      (∀ c ∈ value, isSpace c = false ∧ c ≠ quote) →
      ∀ piece ∈ (if flag then [operatorPiece word value] else []), piece.Plain := by
    intro flag word value hne hletters hvalue piece hpiece
    cases flag with
    | false => exact absurd hpiece List.not_mem_nil
    | true =>
      obtain rfl := List.mem_singleton.1 hpiece
      exact operatorPiece_plain hne hletters hvalue
  intro piece hpiece
  simp only [plainPieces, List.mem_append] at hpiece
  rcases hpiece with hpiece | hpiece | hpiece | hpiece | hpiece
  · exact hdate (by decide) (letters_of_all (by decide)) hafter piece hpiece
  · exact hdate (by decide) (letters_of_all (by decide)) hbefore piece hpiece
  · exact hflag (by decide) (letters_of_all (by decide)) (bare_of_all (by decide)) piece hpiece
  · exact hflag (by decide) (letters_of_all (by decide)) (bare_of_all (by decide)) piece hpiece
  · exact hflag (by decide) (letters_of_all (by decide)) (bare_of_all (by decide)) piece hpiece

/-- What the dates and the flags set. -/
theorem fold_plainPieces (hdocumented : platform.Documented) {params : SearchParams}
    (hafter : ∀ day, params.after = some day → Written platform day)
    (hbefore : ∀ day, params.before = some day → Written platform day)
    (words senders : List Text) (scope : Option Text) :
    (plainPieces params).foldl (Reading.take platform context)
        ⟨words, senders, { «in» := scope }⟩ =
      ⟨words, senders, { params with q := none, «from» := none, «in» := scope }⟩ := by
  have hunread : foundOf platform context (operatorPiece "is".toList "unread".toList) =
      some .unread := found_flag hdocumented (by decide) (by decide) (by decide)
  have hstarred : foundOf platform context (operatorPiece "is".toList "starred".toList) =
      some .starred := found_flag hdocumented (by decide) (by decide) (by decide)
  have hattachment : foundOf platform context (operatorPiece "has".toList "attachment".toList) =
      some .attachment := found_flag hdocumented (by decide) (by decide) (by decide)
  have hafters : ∀ day, params.after = some day →
      foundOf platform context (operatorPiece "after".toList day) = some (.after day) :=
    fun day hday => found_after hdocumented (hafter day hday)
  have hbefores : ∀ day, params.before = some day →
      foundOf platform context (operatorPiece "before".toList day) = some (.before day) :=
    fun day hday => found_before hdocumented (hbefore day hday)
  simp only [plainPieces, List.foldl_append]
  rw [fold_option hafters, fold_option hbefores, fold_flag hunread, fold_flag hstarred,
    fold_flag hattachment]
  obtain ⟨q, inside, sender, after, before, unread, starred, attachment⟩ := params
  cases after <;> cases before <;> cases unread <;> cases starred <;> cases attachment <;> rfl

/-! ## The claim of the field -/

section Claim

variable (platform context)

/-- The word `in:` is written with. -/
def scopeWords (text : Text) : List Text :=
  (scope platform context text).toList.map fun id => scopeWord platform id context

/-- The pieces of the text that a quote can join are apart from each other: the senders among
themselves, and once more as they are written with the mailbox and the free text. The mailbox's word
names the mailbox. -/
structure Kept (text : Text) : Prop where
  senders : Separate (senders platform context text)
  written : Separate ((Search.senders platform context text).map (operator "from".toList) ++
    ((scopeWords platform context text).map (operator "in".toList) ++
      (words platform context text).map Piece.whole))
  named : ∀ id, scope platform context text = some id →
    scopeIn platform (scopeWord platform id context) context = some (.in id)

end Claim

section Parsed

variable (text)

theorem parseQuery_in : (parseQuery platform text context).in = scope platform context text := by
  have h : ((pieces text).foldl (Reading.take platform context) {}).params.in =
      (scope platform context text <|> none) := take_scope
  refine h.trans ?_
  cases scope platform context text <;> rfl

theorem parseQuery_from : (parseQuery platform text context).from =
    if senders platform context text = [] then none
    else some (joined ' ' (senders platform context text)) := by
  have h : ((pieces text).foldl (Reading.take platform context) {}).senders =
      [] ++ senders platform context text := take_senders
  rw [parseQuery, Reading.done, h, List.nil_append]

theorem parseQuery_q : (parseQuery platform text context).q =
    if words platform context text = [] then none
    else some (joined ' ' ((words platform context text).map Piece.whole)) := by
  have h : ((pieces text).foldl (Reading.take platform context) {}).words =
      [] ++ (words platform context text).map Piece.whole := take_words
  rw [parseQuery, Reading.done, h, List.nil_append]
  simp only [List.map_eq_nil_iff]

theorem parseQuery_dates {day : Text} :
    ((parseQuery platform text context).after = some day → Written platform day) ∧
      ((parseQuery platform text context).before = some day → Written platform day) := by
  have hdates : (((pieces text).foldl (Reading.take platform context) {}).params.after = some day →
      _) ∧ (((pieces text).foldl (Reading.take platform context) {}).params.before = some day →
      _) := take_dates
  constructor
  · intro hday
    rcases hdates.1 hday with hnone | ⟨piece, -, hfound⟩
    · cases hnone
    · exact written_of_found hfound rfl
  · intro hday
    rcases hdates.2 hday with hnone | ⟨piece, -, hfound⟩
    · cases hnone
    · exact written_of_found hfound rfl

end Parsed

/-- The free text reads as its pieces, so none of it is put in quotes. -/
theorem textOf_words (text : Text) :
    textOf platform (joined ' ' ((words platform context text).map Piece.whole)) context =
      joined ' ' ((words platform context text).map Piece.whole) := by
  have hsettled : Settled (words platform context text) :=
    (pieces_settled text).sublist (List.filter_sublist)
  rw [textOf, pieces_written hsettled]
  refine congrArg (joined ' ') (List.map_congr_left fun piece hpiece => ?_)
  have hnone := (List.mem_filter.1 hpiece).2
  rw [Option.isNone_iff_eq_none] at hnone
  rw [hnone]
  rfl

theorem senderTerms_from (h : Separate (senders platform context text)) :
    senderTerms ((parseQuery platform text context).from.getD []) =
      senders platform context text := by
  rw [parseQuery_from, senderTerms]
  split
  next hempty =>
    rw [hempty, Option.getD_none, pieces, Scanner.scan_nil]
    rfl
  next => exact h.read

/-- The text `queryOf` writes for what was read. -/
theorem queryOf_parsed (h : Separate (senders platform context text)) :
    queryOf platform (parseQuery platform text context) context =
      joined ' ' (((senders platform context text).map (operatorPiece "from".toList) ++
        ((scopeWords platform context text).map (operatorPiece "in".toList) ++
          (plainPieces (parseQuery platform text context) ++
            words platform context text))).map Piece.whole) := by
  have hwhole : ∀ word, Piece.whole ∘ operatorPiece word = operator word := fun word => rfl
  have hflag : ∀ (flag : Bool) word value, (if flag then [operatorPiece word value] else []).map
      Piece.whole = if flag then [operator word value] else [] := by
    intro flag word value
    cases flag <;> rfl
  have hdate : ∀ (date : Option Text) word,
      date.toList.map (operator word) = (date.map (operator word)).toList := by
    intro date word
    cases date <;> rfl
  have hscope : (scopeWords platform context text).map (operator "in".toList) =
      ((scope platform context text).map fun id =>
        operator "in".toList (scopeWord platform id context)).toList := by
    rw [scopeWords]
    cases scope platform context text <;> rfl
  rw [queryOf, senderTerms_from h, parseQuery_in, parseQuery_q]
  simp only [plainPieces, List.map_append, List.map_map, hwhole, hflag, hdate, hscope]
  by_cases hempty : words platform context text = []
  · simp only [hempty, if_true, Option.map_none, Option.toList_none, List.map_nil,
      List.append_nil, List.append_assoc]
    rfl
  · have hjoined : ∀ texts, joined ' ' (texts ++
        [joined ' ' ((words platform context text).map Piece.whole)]) =
        joined ' ' (texts ++ (words platform context text).map Piece.whole) :=
      fun texts => joined_append (by rwa [Ne, List.map_eq_nil_iff])
    simp only [if_neg hempty, Option.map_some, Option.toList_some, textOf_words]
    rw [hjoined]
    simp only [List.append_assoc]
    rfl

/-- The pieces `queryOf` writes for what was read. -/
theorem written_pieces (hdocumented : platform.Documented) (h : Kept platform context text) :
    ∃ written : List Piece, Settled written ∧
      written = (senders platform context text).map (operatorPiece "from".toList) ++
        ((scopeWords platform context text).map (operatorPiece "in".toList) ++
          (plainPieces (parseQuery platform text context) ++ words platform context text)) ∧
      queryOf platform (parseQuery platform text context) context =
        joined ' ' (written.map Piece.whole) := by
  obtain ⟨pieces', hwholes, hsettled⟩ := h.written
  obtain ⟨front, rest, rfl, hfront, hrest⟩ := List.map_eq_append_iff.1 hwholes
  obtain ⟨middle, back, rfl, hmiddle, hback⟩ := List.map_eq_append_iff.1 hrest
  have halone := hsettled.alone
  simp only [List.mem_append] at halone
  obtain rfl := pieces_of_wholes (by decide) (letters_of_all (by decide))
    (fun p hp => halone p (.inl hp)) hfront
  obtain rfl := pieces_of_wholes (by decide) (letters_of_all (by decide))
    (fun p hp => halone p (.inr (.inl hp))) hmiddle
  have hwords : ∀ piece ∈ words platform context text, piece.Alone := fun piece hpiece =>
    (pieces_settled text).alone piece (List.mem_of_mem_filter hpiece)
  obtain rfl := eq_of_wholes (fun p hp => halone p (.inr (.inr hp))) hwords hback
  refine ⟨_, ?_, rfl, ?_⟩
  · rw [← List.append_assoc] at hsettled ⊢
    exact hsettled.insert (plainPieces_plain hdocumented (fun day => (parseQuery_dates text).1)
      fun day => (parseQuery_dates text).2)
  · exact queryOf_parsed h.senders

/-- **The params read back.** Where the senders, and then the texts written, are separate and the
mailbox's word names the mailbox, the field's text keeps its params. -/
theorem parsed_back (hdocumented : platform.Documented) (h : Kept platform context text) :
    parseQuery platform (queryOf platform (parseQuery platform text context) context) context =
      parseQuery platform text context := by
  obtain ⟨written, hsettled, hwritten, hquery⟩ := written_pieces hdocumented h
  have hsenders : ∀ value ∈ senders platform context text, value ≠ [] := by
    intro value hvalue
    obtain ⟨piece, -, hpiece⟩ := List.mem_filterMap.1 hvalue
    exact (sender_of_piece hpiece).1
  have hwords : ∀ piece ∈ words platform context text, foundOf platform context piece = none := by
    intro piece hpiece
    have hnone := (List.mem_filter.1 hpiece).2
    rwa [Option.isNone_iff_eq_none] at hnone
  have hscope : ((scopeWords platform context text).map (operatorPiece "in".toList)).foldl
      (Reading.take platform context) ⟨[], senders platform context text, {}⟩ =
      ⟨[], senders platform context text, { «in» := scope platform context text }⟩ := by
    rw [scopeWords]
    cases hid : scope platform context text with
    | none => rfl
    | some id =>
      have hfound : foundOf platform context
          (operatorPiece "in".toList (scopeWord platform id context)) = some (.in id) :=
        (found_in hdocumented).trans (h.named id hid)
      exact take_found hfound
  have hread : (pieces (queryOf platform (parseQuery platform text context) context)).foldl
      (Reading.take platform context) {} =
      ⟨(words platform context text).map Piece.whole, senders platform context text,
        { parseQuery platform text context with
          q := none, «from» := none, «in» := scope platform context text }⟩ := by
    rw [hquery, pieces_written hsettled, hwritten, List.foldl_append, List.foldl_append,
      List.foldl_append, fold_senders hdocumented hsenders, List.nil_append, hscope,
      fold_plainPieces hdocumented (fun day => (parseQuery_dates text).1)
        (fun day => (parseQuery_dates text).2), fold_words hwords, List.nil_append]
  have heta : ∀ params : SearchParams, params.in = scope platform context text →
      params.from = (if senders platform context text = [] then none
        else some (joined ' ' (senders platform context text))) →
      params.q = (if (words platform context text).map Piece.whole = [] then none
        else some (joined ' ' ((words platform context text).map Piece.whole))) →
      Reading.done ⟨(words platform context text).map Piece.whole, senders platform context text,
        { params with q := none, «from» := none, «in» := scope platform context text }⟩ =
        params := by
    intro params hin hfrom hq
    rw [Reading.done]
    simp only [← hin, ← hfrom, ← hq]
  rw [parseQuery, hread]
  refine heta _ (parseQuery_in text) (parseQuery_from text) ?_
  rw [parseQuery_q]
  simp only [List.map_eq_nil_iff]

/-! ## The other direction -/

/-- Pieces that leave no quote open are read ahead of any text. -/
theorem pieces_ahead {read : List Piece} (halone : ∀ piece ∈ read, piece.Alone)
    (hclosed : ∀ piece ∈ read, piece.leavesOpen = false) (text : Text) (texts : List Text) :
    pieces (joined ' ' (read.map Piece.whole ++ text :: texts)) =
      read ++ pieces (joined ' ' (text :: texts)) := by
  induction read with
  | nil => rfl
  | cons piece read ih =>
    have hread := halone piece List.mem_cons_self
    rw [Piece.Alone, ← List.append_nil piece.whole] at hread
    have hmoved : ∀ later, pieceOf (piece.whole ++ ' ' :: later) = some piece := fun later =>
      pieceOf_moves hread breaks_cons fun hopen => by
        rw [hclosed piece List.mem_cons_self] at hopen
        cases hopen
    rw [List.map_cons, List.cons_append, joined_cons, following, if_neg (by simp),
      pieces_cons (hmoved _), pieces_space, List.cons_append]
    exact congrArg _ (ih (fun other hother => halone other (List.mem_cons_of_mem _ hother))
      fun other hother => hclosed other (List.mem_cons_of_mem _ hother))

theorem opens_eq (hopens : opens value = true) : ∃ inner, value = quote :: inner ∧ quote ∉ inner := by
  rw [opens, Bool.and_eq_true, decide_eq_true_eq, Option.isNone_iff_eq_none] at hopens
  cases value with
  | nil => exact absurd hopens.1 (by simp)
  | cons c inner =>
    obtain rfl := Option.some.inj hopens.1
    exact ⟨inner, rfl, quotedRun_eq_none.1 hopens.2 inner rfl⟩

/-- A value that opens a quote takes what follows up to the next quote. -/
theorem valueOf_opens (hopens : opens value = true) {rest : Text} (hquote : quote ∈ rest) :
    2 ≤ (valueOf (value ++ rest)).count quote := by
  obtain ⟨inner, rfl, -⟩ := opens_eq hopens
  have hrun : quotedRun (quote :: inner ++ rest) =
      some (quote :: ((inner ++ rest).takeWhile (· ≠ quote) ++ [quote])) :=
    if_pos ⟨rfl, List.mem_append_right _ hquote⟩
  rw [valueOf, hrun, Option.getD_some, List.count_cons_self, List.count_append,
    List.count_singleton_self]
  omega

theorem leavesOpen_of_opens (halone : piece.Alone) (hopens : opens piece.whole = true) :
    piece.leavesOpen = true := by
  cases hoperator : operatorAt piece.whole with
  | some read =>
    obtain ⟨word, after, hne, hletters, htext, -⟩ := operatorAt_eq_some.1 hoperator
    obtain ⟨c, word, rfl⟩ := List.exists_cons_of_ne_nil hne
    rw [opens, Bool.and_eq_true, decide_eq_true_eq, htext] at hopens
    have hletter := hletters c List.mem_cons_self
    rw [Option.some.inj hopens.1, quote_not_letter] at hletter
    cases hletter
  | none =>
    have hread := halone
    rw [Piece.Alone, pieceOf, hoperator] at hread
    simp only at hread
    split at hread
    next => cases hread
    next =>
      have hnone : piece.operator = none := (congrArg Piece.operator (Option.some.inj hread)).symm
      rw [Piece.leavesOpen, hnone]
      exact hopens

/-- The value of an operator is a value by itself. -/
theorem valueOf_of_alone (halone : piece.Alone) (h : piece.operator = some (word, value)) :
    valueOf value = value := by
  have hread := halone
  cases hoperator : operatorAt piece.whole with
  | some read =>
    simp only [Piece.Alone, pieceOf, hoperator] at hread
    obtain rfl := Option.some.inj hread
    obtain ⟨word', after, -, -, htext, hshape⟩ := operatorAt_eq_some.1 hoperator
    have hafter : after = valueOf after := by
      have hwhole := htext.symm.trans (congrArg Piece.whole hshape)
      exact (List.cons.inj (List.append_cancel_left hwhole)).2
    have hvalue := congrArg Piece.operator hshape
    rw [h] at hvalue
    obtain ⟨-, rfl⟩ := Prod.mk.inj (Option.some.inj hvalue)
    rw [← hafter, ← hafter]
  | none =>
    simp only [Piece.Alone, pieceOf, hoperator] at hread
    split at hread
    next => cases hread
    next =>
      rw [← Option.some.inj hread] at h
      cases h

theorem sender_written (hvalue : value ∈ senders platform context text) :
    value ≠ [] ∧ (operatorPiece "from".toList value).Alone := by
  obtain ⟨piece, hpiece, hsender⟩ := List.mem_filterMap.1 hvalue
  obtain ⟨hne, word, hoperator⟩ := sender_of_piece hsender
  refine ⟨hne, ?_⟩
  rw [Piece.Alone, operatorPiece, pieceOf_operator (by decide) (letters_of_all (by decide)),
    valueOf_of_alone ((pieces_settled text).alone piece hpiece) hoperator]

theorem senderOf_written (hdocumented : platform.Documented) (hvalue : value ≠ []) :
    senderOf platform context (operatorPiece "from".toList value) = some value := by
  have hfound : foundOf platform context (operatorPiece "from".toList value) =
      some (.from value) := found_from hdocumented hvalue
  rw [senderOf, hfound]

/-- **A quote left open is closed by the next one.** Where the senders are separate, the params read
back only if no text written behind a sender that leaves a quote open holds a quote. -/
theorem closed_of_back (hdocumented : platform.Documented)
    (hsenders : Separate (senders platform context text))
    (hback : parseQuery platform (queryOf platform (parseQuery platform text context) context)
      context = parseQuery platform text context)
    (hvalue : value ∈ senders platform context text) (hopens : opens value = true) :
    (∀ word ∈ scopeWords platform context text, quote ∉ word) ∧
      ∀ piece ∈ words platform context text, quote ∉ piece.whole := by
  have hquote : quote ∈ value := by
    obtain ⟨inner, rfl, -⟩ := opens_eq hopens
    exact List.mem_cons_self
  obtain ⟨first, last, hsplit⟩ := List.append_of_mem hvalue
  have hin : ∀ other ∈ first, other ∈ senders platform context text := fun other hother => by
    rw [hsplit]
    exact List.mem_append_left _ hother
  -- The senders before it leave no quote open, and those behind it have none.
  obtain ⟨hfirst, hlast⟩ : (∀ other ∈ first, opens other = false) ∧
      ∀ other ∈ last, quote ∉ other := by
    obtain ⟨read, hread, halone, hclosed⟩ := hsenders
    rw [hsplit] at hread
    obtain ⟨before, rest, rfl, hbefore, hrest⟩ := List.map_eq_append_iff.1 hread
    obtain ⟨opening, after, rfl, hopening, hafter⟩ := List.map_eq_cons_iff.1 hrest
    rw [List.pairwise_append, List.pairwise_cons] at hclosed
    obtain ⟨-, ⟨hbehind, -⟩, hacross⟩ := hclosed
    subst hopening
    constructor
    · intro other hother
      rw [← hbefore] at hother
      obtain ⟨piece, hpiece, rfl⟩ := List.mem_map.1 hother
      by_contra hopen
      have hleaves := leavesOpen_of_opens (halone piece (List.mem_append_left _ hpiece))
        (Bool.of_not_eq_false hopen)
      exact hacross piece hpiece opening List.mem_cons_self hleaves hquote
    · intro other hother
      rw [← hafter] at hother
      obtain ⟨piece, hpiece, rfl⟩ := List.mem_map.1 hother
      exact hbehind piece hpiece (leavesOpen_of_opens
        (halone opening (List.mem_append_right _ List.mem_cons_self)) hopens)
  let behind := (last.map (operatorPiece "from".toList) ++
    ((scopeWords platform context text).map (operatorPiece "in".toList) ++
      (plainPieces (parseQuery platform text context) ++
        words platform context text))).map Piece.whole
  have hnone : quote ∉ following ' ' behind := by
    intro hmem
    -- The sender's piece is read up to a quote behind it.
    obtain ⟨rest, hrest⟩ := valueOf_append (value ++ following ' ' behind)
    have htwo := valueOf_opens hopens hmem
    have hrun : valueOf (value ++ following ' ' behind) ≠ [] := by
      intro hempty
      rw [hempty] at htwo
      exact absurd htwo (by decide)
    generalize hvalueOf : valueOf (value ++ following ' ' behind) = run at hrest htwo hrun
    have hread : pieceOf (operator "from".toList run ++ rest) =
        some (operatorPiece "from".toList run) := by
      rw [operator, List.append_assoc, List.cons_append, ← hrest, ← operator,
        pieceOf_operator (by decide) (letters_of_all (by decide)), hvalueOf]
      rfl
    have hpieces : pieces (queryOf platform (parseQuery platform text context) context) =
        first.map (operatorPiece "from".toList) ++
          operatorPiece "from".toList run :: pieces rest := by
      have hwholes : queryOf platform (parseQuery platform text context) context =
          joined ' ' ((first.map (operatorPiece "from".toList)).map Piece.whole ++
            operator "from".toList value :: behind) := by
        rw [queryOf_parsed hsenders, hsplit]
        simp only [behind, List.map_append, List.map_cons, List.append_assoc, List.cons_append]
        rfl
      rw [hwholes, pieces_ahead, joined_cons, operator, List.append_assoc, List.cons_append, hrest,
        ← List.cons_append, ← List.append_assoc, ← operator]
      · have hcons : pieces ((operatorPiece "from".toList run).whole ++ rest) =
            operatorPiece "from".toList run :: pieces rest := pieces_cons hread
        exact congrArg _ hcons
      · intro piece hpiece
        obtain ⟨other, hother, rfl⟩ := List.mem_map.1 hpiece
        exact (sender_written (hin other hother)).2
      · intro piece hpiece
        obtain ⟨other, hother, rfl⟩ := List.mem_map.1 hpiece
        exact hfirst other hother
    have hfirsts : (first.map (operatorPiece "from".toList)).filterMap (senderOf platform context) =
        first := by
      rw [List.filterMap_map]
      refine (List.filterMap_congr fun other hother => ?_).trans List.filterMap_some
      exact senderOf_written hdocumented (sender_written (hin other hother)).1
    have hagain : senders platform context
        (queryOf platform (parseQuery platform text context) context) =
        first ++ run :: (pieces rest).filterMap (senderOf platform context) := by
      rw [senders, hpieces, List.filterMap_append, hfirsts,
        List.filterMap_cons_some (senderOf_written hdocumented hrun)]
    have hfrom := congrArg SearchParams.from hback
    rw [parseQuery_from, parseQuery_from, hagain, hsplit, if_neg (by simp), if_neg (by simp)] at hfrom
    -- The sender that was read holds a quote more than the one that was written.
    have hcount := congrArg (List.count quote) (Option.some.inj hfrom)
    have hspace : ' ' ≠ quote := by decide
    rw [count_joined hspace, count_joined hspace, List.map_append, List.map_append,
      List.sum_append, List.sum_append, List.map_cons, List.map_cons, List.sum_cons,
      List.sum_cons] at hcount
    have hzero : (last.map (List.count quote)).sum = 0 := by
      rw [← count_joined hspace, List.count_eq_zero]
      intro hmem
      rcases mem_joined hmem with heq | ⟨other, hother, hmem⟩
      · exact hspace heq.symm
      · exact hlast other hother hmem
    have hone : value.count quote = 1 := by
      obtain ⟨inner, rfl, hinner⟩ := opens_eq hopens
      rw [List.count_cons_self, List.count_eq_zero.2 hinner]
    omega
  have htext : ∀ word ∈ behind, quote ∉ word := fun word hword hmem =>
    hnone (mem_following_of hword hmem)
  refine ⟨fun word hword hmem => ?_, fun piece hpiece => htext piece.whole ?_⟩
  · have hwritten : operator "in".toList word ∈ behind := by
      refine List.mem_map.2 ⟨operatorPiece "in".toList word, ?_, rfl⟩
      exact List.mem_append_right _ (List.mem_append_left _ (List.mem_map_of_mem hword))
    exact htext _ hwritten (List.mem_append_right _ (List.mem_cons_of_mem _ hmem))
  · refine List.mem_map_of_mem ?_
    exact List.mem_append_right _ (List.mem_append_right _ (List.mem_append_right _ hpiece))

/-- The number digits write. -/
def numeral (digits : Text) : Nat := digits.foldl (fun n c => 10 * n + (c.toNat - 48)) 0

/-- The days of a month. -/
def daysOf (year month : Nat) : Nat :=
  if month = 2 then (if year % 4 = 0 ∧ (year % 100 ≠ 0 ∨ year % 400 = 0) then 29 else 28)
  else if month ∈ [4, 6, 9, 11] then 30
  else 31

/-- A day of the calendar as ISO 8601 writes it. -/
def isDay (text : Text) : Bool :=
  match numbers ['-'] text with
  | none => false
  | some (year, month, day) =>
    year.length = 4 && month.length = 2 && day.length = 2 &&
      (1 ≤ numeral month && numeral month ≤ 12) &&
      (1 ≤ numeral day && numeral day ≤ daysOf (numeral year) (numeral month))

/-- A platform for texts in ASCII, in the American order of a date. -/
def ascii : Platform where
  lower := List.map Char.toLower
  compare := fun _ first second => if first < second then -1 else if first = second then 0 else 1
  formatToParts := fun _ => [.month, .other, .day, .other, .year]
  isoDate := isDay

theorem number_eq {marks : List Char} {written digits rest : Text}
    (h : number marks written = some (digits, rest)) :
    (∀ c ∈ digits, isDigit c = true) ∧ ∃ mark ∈ marks, written = digits ++ mark :: rest := by
  rw [number] at h
  split at h
  next => cases h
  next mark after hafter =>
    split at h
    next hmark =>
      obtain ⟨rfl, rfl⟩ := Prod.mk.inj (Option.some.inj h)
      refine ⟨fun c hc => List.mem_takeWhile_imp hc, mark, hmark, ?_⟩
      rw [← hafter, List.takeWhile_append_dropWhile]
    next => cases h

theorem ascii_documented : ascii.Documented where
  lower_small := by
    intro word hword
    refine (List.map_congr_left (g := id) fun c hc => ?_).trans (List.map_id word)
    have hsmall := List.all_eq_true.1 hword c hc
    simp only [Bool.and_eq_true, decide_eq_true_eq, Char.le_def] at hsmall
    refine dif_neg fun hupper => ?_
    exact absurd (UInt32.le_trans hsmall.1 hupper.2) (by decide)
  isoDate_shape := by
    intro text h
    simp only [ascii, isDay] at h
    split at h
    next => cases h
    next year month day hnumbers =>
      simp only [Bool.and_eq_true, decide_eq_true_eq] at h
      obtain ⟨⟨⟨⟨hyear, hmonth⟩, hday⟩, -⟩, -⟩ := h
      simp only [numbers, Option.bind_eq_some_iff] at hnumbers
      obtain ⟨⟨year', rest⟩, hfirst, ⟨month', day'⟩, hsecond, hthird⟩ := hnumbers
      split at hthird
      next hdigits =>
        simp only [Option.some.injEq, Prod.mk.injEq] at hthird
        obtain ⟨rfl, rfl, rfl⟩ := hthird
        obtain ⟨hyears, mark, hmark, rfl⟩ := number_eq hfirst
        obtain ⟨hmonths, mark', hmark', rfl⟩ := number_eq hsecond
        obtain rfl := List.mem_singleton.1 hmark
        obtain rfl := List.mem_singleton.1 hmark'
        exact ⟨year', month', day', ⟨hyear, hyears⟩, ⟨hmonth, hmonths⟩,
          ⟨hday, List.all_eq_true.1 hdigits⟩, rfl⟩
      next => cases hthird

/-- Two mailboxes, read in the American order. -/
def home : QueryContext where
  mailboxes :=
    [⟨"m1".toList, "Inbox".toList, none, some "inbox".toList, 1⟩,
      ⟨"m2".toList, "Project X".toList, none, none, 10⟩]
  locale := "en".toList

/-- A text with two senders, a mailbox by its name, a date, a flag and a quote left open. -/
def mixed : Text :=
  "from:sanne in:\"project x\" from:\"de Vries\" after:10/1/2026 Is:Unread label:x \"in".toList

theorem mixed_kept : Kept ascii home mixed where
  senders := ⟨[⟨"sanne".toList, none⟩, ⟨"\"de Vries\"".toList, none⟩], by decide +kernel,
    by decide +kernel, by decide +kernel⟩
  written := ⟨[operatorPiece "from".toList "sanne".toList,
    operatorPiece "from".toList "\"de Vries\"".toList,
    operatorPiece "in".toList "\"Project X\"".toList, operatorPiece "label".toList "x".toList,
    ⟨"\"in".toList, none⟩], by decide +kernel, by decide +kernel, by decide +kernel⟩
  named := by
    intro id hid
    have hscope : scope ascii home mixed = some "m2".toList := by decide +kernel
    obtain rfl := Option.some.inj (hid.symm.trans hscope)
    decide +kernel

/-- A word with a quote in it, and behind it a sender that leaves a quote open. -/
def crossed : Text := "a\"b from:\"z".toList

end Huliho.Search
