import Huliho.Session.Search

/-!
# A search on the wire

The bytes of a SEARCH as the server receives them, each as the character of its number, read back by the
announced count of every literal. `readTokens` reads words and literals off a command, `readSearch` the
search they name. What the bridge sends for an ask is read as the keys of the ask, its strings the bodies
of literals and nothing else (**`search_read_back`**).
-/

namespace Huliho.Session

/-- A text as its bytes in UTF-8, each as the character of its number. -/
def octets (text : Text) : Text :=
  (text.flatMap String.utf8EncodeChar).map fun byte => Char.ofNat byte.toNat

def CRLF : Text := ['\r', '\n']

/-- What goes out for a command behind its tag: every segment with its line end. -/
def Segments.sent (command : Segments) : Text :=
  (command.first :: command.later).flatMap fun segment => octets segment ++ CRLF

/-! ## Read back -/

/-- A token of a command: an atom, or the body of a literal. -/
inductive Token
  | word (text : Text)
  | literal (body : Text)
deriving DecidableEq

/-- Whether a character stands in an atom: printable ASCII that IMAP gives no meaning to. -/
def isWordChar (c : Char) : Bool :=
  isAsciiGraphic c && !ATOM_SPECIALS.contains c

/-- A literal behind its brace: as many bytes as it announces behind its line end. -/
def readLiteral (text : Text) : Option (Token × Text) :=
  match readDecimal text with
  | none => none
  | some (count, rest) =>
    let rest := if rest.head? = some '+' then rest.tail else rest
    if rest.take 3 = '}' :: CRLF ∧ count ≤ (rest.drop 3).length then
      some (.literal ((rest.drop 3).take count), (rest.drop 3).drop count)
    else none

/-- The token a command goes on with. -/
def readToken (text : Text) : Option (Token × Text) :=
  if text.head? = some '{' then readLiteral text.tail
  else if text.takeWhile isWordChar = [] then none
  else some (.word (text.takeWhile isWordChar), text.dropWhile isWordChar)

/-- The tokens of a command up to its line end, which ends the bytes too. -/
def readTokens : Nat → Text → Option (List Token)
  | 0, _ => none
  | fuel + 1, text =>
    match readToken text with
    | none => none
    | some (token, rest) =>
      if rest = CRLF then some [token]
      else if rest.head? = some ' ' then (readTokens fuel rest.tail).map (token :: ·)
      else none

/-- A day as an IMAP date writes it. -/
def readDate (text : Text) : Option Date := do
  let (day, rest) ← readDecimal text
  let month ← (List.finRange 12).find? fun month =>
    MONTHS.getD month.val [] = (rest.drop 1).take 3
  let (year, stop) ← readDecimal (rest.drop 5)
  if rest.head? = some '-' ∧ (rest.drop 4).head? = some '-' ∧ stop = [] then
    pure ⟨year, month, day⟩
  else none

/-- A key that carries a string. -/
def stringKey (key body : Text) : Option SearchKey :=
  if key = "TEXT".toList then some (.text body)
  else if key = "FROM".toList then some (.sender body)
  else if key = "X-GM-RAW".toList then some (.gmailRaw body)
  else if key = "X-GM-LABELS".toList then some (.gmailLabels body)
  else none

/-- A key of one word. -/
def wordKey (key : Text) : Option SearchKey :=
  if key = "UNSEEN".toList then some .unseen
  else if key = "FLAGGED".toList then some .flagged
  else none

/-- A key that names a day. -/
def dayKey (key : Text) (day : Date) : Option SearchKey :=
  if key = "SINCE".toList then some (.since day)
  else if key = "BEFORE".toList then some (.before day)
  else none

/-- The keys of a search: a key of one word, or a key and its string or its date. -/
def readKeys : List Token → Option (List SearchKey)
  | [] => some []
  | .literal _ :: _ => none
  | [.word key] => (wordKey key).map ([·])
  | .word key :: .literal body :: tokens => do
    let key ← stringKey key body
    let keys ← readKeys tokens
    pure (key :: keys)
  | .word key :: .word next :: tokens =>
    match wordKey key with
    | some key => (readKeys (.word next :: tokens)).map (key :: ·)
    | none => do
      let day ← readDate next
      let key ← dayKey key day
      let keys ← readKeys tokens
      pure (key :: keys)

/-- A window of sequence numbers. -/
def readWindow (text : Text) : Option (Nat × Nat) := do
  let (low, rest) ← readDecimal text
  let (high, stop) ← readDecimal rest.tail
  if rest.head? = some ':' ∧ stop = [] then pure (low, high) else none

/-- A search as a server reads it: whether it names the charset of its strings, its window and its
keys. -/
structure Search where
  charset : Bool
  window : Nat × Nat
  keys : List SearchKey

def readSearch : List Token → Option Search
  | .word uid :: .word search :: .word next :: tokens =>
    if uid = "UID".toList ∧ search = "SEARCH".toList then
      if next = "CHARSET".toList then
        match tokens with
        | .word charset :: .word window :: tokens =>
          if charset = "UTF-8".toList then do
            let window ← readWindow window
            let keys ← readKeys tokens
            pure ⟨true, window, keys⟩
          else none
        | _ => none
      else do
        let window ← readWindow next
        let keys ← readKeys tokens
        pure ⟨false, window, keys⟩
    else none
  | _ => none

/-- The string of a literal. -/
def Token.body : Token → Option Text
  | literal body => some body
  | word _ => none

/-! ## Bytes -/

section

variable {text rest body : Text} {c : Char} {n : Nat} {token : Token}

theorem octets_append (text rest : Text) : octets (text ++ rest) = octets text ++ octets rest := by
  rw [octets, List.flatMap_append, List.map_append, octets, octets]

theorem length_octets (text : Text) : (octets text).length = byteLength text := by
  rw [octets, List.length_map, List.length_flatMap, byteLength]
  simp only [String.length_utf8EncodeChar]

/-- ASCII is its own bytes. -/
theorem octets_of_ascii (h : ∀ c ∈ text, c.toNat ≤ 127) : octets text = text := by
  induction text with
  | nil => rfl
  | cons c text ih =>
    obtain ⟨hc, hrest⟩ := List.forall_mem_cons.1 h
    have hone : c.utf8Size = 1 := Char.utf8Size_eq_one_iff.2 (UInt32.le_iff_toNat_le.2 hc)
    have hchar : octets [c] = [c] := by
      have hbyte : (c.val.toUInt8).toNat = c.toNat := by
        rw [UInt32.toNat_toUInt8]
        exact Nat.mod_eq_of_lt (Nat.lt_of_le_of_lt hc (by decide))
      rw [octets, List.flatMap_singleton, String.utf8EncodeChar_eq_singleton hone, List.map_singleton,
        hbyte, Char.ofNat_toNat]
    rw [← List.singleton_append, octets_append, hchar, ih hrest]

theorem ascii_of_isDigit (h : c.isDigit) : c.toNat ≤ 127 := by
  have hbounds := Bool.and_eq_true_iff.1 h
  have hnine := UInt32.le_iff_toNat_le.1 (of_decide_eq_true hbounds.2)
  exact Nat.le_trans hnine (by decide)

/-- A digit stands in an atom. -/
theorem isWordChar_of_isDigit (h : c.isDigit) : isWordChar c := by
  have hbounds := Bool.and_eq_true_iff.1 h
  have hzero := UInt32.le_iff_toNat_le.1 (of_decide_eq_true hbounds.1)
  have hnine := UInt32.le_iff_toNat_le.1 (of_decide_eq_true hbounds.2)
  have hlow : 33 ≤ c.toNat := Nat.le_trans (by decide) hzero
  have hhigh : c.toNat ≤ 126 := Nat.le_trans hnine (by decide)
  have hplain : ATOM_SPECIALS.contains c = false := by
    have hnone : ATOM_SPECIALS.all fun special => !special.isDigit := by decide
    refine Bool.eq_false_iff.2 fun hspecial => ?_
    have hdigit := List.all_eq_true.1 hnone c (List.contains_iff_mem.1 hspecial)
    rw [h] at hdigit
    cases hdigit
  rw [isWordChar, isAsciiGraphic, decide_eq_true hlow, decide_eq_true hhigh, hplain]
  rfl

theorem octets_decimal (n : Nat) : octets (decimal n) = decimal n :=
  octets_of_ascii fun _ hc => ascii_of_isDigit (isDigit_of_mem_decimal hc)

/-! ## Tokens -/

/-- How a token is written: a word as itself, a literal behind its count. -/
inductive Writes : Token → Text → Prop
  | word {text : Text} (hne : text ≠ []) (hhead : text.head? ≠ some '{')
      (hchars : ∀ c ∈ text, isWordChar c) : Writes (.word text) text
  | literal {body : Text} (plus : Bool) : Writes (.literal body)
      ('{' :: decimal body.length ++ (if plus then ['+'] else []) ++ '}' :: CRLF ++ body)

/-- A literal is read by its count, whatever its bytes. -/
theorem readLiteral_append (body rest : Text) (plus : Bool) :
    readLiteral (decimal body.length ++ ((if plus then ['+'] else []) ++ '}' :: CRLF ++ body ++ rest)) =
      some (.literal body, rest) := by
  have hdecimal : readDecimal (decimal body.length ++
      ((if plus then ['+'] else []) ++ '}' :: CRLF ++ body ++ rest)) =
      some (body.length, (if plus then ['+'] else []) ++ '}' :: CRLF ++ body ++ rest) := by
    refine readDecimal_append ?_
    cases plus <;> rintro c ⟨⟩ <;> decide
  have htail : (if ((if plus then ['+'] else []) ++ '}' :: CRLF ++ body ++ rest).head? = some '+' then
        ((if plus then ['+'] else []) ++ '}' :: CRLF ++ body ++ rest).tail
        else (if plus then ['+'] else []) ++ '}' :: CRLF ++ body ++ rest) =
      '}' :: '\r' :: '\n' :: (body ++ rest) := by
    cases plus <;> simp [CRLF]
  rw [readLiteral, hdecimal]
  dsimp only
  rw [htail, if_pos]
  · simp
  · exact ⟨rfl, by simp⟩

theorem takeWhile_word (hchars : ∀ c ∈ text, isWordChar c)
    (hrest : ∀ c ∈ rest.head?, ¬ isWordChar c) :
    (text ++ rest).takeWhile isWordChar = text ∧ (text ++ rest).dropWhile isWordChar = rest := by
  have hstop : rest.takeWhile isWordChar = [] ∧ rest.dropWhile isWordChar = rest := by
    cases rest with
    | nil => exact ⟨rfl, rfl⟩
    | cons c rest =>
      have hc := hrest c rfl
      exact ⟨List.takeWhile_cons_of_neg hc, List.dropWhile_cons_of_neg hc⟩
  rw [List.takeWhile_append_of_pos hchars, List.dropWhile_append_of_pos hchars, hstop.1, hstop.2,
    List.append_nil]
  exact ⟨rfl, rfl⟩

/-- **A token is read back where a blank or the line end follows it.** -/
theorem readToken_append (h : Writes token text) (hrest : ∀ c ∈ rest.head?, ¬ isWordChar c) :
    readToken (text ++ rest) = some (token, rest) := by
  cases h with
  | word hne hhead hchars =>
    obtain ⟨htake, hdrop⟩ := takeWhile_word hchars hrest
    rw [readToken, htake, hdrop, List.head?_append_of_ne_nil _ hne, if_neg hhead, if_neg hne]
  | @literal body plus =>
    have hliteral := readLiteral_append body rest plus
    rw [readToken]
    simpa [List.append_assoc] using hliteral

/-- **The tokens of a command are read back.** -/
theorem readTokens_append {tokens : List Token} {texts : List Text} {fuel : Nat}
    (htoken : Writes token text) (htokens : List.Forall₂ Writes tokens texts)
    (hfuel : tokens.length < fuel) :
    readTokens fuel (text ++ texts.flatMap (' ' :: ·) ++ CRLF) = some (token :: tokens) := by
  induction htokens generalizing token text fuel with
  | nil =>
    cases fuel with
    | zero => cases hfuel
    | succ fuel =>
      have hend : ∀ c ∈ CRLF.head?, ¬ isWordChar c := by
        rintro c ⟨⟩
        decide
      rw [List.flatMap_nil, List.append_nil, readTokens, readToken_append htoken hend]
      exact if_pos rfl
  | @cons next nextText tokens texts hnext htokens ih =>
    cases fuel with
    | zero => cases hfuel
    | succ fuel =>
      have hblank : ∀ c ∈ (' ' :: (nextText ++ texts.flatMap (' ' :: ·) ++ CRLF)).head?,
          ¬ isWordChar c := by
        rintro c ⟨⟩
        decide
      have hmore : (nextText :: texts).flatMap (' ' :: ·) ++ CRLF =
          ' ' :: (nextText ++ texts.flatMap (' ' :: ·) ++ CRLF) := by simp
      have hother : ' ' :: (nextText ++ texts.flatMap (' ' :: ·) ++ CRLF) ≠ CRLF := by
        intro h
        exact absurd (List.cons.inj h).1 (by decide)
      rw [List.append_assoc, hmore, readTokens, readToken_append htoken hblank]
      dsimp only
      rw [if_neg hother, if_pos List.head?_cons, List.tail_cons,
        ih hnext (Nat.lt_of_succ_lt_succ hfuel)]
      rfl

/-! ## Segments -/

/-- A piece as it stands on the wire. -/
def pieceText (literals : Literals) : Piece → Text
  | .words words => octets words
  | .literal string =>
    '{' :: decimal (octets string).length ++
      (if literals.unsynchronized (byteLength string) then ['+'] else []) ++
      '}' :: CRLF ++ octets string

/-- The segments put together are the pieces one after another: what waits for the server stands where
it would without waiting. -/
theorem sent_segmentsLoop (literals : Literals) (keys : List Piece) (current : Text)
    (done : List Text) :
    (segmentsLoop literals keys current done).flatMap (fun segment => octets segment ++ CRLF) =
      done.flatMap (fun segment => octets segment ++ CRLF) ++ octets current ++
        keys.flatMap (fun piece => ' ' :: pieceText literals piece) ++ CRLF := by
  have hblank : octets [' '] = [' '] := by decide
  have hopen : octets ['{'] = ['{'] := by decide
  have hclose : octets ['}'] = ['}'] := by decide
  have hplus : octets "+\x7d\r\n".toList = '+' :: '}' :: CRLF := by decide
  induction keys generalizing current done with
  | nil =>
    rw [segmentsLoop, List.flatMap_append, List.flatMap_singleton, List.flatMap_nil, List.append_nil,
      List.append_assoc]
  | cons piece keys ih =>
    cases piece with
    | words words =>
      rw [segmentsLoop, ih, ← List.singleton_append, octets_append, octets_append, hblank,
        List.flatMap_cons, pieceText]
      simp
    | literal string =>
      have hheader : octets (' ' :: '{' :: decimal (byteLength string)) =
          ' ' :: '{' :: decimal (byteLength string) := by
        rw [← List.singleton_append, octets_append, ← List.singleton_append (x := '{'),
          octets_append, hblank, hopen, octets_decimal]
      rw [segmentsLoop, List.flatMap_cons, pieceText, length_octets]
      split
      · rename_i hgoes
        rw [ih, octets_append, octets_append, octets_append, hheader, hplus]
        simp
      · rename_i hwaits
        rw [ih, List.flatMap_append, List.flatMap_singleton, octets_append, octets_append, hheader,
          hclose]
        simp

/-! ## Dates -/

theorem readDecimal_padded (width : Nat) : readDecimal (padded width n) = some (n, []) := by
  have hdigits : ∀ c ∈ padded width n, c.isDigit := by
    intro c hc
    rcases List.mem_append.1 hc with hzero | hdecimal
    · rw [List.eq_of_mem_replicate hzero]
      decide
    · exact isDigit_of_mem_decimal hdecimal
  have htake : (padded width n).takeWhile Char.isDigit = padded width n :=
    List.takeWhile_eq_self_iff.2 hdigits
  have hdrop : (padded width n).dropWhile Char.isDigit = [] := List.dropWhile_eq_nil_iff.2 hdigits
  rw [readDecimal, htake, hdrop]
  split
  · rename_i hnil
    exact absurd (List.append_eq_nil_iff.1 hnil).2 decimal_ne_nil
  · rw [padded, Nat.ofDigitChars_append, Nat.ofDigitChars_replicate_zero, Nat.mul_zero, decimal,
      Nat.ofDigitChars_ten_toDigits]

/-- The name of a month is three letters, and no other month's. -/
theorem month_names : ∀ month : Fin 12,
    (MONTHS.getD month.val []).length = 3 ∧
      ((MONTHS.getD month.val []).all fun c => isWordChar c && c.toNat ≤ 127) ∧
      ((List.finRange 12).find? fun other =>
        MONTHS.getD other.val [] = MONTHS.getD month.val []) = some month := by
  decide +kernel

theorem readDate_eq {day year : Nat} {month : Fin 12} (hday : readDecimal text = some (day, rest))
    (hmonth : ((List.finRange 12).find? fun month =>
      MONTHS.getD month.val [] = (rest.drop 1).take 3) = some month)
    (hyear : readDecimal (rest.drop 5) = some (year, [])) (hfirst : rest.head? = some '-')
    (hsecond : (rest.drop 4).head? = some '-') : readDate text = some ⟨year, month, day⟩ := by
  rw [readDate, hday]
  change ((List.finRange 12).find? fun month =>
    MONTHS.getD month.val [] = (rest.drop 1).take 3).bind _ = _
  rw [hmonth, Option.bind_some, hyear]
  exact if_pos ⟨hfirst, hsecond, rfl⟩

/-- **A date is read back.** -/
theorem readDate_dateText {day : Date} (hyear : 0 ≤ day.year) :
    readDate (dateText day) = some day := by
  obtain ⟨hlength, -, hfind⟩ := month_names day.month
  have hday : readDecimal (dateText day) = some (day.day,
      '-' :: (MONTHS.getD day.month.val [] ++ '-' :: padded 4 day.year.toNat)) := by
    refine readDecimal_append ?_
    rintro c ⟨⟩
    decide
  have htake : (MONTHS.getD day.month.val [] ++ '-' :: padded 4 day.year.toNat).take 3 =
      MONTHS.getD day.month.val [] := List.take_left' hlength
  have hdrop : (MONTHS.getD day.month.val [] ++ '-' :: padded 4 day.year.toNat).drop 3 =
      '-' :: padded 4 day.year.toNat := List.drop_left' hlength
  have hyearText : (MONTHS.getD day.month.val [] ++ '-' :: padded 4 day.year.toNat).drop 4 =
      padded 4 day.year.toNat := by
    rw [← List.tail_drop, hdrop, List.tail_cons]
  have hread : readDate (dateText day) = some ⟨day.year.toNat, day.month, day.day⟩ := by
    refine readDate_eq hday ?_ ?_ rfl ?_
    · rw [List.drop_succ_cons, List.drop_zero, htake, hfind]
    · rw [List.drop_succ_cons, hyearText, readDecimal_padded]
    · rw [List.drop_succ_cons, hdrop, List.head?_cons]
  rw [hread, Int.toNat_of_nonneg hyear]

/-- A date is one word of ASCII. -/
theorem dateText_chars {day : Date} (h : c ∈ dateText day) : isWordChar c ∧ c.toNat ≤ 127 := by
  have hdigit : ∀ {c : Char}, c.isDigit → isWordChar c ∧ c.toNat ≤ 127 := by
    intro c hc
    exact ⟨isWordChar_of_isDigit hc, ascii_of_isDigit hc⟩
  have hdash : isWordChar '-' ∧ ('-' : Char).toNat ≤ 127 := by decide
  rcases List.mem_append.1 h with h | h
  · exact hdigit (isDigit_of_mem_decimal h)
  rcases List.mem_cons.1 h with rfl | h
  · exact hdash
  rcases List.mem_append.1 h with h | h
  · obtain ⟨hword, hascii⟩ :=
      Bool.and_eq_true_iff.1 (List.all_eq_true.1 (month_names day.month).2.1 c h)
    exact ⟨hword, of_decide_eq_true hascii⟩
  rcases List.mem_cons.1 h with rfl | h
  · exact hdash
  rcases List.mem_append.1 h with h | h
  · rw [List.eq_of_mem_replicate h]
    decide
  · exact hdigit (isDigit_of_mem_decimal h)

/-! ## Keys -/

/-- A key with its string as bytes. -/
def SearchKey.onWire : SearchKey → SearchKey
  | .text string => .text (octets string)
  | .sender string => .sender (octets string)
  | .gmailRaw string => .gmailRaw (octets string)
  | .gmailLabels string => .gmailLabels (octets string)
  | key => key

/-- The tokens of a key: its words, and its string as the body of a literal. -/
def SearchKey.tokens : SearchKey → List Token
  | .text string => [.word "TEXT".toList, .literal (octets string)]
  | .sender string => [.word "FROM".toList, .literal (octets string)]
  | .gmailRaw string => [.word "X-GM-RAW".toList, .literal (octets string)]
  | .gmailLabels string => [.word "X-GM-LABELS".toList, .literal (octets string)]
  | .unseen => [.word "UNSEEN".toList]
  | .flagged => [.word "FLAGGED".toList]
  | .since day => [.word "SINCE".toList, .word (dateText day)]
  | .before day => [.word "BEFORE".toList, .word (dateText day)]

/-- The words of the bridge. -/
def bridgeWords : List Text :=
  ["UID".toList, "SEARCH".toList, "CHARSET".toList, "UTF-8".toList, "TEXT".toList, "FROM".toList,
    "X-GM-RAW".toList, "X-GM-LABELS".toList, "UNSEEN".toList, "FLAGGED".toList, "SINCE".toList,
    "BEFORE".toList]

theorem writes_bridge {words : Text} (h : words ∈ bridgeWords) :
    octets words = words ∧ Writes (.word words) words := by
  have hall : ∀ words ∈ bridgeWords, octets words = words ∧ words ≠ [] ∧
      words.head? ≠ some '{' ∧ words.all isWordChar := by decide +kernel
  obtain ⟨hascii, hne, hhead, hchars⟩ := hall words h
  exact ⟨hascii, .word hne hhead (List.all_eq_true.1 hchars)⟩

theorem writes_literal (literals : Literals) (string : Text) :
    Writes (.literal (octets string)) (pieceText literals (.literal string)) :=
  .literal (literals.unsynchronized (byteLength string))

theorem writes_date (day : Date) :
    octets (dateText day) = dateText day ∧ Writes (.word (dateText day)) (dateText day) := by
  have hne : dateText day ≠ [] := List.append_ne_nil_of_left_ne_nil decimal_ne_nil _
  refine ⟨octets_of_ascii fun c hc => (dateText_chars hc).2, .word hne ?_ ?_⟩
  · intro hhead
    have hdigit : '{'.isDigit := by
      rw [dateText, List.head?_append_of_ne_nil _ decimal_ne_nil] at hhead
      exact isDigit_of_mem_decimal (List.mem_of_head? hhead)
    exact absurd hdigit (by decide)
  · exact fun c hc => (dateText_chars hc).1

/-- A key stands on the wire as its tokens, each behind a blank. -/
theorem writes_key (literals : Literals) (key : SearchKey) :
    ∃ texts, List.Forall₂ Writes key.tokens texts ∧
      key.pieces.flatMap (fun piece => ' ' :: pieceText literals piece) =
        texts.flatMap (' ' :: ·) := by
  have hstring : ∀ (words string : Text), words ∈ bridgeWords →
      ∃ texts, List.Forall₂ Writes [.word words, .literal (octets string)] texts ∧
        [Piece.words words, .literal string].flatMap (fun piece => ' ' :: pieceText literals piece) =
          texts.flatMap (' ' :: ·) := by
    intro words string hwords
    obtain ⟨hascii, hwrites⟩ := writes_bridge hwords
    refine ⟨[words, pieceText literals (.literal string)],
      .cons hwrites (.cons (writes_literal literals string) .nil), ?_⟩
    simp [pieceText, hascii]
  have hword : ∀ words ∈ bridgeWords,
      ∃ texts, List.Forall₂ Writes [.word words] texts ∧
        [Piece.words words].flatMap (fun piece => ' ' :: pieceText literals piece) =
          texts.flatMap (' ' :: ·) := by
    intro words hwords
    obtain ⟨hascii, hwrites⟩ := writes_bridge hwords
    refine ⟨[words], .cons hwrites .nil, ?_⟩
    simp [pieceText, hascii]
  have hdate : ∀ (words : Text) (day : Date), words ∈ bridgeWords →
      ∃ texts, List.Forall₂ Writes [.word words, .word (dateText day)] texts ∧
        [Piece.words (words ++ ' ' :: dateText day)].flatMap
            (fun piece => ' ' :: pieceText literals piece) = texts.flatMap (' ' :: ·) := by
    intro words day hwords
    obtain ⟨hascii, hwrites⟩ := writes_bridge hwords
    obtain ⟨hdateAscii, hdateWrites⟩ := writes_date day
    have hblank : octets [' '] = [' '] := by decide
    refine ⟨[words, dateText day], .cons hwrites (.cons hdateWrites .nil), ?_⟩
    have hdateKey : octets (words ++ ' ' :: dateText day) = words ++ ' ' :: dateText day := by
      rw [octets_append, ← List.singleton_append, octets_append, hblank, hascii, hdateAscii]
    rw [List.flatMap_singleton, pieceText, hdateKey]
    simp
  cases key with
  | text string => exact hstring _ string (by decide)
  | sender string => exact hstring _ string (by decide)
  | gmailRaw string => exact hstring _ string (by decide)
  | gmailLabels string => exact hstring _ string (by decide)
  | unseen => exact hword _ (by decide)
  | flagged => exact hword _ (by decide)
  | since day => exact hdate _ day (by decide)
  | before day => exact hdate _ day (by decide)

theorem writes_keys (literals : Literals) (keys : List SearchKey) :
    ∃ texts, List.Forall₂ Writes (keys.flatMap SearchKey.tokens) texts ∧
      (keys.flatMap SearchKey.pieces).flatMap (fun piece => ' ' :: pieceText literals piece) =
        texts.flatMap (' ' :: ·) := by
  induction keys with
  | nil => exact ⟨[], .nil, rfl⟩
  | cons key keys ih =>
    obtain ⟨texts, htexts, hwire⟩ := ih
    obtain ⟨keyTexts, hkeyTexts, hkeyWire⟩ := writes_key literals key
    refine ⟨keyTexts ++ texts, List.rel_append hkeyTexts htexts, ?_⟩
    rw [List.flatMap_cons, List.flatMap_append, List.flatMap_append, hkeyWire, hwire]

/-! ## The search read -/

theorem readWindow_eq (low high : Nat) :
    readWindow (decimal low ++ ':' :: decimal high) = some (low, high) := by
  have hlow : readDecimal (decimal low ++ ':' :: decimal high) = some (low, ':' :: decimal high) := by
    refine readDecimal_append ?_
    rintro c ⟨⟩
    decide
  rw [readWindow, hlow]
  change (readDecimal (decimal high)).bind _ = _
  rw [readDecimal_decimal]
  rfl

/-- The tokens of a key open with a word. -/
theorem tokens_head (keys : List SearchKey) : keys.flatMap SearchKey.tokens = [] ∨
    ∃ word tokens, keys.flatMap SearchKey.tokens = .word word :: tokens := by
  cases keys with
  | nil => exact .inl rfl
  | cons key keys =>
    refine .inr ?_
    cases key <;> exact ⟨_, _, rfl⟩

/-- **The tokens of some keys are read as those keys.** -/
theorem readKeys_tokens {keys : List SearchKey} (h : ∀ key ∈ keys, key.Writable) :
    readKeys (keys.flatMap SearchKey.tokens) = some (keys.map SearchKey.onWire) := by
  induction keys with
  | nil => rfl
  | cons key keys ih =>
    obtain ⟨hkey, hrest⟩ := List.forall_mem_cons.1 h
    have hkeys := ih hrest
    have hword : ∀ (word : Text) (key : SearchKey), wordKey word = some key →
        readKeys (.word word :: keys.flatMap SearchKey.tokens) =
          some (key :: keys.map SearchKey.onWire) := by
      intro word key hword
      rcases tokens_head keys with hnone | ⟨next, tokens, htokens⟩
      · rw [hnone] at hkeys ⊢
        rw [readKeys, hword, ← Option.some.inj hkeys]
        rfl
      · rw [htokens] at hkeys ⊢
        rw [readKeys, hword]
        dsimp only
        rw [hkeys]
        rfl
    have hdate : ∀ (word : Text) (day : Date) (key : SearchKey), wordKey word = none →
        0 ≤ day.year → dayKey word day = some key →
        readKeys (.word word :: .word (dateText day) :: keys.flatMap SearchKey.tokens) =
          some (key :: keys.map SearchKey.onWire) := by
      intro word day key hnone hyear hday
      rw [readKeys, hnone]
      dsimp only
      rw [readDate_dateText hyear, hkeys]
      change (dayKey word day).bind _ = _
      rw [hday]
      rfl
    have hstring : ∀ (word body : Text) (key : SearchKey), stringKey word body = some key →
        readKeys (.word word :: .literal body :: keys.flatMap SearchKey.tokens) =
          some (key :: keys.map SearchKey.onWire) := by
      intro word body key hstring
      rw [readKeys, hstring, hkeys]
      rfl
    rw [List.flatMap_cons, List.map_cons]
    cases key with
    | text string => exact hstring _ _ _ rfl
    | sender string => exact hstring _ _ _ rfl
    | gmailRaw string => exact hstring _ _ _ rfl
    | gmailLabels string => exact hstring _ _ _ rfl
    | unseen => exact hword _ _ rfl
    | flagged => exact hword _ _ rfl
    | since day => exact hdate _ day _ rfl hkey.1 rfl
    | before day => exact hdate _ day _ rfl hkey.1 rfl

/-- The tokens of a search behind its first word. -/
def searchTokens (charset : Bool) (low high : Nat) (keys : List SearchKey) : List Token :=
  .word "SEARCH".toList ::
    ((if charset then [.word "CHARSET".toList, .word "UTF-8".toList] else []) ++
      .word (decimal low ++ ':' :: decimal high) :: keys.flatMap SearchKey.tokens)

/-- The tokens of a search are read as that search. -/
theorem readSearch_tokens {charset : Bool} {low high : Nat} {keys : List SearchKey}
    (h : ∀ key ∈ keys, key.Writable) :
    readSearch (.word "UID".toList :: searchTokens charset low high keys) =
      some ⟨charset, (low, high), keys.map SearchKey.onWire⟩ := by
  have hkeys := readKeys_tokens h
  have hwindow := readWindow_eq low high
  cases charset with
  | true =>
    change (readWindow (decimal low ++ ':' :: decimal high)).bind _ = _
    rw [hwindow, Option.bind_some]
    change (readKeys (keys.flatMap SearchKey.tokens)).bind _ = _
    rw [hkeys]
    rfl
  | false =>
    have hplain : decimal low ++ ':' :: decimal high ≠ "CHARSET".toList := by
      intro hsame
      have hdigit : 'C'.isDigit := by
        have hhead := congrArg List.head? hsame
        rw [List.head?_append_of_ne_nil _ decimal_ne_nil] at hhead
        exact isDigit_of_mem_decimal (List.mem_of_head? hhead)
      exact absurd hdigit (by decide)
    change (if decimal low ++ ':' :: decimal high = "CHARSET".toList then _ else
      (readWindow (decimal low ++ ':' :: decimal high)).bind _) = _
    rw [if_neg hplain, hwindow, Option.bind_some]
    change (readKeys (keys.flatMap SearchKey.tokens)).bind _ = _
    rw [hkeys]
    rfl

/-- A window is one word of ASCII. -/
theorem writes_window (low high : Nat) :
    octets (decimal low ++ ':' :: decimal high) = decimal low ++ ':' :: decimal high ∧
      Writes (.word (decimal low ++ ':' :: decimal high)) (decimal low ++ ':' :: decimal high) := by
  have hchars : ∀ c ∈ decimal low ++ ':' :: decimal high, c.isDigit ∨ c = ':' := by
    intro c hc
    rcases List.mem_append.1 hc with hc | hc
    · exact .inl (isDigit_of_mem_decimal hc)
    rcases List.mem_cons.1 hc with rfl | hc
    · exact .inr rfl
    · exact .inl (isDigit_of_mem_decimal hc)
  have hne : decimal low ++ ':' :: decimal high ≠ [] :=
    List.append_ne_nil_of_left_ne_nil decimal_ne_nil _
  refine ⟨octets_of_ascii fun c hc => ?_, .word hne ?_ fun c hc => ?_⟩
  · rcases hchars c hc with hdigit | rfl
    · exact ascii_of_isDigit hdigit
    · decide
  · intro hhead
    rcases hchars '{' (List.mem_of_head? hhead) with hdigit | hcolon
    · exact absurd hdigit (by decide)
    · exact absurd hcolon (by decide)
  · rcases hchars c hc with hdigit | rfl
    · exact isWordChar_of_isDigit hdigit
    · decide

/-- The opening of a search stands on the wire as its tokens. -/
theorem writes_opening (charset : Bool) (low high : Nat) :
    ∃ texts, List.Forall₂ Writes (searchTokens charset low high []) texts ∧
      octets (opening charset low high) = "UID".toList ++ texts.flatMap (' ' :: ·) := by
  obtain ⟨hascii, hwindow⟩ := writes_window low high
  have hsearch : octets "UID SEARCH".toList = "UID SEARCH".toList := by decide +kernel
  have hcharset : octets " CHARSET UTF-8".toList = " CHARSET UTF-8".toList := by decide +kernel
  have hblank : octets [' '] = [' '] := by decide
  have hrange : octets (' ' :: decimal low ++ ':' :: decimal high) =
      ' ' :: (decimal low ++ ':' :: decimal high) := by
    rw [List.cons_append, ← List.singleton_append, octets_append, hblank, hascii]
  have hopening : octets (opening charset low high) =
      "UID SEARCH".toList ++ (if charset then " CHARSET UTF-8".toList else []) ++
        ' ' :: (decimal low ++ ':' :: decimal high) := by
    unfold opening
    rw [List.append_assoc, List.append_assoc, octets_append, octets_append, hsearch, hrange]
    cases charset with
    | true => rw [if_pos rfl, hcharset, List.append_assoc]
    | false => rfl
  rw [hopening]
  generalize hwindowText : decimal low ++ ':' :: decimal high = window at hwindow ⊢
  unfold searchTokens
  rw [hwindowText]
  cases charset with
  | true =>
    refine ⟨["SEARCH".toList, "CHARSET".toList, "UTF-8".toList, window],
      .cons (writes_bridge (by decide)).2 (.cons (writes_bridge (by decide)).2
        (.cons (writes_bridge (by decide)).2 (.cons hwindow .nil))), ?_⟩
    simp
  | false =>
    refine ⟨["SEARCH".toList, window],
      .cons (writes_bridge (by decide)).2 (.cons hwindow .nil), ?_⟩
    simp

/-! ## What is sent -/

theorem segmentsLoop_ne_nil (literals : Literals) (keys : List Piece) (current : Text)
    (done : List Text) : segmentsLoop literals keys current done ≠ [] := by
  induction keys generalizing current done with
  | nil => exact List.append_ne_nil_of_right_ne_nil _ (List.cons_ne_nil _ _)
  | cons piece keys ih =>
    cases piece with
    | words words => exact ih _ _
    | literal string =>
      rw [segmentsLoop]
      split
      · exact ih _ _
      · exact ih _ _

/-- The command of a window is the opening and every piece behind a blank, within the limit. -/
theorem segments_eq {literals : Literals} {pieces : List Piece} {low high : Nat} {command : Segments}
    (h : segments pieces low high literals = .ok command) :
    command.sent = octets (opening (pieces.any Piece.isLiteral) low high) ++
        pieces.flatMap (fun piece => ' ' :: pieceText literals piece) ++ CRLF ∧
      ((command.first :: command.later).map byteLength).sum ≤ MAX_COMMAND_BYTES := by
  unfold segments at h
  generalize hopening : opening (pieces.any Piece.isLiteral) low high = start at h ⊢
  dsimp only at h
  have hsent := sent_segmentsLoop literals pieces start []
  have hne := segmentsLoop_ne_nil literals pieces start []
  generalize segmentsLoop literals pieces start [] = done at h hsent hne
  obtain ⟨first, later, rfl⟩ := List.exists_cons_of_ne_nil hne
  split at h
  · cases h
  · rename_i hfits
    cases h
    exact ⟨hsent, Nat.le_of_not_lt hfits⟩

/-- A piece of a key is a literal where the key carries a string. -/
theorem any_pieces (keys : List SearchKey) :
    (keys.flatMap SearchKey.pieces).any Piece.isLiteral = keys.any fun key => key.string.isSome := by
  rw [List.any_flatMap]
  congr 1
  funext key
  cases key <;> rfl

/-- The literals of some keys are their strings. -/
theorem bodies_tokens (keys : List SearchKey) :
    (keys.flatMap SearchKey.tokens).filterMap Token.body =
      (keys.filterMap SearchKey.string).map octets := by
  induction keys with
  | nil => rfl
  | cons key keys ih =>
    rw [List.flatMap_cons, List.filterMap_append, ih]
    cases key <;> rfl

/-- The tokens as many as their texts at most, since each text has a character and its blank. -/
theorem length_tokens_lt {tokens : List Token} {texts : List Text}
    (h : List.Forall₂ Writes tokens texts) : tokens.length ≤ (texts.flatMap (' ' :: ·)).length := by
  induction h with
  | nil => exact Nat.zero_le _
  | cons _ _ ih =>
    rw [List.length_cons, List.flatMap_cons, List.length_append, List.length_cons]
    omega

/-- The days of an ask. -/
def SearchAsk.days (ask : SearchAsk) : List Date := ask.since.toList ++ ask.before.toList

theorem mem_of_word {words word : Text} (hword : word ∈ bridgeWords)
    (h : Token.word words = .word word) : words ∈ bridgeWords := by
  rwa [Token.word.inj h]

/-- The words a key goes with are the bridge's own or the day it names. -/
theorem words_of_key {key : SearchKey} {words : Text} (h : Token.word words ∈ key.tokens) :
    words ∈ bridgeWords ∨ ∃ day, (key = .since day ∨ key = .before day) ∧ words = dateText day := by
  have hliteral : ∀ {word body : Text}, word ∈ bridgeWords →
      Token.word words ∈ [Token.word word, .literal body] → words ∈ bridgeWords := by
    intro word body hword hmem
    rcases List.mem_cons.1 hmem with hsame | hmem
    · exact mem_of_word hword hsame
    · exact absurd (List.mem_singleton.1 hmem) (by simp)
  cases key with
  | text string => exact .inl (hliteral (by decide) h)
  | sender string => exact .inl (hliteral (by decide) h)
  | gmailRaw string => exact .inl (hliteral (by decide) h)
  | gmailLabels string => exact .inl (hliteral (by decide) h)
  | unseen => exact .inl (mem_of_word (by decide) (List.mem_singleton.1 h))
  | flagged => exact .inl (mem_of_word (by decide) (List.mem_singleton.1 h))
  | since day =>
    rcases List.mem_cons.1 h with hsame | hdate
    · exact .inl (mem_of_word (by decide) hsame)
    · exact .inr ⟨day, .inl rfl, Token.word.inj (List.mem_singleton.1 hdate)⟩
  | before day =>
    rcases List.mem_cons.1 h with hsame | hdate
    · exact .inl (mem_of_word (by decide) hsame)
    · exact .inr ⟨day, .inr rfl, Token.word.inj (List.mem_singleton.1 hdate)⟩

/-- The words of a search are the bridge's own, its window and the days of the ask. -/
theorem words_of_search {base64 : Utf7.Base64} {ask : SearchAsk} {low high : Nat} {charset : Bool}
    {words : Text} (h : .word words ∈
      .word "UID".toList :: searchTokens charset low high (ask.searchKeys base64)) :
    words ∈ bridgeWords ∨ words = decimal low ++ ':' :: decimal high ∨
      ∃ day ∈ ask.days, words = dateText day := by
  rcases List.mem_cons.1 h with huid | h
  · exact .inl (mem_of_word (by decide) huid)
  rcases List.mem_cons.1 h with hsearch | h
  · exact .inl (mem_of_word (by decide) hsearch)
  rcases List.mem_append.1 h with hcharset | h
  · left
    split at hcharset
    · rcases List.mem_cons.1 hcharset with hname | hutf8
      · exact mem_of_word (by decide) hname
      · exact mem_of_word (by decide) (List.mem_singleton.1 hutf8)
    · cases hcharset
  rcases List.mem_cons.1 h with hwindow | hkeys
  · exact .inr (.inl (Token.word.inj hwindow))
  · obtain ⟨key, hkey, htoken⟩ := List.mem_flatMap.1 hkeys
    rcases words_of_key htoken with hbridge | ⟨day, hday, hwords⟩
    · exact .inl hbridge
    · refine .inr (.inr ⟨day, ?_, hwords⟩)
      rw [SearchAsk.days, List.mem_append, Option.mem_toList, Option.mem_toList]
      rcases mem_searchKeys hkey with hstring | rfl | rfl | ⟨found, hfound, rfl⟩ | ⟨found, hfound, rfl⟩
      · rcases hday with rfl | rfl <;> cases hstring
      · rcases hday with hday | hday <;> cases hday
      · rcases hday with hday | hday <;> cases hday
      · rcases hday with hday | hday
        · cases hday
          exact .inl hfound
        · cases hday
      · rcases hday with hday | hday
        · cases hday
        · cases hday
          exact .inr hfound

/-- **What goes out for an ask is read as the keys it means.** The client's strings are the bodies of the
literals; every word is the bridge's own, the window or a day of the ask. -/
theorem search_read_back {base64 : Utf7.Base64} {ask : SearchAsk} {low high : Nat}
    {pieces : List Piece} {command : Segments} (hkeys : keys base64 ask = .ok pieces)
    (hcommand : segments pieces low high ask.server.literals = .ok command) :
    ∃ tokens, readTokens command.sent.length command.sent = some tokens ∧
      readSearch tokens =
        some ⟨(ask.searchKeys base64).any fun key => key.string.isSome, (low, high),
          (ask.searchKeys base64).map SearchKey.onWire⟩ ∧
      tokens.filterMap Token.body =
        ((ask.searchKeys base64).filterMap SearchKey.string).map octets ∧
      (∀ words, .word words ∈ tokens → words ∈ bridgeWords ∨
        words = decimal low ++ ':' :: decimal high ∨ ∃ day ∈ ask.days, words = dateText day) ∧
      ((command.first :: command.later).map byteLength).sum ≤ MAX_COMMAND_BYTES := by
  obtain ⟨rfl, hwritable⟩ := keys_eq hkeys
  obtain ⟨hsent, hfits⟩ := segments_eq hcommand
  rw [any_pieces] at hsent
  generalize (ask.searchKeys base64).any (fun key => key.string.isSome) = charset at hsent ⊢
  obtain ⟨openTexts, hopenTexts, hopening⟩ := writes_opening charset low high
  obtain ⟨keyTexts, hkeyTexts, hkeyWire⟩ :=
    writes_keys ask.server.literals (ask.searchKeys base64)
  have htexts : List.Forall₂ Writes (searchTokens charset low high (ask.searchKeys base64))
      (openTexts ++ keyTexts) := by
    have happend := List.rel_append hopenTexts hkeyTexts
    cases charset <;> exact happend
  have hwire : command.sent =
      "UID".toList ++ (openTexts ++ keyTexts).flatMap (' ' :: ·) ++ CRLF := by
    rw [hsent, hopening, hkeyWire, List.flatMap_append]
    simp only [List.append_assoc]
  have huid : Writes (.word "UID".toList) "UID".toList := (writes_bridge (by decide)).2
  have hfuel : (searchTokens charset low high (ask.searchKeys base64)).length <
      command.sent.length := by
    have hlength := length_tokens_lt htexts
    rw [hwire, List.length_append, List.length_append]
    have hend : CRLF.length = 2 := rfl
    omega
  refine ⟨.word "UID".toList :: searchTokens charset low high (ask.searchKeys base64), ?_,
    readSearch_tokens hwritable, ?_, ?_, hfits⟩
  · rw [hwire] at hfuel ⊢
    exact readTokens_append huid htexts hfuel
  · have hbodies := bodies_tokens (ask.searchKeys base64)
    cases charset <;> exact hbodies
  · exact fun words hmem => words_of_search hmem

/-- A term with a line end and the look of a literal, to a server that waits for each. -/
def hostileAsk : SearchAsk :=
  { text := "\"a\r\n\x7d \x7b3\x7d\" bé".toList, sender := [], unseen := true, flagged := false,
    since := some ⟨2024, 1, 29⟩, before := none, gmail := none, server := ⟨.synchronizing, false⟩ }

theorem search_read_back_hostile :
    ∃ pieces command, keys Utf7.modifiedBase64 hostileAsk = .ok pieces ∧
      segments pieces 1 500 hostileAsk.server.literals = .ok command ∧
      ∃ tokens, readTokens command.sent.length command.sent = some tokens ∧
        readSearch tokens = some
          ⟨(hostileAsk.searchKeys Utf7.modifiedBase64).any fun key => key.string.isSome, (1, 500),
            (hostileAsk.searchKeys Utf7.modifiedBase64).map SearchKey.onWire⟩ := by
  have hgoes : ((keys Utf7.modifiedBase64 hostileAsk).bind fun pieces =>
      segments pieces 1 500 hostileAsk.server.literals).isOk = true := by
    decide +kernel
  cases hcommand : (keys Utf7.modifiedBase64 hostileAsk).bind fun pieces =>
      segments pieces 1 500 hostileAsk.server.literals with
  | error e =>
    rw [hcommand] at hgoes
    cases hgoes
  | ok command =>
    obtain ⟨pieces, hkeys, hsegments⟩ := bind_eq_ok hcommand
    obtain ⟨tokens, htokens, hsearch, -⟩ := search_read_back hkeys hsegments
    exact ⟨pieces, command, hkeys, hsegments, tokens, htokens, hsearch⟩

end

end Huliho.Session
