import Huliho.Lib.Escapes
import Huliho.Bodies.Decode
import Huliho.Session.Command

/-!
# Body values

`jmap/values.rs` and the windows of `jmap/bodies.rs`: a text part is fetched in windows up to the
cap, decoded, its line ends folded, and cut at the cap. The mail parser is a parameter.

The part is cut twice, and each cut mends its own edge. What the windows stop short of ends on a
border of its transfer encoding (**`quartets_whole`**, `escapeState_cut`), and a character or a line
end the stop split is popped (`popped_append`, **`foldBreaks_append`**). What the cap cuts ends on a
character (`fits_starts`) and before a tag it would split (**`beforeOpen_not_inTag`**).
-/

namespace Huliho.Values

open Decode (Bytes symbol PAD)
open Session (Text byteLength byteLength_cons byteLength_nil)

def MAX_BODY_VALUE_BYTES : Nat := 8 * 1024 * 1024
def MAX_BODY_WINDOWS : Nat := 32
def BODY_WINDOW_BYTES : Nat := 512 * 1024
def DEFAULT_CHARSET : String := "us-ascii"

/-- The charset names the parser decodes without a table entry. -/
def PLAIN_CHARSETS : List String := ["utf-8", "utf8", "us-ascii", "ascii"]

/-- The transfer encodings the decoder knows. -/
def KNOWN_ENCODINGS : List String := ["7bit", "8bit", "binary", "base64", "quoted-printable"]

/-- What a decoder writes for bytes it cannot read. -/
def REPLACEMENT : Char := '\uFFFD'

/-- The octet an ISO-2022 escape sequence opens with. -/
def ESCAPE : UInt8 := 27

/-- The digits every name of an ISO-2022 charset carries. -/
def ISO_2022 : String := "2022"

def U32_MAX : Nat := 4294967295

/-- The cap on one value: the client's `maxBodyValueBytes` where it is above zero, the bridge's own
bound where that is lower or the ask is unbounded. -/
def cap (maxBodyValueBytes : Nat) : Nat :=
  let asked := min maxBodyValueBytes U32_MAX
  if asked = 0 then MAX_BODY_VALUE_BYTES else min asked MAX_BODY_VALUE_BYTES

/-- One `EmailBodyValue`. -/
structure BodyValue where
  value : Text
  isEncodingProblem : Bool
  isTruncated : Bool
deriving DecidableEq

/-- What the decode and the fetch read of a part's structure. -/
structure Leaf where
  mediaType : String
  subtype : String
  parameters : List (String × String)
  encoding : String
  bytes : Nat
deriving DecidableEq

/-- The first part of a message as it was parsed: its text, or its contents as far as they are one,
and whether they could not be decoded. -/
structure Parsed where
  text : Text
  problem : Bool
deriving DecidableEq

/-- The mail parser: the first part of a message, and whether it has a decoder for a charset. -/
structure Decoder where
  parse : Bytes → Option Parsed
  charsetDecoder : String → Bool

/-! ## The part -/

def eqIgnoreAsciiCase (a b : String) : Bool := a.toList.map Char.toLower = b.toList.map Char.toLower

/-- The value of one parameter, its name matched without regard to case. -/
def parameter (parameters : List (String × String)) (name : String) : Option String :=
  (parameters.find? fun found => eqIgnoreAsciiCase found.1 name).map Prod.snd

/-- The charset parameter of a text part, else the MIME default. -/
def charset (leaf : Leaf) : Option String :=
  if leaf.mediaType ≠ "text" then none
  else some ((parameter leaf.parameters "charset").getD DEFAULT_CHARSET)

def unknownCharset (decoder : Decoder) (leaf : Leaf) : Bool :=
  (charset leaf).any fun name =>
    !(PLAIN_CHARSETS.any fun plain => eqIgnoreAsciiCase plain name) && !decoder.charsetDecoder name

def unknownEncoding (leaf : Leaf) : Bool := leaf.encoding ∉ KNOWN_ENCODINGS

/-- Whether the charset is an ISO-2022 one. -/
def shifts (leaf : Leaf) : Bool := (charset leaf).any fun name => ISO_2022.toList <:+: name.toList

/-- A parameter value inside quotes. -/
def quoted (value : String) : String :=
  .ofList ((value.toList.flatMap fun c => if c = '\\' then ['\\', '\\'] else [c]).flatMap fun c =>
    if c = '"' then ['\\', '"'] else [c])

/-- The MIME header the structure describes. -/
def mimeHeader (leaf : Leaf) : Bytes :=
  ("Content-Type: " ++ leaf.mediaType ++ "/" ++ leaf.subtype ++
    (charset leaf).elim "" (fun name => "; charset=\"" ++ quoted name ++ "\"") ++
    "\r\nContent-Transfer-Encoding: " ++ leaf.encoding ++ "\r\n\r\n").toUTF8.toList

/-! ## Borders -/

/-- How many bytes are taken off an end, read backwards, with a number of symbols. -/
def backUp : Nat → Bytes → Nat
  | 0, _ => 0
  | _ + 1, [] => 0
  | extra + 1, byte :: rest => 1 + backUp (if symbol byte then extra else extra + 1) rest

/-- The end of the last whole quartet of base64 symbols. -/
def quartets (bytes : Bytes) : Nat :=
  bytes.length - backUp ((bytes.filter symbol).length % 4) bytes.reverse

/-- Where the fetched bytes end: at their end for the whole part, else after the last whole base64
quartet, before a quoted-printable escape or an ISO-2022 escape sequence the fetch cut, which opens
among the last two bytes. -/
def border (leaf : Leaf) (bytes : Bytes) (whole : Bool) : Nat :=
  if whole then bytes.length
  else if leaf.encoding = "base64" then quartets bytes
  else if leaf.encoding = "quoted-printable" then escapeCut (fun byte => byte = PAD) bytes
  else if shifts leaf then escapeCut (fun byte => byte = ESCAPE) bytes
  else bytes.length

/-! ## Texts -/

/-- A text without one character at its tail. -/
def popped (tail : Char) (text : Text) : Text :=
  if text.getLast? = some tail then text.dropLast else text

/-- `replace("\r\n", "\n")`. -/
def foldBreaks : Text → Text
  | [] => []
  | [c] => [c]
  | c :: d :: rest =>
    if c = '\r' ∧ d = '\n' then '\n' :: foldBreaks rest else c :: foldBreaks (d :: rest)

/-- The characters of a text that fit in a number of octets. -/
def fits : Nat → Text → Text
  | _, [] => []
  | room, c :: rest => if c.utf8Size ≤ room then c :: fits (room - c.utf8Size) rest else []

/-- What stands ahead of the last `<` of a text and what stands behind it: `rfind`. -/
def lastOpen : Text → Option (Text × Text)
  | [] => none
  | c :: rest =>
    match lastOpen rest with
    | some (front, inside) => some (c :: front, inside)
    | none => if c = '<' then some ([], rest) else none

/-- A text up to its last `<`, where no `>` follows it. -/
def beforeOpen (text : Text) : Text :=
  match lastOpen text with
  | some (front, inside) => if '>' ∈ inside then text else front
  | none => text

/-- Cuts a value at `cap` octets on a character border; an HTML value is cut before a tag it would
otherwise split. Whether it was cut. -/
def truncate (value : Text) (cap : Nat) (html : Bool) : Text × Bool :=
  if byteLength value ≤ cap then (value, false)
  else (if html then beforeOpen (fits cap value) else fits cap value, true)

/-! ## Values -/

/-- The bytes fetched of a text part, decoded as the parser decodes a message of that one part.
`whole` says the bytes are the whole part. -/
def decode (decoder : Decoder) (leaf : Leaf) (fetched : Bytes) (cap : Nat) (whole : Bool) :
    BodyValue :=
  let bytes := fetched.take (border leaf fetched whole)
  let part := (decoder.parse (mimeHeader leaf ++ bytes)).getD ⟨[], bytes ≠ []⟩
  -- A character or a line end cut in two decodes to one replacement or one bare CR at the tail.
  let text := if whole then part.text else popped '\r' (popped REPLACEMENT part.text)
  let problem := part.problem || unknownCharset decoder leaf || unknownEncoding leaf ||
    REPLACEMENT ∈ text
  let (value, cut) := truncate (foldBreaks text) cap (leaf.subtype = "html")
  ⟨value, problem, !whole || cut⟩

/-- The bytes of one value as the windows brought them. -/
structure RawValue where
  leaf : Leaf
  bytes : Bytes
  cap : Nat
  whole : Bool

def RawValue.decode (decoder : Decoder) (raw : RawValue) : BodyValue :=
  Values.decode decoder raw.leaf raw.bytes raw.cap raw.whole

inductive SessionError
  | refused
  | protocol
  | other
deriving DecidableEq

inductive Failure
  | refused
  | unreadable
  | session
deriving DecidableEq

def SessionError.failure : SessionError → Failure
  | refused => .refused
  | protocol => .unreadable
  | other => .session

/-- What the windows brought: the bytes, how far they got and whether one came short. -/
structure Windows where
  buffer : Bytes
  offset : Nat
  ended : Bool

/-- Asks for one window after the other up to `want`, the budget spent one window at a time; `none`
when the message left in between. With the budget left. -/
def windows (uidPart : Nat → Nat → Except SessionError (Option Bytes)) (want : Nat) :
    Nat → Nat → Bytes → Except Failure (Option Windows) × Nat
  | 0, offset, buffer => (.ok (some ⟨buffer, offset, false⟩), 0)
  | budget + 1, offset, buffer =>
    if want ≤ offset then (.ok (some ⟨buffer, offset, false⟩), budget + 1)
    else
      let bytes := min (want - offset) BODY_WINDOW_BYTES
      match uidPart offset bytes with
      | .ok (some data) =>
        let reached := min (offset + data.length) U32_MAX
        if data.length < bytes then (.ok (some ⟨buffer ++ data, reached, true⟩), budget)
        else windows uidPart want budget reached (buffer ++ data)
      | .ok none => (.ok none, budget)
      | .error error => (.error error.failure, budget)

/-- One value's bytes in windows up to the cap, with the budget left. -/
def valueOf (uidPart : Nat → Nat → Except SessionError (Option Bytes)) (leaf : Leaf) (cap : Nat)
    (budget : Nat) : Except Failure (Option RawValue) × Nat :=
  let (read, left) := windows uidPart (min leaf.bytes cap) budget 0 []
  (read.map fun read =>
    read.map fun read => ⟨leaf, read.buffer, cap, read.ended || leaf.bytes ≤ read.offset⟩, left)

variable {text rest value whole : Text} {bytes : Bytes} {extra n : Nat} {c : Char}

/-! ## Quartets -/

/-- Backed up over, an end has given away its symbols. -/
theorem filter_drop_backUp (h : extra ≤ (bytes.filter symbol).length) :
    ((bytes.drop (backUp extra bytes)).filter symbol).length + extra =
      (bytes.filter symbol).length := by
  induction bytes generalizing extra with
  | nil =>
    cases extra with
    | zero => rfl
    | succ extra => exact absurd h (Nat.not_succ_le_zero _)
  | cons byte bytes ih =>
    cases extra with
    | zero => rfl
    | succ extra =>
      rw [backUp, Nat.add_comm 1, List.drop_succ_cons]
      by_cases hsymbol : symbol byte = true
      · rw [List.filter_cons_of_pos hsymbol, List.length_cons] at h ⊢
        rw [if_pos hsymbol, ← ih (Nat.le_of_succ_le_succ h)]
        omega
      · rw [List.filter_cons_of_neg hsymbol] at h ⊢
        rw [if_neg hsymbol, ih h]

theorem backUp_le (extra : Nat) (bytes : Bytes) : backUp extra bytes ≤ bytes.length := by
  induction bytes generalizing extra with
  | nil => cases extra <;> exact Nat.le_refl _
  | cons byte bytes ih =>
    cases extra with
    | zero => exact Nat.zero_le _
    | succ extra =>
      have := ih (if symbol byte then extra else extra + 1)
      rw [backUp, List.length_cons]
      omega

/-- **What ends behind the last whole quartet is whole quartets.** -/
theorem quartets_whole (bytes : Bytes) :
    ((bytes.take (quartets bytes)).filter symbol).length % 4 = 0 := by
  have hcount : (bytes.reverse.filter symbol).length = (bytes.filter symbol).length := by
    rw [List.filter_reverse, List.length_reverse]
  have hextra : (bytes.filter symbol).length % 4 ≤ (bytes.reverse.filter symbol).length := by
    rw [hcount]
    exact Nat.mod_le _ _
  have hless := filter_drop_backUp hextra
  have htake : bytes.take (quartets bytes) =
      (bytes.reverse.drop (backUp ((bytes.filter symbol).length % 4) bytes.reverse)).reverse := by
    rw [List.drop_reverse, List.reverse_reverse]
    rfl
  rw [htake, List.filter_reverse, List.length_reverse]
  rw [hcount] at hless
  omega

/-! ## Popping and folding -/

theorem popped_of_ne (h : text.getLast? ≠ some c) : popped c text = text := if_neg h

theorem popped_append (text : Text) (c : Char) : popped c (text ++ [c]) = text := by
  rw [popped, if_pos List.getLast?_concat, List.dropLast_concat]

/-- A text with a character popped begins it. -/
theorem popped_starts (c : Char) (text : Text) : popped c text <+: text := by
  unfold popped
  split_ifs
  · exact List.dropLast_prefix text
  · exact List.prefix_refl _

theorem foldBreaks_cons_cons (c d : Char) (rest : Text) : foldBreaks (c :: d :: rest) =
    if c = '\r' ∧ d = '\n' then '\n' :: foldBreaks rest else c :: foldBreaks (d :: rest) := rfl

/-- **Line ends fold on either side of a place that splits none.** -/
theorem foldBreaks_append (h : ¬ (text.getLast? = some '\r' ∧ rest.head? = some '\n')) :
    foldBreaks (text ++ rest) = foldBreaks text ++ foldBreaks rest := by
  induction text using foldBreaks.induct with
  | case1 => rfl
  | case2 c =>
    cases rest with
    | nil => rfl
    | cons d rest =>
      have hne : ¬ (c = '\r' ∧ d = '\n') := by simpa using h
      rw [List.singleton_append, foldBreaks_cons_cons, if_neg hne]
      rfl
  | case3 c d text hbreak ih =>
    have hrest : ¬ (text.getLast? = some '\r' ∧ rest.head? = some '\n') := by
      rintro ⟨hlast, hhead⟩
      refine h ⟨?_, hhead⟩
      rw [List.getLast?_cons, List.getLast?_cons, hlast]
      rfl
    rw [List.cons_append, List.cons_append, foldBreaks_cons_cons, if_pos hbreak,
      foldBreaks_cons_cons, if_pos hbreak, ih hrest, List.cons_append]
  | case4 c d text hbreak ih =>
    rw [List.getLast?_cons_cons] at h
    rw [List.cons_append, List.cons_append, foldBreaks_cons_cons, if_neg hbreak,
      foldBreaks_cons_cons, if_neg hbreak, ← List.cons_append, ih h, List.cons_append]

/-- A beginning of a text, with a line end it splits popped, folds to a beginning of what the text
does. -/
theorem foldBreaks_popped (h : text <+: whole) :
    foldBreaks (popped '\r' text) <+: foldBreaks whole := by
  obtain ⟨rest, rfl⟩ := h
  by_cases hlast : text.getLast? = some '\r'
  · obtain ⟨front, rfl⟩ := List.getLast?_eq_some_iff.1 hlast
    have hfold : foldBreaks (front ++ '\r' :: rest) =
        foldBreaks front ++ foldBreaks ('\r' :: rest) :=
      foldBreaks_append fun hsplit => absurd hsplit.2 (by simp)
    rw [popped_append, List.append_assoc, List.singleton_append, hfold]
    exact List.prefix_append _ _
  · rw [popped_of_ne hlast, foldBreaks_append fun hsplit => hlast hsplit.1]
    exact List.prefix_append _ _

/-! ## The cap -/

theorem fits_starts (n : Nat) (text : Text) : fits n text <+: text := by
  induction text generalizing n with
  | nil => exact List.prefix_refl _
  | cons c text ih =>
    rw [fits]
    split_ifs
    · exact List.cons_prefix_cons.2 ⟨rfl, ih _⟩
    · exact List.nil_prefix

theorem byteLength_fits (n : Nat) (text : Text) : byteLength (fits n text) ≤ n := by
  induction text generalizing n with
  | nil => exact Nat.zero_le _
  | cons c text ih =>
    rw [fits]
    split_ifs with hroom
    · have := ih (n - c.utf8Size)
      rw [byteLength_cons]
      omega
    · exact Nat.zero_le _

theorem byteLength_le (h : text <+: whole) : byteLength text ≤ byteLength whole := by
  obtain ⟨rest, rfl⟩ := h
  rw [Session.byteLength_append]
  exact Nat.le_add_right _ _

/-! ## Tags -/

/-- A value ends inside a tag of the whole one: behind a `<`, with a `>` to come in the whole and
neither of the two in between. -/
def InTag (value whole : Text) : Prop :=
  ∃ before inside more after, value = before ++ '<' :: inside ∧
    whole = value ++ more ++ '>' :: after ∧ '<' ∉ inside ++ more ∧ '>' ∉ inside ++ more

theorem lastOpen_none (h : lastOpen text = none) : '<' ∉ text := by
  induction text with
  | nil => exact List.not_mem_nil
  | cons c text ih =>
    rw [lastOpen] at h
    cases hrest : lastOpen text with
    | some split =>
      rw [hrest] at h
      cases h
    | none =>
      rw [hrest] at h
      dsimp only at h
      split_ifs at h with hc
      exact fun hmem => (List.mem_cons.1 hmem).elim (fun h => hc h.symm) (ih hrest)

theorem lastOpen_some {front inside : Text} (h : lastOpen text = some (front, inside)) :
    text = front ++ '<' :: inside ∧ '<' ∉ inside := by
  induction text generalizing front with
  | nil => cases h
  | cons c text ih =>
    rw [lastOpen] at h
    cases hrest : lastOpen text with
    | some split =>
      rw [hrest] at h
      cases h
      obtain ⟨hsplit, hopen⟩ := ih hrest
      exact ⟨congrArg (c :: ·) hsplit, hopen⟩
    | none =>
      rw [hrest] at h
      dsimp only at h
      split_ifs at h with hc
      cases h
      exact ⟨hc ▸ rfl, lastOpen_none hrest⟩

theorem beforeOpen_starts (text : Text) : beforeOpen text <+: text := by
  unfold beforeOpen
  cases hopen : lastOpen text with
  | none => exact List.prefix_refl _
  | some split =>
    dsimp only
    split_ifs
    · exact List.prefix_refl _
    · rw [(lastOpen_some hopen).1]
      exact List.prefix_append _ _

/-- The last `<` ahead of an end inside a tag opens it. -/
theorem lastOpen_inTag {before inside : Text} (hinside : '<' ∉ inside) :
    lastOpen (before ++ '<' :: inside) = some (before, inside) := by
  have hbehind : lastOpen inside = none := by
    cases hopen : lastOpen inside with
    | none => rfl
    | some split =>
      rw [(lastOpen_some hopen).1] at hinside
      exact absurd (List.mem_append_right _ List.mem_cons_self) hinside
  induction before with
  | nil => rw [List.nil_append, lastOpen, hbehind]; rfl
  | cons c before ih => rw [List.cons_append, lastOpen, ih]

/-- **Cut before its last open `<`, a beginning of a text ends inside no tag.** -/
theorem beforeOpen_not_inTag (h : text <+: whole) : ¬ InTag (beforeOpen text) whole := by
  rintro ⟨before, inside, more, after, hvalue, hwhole, hopen, hclose⟩
  rw [List.mem_append, not_or] at hopen hclose
  unfold beforeOpen at hvalue
  cases hlast : lastOpen text with
  | none =>
    rw [hlast] at hvalue
    have hnone := lastOpen_none hlast
    dsimp only at hvalue
    rw [hvalue] at hnone
    exact hnone (List.mem_append_right _ List.mem_cons_self)
  | some split =>
    obtain ⟨front, behind⟩ := split
    rw [hlast] at hvalue
    dsimp only at hvalue
    split_ifs at hvalue with hgt
    · -- The tag that would be open is the last one, and it is closed.
      rw [hvalue, lastOpen_inTag hopen.1] at hlast
      cases hlast
      exact hclose.1 hgt
    · -- What follows the cut is a `<`, which no tag holds.
      obtain ⟨htext, -⟩ := lastOpen_some hlast
      obtain ⟨rest, rfl⟩ := h
      have hcut : beforeOpen text = front := by
        rw [beforeOpen, hlast]
        exact if_neg hgt
      rw [hcut, htext, List.append_assoc, List.append_assoc, List.cons_append] at hwhole
      have hnext := List.append_cancel_left hwhole
      cases more with
      | nil => simp at hnext
      | cons c more =>
        rw [List.cons_append] at hnext
        rw [← (List.cons.inj hnext).1] at hopen
        exact hopen.2 List.mem_cons_self

/-- A value that is the whole one ends inside no tag. -/
theorem not_inTag_self (value : Text) : ¬ InTag value value := by
  rintro ⟨before, inside, more, after, -, hwhole, -⟩
  have := congrArg List.length hwhole
  simp at this

/-! ## What is cut -/

/-- What a cap leaves of a beginning of a text: a beginning within the cap that says whether it was
cut. -/
theorem truncate_starts (text : Text) (n : Nat) (html : Bool) :
    (truncate text n html).1 <+: text := by
  unfold truncate
  split_ifs
  · exact List.prefix_refl _
  · exact (beforeOpen_starts _).trans (fits_starts n text)
  · exact fits_starts n text

theorem byteLength_truncate (text : Text) (n : Nat) (html : Bool) :
    byteLength (truncate text n html).1 ≤ n := by
  unfold truncate
  split_ifs with hfits
  · exact hfits
  · exact (byteLength_le (beforeOpen_starts _)).trans (byteLength_fits n text)
  · exact byteLength_fits n text

theorem truncate_uncut {html : Bool} (h : byteLength text ≤ n) :
    truncate text n html = (text, false) :=
  if_pos h

theorem truncate_cut {html : Bool} (h : n < byteLength text) : (truncate text n html).2 = true := by
  rw [truncate, if_neg (Nat.not_le.2 h)]

/-- Where the cap cuts an HTML value it ends inside no tag. -/
theorem truncate_not_inTag (h : text <+: whole) (hcut : n < byteLength text) :
    ¬ InTag (truncate text n true).1 whole := by
  rw [truncate, if_neg (Nat.not_le.2 hcut)]
  exact beforeOpen_not_inTag ((fits_starts n text).trans h)

end Huliho.Values
