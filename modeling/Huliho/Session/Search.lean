import Huliho.Folders.Utf7
import Huliho.Lib.Decimals
import Huliho.Session.Store

/-!
# The SEARCH command

`session/read/search.rs`: what a search asks as the keys of a `UID SEARCH`, and the command of a window
cut after every literal that waits for the server. A string of the client goes as a literal alone
(`keys`); `SearchAsk.searchKeys` is what the ask means, `keys_eq` that the pieces say it.
-/

namespace Huliho.Session

def SEARCH_TERM_BYTES : Nat := 256
def SEARCH_TERMS : Nat := 8

/-- The longest literal that goes without waiting under LITERAL-. -/
def LITERAL_MINUS_BYTES : Nat := 4096

/-- The last year an IMAP date can write. -/
def MAX_YEAR : Int := 9999

def MONTHS : List Text :=
  ["Jan".toList, "Feb".toList, "Mar".toList, "Apr".toList, "May".toList, "Jun".toList,
    "Jul".toList, "Aug".toList, "Sep".toList, "Oct".toList, "Nov".toList, "Dec".toList]

def TERM_LIMIT : String := "a search passes the term limit"
def NUL : String := "a search term holds a NUL"
def NO_KEY : String := "a search names no key"
def NO_GMAIL : String := "the server does not search as Gmail does"
def NO_LABEL : String := "a search label cannot be sent"
def NO_DATE : String := "a search date cannot be written"

/-- The literals a server reads without a continuation request. -/
inductive Literals
  | synchronizing
  | minus
  | plus
deriving DecidableEq

/-- Whether a literal of some bytes goes without waiting. -/
def Literals.unsynchronized : Literals → Nat → Bool
  | plus, _ => true
  | minus, bytes => bytes ≤ LITERAL_MINUS_BYTES
  | synchronizing, _ => false

/-- A day of the calendar, its month counted from zero. -/
structure Date where
  year : Int
  month : Fin 12
  day : Nat
deriving DecidableEq

/-- How the server takes literals and whether it has the Gmail keys. -/
structure Searching where
  literals : Literals
  gmail : Bool

/-- What a search on a Gmail account adds: the label a mailbox stands for, as Gmail lists it. -/
structure GmailSearch where
  label : Option Text

/-- One search of the selected mailbox: every key must match. -/
structure SearchAsk where
  text : Text
  sender : Text
  unseen : Bool
  flagged : Bool
  since : Option Date
  before : Option Date
  gmail : Option GmailSearch
  server : Searching

/-- One piece of a search: the bridge's own words or a string of the client. -/
inductive Piece
  | words (text : Text)
  | literal (string : Text)

/-- One command as it goes out: its opening and, for every literal that waits, a segment that opens with
the bytes of that literal. -/
structure Segments where
  first : Text
  later : List Text

/-! ## Terms -/

/-- White space of Unicode. -/
def isWhitespace (c : Char) : Bool :=
  (9 ≤ c.toNat && c.toNat ≤ 13) || (0x2000 ≤ c.toNat && c.toNat ≤ 0x200A) ||
    [0x20, 0x85, 0xA0, 0x1680, 0x2028, 0x2029, 0x202F, 0x205F, 0x3000].contains c.toNat

/-- A term without its quotes: what a TEXT or a FROM key matches. -/
def bare (term : Text) : Text := term.filter (· ≠ '"')

/-- The loop of `terms`: the term being read, and whether it stands in quotes. -/
def termsLoop : Text → Option Text → Bool → List Text
  | [], start, _ => start.toList
  | c :: text, start, quoted =>
    if isWhitespace c && !quoted then start.toList ++ termsLoop text none quoted
    else termsLoop text (some (start.getD [] ++ [c])) (if c = '"' then !quoted else quoted)

/-- The terms of a text as typed, a run in double quotes one term; quotes alone name nothing. -/
def terms (text : Text) : List Text := (termsLoop text none false).filter fun term => bare term ≠ []

/-- The X-GM-RAW string: the terms of the text as typed, then the sender as one phrase. -/
def raw (text sender : List Text) : Text :=
  let joined := [' '].intercalate text
  if sender = [] then joined
  else
    joined ++ (if joined = [] then [] else [' ']) ++
      "from:\"".toList ++ [' '].intercalate (sender.map bare) ++ ['"']

namespace SearchAsk

variable (ask : SearchAsk)

/-- Whether the ask goes out as it stands. -/
def check : Except SessionError Unit :=
  let found := terms ask.text ++ terms ask.sender
  let label := (ask.gmail.bind GmailSearch.label).isSome
  let plain := ask.unseen || ask.flagged || ask.since.isSome || ask.before.isSome
  if SEARCH_TERMS < found.length ∨ ∃ term ∈ found, SEARCH_TERM_BYTES < byteLength term then
    .error (.protocol TERM_LIMIT)
  else if ∃ term ∈ found, '\x00' ∈ term then .error (.protocol NUL)
  else if ask.gmail.isSome ∧ ¬ ask.server.gmail then .error (.protocol NO_GMAIL)
  else if found = [] ∧ ¬ label ∧ ¬ plain then .error (.protocol NO_KEY)
  else .ok ()

end SearchAsk

/-! ## Dates -/

/-- A number with zeros ahead of it up to a width. -/
def padded (width n : Nat) : Text := List.replicate (width - (decimal n).length) '0' ++ decimal n

/-- A day as it is written on the wire. -/
def dateText (day : Date) : Text :=
  decimal day.day ++ '-' :: (MONTHS.getD day.month.val [] ++ '-' :: padded 4 day.year.toNat)

/-- A day as an IMAP date; none for a year outside four digits. -/
def imapDate (day : Date) : Option Text :=
  if 0 ≤ day.year ∧ day.year ≤ MAX_YEAR then some (dateText day) else none

/-! ## Keys -/

/-- A date key, if the ask has its day. -/
def dateKey (key : Text) : Option Date → Except SessionError (List Piece)
  | none => .ok []
  | some day =>
    match imapDate day with
    | some date => .ok [.words (key ++ ' ' :: date)]
    | none => .error (.protocol NO_DATE)

/-- A label key: what it decodes to passes the rule of a STORE. -/
def labelKey (base64 : Utf7.Base64) : Option Text → Except SessionError (List Piece)
  | none => .ok []
  | some listed =>
    let label := Utf7.decode base64 listed
    if wireLabel label = none then .error (.protocol NO_LABEL)
    else .ok [.words "X-GM-LABELS".toList, .literal label]

/-- A TEXT or a FROM key per term. -/
def termKeys (key : Text) (found : List Text) : List Piece :=
  found.flatMap fun term => [.words key, .literal (bare term)]

/-- The keys with a string: on Gmail the text and the sender as one and the label, elsewhere a key per
term. -/
def stringKeys (base64 : Utf7.Base64) (text sender : List Text) :
    Option GmailSearch → Except SessionError (List Piece)
  | none => .ok (termKeys "TEXT".toList text ++ termKeys "FROM".toList sender)
  | some gmail => do
    let label ← labelKey base64 gmail.label
    pure ((if text ≠ [] ∨ sender ≠ [] then
      [.words "X-GM-RAW".toList, .literal (raw text sender)] else []) ++ label)

/-- The keys of the ask in the order the command carries them. -/
def keys (base64 : Utf7.Base64) (ask : SearchAsk) : Except SessionError (List Piece) := do
  ask.check
  let strings ← stringKeys base64 (terms ask.text) (terms ask.sender) ask.gmail
  let since ← dateKey "SINCE".toList ask.since
  let before ← dateKey "BEFORE".toList ask.before
  pure (strings ++ (if ask.unseen then [.words "UNSEEN".toList] else []) ++
    (if ask.flagged then [.words "FLAGGED".toList] else []) ++ since ++ before)

/-! ## Segments -/

def Piece.isLiteral : Piece → Bool
  | literal _ => true
  | words _ => false

/-- The loop of `segments`: the segment being written and those done. -/
def segmentsLoop (literals : Literals) : List Piece → Text → List Text → List Text
  | [], current, done => done ++ [current]
  | .words words :: keys, current, done =>
    segmentsLoop literals keys (current ++ ' ' :: words) done
  | .literal string :: keys, current, done =>
    if literals.unsynchronized (byteLength string) then
      segmentsLoop literals keys
        (current ++ ' ' :: '{' :: decimal (byteLength string) ++ "+\x7d\r\n".toList ++ string) done
    else
      segmentsLoop literals keys string
        (done ++ [current ++ ' ' :: '{' :: decimal (byteLength string) ++ ['}']])

/-- How the command of a window opens. -/
def opening (charset : Bool) (low high : Nat) : Text :=
  "UID SEARCH".toList ++ (if charset then " CHARSET UTF-8".toList else []) ++
    ' ' :: decimal low ++ ':' :: decimal high

/-- The command of one window, cut after every literal that waits for the server. -/
def segments (keys : List Piece) (low high : Nat) (literals : Literals) :
    Except SessionError Segments :=
  let done := segmentsLoop literals keys (opening (keys.any Piece.isLiteral) low high) []
  if MAX_COMMAND_BYTES < (done.map byteLength).sum then .error (.protocol LINE_LIMIT)
  else .ok ⟨done.headD [], done.tail⟩

/-! ## What an ask means -/

/-- A key of a search. -/
inductive SearchKey
  | text (string : Text)
  | sender (string : Text)
  | gmailRaw (string : Text)
  | gmailLabels (string : Text)
  | unseen
  | flagged
  | since (day : Date)
  | before (day : Date)

/-- The keys an ask means: every term of the text and of the sender, on Gmail the two as one string and
the label decoded, then the plain conditions. -/
def SearchAsk.searchKeys (base64 : Utf7.Base64) (ask : SearchAsk) : List SearchKey :=
  (match ask.gmail with
    | none =>
      (terms ask.text).map (fun term => .text (bare term)) ++
        (terms ask.sender).map fun term => .sender (bare term)
    | some gmail =>
      (if terms ask.text ≠ [] ∨ terms ask.sender ≠ [] then
        [.gmailRaw (raw (terms ask.text) (terms ask.sender))] else []) ++
        (gmail.label.map fun listed => .gmailLabels (Utf7.decode base64 listed)).toList) ++
    (if ask.unseen then [.unseen] else []) ++ (if ask.flagged then [.flagged] else []) ++
    (ask.since.map SearchKey.since).toList ++ (ask.before.map SearchKey.before).toList

namespace SearchKey

/-- The string of the client a key carries. -/
def string : SearchKey → Option Text
  | text string | sender string | gmailRaw string | gmailLabels string => some string
  | _ => none

/-- A key as the command carries it. -/
def pieces : SearchKey → List Piece
  | text string => [.words "TEXT".toList, .literal string]
  | sender string => [.words "FROM".toList, .literal string]
  | gmailRaw string => [.words "X-GM-RAW".toList, .literal string]
  | gmailLabels string => [.words "X-GM-LABELS".toList, .literal string]
  | unseen => [.words "UNSEEN".toList]
  | flagged => [.words "FLAGGED".toList]
  | since day => [.words ("SINCE".toList ++ ' ' :: dateText day)]
  | before day => [.words ("BEFORE".toList ++ ' ' :: dateText day)]

/-- A key whose day a date can write. -/
def Writable : SearchKey → Prop
  | since day | before day => 0 ≤ day.year ∧ day.year ≤ MAX_YEAR
  | _ => True

end SearchKey

section

variable {base64 : Utf7.Base64} {ask : SearchAsk} {pieces : List Piece} {day : Option Date}

theorem dateKey_eq {key : Text} (h : dateKey key day = .ok pieces) :
    pieces = day.toList.map (fun found => .words (key ++ ' ' :: dateText found)) ∧
      ∀ found ∈ day, 0 ≤ found.year ∧ found.year ≤ MAX_YEAR := by
  cases day with
  | none =>
    cases h
    exact ⟨rfl, fun day hday => by cases hday⟩
  | some day =>
    rw [dateKey, imapDate] at h
    split at h
    · rename_i date hdate
      split at hdate
      · rename_i hyear
        cases hdate
        cases h
        refine ⟨rfl, fun found hfound => ?_⟩
        rwa [← Option.some.inj hfound]
      · cases hdate
    · cases h

theorem labelKey_eq {label : Option Text} (h : labelKey base64 label = .ok pieces) :
    pieces = (label.map fun listed => SearchKey.gmailLabels (Utf7.decode base64 listed)).toList.flatMap
      SearchKey.pieces := by
  cases label with
  | none =>
    cases h
    rfl
  | some listed =>
    rw [labelKey] at h
    split at h
    · cases h
    · cases h
      rfl

theorem termKeys_eq (found : List Text) :
    termKeys "TEXT".toList found =
        (found.map fun term => SearchKey.text (bare term)).flatMap SearchKey.pieces ∧
      termKeys "FROM".toList found =
        (found.map fun term => SearchKey.sender (bare term)).flatMap SearchKey.pieces := by
  rw [termKeys, termKeys, List.flatMap_map, List.flatMap_map]
  exact ⟨rfl, rfl⟩

/-- What two steps answer, the second one does with what the first did. -/
theorem bind_eq_ok {α β : Type} {x : Except SessionError α} {f : α → Except SessionError β} {b : β}
    (h : (x >>= f) = .ok b) : ∃ a, x = .ok a ∧ f a = .ok b := by
  cases x with
  | error e => cases h
  | ok a => exact ⟨a, rfl, h⟩

/-- The keys with a string are those the ask means. -/
theorem stringKeys_eq {text sender : List Text} {gmail : Option GmailSearch}
    (h : stringKeys base64 text sender gmail = .ok pieces) :
    pieces = (match gmail with
      | none =>
        text.map (fun term => SearchKey.text (bare term)) ++
          sender.map fun term => SearchKey.sender (bare term)
      | some gmail =>
        (if text ≠ [] ∨ sender ≠ [] then [SearchKey.gmailRaw (raw text sender)] else []) ++
          (gmail.label.map fun listed =>
            SearchKey.gmailLabels (Utf7.decode base64 listed)).toList).flatMap
        SearchKey.pieces := by
  cases gmail with
  | none =>
    cases h
    rw [(termKeys_eq text).1, (termKeys_eq sender).2, ← List.flatMap_append]
  | some gmail =>
    obtain ⟨label, hlabel, h⟩ := bind_eq_ok h
    cases h
    rw [labelKey_eq hlabel, List.flatMap_append]
    split <;> rfl

/-- A key an ask means carries a string, is one word or names a day of the ask. -/
theorem mem_searchKeys {key : SearchKey} (h : key ∈ ask.searchKeys base64) :
    key.string.isSome ∨ key = .unseen ∨ key = .flagged ∨
      (∃ day ∈ ask.since, key = .since day) ∨ ∃ day ∈ ask.before, key = .before day := by
  simp only [SearchAsk.searchKeys, List.mem_append] at h
  rcases h with (((hstring | hunseen) | hflagged) | hsince) | hbefore
  · left
    split at hstring
    · rcases List.mem_append.1 hstring with hin | hin <;>
        obtain ⟨term, -, rfl⟩ := List.mem_map.1 hin <;> rfl
    · rcases List.mem_append.1 hstring with hin | hin
      · split at hin
        · rw [List.mem_singleton.1 hin]
          rfl
        · cases hin
      · obtain ⟨listed, -, rfl⟩ := Option.map_eq_some_iff.1 (Option.mem_toList.1 hin)
        rfl
  · split at hunseen
    · exact .inr (.inl (List.mem_singleton.1 hunseen))
    · cases hunseen
  · split at hflagged
    · exact .inr (.inr (.inl (List.mem_singleton.1 hflagged)))
    · cases hflagged
  · obtain ⟨day, hday, rfl⟩ := Option.map_eq_some_iff.1 (Option.mem_toList.1 hsince)
    exact .inr (.inr (.inr (.inl ⟨day, hday, rfl⟩)))
  · obtain ⟨day, hday, rfl⟩ := Option.map_eq_some_iff.1 (Option.mem_toList.1 hbefore)
    exact .inr (.inr (.inr (.inr ⟨day, hday, rfl⟩)))

/-- **The pieces of a search are those of the keys the ask means**, every day one that is written. -/
theorem keys_eq (h : keys base64 ask = .ok pieces) :
    pieces = (ask.searchKeys base64).flatMap SearchKey.pieces ∧
      ∀ key ∈ ask.searchKeys base64, key.Writable := by
  obtain ⟨_, -, h⟩ := bind_eq_ok h
  obtain ⟨strings, hstrings, h⟩ := bind_eq_ok h
  obtain ⟨since, hsince, h⟩ := bind_eq_ok h
  obtain ⟨before, hbefore, h⟩ := bind_eq_ok h
  cases h
  obtain ⟨rfl, hsinceYear⟩ := dateKey_eq hsince
  obtain ⟨rfl, hbeforeYear⟩ := dateKey_eq hbefore
  constructor
  · rw [stringKeys_eq hstrings, SearchAsk.searchKeys, List.flatMap_append, List.flatMap_append,
      List.flatMap_append, List.flatMap_append]
    congr 1
    · congr 1
      · congr 1
        · congr 1
          split <;> rfl
        · split <;> rfl
      · cases ask.since <;> rfl
    · cases ask.before <;> rfl
  · intro key hkey
    rcases mem_searchKeys hkey with hstring | rfl | rfl | ⟨day, hday, rfl⟩ | ⟨day, hday, rfl⟩
    · cases key <;> trivial
    · trivial
    · trivial
    · exact hsinceYear day hday
    · exact hbeforeYear day hday

end

end Huliho.Session
