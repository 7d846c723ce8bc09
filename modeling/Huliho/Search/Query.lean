import Huliho.Search.Tree

/-!
# The field's text and the params

`search-text.ts`: `parseQuery` reads the field's text piece by piece, the operators into the params and
the rest as text; `queryOf` writes params as a text again, the operators first.

What the code takes from the platform is a `Platform`: the case mapping, how a locale compares names
and orders the parts of a date, and which texts are days. Two things of it are relied on, a
`Documented` platform: a word in small letters is in lower case, and a day is written year, month and
day in four, two and two digits.
-/

namespace Huliho.Search

/-! ## What the platform answers -/

/-- The parts of a written date. -/
inductive Part
  | day
  | month
  | year
  | other
deriving DecidableEq

structure Platform where
  /-- `toLowerCase`. -/
  lower : Text → Text
  /-- `Intl.Collator(locale).compare`. -/
  compare : Text → Text → Text → Int
  /-- The parts `Intl.DateTimeFormat(locale)` writes a day in. -/
  formatToParts : Text → List Part
  /-- `z.iso.date()`. -/
  isoDate : Text → Bool

def isDigit (c : Char) : Bool := '0' ≤ c && c ≤ '9'

/-- So many digits. -/
def Digits (n : Nat) (text : Text) : Prop := text.length = n ∧ ∀ c ∈ text, isDigit c = true

/-- `YYYY-MM-DD`. -/
def dashed (year month day : Text) : Text := year ++ '-' :: (month ++ '-' :: day)

/-- A word of small letters. -/
def isSmall (word : Text) : Bool := word.all fun c => 'a' ≤ c && c ≤ 'z'

/-- What the code relies on. -/
structure Platform.Documented (platform : Platform) : Prop where
  lower_small : ∀ word, isSmall word = true → platform.lower word = word
  isoDate_shape : ∀ text, platform.isoDate text = true → ∃ year month day,
    Digits 4 year ∧ Digits 2 month ∧ Digits 2 day ∧ text = dashed year month day

/-- What the field's text is read against. -/
structure QueryContext where
  mailboxes : List Mailbox
  locale : Text

/-- The params of a search. -/
structure SearchParams where
  q : Option Text := none
  «in» : Option Text := none
  «from» : Option Text := none
  after : Option Text := none
  before : Option Text := none
  unread : Bool := false
  starred : Bool := false
  attachment : Bool := false
deriving DecidableEq

/-- The value of `in` for every mailbox. -/
def EVERY_MAILBOX : Text := "all".toList

/-- The word `in:` takes for every mailbox, Junk and Trash included. -/
def ANYWHERE : Text := "anywhere".toList

/-- What one operator in the text sets. -/
inductive Found
  | «from» (value : Text)
  | «in» (value : Text)
  | after (value : Text)
  | before (value : Text)
  | unread
  | starred
  | attachment
deriving DecidableEq

/-- A value in double quotes without them. -/
def unquoted (value : Text) : Text :=
  match value with
  | [] => []
  | c :: rest =>
    if c = quote ∧ rest.getLast? = some quote ∧ quote ∉ rest.dropLast then rest.dropLast else value

/-! ## Dates -/

/-- The digits at the head of a text and what follows the mark after them. -/
def number (marks : List Char) (text : Text) : Option (Text × Text) :=
  match text.dropWhile isDigit with
  | [] => none
  | mark :: rest => if mark ∈ marks then some (text.takeWhile isDigit, rest) else none

/-- Three numbers with two marks. -/
def numbers (marks : List Char) (text : Text) : Option (Text × Text × Text) :=
  (number marks text).bind fun (first, rest) => (number marks rest).bind fun (second, third) =>
    if third.all isDigit then some (first, second, third) else none

/-- `YEAR_FIRST`. -/
def yearFirst (value : Text) : Option (Text × Text × Text) :=
  (numbers ['-', '/'] value).filter fun (year, month, day) =>
    year.length = 4 && (1 ≤ month.length && month.length ≤ 2) &&
      (1 ≤ day.length && day.length ≤ 2)

/-- `NUMERIC`. -/
def numeric (value : Text) : Option (List Text) :=
  ((numbers ['-', '/', '.'] value).map fun (first, second, third) => [first, second, third]).filter
    fun parts => parts.all fun part => 1 ≤ part.length && part.length ≤ 4

/-- `padStart(2, "0")`. -/
def padStart (text : Text) : Text := List.replicate (2 - text.length) '0' ++ text

section Platform

variable (platform : Platform)

/-- A calendar day from its parts, or null for one that does not exist. -/
def dayOf (year month day : Text) : Option Text :=
  let written := dashed year (padStart month) (padStart day)
  if platform.isoDate written then some written else none

/-- The order in which a locale writes the day, the month and the year. -/
def partsOrder (locale : Text) : List Part :=
  (platform.formatToParts locale).filter fun type => type ≠ .other

/-- A typed date: year first as ISO 8601 or Gmail writes it, else in the locale's own order. -/
def typedDay (value locale : Text) : Option Text :=
  match yearFirst value with
  | some (year, month, day) => dayOf platform year month day
  | none =>
    match numeric value with
    | none => none
    | some parts =>
      -- The last place of a type counts, as the map keeps it; a type without a number is empty.
      let part := fun type => (((partsOrder platform locale).zipIdx.filterMap fun (named, index) =>
        if named = type then some (parts[index]?.getD []) else none).getLast?).getD []
      dayOf platform (part .year) (part .month) (part .day)

/-! ## Operators -/

/-- The mailbox a value names: by name in any case, the first in the tree's order where names repeat,
else by id. -/
def mailboxNamed (value : Text) (context : QueryContext) : Option Text :=
  let wanted := platform.lower value
  let named := (context.mailboxes.filter fun row => platform.lower row.name = wanted).map Mailbox.id
  let first := (treeOrder (platform.compare context.locale) context.mailboxes).find? fun id =>
    named.contains id
  first <|> (context.mailboxes.find? fun row => row.id = value).map Mailbox.id

def scopeIn (value : Text) (context : QueryContext) : Option Found :=
  let name := unquoted value
  if platform.lower name = ANYWHERE then some (.in EVERY_MAILBOX)
  else (mailboxNamed platform name context).map .in

def dated (key : Text → Found) (value locale : Text) : Option Found :=
  (typedDay platform (unquoted value) locale).map key

/-- The operators that take a value, by their word. -/
def valued (name value : Text) (context : QueryContext) : Option Found :=
  if name = "from".toList then (if value = [] then none else some (.from value))
  else if name = "in".toList then scopeIn platform value context
  else if name = "after".toList then dated platform .after value context.locale
  else if name = "before".toList then dated platform .before value context.locale
  else none

/-- The operators that are whole as written, in lower case. -/
def whole (written : Text) : Option Found :=
  if written = "is:unread".toList then some .unread
  else if written = "is:starred".toList then some .starred
  else if written = "has:attachment".toList then some .attachment
  else none

/-- What an operator sets; null for one the text keeps as it stands. -/
def operatorOf (word value : Text) (context : QueryContext) : Option Found :=
  let name := platform.lower word
  whole (name ++ ':' :: platform.lower value) <|> valued platform name value context

/-- What a piece sets. -/
def foundOf (context : QueryContext) (piece : Piece) : Option Found :=
  piece.operator.bind fun (word, value) => operatorOf platform word value context

/-! ## Reading -/

/-- What is read so far: the words, the senders and the other params. -/
structure Reading where
  words : List Text := []
  senders : List Text := []
  params : SearchParams := {}

/-- What an operator sets: a sender is added, and of the others the last one counts. -/
def Reading.set (reading : Reading) : Found → Reading
  | .from value => { reading with senders := reading.senders ++ [value] }
  | .in value => { reading with params := { reading.params with «in» := some value } }
  | .after value => { reading with params := { reading.params with after := some value } }
  | .before value => { reading with params := { reading.params with before := some value } }
  | .unread => { reading with params := { reading.params with unread := true } }
  | .starred => { reading with params := { reading.params with starred := true } }
  | .attachment => { reading with params := { reading.params with attachment := true } }

/-- One turn of the loop. -/
def Reading.take (context : QueryContext) (reading : Reading) (piece : Piece) : Reading :=
  match foundOf platform context piece with
  | none => { reading with words := reading.words ++ [piece.whole] }
  | some found => reading.set found

/-- The params of what is read, the senders and the words each as one text. -/
def Reading.done (reading : Reading) : SearchParams :=
  { reading.params with
    «from» := if reading.senders = [] then none else some (joined ' ' reading.senders)
    q := if reading.words = [] then none else some (joined ' ' reading.words) }

/-- The params the field's text holds. -/
def parseQuery (text : Text) (context : QueryContext) : SearchParams :=
  ((pieces text).foldl (Reading.take platform context) {}).done

/-! ## Writing -/

/-- `BARE`: a value that needs no quotes. -/
def isBare (value : Text) : Bool := value ≠ [] && value.all fun c => !isSpace c && c ≠ quote

/-- How `in:` names a mailbox in the text: by its name where that reads back as this mailbox, else by
its id. -/
def scopeWord (scope : Text) (context : QueryContext) : Text :=
  if scope = EVERY_MAILBOX then ANYWHERE
  else
    let name := ((context.mailboxes.find? fun row => row.id = scope).map Mailbox.name).getD []
    let written := if isBare name then name else quote :: (name ++ [quote])
    let plain := name ≠ [] ∧ quote ∉ name ∧ platform.lower name ≠ ANYWHERE
    if plain ∧ mailboxNamed platform name context = some scope then written else scope

/-- The text as `parseQuery` reads it back: a piece an operator would claim goes in quotes, with its
own quotes dropped. -/
def textOf (q : Text) (context : QueryContext) : Text :=
  joined ' ' ((pieces q).map fun piece =>
    if (foundOf platform context piece).isSome then
      quote :: (piece.whole.filter (· ≠ quote) ++ [quote])
    else piece.whole)

/-- The terms a sender holds, a quoted run as one, as `from:` writes each. -/
def senderTerms (from' : Text) : List Text := (pieces from').map Piece.whole

/-- An operator as the text writes it. -/
def operator (word value : Text) : Text := word ++ ':' :: value

/-- The field's text for the params. -/
def queryOf (params : SearchParams) (context : QueryContext) : Text :=
  joined ' ' <|
    (senderTerms (params.from.getD [])).map (operator "from".toList) ++
    (params.in.map fun scope => operator "in".toList (scopeWord platform scope context)).toList ++
    (params.after.map (operator "after".toList)).toList ++
    (params.before.map (operator "before".toList)).toList ++
    (if params.unread then ["is:unread".toList] else []) ++
    (if params.starred then ["is:starred".toList] else []) ++
    (if params.attachment then ["has:attachment".toList] else []) ++
    (params.q.map fun q => textOf platform q context).toList

end Platform

end Huliho.Search
