import Huliho.Lib.Reading

/-!
# The Authentication-Results header

`auth-results.ts`: what a receiving server says of a message (RFC 8601), read from the header it
wrote. A text is its UTF-16 units, and every mark the readers look for is one unit. A reader answers
what it read with the rest of the text, where the code answers an index.

`toLowerCase` is a parameter, since it is the language's and reads a table of Unicode.
-/

namespace Huliho.AuthResults

/-- A text as its UTF-16 units. -/
abbrev Text := List UInt16

/-- The units of a text of Latin characters. -/
def latin (text : String) : Text := text.toList.map fun c => .ofNat c.toNat

def AUTH_RESULTS_MAX_BYTES : Nat := 8192
def AUTH_RESULTS_MAX_CLAUSES : Nat := 32
def SERVER_MAX_BYTES : Nat := 255
def VERSION : Text := latin "1"
def FROM : Text := latin "header.from"

def TAB : UInt16 := 9
def LF : UInt16 := 10
def CR : UInt16 := 13
def SPACE : UInt16 := 32
def QUOTE : UInt16 := 34
def OPEN : UInt16 := 40
def CLOSE : UInt16 := 41
def DOT : UInt16 := 46
def SLASH : UInt16 := 47
def SEMICOLON : UInt16 := 59
def EQUALS : UInt16 := 61
def BACKSLASH : UInt16 := 92

/-! ## Units -/

def isBlank (c : UInt16) : Bool := c = SPACE || c = TAB

def isSpace (c : UInt16) : Bool := c = SPACE || c = TAB || c = CR || c = LF

def isDigit (c : UInt16) : Bool := 48 ≤ c && c ≤ 57

/-- `[\w-]`. -/
def isKeywordChar (c : UInt16) : Bool :=
  isDigit c || (65 ≤ c && c ≤ 90) || (97 ≤ c && c ≤ 122) || c = 95 || c = 45

/-- Neither a space nor a quotation mark. -/
def isBareChar (c : UInt16) : Bool := !isSpace c && c ≠ QUOTE

/-- `\p{Cc}`. -/
def isControl (c : UInt16) : Bool := c < 32 || (127 ≤ c && c < 160)

/-- The octets of a text in UTF-8; a surrogate without its partner goes as U+FFFD. -/
def byteLength : Text → Nat
  | [] => 0
  | high :: low :: rest =>
    if 0xD800 ≤ high ∧ high < 0xDC00 ∧ 0xDC00 ≤ low ∧ low < 0xE000 then 4 + byteLength rest
    else (if high < 0x80 then 1 else if high < 0x800 then 2 else 3) + byteLength (low :: rest)
  | [c] => if c < 0x80 then 1 else if c < 0x800 then 2 else 3

/-- Whether a text starts with a line break that folds its line. -/
def startsFold : Text → Bool
  | [] => false
  | c :: rest =>
    (c = LF && rest.head?.any isBlank) ||
      (c = CR && rest.head? = some LF && rest.tail.head?.any isBlank)

/-- The text without the line breaks that fold its lines: `replaceAll(FOLD, "")`. -/
def unfold : Text → Text
  | [] => []
  | c :: rest =>
    -- The second unit of a fold of two is one that folds by itself.
    if startsFold (c :: rest) then unfold rest else c :: unfold rest

/-! ## Pieces -/

def skipSpace (text : Text) : Text := text.dropWhile isSpace

/-- What stands before the rest of a text. -/
def slice (text rest : Text) : Text := text.take (text.length - rest.length)

/-- The rest past the comment of a depth. A comment nests and holds quoted pairs. -/
def commentEnd : Nat → Text → Option Text
  | _, [] => none
  | depth, c :: rest =>
    if c = OPEN then commentEnd (depth + 1) rest
    else if c = CLOSE then if depth = 1 then some rest else commentEnd (depth - 1) rest
    else if c = BACKSLASH then
      match rest with
      | [] => none
      | _ :: rest => commentEnd depth rest
    else commentEnd depth rest

/-- The rest past the quoted string that is open. -/
def quotedEnd : Text → Option Text
  | [] => none
  | c :: rest =>
    if c = QUOTE then some rest
    else if c = BACKSLASH then
      match rest with
      | [] => none
      | _ :: rest => quotedEnd rest
    else quotedEnd rest

/-- The rest past what starts here: a whole comment, a whole quoted string or one unit. A closing
parenthesis that closes nothing cannot be read. -/
def pieceEnd : Text → Option Text
  | [] => none
  | c :: rest =>
    if c = OPEN then commentEnd 0 (c :: rest)
    else if c = QUOTE then quotedEnd rest
    else if c = CLOSE then none
    else some rest

/-- The clauses so far and the one being read. -/
structure Cut where
  clauses : List Text
  clause : Text

/-- One piece more. -/
def Cut.turn (cut : Cut) (text : Text) : Turn Cut UInt16 :=
  (pieceEnd text).map fun rest =>
    if text.head? = some SEMICOLON then (⟨cut.clauses ++ [cut.clause], []⟩, rest)
    else if text.head? = some OPEN then (⟨cut.clauses, cut.clause ++ [SPACE]⟩, rest)
    else (⟨cut.clauses, cut.clause ++ slice text rest⟩, rest)

/-- The clauses at the end of the header, without an empty closing piece. -/
def Cut.close (cut : Cut) : List Text :=
  if cut.clauses = [] ∨ skipSpace cut.clause ≠ [] then cut.clauses ++ [cut.clause] else cut.clauses

/-- The header cut at every `;` outside quoted strings and comments, with a space in place of each
comment. -/
def splitClauses (text : Text) : Option (List Text) :=
  (readLoop List.isEmpty Cut.turn ⟨[], []⟩ text).map fun read => read.1.close

/-- A text without the backslash of each quoted pair: `replaceAll(QUOTED_PAIR, "$1")`. -/
def unescape : Text → Text
  | [] => []
  | [c] => [c]
  | c :: d :: rest => if c = BACKSLASH then d :: unescape rest else c :: unescape (d :: rest)

/-- The quoted string a text starts with. -/
def readQuoted (text : Text) : Option (Text × Text) :=
  (quotedEnd text.tail).map fun rest => (unescape (slice text rest).tail.dropLast, rest)

/-- A keyword with the white space around it. -/
def readWord (text : Text) : Option (Text × Text) :=
  let word := (skipSpace text).takeWhile isKeywordChar
  if word = [] then none else some (word, skipSpace ((skipSpace text).dropWhile isKeywordChar))

/-! ## The server -/

/-- What follows an authserv-id: nothing, or white space and the version. -/
def fitsVersion (rest : Text) : Bool :=
  skipSpace rest = [] || (rest.head?.any isSpace && readWord rest = some (VERSION, []))

/-- The authserv-id of a first piece: one quoted string or one run of other units, bounded and free
of control characters. -/
def readServer (text : Text) : Option Text :=
  let start := skipSpace text
  let id :=
    if start.head? = some QUOTE then readQuoted start
    else some (start.takeWhile isBareChar, start.dropWhile isBareChar)
  id.bind fun (value, rest) =>
    if rest.length = start.length ∨ ¬ fitsVersion rest then none
    else if byteLength value > SERVER_MAX_BYTES ∨ value.any isControl then none
    else some value

/-- The server and its result clauses. -/
structure Head where
  server : Option Text
  clauses : List Text
deriving DecidableEq

/-- The server and its result clauses. A first piece that is a clause already names no server. -/
def readHead (pieces : List Text) : Option Head :=
  let first := pieces.headD []
  if (skipSpace first).head? ≠ some QUOTE ∧ EQUALS ∈ first then some ⟨none, pieces⟩
  else (readServer first).map fun server => ⟨some server, pieces.tail⟩

/-! ## Clauses -/

inductive AuthVerdict
  | pass
  | fail
  | none
  | unknown
deriving DecidableEq, Repr

def VERDICTS : List (Text × AuthVerdict) :=
  [(latin "pass", .pass), (latin "fail", .fail), (latin "softfail", .fail),
    (latin "hardfail", .fail), (latin "none", .none)]

/-- Among several clauses of one method the first of these that occurs wins. -/
def BEST_FIRST : List AuthVerdict := [.pass, .fail, .unknown, .none]

/-- Whether a method has the version read here; one that names none has it. -/
def readVersion (text : Text) : Option (Bool × Text) :=
  if text.head? ≠ some SLASH then some (true, text)
  else
    (readWord text.tail).bind fun (version, rest) =>
      if version.all isDigit then some (version = VERSION, rest) else none

structure Spec where
  method : Text
  verdict : AuthVerdict
deriving DecidableEq

structure Clause extends Spec where
  fromDomain : Option Text
deriving DecidableEq

/-- What a text says in the words of the summary. -/
structure AuthenticationResults where
  server : Option Text
  spf : AuthVerdict
  dkim : AuthVerdict
  dmarc : AuthVerdict
  dmarcFrom : Option Text
deriving DecidableEq

section
variable (lower : Text → Text)

def verdictOf (result : Text) : AuthVerdict :=
  ((VERDICTS.find? fun known => known.1 = lower result).map Prod.snd).getD .unknown

/-- The method and its result. A result of another method version counts as unknown. -/
def readSpec (text : Text) : Option (Spec × Text) :=
  (readWord text).bind fun (method, afterMethod) =>
    (readVersion afterMethod).bind fun (version, afterVersion) =>
      if afterVersion.head? ≠ some EQUALS then none
      else
        (readWord afterVersion.tail).map fun (result, rest) =>
          (⟨lower method, if version then verdictOf lower result else .unknown⟩, rest)

/-- A property name: a ptype with a dot and a property, or a bare word. -/
def readName (text : Text) : Option (Text × Text) :=
  (readWord text).bind fun (ptype, rest) =>
    if rest.head? ≠ some DOT then some (ptype, rest)
    else (readWord rest.tail).map fun (property, rest) => (ptype ++ DOT :: property, rest)

/-- Where a value ends. -/
def valueEnds (text : Text) : Bool := text.head?.all isSpace

/-- One piece more of a value. -/
def valueTurn (value text : Text) : Turn Text UInt16 :=
  match text with
  | [] => none
  | c :: rest =>
    if c = QUOTE then (readQuoted text).map fun (piece, rest) => (value ++ piece, rest)
    else some (value ++ [c], rest)

/-- A property value: quoted strings and any other units up to the next white space. -/
def readValue (text : Text) : Option (Text × Text) :=
  (readLoop valueEnds valueTurn [] text).bind fun (value, rest) =>
    if rest.length = text.length then none else some (value, rest)

/-- One property more: the first value per name is kept. -/
def propertyTurn (properties : List (Text × Text)) (text : Text) :
    Turn (List (Text × Text)) UInt16 :=
  (readName text).bind fun (name, afterName) =>
    if afterName.head? ≠ some EQUALS then none
    else
      (readValue (skipSpace afterName.tail)).map fun (value, rest) =>
        let key := lower name
        (if properties.any fun p => p.1 = key then properties else properties ++ [(key, value)],
          skipSpace rest)

/-- The properties that fill the rest of a clause. -/
def readProperties (text : Text) : Option (List (Text × Text)) :=
  (readLoop List.isEmpty (propertyTurn lower) [] text).map Prod.fst

/-- A text without a dot at its end. -/
def closed (text : Text) : Text := if text.getLast? = some DOT then text.dropLast else text

/-- The value of a name. -/
def valueOf (properties : List (Text × Text)) (name : Text) : Option Text :=
  (properties.find? fun p => p.1 = name).map Prod.snd

def readClause (text : Text) : Option Clause :=
  (readSpec lower text).bind fun (spec, rest) =>
    (readProperties lower rest).map fun properties =>
      { spec with fromDomain := (valueOf properties FROM).map fun domain => closed (lower domain) }

/-- A unit with an ASCII letter in lower case. -/
def asciiLower (c : UInt16) : UInt16 := if 65 ≤ c ∧ c ≤ 90 then c + 32 else c

/-- The bare `none` of a header without results. -/
def isNoResult (clause : Text) : Bool :=
  let word := (skipSpace clause).takeWhile isBareChar
  word.map asciiLower = latin "none" && skipSpace ((skipSpace clause).dropWhile isBareChar) = []

/-- Every clause but the bare `none`; `none` when one breaks the grammar, when none is left to read
or when a bound is passed. -/
def readClauses (texts : List Text) : Option (List Clause) :=
  if texts.length = 0 ∨ texts.length > AUTH_RESULTS_MAX_CLAUSES then none
  else (texts.filter fun clause => !isNoResult clause).mapM (readClause lower)

def verdictsOf (clauses : List Clause) (method : Text) : List AuthVerdict :=
  (clauses.filter fun clause => clause.method = method).map fun clause => clause.verdict

def best (clauses : List Clause) (method : Text) : AuthVerdict :=
  (BEST_FIRST.find? fun verdict => verdict ∈ verdictsOf clauses method).getD .none

/-- One DMARC check covers a message: a header with two dmarc clauses is not read. -/
def summarize (server : Option Text) (clauses : List Clause) : Option AuthenticationResults :=
  let dmarcs := clauses.filter fun clause => clause.method = latin "dmarc"
  if dmarcs.length ≥ 2 then none
  else
    some
      { server
        spf := best clauses (latin "spf")
        dkim := best clauses (latin "dkim")
        dmarc := (dmarcs.head?.map fun clause => clause.verdict).getD .none
        dmarcFrom := dmarcs.head?.bind Clause.fromDomain }

/-- Whether a header keeps the bound on its size. -/
def Bounded (header : Text) : Prop :=
  header.length ≤ AUTH_RESULTS_MAX_BYTES ∧ byteLength header ≤ AUTH_RESULTS_MAX_BYTES

instance (header : Text) : Decidable (Bounded header) := inferInstanceAs (Decidable (_ ∧ _))

/-- The header as the receiving server wrote it; `none` for one that cannot be read or passes a
bound. -/
def parseAuthenticationResults (header : Text) : Option AuthenticationResults :=
  if ¬ Bounded header then none
  else
    (splitClauses (unfold header)).bind fun pieces =>
      (readHead pieces).bind fun head =>
        (readClauses lower head.clauses).bind fun clauses => summarize head.server clauses

end

end Huliho.AuthResults
