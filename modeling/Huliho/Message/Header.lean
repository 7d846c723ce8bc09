import Mathlib.Data.String.Basic
import Huliho.Lib.Lines

/-!
# The header block of a message on its way out

`message/header.rs`: the copy for the wire leaves every Bcc field behind, the copy for the Sent
mailbox keeps it, and both carry the moment of the send as their one Date. A send goes only where
the recipient reader names the fields of the wire copy as it names the draft's.

A message is its bytes. The loops over line ends are loops over the `lines` of the text. The two
third-party functions the code calls — the names the recipient reader's parser finds and the text
of a date — are the fields of a `Reader`.
-/

namespace Huliho.Message

abbrev Octets := List UInt8

/-- The bytes of an ASCII text. -/
def ascii (text : String) : Octets := text.toList.map fun c => UInt8.ofNat c.toNat

def newline : UInt8 := 10
def colon : UInt8 := 58

def isAsciiWhitespace (byte : UInt8) : Bool :=
  byte = 32 ∨ byte = 9 ∨ byte = 10 ∨ byte = 12 ∨ byte = 13

def toAsciiLowercase (byte : UInt8) : UInt8 := if 65 ≤ byte ∧ byte ≤ 90 then byte + 32 else byte

/-- The fields no copy on the wire carries, lowercased. -/
def BLIND : List Octets := [ascii "bcc", ascii "resent-bcc"]

/-- The field the send stamps, lowercased. -/
def DATE : Octets := ascii "date"

/-- A field name as the parser answers it: the three the check looks for, and any other. -/
inductive HeaderName
  | bcc
  | resentBcc
  | date
  | other (name : String)
deriving DecidableEq, Repr

/-- What the code calls of its two libraries. -/
structure Reader where
  /-- The names of the fields the recipient reader's parser finds, in order. -/
  names : Octets → List HeaderName
  /-- A moment as a Date field writes it. -/
  rfc822 : Int → Octets

/-- Why a message does not go out. -/
inductive Unsendable
  | invalidEmail (property : String)
deriving DecidableEq, Repr

/-- The two copies a send writes of one message. -/
structure Forms where
  wire : Octets
  sent : Octets
deriving DecidableEq, Repr

/-! ## Reading the header -/

/-- The line that ends the header block. -/
def emptyLine (line : Octets) : Bool := line = ascii "\r\n" ∨ line = ascii "\n"

/-- The header block and what follows it, the empty line included; a message without an empty line
is all header. -/
def split (message : Octets) : Octets × Octets :=
  let cut := (lines newline message).span fun line => !emptyLine line
  (cut.1.flatten, cut.2.flatten)

/-- A line that opens with white space continues the field before it. -/
def folded (line : Octets) : Bool := line.head?.any fun byte => byte = 32 ∨ byte = 9

/-- The fields so far and the one that is read. -/
def readLine (read : List Octets × Octets) (line : Octets) : List Octets × Octets :=
  if !folded line ∧ read.2 ≠ [] then (read.1 ++ [read.2], line) else (read.1, read.2 ++ line)

/-- The fields of a header block, each with its folded lines. -/
def fields (header : Octets) : List Octets :=
  let read := (lines newline header).foldl readLine ([], [])
  if read.2 ≠ [] then read.1 ++ [read.2] else read.1

/-- The loop of `nameOf` from the name it has so far. -/
def nameFrom (name : Octets) : Octets → Option Octets
  | [] => none
  | byte :: line =>
    if byte = colon then if name = [] then nameFrom name line else some name
    else if byte = newline then none
    else if isAsciiWhitespace byte then nameFrom name line
    else nameFrom (name ++ [toAsciiLowercase byte]) line

/-- The lowercased name of one line, where a colon follows it. -/
def nameOf (line : Octets) : Option Octets := nameFrom [] line

/-- Whether the field carries one of the names, read as the recipient reader reads one: colons
before it and all white space dropped, case left aside, up to the colon after it; a line without
one yields to the next. -/
def named (field : Octets) (names : List Octets) : Bool :=
  ((lines newline field).findSome? nameOf).any fun name => names.contains name

/-! ## Writing the copies -/

/-- A field that lacks its line end gets one. -/
def terminated (field : Octets) : Octets :=
  if field.getLast? = some newline then field else field ++ ascii "\r\n"

/-- The text so far and whether it is dated. -/
def rewriteField (stamp : Octets) (wire : Bool) (written : Octets × Bool) (field : Octets) :
    Octets × Bool :=
  if named field [DATE] then
    if written.2 then written else (written.1 ++ stamp, true)
  else if wire ∧ named field BLIND then written
  else (written.1 ++ terminated field, written.2)

def rewritten (fields : List Octets) (body stamp : Octets) (wire : Bool) : Octets :=
  let dated := !fields.any fun field => named field [DATE]
  (fields.foldl (rewriteField stamp wire) (if dated then stamp else [], dated)).1 ++ body

/-- The Date field of a send. -/
def stampOf (reader : Reader) (date : Int) : Octets :=
  ascii "Date: " ++ reader.rfc822 date ++ ascii "\r\n"

/-- Both copies of the message. The Date takes the place of the first Date field, or the top where
the message has none. -/
def forms (reader : Reader) (message : Octets) (date : Int) : Forms :=
  let cut := split message
  let fields := fields cut.1
  let stamp := stampOf reader date
  ⟨rewritten fields cut.2 stamp true, rewritten fields cut.2 stamp false⟩

/-- Whether the name is one no wire copy carries. -/
def blind (name : HeaderName) : Bool := name = .bcc ∨ name = .resentBcc

/-- Whether the name is the field the send stamps. -/
def dated (name : HeaderName) : Bool := name = .date

/-- Both copies, where the parser names the fields of the wire copy as it names the draft's, in
order, Bcc, Resent-Bcc and Date aside, with one Date and no Bcc among them. -/
def sendable (reader : Reader) (message : Octets) (date : Int) : Except Unsendable Forms :=
  let forms := forms reader message date
  let draft := reader.names message
  let wire := reader.names forms.wire
  let kept := draft.filter fun name => !blind name && !dated name
  let agreed := !wire.any blind && wire.countP dated == 1 &&
    wire.filter (fun name => !dated name) == kept
  if agreed then .ok forms else .error (.invalidEmail "headers")

end Huliho.Message
