import Huliho.Lib.Record

/-!
# What a `Mailbox/set` asks and stands on

`runtime/folders.rs`, `session/mailbox.rs`, `mailboxes/rights.rs` and `folders/gmail.rs`: the rows of
an account, the objects of one call and the rules a name has to meet. The normalization of Unicode
names is a crate's, so `nfc` is a parameter wherever a name is read.

A row holds the columns the check and the work read. An id is the text it is written as.
-/

namespace Huliho.Folders

abbrev MailboxId := String

structure MailboxRow where
  id : MailboxId
  parentId : Option MailboxId
  name : String
  imapName : String
  role : Option String
  subscribed : Bool
  selectable : Bool
  store : Bool
  gmailLabel : Option String
  totalEmails : Nat
deriving DecidableEq

/-- The rows of an account as a call finds them. -/
structure MailboxSnapshot where
  rows : List MailboxRow
  /-- The synced emails of a mailbox. -/
  counts : MailboxId → Option Nat
  /-- The mailboxes whose email counts come from the memberships. -/
  done : MailboxId → Bool
  gmail : Bool
  /-- The rights a server named per mailbox, as letters. -/
  rights : MailboxId → Option String

/-- The rows by id. -/
def MailboxSnapshot.table (snapshot : MailboxSnapshot) : Record MailboxId MailboxRow :=
  snapshot.rows.foldl (fun rows row => rows.put row.id row) Table.empty

/-- One create: the name the user typed and where it goes. -/
structure Create where
  creationId : String
  name : String
  /-- An id or a creation id after its mark; none for the top level. -/
  parent : Option String
  /-- What the create sets its role to, none inside for no role. -/
  role : Option (Option String)
  subscribed : Option Bool
deriving DecidableEq

/-- One update: every property it names. -/
structure Update where
  id : String
  name : Option String
  parent : Option (Option String)
  role : Option (Option String)
  subscribed : Option Bool
deriving DecidableEq

/-- What one call asks. -/
structure Ask where
  creates : List Create
  updates : List Update
  destroys : List String
  removeEmails : Bool

/-- Why one object was not written. -/
inductive Refusal
  | forbidden
  | notFound
  | invalidProperties (properties : List String)
  | mailboxHasChild
  | mailboxHasEmail
  | willDestroy
  | serverFail
  | serverUnavailable
deriving DecidableEq

def invalid (property : String) : Refusal := .invalidProperties [property]

/-- The creation id a reference names, if it is one. -/
def creationIdOf (reference : String) : Option String :=
  match reference.toList with
  | '#' :: rest => some (String.ofList rest)
  | _ => none

/-! ## Rights -/

def INBOX : String := "INBOX"

/-- A text with its ASCII letters in lower case. -/
def asciiLower (text : String) : String := String.ofList (text.toList.map Char.toLower)

def isInboxName (name : String) : Bool := asciiLower name = asciiLower INBOX

/-- The rights the check asks for. -/
inductive Right
  | createChild
  | rename
  | delete
deriving DecidableEq

/-- The letter a right takes. -/
def Right.letter : Right → Char
  | .createChild => 'k'
  | .rename => 'x'
  | .delete => 'x'

/-- A mailbox Gmail keeps for itself. -/
def MailboxRow.isGmailOwn (row : MailboxRow) : Bool :=
  row.store || row.gmailLabel.any (fun label => label.toList.head? = some '\\') || !row.selectable

/-- Whether the user holds a right on a row. -/
def MailboxSnapshot.may (snapshot : MailboxSnapshot) (row : MailboxRow) (right : Right) : Bool :=
  let held := (snapshot.rights row.id).all fun letters => right.letter ∈ letters.toList
  let fixed := snapshot.gmail && row.isGmailOwn
  let editable := held && !fixed && !isInboxName row.imapName && row.selectable
  match right with
  | .createChild => held && !fixed
  | .rename => editable
  | .delete => editable && row.role.isNone

/-! ## Names -/

/-- The bytes of UTF-8 one mailbox name holds at most. -/
def MAX_MAILBOX_NAME_BYTES : Nat := 255

/-- The bytes of a wire name, its parents counted. -/
def MAX_WIRE_NAME_BYTES : Nat := 4096

/-- Why a name the user typed cannot name a mailbox. -/
inductive NameError
  | empty
  | tooLong
  | control
  | delimiter
  | edgeSpace
  | flat
deriving DecidableEq

def isControl (c : Char) : Bool := c.toNat < 32 || (127 ≤ c.toNat && c.toNat < 160)

/-- White space of any kind. -/
def isWhitespace (c : Char) : Bool :=
  let n := c.toNat
  (9 ≤ n && n ≤ 13) || n = 32 || n = 133 || n = 160 || n = 5760 || (8192 ≤ n && n ≤ 8202) ||
    n = 8232 || n = 8233 || n = 8239 || n = 8287 || n = 12288

/-- Whether a character travels as itself. -/
def isDirect (c : Char) : Bool := 32 ≤ c.toNat && c.toNat ≤ 126 && c ≠ '&'

def MODIFIED_ALPHABET : List Char :=
  "ABCDEFGHIJKLMNOPQRSTUVWXYZabcdefghijklmnopqrstuvwxyz0123456789+,".toList

def digitOf (n : Nat) : Char := MODIFIED_ALPHABET.getD n 'A'

/-- The bytes in base64 without padding. -/
def base64 : List Nat → List Char
  | [] => []
  | [a] => [digitOf (a / 4), digitOf (a % 4 * 16)]
  | [a, b] => [digitOf (a / 4), digitOf (a % 4 * 16 + b / 16), digitOf (b % 16 * 4)]
  | a :: b :: c :: rest =>
    digitOf (a / 4) :: digitOf (a % 4 * 16 + b / 16) :: digitOf (b % 16 * 4 + c / 64) ::
      digitOf (c % 64) :: base64 rest

/-- The big-endian bytes of a character in UTF-16. -/
def utf16Bytes (c : Char) : List Nat :=
  let unit (n : Nat) := [n / 256, n % 256]
  if c.toNat < 65536 then unit c.toNat
  else
    let above := c.toNat - 65536
    unit (55296 + above / 1024) ++ unit (56320 + above % 1024)

/-- A run that does not travel as itself. -/
def flush (run : List Nat) : List Char := if run = [] then [] else '&' :: base64 run ++ ['-']

/-- A name for the wire, with the run read so far. -/
def encodeFrom (run : List Nat) : List Char → List Char
  | [] => flush run
  | c :: rest =>
    if isDirect c then flush run ++ c :: encodeFrom [] rest
    else if c = '&' then flush run ++ '&' :: '-' :: encodeFrom [] rest
    else encodeFrom (run ++ utf16Bytes c) rest

/-- A name in modified UTF-7. -/
def encode (name : String) : String := String.ofList (encodeFrom [] name.toList)

/-- The value of a digit. -/
def valueOf (c : Char) : Option Nat := MODIFIED_ALPHABET.findIdx? (· = c)

/-- The bytes of digits without padding; none where the last digit carries bits of no byte. -/
def unbase64 : List Nat → Option (List Nat)
  | [] => some []
  | [_] => none
  | [a, b] => if b % 16 = 0 then some [a * 4 + b / 16] else none
  | [a, b, c] => if c % 4 = 0 then some [a * 4 + b / 16, b % 16 * 16 + c / 4] else none
  | a :: b :: c :: d :: rest =>
    (unbase64 rest).map fun more =>
      (a * 4 + b / 16) :: (b % 16 * 16 + c / 4) :: (c % 4 * 64 + d) :: more

/-- The characters of big-endian UTF-16. -/
def fromUtf16 : List Nat → Option (List Char)
  | [] => some []
  | [_] => none
  | high :: low :: rest =>
    let unit := high * 256 + low
    if unit < 55296 ∨ 57344 ≤ unit then (fromUtf16 rest).map (Char.ofNat unit :: ·)
    else if 56320 ≤ unit then none
    else
      match rest with
      | high' :: low' :: more =>
        let second := high' * 256 + low'
        if 56320 ≤ second ∧ second < 57344 then
          (fromUtf16 more).map
            (Char.ofNat (65536 + (unit - 55296) * 1024 + (second - 56320)) :: ·)
        else none
      | _ => none

/-- The text of one shifted run; the empty run is the shift character itself. -/
def decodeRun (run : List Char) : Option (List Char) :=
  if run = [] then some ['&']
  else ((run.mapM valueOf).bind unbase64).bind fromUtf16

/-- A name from the wire, with the run read so far. A run that is not valid stays as received. -/
def decodeFrom : Option (List Char) → List Char → List Char
  | none, [] => []
  | some run, [] => '&' :: run
  | none, c :: rest => if c = '&' then decodeFrom (some []) rest else c :: decodeFrom none rest
  | some run, c :: rest =>
    if c = '-' then (decodeRun run).getD ('&' :: run ++ ['-']) ++ decodeFrom none rest
    else decodeFrom (some (run ++ [c])) rest

def decode (name : String) : String := String.ofList (decodeFrom none name.toList)

/-- Where a new name goes: under the mailbox of a wire name or at the top, and the delimiter of that
level. -/
structure Place where
  parent : Option String
  delimiter : Option Char

/-- A name the user typed, fit for a command line. -/
structure MailboxName where
  leaf : String
  wire : String

/-- The name `typed` at a place. -/
def MailboxName.new (nfc : String → String) (typed : String) (place : Place) :
    Except NameError MailboxName :=
  let leaf := nfc typed
  let encoded := encode leaf
  if leaf.toList = [] then .error .empty
  else if MAX_MAILBOX_NAME_BYTES < leaf.utf8ByteSize then .error .tooLong
  else if leaf.toList.any isControl then .error .control
  else if place.delimiter.any (fun found => found ∈ encoded.toList) then .error .delimiter
  else if leaf.toList.head?.any isWhitespace || leaf.toList.getLast?.any isWhitespace then
    .error .edgeSpace
  else
    let spelled : Except NameError String :=
      match place.parent, place.delimiter with
      | none, _ => .ok encoded
      | some parent, some delimiter => .ok (parent ++ delimiter.toString ++ encoded)
      | some _, none => .error .flat
    match spelled with
    | .error error => .error error
    | .ok wire =>
      if MAX_WIRE_NAME_BYTES < wire.utf8ByteSize then .error .tooLong else .ok ⟨leaf, wire⟩

/-- What a name the server would refuse answers. -/
def nameError : NameError → Refusal
  | .flat => invalid "parentId"
  | .empty | .tooLong | .control | .delimiter | .edgeSpace => invalid "name"

/-- Whether two white space characters stand in a row, which Gmail refuses. -/
def crowded (name : String) : Bool :=
  (name.toList.zip name.toList.tail).any fun pair => isWhitespace pair.1 && isWhitespace pair.2

/-- The UTF-16 code units of a whole path Gmail takes. -/
def MAX_PATH_UNITS : Nat := 225

/-- The bytes of UTF-8 of a whole path Gmail takes. -/
def MAX_PATH_BYTES : Nat := 255

/-- Whether a whole path, spelled as on the wire, passes what Gmail takes. -/
def pastLimit (wire : String) : Bool :=
  let path := decode wire
  MAX_PATH_BYTES < path.utf8ByteSize ||
    MAX_PATH_UNITS < (path.toList.flatMap utf16Bytes).length / 2

end Huliho.Folders
