import Huliho.Drafts.Build
import Huliho.Jmap.Keywords
import Huliho.Lib.Decimals

/-!
# The row the sync derives

`sync/headers.rs`, `sync/mapping.rs` and `sync/preview.rs`: the fields of a header, the attachment
mark of a structure and the part a preview is read from. What the header bytes say is the mail
parser's, `parseHeaders`, and `utcDate` is the date library's.
-/

namespace Huliho.Drafts

open Session

/-! ## The header -/

/-- One entry of an address field as it was parsed. -/
structure Entry where
  name : Option Text
  address : Option Text
deriving DecidableEq

/-- The value of an id field as it was parsed. -/
inductive HeaderValue
  | text (id : Text)
  | textList (ids : List Text)
  | other
deriving DecidableEq

structure DateTime where
  valid : Bool
  timestamp : Int
deriving DecidableEq

/-- A header as the mail parser reads it. -/
structure Parsed where
  from_ : Option (List Entry)
  to_ : Option (List Entry)
  cc : Option (List Entry)
  bcc : Option (List Entry)
  replyTo : Option (List Entry)
  sender : Option (List Entry)
  subject : Option Text
  messageId : Option HeaderValue
  inReplyTo : Option HeaderValue
  references : Option HeaderValue
  date : Option DateTime
deriving DecidableEq

/-- What the header bytes say. -/
structure Headers where
  personal : Personal
  sentAt : Option Int
deriving DecidableEq

/-- The addresses kept per field. -/
def MAX_KEPT_ADDRESSES : Nat := 1024

/-- The ids kept per id field. -/
def MAX_KEPT_IDS : Nat := 256

/-- The bytes of a header that are fetched. -/
def MAX_HEADER_BYTES : Nat := 64 * 1024

def entryAddress (entry : Entry) : Option Address :=
  entry.address.map fun email => ⟨entry.name.filter fun name => name ≠ [], email⟩

/-- The addresses of one field; an entry without an address is left out and a field without any
reads as absent. -/
def keptAddresses (parsed : Option (List Entry)) : Option (List Address) :=
  parsed.bind fun entries =>
    let found := (entries.filterMap entryAddress).take MAX_KEPT_ADDRESSES
    if found ≠ [] then some found else none

/-- The ids of one id field. -/
def keptIds (parsed : Option HeaderValue) : Option (List Text) :=
  parsed.bind fun value =>
    let found := match value with
      | .text id => [id]
      | .textList list => list.take MAX_KEPT_IDS
      | .other => []
    if found ≠ [] then some found else none

section
variable (parseHeaders : Bytes → Option Parsed) (utcDate : Int → Option Text)

/-- Reads the fields; bytes that hold no header give empty fields. -/
def parse (bytes : Bytes) : Headers :=
  match parseHeaders bytes with
  | none => ⟨{}, none⟩
  | some message =>
    { personal :=
        { from_ := keptAddresses message.from_
          to_ := keptAddresses message.to_
          cc := keptAddresses message.cc
          bcc := keptAddresses message.bcc
          replyTo := keptAddresses message.replyTo
          sender := keptAddresses message.sender
          subject := message.subject
          messageId := keptIds message.messageId
          inReplyTo := keptIds message.inReplyTo
          references := keptIds message.references }
      sentAt :=
        ((message.date.filter DateTime.valid).map DateTime.timestamp).filter fun timestamp =>
          (utcDate timestamp).isSome }

end

/-! ## The structure -/

/-- A part that holds content. -/
structure Leaf where
  mediaType : Text
  subtype : Text
  bytes : Nat
  disposition : Option Text
deriving DecidableEq

/-- One part of a MIME tree as BODYSTRUCTURE describes it, every media word in lower case. -/
inductive BodyPart
  | leaf (leaf : Leaf)
  | multipart (subtype : Text) (parts : List BodyPart)

/-- Whether the sender marked the part as an attachment. -/
def Leaf.isAttachment (leaf : Leaf) : Bool := leaf.disposition = some ATTACHMENT

/-- A `text/plain` or `text/html` part that is not an attachment. -/
def Leaf.isTextBody (leaf : Leaf) : Bool :=
  leaf.mediaType = "text".toList &&
    (leaf.subtype = "plain".toList || leaf.subtype = "html".toList) && !leaf.isAttachment

mutual

/-- Every leaf that is not text and every part sent as an attachment count, outside the inline
images of a multipart/related body. -/
def BodyPart.attaches (related : Bool) : BodyPart → Bool
  | .multipart subtype parts => bodyAttachesAny (subtype = "related".toList) parts
  | .leaf leaf =>
    leaf.isAttachment ||
      (leaf.mediaType ≠ "text".toList && !(related && leaf.mediaType = "image".toList))

def bodyAttachesAny (related : Bool) : List BodyPart → Bool
  | [] => false
  | part :: parts => part.attaches related || bodyAttachesAny related parts

end

/-- A part number as a FETCH names it. -/
def pathOf : List Nat → Text
  | [] => []
  | [n] => decimal n
  | n :: m :: rest => decimal n ++ '.' :: pathOf (m :: rest)

/-- What a preview keeps of a text leaf under its part number. -/
def previewPart (number : List Nat) (leaf : Leaf) : PreviewPart :=
  ⟨pathOf number, leaf.subtype = "html".toList, leaf.bytes⟩

mutual

/-- The text leaves in the order of the message, each under its part number. -/
def walk (number : List Nat) : BodyPart → List PreviewPart
  | .multipart _ parts => walkEach number 0 parts
  | .leaf leaf => if leaf.isTextBody then [previewPart number leaf] else []

def walkEach (number : List Nat) (index : Nat) : List BodyPart → List PreviewPart
  | [] => []
  | part :: parts => walk (number ++ [index + 1]) part ++ walkEach number (index + 1) parts

end

/-- The part a preview is read from: the first plain text leaf, else the first HTML leaf. -/
def previewed (structure_ : BodyPart) : Option PreviewPart :=
  let leaves := walk [] structure_
  let first := fun html => leaves.find? fun leaf => leaf.html = html
  (first false).or (first true)

/-! ## The message -/

/-- One message as a UID FETCH answered it, on an account that is no Gmail one. -/
structure FetchedMessage where
  flags : List Text
  receivedAt : Int
  size : Nat
  header : Bytes
  structure_ : Option BodyPart

def eqIgnoreAsciiCase (a b : Text) : Bool := a.map Char.toLower = b.map Char.toLower

/-- The header fields asked for, cut at `MAX_HEADER_BYTES`. -/
def cut (header : Bytes) : Bytes := header.take MAX_HEADER_BYTES

def keyword (flag : Text) : Option Text :=
  match Jmap.SYSTEM_KEYWORDS.find? fun known => eqIgnoreAsciiCase flag known.1 with
  | some known => some known.2
  | none => Jmap.canonicalKeyword flag

/-- The keywords of a message. -/
def keywords (flags : List Text) : List Text := flags.filterMap keyword

/-- Dovecot's two flags win where present; otherwise the structure decides and a message without one
has no mark. -/
def hasAttachment (flags : List Text) (structure_ : Option BodyPart) : Bool :=
  if flags.any fun flag => eqIgnoreAsciiCase flag "$HasAttachment".toList then true
  else if flags.any fun flag => eqIgnoreAsciiCase flag "$HasNoAttachment".toList then false
  else structure_.any fun part => part.attaches false

section
variable (parseHeaders : Bytes → Option Parsed) (utcDate : Int → Option Text)

/-- The facts of one message; `none` for one flagged `\Deleted`. -/
def email (message : FetchedMessage) : Option EmailFacts :=
  if message.flags.any fun flag => eqIgnoreAsciiCase flag "\\Deleted".toList then none
  else
    let headers := parse parseHeaders utcDate message.header
    some
      { keywords := keywords message.flags
        size := message.size
        receivedAt := message.receivedAt
        sentAt := headers.sentAt
        hasAttachment := hasAttachment message.flags message.structure_
        personal := { headers.personal with previewPart := message.structure_.bind previewed } }

end

end Huliho.Drafts
