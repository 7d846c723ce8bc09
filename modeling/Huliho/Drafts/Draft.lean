import Huliho.Session.Command

/-!
# A draft

`message/draft.rs`: a draft after its create object was read, the tree of its body and what the row
of its message holds. A part is told apart by what it holds; what every part has is its head.

How a text part becomes a preview is the mail parser's: `text` says what the start of a part of a
kind gives.
-/

namespace Huliho.Drafts

open Session

structure Address where
  name : Option Text
  email : Text
deriving DecidableEq

/-- The body part a preview is read from. -/
structure PreviewPart where
  path : Text
  html : Bool
  bytes : Nat
deriving DecidableEq

/-- The personal fields of an email. -/
structure Personal where
  from_ : Option (List Address) := none
  to_ : Option (List Address) := none
  cc : Option (List Address) := none
  bcc : Option (List Address) := none
  replyTo : Option (List Address) := none
  sender : Option (List Address) := none
  subject : Option Text := none
  messageId : Option (List Text) := none
  inReplyTo : Option (List Text) := none
  references : Option (List Text) := none
  preview : Option Text := none
  previewPart : Option PreviewPart := none
deriving DecidableEq

/-- Every message id the header names: its own, then the ones it answers and refers to. -/
def Personal.namedIds (personal : Personal) : List Text :=
  personal.messageId.getD [] ++ personal.inReplyTo.getD [] ++ personal.references.getD []

/-! ## The tree -/

/-- What a part has whatever it holds. -/
structure Head where
  mediaType : Text
  parameters : List (Text × Text)
  name : Option Text
  disposition : Option Text
  cid : Option Text
deriving DecidableEq

/-- One part of a draft's tree: text from `bodyValues`, the bytes behind a blob id or other parts.
-/
inductive Part
  | value (head : Head) (text : Text)
  | blob (head : Head) (id : Text)
  | parts (head : Head) (parts : List Part)

def TEXT : Text := "text/".toList
def IMAGE : Text := "image/".toList
def PLAIN : Text := "text/plain".toList
def HTML : Text := "text/html".toList
def RELATED : Text := "multipart/related".toList
def ATTACHMENT : Text := "attachment".toList

/-- What a leaf counts as outside or inside a multipart/related body. -/
def Head.attaches (head : Head) (related : Bool) : Bool :=
  let text := TEXT.isPrefixOf head.mediaType
  let inlineImage := related && IMAGE.isPrefixOf head.mediaType
  head.disposition = some ATTACHMENT || !(text || inlineImage)

mutual

/-- Every leaf that is not text and every part sent as an attachment count, outside the inline
images of a multipart/related body. -/
def Part.attaches (related : Bool) : Part → Bool
  | .parts head parts => attachesAny (head.mediaType = RELATED) parts
  | .value head _ => head.attaches related
  | .blob head _ => head.attaches related

def attachesAny (related : Bool) : List Part → Bool
  | [] => false
  | part :: parts => part.attaches related || attachesAny related parts

end

mutual

/-- The first text of a type from `bodyValues`, a part sent as an attachment never. -/
def Part.firstText (wanted : Text) : Part → Option Text
  | .value head text =>
    if head.mediaType = wanted ∧ head.disposition ≠ some ATTACHMENT then some text else none
  | .blob _ _ => none
  | .parts _ parts => firstTextEach wanted parts

def firstTextEach (wanted : Text) : List Part → Option Text
  | [] => none
  | part :: parts => (part.firstText wanted).or (firstTextEach wanted parts)

end

/-! ## The draft -/

/-- A draft as its create object gives it. -/
structure Draft where
  mailbox : Text
  keywords : List Text
  personal : Personal
  body : Part

/-- What the bridge stamps on one message: the Message-ID without its angle brackets and the moment
it was built, in seconds since the epoch. -/
structure Stamp where
  messageId : Text
  date : Int
deriving DecidableEq

/-- The two kinds of text a preview is read from. -/
inductive Kind
  | plain
  | html
deriving DecidableEq

def PREVIEW_HTML_PART_BYTES : Nat := 64 * 1024

/-- The whole characters at the front that fit a number of octets. -/
def start : Nat → Text → Text
  | _, [] => []
  | cap, c :: rest => if c.utf8Size ≤ cap then c :: start (cap - c.utf8Size) rest else []

namespace Draft

variable (draft : Draft)

/-- Whether the message counts as holding an attachment. -/
def hasAttachment : Bool := draft.body.attaches false

/-- The text its preview is read from: the first plain one, else the first HTML. -/
def found : Option (Kind × Text) :=
  ((draft.body.firstText PLAIN).map fun value => (.plain, value)).or
    ((draft.body.firstText HTML).map fun value => (.html, value))

variable (text : Kind → Text → Text)

def preview : Text :=
  match draft.found with
  | none => []
  | some (kind, value) => text kind (start PREVIEW_HTML_PART_BYTES value)

/-- The personal fields of the row: the header's and the preview. -/
def stamped (stamp : Stamp) : Personal :=
  { draft.personal with messageId := some [stamp.messageId], preview := some (draft.preview text) }

end Draft

/-- What the store holds of one message. -/
structure EmailFacts where
  keywords : List Text
  size : Nat
  receivedAt : Int
  sentAt : Option Int
  hasAttachment : Bool
  personal : Personal
deriving DecidableEq

/-- The row the bridge writes at once, for a message of a size. -/
def Draft.row (draft : Draft) (text : Kind → Text → Text) (stamp : Stamp) (size : Nat) :
    EmailFacts :=
  { keywords := draft.keywords
    size := size
    receivedAt := stamp.date
    sentAt := some stamp.date
    hasAttachment := draft.hasAttachment
    personal := draft.stamped text stamp }

/-- The keyed hash of every message id the header names, each once, which a row threads by. -/
def namedHashes {Hash : Type} [DecidableEq Hash] (keyedHash : Text → Hash) (personal : Personal) :
    List Hash :=
  personal.namedIds.foldl
    (fun named id => if keyedHash id ∈ named then named else named ++ [keyedHash id]) []

end Huliho.Drafts
