import Huliho.Drafts.Draft

/-!
# The message of a draft

`message/build.rs`: what the mail builder is given for a draft, field by field and part by part. A
blob the map lacks reads as empty. The base64 of some bytes is another library's: `base64`.
-/

namespace Huliho.Drafts

open Session

abbrev Bytes := List UInt8

/-- A Content-Type or a Content-Disposition: its value and its attributes. -/
structure ContentType where
  cType : Text
  attributes : List (Text × Text)
deriving DecidableEq

def ContentType.attribute (contentType : ContentType) (name value : Text) : ContentType :=
  { contentType with attributes := contentType.attributes ++ [(name, value)] }

/-- The headers of a part. -/
structure MimeHead where
  contentType : ContentType
  disposition : Option ContentType
  cid : Option Text
deriving DecidableEq

/-- A part as the mail builder takes it: text, bytes with a transfer encoding where one is chosen,
or parts. -/
inductive MimePart
  | text (head : MimeHead) (text : Text)
  | binary (head : MimeHead) (bytes : Bytes) (encoding : Option Text)
  | multipart (head : MimeHead) (parts : List MimePart)

/-- A message as the mail builder takes it. -/
structure MessageBuilder where
  messageId : Text
  date : Int
  from_ : Option (List Address)
  sender : Option (List Address)
  replyTo : Option (List Address)
  to_ : Option (List Address)
  cc : Option (List Address)
  bcc : Option (List Address)
  subject : Option Text
  inReplyTo : Option (List Text)
  references : Option (List Text)
  body : MimePart

/-! ## The parts -/

def BASE64_LINE : Nat := 76
def MAX_LINE_BYTES : Nat := 998

def LF : UInt8 := 10
def CR : UInt8 := 13

/-- A body value with every line end a CRLF. -/
def crlf : Text → Text
  | [] => []
  | [c] => if c = '\r' ∨ c = '\n' then ['\r', '\n'] else [c]
  | c :: d :: rest =>
    if c = '\r' then '\r' :: '\n' :: if d = '\n' then crlf rest else crlf (d :: rest)
    else if c = '\n' then '\r' :: '\n' :: crlf (d :: rest)
    else c :: crlf (d :: rest)

/-- Whether text holds neither a NUL nor a CR outside a line end. -/
def sendableText : Bytes → Bool
  | [] => true
  | byte :: rest => byte ≠ 0 && (byte ≠ CR || rest.head? = some LF) && sendableText rest

/-- Whether a line feed stands without its CR; `before` is the byte before the bytes. -/
def hasBareLineFeed (before : UInt8) : Bytes → Bool
  | [] => false
  | byte :: rest => (byte = LF && before ≠ CR) || hasBareLineFeed byte rest

/-- Whether the bytes go on the wire as they are: no NUL, every line end a CRLF and no line past the
limit. -/
def wholeLines (bytes : Bytes) : Bool :=
  !bytes.contains 0 && sendableText bytes && !hasBareLineFeed 0 bytes &&
    (bytes.splitOn LF).all fun line => line.length ≤ MAX_LINE_BYTES + 1

/-- A text in lines of base64, for a number of lines that is enough. -/
def chunked : Nat → Text → Text
  | 0, _ => []
  | lines + 1, text =>
    if text = [] then []
    else text.take BASE64_LINE ++ ['\r', '\n'] ++ chunked lines (text.drop BASE64_LINE)

def MESSAGE : Text := "message/".toList

section
variable (base64 : Bytes → Text)

def base64Lines (bytes : Bytes) : Bytes :=
  let encoded := base64 bytes
  (chunked encoded.length encoded).map fun c => c.toNat.toUInt8

/-- A part by its bytes. -/
def blob (head : MimeHead) (bytes : Bytes) : MimePart :=
  if MESSAGE.isPrefixOf head.contentType.cType && wholeLines bytes then
    .binary head bytes (some (if bytes.all (· < 128) then "7bit".toList else "8bit".toList))
  else if TEXT.isPrefixOf head.contentType.cType && !sendableText bytes then
    .binary head (base64Lines base64 bytes) (some "base64".toList)
  else .binary head bytes none

end

/-- The headers of a part: its name stands in the disposition, in the type where the object names no
disposition. -/
def mimeHead (head : Head) (value : Bool) : MimeHead :=
  let contentType : ContentType := ⟨head.mediaType, []⟩
  let contentType :=
    if value then contentType.attribute "charset".toList "utf-8".toList else contentType
  let contentType := head.parameters.foldl (fun t p => t.attribute p.1 p.2) contentType
  let contentType :=
    match head.name, head.disposition with
    | some name, none => contentType.attribute "name".toList name
    | _, _ => contentType
  let disposition := head.disposition.map fun kind =>
    match head.name with
    | some name => (⟨kind, []⟩ : ContentType).attribute "filename".toList name
    | none => ⟨kind, []⟩
  ⟨contentType, disposition, head.cid⟩

section
variable (base64 : Bytes → Text) (blobs : Text → Option Bytes)

mutual

/-- One part of the tree with its Content-Type, its disposition and its Content-ID. -/
def mime : Part → MimePart
  | .value head text => .text (mimeHead head true) (crlf text)
  | .blob head id => blob base64 (mimeHead head false) ((blobs id).getD [])
  | .parts head parts => .multipart (mimeHead head false) (mimes parts)

def mimes : List Part → List MimePart
  | [] => []
  | part :: parts => mime part :: mimes parts

end

/-- A list that holds something. -/
def filled {α : Type} : Option (List α) → Option (List α)
  | some [] => none
  | list => list

/-- What the mail builder writes. -/
def build (draft : Draft) (stamp : Stamp) : MessageBuilder :=
  let personal := draft.personal
  { messageId := stamp.messageId
    date := stamp.date
    from_ := filled personal.from_
    sender := filled personal.sender
    replyTo := filled personal.replyTo
    to_ := filled personal.to_
    cc := filled personal.cc
    bcc := filled personal.bcc
    subject := personal.subject
    inReplyTo := filled personal.inReplyTo
    references := filled personal.references
    body := mime base64 blobs draft.body }

end

end Huliho.Drafts
