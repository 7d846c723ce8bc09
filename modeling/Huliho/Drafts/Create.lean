import Huliho.Bodies.Pass
import Huliho.Drafts.Draft
import Huliho.Jmap.Keywords

/-!
# Reading a create

`jmap/email_set/create.rs` and its `values.rs`: one create of `Email/set` read into a draft. What is
read goes along with the paths refused so far, the parts counted and the body values no part has
taken; a create is read where no path was refused.
-/

namespace Huliho.Drafts

open Session Json

/-! ## Values -/

def MAX_ADDRESS_BYTES : Nat := 254
def MAX_LABEL_BYTES : Nat := 63
def MIN_DOMAIN_LABELS : Nat := 2
def LOCAL_SPECIALS : List Char := ['<', '>', '(', ')', '[', ']', ',', ';', ':', '\\', '"']

/-- The Content-Type parameters a part may declare. -/
def PARAMETERS : List Text := ["charset".toList, "format".toList, "delsp".toList]

/-- The two dispositions a part may give. -/
def DISPOSITIONS : List Text := [ATTACHMENT, "inline".toList]

/-- The addresses one field may hold. -/
def MAX_ADDRESSES : Nat := 1024

/-- The ids one id field may hold. -/
def MAX_MESSAGE_IDS : Nat := 256

def MAX_ID_BYTES : Nat := 512
def MAX_TOKEN_BYTES : Nat := 127

/-- What stands in a token beside letters and digits. -/
def TOKEN_MARKS : List Char :=
  "!#$%&'*+-.^_`|~".toList

/-- A text cut at the first mark. -/
def splitOnce (mark : Char) (text : Text) : Option (Text × Text) :=
  match text.dropWhile (· ≠ mark) with
  | [] => none
  | _ :: rest => some (text.takeWhile (· ≠ mark), rest)

/-- One label of a domain: letters, digits and inner hyphens in ASCII. -/
def label (text : Text) : Bool :=
  text ≠ [] && byteLength text ≤ MAX_LABEL_BYTES && text.head? ≠ some '-' &&
    text.getLast? ≠ some '-' && text.all fun c => c.isAlphanum || c = '-'

/-- Whether the text is one address the bridge writes into a header. -/
def fitsAddress (address : Text) : Bool :=
  if byteLength address > MAX_ADDRESS_BYTES then false
  else
    match splitOnce '@' address with
    | none => false
    | some (local_, domain) =>
      let plainLocal := (local_.splitOn '.').all fun atom =>
        atom ≠ [] && atom.all fun c => isAsciiGraphic c && !LOCAL_SPECIALS.contains c
      let named := !domain.all fun c => c.isDigit || c = '.'
      let labels := domain.splitOn '.'
      plainLocal && named && MIN_DOMAIN_LABELS ≤ labels.length && labels.all label

/-- A string a header carries: no CR, LF or NUL. -/
def headerText (value : Json) : Option Text :=
  value.asStr.bind fun text =>
    if text.toList.any fun c => c = '\r' || c = '\n' || c.toNat = 0 then none else some text.toList

def address (value : Json) : Option Address :=
  value.asObject.bind fun entry =>
    if entry.all fun field => field.1 = "name" || field.1 = "email" then
      ((lookup entry "email").bind asStr).bind fun email =>
        if fitsAddress email.toList then
          match lookup entry "name" with
          | none => some ⟨none, email.toList⟩
          | some .null => some ⟨none, email.toList⟩
          | some name => (headerText name).map fun name => ⟨some name, email.toList⟩
        else none
    else none

/-- An address list; every address fits one header entry. -/
def addresses (value : Json) : Option (List Address) :=
  value.asArray.bind fun list => if list.length ≤ MAX_ADDRESSES then list.mapM address else none

/-- One id: printable ASCII without a space or an angle bracket. -/
def id (text : Text) : Option Text :=
  if text ≠ [] ∧ byteLength text ≤ MAX_ID_BYTES ∧
      text.all fun c => isAsciiGraphic c && c ≠ '<' && c ≠ '>' then some text
  else none

/-- An id field: the ids without their angle brackets. -/
def ids (value : Json) : Option (List Text) :=
  value.asArray.bind fun list =>
    if list.length ≤ MAX_MESSAGE_IDS then
      list.mapM fun item => item.asStr.bind fun text => id text.toList
    else none

def disposition (value : Json) : Option Text :=
  value.asStr.bind fun kind => if DISPOSITIONS.contains kind.toList then some kind.toList else none

/-- A token of a media type or a parameter value in lower case. -/
def token (text : Text) : Option Text :=
  if text ≠ [] ∧ byteLength text ≤ MAX_TOKEN_BYTES ∧
      text.all fun c => c.isAlphanum || TOKEN_MARKS.contains c then some (text.map Char.toLower)
  else none

/-- `type/subtype` in lower case. -/
def mediaType (text : Text) : Option Text :=
  (splitOnce '/' text).bind fun (kind, subtype) =>
    (token kind).bind fun kind => (token subtype).map fun subtype => kind ++ '/' :: subtype

/-- One parameter of the fixed set. -/
def parameter (piece : Text) : Option (Text × Text) :=
  (splitOnce '=' piece).bind fun (name, value) =>
    (token name).bind fun name =>
      if PARAMETERS.contains name then (token value).map fun value => (name, value) else none

/-- The raw form of `header:Content-Type`: the type, then parameters of the fixed set as tokens. -/
def rawContentType (raw : Text) : Option (Text × List (Text × Text)) :=
  let pieces := (raw.splitOn ';').map Bodies.trim
  (pieces.head?.bind mediaType).bind fun mediaType =>
    (pieces.tail.mapM parameter).map fun parameters => (mediaType, parameters)

/-- The text of one `EmailBodyValue`; its two flags are false or absent. -/
def bodyValue (entry : Json) : Option Text :=
  entry.asObject.bind fun entry =>
    let unset := fun flag =>
      match lookup entry flag with
      | none => true
      | some (.bool false) => true
      | _ => false
    if (entry.all fun field => field.1 ∈ ["value", "isEncodingProblem", "isTruncated"]) &&
        unset "isEncodingProblem" && unset "isTruncated" then
      ((lookup entry "value").bind asStr).bind fun text =>
        if text.toList.any fun c => c.toNat = 0 then none else some text.toList
    else none

/-! ## Reading -/

/-- The properties a create may give. -/
def PROPERTIES : List String :=
  ["mailboxIds", "keywords", "from", "sender", "replyTo", "to", "cc", "bcc", "subject", "inReplyTo",
    "references", "bodyStructure", "bodyValues"]

/-- The properties a part may give. -/
def PART_PROPERTIES : List String :=
  ["partId", "blobId", "type", "header:Content-Type", "charset", "size", "name", "disposition",
    "cid", "subParts"]

/-- The keywords a create may store: the four system flags. -/
def STORABLE_KEYWORDS : List Text :=
  ["$seen".toList, "$flagged".toList, "$answered".toList, "$draft".toList]

def CHARSET : Text := "charset".toList
def MULTIPART : Text := "multipart/".toList

/-- What a part is without a type. -/
def IMPLICIT_TYPE : Text := PLAIN

def IMPLICIT_MULTIPART : Text := "multipart/mixed".toList
def MAX_PARTS : Nat := 256
def MAX_DEPTH : Nat := 8
def MAX_BLOB_ID_BYTES : Nat := 255

/-- One object while it is read. -/
structure Reading where
  values : List (String × Text)
  invalid : List String
  parts : Nat

/-- A property that is given; a null reads as absent. -/
def given (fields : List (String × Json)) (name : String) : Option Json :=
  match lookup fields name with
  | some .null => none
  | found => found

namespace Reading

variable (r : Reading)

def refuse (path : String) : Reading := { r with invalid := r.invalid ++ [path] }

def refuseIf (refused : Bool) (path : String) : Reading := if refused then r.refuse path else r

/-- One optional property, refused under a path. -/
def property {α : Type} (fields : List (String × Json)) (name path : String)
    (read : Json → Option α) : Option α × Reading :=
  match given fields name with
  | none => (none, r)
  | some value =>
    match read value with
    | none => (none, r.refuse path)
    | some found => (some found, r)

/-- One optional property of the object. -/
def field {α : Type} (object : List (String × Json)) (name : String) (read : Json → Option α) :
    Option α × Reading := r.property object name name read

/-- One optional property of a part. -/
def partField {α : Type} (part : List (String × Json)) (path name : String)
    (read : Json → Option α) : Option α × Reading := r.property part name (path ++ "/" ++ name) read

/-- The one mailbox `mailboxIds` names. -/
def mailbox (object : List (String × Json)) : Option Text × Reading :=
  match (lookup object "mailboxIds").bind asObject with
  | some [(id, .bool true)] =>
    if id = "" then (none, r.refuse "mailboxIds") else (some id.toList, r)
  | _ => (none, r.refuse "mailboxIds")

/-- One keyword: a storable system flag's, set. -/
def keyword (entry : String × Json) : Option Text :=
  (Jmap.canonicalKeyword entry.1.toList).bind fun keyword =>
    match entry.2 with
    | .bool true => if STORABLE_KEYWORDS.contains keyword then some keyword else none
    | _ => none

/-- The keywords; none without the property. -/
def keywords (object : List (String × Json)) : Option (List Text) × Reading :=
  match given object "keywords" with
  | none => (some [], r)
  | some given =>
    match given.asObject.bind fun entries => entries.mapM keyword with
    | none => (none, r.refuse "keywords")
    | some read => (some read, r)

/-- A body value stored under its id. -/
def insert (id : String) (text : Text) : Reading :=
  { r with values := r.values.filter (fun value => value.1 ≠ id) ++ [(id, text)] }

/-- The text of one entry of `bodyValues`; a refused one reads as empty. -/
def bodyEntry (entry : String × Json) : Reading :=
  let text := bodyValue entry.2
  (r.refuseIf text.isNone ("bodyValues/" ++ entry.1)).insert entry.1 (text.getD [])

/-- The text of every entry of `bodyValues`. -/
def bodyValues (object : List (String × Json)) : Reading :=
  match given object "bodyValues" with
  | none => r
  | some given =>
    match given.asObject with
    | none => r.refuse "bodyValues"
    | some entries => entries.foldl bodyEntry r

/-- The type and the parameters of a part: `type`, or the raw `header:Content-Type`, never both. -/
def contentType (part : List (String × Json)) (path : String) :
    (Option Text × List (Text × Text)) × Reading :=
  match given part "type", given part "header:Content-Type" with
  | some _, some _ => ((none, []), r.refuse (path ++ "/type"))
  | none, some raw =>
    match raw.asStr.bind fun raw => rawContentType raw.toList with
    | none => ((none, []), r.refuse (path ++ "/header:Content-Type"))
    | some (mediaType, parameters) => ((some mediaType, parameters), r)
  | _, none =>
    let (mediaType, r) := r.partField part path "type" fun value =>
      value.asStr.bind fun text => mediaType text.toList
    let (charset, r) := r.partField part path "charset" fun value =>
      value.asStr.bind fun text => token text.toList
    ((mediaType, (charset.map fun charset => (CHARSET, charset)).toList), r)

end Reading

/-- What a part holds. -/
inductive Content
  | value (text : Text)
  | blob (id : Text)
  | parts (parts : List Part)

/-- A part by its head and what it holds. -/
def Part.of (head : Head) : Content → Part
  | .value text => .value head text
  | .blob id => .blob head id
  | .parts inner => .parts head inner

namespace Reading

variable (r : Reading)

/-- The parts of a list, each under its path. -/
def readParts (part : Json → String → Reading → Option Part × Reading) (path : String)
    (index : Nat) :
    List Json → Reading → List (Option Part) × Reading
  | [], r => ([], r)
  | item :: items, r =>
    let (read, r) := part item (path ++ "/subParts/" ++ toString index) r
    let (rest, r) := readParts part path (index + 1) items r
    (read :: rest, r)

/-- What the part holds: one of `partId`, `blobId` and `subParts`. A body value is taken once. -/
def content (part : Json → String → Reading → Option Part × Reading)
    (fields : List (String × Json)) (path : String) : Option Content × Reading :=
  match given fields "partId", given fields "blobId", given fields "subParts" with
  | some id, none, none =>
    let found := id.asStr.bind fun id => r.values.find? fun value => value.1 = id
    match found with
    | none => (none, r.refuse (path ++ "/partId"))
    | some (id, text) =>
      (some (.value text), { r with values := r.values.filter fun value => value.1 ≠ id })
  | none, some id, none =>
    match id.asStr with
    | none => (none, r.refuse (path ++ "/blobId"))
    | some blob =>
      if blob ≠ "" ∧ byteLength blob.toList ≤ MAX_BLOB_ID_BYTES then (some (.blob blob.toList), r)
      else (none, r.refuse (path ++ "/blobId"))
  | none, none, some parts =>
    match parts.asArray with
    | none => (none, r.refuse (path ++ "/subParts"))
    | some [] => (none, r.refuse (path ++ "/subParts"))
    | some items =>
      let (read, r) := readParts part path 0 items r
      ((read.mapM fun part => part).map .parts, r)
  | some _, some _, _ => (none, r.refuse (path ++ "/blobId"))
  | _, _, _ => (none, r.refuse (path ++ "/partId"))

/-- What a part may give for what it holds: text by a `partId` under a text type with no `charset`
or `size`, a tree under a multipart type with nothing a leaf gives, a blob under any other type. -/
def fits (fields : List (String × Json)) (path : String) (mediaType : Text)
    (parameters : List (Text × Text)) (content : Content) : Reading :=
  let multipart := MULTIPART.isPrefixOf mediaType
  let charset := parameters.any fun p => p.1 = CHARSET
  let named := fun name => (given fields name).isSome
  match content with
  | .value _ =>
    ((r.refuseIf (!TEXT.isPrefixOf mediaType) (path ++ "/type")).refuseIf charset
      (path ++ "/charset")).refuseIf (named "size") (path ++ "/size")
  | .blob _ => r.refuseIf multipart (path ++ "/type")
  | .parts _ =>
    ["size", "name", "disposition", "cid"].foldl
      (fun r name => r.refuseIf (named name) (path ++ "/" ++ name))
      ((r.refuseIf (!multipart) (path ++ "/type")).refuseIf charset (path ++ "/charset"))

/-- One part with what it holds, at most so many levels deep; every refusal goes under its path. -/
def part : Nat → Json → String → Reading → Option Part × Reading
  | left, value, path, r =>
    let r := { r with parts := r.parts + 1 }
    match left, value.asObject with
    | left + 1, some fields =>
      if r.parts > MAX_PARTS then (none, r.refuse path)
      else
        let before := r.invalid.length
        let unknown := (fields.map Prod.fst).filter fun name => name ∉ PART_PROPERTIES
        let r := unknown.foldl (fun r name => r.refuse (path ++ "/" ++ name)) r
        let (type, r) := r.contentType fields path
        let (content, r) := r.content (part left) fields path
        let (name, r) := r.partField fields path "name" headerText
        let (disposition, r) := r.partField fields path "disposition" disposition
        let (cid, r) := r.partField fields path "cid" fun value =>
          value.asStr.bind fun text => id text.toList
        match content with
        | none => (none, r)
        | some content =>
          let implicit := match content with
            | .parts _ => IMPLICIT_MULTIPART
            | _ => IMPLICIT_TYPE
          let mediaType := type.1.getD implicit
          let r := r.fits fields path mediaType type.2 content
          let head := { mediaType, parameters := type.2, name, disposition, cid : Head }
          (if r.invalid.length = before then some (.of head content) else none, r)
    | _, _ => (none, r.refuse path)

def body (object : List (String × Json)) : Option Part × Reading :=
  match given object "bodyStructure" with
  | none => (none, r.refuse "bodyStructure")
  | some value => part MAX_DEPTH value "bodyStructure" r

/-- The header fields of an object. -/
def personal (object : List (String × Json)) : Personal × Reading :=
  let (from_, r) := r.field object "from" addresses
  let (sender, r) := r.field object "sender" addresses
  let (replyTo, r) := r.field object "replyTo" addresses
  let (to_, r) := r.field object "to" addresses
  let (cc, r) := r.field object "cc" addresses
  let (bcc, r) := r.field object "bcc" addresses
  let (subject, r) := r.field object "subject" headerText
  let (inReplyTo, r) := r.field object "inReplyTo" ids
  let (references, r) := r.field object "references" ids
  ({ from_, sender, replyTo, to_, cc, bcc, subject, inReplyTo, references }, r)

end Reading

/-- Reads one create; a refusal names every property it refuses. -/
def read (value : Json) : Except (List String) Draft :=
  match value.asObject with
  | none => .error []
  | some object =>
    let unknown := (object.map Prod.fst).filter fun name => name ∉ PROPERTIES
    let r : Reading := ⟨[], unknown, 0⟩
    let (mailbox, r) := r.mailbox object
    let (keywords, r) := r.keywords object
    let (personal, r) := r.personal object
    let r := r.bodyValues object
    let (body, r) := r.body object
    match mailbox, keywords, body, r.invalid with
    | some mailbox, some keywords, some body, [] => .ok ⟨mailbox, keywords, personal, body⟩
    | _, _, _, invalid => .error invalid

end Huliho.Drafts
