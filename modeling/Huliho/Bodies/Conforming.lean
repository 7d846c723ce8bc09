import Huliho.Bodies.Structure

/-!
# A server that conforms

What RFC 8621 sections 4.1.4, 4.2 and 4.9 and RFC 8620 section 3.7 say of an answer, as far as body values go:
each `Email/get` and `Email/parse` response answers a call of the request, its result references
resolved to whatever the earlier calls gave. It shows the properties asked of each email: the parts
of `htmlBody` by the properties asked of a part, and in `bodyValues` the text of each part that a fetch
flag names. `Safe` is what is wanted of an answer that leaves: no value of an HTML part that the
sanitizer did not give.
-/

namespace Huliho.Bodies

open Json

/-! ## Arguments as the server reads them -/

/-- The texts of a list, for a list of texts. -/
def texts : Json → Option (List String)
  | .arr items => items.mapM asStr
  | _ => none

/-- A list of property names: the default where it is omitted or null. -/
def listOf (arguments : Arguments) (key : String) (default : List String) : Option (List String) :=
  match lookup arguments key with
  | none => some default
  | some .null => some default
  | some value => texts value

/-- A flag: false where it is omitted or null. -/
def flagOf (arguments : Arguments) (key : String) : Option Bool :=
  match lookup arguments key with
  | none => some false
  | some .null => some false
  | some (.bool value) => some value
  | some _ => none

/-- The default `properties`, as far as they hold bodies. -/
def DEFAULT_PROPERTIES : List String :=
  ["id", "blobId", "threadId", "mailboxIds", "keywords", "size", "receivedAt", "messageId", "inReplyTo",
    "references", "sender", "from", "to", "cc", "bcc", "replyTo", "subject", "sentAt", "hasAttachment",
    "preview", BODY_VALUES, "textBody", HTML_BODY, "attachments"]

/-- The default `bodyProperties`. -/
def DEFAULT_BODY_PROPERTIES : List String :=
  ["partId", "blobId", "size", "name", "type", "charset", "disposition", "cid", "language", "location"]

/-- What a valid call asks. -/
structure Asked where
  properties : List String
  bodyProperties : List String
  fetchText : Bool
  fetchHtml : Bool
  fetchAll : Bool

/-- The ask of resolved arguments; none for arguments the server answers with an error. -/
def asked (arguments : Arguments) : Option Asked := do
  let properties ← listOf arguments "properties" DEFAULT_PROPERTIES
  let bodyProperties ← listOf arguments "bodyProperties" DEFAULT_BODY_PROPERTIES
  let fetchText ← flagOf arguments "fetchTextBodyValues"
  let fetchHtml ← flagOf arguments "fetchHTMLBodyValues"
  let fetchAll ← flagOf arguments FETCH_ALL
  some ⟨properties, bodyProperties, fetchText, fetchHtml, fetchAll⟩

/-- Arguments with their result references resolved: a key without a reference keeps its value. -/
def Resolves (arguments resolved : Arguments) : Prop :=
  ∀ key, lookup arguments ("#" ++ key) = none → lookup resolved key = lookup arguments key

/-! ## Answers -/

/-- The parts whose text the flags fetch. -/
def Fetched (ask : Asked) (message : Message) (part : Part) : Prop :=
  ask.fetchText = true ∧ part ∈ message.textBody ∨ ask.fetchHtml = true ∧ part ∈ message.htmlBody ∨
    ask.fetchAll = true ∧ part ∈ message.parts

/-- A part by the properties asked of it. -/
structure Describes (properties : List String) (part : Part) (shown : Json) : Prop where
  partId : shown.get "partId" = if "partId" ∈ properties then some (.str part.partId) else none
  type : shown.get "type" = if "type" ∈ properties then some (.str part.type) else none

/-- An email as the call asks for it. -/
structure Shows (ask : Asked) (message : Message) (email : Arguments) : Prop where
  html : if HTML_BODY ∈ ask.properties then ∃ shown, lookup email HTML_BODY = some (.arr shown) ∧
    List.Forall₂ (Describes ask.bodyProperties) message.htmlBody shown else lookup email HTML_BODY = none
  values : if BODY_VALUES ∈ ask.properties then ∃ values, lookup email BODY_VALUES = some (.obj values) ∧
      (∀ key entry, lookup values key = some entry →
        ∃ part, Fetched ask message part ∧ part.partId = key ∧
          ∃ members text, entry = .obj members ∧ lookup members "value" = some (.str text))
    else lookup email BODY_VALUES = none

/-- The emails of a response: the list of an `Email/get`, what an `Email/parse` parsed. -/
def emailsOf (name : String) (arguments : Arguments) : List Json :=
  if name = EMAIL_GET then ((lookup arguments "list").bind asArray).getD []
  else if name = EMAIL_PARSE then
    ((lookup arguments "parsed").bind asObject).getD [] |>.map Prod.snd
  else []

/-- The calls of a response. -/
def responses (response : Json) : List Json :=
  ((response.get "methodResponses").bind asArray).getD []

/-- The response answers the request, with these messages behind its emails. -/
def Conforms (request response : Json) (messages : Nat → Nat → Message) : Prop :=
  ∀ i name arguments id, (responses response)[i]? = some (.arr [.str name, .obj arguments, id]) →
    name = EMAIL_GET ∨ name = EMAIL_PARSE →
    ∃ tag calls given resolved ask, id = .str tag ∧ methodCalls request = some calls ∧
      .arr [.str name, .obj given, .str tag] ∈ calls ∧ Resolves given resolved ∧
      asked resolved = some ask ∧
      ∀ j email, (emailsOf name arguments)[j]? = some email →
        ∃ members, email = .obj members ∧ Shows ask (messages i j) members

/-- No value of an HTML part that the sanitizer did not give. -/
def SafeEmail (clean : String → String) (message : Message) (email : Arguments) : Prop :=
  ∀ part ∈ message.parts, part.isHtml = true → ∀ values,
    lookup email BODY_VALUES = some (.obj values) → Sanitized clean values part.partId

/-- No email of the response holds one. -/
def Safe (clean : String → String) (response : Json) (messages : Nat → Nat → Message) : Prop :=
  ∀ i name arguments id, (responses response)[i]? = some (.arr [.str name, .obj arguments, id]) →
    ∀ j members, (emailsOf name arguments)[j]? = some (.obj members) →
      SafeEmail clean (messages i j) members

end Huliho.Bodies
