import Huliho.Lib.Decimals

/-!
# The part lists of an email

`jmap/body/lists.rs`: the leaves of a body structure under their part numbers, and the walk that
puts them into `textBody`, `htmlBody` and `attachments`. A structure is read from BODYSTRUCTURE, every
media word in lower case; of a leaf the model keeps what the walk reads.
-/

namespace Huliho.PartLists

structure Disposition where
  kind : String
  parameters : List (String × String)
deriving DecidableEq

/-- A part that holds content. -/
structure Leaf where
  mediaType : String
  subtype : String
  parameters : List (String × String) := []
  disposition : Option Disposition := none
deriving DecidableEq

/-- One part of a MIME tree. -/
inductive BodyPart
  | leaf (leaf : Leaf)
  | multipart (subtype : String) (parts : List BodyPart)

/-- One leaf with the number a fetch and a blob id name it by. -/
structure Node where
  partId : String
  leaf : Leaf
deriving DecidableEq

structure Lists where
  text : List Node := []
  html : List Node := []
  attachments : List Node := []
deriving DecidableEq

/-- The part number of the `index`th child of a part. -/
def childId (parent : String) (index : Nat) : String :=
  if parent = "" then String.ofList (decimal (index + 1))
  else parent ++ "." ++ String.ofList (decimal (index + 1))

/-- A leaf under its number; the one part of a message that is one part is part `1`. -/
def nodeOf (partId : String) (leaf : Leaf) : Node := ⟨if partId = "" then "1" else partId, leaf⟩

mutual

/-- Every leaf of a tree in the order of the message. -/
def collect (partId : String) : BodyPart → List Node
  | .leaf leaf => [nodeOf partId leaf]
  | .multipart _ parts => collectEach partId 0 parts

def collectEach (partId : String) (index : Nat) : List BodyPart → List Node
  | [] => []
  | part :: parts => collect (childId partId index) part ++ collectEach partId (index + 1) parts

end

def leaves (root : BodyPart) : List Node := collect "" root

/-! ## What the walk reads of a leaf -/

namespace Leaf

variable (leaf : Leaf)

/-- Whether the sender marked the part as an attachment. -/
def isAttachment : Bool := leaf.disposition.any fun disposition => disposition.kind = "attachment"

def isText : Bool := leaf.mediaType = "text" && (leaf.subtype = "plain" || leaf.subtype = "html")

def isInlineMedia : Bool :=
  leaf.mediaType = "image" || leaf.mediaType = "audio" || leaf.mediaType = "video"

/-- Whether a parameter has a name, letter case aside, or an RFC 2231 form of it. -/
def named (parameters : List (String × String)) (name : String) : Bool :=
  parameters.any fun (found, _) =>
    found.toList.map Char.toLower = name.toList ||
      (found.toList.take (name.length + 1)).map Char.toLower = name.toList ++ ['*']

/-- Whether the part carries a name in either header. -/
def hasName : Bool :=
  (leaf.disposition.any fun disposition => named disposition.parameters "filename") ||
    named leaf.parameters "name"

end Leaf

/-! ## The walk -/

/-- The multipart a part sits in. -/
structure Frame where
  multipartType : String
  inAlternative : Bool

/-- Which lists still take parts while an alternative body chose one of them. -/
structure Walk where
  lists : Lists
  addText : Bool
  addHtml : Bool

/-- Whether a leaf at its place is a part of the body. -/
def Leaf.isInline (leaf : Leaf) (index : Nat) (frame : Frame) : Bool :=
  !leaf.isAttachment && (leaf.isText || leaf.isInlineMedia) &&
    (index = 0 || (frame.multipartType ≠ "related" && (leaf.isInlineMedia || !leaf.hasName)))

namespace Walk

variable (walk : Walk)

def attach (node : Node) : Walk :=
  { walk with lists := { walk.lists with attachments := walk.lists.attachments ++ [node] } }

/-- A leaf of an alternative: each kind has its list. -/
def alternate (node : Node) : Walk :=
  if node.leaf.mediaType = "text" ∧ node.leaf.subtype = "plain" then
    { walk with lists := { walk.lists with text := walk.lists.text ++ [node] } }
  else if node.leaf.mediaType = "text" ∧ node.leaf.subtype = "html" then
    { walk with lists := { walk.lists with html := walk.lists.html ++ [node] } }
  else walk.attach node

/-- A text inside an alternative closes the list of the other kind. -/
def choose (leaf : Leaf) (frame : Frame) : Walk :=
  if frame.inAlternative then
    { walk with
      addHtml := walk.addHtml && !(leaf.subtype = "plain" && leaf.mediaType = "text")
      addText := walk.addText && !(leaf.subtype = "html" && leaf.mediaType = "text") }
  else walk

/-- A leaf into the lists still open; media one of them misses is an attachment too. -/
def place (node : Node) : Walk :=
  { walk with
    lists :=
      { text := if walk.addText then walk.lists.text ++ [node] else walk.lists.text
        html := if walk.addHtml then walk.lists.html ++ [node] else walk.lists.html
        attachments :=
          if (!walk.addText || !walk.addHtml) && node.leaf.isInlineMedia then
            walk.lists.attachments ++ [node]
          else walk.lists.attachments } }

/-- One leaf. -/
def leaf (node : Node) (index : Nat) (frame : Frame) : Walk :=
  if !node.leaf.isInline index frame then walk.attach node
  else if frame.multipartType = "alternative" then walk.alternate node
  else (walk.choose node.leaf frame).place node

/-- An alternative body that offered one kind alone serves it in both lists. -/
def settleAlternative : Option Nat → Option Nat → Walk
  | some textLength, some htmlLength =>
    let text :=
      if textLength = walk.lists.text.length ∧ htmlLength ≠ walk.lists.html.length then
        walk.lists.text ++ walk.lists.html.drop htmlLength
      else walk.lists.text
    let html :=
      if htmlLength = walk.lists.html.length ∧ textLength ≠ text.length then
        walk.lists.html ++ text.drop textLength
      else walk.lists.html
    { walk with lists := { walk.lists with text, html } }
  | _, _ => walk

/-- The end of a multipart the walk entered as `entry`. -/
def close (entry : Walk) (frame : Frame) : Walk :=
  if frame.multipartType = "alternative" ∧ walk.addText ∧ walk.addHtml then
    walk.settleAlternative (if entry.addText then some entry.lists.text.length else none)
      (if entry.addHtml then some entry.lists.html.length else none)
  else walk

end Walk

/-- The frame of a multipart inside another. -/
def Frame.inner (frame : Frame) (subtype : String) : Frame :=
  ⟨subtype, frame.inAlternative || subtype = "alternative"⟩

mutual

/-- One part of a multipart; what it closes inside stays inside. -/
def walkPart (frame : Frame) (partId : String) (index : Nat) : BodyPart → Walk → Walk
  | .leaf leaf, walk => walk.leaf (nodeOf partId leaf) index frame
  | .multipart subtype parts, walk =>
    { (walkParts (frame.inner subtype) partId 0 parts walk).close walk (frame.inner subtype) with
      addText := walk.addText
      addHtml := walk.addHtml }

/-- The parts of one multipart. -/
def walkParts (frame : Frame) (partId : String) (index : Nat) : List BodyPart → Walk → Walk
  | [], walk => walk
  | part :: parts, walk =>
    walkParts frame partId (index + 1) parts
      (walkPart frame (childId partId index) index part walk)

end

/-- The lists of a tree: the root inside a mixed body of its own. -/
def lists (root : BodyPart) : Lists :=
  (walkPart ⟨"mixed", false⟩ "" 0 root ⟨{}, true, true⟩).lists

end Huliho.PartLists
