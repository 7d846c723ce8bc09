import Mathlib.Data.List.Nodup
import Huliho.Bodies.Pass

/-!
# The bodies of a message

RFC 8621 section 4.1.4: the parts of a message that a server lists as `textBody` and `htmlBody`. The
algorithm the section suggests is `decompose`; what matters here of any decomposition is that an HTML
part shown where plain text is preferred is shown where HTML is preferred too, which holds of the
algorithm's (**`decompose_listed`**). A **`Message`** carries it.
-/

namespace Huliho.Bodies

/-- A part that is no multipart. -/
structure Part where
  partId : String
  type : String
  name : Option String := none
  disposition : Option String := none
deriving DecidableEq

def Part.isHtml (part : Part) : Bool := isHtmlType part.type

def Part.isPlain (part : Part) : Bool := part.type = "text/plain"

/-- `isInlineMediaType`. -/
def Part.isMedia (part : Part) : Bool :=
  ["image/", "audio/", "video/"].any fun media => media.toList.isPrefixOf part.type.toList

/-- The structure of a message. -/
inductive Structure
  | leaf (part : Part)
  | multipart (subtype : String) (parts : List Structure)

/-- The lists so far. -/
structure Listed where
  text : List Part := []
  html : List Part := []
  attachments : List Part := []

/-- Which of the two lists still takes parts at this level. -/
structure Open where
  text : Bool := true
  html : Bool := true

/-- A part into the lists that are open; media that one of them misses is an attachment too. -/
def Listed.show (listed : Listed) (taking : Open) (part : Part) : Listed where
  text := if taking.text then listed.text ++ [part] else listed.text
  html := if taking.html then listed.html ++ [part] else listed.html
  attachments := if (!taking.text || !taking.html) && part.isMedia then listed.attachments ++ [part]
    else listed.attachments

def Listed.attach (listed : Listed) (part : Part) : Listed :=
  { listed with attachments := listed.attachments ++ [part] }

/-- Whether a part is part of the body: the first one of a multipart, or one that does not look like
an attachment. -/
def Part.isInline (part : Part) (multipartType : String) (first : Bool) : Bool :=
  part.disposition ≠ some "attachment" && (part.isPlain || part.isHtml || part.isMedia) &&
    (first || (multipartType ≠ "related" && (part.isMedia || part.name.isNone)))

/-- A part of the body at its place. -/
def placePart (multipartType : String) (inAlternative : Bool) (part : Part) (taking : Open)
    (listed : Listed) : Open × Listed :=
  if multipartType = "alternative" then
    if part.isPlain then (taking, { listed with text := listed.text ++ [part] })
    else if part.isHtml then (taking, { listed with html := listed.html ++ [part] })
    else (taking, listed.attach part)
  else
    -- Inside an alternative each text is for one of the lists alone.
    let taking := if inAlternative then
      ⟨taking.text && !part.isHtml, taking.html && !part.isPlain⟩ else taking
    (taking, listed.show taking part)

/-- What an alternative gave one of the lists alone goes into the other as well. -/
def evenOut (before after : Listed) (taking : Open) : Listed :=
  if !(taking.text && taking.html) then after
  else if after.text.length = before.text.length ∧ after.html.length ≠ before.html.length then
    { after with text := after.text ++ after.html.drop before.html.length }
  else if after.html.length = before.html.length ∧ after.text.length ≠ before.text.length then
    { after with html := after.html ++ after.text.drop before.text.length }
  else after

mutual

/-- One part of a multipart. -/
def parsePart (multipartType : String) (inAlternative first : Bool) :
    Structure → Open → Listed → Open × Listed
  | .leaf part, taking, listed =>
    if part.isInline multipartType first then
      placePart multipartType inAlternative part taking listed
    else (taking, listed.attach part)
  | .multipart subtype parts, taking, listed =>
    let (inner, after) := parseParts subtype (inAlternative || subtype = "alternative") true parts
      taking listed
    (taking, if subtype = "alternative" then evenOut listed after inner else after)

/-- The parts of a multipart in order. -/
def parseParts (multipartType : String) (inAlternative first : Bool) :
    List Structure → Open → Listed → Open × Listed
  | [], taking, listed => (taking, listed)
  | part :: parts, taking, listed =>
    let (taking, listed) := parsePart multipartType inAlternative first part taking listed
    parseParts multipartType inAlternative false parts taking listed

end

/-- The lists of a message, its root taken as the only part of a mixed one. -/
def decompose (root : Structure) : Listed :=
  (parseParts "mixed" false true [root] {} {}).2

/-! ## What holds of the lists -/

mutual

/-- The parts that are no multipart. -/
def leaves : Structure → List Part
  | .leaf part => [part]
  | .multipart _ parts => leavesAll parts

def leavesAll : List Structure → List Part
  | [] => []
  | part :: parts => leaves part ++ leavesAll parts

end

/-- The lists hold parts of the message, and each HTML part of the first is in the second. -/
structure Sound (parts : List Part) (listed : Listed) : Prop where
  text_mem : ∀ part ∈ listed.text, part ∈ parts
  html_mem : ∀ part ∈ listed.html, part ∈ parts
  listed : ∀ part ∈ listed.text, part.isHtml = true → part ∈ listed.html

variable {parts : List Part} {listed before after : Listed} {taking : Open} {part : Part}

theorem Sound.attach (h : Sound parts listed) : Sound parts (listed.attach part) :=
  ⟨h.text_mem, h.html_mem, h.listed⟩

/-- A part that goes into the first list goes into the second as well, or is no HTML. -/
theorem Sound.show (h : Sound parts listed) (hpart : part ∈ parts)
    (htaking : taking.text = true → part.isHtml = true → taking.html = true) :
    Sound parts (listed.show taking part) := by
  constructor
  · intro other hother
    simp only [Listed.show] at hother
    split at hother
    next =>
      rcases List.mem_append.1 hother with hother | hother
      · exact h.text_mem other hother
      · exact List.mem_singleton.1 hother ▸ hpart
    next => exact h.text_mem other hother
  · intro other hother
    simp only [Listed.show] at hother
    split at hother
    next =>
      rcases List.mem_append.1 hother with hother | hother
      · exact h.html_mem other hother
      · exact List.mem_singleton.1 hother ▸ hpart
    next => exact h.html_mem other hother
  · intro other hother hhtml
    simp only [Listed.show] at hother ⊢
    split at hother
    next htext =>
      rcases List.mem_append.1 hother with hother | hother
      · have hin := h.listed other hother hhtml
        split
        · exact List.mem_append_left _ hin
        · exact hin
      · obtain rfl := List.mem_singleton.1 hother
        rw [if_pos (htaking htext hhtml)]
        exact List.mem_append_right _ (List.mem_singleton_self _)
    next =>
      have hin := h.listed other hother hhtml
      split
      · exact List.mem_append_left _ hin
      · exact hin

theorem isHtml_of_isPlain (h : part.isPlain = true) : part.isHtml = false := by
  rw [Part.isHtml, of_decide_eq_true h]
  decide

/-- Outside an alternative both lists are open. -/
def Both (inAlternative : Bool) (taking : Open) : Prop := inAlternative = false → taking = {}

theorem Sound.place (h : Sound parts listed) (hpart : part ∈ parts) {multipartType : String}
    {inAlternative : Bool} (hboth : Both inAlternative taking) :
    Sound parts (placePart multipartType inAlternative part taking listed).2 ∧
      Both inAlternative (placePart multipartType inAlternative part taking listed).1 := by
  rw [placePart]
  split
  next =>
    split
    next hplain =>
      refine ⟨⟨fun other hother => ?_, h.html_mem, fun other hother hhtml => ?_⟩, hboth⟩
      · rcases List.mem_append.1 hother with hother | hother
        · exact h.text_mem other hother
        · exact List.mem_singleton.1 hother ▸ hpart
      · rcases List.mem_append.1 hother with hother | hother
        · exact h.listed other hother hhtml
        · rw [List.mem_singleton.1 hother, isHtml_of_isPlain hplain] at hhtml
          cases hhtml
    next =>
      split
      next =>
        refine ⟨⟨h.text_mem, fun other hother => ?_, fun other hother hhtml => ?_⟩, hboth⟩
        · rcases List.mem_append.1 hother with hother | hother
          · exact h.html_mem other hother
          · exact List.mem_singleton.1 hother ▸ hpart
        · exact List.mem_append_left _ (h.listed other hother hhtml)
      next => exact ⟨h.attach, hboth⟩
  next =>
    cases inAlternative with
    | false =>
      refine ⟨h.show hpart fun _ _ => ?_, hboth⟩
      rw [hboth rfl]
      rfl
    | true =>
      refine ⟨h.show hpart fun htext hhtml => ?_, fun hfalse => by cases hfalse⟩
      -- An HTML part closes the list of plain text.
      simp only [if_true, Bool.and_eq_true, Bool.not_eq_true'] at htext
      rw [hhtml] at htext
      cases htext.2

theorem Sound.evenOut (h : Sound parts after) (taking : Open) :
    Sound parts (evenOut before after taking) := by
  rw [Bodies.evenOut]
  split
  next => exact h
  next =>
    split
    next =>
      refine ⟨fun other hother => ?_, h.html_mem, fun other hother hhtml => ?_⟩
      · rcases List.mem_append.1 hother with hother | hother
        · exact h.text_mem other hother
        · exact h.html_mem other (List.mem_of_mem_drop hother)
      · rcases List.mem_append.1 hother with hother | hother
        · exact h.listed other hother hhtml
        · exact List.mem_of_mem_drop hother
    next =>
      split
      next =>
        refine ⟨h.text_mem, fun other hother => ?_, fun other hother hhtml => ?_⟩
        · rcases List.mem_append.1 hother with hother | hother
          · exact h.html_mem other hother
          · exact h.text_mem other (List.mem_of_mem_drop hother)
        · exact List.mem_append_left _ (h.listed other hother hhtml)
      next => exact h

mutual

theorem parsePart_sound (multipartType : String) (inAlternative first : Bool) :
    ∀ (structure' : Structure) {taking : Open} {listed : Listed},
      (∀ part ∈ leaves structure', part ∈ parts) → Sound parts listed → Both inAlternative taking →
      Sound parts (parsePart multipartType inAlternative first structure' taking listed).2 ∧
        Both inAlternative (parsePart multipartType inAlternative first structure' taking listed).1
  | .leaf part, taking, listed, hleaves, h, hboth => by
    rw [parsePart]
    split
    · exact h.place (hleaves part (by rw [leaves]; exact List.mem_singleton_self _)) hboth
    · exact ⟨h.attach, hboth⟩
  | .multipart subtype inner, taking, listed, hleaves, h, hboth => by
    rw [parsePart]
    have hinner : Both (inAlternative || subtype = "alternative") taking := by
      intro hout
      rw [Bool.or_eq_false_iff] at hout
      exact hboth hout.1
    obtain ⟨hsound, -⟩ := parseParts_sound subtype _ true inner
      (fun part hpart => hleaves part (by rwa [leaves])) h hinner
    refine ⟨?_, hboth⟩
    simp only
    split
    · exact hsound.evenOut _
    · exact hsound

theorem parseParts_sound (multipartType : String) (inAlternative first : Bool) :
    ∀ (structures : List Structure) {taking : Open} {listed : Listed},
      (∀ part ∈ leavesAll structures, part ∈ parts) → Sound parts listed →
      Both inAlternative taking →
      Sound parts (parseParts multipartType inAlternative first structures taking listed).2 ∧
        Both inAlternative (parseParts multipartType inAlternative first structures taking listed).1
  | [], taking, listed, _, h, hboth => by
    rw [parseParts]
    exact ⟨h, hboth⟩
  | structure' :: structures, taking, listed, hleaves, h, hboth => by
    rw [parseParts]
    have hfirst := parsePart_sound multipartType inAlternative first structure'
      (fun part hpart => hleaves part (by rw [leavesAll]; exact List.mem_append_left _ hpart)) h
      hboth
    exact parseParts_sound multipartType inAlternative false structures
      (fun part hpart => hleaves part (by rw [leavesAll]; exact List.mem_append_right _ hpart))
      hfirst.1 hfirst.2

end

/-- **An HTML part shown as text is shown as HTML.** -/
theorem decompose_listed (root : Structure) : Sound (leaves root) (decompose root) := by
  refine (parseParts_sound "mixed" false true [root] (fun part hpart => ?_) ⟨?_, ?_, ?_⟩ fun _ => rfl).1
  · rw [leavesAll, leavesAll, List.append_nil] at hpart
    exact hpart
  · exact fun part hpart => absurd hpart List.not_mem_nil
  · exact fun part hpart => absurd hpart List.not_mem_nil
  · exact fun part hpart => absurd hpart List.not_mem_nil

/-! ## Messages -/

/-- A message: its parts, each with an id of its own, and the two lists of them. -/
structure Message where
  parts : List Part
  textBody : List Part
  htmlBody : List Part
  apart : (parts.map Part.partId).Nodup
  text_mem : ∀ part ∈ textBody, part ∈ parts
  html_mem : ∀ part ∈ htmlBody, part ∈ parts
  listed : ∀ part ∈ textBody, part.isHtml = true → part ∈ htmlBody

/-- The message of a structure. -/
def Message.ofStructure (root : Structure) (hids : ((leaves root).map Part.partId).Nodup) :
    Message where
  parts := leaves root
  textBody := (decompose root).text
  htmlBody := (decompose root).html
  apart := hids
  text_mem := (decompose_listed root).text_mem
  html_mem := (decompose_listed root).html_mem
  listed := (decompose_listed root).listed

end Huliho.Bodies
