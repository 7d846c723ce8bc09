import Huliho.Lib.Json

/-!
# What a request wants

`jmap/request.rs`: what the proxy reads of a Request object before it forwards it. A call that asks for
body values makes the answer take the sanitizer's pass; one the pass cannot serve is refused.
-/

namespace Huliho.Bodies

open Json

def EMAIL_GET : String := "Email/get"
def EMAIL_PARSE : String := "Email/parse"
def HTML_BODY : String := "htmlBody"
def BODY_VALUES : String := "bodyValues"
def FETCH_ALL : String := "fetchAllBodyValues"

/-- The arguments that put values into `bodyValues`. -/
def FETCH_FLAGS : List String := ["fetchTextBodyValues", "fetchHTMLBodyValues", FETCH_ALL]

/-- The arguments a result reference may stand in for. -/
def REFERENCED : List String :=
  ["#properties", "#fetchTextBodyValues", "#fetchHTMLBodyValues", "#fetchAllBodyValues"]

/-- The members of an arguments object. -/
abbrev Arguments := List (String × Json)

/-- What the request wants of its answer. -/
inductive Wants
  | headers
  | bodies
deriving DecidableEq, Repr

/-- A body ask the pass cannot serve. -/
inductive Refused
  | refused
deriving DecidableEq, Repr

/-- A well-formed invocation: its name and its arguments. -/
def invocation : Json → Option (String × Arguments)
  | .arr [.str name, .obj arguments, _] => some (name, arguments)
  | _ => none

/-- A flag set to anything but absent, null or false counts as set. -/
def isSet : Option Json → Bool
  | none => false
  | some .null => false
  | some (.bool false) => false
  | some _ => true

def names (list : List Json) (property : String) : Bool :=
  list.any fun name => name.asStr = some property

/-- The `properties` list; none for an omitted or null one. -/
def properties (arguments : Arguments) : Option (List Json) :=
  (lookup arguments "properties").bind asArray

/-- Whether the answer will carry `bodyValues`. -/
def asksBodies (arguments : Arguments) : Bool :=
  FETCH_FLAGS.any (fun flag => isSet (lookup arguments flag)) ||
    match properties arguments with
    | none => true
    | some list => names list BODY_VALUES

/-- Whether a result reference stands in for a body argument. -/
def referencesBodies (arguments : Arguments) : Bool :=
  REFERENCED.any fun key => (lookup arguments key).isSome

/-- Whether the pass could not find the HTML parts. -/
def lacksHtmlBody (arguments : Arguments) : Bool :=
  match lookup arguments "properties" with
  | none => false
  | some .null => false
  | some (.arr list) => !names list HTML_BODY
  | some _ => true

/-- One turn of the loop over the calls. -/
def inspectCall (wants : Wants) (call : String × Arguments) : Except Refused Wants :=
  let bodies := asksBodies call.2 || referencesBodies call.2
  if call.1 = EMAIL_GET ∧ bodies then
    if lacksHtmlBody call.2 || isSet (lookup call.2 FETCH_ALL) || referencesBodies call.2 then
      .error .refused
    else .ok .bodies
  else if call.1 = EMAIL_PARSE ∧ bodies then .error .refused
  else .ok wants

/-- The calls of a request that is an object with an array of them. -/
def methodCalls (request : Json) : Option (List Json) :=
  (request.get "methodCalls").bind asArray

/-- What the request wants; bytes that are no Request object want headers. -/
def inspect (request : Option Json) : Except Refused Wants :=
  match request.bind methodCalls with
  | none => .ok .headers
  | some calls => (calls.filterMap invocation).foldlM inspectCall .headers

/-! ## What is let through -/

variable {request : Json} {calls : List (String × Arguments)} {call : String × Arguments}
  {wants after : Wants}

/-- A call of a request that is let through as headers draws no body values. -/
structure Bare (call : String × Arguments) : Prop where
  asks : asksBodies call.2 = false
  references : referencesBodies call.2 = false

/-- A body ask the pass can serve. -/
structure Served (call : String × Arguments) : Prop where
  html : lacksHtmlBody call.2 = false
  all : isSet (lookup call.2 FETCH_ALL) = false
  references : referencesBodies call.2 = false

/-- What one call can do. -/
theorem inspectCall_ok (h : inspectCall wants call = .ok after) :
    ((call.1 = EMAIL_GET ∨ call.1 = EMAIL_PARSE) → Bare call) ∧ after = wants ∨
      call.1 = EMAIL_GET ∧ Served call ∧ after = .bodies := by
  have hbare : ¬ (asksBodies call.2 || referencesBodies call.2) = true → Bare call := by
    intro hbodies
    rw [Bool.not_eq_true, Bool.or_eq_false_iff] at hbodies
    exact ⟨hbodies.1, hbodies.2⟩
  simp only [inspectCall] at h
  split at h
  next hget =>
    split at h
    next => cases h
    next hserved =>
      simp only [Bool.or_eq_true, not_or, Bool.not_eq_true] at hserved
      exact .inr ⟨hget.1, ⟨hserved.1.1, hserved.1.2, hserved.2⟩, (Except.ok.inj h).symm⟩
  next hget =>
    split at h
    next => cases h
    next hparse =>
      refine .inl ⟨?_, (Except.ok.inj h).symm⟩
      rintro (hname | hname)
      · exact hbare fun hbodies => hget ⟨hname, hbodies⟩
      · exact hbare fun hbodies => hparse ⟨hname, hbodies⟩

/-- **What is let through.** No call asks for what the pass cannot serve, and where the request wants
headers no call asks for body values. -/
theorem inspect_calls (h : calls.foldlM inspectCall wants = .ok after) (hcall : call ∈ calls) :
    ((call.1 = EMAIL_GET ∨ call.1 = EMAIL_PARSE) → Bare call) ∨
      call.1 = EMAIL_GET ∧ Served call ∧ after = .bodies := by
  have hkept : ∀ {calls : List (String × Arguments)} {after : Wants},
      calls.foldlM inspectCall .bodies = .ok after → after = .bodies := by
    intro calls
    induction calls with
    | nil => exact fun h => (Except.ok.inj h).symm
    | cons first calls ih =>
      intro after h
      rw [List.foldlM_cons] at h
      cases hfirst : inspectCall .bodies first with
      | error => rw [hfirst] at h; cases h
      | ok next =>
        rw [hfirst] at h
        rcases inspectCall_ok hfirst with ⟨-, rfl⟩ | ⟨-, -, rfl⟩
        · exact ih h
        · exact ih h
  induction calls generalizing wants with
  | nil => exact absurd hcall List.not_mem_nil
  | cons first calls ih =>
    rw [List.foldlM_cons] at h
    cases hfirst : inspectCall wants first with
    | error => rw [hfirst] at h; cases h
    | ok next =>
      rw [hfirst] at h
      rcases List.mem_cons.1 hcall with rfl | hcall
      · rcases inspectCall_ok hfirst with ⟨hbare, -⟩ | ⟨hget, hserved, rfl⟩
        · exact .inl hbare
        · exact .inr ⟨hget, hserved, hkept h⟩
      · exact ih h hcall

end Huliho.Bodies
