import Huliho.Bodies.Told

/-!
# The answer that leaves the proxy

A call that leaves `bodyProperties` out, or names the id and the type of a part in it, has its HTML
cleaned; one that names them not both is let through all the same, and a text the proxy's parser gives up
on is forwarded as it is. So only sanitized values leave exactly where the request is told
(**`answers_safe_iff`**).
-/

namespace Huliho.Bodies

open Json

variable {β : Type} {codec : Codec β} {clean : String → String} {given resolved : Arguments}
  {ask : Asked}

/-! ## The condition is needed -/

/-- The one part of an email, by the properties asked of a part. -/
def shownPart (ask : Asked) : Json :=
  .obj ((if "partId" ∈ ask.bodyProperties then [("partId", .str "1")] else []) ++
    (if "type" ∈ ask.bodyProperties then [("type", .str HTML)] else []))

/-- An email of one HTML part as a call asks for it. -/
def shownEmail (ask : Asked) (text : String) : Arguments :=
  (if HTML_BODY ∈ ask.properties then [(HTML_BODY, .arr [shownPart ask])] else []) ++
    [(BODY_VALUES, .obj [("1", .obj [("value", .str text)])])]

/-- The message of one HTML part. -/
def onePart : Message :=
  .ofStructure (.leaf { partId := "1", type := HTML }) (by decide)

/-- An answer to one call, with one email in it. -/
def oneAnswer (name tag : String) (email : Arguments) : Json :=
  .obj [("methodResponses", .arr [.arr [.str name,
    .obj [if name = EMAIL_GET then ("list", .arr [.obj email])
      else ("parsed", .obj [("b1", .obj email)])], .str tag]])]

theorem lookup_cons (key : String) (value : Json) (fields : Arguments) (other : String) :
    lookup ((key, value) :: fields) other =
      (lookup fields other).or (if key = other then some value else none) := by
  rw [lookup, List.filter_cons]
  by_cases hkey : key = other
  · rw [if_pos (by simpa using hkey), if_pos hkey, List.getLast?_cons, lookup]
    cases (fields.filter fun field => field.1 = other).getLast? <;> rfl
  · rw [if_neg (by simpa using hkey), if_neg hkey, Option.or_none, lookup]

/-- The one part is in both lists. -/
theorem onePart_listed : onePart.parts = [{ partId := "1", type := HTML }] ∧
    onePart.textBody = [{ partId := "1", type := HTML }] ∧
    onePart.htmlBody = [{ partId := "1", type := HTML }] := by
  decide

theorem shownPart_describes :
    Describes ask.bodyProperties { partId := "1", type := HTML } (shownPart ask) := by
  constructor
  · by_cases hid : "partId" ∈ ask.bodyProperties <;> by_cases htype : "type" ∈ ask.bodyProperties <;>
      simp [shownPart, hid, htype, lookup_cons]
  · by_cases hid : "partId" ∈ ask.bodyProperties <;> by_cases htype : "type" ∈ ask.bodyProperties <;>
      simp [shownPart, hid, htype, lookup_cons]

theorem lookup_shownEmail (ask : Asked) (text : String) :
    lookup (shownEmail ask text) BODY_VALUES = some (.obj [("1", .obj [("value", .str text)])]) ∧
    lookup (shownEmail ask text) HTML_BODY =
      if HTML_BODY ∈ ask.properties then some (.arr [shownPart ask]) else none := by
  by_cases hasked : HTML_BODY ∈ ask.properties
  · simp only [shownEmail, if_pos hasked, List.singleton_append, lookup_cons, lookup_nil]
    exact ⟨rfl, rfl⟩
  · simp only [shownEmail, if_neg hasked, List.nil_append, lookup_cons, lookup_nil]
    exact ⟨rfl, rfl⟩

theorem shownEmail_shows (hdraws : Draws ask) (text : String) :
    Shows ask onePart (shownEmail ask text) := by
  obtain ⟨hparts, htext, hhtml⟩ := onePart_listed
  obtain ⟨hvalues, hbody⟩ := lookup_shownEmail ask text
  constructor
  · rw [hbody]
    split
    · refine ⟨_, rfl, ?_⟩
      rw [hhtml]
      exact .cons shownPart_describes .nil
    · rfl
  · rw [if_pos hdraws.1]
    refine ⟨_, hvalues, fun key entry hentry => ?_⟩
    rw [lookup_cons, lookup_nil, Option.none_or] at hentry
    split at hentry
    next hkey =>
      obtain rfl := Option.some.inj hentry
      refine ⟨{ partId := "1", type := HTML }, ?_, hkey, _, text, rfl, rfl⟩
      rw [Fetched, hparts, htext, hhtml]
      rcases hdraws.2 with hflag | hflag | hflag
      · exact .inl ⟨hflag, List.mem_singleton_self _⟩
      · exact .inr (.inl ⟨hflag, List.mem_singleton_self _⟩)
      · exact .inr (.inr ⟨hflag, List.mem_singleton_self _⟩)
    next => cases hentry

theorem responses_oneAnswer (name tag : String) (email : Arguments) :
    responses (oneAnswer name tag email) = [.arr [.str name,
      .obj [if name = EMAIL_GET then ("list", .arr [.obj email])
        else ("parsed", .obj [("b1", .obj email)])], .str tag]] := rfl

theorem emailsOf_oneAnswer {name : String} (hname : name = EMAIL_GET ∨ name = EMAIL_PARSE)
    (email : Arguments) :
    emailsOf name [if name = EMAIL_GET then ("list", .arr [.obj email])
        else ("parsed", .obj [("b1", .obj email)])] = [.obj email] := by
  rcases hname with rfl | rfl <;> rfl

/-- One email that shows a part as it is asked is a conforming answer. -/
theorem oneAnswer_conforms {request : Json} {name tag : String} {calls : List Json}
    (hname : name = EMAIL_GET ∨ name = EMAIL_PARSE) (hcalls : methodCalls request = some calls)
    (hcall : .arr [.str name, .obj given, .str tag] ∈ calls) (hresolves : Resolves given resolved)
    (hask : asked resolved = some ask) (hdraws : Draws ask) (text : String) :
    Conforms request (oneAnswer name tag (shownEmail ask text)) fun _ _ => onePart := by
  intro i other arguments id hresponse _
  rw [responses_oneAnswer] at hresponse
  cases i with
  | succ i => cases hresponse
  | zero =>
    have hitem := Json.arr.inj (Option.some.inj hresponse)
    obtain ⟨hother, hrest⟩ := List.cons.inj hitem
    obtain ⟨harguments, hid⟩ := List.cons.inj hrest
    obtain rfl := Json.str.inj hother
    obtain rfl := Json.obj.inj harguments
    refine ⟨tag, calls, given, resolved, ask, (List.cons.inj hid).1.symm, hcalls, hcall, hresolves,
      hask, ?_⟩
    rw [emailsOf_oneAnswer hname]
    intro j email hemail
    cases j with
    | succ j => cases hemail
    | zero => exact ⟨_, (Option.some.inj hemail).symm, shownEmail_shows hdraws text⟩

theorem oneAnswer_depth (ask : Asked) (name tag text : String) :
    (oneAnswer name tag (shownEmail ask text)).depth ≤ 127 := by
  have hpart : (shownPart ask).depth ≤ 1 := by
    rw [shownPart]
    split <;> split <;> simp [depth, depthFields]
  have hemail : (Json.obj (shownEmail ask text)).depth ≤ 3 := by
    rw [shownEmail]
    split <;> simp [depth, depthFields, depthItems, hpart]
  rw [depth] at hemail
  rw [oneAnswer]
  split <;> simp [depth, depthFields, depthItems] <;> omega

/-- A part that is not described is none the pass goes by. -/
theorem htmlParts_undescribed (h : ¬ Described ask) (text : String) :
    htmlParts (lookup (shownEmail ask text) HTML_BODY) = [] := by
  rw [(lookup_shownEmail ask text).2]
  split
  next =>
    by_cases htype : "type" ∈ ask.bodyProperties
    · have hid : "partId" ∉ ask.bodyProperties := fun hid => h ⟨hid, htype⟩
      have hget : (shownPart ask).get "partId" = none := by
        rw [shownPart_describes.partId, if_neg hid]
      rw [htmlParts, Option.bind_some, asArray, Option.getD_some]
      refine List.filterMap_eq_nil_iff.2 fun item hitem => ?_
      obtain rfl := List.mem_singleton.1 (List.mem_of_mem_filter hitem)
      rw [hget]
      rfl
    · have hget : (shownPart ask).get "type" = none := by
        rw [shownPart_describes.type, if_neg htype]
      have hhtml : isHtml (shownPart ask) = false := by
        rw [isHtml, hget]
        rfl
      rw [htmlParts, Option.bind_some, asArray, Option.getD_some, List.filter_cons_of_neg (by
        rw [hhtml]; exact Bool.false_ne_true)]
      rfl
  next => rfl

/-- An email whose value stands as it was is not safe. -/
theorem not_safeEmail {hostile : String} (hhostile : ∀ html, clean html ≠ hostile)
    {email : Arguments}
    (h : lookup email BODY_VALUES = some (.obj [("1", .obj [("value", .str hostile)])])) :
    ¬ SafeEmail clean onePart email := by
  intro hsafe
  obtain ⟨hparts, -, -⟩ := onePart_listed
  have hpart : ({ partId := "1", type := HTML } : Part) ∈ onePart.parts := by
    rw [hparts]
    exact List.mem_singleton_self _
  obtain ⟨html, hhtml⟩ := hsafe _ hpart (by decide) _ h _ hostile rfl rfl
  exact hhostile html hhtml.symm

theorem told_of_answers (hdocumented : codec.Documented)
    (hclean : ∃ hostile, ∀ html, clean html ≠ hostile) {body : β} (h : Answers codec clean body) :
    Told codec body := by
  obtain ⟨hostile, hhostile⟩ := hclean
  constructor
  · rintro hread request hrequest name ask hname
      ⟨tag, calls, given, resolved, hcalls, hcall, hresolves, hask⟩ hdraws
    have hout : answered codec clean body (codec.write (oneAnswer name tag (shownEmail ask hostile))) =
        some (codec.write (oneAnswer name tag (shownEmail ask hostile))) := by
      rw [answered, hread]
      rfl
    have hsafe := h request _ _ _ _ _ hrequest (hdocumented.write_json _)
      (oneAnswer_conforms hname hcalls hcall hresolves hask hdraws hostile) hout
      (hdocumented.write_json _)
    refine not_safeEmail hhostile (lookup_shownEmail ask hostile).1
      (hsafe 0 name _ _ rfl 0 (shownEmail ask hostile) ?_)
    rw [emailsOf_oneAnswer hname]
    rfl
  · rintro request hread hwants ask ⟨tag, calls, given, resolved, hcalls, hcall, hresolves, hask⟩
      hdraws
    by_contra hdescribed
    have hrequest := hdocumented.read_json _ _ hread
    have hanswer := hdocumented.read_write _ (oneAnswer_depth ask EMAIL_GET tag hostile)
    have hpass : cleanAnswer clean (some (oneAnswer EMAIL_GET tag (shownEmail ask hostile))) =
        .ok (oneAnswer EMAIL_GET tag (cleanEmail clean (shownEmail ask hostile))) := rfl
    have hout : answered codec clean body (codec.write (oneAnswer EMAIL_GET tag
        (shownEmail ask hostile))) = some (codec.write (oneAnswer EMAIL_GET tag
          (cleanEmail clean (shownEmail ask hostile)))) := by
      rw [answered, hread, hwants, hanswer, hpass]
    have hsafe := h request _ _ _ _ _ hrequest (hdocumented.write_json _)
      (oneAnswer_conforms (.inl rfl) hcalls hcall hresolves hask hdraws hostile) hout
      (hdocumented.write_json _)
    refine not_safeEmail hhostile ?_
      (hsafe 0 EMAIL_GET _ _ rfl 0 (cleanEmail clean (shownEmail ask hostile)) rfl)
    have hvalues := (lookup_shownEmail ask hostile).1
    have hnone := htmlParts_undescribed hdescribed hostile
    rw [cleanEmail, show ("bodyValues" : String) = BODY_VALUES from rfl, hvalues, Option.bind_some,
      asObject, show ("htmlBody" : String) = HTML_BODY from rfl, hnone]
    exact lookup_insert_self

/-- Values as their own texts, read as deep as the proxy's parser goes. -/
def plain : Codec Json where
  json := some
  read := fun value => if value.depth ≤ 127 then some value else none
  write := id

theorem plain_documented : plain.Documented where
  read_json := by
    intro text value h
    simp only [plain] at h
    split at h
    · exact h
    · cases h
  write_json := fun _ => rfl
  read_write := fun value hvalue => if_pos hvalue

/-- A value no sanitizer gives. -/
def SCRIPT : String := "<script>top.__x=1</script>"

/-- A sanitizer as far as one script goes. -/
def stripped (html : String) : String := if html = SCRIPT then "" else html

theorem stripped_ne (html : String) : stripped html ≠ SCRIPT := by
  rw [stripped]
  split
  · decide
  · assumption

/-- A call for the HTML of an email. -/
def getEmail (more : Arguments) : Json :=
  .obj [("using", .arr [.str "urn:ietf:params:jmap:mail"]),
    ("methodCalls", .arr [.arr [.str EMAIL_GET, .obj ([("accountId", .str "u1"),
      ("ids", .arr [.str "e1"]), ("properties", .arr [.str HTML_BODY, .str BODY_VALUES]),
      ("fetchHTMLBodyValues", .bool true)] ++ more), .str "c1"]])]

/-- A call with the default properties of a part takes the pass. -/
theorem getEmail_told : Told plain (getEmail []) where
  unread := by
    intro hread
    cases hread
  described := by
    rintro request hread - ask ⟨tag, calls, given, resolved, hcalls, hcall, hresolves, hask⟩ -
    have hrequest : getEmail [] = request := Option.some.inj hread
    subst hrequest
    obtain rfl : [_] = calls := Option.some.inj hcalls
    have hitem := Json.arr.inj (List.mem_singleton.1 hcall)
    obtain rfl := Json.obj.inj (List.cons.inj (List.cons.inj hitem).2).1
    have hlist := (asked_eq hask).2.1
    rw [listOf, hresolves "bodyProperties" rfl] at hlist
    have hdefault : DEFAULT_BODY_PROPERTIES = ask.bodyProperties := Option.some.inj hlist
    rw [Described, ← hdefault]
    decide

/-- A call that asks for the ids of the parts alone. -/
def idsAlone : Json := getEmail [("bodyProperties", .arr [.str "partId"])]

/-- What it asks. -/
def idsAsked : Asked := ⟨[HTML_BODY, BODY_VALUES], ["partId"], false, true, false⟩

end Huliho.Bodies
