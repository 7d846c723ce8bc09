import Huliho.Bodies.Conforming

/-!
# What the pass is told

`api/jmap.rs`, `request`: the request is read before it is forwarded, and the answer to one that wants
bodies takes the sanitizer's pass. The pass goes by the id and the type of each part, so a request is
**`Told`** where every call that draws body values asks for both and the proxy reads every call that the
server may take. Then no value of an HTML part leaves that the sanitizer did not give
(**`answers_of_told`**).
-/

namespace Huliho.Bodies

open Json

/-- Texts of JSON: the value a text is, what the proxy's parser reads of it and what its writer
writes. -/
structure Codec (β : Type) where
  json : β → Option Json
  read : β → Option Json
  write : Json → β

/-- The parser reads the value a text is, or nothing; what is written is the value, and read back
where it is nested no deeper than the parser goes. -/
structure Codec.Documented {β : Type} (codec : Codec β) : Prop where
  read_json : ∀ text value, codec.read text = some value → codec.json text = some value
  write_json : ∀ value, codec.json (codec.write value) = some value
  read_write : ∀ value : Json, value.depth ≤ 127 → codec.read (codec.write value) = some value

section Answered

variable {β : Type} (codec : Codec β) (clean : String → String)

/-- `request`: what leaves the proxy for a body and the server's answer to it. -/
def answered (body answer : β) : Option β :=
  match inspect (codec.read body) with
  | .error _ => none
  | .ok .headers => some answer
  | .ok .bodies =>
    match cleanAnswer clean (codec.read answer) with
    | .ok response => some (codec.write response)
    | .error _ => none

/-- The answer to a call holds body values. -/
def Draws (ask : Asked) : Prop :=
  BODY_VALUES ∈ ask.properties ∧ (ask.fetchText = true ∨ ask.fetchHtml = true ∨ ask.fetchAll = true)

/-- The parts come with what the pass goes by. -/
def Described (ask : Asked) : Prop := "partId" ∈ ask.bodyProperties ∧ "type" ∈ ask.bodyProperties

/-- A call of a request as the server may take it. -/
def Takes (request : Json) (name : String) (ask : Asked) : Prop :=
  ∃ tag calls given resolved, methodCalls request = some calls ∧
    .arr [.str name, .obj given, .str tag] ∈ calls ∧ Resolves given resolved ∧
    asked resolved = some ask

/-- The pass goes by what the answer tells: a text the proxy cannot read draws no body values, and
where the request wants bodies each call that draws values has the parts described. -/
structure Told (body : β) : Prop where
  unread : codec.read body = none → ∀ request, codec.json body = some request → ∀ name ask,
    name = EMAIL_GET ∨ name = EMAIL_PARSE → Takes request name ask → ¬ Draws ask
  described : ∀ request, codec.read body = some request → inspect (some request) = .ok .bodies →
    ∀ ask, Takes request EMAIL_GET ask → Draws ask → Described ask

/-- Whatever a conforming server answers, no value of an HTML part leaves that the sanitizer did not
give. -/
def Answers (body : β) : Prop :=
  ∀ request answer response messages out left, codec.json body = some request →
    codec.json answer = some response → Conforms request response messages →
    answered codec clean body answer = some out → codec.json out = some left →
    Safe clean left messages

end Answered

variable {β : Type} {codec : Codec β} {clean : String → String} {given resolved email : Arguments}
  {ask : Asked} {message : Message}

/-! ## Calls without body values -/

theorem asked_eq (h : asked resolved = some ask) :
    listOf resolved "properties" DEFAULT_PROPERTIES = some ask.properties ∧
      listOf resolved "bodyProperties" DEFAULT_BODY_PROPERTIES = some ask.bodyProperties ∧
      flagOf resolved "fetchTextBodyValues" = some ask.fetchText ∧
      flagOf resolved "fetchHTMLBodyValues" = some ask.fetchHtml ∧
      flagOf resolved FETCH_ALL = some ask.fetchAll := by
  simp only [asked, Option.bind_eq_bind, Option.bind_eq_some_iff] at h
  obtain ⟨_, h1, _, h2, _, h3, _, h4, _, h5, h⟩ := h
  obtain rfl := Option.some.inj h
  exact ⟨h1, h2, h3, h4, h5⟩

/-- A text of a list is among its items. -/
theorem names_of_texts {items : List Json} {found : List String} {text : String}
    (h : texts (.arr items) = some found) : names items text = true ↔ text ∈ found := by
  rw [texts] at h
  induction items generalizing found with
  | nil =>
    rw [List.mapM_nil] at h
    obtain rfl := Option.some.inj h
    simp [names]
  | cons item items ih =>
    simp only [List.mapM_cons, Option.bind_eq_bind, Option.bind_eq_some_iff] at h
    obtain ⟨first, hfirst, rest, hrest, h⟩ := h
    obtain rfl := Option.some.inj h
    have hnames : names (item :: items) text = (decide (item.asStr = some text) || names items text) :=
      rfl
    rw [hnames, Bool.or_eq_true, decide_eq_true_eq, ih hrest, hfirst, List.mem_cons,
      Option.some.injEq, eq_comm]

theorem lookup_resolved (h : referencesBodies given = false) (hresolves : Resolves given resolved) :
    lookup resolved "properties" = lookup given "properties" ∧
      lookup resolved FETCH_ALL = lookup given FETCH_ALL := by
  simp only [referencesBodies, REFERENCED, List.any_cons, List.any_nil, Bool.or_false,
    Bool.or_eq_false_iff, Option.isSome_eq_false_iff, Option.isNone_iff_eq_none] at h
  exact ⟨hresolves "properties" h.1, hresolves FETCH_ALL h.2.2.2⟩

theorem not_draws_of_bare {name : String} (h : Bare (name, given))
    (hresolves : Resolves given resolved) (hask : asked resolved = some ask) : ¬ Draws ask := by
  rintro ⟨hvalues, -⟩
  obtain ⟨hproperties, -⟩ := asked_eq hask
  have hasks := h.asks
  rw [asksBodies, Bool.or_eq_false_iff] at hasks
  obtain ⟨-, hasks⟩ := hasks
  rw [listOf, (lookup_resolved h.references hresolves).1] at hproperties
  simp only [properties] at hasks
  cases hlookup : lookup given "properties" with
  | none => rw [hlookup] at hasks; cases hasks
  | some value =>
    rw [hlookup] at hasks hproperties
    cases value with
    | arr items =>
      have hnone : names items BODY_VALUES = false := hasks
      rw [(names_of_texts hproperties).2 hvalues] at hnone
      cases hnone
    | null => cases hasks
    | bool value => cases hasks
    | num literal => cases hasks
    | str text => cases hasks
    | obj fields => cases hasks

/-- A part whose value an answer shows was fetched. -/
theorem Shows.fetched (h : Shows ask message email) {part : Part} (hpart : part ∈ message.parts)
    {values : Arguments} (hvalues : lookup email BODY_VALUES = some (.obj values)) :
    Valued values part.partId ∧ (lookup values part.partId ≠ none →
      BODY_VALUES ∈ ask.properties ∧ Fetched ask message part) := by
  have hshown := h.values
  split at hshown
  next hasked =>
    obtain ⟨shown, hlookup, hentries⟩ := hshown
    rw [hvalues] at hlookup
    obtain rfl := Json.obj.inj (Option.some.inj hlookup)
    refine ⟨fun entry hentry => ?_, fun hsome => ⟨hasked, ?_⟩⟩
    · obtain ⟨-, -, -, hmembers⟩ := hentries _ _ hentry
      exact hmembers
    · obtain ⟨entry, hentry⟩ := Option.ne_none_iff_exists'.1 hsome
      obtain ⟨other, hfetched, hid, -⟩ := hentries _ _ hentry
      have hother : other ∈ message.parts := by
        rcases hfetched with ⟨-, hin⟩ | ⟨-, hin⟩ | ⟨-, hin⟩
        · exact message.text_mem other hin
        · exact message.html_mem other hin
        · exact hin
      obtain rfl := List.inj_on_of_nodup_map message.apart hother hpart hid
      exact hfetched
  next =>
    rw [hvalues] at hshown
    cases hshown

theorem Fetched.draws {part : Part} (h : Fetched ask message part)
    (hasked : BODY_VALUES ∈ ask.properties) : Draws ask := by
  refine ⟨hasked, ?_⟩
  rcases h with ⟨hflag, -⟩ | ⟨hflag, -⟩ | ⟨hflag, -⟩
  · exact .inl hflag
  · exact .inr (.inl hflag)
  · exact .inr (.inr hflag)

theorem safeEmail_of_bare (h : Shows ask message email) (hdraws : ¬ Draws ask) :
    SafeEmail clean message email := by
  intro part hpart _ values hvalues entry text hentry
  obtain ⟨hasked, hfetched⟩ := (h.fetched hpart hvalues).2 (by rw [hentry]; exact Option.some_ne_none _)
  exact absurd (hfetched.draws hasked) hdraws

/-! ## The pass -/

/-- What the pass makes of the values of an email. -/
theorem lookup_cleanEmail {values : Arguments}
    (h : lookup (cleanEmail clean email) BODY_VALUES = some (.obj values)) :
    ∃ before, lookup email BODY_VALUES = some (.obj before) ∧
      values = (htmlParts (lookup email HTML_BODY)).foldl (cleanValue clean) before := by
  rw [cleanEmail] at h
  split at h
  next before hbefore =>
    obtain ⟨value, hlookup, hobject⟩ := Option.bind_eq_some_iff.1 hbefore
    obtain rfl := asObject_eq_some.1 hobject
    refine ⟨before, hlookup, ?_⟩
    have hvalues : some (Json.obj ((htmlParts (lookup email "htmlBody")).foldl (cleanValue clean)
        before)) = some (.obj values) := by
      rw [← h]
      exact lookup_insert_self.symm
    exact (Json.obj.inj (Option.some.inj hvalues)).symm
  next hnone =>
    rw [show ("bodyValues" : String) = BODY_VALUES from rfl, h] at hnone
    cases hnone

theorem exists_described {properties : List String} {parts : List Part} {shown : List Json}
    (h : List.Forall₂ (Describes properties) parts shown) {part : Part} (hpart : part ∈ parts) :
    ∃ item ∈ shown, Describes properties part item := by
  induction h with
  | nil => exact absurd hpart List.not_mem_nil
  | @cons first item parts shown hfirst _ ih =>
    rcases List.mem_cons.1 hpart with rfl | hpart
    · exact ⟨item, List.mem_cons_self, hfirst⟩
    · obtain ⟨other, hother, hdescribes⟩ := ih hpart
      exact ⟨other, List.mem_cons_of_mem _ hother, hdescribes⟩

/-- A part that is described stands among those the pass cleans. -/
theorem mem_htmlParts {part : Part} (hpart : part ∈ message.htmlBody) (hhtml : part.isHtml = true)
    (hdescribed : Described ask) (hasked : HTML_BODY ∈ ask.properties)
    (h : Shows ask message email) : part.partId ∈ htmlParts (lookup email HTML_BODY) := by
  have hshown := h.html
  rw [if_pos hasked] at hshown
  obtain ⟨shown, hlookup, hdescribes⟩ := hshown
  rw [hlookup, htmlParts]
  obtain ⟨item, hitem, hdescribe⟩ := exists_described hdescribes hpart
  have hid := hdescribe.partId
  have htype := hdescribe.type
  rw [if_pos hdescribed.1] at hid
  rw [if_pos hdescribed.2] at htype
  refine List.mem_filterMap.2 ⟨item, List.mem_filter.2 ⟨hitem, ?_⟩, ?_⟩
  · rw [isHtml, htype]
    exact hhtml
  · rw [hid]
    rfl

/-- **The pass cleans what it was told of.** -/
theorem safeEmail_cleaned (h : Shows ask message email)
    (hserved : ∀ part, Fetched ask message part → part.isHtml = true →
      BODY_VALUES ∈ ask.properties →
        part.partId ∈ htmlParts (lookup email HTML_BODY)) :
    SafeEmail clean message (cleanEmail clean email) := by
  intro part hpart hhtml values hvalues
  obtain ⟨before, hbefore, rfl⟩ := lookup_cleanEmail hvalues
  obtain ⟨hvalued, hfetched⟩ := h.fetched hpart hbefore
  refine (fold_cleanValue clean _ hvalued).2 ?_
  by_cases hnone : lookup before part.partId = none
  · refine .inr fun entry text hentry => ?_
    rw [hnone] at hentry
    cases hentry
  · obtain ⟨hasked, hfetch⟩ := hfetched hnone
    exact .inl (hserved part hfetch hhtml hasked)

/-- A call that is served asks for `htmlBody` and not for everything. -/
theorem asked_of_served {name : String} (h : Served (name, given))
    (hresolves : Resolves given resolved) (hask : asked resolved = some ask) :
    HTML_BODY ∈ ask.properties ∧ ask.fetchAll = false := by
  obtain ⟨hproperties, -, -, -, hall⟩ := asked_eq hask
  obtain ⟨hsame, hsameAll⟩ := lookup_resolved h.references hresolves
  constructor
  · have hhtml := h.html
    rw [lacksHtmlBody] at hhtml
    rw [listOf, hsame] at hproperties
    cases hlookup : lookup given "properties" with
    | none =>
      rw [hlookup] at hproperties
      rw [← Option.some.inj hproperties]
      decide
    | some value =>
      simp only [hlookup] at hhtml hproperties
      cases value with
      | null =>
        rw [← Option.some.inj hproperties]
        decide
      | arr items =>
        have hnames : names items HTML_BODY = true := by simpa using hhtml
        exact (names_of_texts hproperties).1 hnames
      | bool value => cases hhtml
      | num literal => cases hhtml
      | str text => cases hhtml
      | obj fields => cases hhtml
  · have hunset := h.all
    rw [flagOf, hsameAll] at hall
    simp only at hunset
    cases hlookup : lookup given FETCH_ALL with
    | none => rw [hlookup] at hall; exact (Option.some.inj hall).symm
    | some value =>
      rw [hlookup] at hall hunset
      cases value with
      | null => exact (Option.some.inj hall).symm
      | bool value =>
        cases value with
        | true => cases hunset
        | false => exact (Option.some.inj hall).symm
      | arr items => cases hunset
      | num literal => cases hunset
      | str text => cases hunset
      | obj fields => cases hunset

/-- The calls of an answer after the pass. -/
theorem responses_cleaned {response cleaned : Json}
    (h : cleanAnswer clean (some response) = .ok cleaned) :
    responses cleaned = (responses response).map (cleanCall clean) := by
  cases response with
  | obj fields =>
    simp only [cleanAnswer] at h
    split at h
    next calls hcalls =>
      obtain rfl := Except.ok.inj h
      simp only [responses, get_obj, lookup_insert_self, hcalls, Option.bind_some, asArray,
        Option.getD_some]
    next => cases h
  | _ => cases h

/-- A response after the pass and before it. -/
theorem cleanCall_inv {call id : Json} {name : String} {arguments : Arguments}
    (h : cleanCall clean call = .arr [.str name, .obj arguments, id]) :
    ∃ before, call = .arr [.str name, .obj before, id] ∧
      (name = EMAIL_GET → emailsOf name arguments = (emailsOf name before).map (cleanItem clean)) ∧
      (name ≠ EMAIL_GET → arguments = before) := by
  unfold cleanCall at h
  split at h
  next name' before id' =>
    split at h
    next hname =>
      split at h
      next list hlist =>
        obtain ⟨rfl, hrest⟩ := List.cons.inj (Json.arr.inj h)
        obtain ⟨harguments, hid⟩ := List.cons.inj hrest
        obtain rfl := Json.obj.inj harguments
        obtain ⟨rfl, -⟩ := List.cons.inj hid
        have hget : name = EMAIL_GET := Option.some.inj hname
        refine ⟨before, rfl, fun _ => ?_, fun hne => absurd hget hne⟩
        simp only [emailsOf, if_pos hget, lookup_insert_self, hlist, Option.bind_some, asArray,
          Option.getD_some]
      next hlist =>
        obtain ⟨rfl, hrest⟩ := List.cons.inj (Json.arr.inj h)
        obtain ⟨harguments, hid⟩ := List.cons.inj hrest
        obtain rfl := Json.obj.inj harguments
        obtain ⟨rfl, -⟩ := List.cons.inj hid
        refine ⟨before, rfl, fun hget => ?_, fun _ => rfl⟩
        simp only [emailsOf, if_pos hget, hlist, Option.getD_none, List.map_nil]
    next hname =>
      obtain ⟨rfl, hrest⟩ := List.cons.inj (Json.arr.inj h)
      obtain ⟨harguments, hid⟩ := List.cons.inj hrest
      obtain rfl := Json.obj.inj harguments
      obtain ⟨rfl, -⟩ := List.cons.inj hid
      exact ⟨before, rfl, fun hget => absurd (congrArg some hget) hname, fun _ => rfl⟩
  next hshape => exact absurd h (hshape _ _ _)

theorem cleanItem_inv {item : Json} {members : Arguments}
    (h : cleanItem clean item = .obj members) :
    ∃ before, item = .obj before ∧ members = cleanEmail clean before := by
  cases item with
  | obj before => exact ⟨before, rfl, (Json.obj.inj h).symm⟩
  | _ => cases h

/-! ## The condition is enough -/

/-- A call of the request stands among the invocations that are inspected. -/
theorem mem_invocations {name tag : String} {calls : List Json}
    (h : .arr [.str name, .obj given, .str tag] ∈ calls) :
    (name, given) ∈ calls.filterMap invocation :=
  List.mem_filterMap.2 ⟨_, h, rfl⟩

theorem inspect_some {request : Json} {calls : List Json} {wants : Wants}
    (hcalls : methodCalls request = some calls) (h : inspect (some request) = .ok wants) :
    (calls.filterMap invocation).foldlM inspectCall .headers = .ok wants := by
  rwa [inspect, Option.bind_some, hcalls] at h

/-- The name of a response with an email in it. -/
theorem name_of_email {name : String} {arguments : Arguments} {j : Nat} {email : Json}
    (h : (emailsOf name arguments)[j]? = some email) : name = EMAIL_GET ∨ name = EMAIL_PARSE := by
  by_contra hname
  rw [not_or] at hname
  rw [emailsOf, if_neg hname.1, if_neg hname.2] at h
  cases h

theorem answers_of_told (hdocumented : codec.Documented) {body : β} (h : Told codec body) :
    Answers codec clean body := by
  intro request answer response messages out left hrequest hanswer hconforms hout hleft
  rw [answered] at hout
  split at hout
  next => cases hout
  next hwants =>
    -- As headers: no call draws a value.
    obtain rfl := Option.some.inj hout
    obtain rfl := Option.some.inj (hanswer.symm.trans hleft)
    intro i name arguments id hresponse j members hemail
    have hname := name_of_email hemail
    obtain ⟨tag, calls, given, resolved, ask, rfl, hcalls, hcall, hresolves, hask, hemails⟩ :=
      hconforms i name arguments id hresponse hname
    obtain ⟨members', hmembers, hshows⟩ := hemails j _ hemail
    obtain rfl := Json.obj.inj hmembers
    refine safeEmail_of_bare hshows ?_
    cases hread : codec.read body with
    | none =>
      exact h.unread hread request hrequest name ask hname
        ⟨tag, calls, given, resolved, hcalls, hcall, hresolves, hask⟩
    | some read =>
      obtain rfl := Option.some.inj ((hdocumented.read_json _ _ hread).symm.trans hrequest)
      rw [hread] at hwants
      rcases inspect_calls (inspect_some hcalls hwants) (mem_invocations hcall) with
        hbare | ⟨-, -, hbodies⟩
      · exact not_draws_of_bare (hbare hname) hresolves hask
      · cases hbodies
  next hwants =>
    -- As bodies: what a call draws goes through the pass.
    cases hread : codec.read body with
    | none => rw [hread] at hwants; cases hwants
    | some read =>
    obtain rfl := Option.some.inj ((hdocumented.read_json _ _ hread).symm.trans hrequest)
    rw [hread] at hwants
    cases hreadAnswer : codec.read answer with
    | none => rw [hreadAnswer] at hout; cases hout
    | some readAnswer =>
    obtain rfl := Option.some.inj ((hdocumented.read_json _ _ hreadAnswer).symm.trans hanswer)
    rw [hreadAnswer] at hout
    split at hout
    next cleaned hcleaned =>
      obtain rfl := Option.some.inj hout
      obtain rfl := Option.some.inj ((hdocumented.write_json cleaned).symm.trans hleft)
      intro i name arguments id hresponse j members hemail
      have hname := name_of_email hemail
      rw [responses_cleaned hcleaned, List.getElem?_map, Option.map_eq_some_iff] at hresponse
      obtain ⟨call, hcallAt, hclean⟩ := hresponse
      obtain ⟨before, rfl, hget, hother⟩ := cleanCall_inv hclean
      obtain ⟨tag, calls, given, resolved, ask, rfl, hcalls, hcall, hresolves, hask, hemails⟩ :=
        hconforms i name before id hcallAt hname
      have hinspected := inspect_calls (inspect_some hcalls hwants) (mem_invocations hcall)
      by_cases hnameGet : name = EMAIL_GET
      · rw [hget hnameGet, List.getElem?_map, Option.map_eq_some_iff] at hemail
        obtain ⟨item, hitem, hcleanItem⟩ := hemail
        obtain ⟨email, rfl, rfl⟩ := cleanItem_inv hcleanItem
        obtain ⟨email', hmembers, hshows⟩ := hemails j _ hitem
        obtain rfl := Json.obj.inj hmembers
        refine safeEmail_cleaned hshows fun part hfetched hhtml hasked => ?_
        have hdraws := hfetched.draws hasked
        rcases hinspected with hbare | ⟨-, hserved, -⟩
        · exact absurd hdraws (not_draws_of_bare (hbare hname) hresolves hask)
        · obtain ⟨hbody, hall⟩ := asked_of_served hserved hresolves hask
          have hdescribed := h.described _ hread hwants ask
            ⟨tag, calls, given, resolved, hcalls, hnameGet ▸ hcall, hresolves, hask⟩ hdraws
          have hlisted : part ∈ (messages i j).htmlBody := by
            rcases hfetched with ⟨-, hin⟩ | ⟨-, hin⟩ | ⟨hflag, -⟩
            · exact (messages i j).listed part hin hhtml
            · exact hin
            · rw [hall] at hflag
              cases hflag
          exact mem_htmlParts hlisted hhtml hdescribed hbody hshows
      · obtain rfl := hother hnameGet
        obtain ⟨email', hmembers, hshows⟩ := hemails j _ hemail
        obtain rfl := Json.obj.inj hmembers
        refine safeEmail_of_bare hshows ?_
        rcases hinspected with hbare | ⟨hnameGet', -⟩
        · exact not_draws_of_bare (hbare hname) hresolves hask
        · exact absurd hnameGet' hnameGet
    next => cases hout

end Huliho.Bodies
