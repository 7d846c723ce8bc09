import Huliho.Drafts.Read
import Huliho.Drafts.Tree
import Mathlib.Data.List.Forall2
import Mathlib.Data.Option.Basic

/-!
# A draft's row, written at once or synced

`ReadsBack` is what the mail libraries are trusted with: every field that was written is read back.
Then the row the bridge writes at once is the one the sync derives from the message exactly for the
drafts that are `Kept` (**`sameRow_iff`**): no field is an empty list, no name is empty, the preview
is read from no blob and the date is one that can be written. What a draft threads by and whether it
holds an attachment are the same for every draft.
-/

namespace Huliho.Drafts

open Session

/-! ## Reading back -/

/-- An entry that says what was written of an address; an empty name may be read as none. -/
def SameEntry (address : Address) (entry : Entry) : Prop :=
  entry.address = some address.email ∧
    entry.name.filter (fun name => name ≠ []) = address.name.filter fun name => name ≠ []

/-- An id field that says what was written. -/
inductive SameIds : Option (List Text) → Option HeaderValue → Prop
  | none : SameIds none none
  | text (id : Text) : SameIds (some [id]) (some (.text id))
  | textList (list : List Text) : SameIds (some list) (some (.textList list))

/-- A header that says what the mail builder was given. -/
structure ReadsBack (written : MessageBuilder) (parsed : Parsed) : Prop where
  from_ : Option.Rel (List.Forall₂ SameEntry) written.from_ parsed.from_
  sender : Option.Rel (List.Forall₂ SameEntry) written.sender parsed.sender
  replyTo : Option.Rel (List.Forall₂ SameEntry) written.replyTo parsed.replyTo
  to_ : Option.Rel (List.Forall₂ SameEntry) written.to_ parsed.to_
  cc : Option.Rel (List.Forall₂ SameEntry) written.cc parsed.cc
  bcc : Option.Rel (List.Forall₂ SameEntry) written.bcc parsed.bcc
  subject : parsed.subject = written.subject
  messageId : SameIds (some [written.messageId]) parsed.messageId
  inReplyTo : SameIds written.inReplyTo parsed.inReplyTo
  references : SameIds written.references parsed.references
  date : parsed.date = some ⟨true, written.date⟩

/-! ## The two rows -/

/-- The leaf a preview is read from: the first plain text, else the first HTML. -/
def Draft.previewLeaf (draft : Draft) : Option (List Nat × Part) :=
  let first := fun wanted => (draft.body.leaves []).find? fun leaf => leaf.2.isBody wanted
  (first PLAIN).or (first HTML)

/-- A preview taken from the text part the sync chose. -/
def SamePreview (draft : Draft) : Option PreviewPart → Prop
  | none => draft.found = none
  | some part => ∃ number head text, pathOf number = part.path ∧
      draft.body.at number = some (.value head text) ∧
      draft.found = some (if part.html then .html else .plain, text)

/-- Two rows that say the same of a draft's message. -/
structure SameRow {Hash : Type} [DecidableEq Hash] (keyedHash : Text → Hash) (draft : Draft)
    (written synced : EmailFacts) : Prop where
  from_ : written.personal.from_ = synced.personal.from_
  sender : written.personal.sender = synced.personal.sender
  replyTo : written.personal.replyTo = synced.personal.replyTo
  to_ : written.personal.to_ = synced.personal.to_
  cc : written.personal.cc = synced.personal.cc
  bcc : written.personal.bcc = synced.personal.bcc
  subject : written.personal.subject = synced.personal.subject
  messageId : written.personal.messageId = synced.personal.messageId
  inReplyTo : written.personal.inReplyTo = synced.personal.inReplyTo
  references : written.personal.references = synced.personal.references
  sentAt : written.sentAt = synced.sentAt
  hasAttachment : written.hasAttachment = synced.hasAttachment
  hashes : ∀ hash, hash ∈ namedHashes keyedHash written.personal ↔
    hash ∈ namedHashes keyedHash synced.personal
  preview : SamePreview draft synced.personal.previewPart

/-- A field that is absent or a list of addresses with names that are absent or not empty. -/
def KeptField (field : Option (List Address)) : Prop :=
  field ≠ some [] ∧ ∀ list, field = some list → ∀ address ∈ list, address.name ≠ some []

/-- A draft whose row can be written at once. -/
structure Kept (utcDate : Int → Option Text) (draft : Draft) (stamp : Stamp) : Prop where
  addresses : ∀ field ∈ draft.personal.addressFields, KeptField field
  ids : ∀ field ∈ draft.personal.idFields, field ≠ some []
  preview : ∀ number leaf, draft.previewLeaf = some (number, leaf) →
    ∃ head text, leaf = .value head text
  date : (utcDate stamp.date).isSome

variable {field : Option (List Address)} {entries : Option (List Entry)} {draft : Draft}

/-! ## Fields -/

/-- An address with its name where it has one. -/
def Address.named (address : Address) : Address :=
  { address with name := address.name.filter fun name => name ≠ [] }

theorem named_eq_iff {address : Address} : address.named = address ↔ address.name ≠ some [] := by
  obtain ⟨name, email⟩ := address
  rw [Address.named, Address.mk.injEq, and_iff_left rfl]
  cases name with
  | none => simp
  | some name => by_cases hname : name = [] <;> simp [hname, Option.filter]

theorem entryAddress_same {list : List Address} {found : List Entry}
    (h : List.Forall₂ SameEntry list found) :
    found.filterMap entryAddress = list.map Address.named := by
  induction h with
  | nil => rfl
  | @cons address entry list found h _ ih =>
    have hentry : entryAddress entry = some address.named := by
      rw [entryAddress, h.1, Option.map_some, h.2]
      rfl
    rw [List.filterMap_cons_some hentry, ih, List.map_cons]

/-- **An address field reads back with its empty names dropped**, an empty one as absent. -/
theorem keptAddresses_same (h : Option.Rel (List.Forall₂ SameEntry) (filled field) entries)
    (hbound : ∀ list, field = some list → list.length ≤ MAX_ADDRESSES) :
    keptAddresses entries = (filled field).map (List.map Address.named) := by
  rcases field with _ | _ | ⟨address, list⟩
  · cases h
    rfl
  · cases h
    rfl
  · cases h with
    | some h =>
      have hlength := hbound _ rfl
      have hfound := entryAddress_same h
      have htake : ((address :: list).map Address.named).take MAX_KEPT_ADDRESSES =
          (address :: list).map Address.named :=
        List.take_of_length_le (by rw [List.length_map]; exact hlength)
      rw [keptAddresses, Option.bind_some, hfound, htake]
      rfl

/-- A list whose names are absent or not empty keeps them. -/
theorem named_list_iff {list : List Address} :
    list.map Address.named = list ↔ ∀ address ∈ list, address.name ≠ some [] := by
  have hmap : list.map Address.named = list ↔ list.map Address.named = list.map fun a => a := by
    rw [List.map_id']
  rw [hmap, List.map_inj_left]
  exact forall₂_congr fun address _ => named_eq_iff

/-- **An address field is the same for both rows where it is kept.** -/
theorem field_iff (h : Option.Rel (List.Forall₂ SameEntry) (filled field) entries)
    (hbound : ∀ list, field = some list → list.length ≤ MAX_ADDRESSES) :
    field = keptAddresses entries ↔ KeptField field := by
  rw [keptAddresses_same h hbound]
  unfold KeptField
  rcases field with _ | _ | ⟨address, list⟩
  · simp [filled]
  · simp [filled]
  · have hfilled : filled (some (address :: list)) = some (address :: list) := rfl
    rw [hfilled, Option.map_some, Option.some.injEq, eq_comm, named_list_iff]
    constructor
    · intro hnames
      refine ⟨fun h => List.cons_ne_nil _ _ (Option.some.inj h), fun list hlist => ?_⟩
      rw [← Option.some.inj hlist]
      exact hnames
    · exact fun h => h.2 _ rfl

variable {list : Option (List Text)} {parsed : Option HeaderValue}

/-- **An id field reads back**, an empty one as absent. -/
theorem keptIds_same (h : SameIds (filled list) parsed)
    (hbound : ∀ ids, list = some ids → ids.length ≤ MAX_MESSAGE_IDS) :
    keptIds parsed = filled list := by
  have hwritten : ∀ ids, filled list = some ids → ids ≠ [] ∧ ids.length ≤ MAX_KEPT_IDS := by
    rcases list with _ | _ | ⟨id, ids⟩
    · rintro _ ⟨⟩
    · rintro _ ⟨⟩
    · rintro _ ⟨rfl⟩
      exact ⟨List.cons_ne_nil _ _, hbound _ rfl⟩
  generalize filled list = written at h hwritten
  cases h with
  | none => rfl
  | text id => rfl
  | textList ids =>
    obtain ⟨hne, hlength⟩ := hwritten ids rfl
    have htake : ids.take MAX_KEPT_IDS = ids := List.take_of_length_le hlength
    have hfound : ids.take MAX_KEPT_IDS ≠ [] := by rwa [htake]
    refine (if_pos hfound).trans ?_
    dsimp only
    rw [htake]

theorem filled_iff : list = filled list ↔ list ≠ some [] := by
  rcases list with _ | _ | ⟨id, ids⟩ <;> simp [filled]

theorem filled_getD : (filled list).getD [] = list.getD [] := by
  rcases list with _ | _ | ⟨id, ids⟩ <;> rfl

/-! ## The preview -/

/-- The text a leaf gives a preview of a type. -/
def Part.textOf (wanted : Text) (part : Part) : Option Text :=
  match part with
  | .value head text =>
    if head.mediaType = wanted ∧ head.disposition ≠ some ATTACHMENT then some text else none
  | _ => none

mutual

/-- The first text of a type is that of the first leaf that gives one. -/
theorem firstText_leaves : ∀ (part : Part) (wanted : Text) (number : List Nat),
    part.firstText wanted = (part.leaves number).findSome? fun leaf => leaf.2.textOf wanted
  | .value head text, wanted, number => by
    rw [Part.firstText, Part.leaves, List.findSome?_cons, Part.textOf]
    split_ifs <;> rfl
  | .blob head id, wanted, number => rfl
  | .parts head parts, wanted, number => by
    rw [Part.firstText, Part.leaves, firstTextEach_leaves parts wanted number 0]

theorem firstTextEach_leaves : ∀ (parts : List Part) (wanted : Text) (number : List Nat)
    (index : Nat), firstTextEach wanted parts =
      (leavesEach number index parts).findSome? fun leaf => leaf.2.textOf wanted
  | [], wanted, number, index => rfl
  | part :: parts, wanted, number, index => by
    rw [firstTextEach, leavesEach, List.findSome?_append, ← firstText_leaves part wanted,
      ← firstTextEach_leaves parts wanted]

end

/-- A text comes from a leaf of its type. -/
theorem isBody_of_textOf {part : Part} {wanted text : Text} (h : part.textOf wanted = some text) :
    part.isBody wanted = true ∧ ∃ head, part = .value head text := by
  unfold Part.textOf at h
  cases part with
  | value head said =>
    dsimp only at h
    split_ifs at h with hbody
    cases h
    refine ⟨?_, head, rfl⟩
    rw [Part.isBody, Part.head, decide_eq_true hbody.1, decide_eq_true hbody.2]
    rfl
  | blob => cases h
  | parts => cases h

/-- The first leaf of a type gives its text, where it is a body value. -/
theorem firstText_value {part : Part} {wanted text : Text} {number : List Nat} {head : Head}
    (h : (part.leaves []).find? (fun leaf => leaf.2.isBody wanted) =
      some (number, .value head text)) :
    part.firstText wanted = some text := by
  rw [firstText_leaves part wanted []]
  generalize part.leaves [] = leaves at h
  obtain ⟨hbody, before, after, rfl, hbefore⟩ := List.find?_eq_some_iff_append.1 h
  have hskip : before.findSome? (fun leaf => leaf.2.textOf wanted) = none := by
    rw [List.findSome?_eq_none_iff]
    intro leaf hleaf
    cases htext : leaf.2.textOf wanted with
    | none => rfl
    | some said =>
      have := hbefore leaf hleaf
      rw [(isBody_of_textOf htext).1] at this
      cases this
  rw [List.findSome?_append, hskip, Option.none_or, List.findSome?_cons]
  have hhead : (Part.value head text).isBody wanted = true := hbody
  rw [Part.isBody, Part.head, Bool.and_eq_true, decide_eq_true_eq, decide_eq_true_eq] at hhead
  have htext : (Part.value head text).textOf wanted = some text := if_pos hhead
  rw [htext]

theorem firstText_none {part : Part} {wanted : Text}
    (h : (part.leaves []).find? (fun leaf => leaf.2.isBody wanted) = none) :
    part.firstText wanted = none := by
  rw [firstText_leaves part wanted [], List.findSome?_eq_none_iff]
  intro leaf hleaf
  cases htext : leaf.2.textOf wanted with
  | none => rfl
  | some said =>
    exact absurd (isBody_of_textOf htext).1 (List.find?_eq_none.1 h leaf hleaf)

/-- What the first of two lists that agree is, where they look for the same. -/
theorem find?_rel {α β : Type} {R : α → β → Prop} {as : List α} {bs : List β} {p : α → Bool}
    {q : β → Bool} (h : List.Forall₂ R as bs) (hpq : ∀ a b, R a b → p a = q b) :
    Option.Rel R (as.find? p) (bs.find? q) := by
  induction h with
  | nil => exact .none
  | @cons a b as bs hab _ ih =>
    rw [List.find?_cons, List.find?_cons, hpq a b hab]
    cases q b with
    | true => exact .some hab
    | false => exact ih

theorem or_rel {α β : Type} {R : α → β → Prop} {a a' : Option α} {b b' : Option β}
    (h : Option.Rel R a b) (h' : Option.Rel R a' b') : Option.Rel R (a.or a') (b.or b') := by
  cases h with
  | none => exact h'
  | some h => exact .some h

theorem isText_plain (part : Part) :
    (part.isText && !decide (part.head.mediaType = HTML)) = part.isBody PLAIN := by
  unfold Part.isText Part.isBody
  by_cases hhtml : part.head.mediaType = HTML
  · have hplain : part.head.mediaType ≠ PLAIN := by rw [hhtml]; decide
    rw [decide_eq_true hhtml, decide_eq_false hplain, Bool.not_true, Bool.and_false, Bool.false_and]
  · rw [decide_eq_false hhtml, Bool.false_and, Bool.or_false, Bool.not_false, Bool.and_true]

theorem isText_html (part : Part) :
    (part.isText && decide (part.head.mediaType = HTML)) = part.isBody HTML := by
  unfold Part.isText Part.isBody
  by_cases hhtml : part.head.mediaType = HTML
  · have hplain : part.head.mediaType ≠ PLAIN := by rw [hhtml]; decide
    rw [decide_eq_true hhtml, decide_eq_false hplain, Bool.false_and, Bool.false_or, Bool.and_true]
  · rw [decide_eq_false hhtml, Bool.and_false, Bool.false_and]

variable {structure_ : BodyPart} {base64 : Bytes → Text} {blobs : Text → Option Bytes}

/-- **The sync chooses the leaf a preview of the draft is read from**, by its number. -/
theorem previewed_follows (h : Follows (mime base64 blobs draft.body) structure_) :
    Option.Rel Shown draft.previewLeaf (previewed structure_) := by
  have hwalk := walk_follows draft.body [] h
  have hplain := find?_rel (p := fun leaf => !decide (leaf.2.head.mediaType = HTML))
    (q := fun leaf => leaf.html = false) hwalk fun leaf shown hshown => by
      rw [hshown.2]
      cases decide (leaf.2.head.mediaType = HTML) <;> rfl
  have hhtml := find?_rel (p := fun leaf => decide (leaf.2.head.mediaType = HTML))
    (q := fun leaf => leaf.html = true) hwalk fun leaf shown hshown => by
      rw [hshown.2]
      cases decide (leaf.2.head.mediaType = HTML) <;> rfl
  rw [List.find?_filter] at hplain hhtml
  simp only [Bool.decide_and, Bool.decide_eq_true, isText_plain, isText_html] at hplain hhtml
  unfold Draft.previewLeaf previewed
  simpa only [Bool.decide_eq_true] using or_rel hplain hhtml

theorem pathOf_cons (n : Nat) (rest : List Nat) :
    ∃ tail, pathOf (n :: rest) = decimal n ++ tail ∧ (∀ c ∈ tail.head?, ¬ c.isDigit) ∧
      (rest = [] → tail = []) ∧ (rest ≠ [] → tail = '.' :: pathOf rest) := by
  cases rest with
  | nil => exact ⟨[], by simp [pathOf], by simp, fun _ => rfl, fun h => absurd rfl h⟩
  | cons m rest =>
    refine ⟨'.' :: pathOf (m :: rest), rfl, ?_, (fun h => by cases h), fun _ => rfl⟩
    intro c hc
    obtain rfl : '.' = c := Option.some.inj hc
    decide

/-- **A path names one number.** -/
theorem pathOf_inj {number number' : List Nat} (h : pathOf number = pathOf number') :
    number = number' := by
  induction number generalizing number' with
  | nil =>
    cases number' with
    | nil => rfl
    | cons m rest =>
      obtain ⟨tail, htail, -⟩ := pathOf_cons m rest
      rw [htail] at h
      exact absurd (List.append_eq_nil_iff.1 h.symm).1 decimal_ne_nil
  | cons n rest ih =>
    obtain ⟨tail, htail, hdigit, hend, hnext⟩ := pathOf_cons n rest
    cases number' with
    | nil =>
      rw [htail] at h
      exact absurd (List.append_eq_nil_iff.1 h).1 decimal_ne_nil
    | cons m rest' =>
      obtain ⟨tail', htail', hdigit', hend', hnext'⟩ := pathOf_cons m rest'
      rw [htail, htail'] at h
      have hread := congrArg readDecimal h
      rw [readDecimal_append hdigit, readDecimal_append hdigit', Option.some.injEq,
        Prod.mk.injEq] at hread
      obtain ⟨rfl, rfl⟩ := hread
      by_cases hne : rest = []
      · have hnone : rest' = [] := by
          by_contra hne'
          have := hnext' hne'
          rw [hend hne] at this
          cases this
        rw [hne, hnone]
      · have hsome : rest' ≠ [] := by
          intro hnone
          have := hnext hne
          rw [hend' hnone] at this
          cases this
        have htails := (hnext hne).symm.trans (hnext' hsome)
        rw [ih (List.cons.inj htails).2]

/-- The leaf a preview is read from is a plain one, or an HTML one where there is no plain one. -/
theorem previewLeaf_some {number : List Nat} {leaf : Part}
    (h : draft.previewLeaf = some (number, leaf)) :
    (draft.body.leaves []).find? (fun leaf => leaf.2.isBody PLAIN) = some (number, leaf) ∨
      (draft.body.leaves []).find? (fun leaf => leaf.2.isBody PLAIN) = none ∧
        (draft.body.leaves []).find? (fun leaf => leaf.2.isBody HTML) = some (number, leaf) := by
  unfold Draft.previewLeaf at h
  dsimp only at h
  cases hplain : (draft.body.leaves []).find? fun leaf => leaf.2.isBody PLAIN with
  | none =>
    rw [hplain, Option.none_or] at h
    exact .inr ⟨rfl, h⟩
  | some found =>
    rw [hplain, Option.some_or] at h
    exact .inl h

/-- The preview of a leaf that is a body value is its text. -/
theorem found_value {number : List Nat} {head : Head} {text : Text}
    (h : draft.previewLeaf = some (number, .value head text)) :
    draft.found = some (if head.mediaType = HTML then .html else .plain, text) := by
  have htype : ∀ {wanted : Text},
      (draft.body.leaves []).find? (fun leaf => leaf.2.isBody wanted) =
        some (number, .value head text) → head.mediaType = wanted := by
    intro wanted hfind
    have hbody : (Part.value head text).isBody wanted = true := by
      simpa using List.find?_some hfind
    rw [Part.isBody, Bool.and_eq_true, decide_eq_true_eq] at hbody
    exact hbody.1
  unfold Draft.found
  rcases previewLeaf_some h with hplain | ⟨hplain, hhtml⟩
  · have hne : head.mediaType ≠ HTML := by
      rw [htype hplain]
      decide
    rw [firstText_value hplain, if_neg hne]
    rfl
  · rw [firstText_none hplain, firstText_value hhtml, if_pos (htype hhtml)]
    rfl

theorem found_none (h : draft.previewLeaf = none) : draft.found = none := by
  unfold Draft.previewLeaf at h
  dsimp only at h
  rw [Option.or_eq_none_iff] at h
  rw [Draft.found, firstText_none h.1, firstText_none h.2]
  rfl

/-- **The row previews the part the sync chose** where that is a body value. -/
theorem preview_iff (h : Follows (mime base64 blobs draft.body) structure_) :
    SamePreview draft (previewed structure_) ↔
      ∀ number leaf, draft.previewLeaf = some (number, leaf) →
        ∃ head text, leaf = .value head text := by
  have hchosen := previewed_follows h
  have hat : ∀ {number : List Nat} {leaf : Part}, draft.previewLeaf = some (number, leaf) →
      draft.body.at number = some leaf := by
    intro number leaf hleaf
    have hmem : (number, leaf) ∈ draft.body.leaves [] := by
      rcases previewLeaf_some hleaf with hfind | ⟨-, hfind⟩
      · exact List.mem_of_find?_eq_some hfind
      · exact List.mem_of_find?_eq_some hfind
    obtain ⟨rest, hnumber, hat⟩ := leaves_at draft.body hmem
    rw [hnumber]
    exact hat
  generalize previewed structure_ = chosen at hchosen
  cases hleaf : draft.previewLeaf with
  | none =>
    rw [hleaf] at hchosen
    cases hchosen
    exact iff_of_true (found_none hleaf) fun _ _ h => by cases h
  | some chosenLeaf =>
    obtain ⟨number, leaf⟩ := chosenLeaf
    rw [hleaf] at hchosen
    cases hchosen with
    | @some _ part hshown =>
      constructor
      · rintro ⟨number', head, text, hpath, hvalue, -⟩ _ _ heq
        obtain ⟨rfl, rfl⟩ := Prod.mk.inj (Option.some.inj heq)
        obtain rfl : number' = number := pathOf_inj (hpath.trans hshown.1)
        rw [hat hleaf] at hvalue
        exact ⟨head, text, Option.some.inj hvalue⟩
      · intro hvalue
        obtain ⟨head, text, rfl⟩ := hvalue number leaf rfl
        refine ⟨number, head, text, hshown.1.symm, hat hleaf, ?_⟩
        rw [found_value hleaf, hshown.2]
        by_cases hhtml : head.mediaType = HTML
        · simp [Part.head, hhtml]
        · simp [Part.head, hhtml]

/-! ## Rows -/

/-- A message as it is fetched: its structure follows, and no flag settles the attachment mark. -/
structure Fetched (base64 : Bytes → Text) (blobs : Text → Option Bytes)
    (parseHeaders : Bytes → Option Parsed) (draft : Draft) (stamp : Stamp) (fields : Bytes)
    (message : FetchedMessage) : Prop where
  header : message.header = cut fields
  fits : fields.length ≤ MAX_HEADER_BYTES
  parsed : ∃ parsed, parseHeaders fields = some parsed ∧
    ReadsBack (build base64 blobs draft stamp) parsed
  structure_ : ∃ structure_, message.structure_ = some structure_ ∧
    Follows (build base64 blobs draft stamp).body structure_
  unmarked : ∀ flag ∈ message.flags, eqIgnoreAsciiCase flag "$HasAttachment".toList = false ∧
    eqIgnoreAsciiCase flag "$HasNoAttachment".toList = false

/-- Without either flag the structure decides. -/
theorem attachment_unmarked {flags : List Text} {structure_ : Option BodyPart}
    (h : ∀ flag ∈ flags, eqIgnoreAsciiCase flag "$HasAttachment".toList = false ∧
      eqIgnoreAsciiCase flag "$HasNoAttachment".toList = false) :
    hasAttachment flags structure_ = structure_.any fun part => part.attaches false := by
  have hset : ¬ (flags.any fun flag => eqIgnoreAsciiCase flag "$HasAttachment".toList) = true := by
    rw [List.any_eq_true]
    rintro ⟨flag, hflag, his⟩
    rw [(h flag hflag).1] at his
    cases his
  have hclear : ¬ (flags.any fun flag =>
      eqIgnoreAsciiCase flag "$HasNoAttachment".toList) = true := by
    rw [List.any_eq_true]
    rintro ⟨flag, hflag, his⟩
    rw [(h flag hflag).2] at his
    cases his
  rw [hasAttachment, if_neg hset, if_neg hclear]

/-! ## A note -/

/-- A create of one plain text to some addresses. -/
def note (to_ : List Json) : Json :=
  .obj [("mailboxIds", .obj [("m", .bool true)]), ("to", .arr to_),
    ("bodyStructure", .obj [("partId", .str "t")]),
    ("bodyValues", .obj [("t", .obj [("value", .str "x")])])]

/-- What it is read into. -/
def noteDraft (to_ : List Address) : Draft :=
  { mailbox := "m".toList
    keywords := []
    personal := { to_ := some to_ }
    body := .value ⟨IMPLICIT_TYPE, [], none, none, none⟩ ['x'] }

theorem note_read {items : List Json} {list : List Address}
    (h : addresses (.arr items) = some list) : read (note items) = .ok (noteDraft list) := by
  have hvalue : bodyValue (.obj [("value", .str "x")]) = some ['x'] := by decide
  have htext : TEXT.isPrefixOf IMPLICIT_TYPE = true := by decide
  have hpersonal : ∀ r : Reading, r.personal [("mailboxIds", .obj [("m", .bool true)]),
      ("to", .arr items), ("bodyStructure", .obj [("partId", .str "t")]),
      ("bodyValues", .obj [("t", .obj [("value", .str "x")])])] = ({ to_ := some list }, r) := by
    intro r
    simp [Reading.personal, Reading.field, Reading.property, given, Json.lookup, h]
  unfold read note
  simp only [Json.asObject]
  rw [hpersonal]
  simp [Reading.mailbox, Reading.keywords, Reading.bodyValues, Reading.bodyEntry, Reading.insert,
    Reading.body, given, Json.lookup, Json.asObject, Json.asStr, PROPERTIES, PART_PROPERTIES,
    MAX_DEPTH, MAX_PARTS, Reading.part, Reading.contentType, Reading.partField, Reading.property,
    Reading.content, Reading.fits, Reading.refuseIf, htext, hvalue, Part.of, noteDraft]

def ascii (text : String) : Bytes := text.toList.map fun c => c.toNat.toUInt8

/-- The header of the message, with a line that names its addresses. -/
def noteHeader (line : String) : Bytes :=
  ascii "Message-ID: <i@b.test>\r\nDate: Thu, 1 Jan 1970 00:00:00 +0000\r\n" ++ ascii line ++
    ascii "\r\n"

def noteStamp : Stamp := ⟨"i@b.test".toList, 0⟩

/-- What the mail parser reads of that header, with the addresses it finds. -/
def noteParse (line : String) (to_ : Option (List Entry)) (bytes : Bytes) : Option Parsed :=
  if bytes = noteHeader line then
    some ⟨none, to_, none, none, none, none, none, some (.text noteStamp.messageId), none, none,
      some ⟨true, noteStamp.date⟩⟩
  else none

def noteMessage (line : String) : FetchedMessage :=
  ⟨[], 0, 1, cut (noteHeader line), some (.leaf ⟨"text".toList, "plain".toList, 1, none⟩)⟩

def noteDate (timestamp : Int) : Option Text :=
  if timestamp = 0 then some "1970-01-01T00:00:00Z".toList else none

theorem note_fetched {list : List Address} {line : String} {entries : Option (List Entry)}
    (hto : Option.Rel (List.Forall₂ SameEntry) (filled (some list)) entries)
    (hline : (noteHeader line).length ≤ MAX_HEADER_BYTES) :
    Fetched (fun _ => []) (fun _ => none) (noteParse line entries) (noteDraft list) noteStamp
      (noteHeader line) (noteMessage line) := by
  refine ⟨rfl, hline, ⟨_, if_pos rfl, ?_⟩, ⟨_, rfl, ?_⟩, fun _ h => absurd h List.not_mem_nil⟩
  · exact ⟨.none, .none, .none, hto, .none, .none, rfl, .text _, .none, .none, rfl⟩
  · exact .text ⟨by decide, by decide, rfl⟩

/-- **A list without addresses is written as it is and read as absent**, so the two rows of the note
differ. -/
theorem note_emptied :
    read (note []) = .ok (noteDraft []) ∧
      Fetched (fun _ => []) (fun _ => none) (noteParse "" none) (noteDraft []) noteStamp
        (noteHeader "") (noteMessage "") ∧
      ∃ synced, email (noteParse "" none) noteDate (noteMessage "") = some synced ∧
        ¬ SameRow (fun id : Text => id) (noteDraft [])
          ((noteDraft []).row (fun _ text => text) noteStamp 1) synced := by
  have hline : (noteHeader "").length ≤ MAX_HEADER_BYTES := by decide
  refine ⟨note_read rfl, note_fetched .none hline, _, rfl, fun h => ?_⟩
  have hto := h.to_
  have hheader : noteParse "" none (noteMessage "").header = some _ :=
    if_pos (List.take_of_length_le hline)
  unfold parse at hto
  rw [hheader] at hto
  cases hto

/-- **A draft's row is the one the sync derives exactly where it is kept.** -/
theorem sameRow_iff {Hash : Type} [DecidableEq Hash] (keyedHash : Text → Hash)
    (text : Kind → Text → Text) (base64 : Bytes → Text) (blobs : Text → Option Bytes)
    (parseHeaders : Bytes → Option Parsed) (utcDate : Int → Option Text) {value : Json}
    {draft : Draft} {stamp : Stamp} {size : Nat} {fields : Bytes} {message : FetchedMessage}
    {synced : EmailFacts} (hread : read value = .ok draft)
    (hfetched : Fetched base64 blobs parseHeaders draft stamp fields message)
    (hsynced : email parseHeaders utcDate message = some synced) :
    SameRow keyedHash draft (draft.row text stamp size) synced ↔ Kept utcDate draft stamp := by
  obtain ⟨parsed, hparsed, hback⟩ := hfetched.parsed
  obtain ⟨structure_, hstructure, hfollows⟩ := hfetched.structure_
  have hheader : parseHeaders message.header = some parsed := by
    rw [hfetched.header, cut, List.take_of_length_le hfetched.fits, hparsed]
  have hmark : hasAttachment message.flags message.structure_ = draft.hasAttachment := by
    rw [hstructure, attachment_unmarked hfetched.unmarked, Option.any_some, Draft.hasAttachment,
      attaches_follows draft.body hfollows]
  unfold email at hsynced
  split_ifs at hsynced
  cases hsynced
  have hlisted := read_listed hread
  have hfield : ∀ {field : Option (List Address)} {entries : Option (List Entry)},
      field ∈ draft.personal.addressFields →
      Option.Rel (List.Forall₂ SameEntry) (filled field) entries →
      (field = keptAddresses entries ↔ KeptField field) :=
    fun hmem hrel => field_iff hrel (hlisted.addresses _ hmem)
  have hfrom := hfield (by simp [Personal.addressFields]) hback.from_
  have hsender := hfield (by simp [Personal.addressFields]) hback.sender
  have hreplyTo := hfield (by simp [Personal.addressFields]) hback.replyTo
  have hto := hfield (by simp [Personal.addressFields]) hback.to_
  have hcc := hfield (by simp [Personal.addressFields]) hback.cc
  have hbcc := hfield (by simp [Personal.addressFields]) hback.bcc
  have hinReplyTo := keptIds_same hback.inReplyTo (hlisted.ids _ (by simp [Personal.idFields]))
  have hreferences := keptIds_same hback.references (hlisted.ids _ (by simp [Personal.idFields]))
  have hmessageId : keptIds parsed.messageId = filled (some [stamp.messageId]) := by
    refine keptIds_same hback.messageId fun ids hids => ?_
    rw [← Option.some.inj hids]
    exact Nat.succ_le_succ (Nat.zero_le _)
  have hdate : ((parsed.date.filter DateTime.valid).map DateTime.timestamp).filter
      (fun timestamp => (utcDate timestamp).isSome) = some stamp.date ↔
        (utcDate stamp.date).isSome := by
    rw [hback.date]
    exact Option.filter_eq_some_iff.trans (and_iff_right rfl)
  unfold parse
  rw [hheader]
  constructor
  · intro h
    refine ⟨?_, ?_, (preview_iff hfollows).1 ?_, hdate.1 h.sentAt.symm⟩
    · intro field hmem
      simp only [Personal.addressFields, List.mem_cons, List.not_mem_nil, or_false] at hmem
      rcases hmem with rfl | rfl | rfl | rfl | rfl | rfl
      · exact hfrom.1 h.from_
      · exact hsender.1 h.sender
      · exact hreplyTo.1 h.replyTo
      · exact hto.1 h.to_
      · exact hcc.1 h.cc
      · exact hbcc.1 h.bcc
    · intro field hmem
      simp only [Personal.idFields, List.mem_cons, List.not_mem_nil, or_false] at hmem
      rcases hmem with rfl | rfl
      · exact filled_iff.1 (h.inReplyTo.trans hinReplyTo)
      · exact filled_iff.1 (h.references.trans hreferences)
    · have hpreview := h.preview
      rwa [hstructure] at hpreview
  · intro h
    constructor
    · exact hfrom.2 (h.addresses _ (by simp [Personal.addressFields]))
    · exact hsender.2 (h.addresses _ (by simp [Personal.addressFields]))
    · exact hreplyTo.2 (h.addresses _ (by simp [Personal.addressFields]))
    · exact hto.2 (h.addresses _ (by simp [Personal.addressFields]))
    · exact hcc.2 (h.addresses _ (by simp [Personal.addressFields]))
    · exact hbcc.2 (h.addresses _ (by simp [Personal.addressFields]))
    · exact hback.subject.symm
    · exact hmessageId.symm
    · exact (filled_iff.2 (h.ids draft.personal.inReplyTo (by simp [Personal.idFields]))).trans
        hinReplyTo.symm
    · exact (filled_iff.2 (h.ids draft.personal.references (by simp [Personal.idFields]))).trans
        hreferences.symm
    · exact (hdate.2 h.date).symm
    · exact hmark.symm
    · have hids : (draft.row text stamp size).personal.namedIds =
          (keptIds parsed.messageId).getD [] ++ (keptIds parsed.inReplyTo).getD [] ++
            (keptIds parsed.references).getD [] := by
        rw [hmessageId, hinReplyTo, hreferences, filled_getD, filled_getD, filled_getD]
        rfl
      intro hash
      unfold namedHashes
      rw [hids]
      rfl
    · dsimp only
      rw [hstructure]
      exact (preview_iff hfollows).2 h.preview

/-- A note to one address has the same row either way. -/
theorem note_kept :
    ∃ synced, email (noteParse "To: <a@b.test>\r\n" (some [⟨none, some "a@b.test".toList⟩]))
        noteDate (noteMessage "To: <a@b.test>\r\n") = some synced ∧
      SameRow (fun id : Text => id) (noteDraft [⟨none, "a@b.test".toList⟩])
        ((noteDraft [⟨none, "a@b.test".toList⟩]).row (fun _ text => text) noteStamp 1) synced := by
  have haddresses : addresses (.arr [.obj [("email", .str "a@b.test")]]) =
      some [⟨none, "a@b.test".toList⟩] := by decide
  have hentry : Option.Rel (List.Forall₂ SameEntry)
      (filled (some [⟨none, "a@b.test".toList⟩])) (some [⟨none, some "a@b.test".toList⟩]) :=
    .some (.cons ⟨rfl, rfl⟩ .nil)
  have hline : (noteHeader "To: <a@b.test>\r\n").length ≤ MAX_HEADER_BYTES := by decide
  have hleaf : (noteDraft [⟨none, "a@b.test".toList⟩]).previewLeaf =
      some ([], .value ⟨IMPLICIT_TYPE, [], none, none, none⟩ ['x']) := rfl
  refine ⟨_, rfl, (sameRow_iff _ _ _ _ _ _ (note_read haddresses) (note_fetched hentry hline)
    rfl).2 ⟨?_, ?_, ?_, rfl⟩⟩
  · intro field hmem
    simp only [Personal.addressFields, noteDraft, List.mem_cons, List.not_mem_nil, or_false] at hmem
    unfold KeptField
    rcases hmem with rfl | rfl | rfl | rfl | rfl | rfl
    all_goals simp
  · intro field hmem
    simp only [Personal.idFields, noteDraft, List.mem_cons, List.not_mem_nil, or_false] at hmem
    rcases hmem with rfl | rfl
    all_goals exact fun h => by cases h
  · intro number leaf h
    rw [hleaf] at h
    cases h
    exact ⟨_, _, rfl⟩

end Huliho.Drafts
