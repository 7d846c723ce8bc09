import Huliho.Drafts.Synced

/-!
# One tree, two readings

`Follows` says what a server that parses a message as it was built answers for its structure: part
by part, the type and the disposition that were written. The attachment mark the bridge takes from
the draft's own tree is the one the sync takes from that structure (**`attaches_follows`**), and the
text leaves the sync walks are those of the draft under their numbers (**`walk_follows`**).
-/

namespace Huliho.Drafts

open Session

/-- A leaf that says what the headers of its part do. -/
structure SaysHead (head : MimeHead) (leaf : Leaf) : Prop where
  type : head.contentType.cType = leaf.mediaType ++ '/' :: leaf.subtype
  plain : '/' ∉ leaf.mediaType
  disposition : leaf.disposition = head.disposition.map ContentType.cType

mutual

/-- A structure that follows a part as it was written. -/
inductive Follows : MimePart → BodyPart → Prop
  | text {head : MimeHead} {text : Text} {leaf : Leaf} (h : SaysHead head leaf) :
      Follows (.text head text) (.leaf leaf)
  | binary {head : MimeHead} {bytes : Bytes} {encoding : Option Text} {leaf : Leaf}
      (h : SaysHead head leaf) : Follows (.binary head bytes encoding) (.leaf leaf)
  | multipart {head : MimeHead} {subtype : Text} {parts : List MimePart} {inner : List BodyPart}
      (htype : head.contentType.cType = "multipart/".toList ++ subtype)
      (h : FollowsEach parts inner) :
      Follows (.multipart head parts) (.multipart subtype inner)

inductive FollowsEach : List MimePart → List BodyPart → Prop
  | nil : FollowsEach [] []
  | cons {part : MimePart} {body : BodyPart} {parts : List MimePart} {inner : List BodyPart}
      (h : Follows part body) (hrest : FollowsEach parts inner) :
      FollowsEach (part :: parts) (body :: inner)

end

/-- The head of a part. -/
def Part.head : Part → Head
  | .value head _ => head
  | .blob head _ => head
  | .parts head _ => head

mutual

/-- The leaves of a tree under their part numbers. -/
def Part.leaves (number : List Nat) : Part → List (List Nat × Part)
  | .value head text => [(number, .value head text)]
  | .blob head id => [(number, .blob head id)]
  | .parts _ parts => leavesEach number 0 parts

def leavesEach (number : List Nat) (index : Nat) : List Part → List (List Nat × Part)
  | [] => []
  | part :: parts => part.leaves (number ++ [index + 1]) ++ leavesEach number (index + 1) parts

end

/-- The part at a number. -/
def Part.at : List Nat → Part → Option Part
  | [], part => some part
  | k :: number, .parts _ inner => (inner[k - 1]?).bind (Part.at number)
  | _ :: _, _ => none

/-- Whether a part is of a type and not sent as an attachment. -/
def Part.isBody (wanted : Text) (part : Part) : Bool :=
  part.head.mediaType = wanted && part.head.disposition ≠ some ATTACHMENT

/-- A text a preview may be read from. -/
def Part.isText (part : Part) : Bool := part.isBody PLAIN || part.isBody HTML

variable {head : Head} {leaf : Leaf} {text wanted : Text} {value related : Bool}
  {base64 : Bytes → Text} {blobs : Text → Option Bytes}

/-! ## Heads -/

theorem cType_foldl (parameters : List (Text × Text)) (contentType : ContentType) :
    (parameters.foldl (fun t p => t.attribute p.1 p.2) contentType).cType = contentType.cType := by
  induction parameters generalizing contentType with
  | nil => rfl
  | cons p parameters ih => exact ih _

theorem mimeHead_cType : (mimeHead head value).contentType.cType = head.mediaType := by
  unfold mimeHead
  cases head.name <;> cases head.disposition <;> cases value <;> exact cType_foldl _ _

theorem mimeHead_disposition :
    (mimeHead head value).disposition.map ContentType.cType = head.disposition := by
  unfold mimeHead
  cases head.disposition with
  | none => rfl
  | some kind => cases head.name <;> rfl

/-- A type that is a word before its slash. -/
theorem type_word {a b c d : Text} (ha : '/' ∉ a) (hc : '/' ∉ c) :
    a ++ '/' :: b = c ++ '/' :: d ↔ a = c ∧ b = d := by
  constructor
  · intro h
    induction a generalizing c with
    | nil =>
      cases c with
      | nil => exact ⟨rfl, (List.cons.inj h).2⟩
      | cons x c => exact absurd ((List.cons.inj h).1 ▸ List.mem_cons_self) hc
    | cons x a ih =>
      cases c with
      | nil => exact absurd ((List.cons.inj h).1 ▸ List.mem_cons_self) ha
      | cons y c =>
        obtain ⟨hx, hrest⟩ := List.cons.inj h
        have heq := ih (fun hmem => ha (List.mem_cons_of_mem _ hmem))
          (fun hmem => hc (List.mem_cons_of_mem _ hmem)) hrest
        exact ⟨by rw [hx, heq.1], heq.2⟩
  · rintro ⟨rfl, rfl⟩
    rfl

theorem SaysHead.isPrefix (h : SaysHead (mimeHead head value) leaf) (kind : Text)
    (hkind : '/' ∉ kind) :
    (kind ++ ['/']).isPrefixOf head.mediaType = decide (leaf.mediaType = kind) := by
  have htype := h.type
  rw [mimeHead_cType] at htype
  rw [htype, Bool.eq_iff_iff, List.isPrefixOf_iff_prefix, decide_eq_true_eq]
  constructor
  · rintro ⟨rest, hrest⟩
    rw [List.append_assoc] at hrest
    exact ((type_word hkind h.plain).1 hrest).1.symm
  · intro heq
    exact ⟨leaf.subtype, by rw [heq, List.append_assoc]; rfl⟩

theorem SaysHead.mediaType (h : SaysHead (mimeHead head value) leaf) (kind subtype : Text)
    (hkind : '/' ∉ kind) :
    head.mediaType = kind ++ '/' :: subtype ↔ leaf.mediaType = kind ∧ leaf.subtype = subtype := by
  have htype := h.type
  rw [mimeHead_cType] at htype
  rw [htype, type_word h.plain hkind]

theorem SaysHead.attachment (h : SaysHead (mimeHead head value) leaf) :
    leaf.isAttachment = decide (head.disposition = some ATTACHMENT) := by
  rw [Leaf.isAttachment, h.disposition, mimeHead_disposition]

/-- **A leaf counts as an attachment by its head as by its structure.** -/
theorem SaysHead.attaches (h : SaysHead (mimeHead head value) leaf) :
    head.attaches related = (BodyPart.leaf leaf).attaches related := by
  have htext : TEXT.isPrefixOf head.mediaType = decide (leaf.mediaType = "text".toList) :=
    h.isPrefix "text".toList (by decide)
  have himage : IMAGE.isPrefixOf head.mediaType = decide (leaf.mediaType = "image".toList) :=
    h.isPrefix "image".toList (by decide)
  unfold Head.attaches BodyPart.attaches
  rw [htext, himage, h.attachment]
  by_cases htext : leaf.mediaType = "text".toList
  · simp [htext]
  · simp

/-- A blob goes out as bytes under the headers of its part. -/
theorem blob_binary (base64 : Bytes → Text) (head : MimeHead) (bytes : Bytes) :
    ∃ sent encoding, blob base64 head bytes = .binary head sent encoding := by
  unfold blob
  split_ifs <;> exact ⟨_, _, rfl⟩

/-- What follows a leaf of the tree says its head. -/
theorem Follows.of_blob {id : Text} {body : BodyPart}
    (h : Follows (mime base64 blobs (.blob head id)) body) :
    ∃ leaf, body = .leaf leaf ∧ SaysHead (mimeHead head false) leaf := by
  obtain ⟨sent, encoding, hblob⟩ := blob_binary base64 (mimeHead head false) ((blobs id).getD [])
  rw [mime, hblob] at h
  cases h with
  | binary h => exact ⟨_, rfl, h⟩

/-! ## The attachment mark -/

mutual

/-- **A tree counts as the structure that follows it.** -/
theorem attaches_follows : ∀ (part : Part) {body : BodyPart} {related : Bool},
    Follows (mime base64 blobs part) body → part.attaches related = body.attaches related
  | .value head text, _, related, h => by
    rw [mime] at h
    cases h with
    | text h => exact h.attaches
  | .blob head id, _, related, h => by
    obtain ⟨leaf, rfl, hhead⟩ := h.of_blob
    exact hhead.attaches
  | .parts head parts, _, related, h => by
    rw [mime] at h
    cases h with
    | @multipart _ subtype _ _ htype h =>
      have hrelated : decide (head.mediaType = RELATED) = decide (subtype = "related".toList) := by
        rw [mimeHead_cType] at htype
        have hsplit : RELATED = "multipart/".toList ++ "related".toList := by decide
        rw [htype, hsplit, decide_eq_decide, List.append_cancel_left_eq]
      rw [Part.attaches, BodyPart.attaches, hrelated]
      exact attachesAny_follows parts h

theorem attachesAny_follows : ∀ (parts : List Part) {inner : List BodyPart} {related : Bool},
    FollowsEach (mimes base64 blobs parts) inner →
    attachesAny related parts = bodyAttachesAny related inner
  | [], _, related, h => by
    cases h
    rfl
  | part :: parts, _, related, h => by
    rw [mimes] at h
    cases h with
    | cons h hrest =>
      rw [attachesAny, bodyAttachesAny, attaches_follows part h, attachesAny_follows parts hrest]

end

/-! ## The leaves -/

mutual

/-- **A leaf is the part at its number.** -/
theorem leaves_at : ∀ (part : Part) {number found : List Nat} {leaf : Part},
    (found, leaf) ∈ part.leaves number → ∃ rest, found = number ++ rest ∧ part.at rest = some leaf
  | .value head text, number, found, leaf, h => by
    rw [Part.leaves, List.mem_singleton] at h
    obtain ⟨rfl, rfl⟩ := Prod.mk.inj h
    exact ⟨[], (List.append_nil _).symm, rfl⟩
  | .blob head id, number, found, leaf, h => by
    rw [Part.leaves, List.mem_singleton] at h
    obtain ⟨rfl, rfl⟩ := Prod.mk.inj h
    exact ⟨[], (List.append_nil _).symm, rfl⟩
  | .parts head parts, number, found, leaf, h => by
    rw [Part.leaves] at h
    obtain ⟨i, rest, child, rfl, hchild, hat⟩ := leavesEach_at parts h
    refine ⟨(0 + i + 1) :: rest, rfl, ?_⟩
    rw [Part.at, Nat.add_sub_cancel, Nat.zero_add, hchild]
    exact hat

theorem leavesEach_at : ∀ (parts : List Part) {number found : List Nat} {index : Nat} {leaf : Part},
    (found, leaf) ∈ leavesEach number index parts → ∃ i rest child,
      found = number ++ ((index + i + 1) :: rest) ∧ parts[i]? = some child ∧
        child.at rest = some leaf
  | [], number, found, index, leaf, h => absurd h List.not_mem_nil
  | part :: parts, number, found, index, leaf, h => by
    rw [leavesEach, List.mem_append] at h
    rcases h with h | h
    · obtain ⟨rest, rfl, hat⟩ := leaves_at part h
      exact ⟨0, rest, part, by simp, rfl, hat⟩
    · obtain ⟨i, rest, child, rfl, hchild, hat⟩ := leavesEach_at parts h
      exact ⟨i + 1, rest, child, by simp; omega, hchild, hat⟩

end

/-! ## The walk -/

/-- What the walk keeps of a leaf under its number. -/
def Shown (leaf : List Nat × Part) (shown : PreviewPart) : Prop :=
  shown.path = pathOf leaf.1 ∧ shown.html = decide (leaf.2.head.mediaType = HTML)

theorem SaysHead.isText (h : SaysHead (mimeHead head value) leaf) :
    leaf.isTextBody = ((decide (head.mediaType = PLAIN) || decide (head.mediaType = HTML)) &&
      decide (head.disposition ≠ some ATTACHMENT)) := by
  have hplain : head.mediaType = PLAIN ↔ leaf.mediaType = "text".toList ∧
      leaf.subtype = "plain".toList := h.mediaType "text".toList "plain".toList (by decide)
  have hhtml : head.mediaType = HTML ↔ leaf.mediaType = "text".toList ∧
      leaf.subtype = "html".toList := h.mediaType "text".toList "html".toList (by decide)
  unfold Leaf.isTextBody
  rw [h.attachment, Bool.eq_iff_iff]
  simp only [Bool.and_eq_true, Bool.or_eq_true, decide_eq_true_eq, Bool.not_eq_true',
    decide_eq_false_iff_not, hplain, hhtml]
  rw [and_or_left]

/-- A text leaf is shown under its number, any other is not. -/
theorem SaysHead.shown (h : SaysHead (mimeHead head value) leaf) {part : Part}
    (hpart : part.head = head) (number : List Nat) :
    List.Forall₂ Shown ([(number, part)].filter fun leaf => leaf.2.isText)
      (walk number (.leaf leaf)) := by
  have htext : part.isText = leaf.isTextBody := by
    rw [h.isText, Part.isText, Part.isBody, Part.isBody, hpart, Bool.and_or_distrib_right]
  rw [walk, ← htext]
  by_cases hbody : part.isText = true
  · have hfilter : ([(number, part)].filter fun leaf => leaf.2.isText) = [(number, part)] :=
      List.filter_cons_of_pos hbody
    have hhtml : head.mediaType = HTML ↔ leaf.mediaType = "text".toList ∧
        leaf.subtype = "html".toList := h.mediaType "text".toList "html".toList (by decide)
    have hword : leaf.mediaType = "text".toList := by
      rw [htext, Leaf.isTextBody, Bool.and_eq_true, Bool.and_eq_true, decide_eq_true_eq] at hbody
      exact hbody.1.1
    rw [if_pos hbody, hfilter]
    refine .cons ⟨rfl, ?_⟩ .nil
    rw [hpart, previewPart, decide_eq_decide, hhtml]
    exact (and_iff_right hword).symm
  · have hfilter : ([(number, part)].filter fun leaf => leaf.2.isText) = [] :=
      List.filter_cons_of_neg hbody
    rw [if_neg hbody, hfilter]
    exact .nil

mutual

/-- **The sync walks the text leaves of the draft**, each under its number. -/
theorem walk_follows : ∀ (part : Part) {body : BodyPart} (number : List Nat),
    Follows (mime base64 blobs part) body →
    List.Forall₂ Shown ((part.leaves number).filter fun leaf => leaf.2.isText) (walk number body)
  | .value head text, _, number, h => by
    rw [mime] at h
    cases h with
    | text h => exact h.shown rfl number
  | .blob head id, _, number, h => by
    obtain ⟨leaf, rfl, hhead⟩ := h.of_blob
    exact hhead.shown rfl number
  | .parts head parts, _, number, h => by
    rw [mime] at h
    cases h with
    | multipart htype h =>
      rw [Part.leaves, walk]
      exact walkEach_follows parts number 0 h

theorem walkEach_follows : ∀ (parts : List Part) {inner : List BodyPart} (number : List Nat)
    (index : Nat), FollowsEach (mimes base64 blobs parts) inner →
    List.Forall₂ Shown ((leavesEach number index parts).filter fun leaf => leaf.2.isText)
      (walkEach number index inner)
  | [], _, number, index, h => by
    cases h
    exact .nil
  | part :: parts, _, number, index, h => by
    rw [mimes] at h
    cases h with
    | cons h hrest =>
      rw [leavesEach, walkEach, List.filter_append]
      exact List.rel_append (walk_follows part _ h) (walkEach_follows parts number _ hrest)

end

end Huliho.Drafts
