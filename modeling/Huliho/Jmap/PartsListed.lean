import Mathlib.Data.List.Nodup
import Huliho.Jmap.PartLists

/-!
# Where the leaves of an email stand

Each part of a tree is `Placed`: the node, the multipart it sits in and the texts that closed a list
before it. A text the walk finds both lists closed for is `Shadowed` and stands nowhere; every other
leaf stands where RFC 8621 section 4.1.4 has it (`walkPart_adds`). So no leaf is lost exactly where
none is shadowed (`lists_sound`).
-/

namespace Huliho.PartLists

/-! ## Part numbers -/

/-- A number is that of a part or of one below it. -/
def Below (id number : List Char) : Prop :=
  ∃ rest, number = id ++ rest ∧ ∀ c ∈ rest.head?, c = '.'

variable {parent : String} {i j index : Nat} {number : List Char} {part : BodyPart}
  {parts : List BodyPart} {node : Node}

/-- What the numbers of all children of a part open with. -/
def stem (parent : String) : List Char := if parent = "" then [] else parent.toList ++ ['.']

theorem childId_toList : (childId parent i).toList = stem parent ++ decimal (i + 1) := by
  unfold childId stem
  split <;> simp

theorem childId_ne : childId parent i ≠ "" := by
  intro h
  have hnil : (childId parent i).toList = [] := by rw [h]; rfl
  rw [childId_toList] at hnil
  exact decimal_ne_nil (List.append_eq_nil_iff.1 hnil).2

theorem Below.refl (id : List Char) : Below id id := ⟨[], by simp, by simp⟩

theorem Below.of_child (h : Below (childId parent i).toList number) (hne : parent ≠ "") :
    Below parent.toList number := by
  obtain ⟨rest, rfl, -⟩ := h
  refine ⟨'.' :: (decimal (i + 1) ++ rest), ?_, by simp⟩
  rw [childId_toList, stem, if_neg hne]
  simp

/-- No number is below two children of one part. -/
theorem Below.child_inj (hi : Below (childId parent i).toList number)
    (hj : Below (childId parent j).toList number) : i = j := by
  obtain ⟨resti, rfl, hdoti⟩ := hi
  obtain ⟨restj, heq, hdotj⟩ := hj
  rw [childId_toList, childId_toList, List.append_assoc, List.append_assoc] at heq
  have hdigits := List.append_cancel_left heq
  have hstop : ∀ {rest : List Char}, (∀ c ∈ rest.head?, c = '.') →
      ∀ c ∈ rest.head?, ¬ c.isDigit := by
    intro rest h c hc
    rw [h c hc]
    decide
  have hread := readDecimal_append (n := i + 1) (hstop hdoti)
  rw [hdigits, readDecimal_append (hstop hdotj)] at hread
  have := (Prod.mk.inj (Option.some.inj hread)).1
  omega

theorem nodeOf_partId {leaf : Leaf} : (nodeOf (childId parent i) leaf).partId = childId parent i :=
  if_neg childId_ne

mutual

theorem below_of_mem_collect : ∀ (part : BodyPart) (parent : String) (i : Nat),
    ∀ node ∈ collect (childId parent i) part, Below (childId parent i).toList node.partId.toList
  | .leaf leaf, parent, i, node, h => by
    rw [collect] at h
    rw [List.mem_singleton.1 h, nodeOf_partId]
    exact .refl _
  | .multipart _ parts, parent, i, node, h => by
    rw [collect] at h
    obtain ⟨j, -, hbelow⟩ := below_of_mem_collectEach parts (childId parent i) 0 node h
    exact hbelow.of_child childId_ne

theorem below_of_mem_collectEach : ∀ (parts : List BodyPart) (parent : String) (index : Nat),
    ∀ node ∈ collectEach parent index parts,
      ∃ j, index ≤ j ∧ Below (childId parent j).toList node.partId.toList
  | [], parent, index, node, h => by
    rw [collectEach] at h
    cases h
  | part :: parts, parent, index, node, h => by
    rw [collectEach] at h
    rcases List.mem_append.1 h with h | h
    · exact ⟨index, le_refl _, below_of_mem_collect part parent index node h⟩
    · obtain ⟨j, hj, hbelow⟩ := below_of_mem_collectEach parts parent (index + 1) node h
      exact ⟨j, by omega, hbelow⟩

end

mutual

theorem nodup_collect : ∀ (part : BodyPart) (partId : String),
    ((collect partId part).map Node.partId).Nodup
  | .leaf leaf, partId => by
    rw [collect]
    exact List.nodup_singleton _
  | .multipart _ parts, partId => by
    rw [collect]
    exact nodup_collectEach parts partId 0

theorem nodup_collectEach : ∀ (parts : List BodyPart) (parent : String) (index : Nat),
    ((collectEach parent index parts).map Node.partId).Nodup
  | [], parent, index => by
    rw [collectEach]
    exact List.nodup_nil
  | part :: parts, parent, index => by
    rw [collectEach, List.map_append]
    refine List.nodup_append.2 ⟨nodup_collect part _, nodup_collectEach parts parent (index + 1), ?_⟩
    intro a ha b hb hab
    obtain ⟨x, hx, rfl⟩ := List.mem_map.1 ha
    obtain ⟨y, hy, rfl⟩ := List.mem_map.1 hb
    have hfirst := below_of_mem_collect part parent index x hx
    obtain ⟨j, hj, hrest⟩ := below_of_mem_collectEach parts parent (index + 1) y hy
    rw [← hab] at hrest
    have := hfirst.child_inj hrest
    omega

end

/-! ## Places -/

/-- A leaf at its place. -/
structure Placed where
  node : Node
  index : Nat
  frame : Frame
  /-- The texts before it that each closed a list for it. -/
  scope : List Leaf

/-- The text that closes a list for the parts behind it: a body part inside an alternative, but not
one of its choices. -/
def chosen (frame : Frame) (index : Nat) : BodyPart → List Leaf
  | .leaf leaf =>
    if leaf.isInline index frame && leaf.isText && frame.inAlternative &&
      frame.multipartType ≠ "alternative" then [leaf] else []
  | .multipart _ _ => []

/-- The texts of a multipart that close a list behind it. -/
def chosenEach (frame : Frame) (index : Nat) : List BodyPart → List Leaf
  | [] => []
  | part :: parts => chosen frame index part ++ chosenEach frame (index + 1) parts

mutual

/-- The leaves of a tree at their places. -/
def placed (frame : Frame) (partId : String) (index : Nat) (scope : List Leaf) :
    BodyPart → List Placed
  | .leaf leaf => [⟨nodeOf partId leaf, index, frame, scope⟩]
  | .multipart subtype parts => placedEach (frame.inner subtype) partId 0 scope parts

def placedEach (frame : Frame) (partId : String) (index : Nat) (scope : List Leaf) :
    List BodyPart → List Placed
  | [] => []
  | part :: parts =>
    placed frame (childId partId index) index scope part ++
      placedEach frame partId (index + 1) (scope ++ chosen frame index part) parts

end

/-- The leaves of a message at their places. -/
def placesOf (root : BodyPart) : List Placed := placed ⟨"mixed", false⟩ "" 0 [] root

/-- A text of the body behind a text of the other kind, where no choice between them is left. -/
def Placed.Shadowed (place : Placed) : Prop :=
  place.node.leaf.isInline place.index place.frame = true ∧ place.node.leaf.isText = true ∧
    place.frame.multipartType ≠ "alternative" ∧
      ∃ other ∈ place.scope, other.subtype ≠ place.node.leaf.subtype

mutual

theorem placed_nodes : ∀ (part : BodyPart) (frame : Frame) (partId : String) (index : Nat)
    (scope : List Leaf), (placed frame partId index scope part).map Placed.node = collect partId part
  | .leaf leaf, frame, partId, index, scope => by
    rw [placed, collect]
    rfl
  | .multipart _ parts, frame, partId, index, scope => by
    rw [placed, collect]
    exact placedEach_nodes parts _ partId 0 scope

theorem placedEach_nodes : ∀ (parts : List BodyPart) (frame : Frame) (partId : String)
    (index : Nat) (scope : List Leaf),
    (placedEach frame partId index scope parts).map Placed.node = collectEach partId index parts
  | [], frame, partId, index, scope => by
    rw [placedEach, collectEach]
    rfl
  | part :: parts, frame, partId, index, scope => by
    rw [placedEach, collectEach, List.map_append, placed_nodes, placedEach_nodes]

end

/-! ## What the walk adds -/

/-- Where one leaf stands. -/
structure Served (place : Placed) (text html attachments : List Node) : Prop where
  alone : (place.node.leaf.isAttachment = true ∨
      (place.node.leaf.isText = false ∧ place.node.leaf.isInlineMedia = false)) →
    place.node ∈ attachments ∧ place.node ∉ text ∧ place.node ∉ html
  media : place.node.leaf.isInlineMedia = true → ¬ (place.node ∈ text ∧ place.node ∈ html) →
    place.node ∈ attachments
  somewhere : (place.node ∈ text ∨ place.node ∈ html ∨ place.node ∈ attachments) ↔
    ¬ place.Shadowed

/-- What the leaves at some places add to the lists. -/
structure Adds (before after : Lists) (places : List Placed) (text html attachments : List Node) :
    Prop where
  text_eq : after.text = before.text ++ text
  html_eq : after.html = before.html ++ html
  attachments_eq : after.attachments = before.attachments ++ attachments
  text_sub : text.Sublist (places.map Placed.node)
  html_sub : html.Sublist (places.map Placed.node)
  attachments_sub : attachments.Sublist (places.map Placed.node)
  served : ∀ place ∈ places, Served place text html attachments

variable {before middle after : Lists} {places others : List Placed} {place : Placed}
  {text html attachments text' html' attachments' : List Node}

theorem Served.congr (h : Served place text html attachments)
    (htext : place.node ∈ text' ↔ place.node ∈ text)
    (hhtml : place.node ∈ html' ↔ place.node ∈ html)
    (hattachments : place.node ∈ attachments' ↔ place.node ∈ attachments) :
    Served place text' html' attachments' := by
  refine ⟨fun hkind => ?_, fun hmedia => ?_, ?_⟩
  · rw [htext, hhtml, hattachments]
    exact h.alone hkind
  · rw [htext, hhtml, hattachments]
    exact h.media hmedia
  · rw [htext, hhtml, hattachments]
    exact h.somewhere

theorem Adds.nil : Adds before before [] [] [] [] :=
  ⟨by simp, by simp, by simp, List.Sublist.refl _, List.Sublist.refl _, List.Sublist.refl _,
    by simp⟩

/-- What two groups of leaves add, they add together. -/
theorem Adds.append (h : Adds before middle places text html attachments)
    (h' : Adds middle after others text' html' attachments')
    (hnodup : ((places ++ others).map Placed.node).Nodup) :
    Adds before after (places ++ others) (text ++ text') (html ++ html')
      (attachments ++ attachments') := by
  have hdisjoint : ∀ node ∈ places.map Placed.node, node ∉ others.map Placed.node := by
    rw [List.map_append] at hnodup
    exact fun node hnode hother => (List.nodup_append.1 hnodup).2.2 node hnode node hother rfl
  -- A leaf of one group is in no list the other group adds to.
  have hleft : ∀ {xs ys : List Node}, ys.Sublist (others.map Placed.node) →
      ∀ place ∈ places, place.node ∈ xs ++ ys ↔ place.node ∈ xs := by
    intro xs ys hys place hplace
    rw [List.mem_append, or_iff_left]
    exact fun hmem => hdisjoint _ (List.mem_map_of_mem hplace) (hys.subset hmem)
  have hright : ∀ {xs ys : List Node}, xs.Sublist (places.map Placed.node) →
      ∀ place ∈ others, place.node ∈ xs ++ ys ↔ place.node ∈ ys := by
    intro xs ys hxs place hplace
    rw [List.mem_append, or_iff_right]
    exact fun hmem => hdisjoint _ (hxs.subset hmem) (List.mem_map_of_mem hplace)
  refine ⟨?_, ?_, ?_, ?_, ?_, ?_, fun place hplace => ?_⟩
  · rw [h'.text_eq, h.text_eq, List.append_assoc]
  · rw [h'.html_eq, h.html_eq, List.append_assoc]
  · rw [h'.attachments_eq, h.attachments_eq, List.append_assoc]
  · rw [List.map_append]
    exact h.text_sub.append h'.text_sub
  · rw [List.map_append]
    exact h.html_sub.append h'.html_sub
  · rw [List.map_append]
    exact h.attachments_sub.append h'.attachments_sub
  · rcases List.mem_append.1 hplace with hplace | hplace
    · exact (h.served place hplace).congr (hleft h'.text_sub place hplace)
        (hleft h'.html_sub place hplace) (hleft h'.attachments_sub place hplace)
    · exact (h'.served place hplace).congr (hright h.text_sub place hplace)
        (hright h.html_sub place hplace) (hright h.attachments_sub place hplace)

/-! ## One leaf -/

/-- The lists are open as the texts before say: each kind closes the list of the other. -/
structure OpenFor (walk : Walk) (scope : List Leaf) : Prop where
  text : walk.addText = !scope.any fun other => other.subtype = "html"
  html : walk.addHtml = !scope.any fun other => other.subtype = "plain"
  kinds : ∀ other ∈ scope, other.isText = true

variable {walk : Walk} {scope : List Leaf} {frame : Frame} {leaf : Leaf}

theorem isText_iff : leaf.isText = true ↔
    leaf.mediaType = "text" ∧ (leaf.subtype = "plain" ∨ leaf.subtype = "html") := by
  simp [Leaf.isText]

theorem not_media_of_isText (h : leaf.isText = true) : leaf.isInlineMedia = false := by
  have hmedia := (isText_iff.1 h).1
  unfold Leaf.isInlineMedia
  rw [hmedia]
  decide

theorem isInline_iff {index : Nat} (h : leaf.isInline index frame = true) :
    leaf.isAttachment = false ∧ (leaf.isText = true ∨ leaf.isInlineMedia = true) := by
  simp only [Leaf.isInline, Bool.and_eq_true, Bool.not_eq_true', Bool.or_eq_true] at h
  exact h.1

/-- A leaf of the body is no attachment and has a body type. -/
theorem not_alone {index : Nat} (h : leaf.isInline index frame = true)
    (halone : leaf.isAttachment = true ∨ (leaf.isText = false ∧ leaf.isInlineMedia = false)) :
    False := by
  obtain ⟨hattachment, hkind⟩ := isInline_iff h
  rcases halone with halone | ⟨htext, hmedia⟩
  · rw [hattachment] at halone
    cases halone
  · rw [htext, hmedia] at hkind
    simp at hkind

theorem chosen_open {index : Nat} (h : OpenFor walk scope) (hnone : chosen frame index part = []) :
    OpenFor walk (scope ++ chosen frame index part) := by
  rwa [hnone, List.append_nil]

/-- A leaf among the attachments alone. -/
theorem Adds.attach (place : Placed) (hlight : ¬ place.Shadowed) (walk : Walk) :
    Adds walk.lists (walk.attach place.node).lists [place] [] [] [place.node] := by
  refine ⟨by simp [Walk.attach], by simp [Walk.attach], rfl, List.nil_sublist _,
    List.nil_sublist _, List.Sublist.refl _, fun other hother => ?_⟩
  obtain rfl := List.mem_singleton.1 hother
  exact ⟨fun _ => by simp, fun _ _ => by simp, iff_of_true (by simp) hlight⟩

theorem leaf_alternate {index : Nat} (hinline : node.leaf.isInline index frame = true)
    (hframe : frame.multipartType = "alternative") :
    ∃ text html attachments, Adds walk.lists (walk.alternate node).lists
      [⟨node, index, frame, scope⟩] text html attachments := by
  have hlight : ¬ (⟨node, index, frame, scope⟩ : Placed).Shadowed := fun h => h.2.2.1 hframe
  have hnotmedia : ∀ {kind : String}, node.leaf.mediaType = "text" →
      node.leaf.subtype = kind → node.leaf.isInlineMedia = true → False := by
    intro kind htext _ hmedia
    unfold Leaf.isInlineMedia at hmedia
    rw [htext] at hmedia
    revert hmedia
    decide
  unfold Walk.alternate
  split
  · rename_i hplain
    refine ⟨[node], [], [], rfl, by simp, by simp, List.Sublist.refl _, List.nil_sublist _,
      List.nil_sublist _, fun other hother => ?_⟩
    obtain rfl := List.mem_singleton.1 hother
    exact ⟨fun halone => (not_alone hinline halone).elim,
      fun hmedia => (hnotmedia hplain.1 rfl hmedia).elim, iff_of_true (by simp) hlight⟩
  · split
    · rename_i hhtml
      refine ⟨[], [node], [], by simp, rfl, by simp, List.nil_sublist _, List.Sublist.refl _,
        List.nil_sublist _, fun other hother => ?_⟩
      obtain rfl := List.mem_singleton.1 hother
      exact ⟨fun halone => (not_alone hinline halone).elim,
        fun hmedia => (hnotmedia hhtml.1 rfl hmedia).elim, iff_of_true (by simp) hlight⟩
    · exact ⟨[], [], [node], Adds.attach _ hlight walk⟩

theorem chosen_leaf {index : Nat} (hinline : leaf.isInline index frame = true)
    (hframe : frame.multipartType ≠ "alternative") :
    chosen frame index (.leaf leaf) =
      if leaf.isText = true ∧ frame.inAlternative = true then [leaf] else [] := by
  simp [chosen, hinline, hframe]

/-- The walk after a leaf's choice is open as the texts up to it say. -/
theorem choose_open {index : Nat} (h : OpenFor walk scope)
    (hinline : leaf.isInline index frame = true) (hframe : frame.multipartType ≠ "alternative") :
    OpenFor (walk.choose leaf frame) (scope ++ chosen frame index (.leaf leaf)) := by
  rw [chosen_leaf hinline hframe]
  unfold Walk.choose
  cases hin : frame.inAlternative with
  | false => simpa using h
  | true =>
    by_cases htext : leaf.isText = true
    · have hkind := isText_iff.1 htext
      rw [if_pos rfl, if_pos ⟨htext, rfl⟩]
      refine ⟨?_, ?_, fun other hother => ?_⟩
      · simp [h.text, hkind.1, Bool.not_or]
      · simp [h.html, hkind.1, Bool.not_or]
      · rcases List.mem_append.1 hother with hother | hother
        · exact h.kinds other hother
        · rwa [List.mem_singleton.1 hother]
    · rw [if_pos rfl, if_neg fun hand => htext hand.1, List.append_nil]
      have hhtml : (decide (leaf.subtype = "html") && decide (leaf.mediaType = "text")) = false := by
        by_contra hboth
        simp only [Bool.not_eq_false, Bool.and_eq_true, decide_eq_true_eq] at hboth
        exact htext (isText_iff.2 ⟨hboth.2, .inr hboth.1⟩)
      have hplain : (decide (leaf.subtype = "plain") && decide (leaf.mediaType = "text")) =
          false := by
        by_contra hboth
        simp only [Bool.not_eq_false, Bool.and_eq_true, decide_eq_true_eq] at hboth
        exact htext (isText_iff.2 ⟨hboth.2, .inl hboth.1⟩)
      rw [hhtml, hplain]
      exact ⟨by simpa using h.text, by simpa using h.html, h.kinds⟩

/-- A text is shadowed exactly where the walk found both lists closed. -/
theorem shadowed_iff {index : Nat} (h : OpenFor walk scope)
    (hout : frame.inAlternative = false → scope = [])
    (hinline : node.leaf.isInline index frame = true)
    (hframe : frame.multipartType ≠ "alternative") :
    (⟨node, index, frame, scope⟩ : Placed).Shadowed ↔ node.leaf.isText = true ∧
      (walk.choose node.leaf frame).addText = false ∧
        (walk.choose node.leaf frame).addHtml = false := by
  have hopen := choose_open h hinline hframe
  rw [hopen.text, hopen.html, chosen_leaf hinline hframe]
  have hother : ∀ {kind other : String}, (∀ leaf ∈ scope, leaf.subtype = kind ∨
      leaf.subtype = other) → kind ≠ other →
        ((∃ leaf ∈ scope, leaf.subtype ≠ kind) ↔ ∃ leaf ∈ scope, leaf.subtype = other) := by
    intro kind other hall hne
    refine exists_congr fun leaf => and_congr_right fun hmem => ⟨?_, ?_⟩
    · exact fun h => (hall leaf hmem).resolve_left h
    · exact fun h heq => hne (heq.symm.trans h)
  have hkinds : ∀ other ∈ scope, other.subtype = "plain" ∨ other.subtype = "html" :=
    fun other hmem => (isText_iff.1 (h.kinds other hmem)).2
  cases hin : frame.inAlternative with
  | false => simp [Placed.Shadowed, hout hin]
  | true =>
    by_cases htext : node.leaf.isText = true
    swap
    · simp [Placed.Shadowed, htext]
    -- The text closes one list itself, so the texts before it have to have closed the other.
    rcases (isText_iff.1 htext).2 with hplain | hhtml
    · have hex := hother hkinds (by decide)
      simp [Placed.Shadowed, htext, hinline, hframe, hplain, hex]
    · have hex := hother (fun leaf hmem => (hkinds leaf hmem).symm) (by decide)
      simp [Placed.Shadowed, htext, hinline, hframe, hhtml, hex]

/-- A leaf of the body in the lists that are open. -/
theorem place_adds (place : Placed) (walk : Walk)
    (hinline : place.node.leaf.isInline place.index place.frame = true)
    (hshadowed : place.Shadowed ↔ place.node.leaf.isText = true ∧ walk.addText = false ∧
      walk.addHtml = false) :
    ∃ text html attachments,
      Adds walk.lists (walk.place place.node).lists [place] text html attachments := by
  have hkind := (isInline_iff hinline).2
  have halone := not_alone hinline
  have htext : place.node.leaf.isText = true → place.node.leaf.isInlineMedia = false :=
    not_media_of_isText
  refine ⟨if walk.addText then [place.node] else [], if walk.addHtml then [place.node] else [],
    if (!walk.addText || !walk.addHtml) && place.node.leaf.isInlineMedia then [place.node] else [],
    ?_, ?_, ?_, ?_, ?_, ?_, fun other hother => ?_⟩
  · cases hopen : walk.addText <;> simp [Walk.place, hopen]
  · cases hopen : walk.addHtml <;> simp [Walk.place, hopen]
  · cases hmiss : (!walk.addText || !walk.addHtml) && place.node.leaf.isInlineMedia <;>
      simp [Walk.place, hmiss]
  · split
    · exact List.Sublist.refl _
    · exact List.nil_sublist _
  · split
    · exact List.Sublist.refl _
    · exact List.nil_sublist _
  · split
    · exact List.Sublist.refl _
    · exact List.nil_sublist _
  · obtain rfl := List.mem_singleton.1 hother
    refine ⟨fun h => (halone h).elim, fun hmedia hnot => ?_, ?_⟩
    · rw [hmedia]
      cases hopenText : walk.addText <;> cases hopenHtml : walk.addHtml <;> simp_all
    · rw [hshadowed]
      cases hopenText : walk.addText <;> cases hopenHtml : walk.addHtml <;>
        cases hisText : other.node.leaf.isText <;> simp_all

/-- **What one leaf adds**, and what it closes. -/
theorem leaf_adds {index : Nat} (walk : Walk) (h : OpenFor walk scope)
    (hout : frame.inAlternative = false → scope = []) :
    (∃ text html attachments, Adds walk.lists (walk.leaf node index frame).lists
      [⟨node, index, frame, scope⟩] text html attachments) ∧
    OpenFor (walk.leaf node index frame) (scope ++ chosen frame index (.leaf node.leaf)) := by
  unfold Walk.leaf
  by_cases hinline : node.leaf.isInline index frame = true
  swap
  · have hnone : chosen frame index (.leaf node.leaf) = [] := by simp [chosen, hinline]
    rw [if_pos (by simpa using hinline), hnone, List.append_nil]
    exact ⟨⟨[], [], [node], Adds.attach ⟨node, index, frame, scope⟩ (fun hs => hinline hs.1) walk⟩,
      h.text, h.html, h.kinds⟩
  rw [if_neg (by simpa using hinline)]
  by_cases hframe : frame.multipartType = "alternative"
  · have hnone : chosen frame index (.leaf node.leaf) = [] := by simp [chosen, hframe]
    rw [if_pos hframe, hnone, List.append_nil]
    refine ⟨leaf_alternate hinline hframe, ?_⟩
    unfold Walk.alternate
    split
    · exact ⟨h.text, h.html, h.kinds⟩
    · split
      · exact ⟨h.text, h.html, h.kinds⟩
      · exact ⟨h.text, h.html, h.kinds⟩
  rw [if_neg hframe]
  have hopen := choose_open h hinline hframe
  have hshadowed := shadowed_iff h hout hinline hframe
  have hlists : (walk.choose node.leaf frame).lists = walk.lists := by
    unfold Walk.choose
    split <;> rfl
  refine ⟨?_, hopen.text, hopen.html, hopen.kinds⟩
  rw [← hlists]
  exact place_adds ⟨node, index, frame, scope⟩ _ hinline hshadowed

/-! ## An alternative -/

/-- **An alternative that found one kind alone serves it in both lists.** -/
theorem Adds.close {entry walk : Walk} (h : Adds entry.lists walk.lists places text html attachments)
    (hflags : frame.multipartType = "alternative" →
      walk.addText = entry.addText ∧ walk.addHtml = entry.addHtml) :
    ∃ text' html', Adds entry.lists (walk.close entry frame).lists places text' html'
      attachments := by
  unfold Walk.close
  split
  swap
  · exact ⟨text, html, h⟩
  rename_i hboth
  obtain ⟨hframe, haddText, haddHtml⟩ := hboth
  obtain ⟨htextFlag, hhtmlFlag⟩ := hflags hframe
  rw [if_pos (by rw [← htextFlag, haddText]), if_pos (by rw [← hhtmlFlag, haddHtml])]
  have hdropHtml : walk.lists.html.drop entry.lists.html.length = html := by
    rw [h.html_eq, List.drop_left]
  have hdropText : walk.lists.text.drop entry.lists.text.length = text := by
    rw [h.text_eq, List.drop_left]
  have hgrewText : entry.lists.text.length = walk.lists.text.length ↔ text = [] := by
    rw [h.text_eq, List.length_append, ← List.length_eq_zero_iff]
    omega
  have hgrewHtml : entry.lists.html.length = walk.lists.html.length ↔ html = [] := by
    rw [h.html_eq, List.length_append, ← List.length_eq_zero_iff]
    omega
  unfold Walk.settleAlternative
  dsimp only
  by_cases htext : text = []
  · by_cases hhtml : html = []
    · -- Nothing was found.
      rw [if_neg fun hand => hand.2 (hgrewHtml.2 hhtml), if_neg fun hand =>
        hand.2 (hgrewText.2 htext)]
      exact ⟨text, html, h⟩
    · rw [if_pos ⟨hgrewText.2 htext, fun heq => hhtml (hgrewHtml.1 heq)⟩, hdropHtml,
        if_neg fun hand => hhtml (hgrewHtml.1 hand.1)]
      refine ⟨html, html, ?_, h.html_eq, h.attachments_eq, h.html_sub, h.html_sub,
        h.attachments_sub, fun place hplace => ?_⟩
      · rw [h.text_eq, htext, List.append_nil]
      · have hs := h.served place hplace
        rw [htext] at hs
        refine ⟨fun hkind => ?_, fun hmedia _ => ?_, ?_⟩
        · obtain ⟨hattachment, -, hout⟩ := hs.alone hkind
          exact ⟨hattachment, hout, hout⟩
        · exact hs.media hmedia (by simp)
        · rw [← hs.somewhere]
          simp
  · rw [if_neg fun hand => htext (hgrewText.1 hand.1), hdropText]
    by_cases hhtml : html = []
    · rw [if_pos ⟨hgrewHtml.2 hhtml, fun heq => htext (hgrewText.1 heq)⟩]
      refine ⟨text, text, h.text_eq, ?_, h.attachments_eq, h.text_sub, h.text_sub,
        h.attachments_sub, fun place hplace => ?_⟩
      · rw [h.html_eq, hhtml, List.append_nil]
      · have hs := h.served place hplace
        rw [hhtml] at hs
        refine ⟨fun hkind => ?_, fun hmedia _ => ?_, ?_⟩
        · obtain ⟨hattachment, hout, -⟩ := hs.alone hkind
          exact ⟨hattachment, hout, hout⟩
        · exact hs.media hmedia (by simp)
        · rw [← hs.somewhere]
          simp
    · rw [if_neg fun hand => hhtml (hgrewHtml.1 hand.1)]
      exact ⟨text, html, h⟩

/-! ## The tree -/

theorem chosenEach_alternative (hframe : frame.multipartType = "alternative") (index : Nat) :
    chosenEach frame index parts = [] := by
  induction parts generalizing index with
  | nil => rfl
  | cons part parts ih =>
    have hnone : chosen frame index part = [] := by
      cases part with
      | leaf leaf => simp [chosen, hframe]
      | multipart subtype parts => rfl
    rw [chosenEach, hnone, ih, List.nil_append]

mutual

/-- **What one part of a tree adds.** -/
theorem walkPart_adds : ∀ (part : BodyPart) (frame : Frame) (partId : String) (index : Nat)
    (scope : List Leaf) (walk : Walk), OpenFor walk scope →
    (frame.inAlternative = false → scope = []) →
    (∃ text html attachments, Adds walk.lists (walkPart frame partId index part walk).lists
      (placed frame partId index scope part) text html attachments) ∧
    OpenFor (walkPart frame partId index part walk) (scope ++ chosen frame index part)
  | .leaf leaf, frame, partId, index, scope, walk, h, hout => by
    rw [walkPart, placed]
    exact leaf_adds walk h hout
  | .multipart subtype parts, frame, partId, index, scope, walk, h, hout => by
    rw [walkPart, placed]
    have hinner : (frame.inner subtype).inAlternative = false → scope = [] := by
      intro hin
      refine hout ?_
      simp only [Frame.inner, Bool.or_eq_false_iff] at hin
      exact hin.1
    obtain ⟨⟨text, html, attachments, hadds⟩, hopen⟩ :=
      walkParts_adds parts (frame.inner subtype) partId 0 scope walk h hinner
    have hflags : (frame.inner subtype).multipartType = "alternative" →
        (walkParts (frame.inner subtype) partId 0 parts walk).addText = walk.addText ∧
          (walkParts (frame.inner subtype) partId 0 parts walk).addHtml = walk.addHtml := by
      intro hframe
      rw [chosenEach_alternative hframe, List.append_nil] at hopen
      exact ⟨hopen.text.trans h.text.symm, hopen.html.trans h.html.symm⟩
    obtain ⟨text', html', hclosed⟩ := hadds.close hflags
    refine ⟨⟨text', html', attachments, hclosed⟩, ?_⟩
    rw [chosen, List.append_nil]
    exact ⟨h.text, h.html, h.kinds⟩

/-- What the parts of a multipart add. -/
theorem walkParts_adds : ∀ (parts : List BodyPart) (frame : Frame) (partId : String) (index : Nat)
    (scope : List Leaf) (walk : Walk), OpenFor walk scope →
    (frame.inAlternative = false → scope = []) →
    (∃ text html attachments, Adds walk.lists (walkParts frame partId index parts walk).lists
      (placedEach frame partId index scope parts) text html attachments) ∧
    OpenFor (walkParts frame partId index parts walk) (scope ++ chosenEach frame index parts)
  | [], frame, partId, index, scope, walk, h, hout => by
    rw [walkParts, placedEach, chosenEach, List.append_nil]
    exact ⟨⟨[], [], [], .nil⟩, h⟩
  | part :: parts, frame, partId, index, scope, walk, h, hout => by
    rw [walkParts, placedEach, chosenEach, ← List.append_assoc]
    obtain ⟨⟨text, html, attachments, hfirst⟩, hopen⟩ :=
      walkPart_adds part frame (childId partId index) index scope walk h hout
    have hstill : frame.inAlternative = false → scope ++ chosen frame index part = [] := by
      intro hin
      rw [hout hin, List.nil_append]
      cases part with
      | leaf leaf => simp [chosen, hin]
      | multipart subtype parts => rfl
    obtain ⟨⟨text', html', attachments', hrest⟩, hopen'⟩ :=
      walkParts_adds parts frame partId (index + 1) _ _ hopen hstill
    refine ⟨⟨_, _, _, hfirst.append hrest ?_⟩, hopen'⟩
    have hids := nodup_collectEach (part :: parts) partId index
    rw [collectEach] at hids
    rw [List.map_append, placed_nodes, placedEach_nodes]
    exact hids.of_map _

end

/-- **Where the leaves of a message stand.** The three lists hold leaves in the order of the
message, none twice; a leaf sent as an attachment or of no body type is in the attachments alone,
media in both bodies or among the attachments; and every leaf is in a list exactly where no text of
the body is shadowed. -/
theorem lists_sound (root : BodyPart) :
    ((leaves root).map Node.partId).Nodup ∧
    (lists root).text.Sublist (leaves root) ∧ (lists root).html.Sublist (leaves root) ∧
    (lists root).attachments.Sublist (leaves root) ∧
    (∀ node ∈ leaves root, (node.leaf.isAttachment = true ∨
        (node.leaf.isText = false ∧ node.leaf.isInlineMedia = false)) →
      node ∈ (lists root).attachments ∧ node ∉ (lists root).text ∧ node ∉ (lists root).html) ∧
    (∀ node ∈ leaves root, node.leaf.isInlineMedia = true →
      ¬ (node ∈ (lists root).text ∧ node ∈ (lists root).html) →
        node ∈ (lists root).attachments) ∧
    ((∀ node ∈ leaves root, node ∉ (lists root).text → node ∉ (lists root).html →
        node ∈ (lists root).attachments) ↔
      ∀ place ∈ placesOf root, ¬ place.Shadowed) := by
  have hstart : OpenFor ⟨{}, true, true⟩ [] := ⟨rfl, rfl, by simp⟩
  obtain ⟨⟨text, html, attachments, h⟩, -⟩ :=
    walkPart_adds root ⟨"mixed", false⟩ "" 0 [] _ hstart fun _ => rfl
  have hnodes : (placesOf root).map Placed.node = leaves root := placed_nodes root _ _ _ _
  have hplace : ∀ node ∈ leaves root, ∃ place ∈ placesOf root, place.node = node := by
    rw [← hnodes]
    exact fun node hnode => List.mem_map.1 hnode
  have htext : (lists root).text = text := h.text_eq
  have hhtml : (lists root).html = html := h.html_eq
  have hattachments : (lists root).attachments = attachments := h.attachments_eq
  rw [htext, hhtml, hattachments]
  refine ⟨nodup_collect root "", hnodes ▸ h.text_sub, hnodes ▸ h.html_sub,
    hnodes ▸ h.attachments_sub, fun node hnode => ?_, fun node hnode => ?_, ?_⟩
  · obtain ⟨place, hmem, rfl⟩ := hplace node hnode
    exact (h.served place hmem).alone
  · obtain ⟨place, hmem, rfl⟩ := hplace node hnode
    exact (h.served place hmem).media
  · constructor
    · intro hall place hmem
      refine (h.served place hmem).somewhere.1 ?_
      by_contra hnowhere
      simp only [not_or] at hnowhere
      have hnode : place.node ∈ leaves root := hnodes ▸ List.mem_map_of_mem hmem
      exact hnowhere.2.2 (hall place.node hnode hnowhere.1 hnowhere.2.1)
    · intro hall node hnode hnotText hnotHtml
      obtain ⟨place, hmem, rfl⟩ := hplace node hnode
      have hsome := (h.served place hmem).somewhere.2 (hall place hmem)
      exact (hsome.resolve_left hnotText).resolve_left hnotHtml

/-- A text with a calendar file beside it. -/
theorem lists_sound_calendar :
    ⟨"2", ⟨"text", "calendar", [], none⟩⟩ ∈ (lists (.multipart "mixed"
      [.leaf ⟨"text", "plain", [], none⟩, .leaf ⟨"text", "calendar", [], none⟩])).attachments :=
  ((lists_sound (.multipart "mixed" [.leaf ⟨"text", "plain", [], none⟩,
    .leaf ⟨"text", "calendar", [], none⟩])).2.2.2.2.1 _ (by decide) (by decide)).1

/-- One choice of an alternative that holds a plain text and an HTML text. -/
def mixedChoice : BodyPart :=
  .multipart "alternative" [.multipart "mixed" [.leaf ⟨"text", "plain", [], none⟩,
    .leaf ⟨"text", "html", [], none⟩]]

/-- The HTML text behind the plain one is in no list. -/
theorem mixedChoice_loses :
    ⟨"1.2", ⟨"text", "html", [], none⟩⟩ ∈ leaves mixedChoice ∧
    (lists mixedChoice).text = [⟨"1.1", ⟨"text", "plain", [], none⟩⟩] ∧
    (lists mixedChoice).html = [⟨"1.1", ⟨"text", "plain", [], none⟩⟩] ∧
    (lists mixedChoice).attachments = [] := by
  decide

end Huliho.PartLists
