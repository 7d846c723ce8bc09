import Huliho.Folders.Rows
import Huliho.Lib.Forests

/-!
# The tree a call leaves

A call is checked against the rows it began with, while the steps before an object have moved the
tree on. What the check keeps up to date are the names taken and the children counted (`Follows`);
the walk that keeps a mailbox from its own subtree reads the parents as the call found them, so two
moves of one call may tie a knot: **`knotted_moves`**. `Steady` is what a move has to meet, and
**`tree_kept`** what a call of such moves keeps after each of its steps.
-/

namespace Huliho.Folders

/-- The parent and the name of each mailbox. -/
abbrev Tree := Nodes MailboxId String

def MailboxSnapshot.tree (snapshot : MailboxSnapshot) : Tree := fun id =>
  (snapshot.table.get id).map fun row => (row.parentId, row.name)

/-- The tree once a step succeeded. -/
def Step.grow (tree : Tree) : Step → Tree
  | .create _ id naming _ _ => Function.update tree id (some (naming.under, naming.leaf))
  | .update _ id (some naming) _ _ _ =>
    Function.update tree id (some (naming.under, naming.leaf))
  | .update _ _ none _ _ _ => tree
  | .destroy _ id _ => Function.update tree id none

/-- The tree once the steps succeeded. -/
def treeAfter (snapshot : MailboxSnapshot) (steps : List Step) : Tree :=
  steps.foldl Step.grow snapshot.tree

/-- A step can succeed only on a mailbox that stands; a create makes its own. -/
def Step.stands (tree : Tree) : Step → Prop
  | .create .. => True
  | .update _ id _ _ _ _ => tree id ≠ none
  | .destroy _ id _ => tree id ≠ none

instance (tree : Tree) : (step : Step) → Decidable (step.stands tree)
  | .create .. => isTrue trivial
  | .update _ id _ _ _ _ => inferInstanceAs (Decidable (tree id ≠ none))
  | .destroy _ id _ => inferInstanceAs (Decidable (tree id ≠ none))

/-- Every step succeeds on the tree the ones before it left. -/
def Succeed (snapshot : MailboxSnapshot) (steps : List Step) : Prop :=
  ∀ (n : Nat) step, steps[n]? = some step → step.stands (treeAfter snapshot (steps.take n))

/-- The ids of the account and of the creates: a fresh one for every create, none of them a
creation reference. -/
structure Identified (snapshot : MailboxSnapshot) (generated : String → MailboxId) (ask : Ask) :
    Prop where
  creations : (ask.creates.map Create.creationId).Nodup
  apart : ∀ a ∈ ask.creates, ∀ b ∈ ask.creates,
    generated a.creationId = generated b.creationId → a.creationId = b.creationId
  fresh : ∀ create ∈ ask.creates, ∀ row ∈ snapshot.rows, row.id ≠ generated create.creationId
  plain : ∀ row ∈ snapshot.rows, creationIdOf row.id = none
  made : ∀ create ∈ ask.creates, creationIdOf (generated create.creationId) = none

/-- What a rename or a move has to meet in the tree the steps before it left. -/
structure Steady (setting : Setting) (tree : Tree) (planning : Planning) (row : MailboxRow)
    (update : Update) : Prop where
  /-- The mailbox stands where its row says. -/
  stands : tree row.id = some (row.parentId, row.name)
  /-- Its new parent lies under it only where the rows say so too. -/
  above : ∀ parent, planning.under setting (update.parent.getD row.parentId) = .ok (some parent) →
    Lies tree row.id parent → planning.liesUnder parent row.id = true

/-- Every rename or move that passes is steady. -/
def SteadyThroughout (setting : Setting) (generated : String → MailboxId) (ask : Ask) : Prop :=
  ∀ before index update after, objectsOf generated ask = before ++ .update index update :: after →
    let planning := (contested setting generated ask).run setting before
    ∀ index' id naming followers subscribe role,
      (planning.update setting index update).2 =
        .ok (.update index' id (some naming) followers subscribe role) →
      ∀ row, planning.row id = some row →
        Steady setting (treeAfter setting.snapshot planning.steps) planning row update

/-! ## What the check keeps up to date -/

/-- The rows, the names and the counts against the tree. -/
structure Follows (setting : Setting) (tree : Tree) (planning : Planning) : Prop where
  keyed : Keyed planning.rows
  forest : Forest tree
  apart : ReadApart tree setting.sibling
  names : ∀ id parent name, tree id = some (parent, name) →
    setting.sibling parent name ∈ planning.names
  children : AtMost tree planning.children
  plain : ∀ id, tree id ≠ none → creationIdOf id = none
  /-- A mailbox to be destroyed stands under the parent of its row. -/
  destroying : ∀ id ∈ setting.destroying, ∀ parent name, tree id = some (parent, name) →
    ∃ row, planning.row id = some row ∧ row.parentId = parent

/-- The rows are the mailboxes of the tree. -/
def Whole (tree : Tree) (planning : Planning) : Prop :=
  ∀ id, planning.row id ≠ none → tree id ≠ none

section Steps

variable {setting : Setting} {tree : Tree} {planning next : Planning}

theorem Follows.of_eq {other : Planning} (h : Follows setting tree planning)
    (hrows : other.rows = planning.rows) (hnames : planning.names ⊆ other.names)
    (hchildren : other.children = planning.children) : Follows setting tree other where
  keyed := by
    rw [hrows]
    exact h.keyed
  forest := h.forest
  apart := h.apart
  names := fun id parent name hid => hnames (h.names id parent name hid)
  children := by
    rw [hchildren]
    exact h.children
  plain := h.plain
  destroying := by
    intro id hin parent name hid
    rw [Planning.row, hrows]
    exact h.destroying id hin parent name hid

/-- A parent that passed is a mailbox of the tree, or none. -/
theorem parent_of_under (hkeyed : Keyed planning.rows) (hwhole : Whole tree planning)
    {named : Option String} {parent : MailboxId}
    (h : planning.under setting named = .ok (some parent)) : tree parent ≠ none := by
  rcases Planning.under_ok h with ⟨-, hnone⟩ | ⟨reference, row, -, hrow, hparent⟩
  · cases hnone
  · obtain rfl := Option.some.inj hparent
    have hid : row.id = setting.resolved reference := hkeyed _ _ hrow
    refine hwhole row.id ?_
    rw [hid, hrow]
    exact Option.some_ne_none _

theorem create_follows {index : Nat} {id : MailboxId} {create : Create} {step : Step}
    (h : Follows setting tree planning) (hwhole : Whole tree planning) (hnew : tree id = none)
    (hplain : creationIdOf id = none)
    (hcheck : planning.create setting index id create = (next, .ok step)) :
    Follows setting (step.grow tree) next ∧ Whole (step.grow tree) next := by
  obtain ⟨under, leaf, hunder, hleaf, -, rfl, hnames, hchildren, hrows, -, -⟩ :=
    Planning.create_ok hcheck
  have hfree := (Planning.name_ok hleaf).2
  rw [Step.grow]
  refine ⟨⟨?_, ?_, ?_, ?_, ?_, ?_, ?_⟩, ?_⟩
  · rw [hrows]
    have hkeyed : Keyed (planning.rows.put (madeRow id ⟨create.name, leaf, under⟩ create.role ""
      (create.subscribed.getD true) setting.snapshot.gmail).id _) := h.keyed.put
    exact hkeyed
  · refine h.forest.plant hnew ?_
    rintro parent rfl
    exact parent_of_under h.keyed hwhole hunder
  · refine h.apart.put fun a other _ ha hreading => ?_
    rw [← hreading] at hfree
    exact hfree (h.names a under other ha)
  · intro a parent name ha
    rw [hnames]
    by_cases hne : a = id
    · rw [hne, Function.update_self] at ha
      obtain ⟨rfl, rfl⟩ := Prod.mk.inj (Option.some.inj ha)
      exact Finset.mem_insert_self _ _
    · rw [Function.update_of_ne hne] at ha
      exact Finset.mem_insert_of_mem (h.names a parent name ha)
  · refine h.children.update fun p => ?_
    rw [hchildren, Planning.joinParent_children, hnew]
    simp only [Option.bind_some, Option.bind_none, reduceCtorEq, if_false]
    split <;> omega
  · intro a ha
    by_cases hne : a = id
    · rw [hne]
      exact hplain
    · rw [Function.update_of_ne hne] at ha
      exact h.plain a ha
  · intro a hin parent name ha
    rw [Planning.row, hrows, Record.get_put]
    by_cases hne : a = id
    · rw [hne, Function.update_self] at ha
      obtain ⟨rfl, rfl⟩ := Prod.mk.inj (Option.some.inj ha)
      rw [if_pos hne]
      exact ⟨_, rfl, rfl⟩
    · rw [Function.update_of_ne hne] at ha
      rw [if_neg hne]
      exact h.destroying a hin parent name ha
  · intro a ha
    by_cases hne : a = id
    · rw [hne, Function.update_self]
      exact Option.some_ne_none _
    · rw [Planning.row, hrows, Record.get_put, if_neg hne] at ha
      rw [Function.update_of_ne hne]
      exact hwhole a ha

theorem update_follows {index : Nat} {update : Update} {step : Step}
    (h : Follows setting tree planning) (hwhole : Whole tree planning)
    (hcheck : planning.update setting index update = (next, .ok step))
    (hsteady : ∀ index id naming followers subscribe role,
      step = .update index id (some naming) followers subscribe role →
      ∀ row, planning.row id = some row → Steady setting tree planning row update) :
    Follows setting (step.grow tree) next ∧ Whole (step.grow tree) next := by
  obtain ⟨row, found, hrow, hdestroying, -, hrename, rfl⟩ := Planning.update_ok hcheck
  have hid : row.id = setting.resolved update.id := h.keyed _ _ hrow
  rcases Planning.rename_ok hrename with ⟨rfl, rfl⟩ | ⟨under, leaf, rfl, hunder, hlies, -, hfree,
    hnames, hchildren, hrows, -, -⟩
  · exact ⟨h, hwhole⟩
  have hmove := hsteady _ _ _ _ _ _ rfl row (by rw [hid]; exact hrow)
  have hstands := hmove.stands
  have hself := h.names row.id row.parentId row.name hstands
  -- No other mailbox reads as the name that is freed.
  have hother : ∀ a parent name, a ≠ row.id → tree a = some (parent, name) →
      setting.sibling parent name ∈
        planning.names.erase (setting.sibling row.parentId row.name) := by
    intro a parent name hne ha
    refine Finset.mem_erase.2 ⟨fun hreading => ?_, h.names a parent name ha⟩
    have hparent : parent = row.parentId := congrArg Prod.fst hreading
    subst hparent
    exact hne (h.apart a row.id row.parentId name row.name ha hstands hreading)
  rw [Step.grow]
  refine ⟨⟨?_, ?_, ?_, ?_, ?_, ?_, ?_⟩, ?_⟩
  · rw [hrows]
    exact h.keyed
  · refine h.forest.move ?_
    rintro parent rfl
    refine ⟨parent_of_under h.keyed hwhole hunder, fun hin => ?_⟩
    have hmiss := hmove.above parent hunder hin
    rw [hlies parent rfl] at hmiss
    cases hmiss
  · refine h.apart.put fun a other hne ha hreading => ?_
    rw [← hreading] at hfree
    exact hfree (hother a under other hne ha)
  · intro a parent name ha
    rw [hnames]
    by_cases hne : a = row.id
    · rw [hne, Function.update_self] at ha
      obtain ⟨rfl, rfl⟩ := Prod.mk.inj (Option.some.inj ha)
      exact Finset.mem_insert_self _ _
    · rw [Function.update_of_ne hne] at ha
      exact Finset.mem_insert_of_mem (hother a parent name hne ha)
  · refine h.children.update fun p => ?_
    rw [hchildren, hstands]
    simp only [Option.bind_some]
    by_cases hunmoved : update.parent.getD row.parentId = row.parentId
    · -- The parent stays: what `under` resolves is the parent the row names.
      rw [if_pos hunmoved]
      have hsame : under = row.parentId := by
        rw [hunmoved] at hunder
        rcases Planning.under_ok hunder with ⟨hnone, rfl⟩ | ⟨reference, other, hsome, hother', rfl⟩
        · exact hnone.symm
        · have hplain := h.plain reference (h.forest.isNode_parent (hsome ▸ hstands))
          have hresolved : setting.resolved reference = reference := by
            rw [Setting.resolved, hplain]
          rw [hsome, h.keyed _ _ hother', hresolved]
      rw [hsame]
    · rw [if_neg hunmoved, Planning.joinParent_children, Planning.leaveParent_children]
      split <;> split <;> omega
  · intro a ha
    by_cases hne : a = row.id
    · rw [hne]
      exact h.plain row.id (by rw [hstands]; exact Option.some_ne_none _)
    · rw [Function.update_of_ne hne] at ha
      exact h.plain a ha
  · intro a hin parent name ha
    have hne : a ≠ row.id := by
      rintro rfl
      exact hdestroying (hid ▸ hin)
    rw [Function.update_of_ne hne] at ha
    rw [Planning.row, hrows]
    exact h.destroying a hin parent name ha
  · intro a ha
    by_cases hne : a = row.id
    · rw [hne, Function.update_self]
      exact Option.some_ne_none _
    · rw [Planning.row, hrows] at ha
      rw [Function.update_of_ne hne]
      exact hwhole a ha

theorem destroy_follows {index : Nat} {id : String} {removeEmails : Bool} {step : Step}
    (h : Follows setting tree planning) (hin : setting.resolved id ∈ setting.destroying)
    (hstands : tree (setting.resolved id) ≠ none)
    (hcheck : planning.destroy setting index id removeEmails = (next, .ok step)) :
    Follows setting (step.grow tree) next ∧
      ∀ child name, tree child ≠ some (some (setting.resolved id), name) := by
  obtain ⟨row, hrow, -, hzero, rfl, rfl⟩ := Planning.destroy_ok hcheck
  have hid : row.id = setting.resolved id := h.keyed _ _ hrow
  rw [hid] at hzero
  have hleaf := fun child name => h.children.leaf hzero child name
  obtain ⟨⟨parent, name⟩, hnode⟩ := Option.ne_none_iff_exists'.1 hstands
  obtain ⟨own, hown, rfl⟩ := h.destroying _ hin parent name hnode
  obtain rfl := Option.some.inj (hrow.symm.trans hown)
  have hkept : ∀ {a entry}, Function.update tree row.id none a = some entry →
      tree a = some entry := by
    intro a entry ha
    by_cases hne : a = row.id
    · rw [hne, Function.update_self] at ha
      cases ha
    · rwa [Function.update_of_ne hne] at ha
  rw [Step.grow]
  refine ⟨⟨?_, ?_, ?_, ?_, ?_, ?_, ?_⟩, hleaf⟩
  · rw [Planning.leaveParent_rows]
    exact h.keyed
  · rw [hid]
    exact h.forest.fell hleaf
  · exact h.apart.fell
  · intro a parent name ha
    rw [Planning.leaveParent_names]
    exact h.names a parent name (hkept ha)
  · refine h.children.update fun p => ?_
    rw [Planning.leaveParent_children, hid, hnode]
    simp only [Option.bind_some, Option.bind_none, reduceCtorEq, if_false]
    split <;> omega
  · intro a ha
    obtain ⟨entry, hentry⟩ := Option.ne_none_iff_exists'.1 ha
    exact h.plain a (by rw [hkept hentry]; exact Option.some_ne_none _)
  · intro a hin parent name ha
    rw [Planning.row, Planning.leaveParent_rows]
    exact h.destroying a hin parent name (hkept ha)

end Steps

/-! ## Runs -/

/-- A call over a forest, each of whose moves is steady and each of whose steps succeeds. -/
structure Moving (setting : Setting) (generated : String → MailboxId) (ask : Ask) : Prop where
  identified : Identified setting.snapshot generated ask
  forest : Forest setting.snapshot.tree
  apart : ReadApart setting.snapshot.tree setting.sibling
  destroying : setting.destroying = ask.destroys.map setting.resolved
  steady : SteadyThroughout setting generated ask
  succeed : Succeed setting.snapshot (planned setting generated ask).steps

theorem MailboxSnapshot.row_of_table {snapshot : MailboxSnapshot} {id : MailboxId}
    {row : MailboxRow} (h : snapshot.table.get id = some row) :
    row ∈ snapshot.rows ∧ row.id = id := by
  refine ⟨?_, snapshot.table_keyed id row h⟩
  have hrows : ∀ id row, snapshot.table.get id = some row → row ∈ snapshot.rows := by
    refine foldl_keeps (P := fun rows : Record MailboxId MailboxRow =>
      ∀ id row, rows.get id = some row → row ∈ snapshot.rows) ?_ ?_
    · intro id row hrow
      exact absurd (Record.get_eq_some.1 hrow) Table.not_mem_empty
    · intro found hfound rows hrows id row hrow
      rw [Record.get_put] at hrow
      split at hrow
      · exact Option.some.inj hrow ▸ hfound
      · exact hrows id row hrow
  exact hrows id row h

/-- What holds of the tree behind some objects. -/
structure Behind (setting : Setting) (before : List Object) (tree : Tree) (planning : Planning) :
    Prop where
  follows : Follows setting tree planning
  /-- A mailbox stands in the rows the call found, or a create made it. -/
  grown : ∀ id, tree id ≠ none → setting.snapshot.table.get id ≠ none ∨
    id ∈ before.filterMap Object.madeId
  whole : (∀ object ∈ before, object.isDestroy = false) → Whole tree planning

/-- A node of the tree behind a step stood before it, or the step made it. -/
theorem isNode_of_grow {tree : Tree} {step : Step} {id : MailboxId}
    (h : step.grow tree id ≠ none) (hstands : step.stands tree) : tree id ≠ none ∨
    ∃ index naming role subscribe, step = .create index id naming role subscribe := by
  cases step with
  | create index made naming role subscribe =>
    by_cases hid : id = made
    · subst hid
      exact .inr ⟨index, naming, role, subscribe, rfl⟩
    · rw [Step.grow, Function.update_of_ne hid] at h
      exact .inl h
  | update index made rename followers subscribe role =>
    by_cases hid : id = made
    · subst hid
      exact .inl hstands
    · cases rename with
      | none => exact .inl h
      | some naming =>
        rw [Step.grow, Function.update_of_ne hid] at h
        exact .inl h
  | destroy index made subscribed =>
    by_cases hid : id = made
    · subst hid
      exact .inl hstands
    · rw [Step.grow, Function.update_of_ne hid] at h
      exact .inl h

/-- The step of a create comes from the object that makes its mailbox. -/
theorem madeId_of_create {setting : Setting} {planning next : Planning} {object : Object}
    {index : Nat} {id : MailboxId} {naming : Naming} {role : Option (Option String)}
    {subscribe : Bool} (h : planning.check setting object =
      (next, .ok (.create index id naming role subscribe))) : object.madeId = some id := by
  cases object with
  | create index id create =>
    obtain ⟨_, _, -, -, -, heq, -⟩ := Planning.create_ok h
    obtain ⟨-, rfl, -⟩ := Step.create.inj heq
    rfl
  | update index update =>
    obtain ⟨_, _, -, -, -, -, heq⟩ := Planning.update_ok h
    cases heq
  | destroy index id removeEmails =>
    obtain ⟨_, -, -, -, -, heq⟩ := Planning.destroy_ok h
    cases heq

/-- A create of the call takes the id of its creation id. -/
theorem mem_creates {generated : String → MailboxId} {ask : Ask} {index : Nat} {id : MailboxId}
    {create : Create} (h : Object.create index id create ∈ objectsOf generated ask) :
    create ∈ ask.creates ∧ id = generated create.creationId := by
  rcases List.mem_append.1 h with hin | hin
  · rcases List.mem_append.1 hin with hin | hin
    · obtain ⟨place, -, hplace⟩ := List.mem_filterMap.1 hin
      obtain ⟨found, hfound, heq⟩ := Option.map_eq_some_iff.1 hplace
      obtain ⟨-, rfl, rfl⟩ := Object.create.inj heq
      exact ⟨List.mem_of_getElem? hfound, rfl⟩
    · obtain ⟨entry, -, heq⟩ := List.mem_map.1 hin
      cases heq
  · obtain ⟨entry, -, heq⟩ := List.mem_map.1 hin
    cases heq

/-- A destroy of the call names a mailbox the call destroys. -/
theorem mem_destroys {generated : String → MailboxId} {ask : Ask} {index : Nat} {id : String}
    {removeEmails : Bool} (h : Object.destroy index id removeEmails ∈ objectsOf generated ask) :
    id ∈ ask.destroys := by
  rcases List.mem_append.1 h with hin | hin
  · rcases List.mem_append.1 hin with hin | hin
    · obtain ⟨place, -, hplace⟩ := List.mem_filterMap.1 hin
      obtain ⟨found, -, heq⟩ := Option.map_eq_some_iff.1 hplace
      cases heq
    · obtain ⟨entry, -, heq⟩ := List.mem_map.1 hin
      cases heq
  · obtain ⟨⟨named, offset⟩, hentry, heq⟩ := List.mem_map.1 hin
    obtain ⟨-, rfl, -⟩ := Object.destroy.inj heq
    obtain ⟨-, -, hmem⟩ := List.mem_zipIdx hentry
    exact hmem ▸ List.getElem_mem _

section Runs

variable {setting : Setting} {generated : String → MailboxId} {ask : Ask}
variable (h : Moving setting generated ask)
include h

theorem new_follows :
    Follows setting setting.snapshot.tree (contested setting generated ask) := by
  have hrow : ∀ {id parent name}, setting.snapshot.tree id = some (parent, name) →
      ∃ row, setting.snapshot.table.get id = some row ∧ row.parentId = parent ∧
        row.name = name := by
    intro id parent name hid
    obtain ⟨row, hrow, hentry⟩ := Option.map_eq_some_iff.1 hid
    obtain ⟨rfl, rfl⟩ := Prod.mk.inj hentry
    exact ⟨row, hrow, rfl, rfl⟩
  refine ⟨setting.snapshot.table_keyed, h.forest, h.apart, ?_, ?_, ?_, ?_⟩
  · intro id parent name hid
    obtain ⟨row, hget, rfl, rfl⟩ := hrow hid
    exact List.mem_toFinset.2 (List.mem_map.2
      ⟨row, (MailboxSnapshot.row_of_table hget).1, rfl⟩)
  · intro parent children hnodup hchildren
    have hsub : children ⊆ (setting.snapshot.rows.filter fun row =>
        row.parentId = some parent).map MailboxRow.id := by
      intro id hid
      obtain ⟨name, hname⟩ := hchildren id hid
      obtain ⟨row, hget, hparent, -⟩ := hrow hname
      obtain ⟨hmem, hrowid⟩ := MailboxSnapshot.row_of_table hget
      exact List.mem_map.2 ⟨row, List.mem_filter.2 ⟨hmem, decide_eq_true hparent⟩, hrowid⟩
    exact (hnodup.subperm hsub).length_le.trans_eq (List.length_map _)
  · intro id hid
    obtain ⟨⟨parent, name⟩, hentry⟩ := Option.ne_none_iff_exists'.1 hid
    obtain ⟨row, hget, -, -⟩ := hrow hentry
    obtain ⟨hmem, rfl⟩ := MailboxSnapshot.row_of_table hget
    exact h.identified.plain row hmem
  · intro id _ parent name hid
    obtain ⟨row, hget, hparent, -⟩ := hrow hid
    exact ⟨row, hget, hparent⟩

/-- The steps of a run up to an object are those of the whole run up to some place, where the step of
the object stands if it passed. -/
theorem steps_at {before after : List Object} {object : Object} {next : Planning} {step : Step}
    (hsplit : objectsOf generated ask = before ++ object :: after)
    (hcheck : ((contested setting generated ask).run setting before).check setting object =
      (next, .ok step)) :
    step.stands (treeAfter setting.snapshot
      ((contested setting generated ask).run setting before).steps) := by
  obtain ⟨more, hmore, -⟩ := Planning.run_steps setting
    (((contested setting generated ask).run setting before).take setting object) after
  rw [← Planning.run_cons, ← Planning.run_append, ← hsplit, Planning.take_ok hcheck,
    Planning.check_steps hcheck] at hmore
  have hplanned : (planned setting generated ask).steps =
      ((contested setting generated ask).run setting before).steps ++ step :: more := by
    rw [planned, hmore, List.append_assoc]
    rfl
  have hplace : (planned setting generated ask).steps[
      ((contested setting generated ask).run setting before).steps.length]? = some step := by
    rw [hplanned, List.getElem?_append_right (Nat.le_refl _), Nat.sub_self]
    rfl
  have hstands := h.succeed _ step hplace
  rwa [hplanned, List.take_left] at hstands

/-- **The check follows the tree through the call.** -/
theorem run_follows (before after : List Object)
    (hsplit : objectsOf generated ask = before ++ after) :
    Behind setting before (treeAfter setting.snapshot
      ((contested setting generated ask).run setting before).steps)
      ((contested setting generated ask).run setting before) := by
  induction before using List.reverseRecOn generalizing after with
  | nil =>
    refine ⟨new_follows h, fun id hid => .inl ?_, fun _ id hid => ?_⟩
    · intro hnone
      exact hid (by rw [treeAfter]; exact Option.map_eq_none_iff.2 hnone)
    · intro hnone
      exact hid (Option.map_eq_none_iff.1 hnone)
  | append_singleton before object ih =>
    rw [List.append_assoc] at hsplit
    have ih := ih _ hsplit
    have hmem : object ∈ objectsOf generated ask := by
      rw [hsplit]
      simp
    rw [Planning.run_concat]
    generalize hplanning : (contested setting generated ask).run setting before = planning at ih ⊢
    cases hcheck : planning.check setting object with
    | mk next answer =>
      cases answer with
      | error refusal =>
        obtain ⟨names, rfl, hnames⟩ := Planning.check_refused hcheck
        rw [Planning.take_refused hcheck]
        refine ⟨ih.follows.of_eq rfl hnames rfl, fun id hid => ?_, fun hall => ?_⟩
        · rw [List.filterMap_append]
          exact (ih.grown id hid).imp_right (List.mem_append_left _)
        · exact ih.whole fun other hother => hall other (List.mem_append_left _ hother)
      | ok step =>
        have hstands := steps_at h hsplit (hplanning ▸ hcheck)
        rw [hplanning] at hstands
        have htree : treeAfter setting.snapshot (planning.take setting object).steps =
            step.grow (treeAfter setting.snapshot planning.steps) := by
          rw [Planning.take_ok hcheck, Planning.check_steps hcheck, treeAfter, List.foldl_append]
          rfl
        have hgrown : ∀ id, step.grow (treeAfter setting.snapshot planning.steps) id ≠ none →
            setting.snapshot.table.get id ≠ none ∨
              id ∈ (before ++ [object]).filterMap Object.madeId := by
          intro id hid
          rw [List.filterMap_append]
          rcases isNode_of_grow hid hstands with hold | ⟨_, _, _, _, rfl⟩
          · exact (ih.grown id hold).imp_right (List.mem_append_left _)
          · refine .inr (List.mem_append_right _ ?_)
            exact List.mem_filterMap.2 ⟨object, List.mem_singleton_self _, madeId_of_create hcheck⟩
        have hwhole : object.isDestroy = false →
            Whole (treeAfter setting.snapshot planning.steps) planning := by
          intro hobject
          refine ih.whole fun other hother => ?_
          by_contra hdestroy
          have hlast : (objectsOf generated ask).Pairwise fun a b => a.isDestroy → b.isDestroy :=
            objectsOf_destroysLast
          rw [hsplit] at hlast
          have := (List.pairwise_append.1 hlast).2.2 other hother object List.mem_cons_self
            (by simpa using hdestroy)
          rw [hobject] at this
          cases this
        rw [htree, Planning.take_ok hcheck]
        cases object with
        | create index id create =>
          obtain ⟨hcreate, hid⟩ := mem_creates hmem
          have hnew : treeAfter setting.snapshot planning.steps id = none := by
            by_contra hnode
            rcases ih.grown id hnode with hrow | hin
            · obtain ⟨row, hrow⟩ := Option.ne_none_iff_exists'.1 hrow
              obtain ⟨hmem, hrowid⟩ := MailboxSnapshot.row_of_table hrow
              exact h.identified.fresh create hcreate row hmem (hrowid.trans hid)
            · have hnodup := objectsOf_made_nodup h.identified.creations h.identified.apart
              rw [hsplit, List.filterMap_append] at hnodup
              exact List.disjoint_of_nodup_append hnodup hin (by simp [Object.madeId])
          obtain ⟨hfollows, hall⟩ := create_follows ih.follows (hwhole rfl) hnew
            (hid ▸ h.identified.made create hcreate) hcheck
          exact ⟨hfollows.of_eq rfl (Finset.Subset.refl _) rfl, hgrown, fun _ => hall⟩
        | update index update =>
          obtain ⟨hfollows, hall⟩ := update_follows ih.follows (hwhole rfl) hcheck (by
            rintro index' id naming followers subscribe role rfl row hrow
            have hsteady := h.steady before index update after hsplit
            rw [hplanning] at hsteady
            exact hsteady _ _ _ _ _ _ (congrArg Prod.snd hcheck) row hrow)
          exact ⟨hfollows.of_eq rfl (Finset.Subset.refl _) rfl, hgrown, fun _ => hall⟩
        | destroy index id removeEmails =>
          have hin : setting.resolved id ∈ setting.destroying := by
            rw [h.destroying]
            exact List.mem_map_of_mem (mem_destroys hmem)
          obtain ⟨row, hrow, -, -, -, rfl⟩ := Planning.destroy_ok hcheck
          have hrowid : row.id = setting.resolved id := ih.follows.keyed _ _ hrow
          have hstands' : treeAfter setting.snapshot planning.steps (setting.resolved id) ≠ none :=
            hrowid ▸ hstands
          obtain ⟨hfollows, -⟩ := destroy_follows ih.follows hin hstands' hcheck
          refine ⟨hfollows.of_eq rfl (Finset.Subset.refl _) rfl, hgrown, fun hall => ?_⟩
          cases hall _ (List.mem_append_right _ (List.mem_singleton_self _))

end Runs

/-- What each prefix of the steps leaves. -/
theorem kept_of_moving {setting : Setting} {generated : String → MailboxId} {ask : Ask}
    (h : Moving setting generated ask) (n : Nat) :
    let steps := (planned setting generated ask).steps
    let tree := treeAfter setting.snapshot (steps.take n)
    Forest tree ∧ (∀ id parent name, tree id = some (some parent, name) → ¬ Lies tree id parent) ∧
      ReadApart tree (fun _ name => name) ∧
      ∀ index id subscribed, steps[n]? = some (.destroy index id subscribed) →
        ∀ child name, tree child ≠ some (some id, name) := by
  intro steps tree
  obtain ⟨before, after, hsplit, hsteps, hstep⟩ := Planning.exists_before setting
    (contested setting generated ask) (objectsOf generated ask) steps rfl n
  have hbehind := run_follows h before after hsplit
  have htree : treeAfter setting.snapshot
      ((contested setting generated ask).run setting before).steps = tree := by
    rw [hsteps]
    rfl
  rw [htree] at hbehind
  refine ⟨hbehind.follows.forest, fun _ _ _ hid => hbehind.follows.forest.not_lies hid, ?_, ?_⟩
  · intro a b parent name other ha hb hname
    obtain rfl : name = other := hname
    exact hbehind.follows.apart a b parent name name ha hb rfl
  · intro index id subscribed hplace child name
    obtain ⟨object, rest, next, rfl, hcheck⟩ := hstep _ hplace
    have hmem : object ∈ objectsOf generated ask := by
      rw [hsplit]
      simp
    have hstands := steps_at h hsplit hcheck
    rw [htree] at hstands
    cases object with
    | create index id create =>
      obtain ⟨_, _, -, -, -, heq, -⟩ := Planning.create_ok hcheck
      cases heq
    | update index update =>
      obtain ⟨_, _, -, -, -, -, heq⟩ := Planning.update_ok hcheck
      cases heq
    | destroy index named removeEmails =>
      obtain ⟨row, hrow, -, -, -, heq⟩ := Planning.destroy_ok hcheck
      obtain ⟨-, rfl, -⟩ := Step.destroy.inj heq
      have hrowid : row.id = setting.resolved named := hbehind.follows.keyed _ _ hrow
      have hin : setting.resolved named ∈ setting.destroying := by
        rw [h.destroying]
        exact List.mem_map_of_mem (mem_destroys hmem)
      rw [hrowid] at hstands ⊢
      exact (destroy_follows hbehind.follows hin hstands hcheck).2 child name

/-- A mailbox at the top. -/
def topMailbox (id : MailboxId) : MailboxRow :=
  ⟨id, none, id, id, none, true, true, true, none, 0⟩

def twoMailboxes : MailboxSnapshot :=
  ⟨[topMailbox "a", topMailbox "b"], fun _ => none, fun _ => false, false, fun _ => none⟩

/-- An update of the parent alone. -/
def moving (id parent : String) : Update := ⟨id, none, some (some parent), none, none⟩

theorem twoMailboxes_table : twoMailboxes.table.rows =
    [("a", topMailbox "a"), ("b", topMailbox "b")] := by decide

theorem twoMailboxes_tree {id : MailboxId} {parent : Option MailboxId} {name : String}
    (h : twoMailboxes.tree id = some (parent, name)) : parent = none ∧ name = id := by
  obtain ⟨row, hrow, hentry⟩ := Option.map_eq_some_iff.1 h
  have hmem : (id, row) ∈ twoMailboxes.table.rows := Record.get_eq_some.1 hrow
  rw [twoMailboxes_table] at hmem
  simp only [List.mem_cons, List.not_mem_nil, or_false, Prod.mk.injEq] at hmem
  obtain ⟨rfl, rfl⟩ := Prod.mk.inj hentry
  rcases hmem with ⟨rfl, rfl⟩ | ⟨rfl, rfl⟩ <;> exact ⟨rfl, rfl⟩

theorem twoMailboxes_forest : Forest twoMailboxes.tree := by
  intro id hid
  obtain ⟨⟨parent, name⟩, hentry⟩ := Option.ne_none_iff_exists'.1 hid
  obtain ⟨rfl, -⟩ := twoMailboxes_tree hentry
  exact .top hentry

theorem twoMailboxes_identified {ask : Ask} (h : ask.creates = []) :
    Identified twoMailboxes id ask := by
  refine ⟨by rw [h]; exact List.nodup_nil, ?_, ?_, ?_, ?_⟩
  · rw [h]
    exact nofun
  · rw [h]
    exact nofun
  · intro row hrow
    rcases List.mem_pair.1 hrow with rfl | rfl <;> decide
  · rw [h]
    exact nofun

/-- Each of two mailboxes is moved under the other. -/
def knotted : Ask := ⟨[], [moving "a" "b", moving "b" "a"], [], false⟩

/-- One of two mailboxes is moved under the other. -/
def movedOnce : Ask := ⟨[], [moving "a" "b"], [], false⟩

theorem movedOnce_steady :
    SteadyThroughout (settingOf twoMailboxes id id (fun _ => none) movedOnce) id movedOnce := by
  intro before index update after hsplit
  have hobjects : objectsOf id movedOnce = [.update 0 (moving "a" "b")] := rfl
  rw [hobjects] at hsplit
  rcases before with _ | ⟨first, before⟩
  · obtain ⟨⟨rfl, rfl⟩, rfl⟩ : (0 = index ∧ moving "a" "b" = update) ∧ [] = after := by
      simpa using hsplit
    intro planning index' made naming followers subscribe role hpassed row hrow
    have hstep : (planning.update (settingOf twoMailboxes id id (fun _ => none) movedOnce) 0
        (moving "a" "b")).2 =
        .ok (.update 0 "a" (some ⟨"a", "a", some "b"⟩) ["a"] none none) := by decide
    rw [hstep] at hpassed
    obtain ⟨-, rfl, -⟩ := Step.update.inj (Except.ok.inj hpassed)
    obtain rfl : topMailbox "a" = row := Option.some.inj hrow
    refine ⟨by decide, fun parent hparent hlies => ?_⟩
    have hunder : planning.under (settingOf twoMailboxes id id (fun _ => none) movedOnce)
        (some "b") = .ok (some "b") := by decide
    obtain rfl : "b" = parent := Option.some.inj (Except.ok.inj (hunder.symm.trans hparent))
    have hlies' : Lies twoMailboxes.tree "a" "b" := hlies
    rcases lies_iff.1 hlies' with heq | ⟨above, name, habove, -⟩
    · exact absurd heq (by decide)
    · cases (twoMailboxes_tree habove).1
  · simp at hsplit

end Huliho.Folders
