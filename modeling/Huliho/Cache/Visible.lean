import Huliho.Lib.Walks

/-!
# What the tree draws, and hiding a folder

`cache/visible.ts`: the tree draws the subscribed mailboxes, the ones with a role and every folder
above a subscribed folder, and every mailbox where the account subscribes none. A hide unsubscribes
a folder and every folder without a role under it.

**`hide_iff`**: a hide takes the branch out of the tree, and leaves what is drawn of the rest,
exactly when some mailbox outside the branch is subscribed. Where the last subscription goes with
the branch, the account subscribes none and the whole tree is drawn, the branch too (`hide_last`).
-/

namespace Huliho.Visible

abbrev Id := String

/-- The properties of a mailbox that are drawn or written. -/
structure Mailbox where
  id : Id
  name : String
  parentId : Option Id
  role : Option String
  isSubscribed : Bool
deriving DecidableEq, Repr

/-- The properties of a folder a write changes. -/
structure MailboxUpdate where
  name : Option String := none
  parentId : Option (Option Id) := none
  role : Option (Option String) := none
  isSubscribed : Option Bool := none
deriving DecidableEq, Repr

/-- A write of the account's folders: the updates by id. -/
structure MailboxWrite where
  update : List (Id × MailboxUpdate)
deriving DecidableEq, Repr

/-! ## The code -/

/-- The row of an id, the last of its id as a `Map` keeps it. -/
def byId (mailboxes : List Mailbox) (id : Id) : Option Mailbox :=
  mailboxes.reverse.find? fun row => row.id = id

/-- The mailbox above a row. -/
def above (mailboxes : List Mailbox) (row : Mailbox) : Option Mailbox :=
  row.parentId.bind (byId mailboxes)

/-- The ids drawn where the account subscribes some mailbox: the roles, and what a climb from each
subscribed mailbox comes by. A role stands there from the start, so its climb ends where it begins.
-/
def drawnIds (mailboxes : List Mailbox) : List Id :=
  climbs Mailbox.id (above mailboxes) mailboxes.length
    ((mailboxes.filter fun row => row.role ≠ none).map Mailbox.id)
    (mailboxes.filter Mailbox.isSubscribed)

def visibleMailboxes (mailboxes : List Mailbox) : List Mailbox :=
  if mailboxes.any Mailbox.isSubscribed then
    mailboxes.filter fun row => row.id ∈ drawnIds mailboxes
  else mailboxes

/-- The folders without a role right under an id. -/
def under (mailboxes : List Mailbox) (id : Id) : List Id :=
  (mailboxes.filter fun row => row.parentId = some id ∧ row.role = none).map Mailbox.id

/-- The folder and every folder without a role under it. -/
def branchOf (mailboxes : List Mailbox) (id : Id) : List Id :=
  sweep (under mailboxes) (mailboxes.length + 1) 0 [id]

/-- The write that takes a folder out of the tree with the subscribed folders of its branch. -/
def hideWrite (mailboxes : List Mailbox) (id : Id) : MailboxWrite where
  update := (mailboxes.filter fun row => row.isSubscribed ∧ row.id ∈ branchOf mailboxes id).map
    fun row => (row.id, { isSubscribed := some false })

/-- A mailbox with an update written to it. -/
def MailboxUpdate.write (update : MailboxUpdate) (row : Mailbox) : Mailbox where
  id := row.id
  name := update.name.getD row.name
  parentId := update.parentId.getD row.parentId
  role := update.role.getD row.role
  isSubscribed := update.isSubscribed.getD row.isSubscribed

/-- The mailboxes once the server applied a write. -/
def applied (mailboxes : List Mailbox) (write : MailboxWrite) : List Mailbox :=
  mailboxes.map fun row =>
    match write.update.find? fun entry => entry.1 = row.id with
    | some (_, update) => update.write row
    | none => row

/-! ## What it is for -/

/-- The ids of a folder's branch: its own, and each folder's without a role right under one of them.
-/
inductive Branch (mailboxes : List Mailbox) (id : Id) : Id → Prop
  | self : Branch mailboxes id id
  | under {row : Mailbox} {parent : Id} (hrow : row ∈ mailboxes) (hrole : row.role = none)
      (hparent : row.parentId = some parent) (h : Branch mailboxes id parent) :
      Branch mailboxes id row.id

/-- A mailbox stands above another, with no role between them. -/
inductive Above (mailboxes : List Mailbox) (row : Mailbox) : Mailbox → Prop
  | parent {upper : Mailbox} (hupper : upper ∈ mailboxes) (hparent : row.parentId = some upper.id) :
      Above mailboxes row upper
  | further {mid upper : Mailbox} (h : Above mailboxes row mid) (hrole : mid.role = none)
      (hupper : upper ∈ mailboxes) (hparent : mid.parentId = some upper.id) :
      Above mailboxes row upper

/-- A mailbox the tree has to go on drawing when a branch leaves it. -/
def Stays (mailboxes : List Mailbox) (id : Id) (row : Mailbox) : Prop :=
  row.role ≠ none ∨ row.isSubscribed = true ∨
    ∃ lower ∈ mailboxes, lower.isSubscribed = true ∧ lower.role = none ∧
      ¬ Branch mailboxes id lower.id ∧ Above mailboxes lower row

/-- What a hide of a folder is for: the tree draws no mailbox of its branch, and every mailbox
outside that stays. -/
structure Hides (mailboxes : List Mailbox) (id : Id) (after : List Mailbox) : Prop where
  gone : ∀ row ∈ visibleMailboxes after, ¬ Branch mailboxes id row.id
  stays : ∀ row ∈ mailboxes, ¬ Branch mailboxes id row.id → Stays mailboxes id row →
    ∃ drawn ∈ visibleMailboxes after, drawn.id = row.id

variable {mailboxes : List Mailbox} {row upper lower : Mailbox} {id k : Id}

/-! ## The branch -/

theorem mem_under : k ∈ under mailboxes id ↔
    ∃ row ∈ mailboxes, row.parentId = some id ∧ row.role = none ∧ row.id = k := by
  unfold under
  rw [List.mem_map]
  constructor
  · rintro ⟨row, hrow, rfl⟩
    obtain ⟨hrow, h⟩ := List.mem_filter.1 hrow
    obtain ⟨hparent, hrole⟩ := of_decide_eq_true h
    exact ⟨row, hrow, hparent, hrole, rfl⟩
  · rintro ⟨row, hrow, hparent, hrole, rfl⟩
    exact ⟨row, List.mem_filter.2 ⟨hrow, decide_eq_true ⟨hparent, hrole⟩⟩, rfl⟩

/-- **The code's branch is the folder's branch**, whatever the parents are. -/
theorem mem_branchOf : k ∈ branchOf mailboxes id ↔ Branch mailboxes id k := by
  constructor
  · refine sweep_sound (P := Branch mailboxes id) (fun parent h child hchild => ?_) fun k hk => ?_
    · obtain ⟨row, hrow, hparent, hrole, rfl⟩ := mem_under.1 hchild
      exact .under hrow hrole hparent h
    · rw [List.mem_singleton.1 hk]
      exact .self
  · intro h
    have hstart : [id] ⊆ id :: mailboxes.map Mailbox.id :=
      List.cons_subset.2 ⟨List.mem_cons_self, List.nil_subset _⟩
    have hfield : ∀ parent ∈ id :: mailboxes.map Mailbox.id, ∀ child ∈ under mailboxes parent,
        child ∈ id :: mailboxes.map Mailbox.id := by
      intro parent _ child hchild
      obtain ⟨row, hrow, -, -, rfl⟩ := mem_under.1 hchild
      exact List.mem_cons_of_mem _ (List.mem_map_of_mem hrow)
    have hclosed : ∀ parent ∈ branchOf mailboxes id,
        under mailboxes parent ⊆ branchOf mailboxes id :=
      sweep_closed hfield (List.nodup_singleton _) hstart (by simp)
        fun j hj => absurd hj (Nat.not_lt_zero j)
    induction h with
    | self => exact sweep_subset (List.mem_singleton_self _)
    | @under row parent hrow hrole hparent _ ih =>
      exact hclosed parent ih (mem_under.2 ⟨row, hrow, hparent, hrole, rfl⟩)

/-! ## A hide -/

/-- A row once the branch of an id is hidden. -/
def hidden (mailboxes : List Mailbox) (id : Id) (row : Mailbox) : Mailbox :=
  { row with isSubscribed := row.isSubscribed && decide (row.id ∉ branchOf mailboxes id) }

/-- **The server unsubscribes the branch** and changes nothing else. -/
theorem applied_hide :
    applied mailboxes (hideWrite mailboxes id) = mailboxes.map (hidden mailboxes id) := by
  refine List.map_congr_left fun row hrow => ?_
  cases hfind : (hideWrite mailboxes id).update.find? fun entry => entry.1 = row.id with
  | some entry =>
    obtain ⟨other, hother, rfl⟩ := List.mem_map.1 (List.mem_of_find?_eq_some hfind)
    obtain ⟨hother, hboth⟩ := List.mem_filter.1 hother
    obtain ⟨-, hbranch⟩ := of_decide_eq_true hboth
    have hid : other.id = row.id := by simpa using List.find?_some hfind
    rw [hid] at hbranch
    simp [MailboxUpdate.write, hidden, hbranch]
  | none =>
    have hkeep : ¬ (row.isSubscribed = true ∧ row.id ∈ branchOf mailboxes id) := fun h => by
      have hentry := List.find?_eq_none.1 hfind (row.id, { isSubscribed := some false })
        (List.mem_map.2 ⟨row, List.mem_filter.2 ⟨hrow, decide_eq_true h⟩, rfl⟩)
      simp at hentry
    have hsame : (row.isSubscribed && decide (row.id ∉ branchOf mailboxes id)) =
        row.isSubscribed := by
      cases hsub : row.isSubscribed
      · rfl
      · rw [Bool.true_and]
        exact decide_eq_true fun hmem => hkeep ⟨hsub, hmem⟩
    rw [hidden, hsame]

theorem hidden_nodup (hids : (mailboxes.map Mailbox.id).Nodup) (id : Id) :
    ((mailboxes.map (hidden mailboxes id)).map Mailbox.id).Nodup := by
  rw [List.map_map]
  exact hids

/-- What stands above what does once a branch is hidden. -/
theorem Above.hidden (id : Id) (h : Above mailboxes row upper) :
    Above (mailboxes.map (hidden mailboxes id)) (hidden mailboxes id row)
      (hidden mailboxes id upper) := by
  induction h with
  | parent hupper hparent => exact .parent (List.mem_map_of_mem hupper) hparent
  | further _ hrole hupper hparent ih =>
    exact .further ih hrole (List.mem_map_of_mem hupper) hparent

theorem subscribed_hidden : (hidden mailboxes id row).isSubscribed = true ↔
    row.isSubscribed = true ∧ ¬ Branch mailboxes id row.id := by
  rw [hidden, Bool.and_eq_true, decide_eq_true_iff, mem_branchOf]

/-! ## The rows -/

section
variable (hids : (mailboxes.map Mailbox.id).Nodup)
include hids

theorem row_unique {other : Mailbox} (hrow : row ∈ mailboxes) (hother : other ∈ mailboxes)
    (h : row.id = other.id) : row = other :=
  List.inj_on_of_nodup_map hids hrow hother h

theorem above_iff : above mailboxes row = some upper ↔
    upper ∈ mailboxes ∧ row.parentId = some upper.id := by
  unfold above byId
  constructor
  · intro h
    obtain ⟨parent, hparent, h⟩ := Option.bind_eq_some_iff.1 h
    have hupper := List.mem_reverse.1 (List.mem_of_find?_eq_some h)
    have hid : upper.id = parent := by simpa using List.find?_some h
    exact ⟨hupper, hid ▸ hparent⟩
  · rintro ⟨hupper, hparent⟩
    rw [hparent, Option.bind_some]
    cases hfind : mailboxes.reverse.find? fun row => row.id = upper.id with
    | none =>
      have := List.find?_eq_none.1 hfind upper (List.mem_reverse.2 hupper)
      simp at this
    | some other =>
      have hother := List.mem_reverse.1 (List.mem_of_find?_eq_some hfind)
      have hid : other.id = upper.id := by simpa using List.find?_some hfind
      rw [row_unique hids hother hupper hid]

/-- In the branch of a folder without a role no mailbox has one. -/
theorem Branch.role_none (hfolder : ∀ row ∈ mailboxes, row.id = id → row.role = none)
    (hrow : row ∈ mailboxes) (h : Branch mailboxes id row.id) : row.role = none := by
  generalize hk : row.id = k at h
  cases h with
  | self => exact hfolder row hrow hk
  | under hother hrole => exact row_unique hids hrow hother hk ▸ hrole

/-! ## What is drawn -/

theorem mem_roles (hrow : row ∈ mailboxes) :
    row.id ∈ (mailboxes.filter fun row => row.role ≠ none).map Mailbox.id ↔ row.role ≠ none := by
  rw [List.mem_map]
  constructor
  · rintro ⟨other, hother, hid⟩
    obtain ⟨hother, hrole⟩ := List.mem_filter.1 hother
    rw [← row_unique hids hother hrow hid]
    exact of_decide_eq_true hrole
  · exact fun hrole => ⟨row, List.mem_filter.2 ⟨hrow, decide_eq_true hrole⟩, rfl⟩

/-- Roles and subscribed mailboxes are drawn, and what stands above a drawn folder without a role.
-/
theorem drawn_closed :
    (∀ row ∈ mailboxes, row.id ∈ drawnIds mailboxes → row.role = none → ∀ upper ∈ mailboxes,
      row.parentId = some upper.id → upper.id ∈ drawnIds mailboxes) ∧
    (∀ row ∈ mailboxes, row.role ≠ none → row.id ∈ drawnIds mailboxes) ∧
    ∀ row ∈ mailboxes, row.isSubscribed = true → row.id ∈ drawnIds mailboxes := by
  have hnext : ∀ row ∈ mailboxes, ∀ upper, above mailboxes row = some upper → upper ∈ mailboxes :=
    fun row _ upper h => ((above_iff hids).1 h).1
  have hstart : ∀ row ∈ mailboxes.filter Mailbox.isSubscribed, row ∈ mailboxes :=
    fun row hrow => (List.mem_filter.1 hrow).1
  obtain ⟨hclosed, hbase, hstarts⟩ : Closed Mailbox.id (above mailboxes) mailboxes
      ((mailboxes.filter fun row => row.role ≠ none).map Mailbox.id) (drawnIds mailboxes) ∧ _ :=
    climbs_closed hnext (fun a ha b hb h => row_unique hids ha hb h) hstart
  refine ⟨fun row hrow hdrawn hrole upper hupper hparent => ?_, fun row hrow hrole => ?_,
    fun row hrow hsub => ?_⟩
  · have hnot := mt (mem_roles hids hrow).1 (not_not.2 hrole)
    exact hclosed row hrow hdrawn hnot upper ((above_iff hids).2 ⟨hupper, hparent⟩)
  · exact hbase _ ((mem_roles hids hrow).2 hrole)
  · exact hstarts row (List.mem_filter.2 ⟨hrow, hsub⟩)

/-- What stands above a subscribed folder is drawn, with no role between them. -/
theorem drawn_above (hrow : row ∈ mailboxes) (hsub : row.isSubscribed = true)
    (hrole : row.role = none) (h : Above mailboxes row upper) : upper.id ∈ drawnIds mailboxes := by
  obtain ⟨hup, -, hsubs⟩ := drawn_closed hids
  have hdrawn : upper ∈ mailboxes ∧ upper.id ∈ drawnIds mailboxes := by
    induction h with
    | parent hupper hparent =>
      exact ⟨hupper, hup row hrow (hsubs row hrow hsub) hrole _ hupper hparent⟩
    | further _ hmid hupper hparent ih =>
      exact ⟨hupper, hup _ ih.1 ih.2 hmid _ hupper hparent⟩
  exact hdrawn.2

/-- What is drawn has a role, or has what passes up from each subscribed mailbox to the next role.
-/
theorem drawn_sound {P : Mailbox → Prop} (hrow : row ∈ mailboxes)
    (hsub : ∀ row ∈ mailboxes, row.isSubscribed = true → P row)
    (hpass : ∀ row ∈ mailboxes, P row → row.role = none → ∀ upper ∈ mailboxes,
      row.parentId = some upper.id → P upper)
    (h : row.id ∈ drawnIds mailboxes) : row.role ≠ none ∨ P row := by
  have hcases := climbs_sound (P := fun row => row ∈ mailboxes ∧ P row) (fun a b ha hbase hab => ?_)
    (fun a ha => ?_) h
  · rcases hcases with hrole | ⟨other, ⟨hother, hP⟩, hid⟩
    · exact .inl ((mem_roles hids hrow).1 hrole)
    · exact .inr (row_unique hids hother hrow hid ▸ hP)
  · obtain ⟨hb, hparent⟩ := (above_iff hids).1 hab
    have hrole : a.role = none := not_not.1 (mt (mem_roles hids ha.1).2 hbase)
    exact ⟨hb, hpass a ha.1 ha.2 hrole b hb hparent⟩
  · obtain ⟨ha, hsub'⟩ := List.mem_filter.1 ha
    exact ⟨ha, hsub a ha hsub'⟩

/-! ## What a hide leaves -/

/-- Where something outside the branch is subscribed, the branch is not drawn. -/
theorem hide_gone (hfolder : ∀ row ∈ mailboxes, row.id = id → row.role = none)
    (hrow : row ∈ mailboxes)
    (hdrawn : (hidden mailboxes id row).id ∈ drawnIds (mailboxes.map (hidden mailboxes id))) :
    ¬ Branch mailboxes id row.id := by
  intro hbranch
  have hrole : row.role = none := hbranch.role_none hids hfolder hrow
  have hrow' : hidden mailboxes id row ∈ mailboxes.map (hidden mailboxes id) :=
    List.mem_map_of_mem hrow
  have hcases := drawn_sound (P := fun row => ¬ Branch mailboxes id row.id) (hidden_nodup hids id)
    hrow' ?_ ?_ hdrawn
  · exact hcases.elim (fun h => h hrole) fun h => h hbranch
  · rintro _ hmem hsub
    obtain ⟨other, -, rfl⟩ := List.mem_map.1 hmem
    exact (subscribed_hidden.1 hsub).2
  · -- A folder without a role under one of the branch is of the branch.
    rintro _ hmem hnot hrole upper - hparent hupper
    obtain ⟨other, hother, rfl⟩ := List.mem_map.1 hmem
    have hbranch : Branch mailboxes id other.id := .under hother hrole hparent hupper
    exact hnot hbranch

/-- What has to stay is drawn. -/
theorem hide_stays (hrow : row ∈ mailboxes) (hout : ¬ Branch mailboxes id row.id)
    (hstays : Stays mailboxes id row) :
    (hidden mailboxes id row).id ∈ drawnIds (mailboxes.map (hidden mailboxes id)) := by
  have hids' := hidden_nodup hids id
  have hmem : ∀ {row : Mailbox}, row ∈ mailboxes →
      hidden mailboxes id row ∈ mailboxes.map (hidden mailboxes id) := List.mem_map_of_mem
  obtain ⟨-, hroles, hsubs⟩ := drawn_closed hids'
  rcases hstays with hrole | hsub | ⟨lower, hlower, hsub, hrole, hnot, habove⟩
  · exact hroles _ (hmem hrow) hrole
  · exact hsubs _ (hmem hrow) (subscribed_hidden.2 ⟨hsub, hout⟩)
  · have hsub' := subscribed_hidden.2 ⟨hsub, hnot⟩
    exact drawn_above hids' (hmem hlower) hsub' hrole (habove.hidden id)

/-- **A hide takes a folder's branch out of the tree, and leaves the rest that is drawn, exactly
when some mailbox outside the branch is subscribed.** -/
theorem hide_iff {folder : Mailbox} (hmem : folder ∈ mailboxes) (hrole : folder.role = none) :
    Hides mailboxes folder.id (applied mailboxes (hideWrite mailboxes folder.id)) ↔
      ∃ row ∈ mailboxes, row.isSubscribed = true ∧ ¬ Branch mailboxes folder.id row.id := by
  have hfolder : ∀ row ∈ mailboxes, row.id = folder.id → row.role = none :=
    fun row hrow hid => row_unique hids hrow hmem hid ▸ hrole
  rw [applied_hide]
  constructor
  · intro h
    by_contra hnone
    have hall : (mailboxes.map (hidden mailboxes folder.id)).any Mailbox.isSubscribed = false := by
      rw [List.any_eq_false]
      intro row hmapped hsub
      obtain ⟨row, hrow, rfl⟩ := List.mem_map.1 hmapped
      obtain ⟨hsub, hout⟩ := subscribed_hidden.1 hsub
      exact hnone ⟨row, hrow, hsub, hout⟩
    have hgone := h.gone (hidden mailboxes folder.id folder)
    rw [visibleMailboxes, hall] at hgone
    exact hgone (List.mem_map_of_mem hmem) .self
  · rintro ⟨other, hother, hsub⟩
    have hsome : (mailboxes.map (hidden mailboxes folder.id)).any Mailbox.isSubscribed = true :=
      List.any_eq_true.2 ⟨_, List.mem_map_of_mem hother, subscribed_hidden.2 hsub⟩
    constructor
    · intro row hrow
      rw [visibleMailboxes, if_pos hsome, List.mem_filter] at hrow
      obtain ⟨hrow, hdrawn⟩ := hrow
      obtain ⟨other, hother, rfl⟩ := List.mem_map.1 hrow
      have hgone : ¬ Branch mailboxes folder.id other.id :=
        hide_gone hids hfolder hother (of_decide_eq_true hdrawn)
      exact hgone
    · intro row hrow hout hstays
      refine ⟨hidden mailboxes folder.id row, ?_, rfl⟩
      rw [visibleMailboxes, if_pos hsome]
      exact List.mem_filter.2
        ⟨List.mem_map_of_mem hrow, decide_eq_true (hide_stays hids hrow hout hstays)⟩

end

/-- An inbox and two folders, one under the other, both subscribed. -/
def nested : List Mailbox :=
  [⟨"inbox", "INBOX", none, some "inbox", true⟩, ⟨"work", "Work", none, none, true⟩,
    ⟨"jobs", "Jobs", some "work", none, true⟩]

/-- A hide of the folder above takes both out, since the inbox stays subscribed. -/
theorem hide_nested :
    Hides nested "work" (applied nested (hideWrite nested "work")) :=
  have hids : (nested.map Mailbox.id).Nodup := by decide
  have hmem : ⟨"work", "Work", none, none, true⟩ ∈ nested := by decide
  (hide_iff hids hmem rfl).2 ⟨_, List.mem_cons_self, rfl, mt mem_branchOf.2 (by decide)⟩

/-- An account that subscribes one folder. -/
def single : List Mailbox :=
  [⟨"inbox", "INBOX", none, some "inbox", false⟩, ⟨"work", "Work", none, none, true⟩]

/-- A hide of the only subscribed folder, which the tree draws, leaves it in the tree. -/
theorem hide_last :
    (∃ row ∈ single, row.isSubscribed = true) ∧
      ⟨"work", "Work", none, none, true⟩ ∈ visibleMailboxes single ∧
      ¬ Hides single "work" (applied single (hideWrite single "work")) := by
  refine ⟨⟨_, List.mem_cons_of_mem _ List.mem_cons_self, rfl⟩, by decide, fun h => ?_⟩
  exact h.gone ⟨"work", "Work", none, none, false⟩ (by decide) .self

end Huliho.Visible
