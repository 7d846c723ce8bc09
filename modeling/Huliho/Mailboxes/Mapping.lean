import Huliho.Folders.Types
import Huliho.Folders.Utf7
import Huliho.Store.Mailboxes

/-!
# From a listing to mailbox facts

`mailboxes/mapping.rs` and the rules of `gmail.rs` it reads: roles, names, the hierarchy and the
sort order from LIST and STATUS lines. On Gmail three folders are stores and every other one shows a
label. A role is given out once, whoever asks for it (**`assignRoles_once`**), and a store shows no
label (**`mapWithOverrides_store`**).

Rust's Unicode lower case, which only breaks ties between claims, is a parameter.
-/

namespace Huliho.Mapping

/-! ## Lines -/

/-- One line of a listing, its attributes in upper case. -/
structure ListEntry where
  name : String
  delimiter : Option Char
  attributes : List String
deriving DecidableEq, Repr

/-- One STATUS line; an item the server left out is `none`. -/
structure StatusEntry where
  mailbox : String
  messages : Option Nat
  unseen : Option Nat
  uidNext : Option Nat
  uidValidity : Option Nat
  highestModseq : Option Nat
deriving DecidableEq, Repr

/-- Where the subscriptions come from. -/
inductive Subscriptions
  | attributes
  | lsub (names : List String)
deriving DecidableEq, Repr

/-! ## Tables -/

def ROLES : List String :=
  ["inbox", "drafts", "sent", "archive", "junk", "trash", "all", "flagged", "important"]

/-- How many of `ROLES` sort in front. -/
def PINNED : Nat := 6

def SORT_ORDER_REST : Nat := 6

def ATTRIBUTE_ROLES : List (String × String) :=
  [("\\ALL", "all"), ("\\ARCHIVE", "archive"), ("\\DRAFTS", "drafts"), ("\\FLAGGED", "flagged"),
    ("\\IMPORTANT", "important"), ("\\JUNK", "junk"), ("\\SENT", "sent"), ("\\TRASH", "trash")]

def NAMED_ROLES : List (String × String) :=
  [("Drafts", "drafts"), ("Sent", "sent"), ("Sent Items", "sent"), ("Sent Messages", "sent"),
    ("Junk", "junk"), ("Spam", "junk"), ("Junk E-mail", "junk"), ("Junk Email", "junk"),
    ("Trash", "trash"), ("Deleted Items", "trash"), ("Deleted Messages", "trash"),
    ("Archive", "archive"), ("Archives", "archive")]

def NOSELECT : String := "\\NOSELECT"
def NONEXISTENT : String := "\\NONEXISTENT"
def SUBSCRIBED : String := "\\SUBSCRIBED"

/-- The attributes of the folders whose messages the sync fetches on Gmail. -/
def STORE_ATTRIBUTES : List String := ["\\ALL", "\\JUNK", "\\TRASH"]

def LABELED_ATTRIBUTES : List (String × String) :=
  [("\\SENT", "\\Sent"), ("\\DRAFTS", "\\Drafts"), ("\\FLAGGED", "\\Flagged"),
    ("\\IMPORTANT", "\\Important")]

def INBOX_LABEL : String := "\\Inbox"

/-! ## One entry -/

/-- Whether the mailbox can be selected. -/
def isSelectable (attributes : List String) : Bool :=
  !attributes.any fun found => found = NOSELECT || found = NONEXISTENT

/-- Whether a selectable entry is a store: All Mail, Spam or Trash. -/
def isStore (attributes : List String) : Bool := attributes.any STORE_ATTRIBUTES.contains

/-- The role an attribute claims on Gmail: `\All` is the archive. -/
def gmailRole (role : String) : String := if role = "all" then ALL_MAIL_ROLE else role

/-- The label a selectable entry that is no store shows. -/
def labelOf (entry : ListEntry) : String :=
  if Folders.isInboxName entry.name then INBOX_LABEL
  else ((LABELED_ATTRIBUTES.find? fun known => entry.attributes.contains known.1).map
    Prod.snd).getD entry.name

/-- A text around the last of a character; `none` where it is not in the text. -/
def rsplitOnce (c : Char) (text : List Char) : Option (List Char × List Char) :=
  let leaf := text.reverse.takeWhile (· ≠ c)
  match text.reverse.drop leaf.length with
  | [] => none
  | _ :: parent => some (parent.reverse, leaf.reverse)

/-- The parent's wire name and the leaf; a name without a delimiter inside it is its own leaf at the
top. -/
def split (name : String) (delimiter : Option Char) : Option String × String :=
  match delimiter.bind fun c => rsplitOnce c name.toList with
  | some (parent, leaf) =>
    if parent ≠ [] ∧ leaf ≠ [] then (some (String.ofList parent), String.ofList leaf)
    else (none, name)
  | none => (none, name)

/-- A leaf as the tree shows it. -/
def decoded (leaf : String) : String :=
  String.ofList (Utf7.decode Utf7.modifiedBase64 leaf.toList)

/-- Where a role sits in the tree. -/
def sortOrder (role : Option String) : Nat :=
  (role.bind fun role => (ROLES.take PINNED).findIdx? (· = role)).getD SORT_ORDER_REST

/-! ## Claims -/

/-- A claim on a role, ordered the way a tie is broken. -/
structure Claim where
  byName : Bool
  depth : Nat
  folded : String
  name : String
  role : String
deriving DecidableEq, Repr

/-- An attribute goes before a name, then the smaller depth, then the decoded name without regard to
case, then the wire name. -/
def Claim.le (a b : Claim) : Bool :=
  ((((compare a.byName b.byName).then (compare a.depth b.depth)).then
    (compare a.folded b.folded)).then (compare a.name b.name)).then
      (compare a.role b.role) |>.isLE

/-- The role an entry claims: INBOX by its full name, then the attributes in their fixed order, then
the name table on the leaf. -/
def claim (lower : String → String) (entry : ListEntry) (gmail : Bool) : Option Claim :=
  if !isSelectable entry.attributes then none
  else
    let leaf := decoded (split entry.name entry.delimiter).2
    let byAttribute := ATTRIBUTE_ROLES.find? fun known => entry.attributes.contains known.1
    let found : Option (String × Bool) :=
      if Folders.isInboxName entry.name then some ("inbox", false)
      else
        match byAttribute with
        | some known => some (if gmail then gmailRole known.2 else known.2, false)
        | none =>
          (NAMED_ROLES.find? fun known =>
            Folders.asciiLower leaf = Folders.asciiLower known.1).map fun known => (known.2, true)
    found.map fun (role, byName) =>
      { byName
        depth := (entry.delimiter.map entry.name.toList.count).getD 0
        folded := lower leaf
        name := entry.name
        role }

/-! ## Roles -/

/-- The roles given out so far: those taken, and by wire name who has which, the last first. -/
structure Assigning where
  taken : List String
  assigned : List (String × String)

namespace Assigning

def empty : Assigning := ⟨[], []⟩

/-- The role of a wire name. -/
def get (a : Assigning) (name : String) : Option String :=
  (a.assigned.find? fun entry => entry.1 = name).map Prod.snd

/-- Gives a role to a name where nobody has it. -/
def take (a : Assigning) (name role : String) : Assigning :=
  if role ∈ a.taken then a else ⟨role :: a.taken, (name, role) :: a.assigned⟩

/-- Gives an entry the role the user set on it. -/
def override (overrides : String → Option RoleOverride) (a : Assigning) (entry : ListEntry) :
    Assigning :=
  match overrides entry.name with
  | none => a
  | some set =>
    match ROLES.find? fun known => set.get = some known with
    | some role => a.take entry.name role
    | none => a

/-- Each role is had by one name at most, and no role that is had is free. -/
structure Once (a : Assigning) : Prop where
  held : ∀ entry ∈ a.assigned, entry.2 ∈ a.taken
  one : ∀ name other role, a.get name = some role → a.get other = some role → name = other

end Assigning

/-- One role per mailbox and one mailbox per role. A selectable mailbox with a role the user set
takes that role or none at all and claims nothing more; the claims share out the roles left. -/
def assignRoles (lower : String → String) (entries : List ListEntry) (gmail : Bool)
    (overrides : String → Option RoleOverride) : Assigning :=
  let selectable := entries.filter fun entry => isSelectable entry.attributes
  let settled := (selectable.filter fun entry => (overrides entry.name).isSome).map ListEntry.name
  let set := selectable.foldl (Assigning.override overrides) Assigning.empty
  let claims := (entries.filter fun entry => entry.name ∉ settled).filterMap fun entry =>
    claim lower entry gmail
  (claims.mergeSort Claim.le).foldl (fun a claim => a.take claim.name claim.role) set

/-! ## Facts -/

/-- What the facts of an entry are read from beside the entry. -/
structure Context where
  statuses : List StatusEntry
  names : List String
  roles : Assigning
  subscriptions : Subscriptions
  gmail : Bool

def facts (context : Context) (entry : ListEntry) : MailboxFacts :=
  let selectable := isSelectable entry.attributes
  let store := selectable && (!context.gmail || isStore entry.attributes)
  -- Of two lines about one mailbox the map keeps the later.
  let status := context.statuses.reverse.find? fun status => status.mailbox = entry.name
  let subscribed := match context.subscriptions with
    | .attributes => entry.attributes.contains SUBSCRIBED
    | .lsub names => names.contains entry.name
  let (parent, leaf) := split entry.name entry.delimiter
  let role := context.roles.get entry.name
  { name := decoded leaf
    imapName := entry.name
    parentImapName := parent.filter context.names.contains
    role
    sortOrder := sortOrder role
    subscribed
    selectable
    store
    gmailLabel := if selectable && !store then some (labelOf entry) else none
    uidValidity := status.bind StatusEntry.uidValidity
    uidNext := status.bind StatusEntry.uidNext
    highestModseq := status.bind StatusEntry.highestModseq
    totalEmails := (status.bind StatusEntry.messages).getD 0
    unreadEmails := (status.bind StatusEntry.unseen).getD 0 }

/-- Turns a listing into mailbox facts, in its order, with the roles the user set read ahead of the
attributes and the name table. -/
def mapWithOverrides (lower : String → String) (entries : List ListEntry)
    (statuses : List StatusEntry) (subscriptions : Subscriptions) (gmail : Bool)
    (overrides : String → Option RoleOverride) : List MailboxFacts :=
  entries.map <| facts
    { statuses
      names := entries.map ListEntry.name
      roles := assignRoles lower entries gmail overrides
      subscriptions
      gmail }

/-! ## Each role once -/

namespace Assigning

variable {a : Assigning}

theorem once_empty : empty.Once :=
  ⟨fun _ h => absurd h List.not_mem_nil, fun _ _ _ h => by cases h⟩

theorem get_mem {name role : String} (h : a.get name = some role) : (name, role) ∈ a.assigned := by
  obtain ⟨entry, hfound, rfl⟩ := Option.map_eq_some_iff.1 h
  obtain rfl : entry.1 = name := by simpa using List.find?_some hfound
  exact List.mem_of_find?_eq_some hfound

/-- A role is given where it is free. -/
theorem Once.take (h : a.Once) (name role : String) : (a.take name role).Once := by
  unfold Assigning.take
  split_ifs with htaken
  · exact h
  · have hget : ∀ other, get ⟨role :: a.taken, (name, role) :: a.assigned⟩ other =
        if name = other then some role else a.get other := by
      intro other
      unfold get
      rw [List.find?_cons]
      by_cases hname : name = other <;> simp [hname]
    -- Nobody had the role so far.
    have hfree : ∀ other, a.get other ≠ some role := fun other hother =>
      htaken (h.held _ (get_mem hother))
    refine ⟨List.forall_mem_cons.2 ⟨List.mem_cons_self, fun entry hentry =>
      List.mem_cons_of_mem _ (h.held entry hentry)⟩, fun first second r hfirst hsecond => ?_⟩
    rw [hget] at hfirst hsecond
    split_ifs at hfirst hsecond with h1 h2 h2
    · exact h1.symm.trans h2
    · exact absurd (hsecond.trans hfirst.symm) (hfree second)
    · exact absurd (hfirst.trans hsecond.symm) (hfree first)
    · exact h.one first second r hfirst hsecond

theorem Once.override (h : a.Once) (overrides : String → Option RoleOverride)
    (entry : ListEntry) : (a.override overrides entry).Once := by
  unfold Assigning.override
  split
  · exact h
  · split
    · exact h.take _ _
    · exact h

end Assigning

/-- **A role is given out once.** -/
theorem assignRoles_once (lower : String → String) (entries : List ListEntry) (gmail : Bool)
    (overrides : String → Option RoleOverride) :
    (assignRoles lower entries gmail overrides).Once := by
  unfold assignRoles
  refine List.foldlRecOn _ _ ?_ fun a h claim _ => h.take _ _
  exact List.foldlRecOn _ _ Assigning.once_empty fun a h entry _ => h.override _ _

variable {lower : String → String} {entries : List ListEntry} {statuses : List StatusEntry}
  {subscriptions : Subscriptions} {gmail : Bool} {overrides : String → Option RoleOverride}

/-- **A store shows no label.** -/
theorem mapWithOverrides_store {found : MailboxFacts}
    (h : found ∈ mapWithOverrides lower entries statuses subscriptions gmail overrides)
    (hstore : found.store) : found.gmailLabel = none := by
  obtain ⟨entry, -, rfl⟩ := List.mem_map.1 h
  change (if _ then _ else _) = _
  rw [if_neg]
  rw [Bool.and_eq_true, not_and, Bool.not_eq_true']
  intro _ hcontra
  exact Bool.false_ne_true (hcontra.symm.trans hstore)

/-- Two mailboxes with one role are one. -/
theorem mapWithOverrides_role {a b : MailboxFacts}
    (ha : a ∈ mapWithOverrides lower entries statuses subscriptions gmail overrides)
    (hb : b ∈ mapWithOverrides lower entries statuses subscriptions gmail overrides)
    {role : String} (hra : a.role = some role) (hrb : b.role = some role) :
    a.imapName = b.imapName := by
  obtain ⟨first, -, rfl⟩ := List.mem_map.1 ha
  obtain ⟨second, -, rfl⟩ := List.mem_map.1 hb
  exact (assignRoles_once lower entries gmail overrides).one _ _ role hra hrb

end Huliho.Mapping
