import Mathlib.Data.Finset.Basic
import Mathlib.Data.List.Sort
import Huliho.Folders.Types

/-!
# The check before a command

`runtime/folders/plan.rs`, `step.rs` and `plan/roles.rs`: every object of a call is checked against
the rows before anything is sent — what the account holds, the rights, the roles, the children, the
mail and the names beside it. A mailbox the call creates is a row for the objects after it. What an
update renames or moves is told to the names taken and to the children counted, while its row stands
as the call found it.
-/

namespace Huliho.Folders

/-- A name the user typed with its leaf and the mailbox it goes under; none for the top level. -/
structure Naming where
  typed : String
  leaf : String
  under : Option MailboxId
deriving DecidableEq

/-- What one object asks of the server once it passed every check. A role set is none inside for no
role. -/
inductive Step
  | create (index : Nat) (id : MailboxId) (naming : Naming) (role : Option (Option String))
      (subscribe : Bool)
  /-- `followers` are the subscribed mailboxes a rename carries, the mailbox first. -/
  | update (index : Nat) (id : MailboxId) (rename : Option Naming) (followers : List MailboxId)
      (subscribe : Option Bool) (role : Option (Option String))
  /-- `subscribed` says whether the name is subscribed, which a server keeps after a deletion. -/
  | destroy (index : Nat) (id : MailboxId) (subscribed : Bool)
deriving DecidableEq

namespace Step

/-- Where the object stands in the ask. -/
def index : Step → Nat
  | .create index _ _ _ _ => index
  | .update index _ _ _ _ _ => index
  | .destroy index _ _ => index

/-- The mailbox the step names. -/
def id : Step → MailboxId
  | .create _ id _ _ _ => id
  | .update _ id _ _ _ _ => id
  | .destroy _ id _ => id

/-- Whether the step sends nothing: an update of the role alone or of what the mailbox holds. -/
def isLocal : Step → Bool
  | .update _ _ none _ none _ => true
  | _ => false

end Step

/-- The row of the mailbox a create makes. -/
def madeRow (id : MailboxId) (naming : Naming) (role : Option (Option String)) (wire : String)
    (subscribed gmail : Bool) : MailboxRow where
  id
  parentId := naming.under
  name := naming.leaf
  imapName := wire
  role := role.join
  subscribed
  selectable := true
  store := !gmail
  gmailLabel := if gmail then some wire else none
  totalEmails := 0

/-! ## The order of the creates -/

/-- The creation id of the same call a create's parent names, if any. -/
def waitsOn (creates : List Create) (create : Create) : Option String :=
  (create.parent.bind creationIdOf).filter fun creation =>
    creates.any fun other => other.creationId = creation

/-- One pass over the creates left: those whose parent is placed go in order. Answers the ids placed,
the order so far and the ones left. -/
def placePass (creates : List Create) :
    List Nat → List String × List Nat → (List String × List Nat) × List Nat
  | [], done => (done, [])
  | index :: left, (placed, order) =>
    match creates[index]? with
    | none => placePass creates left (placed, order)
    | some create =>
      if (waitsOn creates create).any fun parent => parent ∉ placed then
        let rest := placePass creates left (placed, order)
        (rest.1, index :: rest.2)
      else placePass creates left (create.creationId :: placed, order ++ [index])

/-- Pass after pass until none places a create; each places one or is the last. -/
def placeAll (creates : List Create) : Nat → List Nat → List String × List Nat → List Nat
  | 0, left, (_, order) => order ++ left
  | fuel + 1, left, done =>
    let pass := placePass creates left done
    if pass.2 = [] ∨ pass.2.length = left.length then pass.1.2 ++ pass.2
    else placeAll creates fuel pass.2 pass.1

/-- The creates in an order where each comes after the create its parent names; one whose reference
never resolves comes last. -/
def creationOrder (creates : List Create) : List Nat :=
  placeAll creates creates.length (List.range creates.length) ([], [])

/-! ## The rows as the call leaves them so far -/

/-- What a check reads and does not change. -/
structure Setting where
  snapshot : MailboxSnapshot
  nfc : String → String
  /-- The id each create would take, by creation id. -/
  created : String → Option MailboxId
  /-- The creation ids the calls before this one resolved. -/
  references : String → Option MailboxId
  /-- The mailboxes the call destroys. -/
  destroying : List MailboxId

/-- The rows as the call leaves them so far. -/
structure Planning where
  rows : Record MailboxId MailboxRow
  /-- The names taken under each parent, as `sibling` reads them. -/
  names : Finset (Option MailboxId × String)
  /-- The children each mailbox holds. -/
  children : MailboxId → Nat
  /-- The role each update that lands sets, by the mailbox it names; none while no role is
  contested. -/
  roles : Option (MailboxId → Option (Option String))
  steps : List Step
  refused : List (Nat × Refusal)

namespace Setting

variable (setting : Setting)

/-- A name under its parent as the check reads it. -/
def sibling (parent : Option MailboxId) (name : String) : Option MailboxId × String :=
  let name := setting.nfc name
  (parent, if setting.snapshot.gmail then asciiLower name else name)

/-- An id as written or the id a creation id stands for: a create of this call first, then one of an
earlier call. One that stands for nothing stays as written. -/
def resolved (id : String) : MailboxId :=
  match creationIdOf id with
  | none => id
  | some creation => ((setting.created creation).or (setting.references creation)).getD id

def may (row : MailboxRow) (right : Right) : Bool := setting.snapshot.may row right

/-- The emails of a mailbox as a read counts them. -/
def emails (row : MailboxRow) : Nat :=
  if setting.snapshot.done row.id then (setting.snapshot.counts row.id).getD 0
  else row.totalEmails

end Setting

namespace Planning

variable (setting : Setting) (planning : Planning)

def row (id : MailboxId) : Option MailboxRow := planning.rows.get id

/-- The parent a create or a move names: a mailbox or the top level. -/
def under (parent : Option String) : Except Refusal (Option MailboxId) :=
  match parent with
  | none => .ok none
  | some parent =>
    match planning.row (setting.resolved parent) with
    | none => .error (invalid "parentId")
    | some row => if setting.may row .createChild then .ok (some row.id) else .error .forbidden

/-- The name as far as it reads without the server's delimiter, free under its parent. -/
def name (typed : String) (under : Option MailboxId) : Except Refusal String :=
  match MailboxName.new setting.nfc typed ⟨none, none⟩ with
  | .error error => .error (nameError error)
  | .ok ⟨leaf, _⟩ =>
    let inbox := under.isNone && isInboxName leaf
    let crowds := setting.snapshot.gmail && crowded leaf
    if inbox || crowds || setting.sibling under leaf ∈ planning.names then
      .error (invalid "name")
    else .ok leaf

/-! ### Roles -/

def ROLES : List String :=
  ["inbox", "drafts", "sent", "archive", "junk", "trash", "all", "flagged", "important"]

def INBOX_ROLE : String := "inbox"

/-- The role a mailbox has once every role the call sets is in place. -/
def roleAfter (roles : MailboxId → Option (Option String)) (row : MailboxRow) : Option String :=
  (roles row.id).getD row.role

/-- Whether a mailbox other than `own` holds the role once every role the call sets is in place.
Nothing is held while no role is contested. -/
def heldElsewhere (role : String) (own : Option MailboxId) : Bool :=
  match planning.roles with
  | none => false
  | some roles =>
    (planning.rows.values.filter fun other => some other.id ≠ own).any fun other =>
      roleAfter roles other = some role

/-- The role an object sets. -/
def role (role : Option String) (row : Option MailboxRow) : Except Refusal (Option String) :=
  if setting.snapshot.gmail || row.any (fun row => isInboxName row.imapName) ||
      role = some INBOX_ROLE then .error .forbidden
  else
    match role with
    | none => .ok none
    | some role =>
      if role ∉ ROLES || !row.all MailboxRow.selectable ||
          planning.heldElsewhere role (row.map MailboxRow.id) then .error (invalid "role")
      else .ok (some role)

/-- The role an object sets, where it names one. -/
def roleOf (named : Option (Option String)) (row : Option MailboxRow) :
    Except Refusal (Option (Option String)) :=
  match named with
  | none => .ok none
  | some role => (planning.role setting role row).map some

/-! ### The tree -/

/-- Whether the walk up from a mailbox meets another, in so many steps. -/
def liesUnderIn (ancestor : MailboxId) : Nat → MailboxId → Bool
  | 0, id => id = ancestor
  | steps + 1, id =>
    if id = ancestor then true
    else
      match (planning.row id).bind MailboxRow.parentId with
      | none => false
      | some parent => liesUnderIn ancestor steps parent

/-- Whether `id` is `ancestor` or lies anywhere under it. -/
def liesUnder (id ancestor : MailboxId) : Bool :=
  planning.liesUnderIn ancestor planning.rows.rows.length id

/-- How many parents stand above a mailbox, up to a bound. -/
def depthIn : Nat → MailboxId → Nat
  | 0, _ => 0
  | steps + 1, id =>
    match (planning.row id).bind MailboxRow.parentId with
    | none => 0
    | some parent => depthIn steps parent + 1

def depth (id : MailboxId) : Nat := planning.depthIn planning.rows.rows.length id

/-- The subscribed mailboxes among the mailbox and every one under it, the mailbox first and the rest
by depth. -/
def followers (row : MailboxRow) : List MailboxId :=
  let found := (planning.rows.values.filter fun other =>
    other.subscribed && planning.liesUnder other.id row.id).map fun other =>
      (planning.depth other.id, other.id)
  (found.insertionSort fun a b => a.1 < b.1 ∨ (a.1 = b.1 ∧ a.2 ≤ b.2)).map Prod.snd

/-- The children counted once one left a parent. -/
def leaveParent (parent : Option MailboxId) : Planning :=
  match parent with
  | none => planning
  | some parent =>
    { planning with
      children := Function.update planning.children parent (planning.children parent - 1) }

/-- The children counted once one joined a parent. -/
def joinParent (parent : Option MailboxId) : Planning :=
  match parent with
  | none => planning
  | some parent =>
    { planning with
      children := Function.update planning.children parent (planning.children parent + 1) }

/-! ### Objects -/

/-- A create: its row joins the rows for the objects after it. -/
def create (index : Nat) (id : MailboxId) (create : Create) : Planning × Except Refusal Step :=
  match planning.under setting create.parent with
  | .error refusal => (planning, .error refusal)
  | .ok under =>
    match planning.name setting create.name under with
    | .error refusal => (planning, .error refusal)
    | .ok leaf =>
      match planning.roleOf setting create.role none with
      | .error refusal => (planning, .error refusal)
      | .ok role =>
        let naming : Naming := ⟨create.name, leaf, under⟩
        let subscribe := create.subscribed.getD true
        let named := { planning with names := insert (setting.sibling under leaf) planning.names }
        let joined := named.joinParent under
        ({ joined with
            rows := joined.rows.put id
              (madeRow id naming role "" subscribe setting.snapshot.gmail) },
          .ok (.create index id naming role subscribe))

/-- A new name or parent; none where nothing moves. -/
def rename (row : MailboxRow) (update : Update) :
    Planning × Except Refusal (Option Naming) :=
  let typed := update.name.getD row.name
  let parent := update.parent.getD row.parentId
  let unmoved : Bool := parent = row.parentId
  if unmoved ∧ setting.nfc typed = setting.nfc row.name then (planning, .ok none)
  else if ¬ setting.may row .rename then (planning, .error .forbidden)
  else
    match planning.under setting parent with
    | .error refusal => (planning, .error refusal)
    | .ok under =>
      if under.any fun parent => planning.liesUnder parent row.id then
        (planning, .error (invalid "parentId"))
      else
        let own := setting.sibling row.parentId row.name
        let freed := { planning with names := planning.names.erase own }
        match freed.name setting typed under with
        | .error refusal => ({ freed with names := insert own freed.names }, .error refusal)
        | .ok leaf =>
          let named := { freed with names := insert (setting.sibling under leaf) freed.names }
          let moved := if unmoved then named else (named.leaveParent row.parentId).joinParent under
          (moved, .ok (some ⟨typed, leaf, under⟩))

def update (index : Nat) (update : Update) : Planning × Except Refusal Step :=
  let id := setting.resolved update.id
  match planning.row id with
  | none => (planning, .error .notFound)
  | some row =>
    if id ∈ setting.destroying then (planning, .error .willDestroy)
    else
      match planning.roleOf setting update.role (some row) with
      | .error refusal => (planning, .error refusal)
      | .ok role =>
        -- A role mailbox stays subscribed: the role is the one the call leaves it with.
        let held := (role.getD row.role).isSome
        if update.subscribed = some false ∧ (held || isInboxName row.imapName) then
          (planning, .error .forbidden)
        else
          match planning.rename setting row update with
          | (next, .error refusal) => (next, .error refusal)
          | (next, .ok rename) =>
            (next, .ok (.update index row.id rename
              (if rename.isSome then next.followers row else [])
              (update.subscribed.filter fun wanted => wanted ≠ row.subscribed) role))

/-- A destroy: the mailbox must take one and hold no child. -/
def destroy (index : Nat) (id : String) (removeEmails : Bool) :
    Planning × Except Refusal Step :=
  match planning.row (setting.resolved id) with
  | none => (planning, .error .notFound)
  | some row =>
    if ¬ setting.may row .delete then (planning, .error .forbidden)
    else if 0 < planning.children row.id then (planning, .error .mailboxHasChild)
    else if ¬ removeEmails ∧ 0 < setting.emails row then (planning, .error .mailboxHasEmail)
    else (planning.leaveParent row.parentId, .ok (.destroy index row.id row.subscribed))

/-- An object passed or was refused. -/
def settle (index : Nat) : Planning × Except Refusal Step → Planning
  | (planning, .ok step) => { planning with steps := planning.steps ++ [step] }
  | (planning, .error refusal) =>
    { planning with refused := planning.refused ++ [(index, refusal)] }

end Planning

/-! ## The whole ask -/

/-- One object of the ask with its place. -/
inductive Object
  | create (index : Nat) (id : MailboxId) (create : Create)
  | update (index : Nat) (update : Update)
  | destroy (index : Nat) (id : String) (removeEmails : Bool)

/-- Where the object stands in the ask. -/
def Object.index : Object → Nat
  | .create index _ _ => index
  | .update index _ => index
  | .destroy index _ _ => index

/-- The creates in the order their references need, then the updates, then the destroys. -/
def objectsOf (generated : String → MailboxId) (ask : Ask) : List Object :=
  ((creationOrder ask.creates).filterMap fun index =>
      ask.creates[index]?.map fun create => .create index (generated create.creationId) create) ++
    (ask.updates.zipIdx.map fun entry => .update (ask.creates.length + entry.2) entry.1) ++
    ask.destroys.zipIdx.map fun entry =>
      .destroy (ask.creates.length + ask.updates.length + entry.2) entry.1 ask.removeEmails

namespace Planning

def check (setting : Setting) (planning : Planning) : Object → Planning × Except Refusal Step
  | .create index id create => planning.create setting index id create
  | .update index update => planning.update setting index update
  | .destroy index id removeEmails => planning.destroy setting index id removeEmails

/-- One object checked against what the ones before it did. -/
def take (setting : Setting) (planning : Planning) (object : Object) : Planning :=
  settle object.index (planning.check setting object)

def run (setting : Setting) (planning : Planning) (objects : List Object) : Planning :=
  objects.foldl (take setting) planning

/-- The rows as the call finds them. -/
def new (setting : Setting) : Planning where
  rows := setting.snapshot.table
  names := (setting.snapshot.rows.map fun row => setting.sibling row.parentId row.name).toFinset
  children := fun id => (setting.snapshot.rows.filter fun row => row.parentId = some id).length
  roles := none
  steps := []
  refused := []

end Planning

/-- What the check of one ask reads; each create takes a generated id. -/
def settingOf (snapshot : MailboxSnapshot) (nfc : String → String) (generated : String → MailboxId)
    (references : String → Option MailboxId) (ask : Ask) : Setting :=
  let created creation := if ask.creates.any fun create => create.creationId = creation then
    some (generated creation) else none
  let setting : Setting := ⟨snapshot, nfc, created, references, []⟩
  { setting with destroying := ask.destroys.map setting.resolved }

/-- The role each update that lands sets, by the mailbox it names: a run with no role contested tells
which updates pass their other checks. -/
def ofLandingUpdates (setting : Setting) (generated : String → MailboxId) (ask : Ask) :
    MailboxId → Option (Option String) :=
  let run := (Planning.new setting).run setting (objectsOf generated ask)
  let passed := run.steps.map Step.index
  let landing := ask.updates.zipIdx.filterMap fun entry =>
    entry.1.role.bind fun role =>
      if ask.creates.length + entry.2 ∈ passed then some (setting.resolved entry.1.id, role)
      else none
  fun id => (landing.reverse.find? fun entry => entry.1 = id).map Prod.snd

/-- What the check of the ask begins with: the rows and what its updates set. -/
def contested (setting : Setting) (generated : String → MailboxId) (ask : Ask) : Planning :=
  { Planning.new setting with roles := some (ofLandingUpdates setting generated ask) }

/-- Every object of the ask checked. -/
def planned (setting : Setting) (generated : String → MailboxId) (ask : Ask) : Planning :=
  (contested setting generated ask).run setting (objectsOf generated ask)

end Huliho.Folders
