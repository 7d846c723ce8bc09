import Huliho.Folders.Types
import Huliho.Jmap.References

/-!
# `Mailbox/set`

`jmap/mailbox_set.rs`: the arguments of a call as the runtime takes them, and its answer. Without an
outcome the call leaves what it asks and answers that the server is unavailable; with one it answers
the objects as the rows show them when it runs, so its answer is a function of them.
-/

namespace Huliho.Requests

open References (Fields MethodError)
open Folders (Create Update Refusal MailboxId)
open Json

/-- What one `Mailbox/set` asks, each object as its call read it. -/
structure FolderAsk extends Folders.Ask where
  ifInState : Option String

/-- The mailboxes of an account as `Mailbox/get` shows them; one without a row renders as nothing.
-/
structure Shown where
  state : Nat
  rendered : MailboxId → Fields

/-- What came of one ask. -/
inductive FolderOutcome
  | stateMismatch
  | done (before : Shown) (newState : Nat) (created updated destroyed :
      List (String × Except Refusal MailboxId))

/-! ## The arguments -/

/-- The properties a client sets. -/
def SETTABLE : List String := ["name", "parentId", "role", "isSubscribed"]

/-- Objects in one call. -/
def MAX_OBJECTS_IN_SET : Nat := 500

def WRONG_SHAPE : MethodError :=
  .invalidArguments "an argument is missing, unknown or of the wrong type"

/-- The members of an object, each under its name once. -/
def members (object : Fields) : Fields :=
  (firsts (object.map Prod.fst)).filterMap fun name =>
    (lookup object name).map fun value => (name, value)

/-- An argument that may be missing or null. -/
def optional {α : Type} (read : Json → Option α) : Option Json → Option (Option α)
  | none | some .null => some none
  | some value => (read value).map some

def asBool : Json → Option Bool
  | .bool value => some value
  | _ => none

def asTexts (value : Json) : Option (List String) := value.asArray.bind fun items =>
  items.mapM Json.asStr

structure SetArguments where
  accountId : String
  ifInState : Option String
  create : Option Fields
  update : Option Fields
  destroy : Option (List String)
  onDestroyRemoveEmails : Option Bool

def ARGUMENTS : List String :=
  ["accountId", "ifInState", "create", "update", "destroy", "onDestroyRemoveEmails"]

def readArguments (raw : Fields) : Option SetArguments :=
  if raw.all fun field => ARGUMENTS.contains field.1 then do
    let accountId ← (lookup raw "accountId").bind Json.asStr
    let ifInState ← optional Json.asStr (lookup raw "ifInState")
    let create ← optional Json.asObject (lookup raw "create")
    let update ← optional Json.asObject (lookup raw "update")
    let destroy ← optional asTexts (lookup raw "destroy")
    let onDestroyRemoveEmails ← optional asBool (lookup raw "onDestroyRemoveEmails")
    pure { accountId, ifInState, create, update, destroy, onDestroyRemoveEmails }
  else none

/-- The properties an object or a patch names that the client may not set. -/
def unsettable (named : Fields) : List String :=
  ((members named).map Prod.fst).filter fun key => !SETTABLE.contains key

/-- A text or null; anything else is invalid. -/
def nullable : Json → Option (Option String)
  | .null => some none
  | .str text => some (some text)
  | _ => none

/-- The names of the properties that do not read. -/
def unread (reads : List (String × Bool)) : List String :=
  (reads.filter fun read => !read.2).map Prod.fst

/-- One create object as the runtime takes it; the properties that do not read where it does not. -/
def create (creationId : String) (object : Json) : Except (List String) Create :=
  match object.asObject with
  | none => .error []
  | some object =>
    let name := (lookup object "name").bind Json.asStr
    let parent := nullable ((lookup object "parentId").getD .null)
    let role := (lookup object "role").map nullable
    let subscribed := (lookup object "isSubscribed").map asBool
    let bad := unsettable object ++ unread [("name", name.isSome), ("parentId", parent.isSome),
      ("role", role.all Option.isSome), ("isSubscribed", subscribed.all Option.isSome)]
    match name, parent, bad with
    | some name, some parent, [] =>
      .ok { creationId, name, parent, role := role.join, subscribed := subscribed.join }
    | _, _, bad => .error bad

/-- One update patch as the runtime takes it; the properties that do not read where it does not. -/
def update (id : String) (patch : Json) : Except (List String) Update :=
  match patch.asObject with
  | none => .error []
  | some patch =>
    let name := (lookup patch "name").map Json.asStr
    let parent := (lookup patch "parentId").map nullable
    let role := (lookup patch "role").map nullable
    let subscribed := (lookup patch "isSubscribed").map asBool
    match unsettable patch ++ unread [("name", name.all Option.isSome),
      ("parentId", parent.all Option.isSome), ("role", role.all Option.isSome),
      ("isSubscribed", subscribed.all Option.isSome)] with
    | [] =>
      .ok { id, name := name.join, parent := parent.join, role := role.join,
            subscribed := subscribed.join }
    | bad => .error bad

/-- What one call asks, and the objects that did not read. -/
def askOf (arguments : SetArguments) : FolderAsk × Fields × Fields :=
  let refused (bad : List String) : Json :=
    .obj [("type", .str "invalidProperties"), ("properties", .arr (bad.map Json.str))]
  let creates := (members (arguments.create.getD [])).map fun (id, object) => (id, create id object)
  let updates := (members (arguments.update.getD [])).map fun (id, patch) => (id, update id patch)
  let taken {α : Type} (read : List (String × Except (List String) α)) : List α :=
    read.filterMap fun (_, result) => result.toOption
  let left {α : Type} (read : List (String × Except (List String) α)) : Fields :=
    read.filterMap fun (id, result) =>
      match result with
      | .ok _ => none
      | .error bad => some (id, refused bad)
  ({ creates := taken creates, updates := taken updates
     destroys := firsts (arguments.destroy.getD [])
     removeEmails := arguments.onDestroyRemoveEmails.getD false, ifInState := arguments.ifInState },
    left creates, left updates)

/-! ## The answer -/

mutual

/-- Two values are the same; an object is the same in any order of its members. -/
def same : Json → Json → Bool
  | .null, .null => true
  | .bool a, .bool b => a = b
  | .num a, .num b => a = b
  | .str a, .str b => a = b
  | .arr a, .arr b => sameItems a b
  | .obj a, .obj b => sameMembers a b && b.all fun field => (lookup a field.1).isSome
  | _, _ => false

def sameItems : List Json → List Json → Bool
  | [], [] => true
  | a :: as, b :: bs => same a b && sameItems as bs
  | _, _ => false

def sameMembers : Fields → Fields → Bool
  | [], _ => true
  | (name, value) :: rest, others =>
    (match lookup others name with
      | some other => same value other
      | none => false) && sameMembers rest others

end

def setError (refusal : Refusal) : Json :=
  match refusal with
  | .invalidProperties properties =>
    .obj [("type", .str "invalidProperties"), ("properties", .arr (properties.map Json.str))]
  | .forbidden => .obj [("type", .str "forbidden")]
  | .notFound => .obj [("type", .str "notFound")]
  | .mailboxHasChild => .obj [("type", .str "mailboxHasChild")]
  | .mailboxHasEmail => .obj [("type", .str "mailboxHasEmail")]
  | .willDestroy => .obj [("type", .str "willDestroy")]
  | .serverFail => .obj [("type", .str "serverFail")]
  | .serverUnavailable => .obj [("type", .str "serverUnavailable")]

/-- A map of objects by id, null when it holds none. -/
def orNull : Fields → Json
  | [] => .null
  | objects => .obj objects

/-- What a create or an update answers: every property held otherwise than sent and, among the rest,
every one that `before`, the object before the call, held otherwise. -/
def beyond (rendered : Fields) (sent before : Option Fields) : Json :=
  orNull (rendered.filter fun (name, value) =>
    match sent.bind (lookup · name) with
    | some sent => !same sent value
    | none =>
      match before with
      | none => true
      | some before => (lookup before name).any fun held => !same held value)

/-- The lists of an answer as they fill. -/
structure FolderLists where
  created : Fields
  updated : Fields
  destroyed : List Json
  notCreated : Fields
  notUpdated : Fields
  notDestroyed : Fields

def FolderLists.object (lists : FolderLists) (account : String) (old new : Nat) : Fields :=
  [("accountId", .str account),
    ("oldState", .str (toString old)), ("newState", .str (toString new)),
    ("created", orNull lists.created), ("updated", orNull lists.updated),
    ("destroyed", if lists.destroyed = [] then .null else .arr lists.destroyed),
    ("notCreated", orNull lists.notCreated), ("notUpdated", orNull lists.notUpdated),
    ("notDestroyed", orNull lists.notDestroyed)]

def createdAs (objects : Fields) (shown : Shown) (lists : FolderLists)
    (result : String × Except Refusal MailboxId) : FolderLists :=
  match result.2 with
  | .ok id =>
    let sent := (lookup objects result.1).bind Json.asObject
    let object := shown.rendered id
    -- the row is gone where the same call destroyed it, and its id is answered in any case
    let object := if (lookup object "id").isSome then object else object ++ [("id", .str id)]
    { lists with created := insert lists.created result.1 (beyond object sent none) }
  | .error refusal =>
    { lists with notCreated := insert lists.notCreated result.1 (setError refusal) }

def updatedAs (patches : Fields) (before shown : Shown) (lists : FolderLists)
    (result : String × Except Refusal MailboxId) : FolderLists :=
  match result.2 with
  | .ok id =>
    let sent := (lookup patches result.1).bind Json.asObject
    { lists with
      updated := insert lists.updated id (beyond (shown.rendered id) sent (before.rendered id)) }
  | .error refusal =>
    { lists with notUpdated := insert lists.notUpdated result.1 (setError refusal) }

def destroyedAs (lists : FolderLists) (result : String × Except Refusal MailboxId) : FolderLists :=
  match result.2 with
  | .ok id => { lists with destroyed := lists.destroyed ++ [.str id] }
  | .error refusal =>
    { lists with notDestroyed := insert lists.notDestroyed result.1 (setError refusal) }

/-- `Mailbox/set` under an account whose mailboxes show as they do now, none where the store cannot
read them: its answer, and what it asks where nothing was done for it yet. -/
def folderSet (account : String) (shown : Option Shown) (outcome : Option FolderOutcome)
    (raw : Fields) : Except MethodError Fields × Option FolderAsk :=
  match readArguments raw with
  | none => (.error WRONG_SHAPE, none)
  | some arguments =>
    let objects := arguments.create.getD []
    let patches := arguments.update.getD []
    if arguments.accountId ≠ account then (.error .accountNotFound, none)
    else if MAX_OBJECTS_IN_SET < (members objects).length + (members patches).length +
        (arguments.destroy.getD []).length then
      (.error .requestTooLarge, none)
    else
      let (ask, notCreated, notUpdated) := askOf arguments
      match outcome with
      | none => (.error .serverUnavailable, some ask)
      | some .stateMismatch => (.error .stateMismatch, none)
      | some (.done before newState created updated destroyed) =>
        match shown with
        | none => (.error .serverFail, none)
        | some shown =>
          let lists : FolderLists := ⟨[], [], [], notCreated, notUpdated, []⟩
          let lists := created.foldl (createdAs objects shown) lists
          let lists := updated.foldl (updatedAs patches before shown) lists
          let lists := destroyed.foldl destroyedAs lists
          (.ok (lists.object account before.state newState), none)

end Huliho.Requests
