import Mathlib.Data.Finset.Image
import Huliho.Folders.Plan

/-!
# The steps on a session

`runtime/folders/send.rs`, `names.rs` and `delimiters.rs`: what the accepted steps send and how the
names and the subscriptions of the server follow. A RENAME carries every name under the old one and
leaves the subscriptions on the old names, so the work subscribes each follower's new name and
unsubscribes its old one.

A step is modelled where it succeeds; an object the work refuses itself (a name the level does not
take, a parent the call was to make and did not) or the server refuses sends nothing more.
-/

namespace Huliho.Folders

/-- The name a RENAME of `old` to `new` gives `wire`: `new` for `old` itself and `new` in front of
what follows the delimiter under it; none for a name elsewhere. -/
def moved (wire old new : String) (delimiter : Option Char) : Option String :=
  if wire = old then some new
  else
    match old.toList.isPrefixOf? wire.toList, delimiter with
    | some (first :: rest), some found =>
      if first = found then some (new ++ String.ofList (found :: rest)) else none
    | _, _ => none

/-! ## The delimiters -/

/-- The delimiter of every level the server listed, the latest entry of a name first. -/
structure Delimiters where
  byName : List (String × Option Char)
  /-- The INBOX line's, else the first one any line carries. -/
  top : Option Char

namespace Delimiters

variable (delimiters : Delimiters)

/-- The delimiters of a listing: the names with the delimiter of each line. -/
def ofListing (entries : List (String × Option Char)) : Delimiters where
  byName := entries.reverse
  top := ((entries.find? fun entry => isInboxName entry.1).bind Prod.snd).or
    (entries.findSome? Prod.snd)

/-- The delimiter under the mailbox of a wire name; one the listing left out takes the top's. -/
def under (wire : String) : Option Char :=
  ((delimiters.byName.find? fun entry => entry.1 = wire).map Prod.snd).getD delimiters.top

/-- A mailbox the call made, under the delimiter its name went out with. -/
def made (wire : String) (delimiter : Option Char) : Delimiters :=
  { delimiters with byName := (wire, delimiter) :: delimiters.byName }

/-- Every name a RENAME moved, kept under its new spelling. -/
def renamed (old new : String) : Delimiters :=
  let delimiter := delimiters.under old
  { delimiters with
    byName := delimiters.byName.map fun entry =>
      ((moved entry.1 old new delimiter).getD entry.1, entry.2) }

end Delimiters

/-! ## The names -/

/-- One wire name a RENAME moved. -/
structure Moved where
  id : MailboxId
  old : String
  new : String
deriving DecidableEq

/-- The wire name of every mailbox as the call has left it so far. -/
abbrev Names := Record MailboxId String

namespace Names

/-- The names as the rows have them. -/
def ofRows (rows : List MailboxRow) : Names :=
  rows.foldl (fun names row => names.put row.id row.imapName) Table.empty

/-- Every name a RENAME moves, by length. -/
def moves (names : Names) (old new : String) (delimiter : Option Char) : List Moved :=
  (names.rows.filterMap fun entry =>
    (moved entry.2 old new delimiter).map fun wire => ⟨entry.1, entry.2, wire⟩).insertionSort
      fun a b => a.old.utf8ByteSize ≤ b.old.utf8ByteSize

/-- The names once a RENAME moved some. -/
def renamed (names : Names) (old new : String) (delimiter : Option Char) : Names :=
  (names.moves old new delimiter).foldl (fun names move => names.put move.id move.new) names

end Names

/-! ## The server -/

/-- What the server holds: the names, the delimiter of each level and the names subscribed. -/
structure Server where
  existing : Finset String
  delimiters : Delimiters
  subscribed : Finset String

namespace Server

variable (server : Server)

/-- The name a RENAME leaves a name with. -/
def carried (old new wire : String) : String :=
  (moved wire old new (server.delimiters.under old)).getD wire

/-- CREATE of a name that is free; its level carries the delimiter it went out under. -/
def create (wire : String) (delimiter : Option Char) : Option Server :=
  if wire ∈ server.existing then none
  else
    some { server with
      existing := insert wire server.existing
      delimiters := server.delimiters.made wire delimiter }

/-- RENAME of a name to one that is free, with every name under it; no two names become one. -/
def rename (old new : String) : Option Server :=
  if old ∈ server.existing ∧ new ∉ server.existing ∧ ∀ a ∈ server.existing,
      ∀ b ∈ server.existing, server.carried old new a = server.carried old new b → a = b then
    some { server with
      existing := server.existing.image (server.carried old new)
      delimiters := server.delimiters.renamed old new }
  else none

/-- DELETE of a name; its subscription stays. -/
def delete (wire : String) : Option Server :=
  if wire ∈ server.existing then some { server with existing := server.existing.erase wire }
  else none

def subscribe (wire : String) : Server :=
  { server with subscribed := insert wire server.subscribed }

def unsubscribe (wire : String) : Server :=
  { server with subscribed := server.subscribed.erase wire }

end Server

/-! ## The work -/

/-- One ask as its steps work through it, and the server it works on. -/
structure Sending where
  names : Names
  /-- The listing, once a name needed it. -/
  delimiters : Option Delimiters
  server : Server

namespace Sending

variable (setting : Setting) (sending : Sending)

/-- The delimiters of the listing, read once per ask. -/
def listing : Delimiters := sending.delimiters.getD sending.server.delimiters

/-- The wire name of the mailbox a name goes under; none where that names no mailbox. -/
def place (under : Option MailboxId) : Option (Option String) :=
  match under with
  | none => some none
  | some id => (sending.names.get id).map some

/-- The name at its place, under the delimiter its level carries. -/
def named (naming : Naming) : Option (MailboxName × Option Char) :=
  match sending.place naming.under with
  | none => none
  | some parent =>
    let delimiter := parent.elim sending.listing.top sending.listing.under
    match MailboxName.new setting.nfc naming.typed ⟨parent, delimiter⟩ with
    | .error _ => none
    | .ok name =>
      if setting.snapshot.gmail && pastLimit name.wire then none else some (name, delimiter)

/-- CREATE, then SUBSCRIBE unless the user asked otherwise. -/
def create (id : MailboxId) (naming : Naming) (subscribe : Bool) : Option Sending :=
  match sending.named setting naming with
  | none => none
  | some (name, delimiter) =>
    match sending.server.create name.wire delimiter with
    | none => none
    | some server =>
      some {
        names := sending.names.put id name.wire
        delimiters := some (sending.listing.made name.wire delimiter)
        server := if subscribe then server.subscribe name.wire else server }

/-- The subscription of one follower: SUBSCRIBE of the new name before UNSUBSCRIBE of the old. -/
def followOne (moves : List Moved) (server : Server) (id : MailboxId) : Server :=
  match moves.find? fun move => move.id = id with
  | none => server
  | some move => (server.subscribe move.new).unsubscribe move.old

/-- The subscriptions a RENAME left on the old names move to the new ones. -/
def follow (moves : List Moved) (followers : List MailboxId) (server : Server) : Server :=
  followers.foldl (followOne moves) server

/-- RENAME with the subscriptions it leaves behind. -/
def rename (id : MailboxId) (naming : Naming) (followers : List MailboxId) : Option Sending :=
  match sending.names.get id, sending.named setting naming with
  | some old, some (name, _) =>
    match sending.server.rename old name.wire with
    | none => none
    | some server =>
      let delimiter := sending.listing.under old
      some {
        names := sending.names.renamed old name.wire delimiter
        delimiters := some (sending.listing.renamed old name.wire)
        server := follow (sending.names.moves old name.wire delimiter) followers server }
  | _, _ => none

/-- SUBSCRIBE or UNSUBSCRIBE of the name a mailbox has by then. -/
def subscribe (id : MailboxId) (subscribed : Bool) : Option Sending :=
  (sending.names.get id).map fun wire =>
    { sending with
      server := if subscribed then sending.server.subscribe wire
        else sending.server.unsubscribe wire }

/-- DELETE, then UNSUBSCRIBE of a subscribed name. -/
def destroy (id : MailboxId) (subscribed : Bool) : Option Sending :=
  match sending.names.get id with
  | none => none
  | some wire =>
    (sending.server.delete wire).map fun server =>
      { sending with server := if subscribed then server.unsubscribe wire else server }

/-- One step on the session. -/
def send (sending : Sending) : Step → Option Sending
  | .create _ id naming _ subscribe => sending.create setting id naming subscribe
  | .update _ id rename followers subscribe _ =>
    let renamed := match rename with
      | none => some sending
      | some naming => sending.rename setting id naming followers
    match subscribe with
    | none => renamed
    | some wanted => renamed.bind fun sending => sending.subscribe id wanted
  | .destroy _ id subscribed => sending.destroy id subscribed

/-- The steps that send something, in order. -/
def remote (steps : List Step) : List Step := steps.filter fun step => !step.isLocal

def run (sending : Sending) (steps : List Step) : Option Sending :=
  steps.foldlM (send setting) sending

end Sending

end Huliho.Folders
