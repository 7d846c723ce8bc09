import Huliho.Listing.Query

/-!
# One window of a search

`store/search.rs`: the emails the hits of the server's SEARCH name, or every email of the account
where no hits are given, narrowed by the plaintext conditions and the memberships of the scope, one
for each thread on request and ordered by `receivedAt` with the id as the tiebreak.
-/

namespace Huliho.Listing

/-- The UIDs a SEARCH found in one folder. -/
structure FolderHits where
  folder : MailboxId
  uids : List Nat
deriving DecidableEq, Repr

/-- Which emails a search ranges over and in what order. -/
structure Search where
  /-- The hits of the server's SEARCH; `none` ranges over every email of the account. -/
  hits : Option (List FolderHits)
  /-- The mailbox every email of the result lies in. -/
  inMailbox : Option MailboxId
  /-- Every email of the result lies in one mailbox outside these at least. -/
  otherThan : Option (List MailboxId)
  hasKeyword : Option String
  notKeyword : Option String
  /-- The earliest second of `receivedAt` the result takes. -/
  after : Option Int
  /-- The result takes a `receivedAt` before this second alone. -/
  before : Option Int
  hasAttachment : Option Bool
  ascending : Bool
  collapseThreads : Bool
deriving DecidableEq, Repr

/-- A row of `matched`. -/
structure Found where
  id : EmailId
  threadId : ThreadId
  receivedAt : Int
deriving DecidableEq, Repr

/-! ## What passes -/

/-- The hits as a table of folder and UID; of two lists for one folder the later one counts. -/
def hitsTable (hits : List FolderHits) : List (MailboxId × Nat) :=
  (hits.foldl (fun (folders : List FolderHits) found =>
    (folders.filter fun other => other.folder ≠ found.folder) ++ [found]) []).flatMap fun found =>
      found.uids.map fun uid => (found.folder, uid)

variable (t : Tables) (search : Search)

/-- The emails a search ranges over. -/
def scanned : List EmailRecord :=
  match search.hits with
  | none => t.emails.rows
  | some hits => (hitsTable hits).flatMap fun (folder, uid) =>
      t.emails.rows.filter fun e => e.folderId = folder && e.uid = uid

/-- What an email of the result passes: a membership in the scope, the dates, the attachment and the
keywords. An email without a membership is in no mailbox and stays out. -/
def conditions (e : EmailRecord) : Bool :=
  (t.memberships.rows.any fun s => s.emailId = e.id &&
    search.inMailbox.all fun mailbox => s.mailboxId = mailbox) &&
  (search.otherThan.all fun others => t.memberships.rows.any fun o => o.emailId = e.id &&
    !others.contains o.mailboxId) &&
  (search.after.all fun after => e.receivedAt ≥ after) &&
  (search.before.all fun before => e.receivedAt < before) &&
  (search.hasAttachment.all fun attachment => e.hasAttachment = attachment) &&
  (search.hasKeyword.all fun keyword => keyword ∈ e.keywords) &&
  search.notKeyword.all fun keyword => keyword ∉ e.keywords

def matched : List Found :=
  ((scanned t search).filter fun e => conditions t search e).map fun e =>
    ⟨e.id, e.threadId, e.receivedAt⟩

/-! ## The order -/

/-- Newest first, ties by id; oldest first is its exact reverse. -/
def Search.order (a b : Found) : Bool :=
  if search.ascending then
    a.receivedAt < b.receivedAt || (a.receivedAt = b.receivedAt && a.id ≥ b.id)
  else a.receivedAt > b.receivedAt || (a.receivedAt = b.receivedAt && a.id ≤ b.id)

/-- The rows in the order of the result. -/
def Search.sorted (rows : List Found) : List Found :=
  rows.insertionSort fun a b => search.order a b = true

/-- `ROW_NUMBER() OVER (ORDER BY …)`. -/
def Search.rowNumber (rows : List Found) : List (Found × Nat) := (search.sorted rows).zipIdx 1

/-- `ROW_NUMBER() OVER (PARTITION BY thread_id ORDER BY …)`. -/
def Search.ranked (rows : List Found) : List (Found × Nat) :=
  (rows.map Found.threadId).dedup.flatMap fun thread =>
    search.rowNumber (rows.filter fun row => row.threadId = thread)

/-- The rows of `kept` that stand in the result. -/
def kept : List Found :=
  ((search.ranked (matched t search)).filter fun (_, rank) =>
    !search.collapseThreads || rank = 1).map Prod.fst

/-! ## The three statements -/

/-- `SELECT COUNT(*)`. -/
def Search.total : Nat := (kept t search).length

/-- The index of an email in the result; `none` when the result does not hold it. -/
def Search.indexOf (anchor : EmailId) : Option Nat :=
  ((search.rowNumber (kept t search)).find? fun (row, _) => row.id = anchor).map fun (_, number) =>
    number - 1

/-- `ORDER BY … LIMIT … OFFSET …`. -/
def Search.ids (position limit : Nat) : List EmailId :=
  (((search.sorted (kept t search)).drop (offsetOf position)).take limit).map Found.id

/-- One window of the search. `none` when the anchor is not part of the result. -/
def search? (window : Window) : Option Queried :=
  let counted := if window.needsTotal then some (search.total t) else none
  (window.position counted (search.indexOf t)).map fun position =>
    { state := stateOf t
      position
      ids := search.ids t position window.limit
      total := counted.filter fun _ => window.calculateTotal }

end Huliho.Listing
