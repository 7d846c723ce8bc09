import Huliho.Store.Types
import Huliho.Store.Changes

/-!
# One window of a mailbox

`store/query.rs`: one window of the emails of a mailbox by `receivedAt`, answered from the
memberships, with or without a keyword. Newest first is the order of the window index; oldest first
is its exact reverse, so ties fall the same way in every answer.

A value bound to a statement is an argument here and a `SELECT` the rows it answers. The counts and
the offsets of a window are `u64`s that saturate, and an offset goes into the statement as an `i64`.
-/

namespace Huliho.Listing

/-! ## The window -/

/-- Which emails a query ranges over and in what order. -/
structure Query where
  mailbox : MailboxId
  /-- The keyword every email of the result carries. -/
  hasKeyword : Option String
  /-- The keyword no email of the result carries. -/
  notKeyword : Option String
  ascending : Bool
  /-- Whether only the first email of each thread stays; a thread's emails outside the filter do not
  count. -/
  collapseThreads : Bool
deriving DecidableEq, Repr

/-- Where a window starts. -/
inductive Start
  /-- An index into the result; a negative one counts from its end. -/
  | position (index : Int)
  /-- The index of this email in the result plus the offset. -/
  | anchor (id : EmailId) (offset : Int)
deriving DecidableEq, Repr

/-- The window asked for. -/
structure Window where
  start : Start
  limit : Nat
  calculateTotal : Bool
deriving DecidableEq, Repr

/-- One window of a result. -/
structure Queried where
  state : Nat
  /-- The index of the first id in the whole result. -/
  position : Nat
  ids : List EmailId
  total : Option Nat
deriving DecidableEq, Repr

/-- `u64::MAX`. -/
def U64_MAX : Nat := 18446744073709551615

/-- `i64::MAX`. -/
def I64_MAX : Nat := 9223372036854775807

/-- `i64::try_from(position).unwrap_or(i64::MAX)`. -/
def offsetOf (position : Nat) : Nat := min position I64_MAX

namespace Window

/-- Whether the window needs the size of the result: it was asked, or a negative position counts
from the end. -/
def needsTotal (window : Window) : Bool :=
  window.calculateTotal ||
    match window.start with
    | .position index => index < 0
    | .anchor .. => false

/-- The index of the first id in a result of `total` ids, an anchor found through `indexOf`; `none`
when the result lacks the anchor. -/
def position (window : Window) (total : Option Nat) (indexOf : EmailId → Option Nat) : Option Nat :=
  match window.start with
  | .position index =>
    some (if 0 ≤ index then index.toNat else total.getD 0 - index.natAbs)
  | .anchor id offset =>
    (indexOf id).map fun index =>
      if offset < 0 then index - offset.natAbs else min (index + offset.natAbs) U64_MAX

end Window

/-! ## The rows of one direction -/

/-- The SQL of one direction. -/
structure Direction where
  /-- Whether the membership `n` sorts ahead of `m`. -/
  ahead : Membership → Membership → Bool
  /-- Whether `m` sorts ahead of the anchor received at that time. -/
  beforeAnchor : Int → EmailId → Membership → Bool
  /-- `ORDER BY`. -/
  order : Membership → Membership → Bool

/-- `m.received_at DESC, m.email_id ASC`. -/
def NEWEST_FIRST : Direction where
  ahead n m := n.receivedAt > m.receivedAt || (n.receivedAt = m.receivedAt && n.emailId < m.emailId)
  beforeAnchor receivedAt id m :=
    m.receivedAt > receivedAt || (m.receivedAt = receivedAt && m.emailId < id)
  order n m := n.receivedAt > m.receivedAt || (n.receivedAt = m.receivedAt && n.emailId ≤ m.emailId)

/-- `m.received_at ASC, m.email_id DESC`. -/
def OLDEST_FIRST : Direction where
  ahead n m := n.receivedAt < m.receivedAt || (n.receivedAt = m.receivedAt && n.emailId > m.emailId)
  beforeAnchor receivedAt id m :=
    m.receivedAt < receivedAt || (m.receivedAt = receivedAt && m.emailId > id)
  order n m := n.receivedAt < m.receivedAt || (n.receivedAt = m.receivedAt && n.emailId ≥ m.emailId)

variable (t : Tables) (query : Query)

/-- Whether the email of an id carries the keyword. -/
def carries (email : EmailId) (keyword : String) : Bool :=
  t.emails.rows.any fun k => k.id = email && keyword ∈ k.keywords

/-- Whether the email passes the keyword conditions. -/
def keywordTest (email : EmailId) : Bool :=
  (query.hasKeyword.all fun keyword => carries t email keyword) &&
    query.notKeyword.all fun keyword => !carries t email keyword

/-- An email of the same thread in that mailbox that passes the conditions sorts ahead. -/
def behind (direction : Direction) (m : Membership) : Bool :=
  t.emails.rows.any fun e => e.id = m.emailId &&
    t.emails.rows.any fun o => o.threadId = e.threadId &&
      t.memberships.rows.any fun n => n.emailId = o.id && n.mailboxId = m.mailboxId &&
        keywordTest t query o.id && direction.ahead n m

/-- The rows of the result: the memberships of the mailbox that pass the keyword conditions and,
with threads collapsed, stand behind none of their thread. -/
def Direction.rows (direction : Direction) : List Membership :=
  t.memberships.rows.filter fun m => m.mailboxId = query.mailbox && keywordTest t query m.emailId &&
    (!query.collapseThreads || !behind t query direction m)

/-! ## The three statements -/

/-- `SELECT COUNT(*)`. -/
def total (direction : Direction) : Nat := (direction.rows t query).length

/-- The index of an email in the result; `none` when the result does not hold it. -/
def indexOf (direction : Direction) (anchor : EmailId) : Option Nat :=
  ((direction.rows t query).find? fun m => m.emailId = anchor).map fun found =>
    (direction.rows t query).countP fun m => direction.beforeAnchor found.receivedAt anchor m

/-- `ORDER BY … LIMIT … OFFSET …`. -/
def ids (direction : Direction) (position limit : Nat) : List EmailId :=
  ((((direction.rows t query).insertionSort fun n m => direction.order n m = true).drop
    (offsetOf position)).take limit).map Membership.emailId

/-- One window of the query. `none` when the anchor is not part of the result. -/
def query? (window : Window) : Option Queried :=
  let direction := if query.ascending then OLDEST_FIRST else NEWEST_FIRST
  let counted := if window.needsTotal then some (total t query direction) else none
  (window.position counted (indexOf t query direction)).map fun position =>
    { state := stateOf t
      position
      ids := ids t query direction position window.limit
      total := counted.filter fun _ => window.calculateTotal }

end Huliho.Listing
