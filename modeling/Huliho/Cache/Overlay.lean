import Huliho.Cache.Pending

/-!
# Rows land under the log

`overlay.ts`: rows the server answered land with every pending change laid over them again, and the
inverses of the log follow the rows they now stand on. A header that lands refits the rows of its
email (`relaidHeaders`); a thread that lands refits those of a member no header stands for
(`relaidThreads`), whatever the state of that member came from.
-/

namespace Huliho.Cache

/-- Where rows come from: a round of the change logs or a fetch of a list or a thread. -/
inductive LandingKind
  | round
  | fetch
deriving DecidableEq

/-- The rows whose inverse a replay changed. -/
def refitted (before after : List PendingRow) : List PendingRow :=
  after.filter fun row => (before.find? fun held => held.seq = row.seq).map PendingRow.inverse ≠
    some row.inverse

/-- The rows in the place of those of their number. -/
def substituted (rows fitted : List PendingRow) : List PendingRow :=
  rows.map (Sequence.latest PendingRow.seq fitted)

/-- The rows of one email among the rows of the log. -/
def ofEmail (rows : List PendingRow) (id : EmailId) : List PendingRow :=
  rows.filter fun row => row.id = id

/-- One header that lands, with the pending changes of its email laid over it. -/
def relaidHeader (rows : List PendingRow) (header : EmailHeader) : EmailHeader × List PendingRow :=
  let held := ofEmail rows header.id
  if held = [] then (header, [])
  else
    let replay := replayed header.state held
    ({ header with state := replay.1 }, refitted held replay.2)

/-- The headers that land with the pending changes of their emails laid over them. -/
def relaidHeaders (headers : List EmailHeader) (rows : List PendingRow) :
    List EmailHeader × List PendingRow :=
  (headers.map fun header => (relaidHeader rows header).1,
    headers.flatMap fun header => (relaidHeader rows header).2)

/-- One member of a thread that lands; only an email no header stands for takes the inverse that
fits it. -/
def relaidMember (rows : List PendingRow) (headed : EmailId → Bool) (id : EmailId)
    (member : MemberState) : MemberState × List PendingRow :=
  let held := ofEmail rows id
  if held = [] then (member, [])
  else
    let replay := replayed member held
    (replay.1, if headed id then [] else refitted held replay.2)

/-- The threads that land with the pending changes of their members laid over them. -/
def relaidThreads (threads : List ThreadRow) (rows : List PendingRow) (headed : EmailId → Bool) :
    List ThreadRow × List PendingRow :=
  (threads.map fun thread =>
      { thread with
        members := thread.members.mapped fun id member => (relaidMember rows headed id member).1 },
    threads.flatMap fun thread => thread.members.rows.flatMap fun (id, member) =>
      (relaidMember rows headed id member).2)

/-- The rows a landing holds or the store holds, the landing first. -/
def standing {ρ ι : Type} [DecidableEq ι] (key : ρ → ι) (landing : List ρ) (ids : List ι)
    (held : ι → Option ρ) : ι → Option ρ := fun id =>
  match landing.reverse.find? fun row => key row = id with
  | some row => some row
  | none => if id ∈ ids then held id else none

/-- The header of every pending email and the members of its thread, as the landing or the store
holds them. -/
structure Standing where
  headers : EmailId → Option EmailHeader
  threads : ThreadId → Option ThreadRow

/-- The emails the rows change, in the order the log first names them. -/
def pendingIds (rows : List PendingRow) : List EmailId := firsts (rows.map PendingRow.id)

/-- The header of a pending email or of one that lands. -/
def standingHeaders (store : Store) (headers : List EmailHeader) (rows : List PendingRow) :
    EmailId → Option EmailHeader :=
  standing EmailHeader.id headers (pendingIds rows) store.emails

/-- The threads of the headers and, for an email no header stands for, the one its rows name. -/
def standingOf (store : Store) (headers : List EmailHeader) (threads : List ThreadRow)
    (rows : List PendingRow) : Standing :=
  let heads := standingHeaders store headers rows
  let threadIds := (headers.map EmailHeader.threadId) ++
    (pendingIds rows).filterMap (fun id => (heads id).map EmailHeader.threadId) ++
    rows.filterMap PendingRow.threadId
  ⟨heads, standing ThreadRow.id threads threadIds store.threads⟩

/-- Where a pending email stands now: its header's thread and state, else the member its rows'
thread holds. -/
def placeOf (standing : Standing) (id : EmailId) (rows : List PendingRow) :
    Option (ThreadId × MemberState) :=
  match standing.headers id with
  | some header => some (header.threadId, header.state)
  | none =>
    (rows.findSome? PendingRow.threadId).bind fun threadId =>
      (standing.threads threadId).bind fun thread =>
        (thread.members.get id).map fun state => (threadId, state)

/-- How far the pending rows move the counts away from what the server holds, which their inverses
say. -/
def pendingMoves (standing : Standing) (rows : List PendingRow) : Moves :=
  let changes := (pendingIds rows).filterMap fun id =>
    (placeOf standing id (ofEmail rows id)).map fun (threadId, after) =>
      ({ id, threadId, before := unpatched after (ofEmail rows id), after } : MemberChange)
  movesOf (fun threadId => (standing.threads threadId).map ThreadRow.members) changes

/-- The mailbox rows a landing writes: one that lands has the pending moves counted in again, and in
a round that refits a row the stored ones take the difference. -/
def relaidMailboxes (store : Store) (landing : List Mailbox) (standing : Standing)
    (held pending : List PendingRow) (shifts : Bool) : List Mailbox × List Mailbox :=
  if landing = [] ∧ ¬ shifts then ([], [])
  else
    let moved := pendingMoves standing pending
    let fresh := landing.map fun row => if moved row.id ≠ still then row.moved (moved row.id) else row
    if !shifts then (fresh, [])
    else
      let stored := store.mailboxes.filter fun row => row.id ∉ landing.map Mailbox.id
      (fresh, recounted stored (shiftOf (pendingMoves standing held) moved))

/-- The lists that land without the threads a pending change took out of their mailbox. -/
def relaidLists (queries : List QueryRow) (standing : Standing) (rows : List PendingRow) :
    List QueryRow :=
  let gone := (pendingIds rows).filterMap fun id =>
    (placeOf standing id (ofEmail rows id)).map fun (threadId, state) =>
      let thread := standing.threads threadId
      (id :: thread.elim [] ThreadRow.emailIds,
        (thread.elim Table.empty ThreadRow.members : Members).put id state)
  queries.map fun query => gone.foldl (fun row (ids, members) =>
    if standsIn members row.id then row else (strip row ids).1) query

/-- What becomes of a landing under the rows of the log. -/
structure Overlaid where
  batch : Batch
  fitted : List PendingRow
  shifted : Bool

/-- The batch with every pending change laid over the rows it lands, and whether a stored mailbox
row moved with it. -/
def overlaid (store : Store) (batch : Batch) (kind : LandingKind) (rows : List PendingRow) :
    Overlaid :=
  let relaid := relaidHeaders batch.emails.put rows
  let headed (id : EmailId) := (standingHeaders store relaid.1 rows id).isSome
  let members := relaidThreads batch.threads.put (substituted rows relaid.2) headed
  let fitted := relaid.2 ++ members.2
  let pending := substituted rows fitted
  let standing := standingOf store relaid.1 members.1 pending
  let shifts := kind = .round ∧ fitted ≠ []
  let mailboxes := relaidMailboxes store batch.mailboxes.put standing rows pending shifts
  { batch :=
      { batch with
        emails := { batch.emails with put := relaid.1 }
        threads := { batch.threads with put := members.1 }
        mailboxes := { batch.mailboxes with put := mailboxes.1 ++ mailboxes.2 }
        queries := { batch.queries with put := relaidLists batch.queries.put standing pending }
        pending := { batch.pending with put := batch.pending.put ++ fitted } }
    fitted
    shifted := mailboxes.2 ≠ [] }

def landAs (store : Store) (batch : Batch) (kind : LandingKind) : Store × Bool :=
  let rows := store.pending.rows
  if rows = [] then (store.commit batch, false)
  else
    let laid := overlaid store batch kind rows
    (store.commit laid.batch, laid.shifted)

/-- Rows the server answered land with every pending change laid over them again. -/
def land (store : Store) (batch : Batch) : Store := (landAs store batch .fetch).1

/-- The landing of one round of the change logs, and whether a mailbox row the batch did not name
moved. -/
def landRound (store : Store) (batch : Batch) : Store × Bool := landAs store batch .round

end Huliho.Cache
