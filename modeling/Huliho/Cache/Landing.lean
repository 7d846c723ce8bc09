import Huliho.Cache.Overlay

/-!
# A round of the change logs

`members.ts`, `landing.ts`, `gone.ts` and the landing half of `changes.ts`: the answers to one round
of `/changes` become one batch. The state of an email patches its header and its member in the
thread it names; an updated thread is rebuilt (`threadRow`), each member with the state the answer
holds or the one the row held before.
-/

namespace Huliho.Cache

/-- The thread's row: its emails in the server's order, each with the state an answer holds or the
state the row held before. -/
def threadRow (thread : Thread) (states : EmailId → Option MemberState) (held : Option ThreadRow) :
    ThreadRow where
  id := thread.id
  emailIds := thread.emailIds
  members := Record.gather thread.emailIds fun id =>
    (states id).or (held.bind fun row => row.members.get id)

/-- The state an answer holds of an email. -/
def answeredState (members : List EmailState) (id : EmailId) : Option MemberState :=
  (members.reverse.find? fun state => state.id = id).map EmailState.state

/-! ## What a round reads and does -/

/-- What a `/changes` answers. -/
structure ChangesAnswer (ι : Type) where
  newState : String
  hasMoreChanges : Bool
  created : List ι
  updated : List ι
  destroyed : List ι

/-- The answers of one type: none asked, the word that its state is past the server's horizon or the
answers. -/
inductive Read (α : Type)
  | skipped
  | refetch
  | read (value : α)

structure MailboxesRead where
  changes : ChangesAnswer MailboxId
  put : List Mailbox

structure EmailsRead where
  changes : ChangesAnswer EmailId
  states : List EmailState

structure ThreadsRead where
  changes : ChangesAnswer ThreadId
  threads : List Thread
  members : List EmailState

structure Parsed where
  mailbox : Read MailboxesRead
  email : Read EmailsRead
  thread : Read ThreadsRead

/-- What one round of changes did to the store. -/
structure Folded where
  mailboxes : Bool
  threads : List ThreadId
  /-- The lists whose rows changed or left. -/
  lists : List MailboxId
  /-- Whether the order or the membership of a list may have moved. -/
  listMoved : Bool
  /-- Whether the emails, threads and lists were dropped for a refetch. -/
  reset : Bool
deriving DecidableEq

def nothingFolded : Folded := ⟨false, [], [], false, false⟩

def mergeFolded (first second : Folded) : Folded where
  mailboxes := first.mailboxes || second.mailboxes
  threads := firsts (first.threads ++ second.threads)
  lists := firsts (first.lists ++ second.lists)
  listMoved := first.listMoved || second.listMoved
  reset := first.reset || second.reset

/-- The batch a round builds and the account of what it did. -/
structure Landing where
  batch : Batch
  folded : Folded

/-! ## Emails -/

/-- The mailboxes an email stands in. -/
def inMailbox (state : MemberState) (id : MailboxId) : Bool := .mailbox id ∈ state

/-- Whether a held list of a mailbox the email stands in shows none of its thread's rows. -/
def unlisted (queries : List QueryRow) (state : EmailState) (thread : Option ThreadRow) : Bool :=
  let ids := state.id :: thread.elim [] ThreadRow.emailIds
  let shows (listed : List EmailId) : Bool := listed.any fun id => id ∈ ids
  queries.any fun row => inMailbox state.state row.id &&
    !(row.pages.any fun page => shows page.ids) && !shows row.pending &&
    !shows (row.fresh.elim [] FreshPage.ids)

/-- What the states of a round did to the rows it read. -/
structure Patching where
  threads : Record ThreadId ThreadRow
  patched : List EmailHeader
  /-- The emails that changed mailboxes, with those they left. -/
  left : List (EmailId × (MailboxId → Bool))
  touched : List ThreadId
  listMoved : Bool

/-- One state over the rows the round read. -/
def patchHeader (headers : EmailId → Option EmailHeader) (queries : List QueryRow)
    (patching : Patching) (state : EmailState) : Patching :=
  let thread := (patching.threads.get state.threadId).map fun row =>
    { row with members := row.members.put state.id state.state }
  let patching :=
    match thread with
    | some row =>
      { patching with
        threads := patching.threads.put state.threadId row
        touched := patching.touched ++ [row.id] }
    | none => patching
  match headers state.id with
  | none =>
    -- An email the store does not hold may still be new to a list it names.
    { patching with
      listMoved := patching.listMoved || queries.any fun row => inMailbox state.state row.id }
  | some header =>
    let leftBehind (id : MailboxId) := inMailbox header.state id && !inMailbox state.state id
    let leaves := ¬ mailboxesOf header.state ⊆ state.state
    let enters := ¬ mailboxesOf state.state ⊆ header.state
    { patching with
      patched := patching.patched ++
        [{ header with threadId := state.threadId, state := state.state }]
      left := if leaves ∨ enters then patching.left ++ [(state.id, leftBehind)] else patching.left
      listMoved := patching.listMoved || decide (leaves ∨ enters) ||
        unlisted queries state thread }

/-- The states patch the header rows and the thread members held. -/
def patchHeaders (states : List EmailState) (headers : EmailId → Option EmailHeader)
    (threads : Record ThreadId ThreadRow) (queries : List QueryRow) : Patching :=
  states.foldl (patchHeader headers queries) ⟨threads, [], [], [], false⟩

/-- A destroyed email and one that left a mailbox leave every list they stood in. -/
def landEmails (changes : ChangesAnswer EmailId) (patching : Patching) (queries : List QueryRow)
    (landing : Landing) : Landing :=
  let stripped := queries.filterMap fun row =>
    let leaving := (patching.left.filter fun it => it.2 row.id).map Prod.fst
    let after := strip row (changes.destroyed ++ leaving)
    if after.2 then some after.1 else none
  { batch :=
      { landing.batch with
        queries := { landing.batch.queries with put := landing.batch.queries.put ++ stripped }
        emails := { put := patching.patched, remove := changes.destroyed }
        states := landing.batch.states ++ [(.email, some changes.newState)] }
    folded :=
      { landing.folded with
        threads := firsts (landing.folded.threads ++ patching.touched)
        lists := landing.folded.lists ++ stripped.map QueryRow.id
        listMoved := landing.folded.listMoved || patching.listMoved ||
          changes.created ≠ [] || changes.destroyed ≠ [] } }

/-! ## Threads -/

/-- An updated thread is rebuilt from the server's order of its emails. -/
def landThreads (read : ThreadsRead) (threads : Record ThreadId ThreadRow) (landing : Landing) :
    Record ThreadId ThreadRow × Landing :=
  let members := answeredState read.members
  let rebuilt := (read.threads.filter fun row => row.id ∈ read.changes.updated).foldl
    (fun threads row => threads.put row.id (threadRow row members (threads.get row.id))) threads
  (rebuilt.only fun id => id ∉ read.changes.destroyed,
    { batch :=
        { landing.batch with
          threads := { landing.batch.threads with remove := read.changes.destroyed }
          states := landing.batch.states ++ [(.thread, some read.changes.newState)] }
      folded :=
        { landing.folded with
          threads := firsts (landing.folded.threads ++ read.changes.updated ++
            read.changes.destroyed)
          listMoved := landing.folded.listMoved || read.changes.updated ≠ [] ||
            read.changes.destroyed ≠ [] || read.changes.created ≠ [] } })

/-! ## One round -/

def landMailboxes (read : MailboxesRead) (landing : Landing) : Landing :=
  let named := read.changes.created ++ read.changes.updated
  { batch :=
      { landing.batch with
        mailboxes :=
          { put := read.put.filter fun row => row.id ∈ named, remove := read.changes.destroyed }
        queries := { remove := read.changes.destroyed }
        states := [(.mailbox, some read.changes.newState)] }
    folded :=
      { landing.folded with
        mailboxes := landing.folded.mailboxes || named ≠ [] || read.changes.destroyed ≠ []
        lists := firsts (landing.folded.lists ++ read.changes.destroyed) } }

/-- The states of a round, kept to the emails it names. -/
def EmailsRead.named (read : EmailsRead) : List EmailState :=
  read.states.filter fun state => state.id ∈ read.changes.created ++ read.changes.updated

/-- The thread rows a round reads before it lands. -/
def heldThreads (store : Store) (states : List EmailState) (threads : List Thread) :
    Record ThreadId ThreadRow :=
  Record.gather (states.map EmailState.threadId ++ threads.map Thread.id) store.threads

/-- The emails and threads of a round. -/
def applyObjects (store : Store) (parsed : Parsed) (landing : Landing) : Landing :=
  let states := match parsed.email with
    | .read emails => emails.named
    | _ => []
  let threads := match parsed.thread with
    | .read read => read.threads.filter fun row => row.id ∈ read.changes.updated
    | _ => []
  let queries := store.queries.filter fun row => row.id ∉ landing.batch.queries.remove
  let patching := patchHeaders states store.emails (heldThreads store states threads) queries
  let landed := match parsed.email with
    | .read emails => landEmails emails.changes patching queries landing
    | _ => landing
  let rebuilt := match parsed.thread with
    | .read read => landThreads read patching.threads landed
    | _ => (patching.threads, landed)
  { rebuilt.2 with
    batch :=
      { rebuilt.2.batch with
        threads := { rebuilt.2.batch.threads with put := rebuilt.1.values } } }

/-- Whether the answers of one type are past the server's horizon. -/
def Read.isRefetch {α : Type} : Read α → Bool
  | .refetch => true
  | _ => false

/-- A state past the horizon on emails or threads drops every email, thread and list. -/
def refetched (store : Store) (landing : Landing) : Landing where
  batch :=
    { landing.batch with
      reset := [.emails, .threads, .queries]
      states := landing.batch.states ++ [(.email, none), (.thread, none)] }
  folded :=
    { landing.folded with
      lists := store.queries.map QueryRow.id
      reset := true
      listMoved := true }

/-- The batch of a round. -/
def roundOf (store : Store) (parsed : Parsed) : Landing :=
  let landing : Landing := match parsed.mailbox with
    | .read mailboxes => landMailboxes mailboxes ⟨{}, nothingFolded⟩
    | _ => ⟨{}, nothingFolded⟩
  if parsed.email.isRefetch || parsed.thread.isRefetch then refetched store landing
  else applyObjects store parsed landing

/-- Every mailbox of the account and the state they stand at. -/
def hydrateMailboxes (store : Store) (list : List Mailbox) (state : String) : Store :=
  land store { reset := [.mailboxes], mailboxes := { put := list }, states := [(.mailbox, some state)] }

/-- After the whole tree came anew, a list whose mailbox it lacks leaves the store. -/
def dropListsWithoutMailbox (store : Store) (folded : Folded) : Store × Folded :=
  let orphans := (store.queries.map QueryRow.id).filter fun id => id ∉ store.mailboxes.map Mailbox.id
  if orphans = [] then (store, folded)
  else
    (store.commit { queries := { remove := orphans } },
      { folded with lists := firsts (folded.lists ++ orphans) })

/-- The round lands in one batch. `tree` is the answer to the request for the whole tree that
follows a mailbox state past the horizon; none for a request that failed, and then the round answers
nothing. -/
def apply (store : Store) (parsed : Parsed) (tree : Option (List Mailbox × String)) :
    Store × Option Folded :=
  let landing := roundOf store parsed
  let landed := landRound store landing.batch
  let folded := { landing.folded with mailboxes := landing.folded.mailboxes || landed.2 }
  if parsed.mailbox.isRefetch then
    match tree with
    | none => (landed.1, none)
    | some (list, state) =>
      let whole := dropListsWithoutMailbox (hydrateMailboxes landed.1 list state)
        { folded with mailboxes := true }
      (whole.1, some whole.2)
  else (landed.1, some folded)

/-! ## A fetch -/

/-- What the fetch of a window, of its refresh or of a thread brought: the headers, the threads with
the states of their members, the list row it makes and the states an account without any starts
from. -/
structure Fetched where
  emails : List EmailHeader
  threads : List Thread
  members : List EmailState
  queries : List QueryRow
  states : List (ObjectType × Option String)

/-- The rows of a fetch, each thread over the row the store holds of it. -/
def Fetched.batch (fetched : Fetched) (store : Store) : Batch where
  emails := { put := fetched.emails }
  threads :=
    { put := fetched.threads.map fun thread =>
        threadRow thread (answeredState fetched.members) (store.threads thread.id) }
  queries := { put := fetched.queries }
  states := fetched.states

/-- `queryWindow`, `refreshFirstPage` and `readThread` land what they fetched. -/
def landFetched (store : Store) (fetched : Fetched) : Store := land store (fetched.batch store)

/-! ## Destroyed emails -/

def without (thread : ThreadRow) (leaving : List EmailId) : ThreadRow :=
  { thread with
    emailIds := thread.emailIds.filter fun id => id ∉ leaving
    members := thread.members.only fun id => id ∉ leaving }

/-- The rows once the server destroyed emails: their headers leave, their threads lose them and leave
with the last one, the lists drop their rows and the changes still logged for them leave the log.
`named` holds the threads of emails the store holds no header for. -/
def goneOf (store : Store) (ids : List EmailId) (named : List ThreadId) : Batch :=
  let threadIds := firsts ((ids.filterMap store.emails).map EmailHeader.threadId ++ named)
  let threads := (threadIds.filterMap store.threads).map fun thread => without thread ids
  { emails := { remove := ids }
    threads :=
      { put := threads.filter fun thread => thread.emailIds ≠ []
        remove := (threads.filter fun thread => thread.emailIds = []).map ThreadRow.id }
    queries := { put := (store.queries.map fun row => strip row ids).filterMap fun after =>
      if after.2 then some after.1 else none }
    pending :=
      { remove := (store.pending.rows.filter fun row => row.id ∈ ids).map PendingRow.seq } }

end Huliho.Cache
