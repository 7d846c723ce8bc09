import Huliho.Cache.Lists

/-!
# The log of changes

`known.ts`, `restate.ts` and `pending.ts`: a change the user makes is taken by the rows at once —
the header, the member of its thread, the counts and the lists — and logged until the server
acknowledges it (`mutateMany`). A held destroy is released (`releaseHeld`, `releaseLapsed`) or
dropped (`dropHeld`); `takeBack` is what a drop and a refusal do to the rows.
-/

namespace Huliho.Cache

/-! ## What the store knows of an email -/

/-- An email a change names, with the thread it stands in where the caller knows it. -/
structure EmailRef where
  id : EmailId
  threadId : Option ThreadId

/-- What the store knows of an email: its header where it holds one, else its member in the thread
the change names. -/
structure KnownEmail where
  threadId : ThreadId
  receivedAt : Option Int
  state : MemberState
  header : Option EmailHeader

/-- The member of the thread a reference names. -/
def memberIn (store : Store) (ref : EmailRef) : Option KnownEmail :=
  ref.threadId.bind fun threadId =>
    (store.threads threadId).bind fun thread =>
      (thread.members.get ref.id).map fun state => ⟨threadId, none, state, none⟩

def headerKnown (header : EmailHeader) : KnownEmail :=
  ⟨header.threadId, some header.receivedAt, header.state, some header⟩

/-- What the store knows of one email: its header, else the first reference that finds it. -/
def knownEmail (store : Store) (refs : List EmailRef) (id : EmailId) : Option KnownEmail :=
  match store.emails id with
  | some header => some (headerKnown header)
  | none => refs.findSome? fun ref => if ref.id = id then memberIn store ref else none

/-- The emails some references name, as the store knows them: the ones with a header first. -/
def knownEmails (store : Store) (refs : List EmailRef) : Record EmailId KnownEmail :=
  Record.gather (((refs.map EmailRef.id).filter fun id => (store.emails id).isSome) ++
    (refs.filter fun ref => (memberIn store ref).isSome).map EmailRef.id) (knownEmail store refs)

/-! ## The rows after some emails take other states -/

/-- The thread row with the state of the members that changed. -/
def withMembers (thread : ThreadRow) (changed : EmailId → Option MemberState) : ThreadRow :=
  { thread with members := thread.members.mapped fun id member => (changed id).getD member }

/-- The mailboxes of a state. -/
def mailboxesOf (state : MemberState) : MemberState := state.filter fun x => x.isMailbox

def changesOf (states : List (EmailId × MemberState)) (known : EmailId → Option KnownEmail)
    (restores : List EmailId) : List ListChange :=
  states.filterMap fun (id, after) => (known id).map fun email =>
    { id
      threadId := email.threadId
      receivedAt := email.receivedAt
      before := email.state
      after
      restores := id ∈ restores }

/-- The rows as they stand once some emails take other states: their headers, the members of their
threads, the counts of their mailboxes and the lists they leave. A list takes a thread back where
`restores` names one of its emails. -/
def restate (store : Store) (states : List (EmailId × MemberState))
    (known : EmailId → Option KnownEmail) (restores : List EmailId) : Batch :=
  let changes := changesOf states known restores
  let headers := changes.filterMap fun change =>
    ((known change.id).bind KnownEmail.header).map fun header =>
      { header with state := change.after }
  let threads := (firsts (changes.map fun change => change.threadId)).filterMap store.threads
  let members (threadId : ThreadId) := (store.threads threadId).map ThreadRow.members
  let moving := changes.any fun change => mailboxesOf change.before ≠ mailboxesOf change.after
  let after (id : EmailId) := (changes.reverse.find? fun change => change.id = id).map
    fun change => change.after
  { emails := { put := headers }
    threads := { put := threads.map fun thread => withMembers thread after }
    mailboxes :=
      { put := recounted store.mailboxes (movesOf members (changes.map ListChange.toMemberChange)) }
    queries := { put := if moving then listsAfter store changes members else [] } }

/-! ## Logging -/

/-- A change to an email, as the user made it. -/
inductive Mutation
  | patch (id : EmailId) (threadId : Option ThreadId) (patch : EmailPatch) (restores : Bool)
  /-- Delete forever. -/
  | destroy (id : EmailId) (threadId : Option ThreadId)

namespace Mutation

def id : Mutation → EmailId
  | .patch id _ _ _ => id
  | .destroy id _ => id

def threadId : Mutation → Option ThreadId
  | .patch _ threadId _ _ => threadId
  | .destroy _ threadId => threadId

def ref (mutation : Mutation) : EmailRef := ⟨mutation.id, mutation.threadId⟩

/-- The inverses the log answers restore. -/
def restores : Mutation → Bool
  | .patch _ _ _ restores => restores
  | .destroy _ _ => false

end Mutation

/-- The row one change logs, without its place in the log. -/
structure LogStep where
  id : EmailId
  threadId : ThreadId
  patch : EmailPatch
  inverse : EmailPatch
  destroy : Bool
  lease : Option String

/-- The row of a step; a destroy waits held. -/
def LogStep.row (step : LogStep) (seq : Nat) : PendingRow where
  seq
  id := step.id
  threadId := some step.threadId
  patch := step.patch
  inverse := step.inverse
  sentAt := none
  destroy := step.destroy
  held := step.destroy
  lease := step.lease

/-- The step of one change over a state; none for a change that moves nothing. -/
def stepOf (state : MemberState) (mutation : Mutation) (threadId : ThreadId)
    (lease : Option String) : Option LogStep :=
  let step : LogStep :=
    match mutation with
    | .patch id _ patch _ => ⟨id, threadId, patch, patch.inverse state, false, none⟩
    | .destroy id _ => ⟨id, threadId, emptied state, (emptied state).inverse state, true, lease⟩
  if alters step.patch step.inverse then some step else none

/-- What a call logged so far: the steps, the states they leave, each email logged with its thread
and the emails that wait to be destroyed. -/
structure Logging where
  steps : List LogStep
  states : EmailId → Option MemberState
  logged : Record EmailId ThreadId
  doomed : List EmailId

/-- One change over the states the changes before it left. -/
def logMutation (known : EmailId → Option KnownEmail) (lease : Option String) (logging : Logging)
    (mutation : Mutation) : Logging :=
  match known mutation.id, logging.states mutation.id with
  | some email, some state =>
    if mutation.id ∈ logging.doomed then logging
    else
      match stepOf state mutation email.threadId lease with
      | none => logging
      | some step =>
        { steps := logging.steps ++ [step]
          states := Function.update logging.states mutation.id (some (step.patch.applied state))
          logged := logging.logged.put mutation.id email.threadId
          doomed := if step.destroy then mutation.id :: logging.doomed else logging.doomed }
  | _, _ => logging

/-- The steps a call logs. -/
def stepsOf (mutations : List Mutation) (known : EmailId → Option KnownEmail)
    (doomed : List EmailId) (lease : Option String) : Logging :=
  mutations.foldl (logMutation known lease)
    ⟨[], fun id => (known id).map KnownEmail.state, Table.empty, doomed⟩

/-- What a call answers: the change that takes each patched email back and the held destroys. -/
structure Logged where
  inverses : List Mutation
  held : List Nat

/-- The change that takes an email's patches back. -/
def inverseOf (id : EmailId) (threadId : ThreadId) (before : MemberState)
    (steps : List LogStep) : Mutation :=
  .patch id (some threadId) ((Patch.merged (steps.map LogStep.patch)).inverse before) true

/-- The emails a destroy in the log dooms. -/
def doomedIn (log : Log) : List EmailId :=
  (log.rows.filter PendingRow.destroy).map PendingRow.id

/-- The steps in their places behind the log's last row. -/
def rowsOf (first : Nat) (steps : List LogStep) : List PendingRow :=
  steps.zipIdx.map fun (step, index) => step.row (first + index)

/-- Changes to several emails, taken by the rows at once and logged until the server acknowledges
them. -/
def mutateMany (store : Store) (mutations : List Mutation) (lease : Option String) :
    Store × Logged :=
  let known := knownEmails store (mutations.map Mutation.ref)
  let logging := stepsOf mutations known.get (doomedIn store.pending) lease
  if logging.steps = [] then (store, ⟨[], []⟩)
  else
    let changed := logging.logged.rows.map fun (id, _) => (id, (logging.states id).getD ∅)
    let restores := (mutations.filter Mutation.restores).map Mutation.id
    let batch := restate store changed known.get restores
    let rows := rowsOf store.pending.next logging.steps
    let destroyed := (logging.steps.filter LogStep.destroy).map LogStep.id
    let kept := logging.logged.rows.filter fun (id, _) => id ∉ destroyed
    (store.commit { batch with pending := { put := rows } },
      { inverses := kept.map fun (id, threadId) =>
          inverseOf id threadId (((known.get id).map KnownEmail.state).getD ∅)
            (logging.steps.filter fun step => step.id = id)
        held := (rows.filter PendingRow.held).map PendingRow.seq })

/-! ## Held destroys -/

/-- Lets the held destroys `picked` names go out with the next flush. -/
def releaseWhere (store : Store) (picked : PendingRow → Bool) : Store × Bool :=
  let released := (store.pending.rows.filter fun row => row.held && picked row).map
    fun row => { row with held := false }
  if released = [] then (store, false)
  else (store.commit { pending := { put := released } }, true)

/-- The window's toast closed or ran out. -/
def releaseHeld (store : Store) (seqs : List Nat) : Store × Bool :=
  releaseWhere store fun row => row.seq ∈ seqs

/-- Every held destroy whose tab holds no live lease goes out. -/
def releaseLapsed (store : Store) (live : List String) : Store × Bool :=
  releaseWhere store fun row => row.lease.all fun lease => lease ∉ live

/-- The rows of one email, oldest first. -/
def Log.of (log : Log) (id : EmailId) : List PendingRow := log.rows.filter fun row => row.id = id

/-- An email as it stands without the rows that leave, and the ones that stay. -/
def backed (log : Log) (leaving : List Nat) (id : EmailId) (email : KnownEmail) :
    MemberState × List PendingRow :=
  replayed (unpatched email.state (log.of id)) ((log.of id).filter fun row => row.seq ∉ leaving)

/-- Takes the rows `leaving` names out of the log. Each email they change returns to what the
server holds with its other rows laid over it again. -/
def takeBack (store : Store) (leaving : List Nat) : Store :=
  let taken := store.pending.rows.filter fun row => row.seq ∈ leaving
  if taken = [] then store
  else
    let known := knownEmails store (taken.map fun row => ⟨row.id, row.threadId⟩)
    let states := known.rows.map fun (id, email) => (id, (backed store.pending leaving id email).1)
    let kept := known.rows.flatMap fun (id, email) => (backed store.pending leaving id email).2
    let batch := restate store states known.get (taken.map PendingRow.id)
    store.commit { batch with pending := { put := kept, remove := leaving } }

/-- Undo of a delete forever. -/
def dropHeld (store : Store) (seqs : List Nat) : Store :=
  takeBack store ((store.pending.rows.filter fun row => row.held && row.seq ∈ seqs).map
    PendingRow.seq)

end Huliho.Cache
