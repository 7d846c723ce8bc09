import Huliho.Cache.Emptying

/-!
# What the server said of each email

An `Account` is the rows with the server's word on each email beside them: the keywords and
mailboxes its last landing said, amended by every update the server acknowledged since, or that it
is gone. The word is kept by the run alone — no operation reads it — so that a statement can hold
the rows against it.

A header is an email's own landing. An email without a header lands as the member of a thread that
an answer about it brings (`memberWord`); a thread row that carries the member it held says nothing.
-/

namespace Huliho.Cache

/-- The server's word on an email. -/
inductive Served
  /-- It never landed. -/
  | unheard
  | gone
  | holds (threadId : ThreadId) (state : MemberState)

/-- The word once the server took a patch. -/
def Served.amended (patch : EmailPatch) : Served → Served
  | .holds threadId state => .holds threadId (patch.applied state)
  | .gone => .gone
  | .unheard => .unheard

/-- The rows of an account and the server's word on each email. -/
structure Account where
  store : Store
  served : EmailId → Served

def Account.start : Account := ⟨Store.empty, fun _ => .unheard⟩

/-! ## Landings -/

/-- The word after a batch landed: that of the header it brings, that the email is gone, or, where
no header stands for it, what an answer about the member says. -/
def heard (account : Account) (batch : Batch)
    (member : EmailId → Option (ThreadId × MemberState)) : EmailId → Served := fun id =>
  match batch.emails.landing EmailHeader.id id with
  | some header => .holds header.threadId header.state
  | none =>
    if id ∈ batch.emails.remove then .gone
    else if (account.store.emails id).isSome then account.served id
    else (member id).elim (account.served id) fun (threadId, state) => .holds threadId state

/-- What answers about the emails of some threads say of a member: the thread that lists it and its
state. -/
def memberWord (threads : List Thread) (members : List EmailState) (id : EmailId) :
    Option (ThreadId × MemberState) :=
  (answeredState members id).bind fun state =>
    (threads.find? fun thread => id ∈ thread.emailIds).map fun thread => (thread.id, state)

/-- The threads a round rebuilds. -/
def ThreadsRead.rebuilt (read : ThreadsRead) : List Thread :=
  read.threads.filter fun row => row.id ∈ read.changes.updated

/-- What the thread part of a round says of a member. -/
def Read.threadWord (read : Read ThreadsRead) (id : EmailId) : Option (ThreadId × MemberState) :=
  match read with
  | .read read => memberWord read.rebuilt read.members id
  | _ => none

/-- What the email part of a round says of an email. -/
def Read.emailWord (read : Read EmailsRead) (id : EmailId) : Option (ThreadId × MemberState) :=
  match read with
  | .read emails => (emails.named.reverse.find? fun state => state.id = id).map fun state =>
      (state.threadId, state.state)
  | _ => none

/-- What a round says of a member: the answers about its threads come last. -/
def Parsed.word (parsed : Parsed) (id : EmailId) : Option (ThreadId × MemberState) :=
  if parsed.email.isRefetch || parsed.thread.isRefetch then none
  else (parsed.thread.threadWord id).or (parsed.email.emailWord id)

/-! ## Steps -/

/-- The word after a flush: an acknowledged update amends it, a destroy ends it. -/
def flushServed (account : Account) (turn : FlushTurn) : EmailId → Served := fun id =>
  let store := dropCanceled account.store
  match turn.session with
  | none => account.served id
  | some limit =>
    let sent := sentRows store limit turn.now
    if turn.reply.answers ∧ id ∈ pendingIds sent then
      match verdictOf turn.reply sent id with
      | .acknowledged => (account.served id).amended (mergedPatch (ofEmail sent id))
      | .gone => .gone
      | _ => account.served id
    else account.served id

/-- The word after a job round: what the server destroyed is gone, what it updated is amended. -/
def jobServed (account : Account) (progress : JobProgress) (turn : JobTurn) : EmailId → Served :=
  fun id => (heeded progress turn).elim (account.served id) fun answer =>
    if id ∈ answer.destroyed then .gone
    else if id ∈ answer.updated then (account.served id).amended (patchOf progress.job)
    else account.served id

/-- One operation on the account. -/
def Account.after (account : Account) (step : Step) : Account where
  store := account.store.after step
  served := match step with
    | .flush turn => flushServed account turn
    | .fetch fetched => heard account (fetched.batch account.store)
        (memberWord fetched.threads fetched.members)
    | .round parsed _ => heard account (roundOf account.store parsed).batch parsed.word
    | .job progress turn => jobServed account progress turn
    | _ => account.served

/-- The account after a run of operations. -/
def Account.run (steps : List Step) : Account := steps.foldl Account.after Account.start

end Huliho.Cache
