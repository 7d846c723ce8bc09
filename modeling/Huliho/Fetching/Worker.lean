import Huliho.Fetching.Bodies
import Huliho.Lib.Steps

/-!
# The worker that runs the accounts

What of `coordinator.ts` and `body-queue.ts` decides which bodies a store holds. The work of an account
runs under its lock, in the order it was asked for; a body is read beside it, and each of its reads of
the store, its answer and its writes is a step of its own.

Every piece of work takes the **generation** of the moment it was asked for, and a batch of an older
generation is refused. A write held back until the window reported is a write that comes later; the
check of the generation and the write behind it are one step, and a write the database fails is left
out. When an account polls, what a request costs and which tab asks are not modelled: each step
may come at any time.
-/

namespace Huliho.Fetching

def BODY_FETCHES_IN_FLIGHT : Nat := 2

def BODY_LIMIT_TRIES : Nat := 5

abbrev Ticket := Nat

/-- What the lock of an account is asked for: a poll, every other work that lands changes (a flush, a
window, a round of a folder job), or to forget the account. -/
inductive Errand
  | poll
  | change
  | forget
deriving DecidableEq

structure Request where
  accountId : AccountId
  errand : Errand
  generation : Nat
deriving DecidableEq

/-- A fetch in line. -/
structure Fetch where
  accountId : AccountId
  emailId : EmailId
  large : Bool
  tries : Nat
deriving DecidableEq

/-- How far `readBody` is. -/
inductive Stage
  | looking
  | fetching
  | storing (fetched : Option EmailBody)
  /-- The row is stored, `evict` has not read the sizes. -/
  | measuring
  /-- The batches `evict` still has to commit. -/
  | evicting (leaving : Leaving)

/-- A fetch that runs: the generation of its store and whether its lane was stopped. -/
structure Read where
  fetch : Fetch
  generation : Nat
  stopped : Bool
  stage : Stage

/-- The worker, with two things no code keeps: the emails that a landed change destroyed, and the
accounts that were told to be forgotten. -/
structure State where
  bodies : Bodies
  generation : Nat
  accounts : List AccountId
  line : List Request
  /-- The polls that found their session ended, by their generation. -/
  expired : List Nat
  /-- The sweeps that have not read the stored accounts, by what they keep. -/
  sweeps : List (List AccountId)
  /-- The sign-outs that have not emptied the store. -/
  destroys : Nat
  waiting : List Fetch
  paused : List AccountId
  reads : Record Ticket Read
  gone : List (AccountId × EmailId)
  forgotten : List AccountId

/-- A worker that found some bodies in its store. -/
def State.opened (bodies : Bodies) : State where
  bodies
  generation := 0
  accounts := []
  line := []
  expired := []
  sweeps := []
  destroys := 0
  waiting := []
  paused := []
  reads := Table.empty
  gone := []
  forgotten := []

inductive Action
  /-- The list of a lease; a fresh one sweeps. -/
  | setAccounts (ids : List AccountId) (fresh : Bool)
  /-- A sweep reads the accounts that hold a row. -/
  | sweep (keep stored : List AccountId)
  | poll (accountId : AccountId)
  | change (accountId : AccountId)
  /-- The work that holds the lock lands a batch that destroys some emails. -/
  | land (accountId : AccountId) (ids : List EmailId)
  /-- The work that holds the lock ends; `expired` where the server refused its session. -/
  | leave (accountId : AccountId) (expired : Bool)
  /-- The batch of a `forget` that holds the lock. -/
  | forget (accountId : AccountId)
  /-- A poll whose session ended halts the accounts. -/
  | halt (generation : Nat)
  /-- The store was replaced by an empty one. -/
  | restart
  | clear
  /-- The store of a sign-out is emptied. -/
  | destroy
  | ask (accountId : AccountId) (emailId : EmailId) (large : Bool)
  /-- `drain` starts the first fetch of an account's line. -/
  | drain (ticket : Ticket) (accountId : AccountId)
  /-- The pause of a lane is over. -/
  | resume (accountId : AccountId)
  | look (ticket : Ticket)
  | answer (ticket : Ticket) (list : List BodyAnswer) (now : Nat)
  /-- A request that brings no answer; `limited` where the proxy refused it for its limit. -/
  | fail (ticket : Ticket) (limited : Bool)
  | store (ticket : Ticket)
  /-- `evict` reads the sizes, in whichever order the store answers them. -/
  | measure (ticket : Ticket) (sizes : List BodySize)
  /-- The batch of `evict` for one account. -/
  | remove (ticket : Ticket) (accountId : AccountId)
  | settle (ticket : Ticket)
deriving DecidableEq

namespace State

variable (s : State)

/-! ## The body queue -/

/-- How many fetches of an account's lane run. -/
def running (accountId : AccountId) : Nat :=
  (s.reads.values.filter fun read => read.fetch.accountId = accountId ∧ !read.stopped).length

/-- A read that came to its end. -/
def ended (ticket : Ticket) : State := { s with reads := s.reads.only (· ≠ ticket) }

/-- A read at its next stage. -/
def staged (ticket : Ticket) (read : Read) (stage : Stage) : State :=
  { s with reads := s.reads.put ticket { read with stage } }

/-- `retry`: the fetch goes back to the head of its line and the lane waits. -/
def retry (ticket : Ticket) (read : Read) : State :=
  if read.stopped then s.ended ticket
  else { s.ended ticket with
    waiting := read.fetch :: s.waiting
    paused := read.fetch.accountId :: s.paused }

/-! ## The coordinator -/

/-- `stop`: the accounts leave, their fetches in line are abandoned and their lanes stopped. -/
def stop (ids : List AccountId) : State :=
  { s with
    accounts := s.accounts.filter (· ∉ ids)
    waiting := s.waiting.filter (·.accountId ∉ ids)
    paused := s.paused.filter (· ∉ ids)
    reads := s.reads.mapped fun _ read =>
      { read with stopped := read.stopped || read.fetch.accountId ∈ ids } }

/-- `forget`, which asks for the lock of each account. -/
def forget (ids : List AccountId) : State :=
  { s with
    line := s.line ++ ids.map fun accountId => ⟨accountId, .forget, s.generation⟩
    forgotten := ids ++ s.forgotten }

/-- `halt`: every account is stopped and the generation moves on. -/
def halt : State := { s.stop s.accounts with generation := s.generation + 1 }

def setAccounts (ids : List AccountId) (fresh : Bool) : State :=
  let stopped := s.accounts.filter (· ∉ ids)
  let started := { s with accounts := firsts (s.accounts ++ ids) }
  let left := (started.stop stopped).forget stopped
  if fresh then { left with sweeps := (ids ++ stopped) :: s.sweeps } else left

/-- The work that holds the lock of an account. -/
def holder (accountId : AccountId) : Option Request :=
  s.line.find? fun request => request.accountId = accountId

/-- The store without some bodies. -/
def without (p : AccountId × EmailId → Prop) [DecidablePred p] : State :=
  { s with bodies := s.bodies.only fun key => ¬ p key }

end State

/-! ## One step -/

/-- One action; none where it does not apply. -/
def step (s : State) : Action → Option State
  | .setAccounts ids fresh => some (s.setAccounts ids fresh)
  | .sweep keep stored =>
    if keep ∈ s.sweeps ∧ ∀ row ∈ s.bodies.rows, row.1.1 ∈ stored then
      some ({ s with sweeps := s.sweeps.erase keep }.forget (stored.filter (· ∉ keep)))
    else none
  | .poll accountId =>
    if accountId ∈ s.accounts then
      some { s with line := s.line ++ [⟨accountId, .poll, s.generation⟩] }
    else none
  | .change accountId => some { s with line := s.line ++ [⟨accountId, .change, s.generation⟩] }
  | .land accountId ids =>
    match s.holder accountId with
    | some ⟨_, .poll, generation⟩ | some ⟨_, .change, generation⟩ =>
      if generation = s.generation then
        some { s.without fun key => key.1 = accountId ∧ key.2 ∈ ids with
          gone := ids.map (fun id => (accountId, id)) ++ s.gone }
      else none
    | _ => none
  | .leave accountId expired =>
    match s.holder accountId with
    | some ⟨id, .poll, generation⟩ =>
      some { s with
        line := s.line.erase ⟨id, .poll, generation⟩
        expired := if expired then generation :: s.expired else s.expired }
    | some ⟨id, .change, generation⟩ =>
      some { s with line := s.line.erase ⟨id, .change, generation⟩ }
    | _ => none
  | .forget accountId =>
    match s.holder accountId with
    | some ⟨id, .forget, generation⟩ =>
      let left := { s with line := s.line.erase ⟨id, .forget, generation⟩ }
      some (if generation = s.generation then left.without fun key => key.1 = accountId else left)
    | _ => none
  | .halt generation =>
    if generation ∈ s.expired then
      let left := { s with expired := s.expired.erase generation }
      some (if generation = s.generation then left.halt.forget s.accounts else left)
    else none
  | .restart => some { s.halt with bodies := Table.empty }
  | .clear => some { s.halt with destroys := s.destroys + 1 }
  | .destroy =>
    if s.destroys = 0 then none
    else some { s with bodies := Table.empty, destroys := s.destroys - 1 }
  | .ask accountId emailId large =>
    some { s with waiting := s.waiting ++ [⟨accountId, emailId, large, 0⟩] }
  | .drain ticket accountId =>
    match s.reads.get ticket, s.waiting.find? fun fetch => fetch.accountId = accountId with
    | none, some fetch =>
      if accountId ∉ s.paused ∧ s.running accountId < BODY_FETCHES_IN_FLIGHT then
        some { s with
          waiting := s.waiting.erase fetch
          reads := s.reads.put ticket
            ⟨{ fetch with tries := fetch.tries + 1 }, s.generation, false, .looking⟩ }
      else none
    | _, _ => none
  | .resume accountId => some { s with paused := s.paused.filter (· ≠ accountId) }
  | .look ticket =>
    match s.reads.get ticket with
    | some ⟨fetch, generation, stopped, .looking⟩ =>
      some <| match s.bodies.get (fetch.accountId, fetch.emailId) with
      | some held =>
        if answers held fetch.large then s.ended ticket
        else s.staged ticket ⟨fetch, generation, stopped, .looking⟩ .fetching
      | none => s.staged ticket ⟨fetch, generation, stopped, .looking⟩ .fetching
    | _ => none
  | .answer ticket list now =>
    match s.reads.get ticket with
    | some ⟨fetch, generation, stopped, .fetching⟩ =>
      some (s.staged ticket ⟨fetch, generation, stopped, .fetching⟩
        (.storing (fetchedOf list fetch.emailId fetch.large now)))
    | _ => none
  | .fail ticket limited =>
    match s.reads.get ticket with
    | some ⟨fetch, generation, stopped, .fetching⟩ =>
      some <| if limited ∧ fetch.tries < BODY_LIMIT_TRIES then
        s.retry ticket ⟨fetch, generation, stopped, .fetching⟩
      else s.ended ticket
    | _ => none
  | .store ticket =>
    match s.reads.get ticket with
    | some ⟨fetch, generation, stopped, .storing fetched⟩ =>
      some <| if generation = s.generation then
        match fetched with
        | none =>
          (s.without fun key => key = (fetch.accountId, fetch.emailId)).ended ticket
        | some body =>
          { s with bodies := s.bodies.put (fetch.accountId, body.id) body }.staged ticket
            ⟨fetch, generation, stopped, .storing fetched⟩ .measuring
      else s.ended ticket
    | _ => none
  | .measure ticket sizes =>
    match s.reads.get ticket with
    | some ⟨fetch, generation, stopped, .measuring⟩ =>
      if sizes.isPerm (bodySizes s.bodies) then
        some (s.staged ticket ⟨fetch, generation, stopped, .measuring⟩ (.evicting (evict sizes)))
      else none
    | _ => none
  | .remove ticket accountId =>
    match s.reads.get ticket with
    | some ⟨fetch, generation, stopped, .evicting leaving⟩ =>
      match leaving.get accountId with
      | some ids =>
        some <| if generation = s.generation then
          (s.without fun key => key.1 = accountId ∧ key.2 ∈ ids).staged ticket
            ⟨fetch, generation, stopped, .evicting leaving⟩
            (.evicting (leaving.only (· ≠ accountId)))
        else s.ended ticket
      | none => none
    | _ => none
  | .settle ticket =>
    match s.reads.get ticket with
    | some ⟨_, _, _, .evicting leaving⟩ =>
      if leaving.rows.isEmpty then some (s.ended ticket) else none
    | _ => none

end Huliho.Fetching
