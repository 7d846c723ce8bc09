import Huliho.Cache.Flush

/-!
# Folder jobs

`jobs.ts`: every email of a mailbox marked read, or the mailbox emptied, round by round. A round
asks which emails are left and writes them in a second request that carries the mailbox changes
behind the write; what the server took lands without a row in the log.
-/

namespace Huliho.Cache

inductive JobKind
  | markRead
  | empty
deriving DecidableEq

structure Job where
  kind : JobKind
  mailboxId : MailboxId
deriving DecidableEq

inductive JobState
  | running
  | done
  | canceled
  | failed
deriving DecidableEq

/-- Where a job stands. -/
structure JobProgress where
  job : Job
  done : Nat
  total : Option Nat
  /-- The first email the server took in the round before. -/
  last : Option EmailId
  state : JobState
deriving DecidableEq

/-- The patch that sets one path. -/
def setting (x : Path) : EmailPatch := ⟨{x}, ∅, Finset.disjoint_empty_right _⟩

/-- The patch that clears one path. -/
def clearing (x : Path) : EmailPatch := ⟨∅, {x}, Finset.disjoint_empty_left _⟩

/-- The patch a job writes on each email it reaches. -/
def patchOf (job : Job) : EmailPatch :=
  match job.kind with
  | .markRead => setting SEEN
  | .empty => clearing (.mailbox job.mailboxId)

/-- The emails a round reaches, each with the mailboxes it stands in when it empties. -/
structure Reached where
  ids : List EmailId
  total : Option Nat
  mailboxIds : EmailId → Option (Finset MailboxId)

/-- The emails that stand in the job's mailbox alone. -/
def onlyIn (job : Job) (reached : Reached) (id : EmailId) : Bool :=
  (reached.mailboxIds id).getD ∅ = {job.mailboxId}

/-- The write of one round: marking read sets `$seen`; emptying destroys an email whose only mailbox
is the one emptied and takes that mailbox from the rest. -/
def writeOf (job : Job) (reached : Reached) : SetCall :=
  match job.kind with
  | .markRead => ⟨reached.ids.map fun id => (id, patchOf job), []⟩
  | .empty =>
    let kept := reached.ids.filter fun id => (reached.mailboxIds id).isSome && !onlyIn job reached id
    ⟨kept.map fun id => (id, patchOf job), reached.ids.filter fun id => onlyIn job reached id⟩

def withServed (thread : ThreadRow) (served : EmailId → Option MemberState) : ThreadRow :=
  withMembers thread served

/-- An email as the server now holds it after an update. -/
def servedState (store : Store) (patch : EmailPatch) (header : EmailHeader) : MemberState :=
  patch.applied (unpatched header.state (store.pending.of header.id))

/-- The emails the server updated land as it now holds them, with every change still logged laid
over them again; a list they left drops them. -/
def landUpdated (store : Store) (ids : List EmailId) (patch : EmailPatch) : Store :=
  let held := (firsts ids).filterMap store.emails
  let served (id : EmailId) := if id ∈ ids then (store.emails id).map (servedState store patch)
    else none
  let threads := (firsts (held.map EmailHeader.threadId)).filterMap store.threads
  let changes := held.map fun header : EmailHeader =>
    ({ id := header.id
       threadId := header.threadId
       receivedAt := some header.receivedAt
       before := header.state
       after := patch.applied header.state
       restores := false } : ListChange)
  let members (threadId : ThreadId) := (store.threads threadId).map ThreadRow.members
  land store
    { emails := { put := held.map fun header => { header with state := servedState store patch header } }
      threads := { put := threads.map fun thread => withServed thread served }
      queries := { put := listsAfter store changes members } }

/-- What a round hears: the session's limit, the emails left, what came of the write and the mailbox
changes behind it. -/
structure JobTurn where
  /-- How many emails one request takes; none for a session that failed. -/
  session : Option Nat
  reached : Option Reached
  reply : Reply
  /-- The mailbox changes; none where the answer cannot be read or no state is held. -/
  mailbox : Option (Read MailboxesRead)
  tree : Option (List Mailbox × String)

/-- The emails left, as long as the server applied the write of the round before. -/
def reach (progress : JobProgress) (turn : JobTurn) : Option Reached :=
  turn.reached.filter fun reached => progress.last.all fun last => last ∉ reached.ids

/-- What the server took of the write. -/
def acknowledged : Reply → Option SetAnswer
  | .ok answer => some answer
  | _ => none

/-- The mailbox part of a round. -/
def landMailboxPass (store : Store) (turn : JobTurn) : Store × Bool :=
  match turn.mailbox with
  | none => (store, (store.states .mailbox).isNone)
  | some mailbox =>
    let landed := apply store ⟨mailbox, .skipped, .skipped⟩ turn.tree
    (landed.1, landed.2.isSome)

/-- What landed of a write: the destroyed emails leave, the updated ones land, the mailboxes after
them. -/
def landWrite (store : Store) (job : Job) (answer : SetAnswer) (turn : JobTurn) : Store × Bool :=
  let gone := if answer.destroyed = [] then store
    else land store (goneOf store answer.destroyed [])
  landMailboxPass (landUpdated gone answer.updated (patchOf job)) turn

/-- One round of a job; none for a round that throws, with what it did to the rows before. -/
def jobRound (store : Store) (progress : JobProgress) (turn : JobTurn) :
    Store × Option JobProgress :=
  match turn.session with
  | none => (store, none)
  | some limit =>
    if limit = 0 then (store, none)
    else
      match reach progress turn with
      | none => (store, none)
      | some reached =>
        let total := progress.total.or reached.total
        if reached.ids = [] then (store, some { progress with total, state := .done })
        else
          match acknowledged turn.reply with
          | none => (store, none)
          | some answer =>
            let taken := firsts (answer.updated ++ answer.destroyed)
            match reached.ids.find? fun id => id ∈ taken with
            | none => (store, none)
            | some last =>
              let landed := landWrite store progress.job answer turn
              (landed.1, if landed.2 then
                some { progress with done := progress.done + taken.length, total, last := some last }
              else none)

/-- What a round asked of the server: the write it sent, where it sent one. -/
def asked (progress : JobProgress) (turn : JobTurn) : Option SetCall :=
  match turn.session with
  | none => none
  | some limit =>
    if limit = 0 then none
    else (reach progress turn).bind fun reached =>
      if reached.ids = [] then none else some (writeOf progress.job reached)

/-- The answer a round heeds: one that took something of the write. -/
def heeded (progress : JobProgress) (turn : JobTurn) : Option SetAnswer :=
  match turn.session with
  | none => none
  | some limit =>
    if limit = 0 then none
    else (reach progress turn).bind fun reached => (acknowledged turn.reply).filter fun answer =>
      reached.ids.any fun id => id ∈ firsts (answer.updated ++ answer.destroyed)

/-- A round lands what the answer it heeds took, and nothing else. -/
theorem jobRound_heeded (store : Store) (progress : JobProgress) (turn : JobTurn) :
    (jobRound store progress turn).1 = (heeded progress turn).elim store fun answer =>
      (landWrite store progress.job answer turn).1 := by
  unfold jobRound heeded
  cases turn.session with
  | none => rfl
  | some limit =>
    by_cases hlimit : limit = 0
    · simp [hlimit]
    simp only [if_neg hlimit]
    cases reach progress turn with
    | none => rfl
    | some reached =>
      cases hreply : acknowledged turn.reply with
      | none =>
        simp only [Option.bind_some, Option.filter_none, Option.elim_none]
        split <;> rfl
      | some answer =>
        by_cases hids : reached.ids = []
        · simp [hids]
        simp only [if_neg hids, Option.bind_some]
        cases hfind : reached.ids.find? fun id =>
            decide (id ∈ firsts (answer.updated ++ answer.destroyed)) with
        | none =>
          rw [Option.filter_some, if_neg]
          · rfl
          · rw [List.any_eq_true]
            rintro ⟨id, hid, hin⟩
            exact List.find?_eq_none.1 hfind id hid hin
        | some last =>
          have hlast := List.find?_some hfind
          rw [Option.filter_some, if_pos]
          · rfl
          · exact List.any_eq_true.2 ⟨last, List.mem_of_find?_eq_some hfind, hlast⟩

/-- An answer heeded is the answer to a write the round sent. -/
theorem heeded_asked {progress : JobProgress} {turn : JobTurn} {answer : SetAnswer}
    (h : heeded progress turn = some answer) :
    turn.reply = .ok answer ∧ ∃ call, asked progress turn = some call := by
  unfold heeded at h
  unfold asked
  cases hs : turn.session with
  | none => simp [hs] at h
  | some limit =>
    by_cases hlimit : limit = 0
    · simp [hs, hlimit] at h
    simp only [hs, if_neg hlimit] at h ⊢
    obtain ⟨reached, hreached, h⟩ := Option.bind_eq_some_iff.1 h
    obtain ⟨hack, hany⟩ := Option.filter_eq_some_iff.1 h
    have hids : reached.ids ≠ [] := by
      rintro hc
      rw [hc] at hany
      cases hany
    refine ⟨?_, writeOf progress.job reached, ?_⟩
    · unfold acknowledged at hack
      split at hack
      · rename_i other heq
        rw [heq, Option.some.inj hack]
      · cases hack
    · rw [hreached, Option.bind_some, if_neg hids]

end Huliho.Cache
