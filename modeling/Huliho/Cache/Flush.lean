import Huliho.Cache.Landing

/-!
# The log goes out

`flush.ts`: one round sends as much of the log as one `Email/set` takes and settles what the answer
says. The rows of one email are one update; an email with a destroy is destroyed and its other rows
go with it (`callOf`). Rows that add up to nothing are dropped first (`cancels`), which trusts the
inverses of the log.
-/

namespace Huliho.Cache

/-- The SetError of an email that is gone. -/
def NOT_FOUND : String := "notFound"

/-- The SetError of an object whose server is out of reach. -/
def SERVER_UNAVAILABLE : String := "serverUnavailable"

/-- The word for an update the answer names nowhere. -/
def UNNAMED : String := "serverFail"

/-- One patch per email, a later row winning a path an earlier one named. -/
def mergedPatch (rows : List PendingRow) : EmailPatch := Patch.merged (rows.map PendingRow.patch)

/-- What the first row naming a path found there. -/
def foundFirst (rows : List PendingRow) (x : Path) : Option Bool :=
  rows.findSome? fun row => row.inverse.word x

/-- Whether the rows of one email add up to nothing: none went out yet, none destroys and every path
ends where the first row naming it found it. -/
def cancels (rows : List PendingRow) : Bool :=
  rows.all (fun row => row.sentAt.isNone && !row.destroy) &&
    decide (∀ x ∈ (mergedPatch rows).named, foundFirst rows x = (mergedPatch rows).word x)

/-- Drops the rows that add up to nothing. -/
def dropCanceled (store : Store) : Store :=
  let dropped := (pendingIds store.pending.rows).flatMap fun id =>
    if cancels (store.pending.of id) then store.pending.of id else []
  if dropped = [] then store
  else store.commit { pending := { remove := dropped.map PendingRow.seq } }

/-- The rows of the first `emails` emails the log names, every row of each. -/
def firstEmails (rows : List PendingRow) (emails : Nat) : List PendingRow :=
  rows.filter fun row => row.id ∈ (pendingIds rows).take emails

/-! ## The call -/

/-- The emails the rows destroy. -/
def destroying (rows : List PendingRow) (id : EmailId) : Bool :=
  rows.any fun row => row.destroy && row.id = id

/-- The call for the rows sent. -/
structure SetCall where
  update : List (EmailId × EmailPatch)
  destroy : List EmailId

def callOf (rows : List PendingRow) : SetCall where
  update := ((pendingIds rows).filter fun id => !destroying rows id).map fun id =>
    (id, mergedPatch (ofEmail rows id))
  destroy := (pendingIds rows).filter fun id => destroying rows id

/-- What a `/set` answers: the objects it took and the error of each it refused. -/
structure SetAnswer where
  updated : List EmailId
  notUpdated : EmailId → Option String
  destroyed : List EmailId
  notDestroyed : EmailId → Option String

/-- What came of a request that writes. -/
inductive Reply
  /-- The request failed, or the session before it. -/
  | none
  /-- A method error. -/
  | error (type : String)
  | ok (answer : SetAnswer)

/-- The type of the SetError an answer names for one object. -/
def refusalOf (errors : EmailId → Option String) (id : EmailId) : String := (errors id).getD UNNAMED

/-- The word for one email: none once the server took it. -/
def wordOf (answer : SetAnswer) (id : EmailId) (destroys : Bool) : Option String :=
  if destroys then
    if id ∈ answer.destroyed then none else some (refusalOf answer.notDestroyed id)
  else if id ∈ answer.updated then none
  else some (refusalOf answer.notUpdated id)

/-- What the answer says of an email sent. -/
inductive Verdict
  | acknowledged
  | refused (word : String)
  /-- Its update waits for a server out of reach and keeps its rows. -/
  | waiting
  /-- A destroy found it destroyed or already gone. -/
  | gone
deriving DecidableEq

/-- The word a reply has for an email; a method error refuses every email of the call. -/
def replyWord (reply : Reply) (id : EmailId) (destroys : Bool) : Option String :=
  match reply with
  | .ok answer => wordOf answer id destroys
  | .error type => some type
  | .none => none

def verdictOf (reply : Reply) (rows : List PendingRow) (id : EmailId) : Verdict :=
  let destroys := destroying rows id
  let word := replyWord reply id destroys
  if destroys && (word = none || word = some NOT_FOUND) then .gone
  else
    match word with
    | none => .acknowledged
    | some word => if word = SERVER_UNAVAILABLE then .waiting else .refused word

/-! ## The answer settled -/

def Verdict.isRefused : Verdict → Bool
  | .refused _ => true
  | _ => false

/-- The rows a refusal takes back. -/
def takenBy (sent : List PendingRow) (verdict : EmailId → Verdict) : List Nat :=
  (sent.filter fun row => (verdict row.id).isRefused).map PendingRow.seq

/-- The log after an answer: an acknowledged row leaves, a refused one leaves with its change taken
back from the rows, a destroyed email leaves the store and a waiting one stays. -/
def settle (store : Store) (sent : List PendingRow) (verdict : EmailId → Verdict) : Store :=
  let taken := takeBack store (takenBy sent verdict)
  let gone := (pendingIds sent).filter fun id => verdict id = .gone
  let threads := (sent.filter fun row => verdict row.id = .gone).filterMap PendingRow.threadId
  let removed : Batch := if gone = [] then {} else goneOf taken gone threads
  let acknowledged := (sent.filter fun row => verdict row.id = .acknowledged).map PendingRow.seq
  taken.commit { removed with pending := { remove := removed.pending.remove ++ acknowledged } }

/-- What one round of a flush settled: the emails whose change the server refused and whether a next
round would send rows this one did not. -/
structure Flushed where
  failed : List EmailId
  more : Bool

/-- The rows a flush may send: held destroys are passed over. -/
def ready (store : Store) : List PendingRow := store.pending.rows.filter fun row => !row.held

/-- The rows one round sends at `now`. -/
def sentRows (store : Store) (maxObjectsInSet now : Nat) : List PendingRow :=
  (firstEmails (ready store) (max maxObjectsInSet 1)).map fun row => { row with sentAt := some now }

/-- The session's limit, the clock and what came of the request; none for a session that failed. -/
structure FlushTurn where
  session : Option Nat
  now : Nat
  reply : Reply

/-- Whether a reply is an answer: a request that failed and a call answered while the server is out
of reach leave the log for the next flush. -/
def Reply.answers : Reply → Bool
  | .none => false
  | .error type => type ≠ SERVER_UNAVAILABLE
  | .ok _ => true

/-- One round, settled by the answer; none for one that throws. -/
def flushPending (store : Store) (turn : FlushTurn) : Store × Option Flushed :=
  let store := dropCanceled store
  if ready store = [] then (store, some ⟨[], false⟩)
  else
    match turn.session with
    | none => (store, none)
    | some maxObjectsInSet =>
      let sent := sentRows store maxObjectsInSet turn.now
      let marked := store.commit { pending := { put := sent } }
      if turn.reply.answers then
        let verdict := verdictOf turn.reply sent
        (settle marked sent verdict,
          some ⟨(pendingIds sent).filter fun id => (verdict id).isRefused &&
              verdict id ≠ .refused NOT_FOUND,
            (pendingIds sent).all (fun id => verdict id ≠ .waiting) &&
              sent.length < (ready store).length⟩)
      else (marked, none)

/-- The rows once a round marked what it sends. -/
def marked (store : Store) (limit now : Nat) : Store :=
  store.commit { pending := { put := sentRows store limit now } }

/-- **What a round does to the rows**: it drops what cancels, marks what it sends and settles the
answer, as far as it comes. -/
theorem flushPending_cases (store : Store) (turn : FlushTurn) :
    (flushPending store turn).1 = dropCanceled store ∨
      ∃ limit, turn.session = some limit ∧ ready (dropCanceled store) ≠ [] ∧
        ((turn.reply.answers = false ∧
            (flushPending store turn).1 = marked (dropCanceled store) limit turn.now) ∨
          (turn.reply.answers = true ∧
            (flushPending store turn).1 =
              settle (marked (dropCanceled store) limit turn.now)
                (sentRows (dropCanceled store) limit turn.now)
                (verdictOf turn.reply (sentRows (dropCanceled store) limit turn.now)))) := by
  unfold flushPending
  simp only
  by_cases hready : ready (dropCanceled store) = []
  · simp [hready]
  simp only [if_neg hready]
  cases turn.session with
  | none => exact .inl rfl
  | some limit =>
    refine .inr ⟨limit, rfl, hready, ?_⟩
    cases hanswers : turn.reply.answers with
    | false => exact .inl ⟨rfl, by simp [marked]⟩
    | true => exact .inr ⟨rfl, by simp [marked]⟩

end Huliho.Cache
