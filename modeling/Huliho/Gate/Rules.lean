import Huliho.Lib.Record
import Huliho.Lib.Steps

/-!
# The connection gate

`gate/mod.rs`, `gate/reconnect.rs` and `accounts/stopping.rs`: what one account's row and the gate's
memory hold, and the tasks that work on them. The run of refused connections lives in memory, the
stop on the row. Every access to either is a step of its own, so the outcomes of tasks that hold no
lock land between those of the ones that do.

A task is modelled from when it begins to when its outcome is settled. What only the store or the
runtime can fail is left out, and so is the lock a request takes around the refresh of its token
alone: it takes orders away and adds none.
-/

namespace Huliho.Gate

/-- Why an account is stopped. -/
inductive StopCause
  | credentials
  | connection
deriving DecidableEq

/-- The rule a failure falls under. -/
inductive Fault
  | credential
  | connection
  | undecided
deriving DecidableEq

/-- The run of an account: the windows that counted and when the open one started. -/
structure Run where
  windows : Nat
  opened : Nat
deriving DecidableEq

/-- One outcome as the rules take it. -/
structure Outcome where
  fault : Option Fault
  /-- Whether a pass resumes the row without a run in memory. -/
  resume : Bool
  /-- When it landed. -/
  landed : Nat
deriving DecidableEq

/-- Windows of failed attempts that stop an account. -/
def maxRefusedRun : Nat := 5

/-- Failures this close together are one failure, in milliseconds. -/
def runWindow : Nat := 10000

/-! ## The row -/

/-- A stop with a cause: one that stands with it stays, and one on the credentials outranks the
rest. -/
def stop (current : Option StopCause) (cause : StopCause) : Option StopCause :=
  if current = some cause ∨ current = some .credentials then current else some cause

/-- Replacing the credential clears a stop for a refused one. -/
def replaceCredential (current : Option StopCause) : Option StopCause :=
  if current = some .credentials then none else current

@[simp] theorem stop_credentials (cause : StopCause) :
    stop (some .credentials) cause = some .credentials := if_pos (.inr rfl)

/-- One more window on the run, unless the open window absorbs this failure; `windows` saturates at
32 bits. -/
def count (window : Nat) (run : Option Run) (landed : Nat) : Run :=
  match run with
  | none => ⟨1, landed⟩
  | some run =>
    if landed - run.opened < window then run else ⟨min (run.windows + 1) 4294967295, landed⟩

/-! ## The tasks -/

/-- What a task is: an attempt on the stored credential under the account's lock, a request that
holds no lock, a sign-in that reads the row before it takes the lock, or a change of the
credential. -/
inductive Kind
  | attempt
  | request
  | signIn
  | change
deriving DecidableEq

/-- How far a task is. -/
inductive Phase
  | reading
  | waiting
  | checking
  /-- The candidate of a change passed and is not written yet. -/
  | replacing
  | settling (outcome : Outcome)
  /-- A pass: the run is forgotten, then the stop cleared. -/
  | resuming (forgot : Bool)
  /-- A failure that stops: the run is forgotten, then the stop written. -/
  | stopping (cause : StopCause) (forgot : Bool)
  | done
deriving DecidableEq

structure Task where
  kind : Kind
  /-- The stops on credentials that were written before the task began. -/
  began : Nat
  phase : Phase
deriving DecidableEq

abbrev TaskId := Nat

/-- One account as the tasks leave it. -/
structure State where
  cause : Option StopCause
  run : Option Run
  holder : Option TaskId
  tasks : Record TaskId Task
  /-- The clock, in milliseconds. -/
  now : Nat
  /-- The stops on credentials written so far. -/
  stops : Nat

/-- An account no task works on. -/
def State.idle (cause : Option StopCause) : State := ⟨cause, none, none, Table.empty, 0, 0⟩

namespace State

variable (s : State)

/-- The task in another phase. -/
def move (id : TaskId) (task : Task) (phase : Phase) : State :=
  { s with tasks := s.tasks.put id { task with phase } }

/-- The task ended; a lock it held is free. -/
def finish (id : TaskId) (task : Task) : State :=
  { s.move id task .done with holder := if s.holder = some id then none else s.holder }

/-- The row with a cause, a new stop on credentials counted. -/
def written (cause : Option StopCause) : State :=
  { s with
    cause
    stops := if cause = some .credentials ∧ s.cause ≠ some .credentials then s.stops + 1
      else s.stops }

end State

inductive Action
  | tick (elapsed : Nat)
  | start (id : TaskId) (kind : Kind)
  | lock (id : TaskId)
  | read (id : TaskId)
  /-- The refresh of the row's token was refused, which stops the account. -/
  | revoke (id : TaskId)
  | answer (id : TaskId) (fault : Option Fault)
  | replace (id : TaskId)
  | settle (id : TaskId)
  | forget (id : TaskId)
  | write (id : TaskId)
deriving DecidableEq

/-! ## One step -/

/-- Where a task of a kind begins. -/
def Kind.begins : Kind → Phase
  | .attempt | .change => .waiting
  | .request | .signIn => .reading

/-- Where a task goes with the lock: an attempt reads the row under it. -/
def Kind.held : Kind → Phase
  | .attempt => .reading
  | _ => .checking

/-- What a task makes of the row it reads: an attempt does not send a refused credential again, the
others leave a stopped account alone. -/
def Task.read (s : State) (id : TaskId) (task : Task) : State :=
  match task.kind with
  | .attempt =>
    if s.cause = some .credentials then
      s.move id task (.settling ⟨some .credential, true, s.now⟩)
    else s.move id task .checking
  | .signIn => if s.cause = none then s.move id task .waiting else s.finish id task
  | .request | .change => if s.cause = none then s.move id task .checking else s.finish id task

/-- What a task makes of the answer: a change is judged on its candidate and leaves the gate out
until that passed. -/
def Task.answer (s : State) (id : TaskId) (task : Task) (fault : Option Fault) : State :=
  match task.kind, fault with
  | .change, none => s.move id task .replacing
  | .change, some _ => s.finish id task
  | .attempt, _ => s.move id task (.settling ⟨fault, true, s.now⟩)
  | .request, _ | .signIn, _ => s.move id task (.settling ⟨fault, false, s.now⟩)

/-- The rules on one outcome. -/
def Task.settle (window : Nat) (s : State) (id : TaskId) (task : Task) (outcome : Outcome) : State :=
  match outcome.fault with
  | none =>
    if outcome.resume ∨ s.run.isSome then s.move id task (.resuming false) else s.finish id task
  | some .undecided => s.finish id task
  | some .credential => s.move id task (.stopping .credentials false)
  | some .connection =>
    let run := count window s.run outcome.landed
    let s := { s with run := some run }
    if maxRefusedRun ≤ run.windows then s.move id task (.stopping .connection false)
    else s.finish id task

/-- One action; none where it does not apply. -/
def step (window : Nat) (s : State) : Action → Option State
  | .tick elapsed => some { s with now := s.now + elapsed }
  | .start id kind =>
    match s.tasks.get id with
    | none => some (s.move id ⟨kind, s.stops, kind.begins⟩ kind.begins)
    | some _ => none
  | .lock id =>
    match s.tasks.get id, s.holder with
    | some task, none =>
      if task.phase = .waiting then
        some { s.move id task task.kind.held with holder := some id }
      else none
    | _, _ => none
  | .read id =>
    match s.tasks.get id with
    | some task => if task.phase = .reading then some (task.read s id) else none
    | none => none
  | .revoke id =>
    match s.tasks.get id with
    | some task =>
      if task.phase = .checking ∧ task.kind ≠ .change then
        some ((task.answer s id (some .credential)).written (stop s.cause .credentials))
      else none
    | none => none
  | .answer id fault =>
    match s.tasks.get id with
    | some task => if task.phase = .checking then some (task.answer s id fault) else none
    | none => none
  | .replace id =>
    match s.tasks.get id with
    | some task =>
      if task.phase = .replacing then
        some ((s.move id task (.resuming false)).written (replaceCredential s.cause))
      else none
    | none => none
  | .settle id =>
    match s.tasks.get id with
    | some task =>
      match task.phase with
      | .settling outcome => some (task.settle window s id outcome)
      | _ => none
    | none => none
  | .forget id =>
    match s.tasks.get id with
    | some task =>
      match task.phase with
      | .resuming false => some { s.move id task (.resuming true) with run := none }
      | .stopping cause false => some { s.move id task (.stopping cause true) with run := none }
      | _ => none
    | none => none
  | .write id =>
    match s.tasks.get id with
    | some task =>
      match task.phase with
      | .resuming true => some ((s.finish id task).written none)
      | .stopping cause true => some ((s.finish id task).written (stop s.cause cause))
      | _ => none
    | none => none

end Huliho.Gate
