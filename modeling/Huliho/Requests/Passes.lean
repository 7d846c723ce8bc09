import Huliho.Lib.Record
import Huliho.Requests.FolderSet

/-!
# One Request object in passes

`jmap/request.rs` and `jmap/request/handing.rs`: every call in order, what the calls need fetched or
stored in between, and a later pass over the calls from the first one something was brought for. A
write of a round runs when it stands in the row of writes the round's needs begin with; a write
behind another need waits for a later round.

The methods and the parts of the worker read and write a world, the account with what lies behind
it, of which only `Mailbox/set` is looked into. `applied` logs the calls whose write ran.
-/

namespace Huliho.Requests

open References (Fields Invocation MethodError)

/-! ## Needs and what is brought -/

/-- What the parts take and bring. -/
structure Kinds where
  EmailId : Type
  BodyAsk : Type
  Bodies : Type
  SetAsk : Type
  SetOutcome : Type
  Plan : Type
  Found : Type
  SubmitAsk : Type
  Submitted : Type

/-- What a call left for the request to fetch or store before it runs again. -/
inductive Need (K : Kinds)
  | previews (ids : List K.EmailId)
  | bodies (ask : K.BodyAsk)
  | write (ask : K.SetAsk)
  | folders (ask : FolderAsk)
  | search (plan : K.Plan)
  | submit (ask : K.SubmitAsk)

def Need.isWrite {K : Kinds} : Need K → Bool
  | .write _ | .folders _ | .submit _ => true
  | _ => false

/-- What the request brought one call between two passes. -/
inductive Brought (K : Kinds)
  /-- Previews, which the rows hold from then on. -/
  | rows
  | bodies (bodies : K.Bodies)
  | written (outcome : K.SetOutcome)
  | folders (outcome : FolderOutcome)
  | searched (found : K.Found)
  | submitted (submitted : K.Submitted)

namespace Brought

variable {K : Kinds}

def outcome : Option (Brought K) → Option K.SetOutcome
  | some (.written outcome) => some outcome
  | _ => none

def foldersDone : Option (Brought K) → Option FolderOutcome
  | some (.folders outcome) => some outcome
  | _ => none

def sent : Option (Brought K) → Option K.Submitted
  | some (.submitted outcome) => some outcome
  | _ => none

end Brought

/-! ## One call -/

/-- The capabilities a request opted into. -/
structure Using where
  core : Bool
  mail : Bool
  quota : Bool
  submission : Bool
  huliho : Bool

/-- The methods of an account: what each reads of the world. -/
structure Methods (K : Kinds) (σ : Type) where
  account : String
  /-- The size of a value in memory. -/
  nodeWeight : Nat
  /-- What `Email/set` asks, and how it answers what came of it. -/
  emailSet : Fields → Except MethodError (K.SetAsk × (K.SetOutcome → Except MethodError Fields))
  /-- The mailboxes as the store shows them, under the vendor capability or not. -/
  shown : Bool → σ → Option Shown
  /-- What `EmailSubmission/set` answers, the implicit answer behind its own, and what it asks. -/
  submissionSet : σ → Option K.Submitted → Fields →
    Except MethodError Fields × Option Fields × Option K.SubmitAsk
  /-- Every other method, with what it leaves to fetch. -/
  read : Using → σ → Option (Brought K) → String → Fields →
    Except MethodError Fields × List (Need K)
  read_leaves : ∀ {capabilities world had name arguments need},
    need ∈ (read capabilities world had name arguments).2 → need.isWrite = false

/-- What one call answered, the answer right after its own, and what it left. -/
structure Ran (K : Kinds) where
  response : Invocation
  trailer : Option Fields
  left : List (Need K)

section

variable {K : Kinds} {σ : Type} (methods : Methods K σ) (capabilities : Using)

/-- The methods this bridge answers, each behind its capability. -/
def dispatch (world : σ) (had : Option (Brought K)) (name : String) (arguments : Fields) :
    Except MethodError Fields × Option Fields × List (Need K) :=
  if name = "Email/set" ∧ capabilities.mail then
    match methods.emailSet arguments with
    | .error error => (.error error, none, [])
    | .ok (ask, answer) =>
      match Brought.outcome had with
      | none => (.error .serverUnavailable, none, [.write ask])
      | some outcome => (answer outcome, none, [])
  else if name = "Mailbox/set" ∧ capabilities.mail then
    let (answer, ask) := folderSet methods.account (methods.shown capabilities.huliho world)
      (Brought.foldersDone had) arguments
    (answer, none, ask.toList.map Need.folders)
  else if name = "EmailSubmission/set" ∧ capabilities.submission then
    let (answer, trailer, ask) := methods.submissionSet world (Brought.sent had) arguments
    (answer, trailer, ask.toList.map Need.submit)
  else
    let (answer, left) := methods.read capabilities world had name arguments
    (answer, none, left)

/-- One call, its references charged to what is left of the budget. -/
def run (world : σ) (had : Option (Brought K)) (call : Invocation) (previous : List Invocation)
    (budget : Nat) : Ran K × Nat :=
  match References.resolve methods.nodeWeight call.arguments previous budget with
  | (.error error, budget) => (⟨⟨"error", error.object, call.id⟩, none, []⟩, budget)
  | (.ok arguments, budget) =>
    match dispatch methods capabilities world had call.method arguments with
    | (.ok result, trailer, left) => (⟨⟨call.method, result, call.id⟩, trailer, left⟩, budget)
    | (.error error, trailer, left) => (⟨⟨"error", error.object, call.id⟩, trailer, left⟩, budget)

/-! ## One pass -/

/-- What one pass over the calls produced. -/
structure Answered (K : Kinds) where
  responses : List Invocation
  /-- Per call that left one, the answer that stands right after its own. -/
  trailers : List (Nat × Fields)
  /-- Per call that asked, what it left to fetch or store. -/
  needs : List (Nat × Need K)
  /-- What was brought so far. -/
  brought : List (Nat × Brought K)

/-- What was brought for a call. -/
def hadOf (brought : List (Nat × Brought K)) (index : Nat) : Option (Brought K) :=
  (brought.find? fun entry => entry.1 = index).map Prod.snd

/-- One call of a pass, which a later pass runs from the call `first` on; with what is left of the
budget. -/
def answerCall (world : σ) (first : Option Nat) (pass : Answered K × Nat)
    (call : Invocation × Nat) : Answered K × Nat :=
  let (answered, budget) := pass
  let (call, index) := call
  if first.any fun first => index < first then pass
  else
    let had := hadOf answered.brought index
    let (ran, budget) :=
      run methods capabilities world had call (answered.responses.take index) budget
    let others := answered.trailers.filter fun trailer => trailer.1 ≠ index
    ({ responses :=
        if first.isSome then answered.responses.set index ran.response
        else answered.responses ++ [ran.response]
       trailers := others ++ ran.trailer.toList.map fun trailer => (index, trailer)
       needs :=
        if had.isNone then answered.needs ++ ran.left.map fun need => (index, need)
        else answered.needs
       brought := answered.brought }, budget)

/-- Every call in order, or every call from the first one something was brought for. -/
def answer (world : σ) (calls : List Invocation) (first : Option Nat) (answered : Answered K) :
    Answered K :=
  (calls.zipIdx.foldl (answerCall methods capabilities world first)
    ({ answered with needs := [] }, References.MAX_REFERENCE_WEIGHT)).1

end

/-! ## Between two passes -/

/-- Why a request was not run. -/
inductive RequestError
  | limit (name : String)
  | store
  | task
deriving DecidableEq

inductive SyncError
  | store
  | task
  | session
deriving DecidableEq

/-- A sync failure inside a request: a session's never counts, since the cache answers as it stands.
-/
def syncFailed : SyncError → Option RequestError
  | .store => some .store
  | .task => some .task
  | .session => none

/-- The creation ids a request resolved so far. -/
abbrev CreatedIds := Record String String

/-- What the writes of one round share: the deadline the first of them sets and the creation ids. -/
structure Round where
  deadline : Option Nat
  created : CreatedIds

/-- The parts a request asks, each over the world as it finds it. The place of the call a write
stands for names the write. -/
structure Worker (K : Kinds) (σ : Type) where
  refresh : σ → Option SyncError × σ
  write : Nat → K.SetAsk → Round → σ → Except SyncError K.SetOutcome × Round × σ
  folders : Nat → FolderAsk → Round → σ → Except SyncError FolderOutcome × Round × σ
  submit : Nat → K.SubmitAsk → Round → σ → Except SyncError K.Submitted × Round × σ
  previews : List K.EmailId → σ → Option SyncError × σ
  /-- The bodies of every ask, within the windows left. -/
  bodies : List K.BodyAsk → Nat → σ → Except SyncError (List K.Bodies) × Nat × σ
  search : K.Plan → σ → K.Found × σ

/-- Rows one round reads previews for. -/
def PREVIEW_BATCH : Nat := 100

/-- Hands a call what was brought for it. -/
def bring {K : Kinds} (reruns : List (Nat × Brought K)) (index : Nat) (brought : Brought K) :
    List (Nat × Brought K) :=
  match reruns with
  | [] => []
  | (found, slot) :: rest =>
    if found = index then (found, brought) :: rest else (found, slot) :: bring rest index brought

/-- A call joins those that run again, with nothing brought for it yet. -/
def noted {K : Kinds} (reruns : List (Nat × Brought K)) (index : Nat) : List (Nat × Brought K) :=
  if reruns.any fun rerun => rerun.1 = index then reruns else reruns ++ [(index, .rows)]

/-- Where a round stands. -/
structure Fetching (K : Kinds) (σ : Type) where
  ids : List K.EmailId
  asks : List (Nat × K.BodyAsk)
  plans : List (Nat × K.Plan)
  reruns : List (Nat × Brought K)
  /-- Where the next write of the row stands. -/
  row : Option Nat
  round : Round
  windows : Nat
  world : σ
  applied : List Nat
  failed : Option RequestError

section

variable {K : Kinds} {σ : Type} [DecidableEq K.EmailId] (worker : Worker K σ)

/-- What a write brought its call. -/
def Fetching.wrote {α : Type} (p : Fetching K σ) (index : Nat)
    (result : Except SyncError α × Round × σ) (as : α → Brought K) : Fetching K σ :=
  match result with
  | (.ok outcome, round, world) =>
    { p with
      reruns := bring p.reruns index (as outcome), round, world, applied := p.applied ++ [index] }
  | (.error error, round, world) =>
    { p with round, world, applied := p.applied ++ [index], failed := syncFailed error }

/-- One need of a round. -/
def fetchNeed (p : Fetching K σ) (entry : Nat × Need K) : Fetching K σ :=
  let (index, need) := entry
  if p.failed.isSome then p
  else
    let inRow := need.isWrite && p.row = some index
    let p := { p with row := if inRow then some (index + 1) else none }
    if need.isWrite && !inRow then p
    else
      let p := { p with reruns := noted p.reruns index }
      match need with
      | .previews found =>
        { p with ids := found.foldl (fun ids id =>
            if id ∉ ids ∧ ids.length < PREVIEW_BATCH then ids ++ [id] else ids) p.ids }
      | .bodies ask => { p with asks := p.asks ++ [(index, ask)] }
      | .search plan => { p with plans := p.plans ++ [(index, plan)] }
      | .write ask => p.wrote index (worker.write index ask p.round p.world) .written
      | .folders ask => p.wrote index (worker.folders index ask p.round p.world) .folders
      | .submit ask => p.wrote index (worker.submit index ask p.round p.world) .submitted

/-- The previews of every call at once. -/
def fillPreviews (p : Fetching K σ) : Fetching K σ :=
  if p.failed.isSome || p.ids.isEmpty then p
  else
    let (error, world) := worker.previews p.ids p.world
    { p with world, failed := error.bind syncFailed }

/-- The bodies per call within the windows the request may still spend; where they fail with the
session, every call is brought none. -/
def fillBodies (noBodies : K.Bodies) (p : Fetching K σ) : Fetching K σ :=
  if p.failed.isSome || p.asks.isEmpty then p
  else
    match worker.bodies (p.asks.map Prod.snd) p.windows p.world with
    | (.ok bodies, windows, world) =>
      { p with
        reruns := (p.asks.zip bodies).foldl (fun reruns (ask, found) =>
          bring reruns ask.1 (.bodies found)) p.reruns
        windows, world }
    | (.error error, windows, world) =>
      match syncFailed error with
      | some failed => { p with windows, world, failed := some failed }
      | none =>
        { p with
          reruns := p.asks.foldl (fun reruns ask => bring reruns ask.1 (.bodies noBodies)) p.reruns
          windows, world }

/-- One search of a round. -/
def searchOne (p : Fetching K σ) (plan : Nat × K.Plan) : Fetching K σ :=
  let (found, world) := worker.search plan.2 p.world
  { p with reruns := bring p.reruns plan.1 (.searched found), world }

def searchAll (p : Fetching K σ) : Fetching K σ :=
  if p.failed.isSome then p else p.plans.foldl (searchOne worker) p

/-- What a request carries across its passes. -/
structure Carried where
  windows : Nat
  created : CreatedIds

/-- Where a round begins. -/
def fetchStart (needs : List (Nat × Need K)) (carried : Carried) (world : σ) (applied : List Nat) :
    Fetching K σ where
  ids := []
  asks := []
  plans := []
  reruns := []
  row := needs.head?.map Prod.fst
  round := ⟨none, carried.created⟩
  windows := carried.windows
  world := world
  applied := applied
  failed := none

/-- Brings what the needs name. -/
def fetched (noBodies : K.Bodies) (needs : List (Nat × Need K)) (carried : Carried) (world : σ)
    (applied : List Nat) : Fetching K σ :=
  searchAll worker (fillBodies worker noBodies (fillPreviews worker
    (needs.foldl (fetchNeed worker) (fetchStart needs carried world applied))))

/-! ## The request -/

/-- A Request object. -/
structure Request where
  capabilities : Using
  methodCalls : List Invocation
  createdIds : Option CreatedIds

/-- The passes one request may take. -/
def MAX_PASSES : Nat := 3

/-- Method calls in one request. -/
def MAX_CALLS_IN_REQUEST : Nat := 16

/-- Body windows of one request. -/
def MAX_BODY_WINDOWS : Nat := 32

/-- A request as it runs. -/
structure Running (K : Kinds) (σ : Type) where
  answered : Answered K
  carried : Carried
  world : σ
  passes : Nat
  /-- The calls whose write ran, in the order they did. -/
  applied : List Nat
  failed : Option RequestError

variable (methods : Methods K σ) (noBodies : K.Bodies) (request : Request)

/-- A later pass, where the last one left a need. -/
def pass (r : Running K σ) : Running K σ :=
  if r.failed.isSome || r.answered.needs.isEmpty then r
  else
    let p := fetched worker noBodies r.answered.needs r.carried r.world r.applied
    if p.failed.isSome then
      { r with world := p.world, applied := p.applied, failed := p.failed }
    else
      let first := ((p.reruns.map Prod.fst).min?).getD 0
      let brought := r.answered.brought ++ p.reruns
      { answered := answer methods request.capabilities p.world request.methodCalls (some first)
          { r.answered with brought }
        carried := ⟨p.windows, p.round.created⟩
        world := p.world
        passes := r.passes + 1
        applied := p.applied
        failed := none }

/-- Whether a call asks for changes. -/
def asksChanges (calls : List Invocation) : Bool :=
  calls.any fun call => "/changes".toList.isSuffixOf call.method.toList

/-- The world the first pass runs in. -/
def refreshed (world : σ) : Option RequestError × σ :=
  let opted := request.capabilities.mail || request.capabilities.quota
  if opted && asksChanges request.methodCalls then
    let (error, world) := worker.refresh world
    (error.bind syncFailed, world)
  else (none, world)

/-- The first pass. -/
def start (world : σ) : Running K σ :=
  let answered :=
    answer methods request.capabilities world request.methodCalls none ⟨[], [], [], []⟩
  { answered, carried := ⟨MAX_BODY_WINDOWS, request.createdIds.getD Table.empty⟩, world
    passes := 1, applied := [], failed := none }

/-- Runs one Request object. -/
def handle (world : σ) : Running K σ :=
  let refused (world : σ) (error : RequestError) : Running K σ :=
    { answered := ⟨[], [], [], []⟩, carried := ⟨0, Table.empty⟩, world, passes := 0
      applied := [], failed := some error }
  if MAX_CALLS_IN_REQUEST < request.methodCalls.length then
    refused world (.limit "maxCallsInRequest")
  else
    match refreshed worker request world with
    | (some error, world) => refused world error
    | (none, world) =>
      (pass worker methods noBodies request)^[MAX_PASSES - 1] (start methods request world)

/-- The name of the one answer a call leaves after its own. -/
def TRAILER : String := "Email/set"

/-- What stands for one call in the Response object: its own answer, and the one right after it
under its call id. -/
def answerOf (calls : List Invocation) (answered : Answered K) (index : Nat) : List Invocation :=
  match answered.responses[index]?, calls[index]? with
  | some response, some call =>
    let trailer := answered.trailers.find? fun trailer => trailer.1 = index
    response :: trailer.toList.map fun trailer => ⟨TRAILER, trailer.2, call.id⟩
  | _, _ => []

end

end Huliho.Requests
