import Huliho.Lib.Spacing
import Huliho.Gate.Rules

/-!
# The run of refused connections

The rules of the gate on one outcome after another: `Gate::apply` as a whole, which the steps of a
task that settles undisturbed come to (`settles_as_applied`). The run in memory is the greedy choice
of the failures since it last began (`Tallied`), so it reaches five exactly when five failures a
window apart can be chosen (`stops_iff_five_apart`).
-/

namespace Huliho.Gate

/-- What the rules read and write of one account: the row's cause and the run in memory. -/
structure Standing where
  cause : Option StopCause
  run : Option Run
deriving DecidableEq

namespace Standing

variable (window : Nat) (s : Standing) (outcome : Outcome)

/-- Whether a connection failure brings the run to its end. -/
def Stops : Prop :=
  outcome.fault = some .connection ∧
    maxRefusedRun ≤ (count window s.run outcome.landed).windows

instance : Decidable (s.Stops window outcome) := inferInstanceAs (Decidable (_ ∧ _))

/-- The rules on one outcome. -/
def apply : Standing :=
  match outcome.fault with
  | none => if outcome.resume ∨ s.run.isSome then ⟨none, none⟩ else s
  | some .undecided => s
  | some .credential => ⟨stop s.cause .credentials, none⟩
  | some .connection =>
    if maxRefusedRun ≤ (count window s.run outcome.landed).windows then
      ⟨stop s.cause .connection, none⟩
    else { s with run := some (count window s.run outcome.landed) }

/-- The account after outcomes, the oldest first. -/
def after (outcomes : List Outcome) : Standing := outcomes.foldl (apply window) s

end Standing

/-- The connection failures since the last pass, credential rejection or connection stop, after one
more outcome. A failure that would stop an account stopped on its credentials stops nothing. -/
def sinceNext (window : Nat) (s : Standing) (since : List Nat) (outcome : Outcome) : List Nat :=
  match outcome.fault with
  | none | some .credential => []
  | some .undecided => since
  | some .connection =>
    if s.Stops window outcome ∧ s.cause ≠ some .credentials then []
    else since ++ [outcome.landed]

/-- When they landed, after outcomes on an account. -/
def since (window : Nat) (s : Standing) (failures : List Nat) : List Outcome → List Nat
  | [] => failures
  | outcome :: outcomes =>
    since window (s.apply window outcome) (sinceNext window s failures outcome) outcomes

/-- The outcomes in the order they landed. -/
def Landing (outcomes : List Outcome) : Prop := (outcomes.map Outcome.landed).Pairwise (· ≤ ·)

instance (outcomes : List Outcome) : Decidable (Landing outcomes) :=
  inferInstanceAs (Decidable (List.Pairwise _ _))

/-! ## The run is the greedy choice -/

/-- On an account not stopped on its credentials the run is the greedy choice of the failures, and
short of five. -/
structure Tallied (window : Nat) (s : Standing) (failures : List Nat) (now : Nat) : Prop where
  sorted : failures.Pairwise (· ≤ ·)
  landed : ∀ t ∈ failures, t ≤ now
  counted : s.cause ≠ some .credentials →
    failures.foldl (greedy window) none = s.run.map fun run => (run.windows, run.opened)
  short : s.cause ≠ some .credentials → ∀ r ∈ s.run, r.windows < maxRefusedRun

variable {window now : Nat} {s : Standing} {failures : List Nat} {outcome : Outcome}

theorem stop_connection (cause : Option StopCause) :
    stop cause .connection = if cause = some .credentials then some .credentials
      else some .connection := by
  cases cause with
  | none => rfl
  | some cause => cases cause <;> rfl

theorem stop_credential (cause : Option StopCause) :
    stop cause .credentials = some .credentials := by
  cases cause with
  | none => rfl
  | some cause => cases cause <;> rfl

/-- The gate counts as the greedy choice takes. -/
theorem count_greedy {run : Option Run} {landed : Nat}
    (hshort : ∀ r ∈ run, r.windows < maxRefusedRun) :
    greedy window (run.map fun run => (run.windows, run.opened)) landed =
      some ((count window run landed).windows, (count window run landed).opened) := by
  cases run with
  | none => rfl
  | some run =>
    rw [Option.map_some, greedy, count]
    split
    · rfl
    · have hword : min (run.windows + 1) 4294967295 = run.windows + 1 := by
        have := hshort run rfl
        unfold maxRefusedRun at this
        omega
      simp only [hword]

theorem Tallied.stops_iff (h : Tallied window s failures now)
    (hcause : s.cause ≠ some .credentials) (hfault : outcome.fault = some .connection)
    (hlate : now ≤ outcome.landed) :
    s.Stops window outcome ↔ ∃ chosen : List Nat, chosen.Sublist (failures ++ [outcome.landed]) ∧
      chosen.length = maxRefusedRun ∧ chosen.Pairwise (Spaced window) := by
  have hsorted : (failures ++ [outcome.landed]).Pairwise (· ≤ ·) := by
    refine List.pairwise_append.2 ⟨h.sorted, List.pairwise_singleton _ _, fun a ha b hb => ?_⟩
    rw [List.mem_singleton.1 hb]
    exact le_trans (h.landed a ha) hlate
  rw [chosen_iff_greedy hsorted, List.foldl_concat, h.counted hcause,
    count_greedy (h.short hcause)]
  exact and_iff_right hfault

theorem Tallied.empty (cause : Option StopCause) : Tallied window ⟨cause, none⟩ [] now :=
  ⟨List.Pairwise.nil, by simp, fun _ => rfl, fun _ _ h => (by cases h)⟩

/-- The row and the run after a connection failure. -/
theorem apply_connection (hfault : outcome.fault = some .connection) :
    s.apply window outcome =
      if s.Stops window outcome then ⟨stop s.cause .connection, none⟩
      else { s with run := some (count window s.run outcome.landed) } := by
  unfold Standing.apply Standing.Stops
  simp only [hfault, true_and]

/-- **One outcome keeps the tally.** -/
theorem Tallied.step (h : Tallied window s failures now) (hlate : now ≤ outcome.landed) :
    Tallied window (s.apply window outcome) (sinceNext window s failures outcome)
      outcome.landed := by
  have hlanded : ∀ t ∈ failures, t ≤ outcome.landed := fun t ht => le_trans (h.landed t ht) hlate
  cases hfault : outcome.fault with
  | none =>
    unfold Standing.apply sinceNext
    simp only [hfault]
    split
    · exact .empty none
    · rename_i hidle
      have hrun : s.run = none := by
        cases hr : s.run with
        | none => rfl
        | some run => exact absurd (.inr (by rw [hr]; rfl)) hidle
      exact ⟨List.Pairwise.nil, by simp, fun _ => by rw [hrun]; rfl, fun _ r hr => by
        rw [hrun] at hr
        cases hr⟩
  | some fault =>
    cases fault with
    | undecided =>
      unfold Standing.apply sinceNext
      simp only [hfault]
      exact ⟨h.sorted, hlanded, h.counted, h.short⟩
    | credential =>
      unfold Standing.apply sinceNext
      simp only [hfault]
      exact .empty _
    | connection =>
      have hnew : (failures ++ [outcome.landed]).Pairwise (· ≤ ·) := by
        refine List.pairwise_append.2 ⟨h.sorted, List.pairwise_singleton _ _, fun a ha b hb => ?_⟩
        rw [List.mem_singleton.1 hb]
        exact hlanded a ha
      have hmost : ∀ t ∈ failures ++ [outcome.landed], t ≤ outcome.landed := by
        intro t ht
        rcases List.mem_append.1 ht with ht | ht
        · exact hlanded t ht
        · exact le_of_eq (List.mem_singleton.1 ht)
      rw [apply_connection hfault]
      unfold sinceNext
      simp only [hfault]
      by_cases hstops : s.Stops window outcome
      · rw [if_pos hstops]
        by_cases hcause : s.cause = some .credentials
        · -- The stop stands, and nothing is claimed of the run behind it.
          rw [if_neg fun hand => hand.2 hcause]
          have hstands : stop s.cause .connection = some .credentials := by
            rw [stop_connection, if_pos hcause]
          exact ⟨hnew, hmost, fun hne => absurd hstands hne, fun hne => absurd hstands hne⟩
        · rw [if_pos ⟨hstops, hcause⟩]
          exact .empty _
      · rw [if_neg hstops, if_neg fun hand => hstops hand.1]
        refine ⟨hnew, hmost, fun hcause => ?_, fun hcause run hrun => ?_⟩
        · rw [List.foldl_concat, h.counted hcause, count_greedy (h.short hcause)]
          rfl
        · obtain rfl := Option.some.inj hrun
          exact not_le.1 fun hfive => hstops ⟨hfault, hfive⟩

theorem Tallied.after {outcomes : List Outcome} (h : Tallied window s failures now)
    (hlanding : Landing outcomes) (hlate : ∀ o ∈ outcomes, now ≤ o.landed) {later : Nat}
    (hbefore : ∀ o ∈ outcomes, o.landed ≤ later) (hnow : now ≤ later) :
    Tallied window (s.after window outcomes) (since window s failures outcomes) later := by
  induction outcomes generalizing s failures now with
  | nil => exact ⟨h.sorted, fun t ht => le_trans (h.landed t ht) hnow, h.counted, h.short⟩
  | cons outcome outcomes ih =>
    obtain ⟨hfirst, hrest⟩ := List.pairwise_cons.1 hlanding
    refine ih (h.step (hlate outcome (by simp))) hrest (fun o ho => ?_) (fun o ho => ?_) ?_
    · exact hfirst o.landed (List.mem_map_of_mem ho)
    · exact hbefore o (List.mem_cons_of_mem _ ho)
    · exact hbefore outcome (by simp)

theorem after_concat {outcomes : List Outcome} :
    s.after window (outcomes ++ [outcome]) = (s.after window outcomes).apply window outcome :=
  List.foldl_concat ..

/-- **A connection failure stops an account exactly where five failures a window apart can be
chosen since the count began**, undecided failures change nothing, and a pass or a credential
rejection leaves no run. -/
theorem stops_iff_five_apart (window : Nat) (cause : Option StopCause) {outcomes : List Outcome}
    {outcome : Outcome} (hlanding : Landing (outcomes ++ [outcome])) :
    ((Standing.after window ⟨cause, none⟩ outcomes).cause ≠ some .credentials →
      outcome.fault = some .connection →
      ((Standing.after window ⟨cause, none⟩ outcomes).Stops window outcome ↔
        ∃ chosen : List Nat,
          chosen.Sublist (since window ⟨cause, none⟩ [] outcomes ++ [outcome.landed]) ∧
            chosen.length = 5 ∧ chosen.Pairwise (Spaced window)) ∧
      (Standing.after window ⟨cause, none⟩ (outcomes ++ [outcome])).cause =
        if (Standing.after window ⟨cause, none⟩ outcomes).Stops window outcome then
          some .connection
        else (Standing.after window ⟨cause, none⟩ outcomes).cause) ∧
    (outcome.fault = some .undecided →
      Standing.after window ⟨cause, none⟩ (outcomes ++ [outcome]) =
        Standing.after window ⟨cause, none⟩ outcomes) ∧
    (outcome.fault = none ∨ outcome.fault = some .credential →
      (Standing.after window ⟨cause, none⟩ (outcomes ++ [outcome])).run = none) := by
  rw [after_concat]
  refine ⟨fun hcause hfault => ?_, fun hfault => ?_, fun hfault => ?_⟩
  · unfold Landing at hlanding
    rw [List.map_append] at hlanding
    obtain ⟨hbefore, -, hlast⟩ := List.pairwise_append.1 hlanding
    have hearly : ∀ o ∈ outcomes, o.landed ≤ outcome.landed := fun o ho =>
      hlast o.landed (List.mem_map_of_mem ho) outcome.landed (by simp)
    have hempty : Tallied window ⟨cause, none⟩ [] 0 := .empty cause
    have htally := hempty.after hbefore (fun _ _ => Nat.zero_le _) hearly (Nat.zero_le _)
    refine ⟨htally.stops_iff hcause hfault (le_refl _), ?_⟩
    rw [apply_connection hfault]
    split
    · exact (stop_connection _).trans (if_neg hcause)
    · rfl
  · unfold Standing.apply
    simp only [hfault]
  · rcases hfault with hfault | hfault
    · unfold Standing.apply
      simp only [hfault]
      split
      · rfl
      · rename_i hidle
        cases hr : (Standing.after window ⟨cause, none⟩ outcomes).run with
        | none => rfl
        | some run => exact absurd (.inr (by rw [hr]; rfl)) hidle
    · unfold Standing.apply
      simp only [hfault]

/-- Failures eleven seconds apart, the sixth of seven absorbed, and one more. -/
def refusals : List Outcome :=
  [0, 11000, 22000, 33000, 34000].map fun landed => ⟨some .connection, false, landed⟩

theorem stops_iff_five_apart_refusals :
    (Standing.after runWindow ⟨none, none⟩ refusals).Stops runWindow
      ⟨some .connection, false, 44000⟩ := by
  refine ((stops_iff_five_apart runWindow none (by decide)).1 (by decide) rfl).1.2 ?_
  exact ⟨[0, 11000, 22000, 33000, 44000], by decide, rfl, by decide⟩

/-! ## The task that settles -/

section Task

variable {state : State} {id : TaskId} {task : Task}

theorem get_move {phase : Phase} :
    (state.move id task phase).tasks.get id = some { task with phase } := by
  rw [State.move, Record.get_put, if_pos rfl]

/-- The account with the run forgotten and the task in another phase. -/
def State.forgot (state : State) (id : TaskId) (task : Task) (phase : Phase) : State :=
  { state.move id task phase with run := none }

theorem get_forgot {phase : Phase} :
    (state.forgot id task phase).tasks.get id = some { task with phase } := get_move

/-- A pass that goes on undisturbed forgets the run and clears the stop. -/
theorem resumes (hget : state.tasks.get id = some task) (hphase : task.phase = .resuming false) :
    ∃ next, runs (step window) state [.forget id, .write id] = some next ∧
      (⟨next.cause, next.run⟩ : Standing) = ⟨none, none⟩ := by
  have hforget : step window state (.forget id) = some (state.forgot id task (.resuming true)) := by
    unfold step
    simp only [hget, hphase]
    rfl
  have hwrite : step window (state.forgot id task (.resuming true)) (.write id) =
      some (((state.forgot id task (.resuming true)).finish id
        { task with phase := .resuming true }).written none) := by
    unfold step
    simp only [get_forgot]
  exact ⟨_, runs_cons.2 ⟨_, hforget, runs_cons.2 ⟨_, hwrite, rfl⟩⟩, rfl⟩

/-- A stop that goes on undisturbed forgets the run and is written. -/
theorem stopsRow {cause : StopCause} (hget : state.tasks.get id = some task)
    (hphase : task.phase = .stopping cause false) :
    ∃ next, runs (step window) state [.forget id, .write id] = some next ∧
      (⟨next.cause, next.run⟩ : Standing) = ⟨stop state.cause cause, none⟩ := by
  have hforget : step window state (.forget id) =
      some (state.forgot id task (.stopping cause true)) := by
    unfold step
    simp only [hget, hphase]
    rfl
  have hwrite : step window (state.forgot id task (.stopping cause true)) (.write id) =
      some (((state.forgot id task (.stopping cause true)).finish id
        { task with phase := .stopping cause true }).written (stop state.cause cause)) := by
    unfold step
    simp only [get_forgot]
    rfl
  exact ⟨_, runs_cons.2 ⟨_, hforget, runs_cons.2 ⟨_, hwrite, rfl⟩⟩, rfl⟩

/-- **The rules as the steps of a task come to them** where no other task comes between. -/
theorem settles_as_applied (hget : state.tasks.get id = some task)
    (hphase : task.phase = .settling outcome) :
    ∃ actions next, runs (step window) state actions = some next ∧
      (⟨next.cause, next.run⟩ : Standing) =
        Standing.apply window ⟨state.cause, state.run⟩ outcome := by
  have hsettle : step window state (.settle id) = some (task.settle window state id outcome) := by
    unfold step
    simp only [hget, hphase]
  -- A task that ends with its settling leaves the row, one that moves on takes two more steps.
  have hends : runs (step window) state [.settle id] =
      some (task.settle window state id outcome) := runs_cons.2 ⟨_, hsettle, rfl⟩
  have hgoes : ∀ next, runs (step window) (task.settle window state id outcome)
      [.forget id, .write id] = some next →
        runs (step window) state [.settle id, .forget id, .write id] = some next :=
    fun next hrest => runs_cons.2 ⟨_, hsettle, hrest⟩
  unfold Task.settle at hends hgoes
  unfold Standing.apply
  cases hfault : outcome.fault with
  | none =>
    simp only [hfault] at hends hgoes ⊢
    split at hends
    · rename_i hpass
      rw [if_pos hpass] at hgoes
      obtain ⟨next, hrest, heq⟩ := resumes get_move rfl
      exact ⟨_, next, hgoes next hrest, by rw [heq, if_pos hpass]⟩
    · rename_i hpass
      exact ⟨_, _, hends, by rw [if_neg hpass]; rfl⟩
  | some fault =>
    cases fault with
    | undecided =>
      simp only [hfault] at hends ⊢
      exact ⟨_, _, hends, rfl⟩
    | credential =>
      simp only [hfault] at hgoes ⊢
      obtain ⟨next, hrest, heq⟩ := stopsRow get_move rfl
      exact ⟨_, next, hgoes next hrest, heq⟩
    | connection =>
      simp only [hfault] at hends hgoes ⊢
      split at hends
      · rename_i hfive
        rw [if_pos hfive] at hgoes
        obtain ⟨next, hrest, heq⟩ := stopsRow get_move rfl
        exact ⟨_, next, hgoes next hrest, by rw [heq, if_pos hfive]; rfl⟩
      · rename_i hfive
        exact ⟨_, _, hends, by rw [if_neg hfive]; rfl⟩

end Task

end Huliho.Gate
