import Huliho.Gate.Rules

/-!
# What lifts a stop

A stop on credentials is to stand until an attempt or a change that began after it passes. The row's
own rule orders the stops and not the passes: a pass reported by a request resumes the row wherever
a run is in memory, and a failure that lands after the stop starts one
(**`pass_under_way_resumes`**).

A pass is on its way (`Task.passing`) from when nothing but the row's write is left to it. `Orderly`
is what a run has to meet: no stop lands while one is on its way, and behind a stop no older task is
given one. Then the stop stays (**`stop_stays`**).
-/

namespace Huliho.Gate

/-- Whether the task's pass is on its way to the row. -/
def Task.passing (task : Task) : Bool :=
  match task.phase with
  | .replacing | .resuming _ => true
  | .settling outcome => outcome.fault.isNone && outcome.resume
  | _ => false

/-- No pass is on its way. -/
def State.Quiet (s : State) : Prop := ∀ entry ∈ s.tasks.rows, entry.2.passing = false

instance (s : State) : Decidable s.Quiet := inferInstanceAs (Decidable (∀ entry ∈ s.tasks.rows, _))

/-- Whether the task has a pass to report. -/
def Task.reports (task : Task) : Bool :=
  match task.phase with
  | .settling outcome => outcome.fault.isNone
  | _ => false

/-- The action puts a pass of the task on its way: the answer of an attempt or of a change, or the
pass of a request that finds a run in memory. -/
def Passes (s : State) (task : Task) : Action → Prop
  | .answer _ none => task.kind = .attempt ∨ task.kind = .change
  | .settle _ => task.reports ∧ s.run.isSome
  | _ => False

instance (s : State) (task : Task) : ∀ a, Decidable (Passes s task a)
  | .answer _ none => inferInstanceAs (Decidable (_ ∨ _))
  | .settle _ => inferInstanceAs (Decidable (_ ∧ _))
  | .answer _ (some _) | .tick _ | .start _ _ | .lock _ | .read _ | .revoke _ | .replace _
  | .forget _ | .write _ => inferInstanceAs (Decidable False)

/-- The action writes a stop on credentials. -/
def StopsCredentials (s : State) : Action → Prop
  | .write id => (s.tasks.get id).map Task.phase = some (.stopping .credentials true)
  | .revoke _ => True
  | _ => False

instance (s : State) : ∀ a, Decidable (StopsCredentials s a)
  | .write _ => inferInstanceAs (Decidable (_ = _))
  | .revoke _ => inferInstanceAs (Decidable True)
  | .answer _ _ | .tick _ | .start _ _ | .lock _ | .read _ | .settle _ | .replace _
  | .forget _ => inferInstanceAs (Decidable False)

/-- The task an action is about. -/
def Action.about : Action → Option TaskId
  | .tick _ => none
  | .start id _ | .lock id | .read id | .revoke id | .answer id _ | .replace id | .settle id
  | .forget id | .write id => some id

/-- What an action has to meet: a stop on credentials lands while no pass is on its way, and while
one stands it puts no pass of a task on its way that began before. -/
structure Orderly (s : State) (a : Action) : Prop where
  lands : StopsCredentials s a → s.cause = some .credentials ∨ s.Quiet
  passes : s.cause = some .credentials → ∀ id ∈ a.about, ∀ task ∈ s.tasks.get id,
    Passes s task a → s.stops ≤ task.began

instance (s : State) (a : Action) : Decidable (Orderly s a) :=
  decidable_of_iff (_ ∧ _) ⟨fun h => ⟨h.1, h.2⟩, fun h => ⟨h.lands, h.passes⟩⟩

/-- The task whose pass an action writes. -/
def Action.writes : Action → Option TaskId
  | .write id | .replace id => some id
  | _ => none

/-- The action writes a pass of a task that began behind a number of stops. -/
def Lifts (stops : Nat) (s : State) (a : Action) : Prop :=
  ∃ id ∈ a.writes, ∃ task ∈ s.tasks.get id, task.passing ∧ stops ≤ task.began

instance (stops : Nat) (s : State) (a : Action) : Decidable (Lifts stops s a) :=
  inferInstanceAs (Decidable (∃ id ∈ a.writes, ∃ task ∈ s.tasks.get id, _))

/-! ## What a step does -/

variable {window : Nat} {s s' : State} {a : Action} {id : TaskId} {task : Task}

/-- What a step does to the tasks: it begins one or moves one to another phase. -/
inductive Turn (s : State) (a : Action) (s' : State) : Prop
  | still (h : s'.tasks = s.tasks)
  | begins (id : TaskId) (kind : Kind)
      (h : s'.tasks = s.tasks.put id ⟨kind, s.stops, kind.begins⟩)
  | moves (id : TaskId) (task : Task) (phase : Phase) (hid : a.about = some id)
      (hold : s.tasks.get id = some task) (h : s'.tasks = s.tasks.put id { task with phase })
      (hpass : ({ task with phase } : Task).passing → task.passing ∨ Passes s task a)

/-- A move to a phase in which no pass is on its way. -/
theorem Turn.plain {phase : Phase} (hid : a.about = some id) (hold : s.tasks.get id = some task)
    (h : s'.tasks = s.tasks.put id { task with phase })
    (hnot : ({ task with phase } : Task).passing = false) : Turn s a s' :=
  .moves id task phase hid hold h fun hpass => absurd hpass (by rw [hnot]; exact Bool.false_ne_true)

theorem read_turn (h : s.tasks.get id = some task) : Turn s (.read id) (task.read s id) := by
  rw [Task.read]
  cases task.kind <;> dsimp only <;> split <;> exact .plain rfl h rfl rfl

/-- A failure puts no pass on its way. -/
theorem answer_fault (s : State) (id : TaskId) (task : Task) (fault : Fault) :
    ∃ phase, (task.answer s id (some fault)).tasks = s.tasks.put id { task with phase } ∧
      ({ task with phase } : Task).passing = false := by
  unfold Task.answer
  split <;> rename_i heq
  · cases heq
  · exact ⟨_, rfl, rfl⟩
  · exact ⟨_, rfl, rfl⟩
  · exact ⟨_, rfl, rfl⟩
  · exact ⟨_, rfl, rfl⟩

theorem answer_turn {fault : Option Fault} (h : s.tasks.get id = some task) :
    Turn s (.answer id fault) (task.answer s id fault) := by
  cases fault with
  | some fault =>
    obtain ⟨phase, htasks, hnot⟩ := answer_fault s id task fault
    exact .plain rfl h htasks hnot
  | none =>
    unfold Task.answer
    split
    · rename_i hkind _
      exact .moves id task _ rfl h rfl fun _ => .inr (.inr hkind)
    · rename_i heq
      cases heq
    · rename_i hkind
      exact .moves id task _ rfl h rfl fun _ => .inr (.inl hkind)
    · exact .plain rfl h rfl rfl
    · exact .plain rfl h rfl rfl

theorem settle_turn {outcome : Outcome} (h : s.tasks.get id = some task)
    (hphase : task.phase = .settling outcome) :
    Turn s (.settle id) (task.settle window s id outcome) := by
  rw [Task.settle]
  split
  · rename_i hfault
    have hreports : task.reports := by
      rw [Task.reports, hphase]
      exact Option.isNone_iff_eq_none.2 hfault
    split
    · rename_i hgoes
      refine .moves id task _ rfl h rfl fun _ => hgoes.imp (fun hresume => ?_) fun hrun =>
        ⟨hreports, hrun⟩
      rw [Task.passing, hphase]
      simp [hfault, hresume]
    · exact .plain rfl h rfl rfl
  · exact .plain rfl h rfl rfl
  · exact .plain rfl h rfl rfl
  · dsimp only
    split <;> exact .plain rfl h rfl rfl

/-- **Every step begins a task or moves one.** -/
theorem step_turn (h : step window s a = some s') : Turn s a s' := by
  cases a with
  | tick elapsed =>
    obtain rfl := Option.some.inj h
    exact .still rfl
  | start id kind =>
    rw [step] at h
    split at h
    · obtain rfl := Option.some.inj h
      exact .begins id kind rfl
    · cases h
  | lock id =>
    rw [step] at h
    split at h
    · rename_i task htask _
      split at h
      · obtain rfl := Option.some.inj h
        refine .plain rfl htask rfl ?_
        cases task.kind <;> rfl
      · cases h
    · cases h
  | read id =>
    rw [step] at h
    split at h
    · rename_i task htask
      split at h
      · obtain rfl := Option.some.inj h
        exact read_turn htask
      · cases h
    · cases h
  | revoke id =>
    rw [step] at h
    split at h
    · rename_i task htask
      split at h
      · obtain rfl := Option.some.inj h
        obtain ⟨phase, htasks, hnot⟩ := answer_fault s id task .credential
        exact .plain rfl htask htasks hnot
      · cases h
    · cases h
  | answer id fault =>
    rw [step] at h
    split at h
    · rename_i task htask
      split at h
      · obtain rfl := Option.some.inj h
        exact answer_turn htask
      · cases h
    · cases h
  | replace id =>
    rw [step] at h
    split at h
    · rename_i task htask
      split at h
      · rename_i hphase
        obtain rfl := Option.some.inj h
        exact .moves id task _ rfl htask rfl fun _ => .inl (by rw [Task.passing, hphase])
      · cases h
    · cases h
  | settle id =>
    rw [step] at h
    split at h
    · rename_i task htask
      split at h
      · rename_i outcome hphase
        obtain rfl := Option.some.inj h
        exact settle_turn htask hphase
      · cases h
    · cases h
  | forget id =>
    rw [step] at h
    split at h
    · rename_i task htask
      split at h
      · rename_i hphase
        obtain rfl := Option.some.inj h
        exact .moves id task _ rfl htask rfl fun _ => .inl (by rw [Task.passing, hphase])
      · obtain rfl := Option.some.inj h
        exact .plain rfl htask rfl rfl
      · cases h
    · cases h
  | write id =>
    rw [step] at h
    split at h
    · rename_i task htask
      split at h
      · obtain rfl := Option.some.inj h
        exact .plain rfl htask rfl rfl
      · obtain rfl := Option.some.inj h
        exact .plain rfl htask rfl rfl
      · cases h
    · cases h

/-- What a step does to the row: nothing, the write of a pass, or that of a stop. -/
inductive RowTurn (s : State) (a : Action) (s' : State) : Prop
  | kept (hcause : s'.cause = s.cause) (hstops : s'.stops = s.stops)
  | lifted (id : TaskId) (task : Task) (ha : a.writes = some id)
      (hold : s.tasks.get id = some task) (hpass : task.passing)
      (hcause : s'.cause ≠ some .credentials)
  | stopped (cause : StopCause) (ha : cause = .credentials → StopsCredentials s a)
      (hpass : ∀ task, ¬ Passes s task a) (hcause : s'.cause = stop s.cause cause)
      (hstops : s.cause = some .credentials → s'.stops = s.stops)

theorem read_row (s : State) (id : TaskId) (task : Task) :
    (task.read s id).cause = s.cause ∧ (task.read s id).stops = s.stops := by
  rw [Task.read]
  cases task.kind <;> dsimp only <;> split <;> exact ⟨rfl, rfl⟩

theorem answer_row (s : State) (id : TaskId) (task : Task) (fault : Option Fault) :
    (task.answer s id fault).cause = s.cause ∧ (task.answer s id fault).stops = s.stops := by
  unfold Task.answer
  split <;> exact ⟨rfl, rfl⟩

theorem settle_row (window : Nat) (s : State) (id : TaskId) (task : Task) (outcome : Outcome) :
    (task.settle window s id outcome).cause = s.cause ∧
      (task.settle window s id outcome).stops = s.stops := by
  rw [Task.settle]
  split
  · split <;> exact ⟨rfl, rfl⟩
  · exact ⟨rfl, rfl⟩
  · exact ⟨rfl, rfl⟩
  · dsimp only
    split <;> exact ⟨rfl, rfl⟩

/-- A write that leaves a stop on credentials as it is counts none. -/
theorem written_stops {cause : Option StopCause} (h : s.cause = some .credentials) :
    (s.written cause).stops = s.stops := by
  rw [State.written]
  exact if_neg fun hnew => hnew.2 h

theorem replaceCredential_ne (current : Option StopCause) :
    replaceCredential current ≠ some .credentials := by
  rw [replaceCredential]
  split
  · exact nofun
  · rename_i h
    exact h

/-- **Every step leaves the row, writes a pass or writes a stop.** -/
theorem step_row (h : step window s a = some s') : RowTurn s a s' := by
  cases a with
  | tick elapsed =>
    obtain rfl := Option.some.inj h
    exact .kept rfl rfl
  | start id kind =>
    rw [step] at h
    split at h
    · obtain rfl := Option.some.inj h
      exact .kept rfl rfl
    · cases h
  | lock id =>
    rw [step] at h
    split at h
    · split at h
      · obtain rfl := Option.some.inj h
        exact .kept rfl rfl
      · cases h
    · cases h
  | read id =>
    rw [step] at h
    split at h
    · rename_i task htask
      split at h
      · obtain rfl := Option.some.inj h
        exact .kept (read_row s id task).1 (read_row s id task).2
      · cases h
    · cases h
  | revoke id =>
    rw [step] at h
    split at h
    · rename_i task htask
      split at h
      · obtain rfl := Option.some.inj h
        obtain ⟨hcause, hstops⟩ := answer_row s id task (some .credential)
        refine .stopped .credentials (fun _ => trivial) (fun _ hpass => hpass) rfl fun hold => ?_
        rw [written_stops (hcause.trans hold), hstops]
      · cases h
    · cases h
  | answer id fault =>
    rw [step] at h
    split at h
    · rename_i task htask
      split at h
      · obtain rfl := Option.some.inj h
        exact .kept (answer_row s id task fault).1 (answer_row s id task fault).2
      · cases h
    · cases h
  | replace id =>
    rw [step] at h
    split at h
    · rename_i task htask
      split at h
      · rename_i hphase
        obtain rfl := Option.some.inj h
        exact .lifted id task rfl htask (by rw [Task.passing, hphase])
          (replaceCredential_ne s.cause)
      · cases h
    · cases h
  | settle id =>
    rw [step] at h
    split at h
    · rename_i task htask
      split at h
      · rename_i outcome _
        obtain rfl := Option.some.inj h
        exact .kept (settle_row window s id task outcome).1 (settle_row window s id task outcome).2
      · cases h
    · cases h
  | forget id =>
    rw [step] at h
    split at h
    · split at h
      · obtain rfl := Option.some.inj h
        exact .kept rfl rfl
      · obtain rfl := Option.some.inj h
        exact .kept rfl rfl
      · cases h
    · cases h
  | write id =>
    rw [step] at h
    split at h
    · rename_i task htask
      split at h
      · rename_i hphase
        obtain rfl := Option.some.inj h
        exact .lifted id task rfl htask (by rw [Task.passing, hphase]) nofun
      · rename_i cause hphase
        obtain rfl := Option.some.inj h
        refine .stopped cause (fun hcause => ?_) (fun _ hpass => hpass) rfl fun hold =>
          written_stops hold
        subst hcause
        show (s.tasks.get id).map Task.phase = _
        rw [htask, Option.map_some, hphase]
      · cases h
    · cases h

/-! ## What a run keeps -/

/-- While a stop on credentials stands, a pass on its way is of a task that began behind it. -/
def Guarded (s : State) : Prop :=
  s.cause = some .credentials → ∀ id task, s.tasks.get id = some task → task.passing →
    s.stops ≤ task.began

/-- A pass on its way behind a step was so before, or the step put it there. -/
theorem Turn.passing (h : Turn s a s') (hget : s'.tasks.get id = some task)
    (hpass : task.passing) : ∃ old, s.tasks.get id = some old ∧ old.began = task.began ∧
      (old.passing ∨ a.about = some id ∧ Passes s old a) := by
  cases h with
  | still h => exact ⟨task, h ▸ hget, rfl, .inl hpass⟩
  | begins id' kind h =>
    rw [h, Record.get_put] at hget
    split at hget
    · obtain rfl := Option.some.inj hget
      cases kind <;> cases hpass
    · exact ⟨task, hget, rfl, .inl hpass⟩
  | moves id' old phase hid hold h hmoved =>
    rw [h, Record.get_put] at hget
    split at hget
    · rename_i heq
      obtain rfl := Option.some.inj hget
      subst heq
      exact ⟨old, hold, rfl, (hmoved hpass).imp_right fun hpasses => ⟨hid, hpasses⟩⟩
    · exact ⟨task, hget, rfl, .inl hpass⟩

theorem Quiet.not_passing (h : s.Quiet) (hget : s.tasks.get id = some task) :
    task.passing = false := h (id, task) (Record.get_eq_some.1 hget)

/-- **One step keeps the guard.** -/
theorem Guarded.step (h : Guarded s) (hok : Orderly s a) (hstep : step window s a = some s') :
    Guarded s' := by
  intro hcause id task hget hpass
  obtain ⟨old, hold, hbegan, hway⟩ := (step_turn hstep).passing hget hpass
  -- A pass on its way under a stop that stood before.
  have hstood : s.cause = some .credentials → s'.stops = s.stops → s'.stops ≤ task.began := by
    intro hstood hstops
    rw [hstops, ← hbegan]
    rcases hway with hpassing | ⟨habout, hpasses⟩
    · exact h hstood id old hold hpassing
    · exact hok.passes hstood id habout old hold hpasses
  cases step_row hstep with
  | kept hsame hstops => exact hstood (hsame ▸ hcause) hstops
  | lifted _ _ _ _ _ hne => exact absurd hcause hne
  | stopped cause ha hnone hwritten hstops =>
    by_cases hbefore : s.cause = some .credentials
    · exact hstood hbefore (hstops hbefore)
    · -- The stop is new, so no pass was on its way.
      have hcredentials : cause = .credentials := by
        rw [hwritten, stop] at hcause
        split at hcause
        · exact absurd hcause hbefore
        · exact Option.some.inj hcause
      have hquiet := (hok.lands (ha hcredentials)).resolve_left hbefore
      rcases hway with hpassing | ⟨-, hpasses⟩
      · rw [Quiet.not_passing hquiet hold] at hpassing
        cases hpassing
      · exact absurd hpasses (hnone old)

/-- One step keeps a stop on credentials, unless it writes the pass of a younger task. -/
theorem stop_step (h : Guarded s) (hcause : s.cause = some .credentials)
    (hstep : step window s a = some s') :
    s'.cause = some .credentials ∧ s'.stops = s.stops ∨ Lifts s.stops s a := by
  cases step_row hstep with
  | kept hsame hstops => exact .inl ⟨hsame.trans hcause, hstops⟩
  | lifted id task ha hold hpass _ =>
    exact .inr ⟨id, ha, task, hold, hpass, h hcause id task hold hpass⟩
  | stopped cause _ _ hwritten hstops =>
    refine .inl ⟨?_, hstops hcause⟩
    rw [hwritten, hcause, stop_credentials]

theorem idle_guarded (cause : Option StopCause) : Guarded (.idle cause) := by
  intro _ id task hget
  exact absurd (Record.get_eq_some.1 hget) Table.not_mem_empty

/-- **A stop on credentials stays.** In a run that is orderly throughout, an account stopped on its
credentials stays stopped with that cause until the pass of a task that began after the stop is
written. -/
theorem stop_stays {window : Nat} {cause : Option StopCause} {before after : List Action}
    {s t : State} (hmeets : Meets (step window) Orderly (.idle cause) (before ++ after))
    (hbefore : runs (step window) (.idle cause) before = some s)
    (hstopped : s.cause = some .credentials) (hafter : runs (step window) s after = some t) :
    t.cause = some .credentials ∨ ComesBy (step window) (Lifts s.stops) s after := by
  have hguarded : Guarded s := runs_keeps (fun _ _ _ h hok hstep => h.step hok hstep)
    (idle_guarded cause) hmeets.append_left hbefore
  have hstep : ∀ u a next, Guarded u ∧ u.cause = some .credentials ∧ u.stops = s.stops →
      Orderly u a → step window u a = some next →
      (Guarded next ∧ next.cause = some .credentials ∧ next.stops = s.stops) ∨
        Lifts s.stops u a := by
    rintro u a next ⟨hu, hcause, hstops⟩ hok hstep
    rw [← hstops]
    exact (stop_step hu hcause hstep).imp_left fun h => ⟨hu.step hok hstep, h⟩
  exact (runs_until hstep ⟨hguarded, hstopped, rfl⟩ (hmeets.append_right hbefore) hafter).imp_left
    fun h => h.2.1

/-! ## A pass that was under way -/

/-- Three requests read the row as running, and the first one's credential is refused. -/
def refused : List Action :=
  [.start 1 .request, .start 2 .request, .start 3 .request, .read 1, .read 2, .read 3,
    .answer 1 (some .credential), .settle 1, .forget 1, .write 1]

/-- The second does not reach the server, and the third passes. -/
def latePass : List Action :=
  [.answer 2 (some .connection), .settle 2, .answer 3 none, .settle 3, .forget 3, .write 3]

/-- **A pass of a request that was under way resumes a stopped account**, where a failure that
landed behind the stop started a run. -/
theorem pass_under_way_resumes : ¬ ∀ (window : Nat) (cause : Option StopCause)
    (before after : List Action) (s t : State),
    runs (step window) (.idle cause) before = some s → s.cause = some .credentials →
    runs (step window) s after = some t →
    t.cause = some .credentials ∨ ComesBy (step window) (Lifts s.stops) s after := by
  intro hall
  have hbefore : ((runs (step runWindow) (.idle none) refused).map fun s => (s.cause, s.stops)) =
      some (some .credentials, 1) := by decide
  obtain ⟨s, hs, hrow⟩ := Option.map_eq_some_iff.1 hbefore
  obtain ⟨hcause, hstops⟩ := Prod.mk.inj hrow
  have hall' := hall runWindow none refused latePass s
  obtain ⟨t, ht, hresumed⟩ : ∃ t, runs (step runWindow) s latePass = some t ∧ t.cause = none := by
    have hboth : ((runs (step runWindow) (.idle none) (refused ++ latePass)).map State.cause) =
        some none := by decide
    obtain ⟨t, ht, hresumed⟩ := Option.map_eq_some_iff.1 hboth
    obtain ⟨middle, hmiddle, hrest⟩ := runs_append.1 ht
    obtain rfl := Option.some.inj (hs.symm.trans hmiddle)
    exact ⟨t, hrest, hresumed⟩
  rcases hall' t hs hcause ht with hstays | hlifted
  · rw [hresumed] at hstays
    cases hstays
  · rw [hstops] at hlifted
    have hnone : ¬ ComesBy (step runWindow) (Lifts 1) (.idle none) (refused ++ latePass) := by
      decide
    exact hnone (hlifted.append_left hs)

/-- A change that began behind the stop passes. -/
def youngChange : List Action :=
  [.start 4 .change, .lock 4, .answer 4 none, .replace 4, .forget 4, .write 4]

theorem stop_lifted_by_change : ∃ s t : State, s.cause = some .credentials ∧
    runs (step runWindow) s youngChange = some t ∧
    (t.cause = some .credentials ∨
      ComesBy (step runWindow) (Lifts s.stops) s youngChange) := by
  have hboth : (runs (step runWindow) (.idle none) (refused ++ youngChange)).isSome := by decide
  obtain ⟨t, ht⟩ := Option.isSome_iff_exists.1 hboth
  obtain ⟨s, hs, hrest⟩ := runs_append.1 ht
  have hcause : (runs (step runWindow) (.idle none) refused).map State.cause =
      some (some .credentials) := by decide
  have hstopped : s.cause = some .credentials := by
    rw [hs] at hcause
    exact Option.some.inj hcause
  exact ⟨s, t, hstopped, hrest, stop_stays (by decide) hs hstopped hrest⟩

end Huliho.Gate
