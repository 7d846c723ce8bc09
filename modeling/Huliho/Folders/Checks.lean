import Huliho.Folders.Plan

/-!
# What a check that passed found

One inversion lemma for each check of `Folders.Plan`: what an object that passed found in the rows,
the names and the children, and what it left there (`create_ok`, `rename_ok`, `update_ok`,
`destroy_ok`). An object that was refused leaves everything but the names as it stood, and those as a
set (`check_refused`). `steps_of_run` takes an accepted step back to the object it came from and what
stood before it.
-/

namespace Huliho.Folders

namespace Planning

variable {setting : Setting} {planning next : Planning} {parent : Option MailboxId}

@[simp] theorem leaveParent_rows : (planning.leaveParent parent).rows = planning.rows := by
  cases parent <;> rfl

@[simp] theorem leaveParent_names : (planning.leaveParent parent).names = planning.names := by
  cases parent <;> rfl

@[simp] theorem leaveParent_roles : (planning.leaveParent parent).roles = planning.roles := by
  cases parent <;> rfl

@[simp] theorem leaveParent_steps : (planning.leaveParent parent).steps = planning.steps := by
  cases parent <;> rfl

@[simp] theorem joinParent_rows : (planning.joinParent parent).rows = planning.rows := by
  cases parent <;> rfl

@[simp] theorem joinParent_names : (planning.joinParent parent).names = planning.names := by
  cases parent <;> rfl

@[simp] theorem joinParent_roles : (planning.joinParent parent).roles = planning.roles := by
  cases parent <;> rfl

@[simp] theorem joinParent_steps : (planning.joinParent parent).steps = planning.steps := by
  cases parent <;> rfl

theorem leaveParent_children (id : MailboxId) : (planning.leaveParent parent).children id =
    if parent = some id then planning.children id - 1 else planning.children id := by
  cases parent with
  | none => rfl
  | some parent =>
    by_cases h : id = parent
    · subst h
      simp [leaveParent]
    · simp [leaveParent, h, Ne.symm h]

theorem joinParent_children (id : MailboxId) : (planning.joinParent parent).children id =
    if parent = some id then planning.children id + 1 else planning.children id := by
  cases parent with
  | none => rfl
  | some parent =>
    by_cases h : id = parent
    · subst h
      simp [joinParent]
    · simp [joinParent, h, Ne.symm h]

/-! ## The parts of a check -/

/-- A parent that passed is the top level or a row. -/
theorem under_ok {named : Option String} {found : Option MailboxId}
    (h : planning.under setting named = .ok found) :
    (named = none ∧ found = none) ∨ ∃ reference row, named = some reference ∧
      planning.row (setting.resolved reference) = some row ∧ found = some row.id := by
  cases named with
  | none => exact .inl ⟨rfl, (Except.ok.inj h).symm⟩
  | some reference =>
    rw [under] at h
    split at h
    · cases h
    · rename_i row hrow
      split at h
      · exact .inr ⟨reference, row, rfl, hrow, (Except.ok.inj h).symm⟩
      · cases h

/-- A name that passed is free under its parent. -/
theorem name_ok {typed leaf : String} (h : planning.name setting typed parent = .ok leaf) :
    leaf = setting.nfc typed ∧ setting.sibling parent leaf ∉ planning.names := by
  rw [name] at h
  split at h
  · cases h
  · rename_i found wire hfound
    have hleaf : found = setting.nfc typed := by
      rw [MailboxName.new] at hfound
      grind
    simp only at h
    split at h
    · cases h
    · rename_i hfree
      obtain rfl := Except.ok.inj h
      refine ⟨hleaf, fun hin => hfree ?_⟩
      simp [hin]

/-- A role that passed is held by no other mailbox. -/
theorem role_ok {named found : Option String} {row : Option MailboxRow}
    (h : planning.role setting named row = .ok found) :
    found = named ∧ ∀ role, named = some role →
      planning.heldElsewhere role (row.map MailboxRow.id) = false := by
  unfold Planning.role at h
  split at h
  · cases h
  split at h
  · exact ⟨(Except.ok.inj h).symm, nofun⟩
  rename_i role
  split at h
  · cases h
  rename_i hfree
  refine ⟨(Except.ok.inj h).symm, fun other hother => ?_⟩
  obtain rfl := Option.some.inj hother
  simp only [Bool.or_eq_true, not_or, Bool.not_eq_true] at hfree
  exact hfree.2

theorem roleOf_ok {named found : Option (Option String)} {row : Option MailboxRow}
    (h : planning.roleOf setting named row = .ok found) :
    found = named ∧ ∀ role, named = some (some role) →
      planning.heldElsewhere role (row.map MailboxRow.id) = false := by
  cases named with
  | none => exact ⟨(Except.ok.inj h).symm, nofun⟩
  | some named =>
    rw [roleOf] at h
    cases hrole : planning.role setting named row with
    | error refusal =>
      rw [hrole] at h
      cases h
    | ok role =>
      rw [hrole] at h
      obtain ⟨rfl, hfree⟩ := role_ok hrole
      exact ⟨(Except.ok.inj h).symm, fun role hrole => hfree role (Option.some.inj hrole)⟩

/-! ## An object that passed -/

theorem create_ok {index : Nat} {id : MailboxId} {create : Create} {step : Step}
    (h : planning.create setting index id create = (next, .ok step)) :
    ∃ under leaf, planning.under setting create.parent = .ok under ∧
      planning.name setting create.name under = .ok leaf ∧
      planning.roleOf setting create.role none = .ok create.role ∧
      step = .create index id ⟨create.name, leaf, under⟩ create.role
        (create.subscribed.getD true) ∧
      next.names = insert (setting.sibling under leaf) planning.names ∧
      next.children = (planning.joinParent under).children ∧
      next.rows = planning.rows.put id (madeRow id ⟨create.name, leaf, under⟩ create.role ""
        (create.subscribed.getD true) setting.snapshot.gmail) ∧
      next.roles = planning.roles ∧ next.steps = planning.steps := by
  rw [Planning.create] at h
  split at h
  · cases h
  rename_i under hunder
  split at h
  · cases h
  rename_i leaf hleaf
  split at h
  · cases h
  rename_i role hrole
  obtain ⟨rfl, -⟩ := roleOf_ok hrole
  obtain ⟨hnext, hstep⟩ := Prod.mk.inj h
  subst hnext
  refine ⟨under, leaf, hunder, hleaf, hrole, (Except.ok.inj hstep).symm, ?_, ?_, ?_, ?_, ?_⟩
  · simp
  · cases under <;> rfl
  · simp
  · simp
  · simp

/-- What a rename that passed moves and where. -/
theorem rename_ok {row : MailboxRow} {update : Update} {found : Option Naming}
    (h : planning.rename setting row update = (next, .ok found)) :
    (found = none ∧ next = planning) ∨
    ∃ under leaf, found = some ⟨update.name.getD row.name, leaf, under⟩ ∧
      planning.under setting (update.parent.getD row.parentId) = .ok under ∧
      (∀ parent, under = some parent → planning.liesUnder parent row.id = false) ∧
      leaf = setting.nfc (update.name.getD row.name) ∧
      setting.sibling under leaf ∉
        planning.names.erase (setting.sibling row.parentId row.name) ∧
      next.names = insert (setting.sibling under leaf)
        (planning.names.erase (setting.sibling row.parentId row.name)) ∧
      next.children = (if update.parent.getD row.parentId = row.parentId then planning
        else (planning.leaveParent row.parentId).joinParent under).children ∧
      next.rows = planning.rows ∧ next.roles = planning.roles ∧ next.steps = planning.steps := by
  rw [rename] at h
  simp only at h
  split at h
  · obtain ⟨rfl, hfound⟩ := Prod.mk.inj h
    exact .inl ⟨(Except.ok.inj hfound).symm, rfl⟩
  split at h
  · cases h
  split at h
  · cases h
  rename_i under hunder
  split at h
  · cases h
  rename_i hlies
  split at h
  · cases h
  rename_i leaf hleaf
  obtain ⟨hnfc, hfree⟩ := name_ok hleaf
  obtain ⟨rfl, hfound⟩ := Prod.mk.inj h
  refine .inr ⟨under, leaf, (Except.ok.inj hfound).symm, hunder, ?_, hnfc, hfree, ?_, ?_, ?_, ?_,
    ?_⟩
  · rintro parent rfl
    simpa using hlies
  · split <;> simp
  · by_cases hparent : update.parent.getD row.parentId = row.parentId
    · simp [hparent]
    · simp only [hparent, decide_false, Bool.false_eq_true, if_false]
      cases row.parentId <;> cases under <;> rfl
  · split <;> simp
  · split <;> simp
  · split <;> simp

theorem update_ok {index : Nat} {update : Update} {step : Step}
    (h : planning.update setting index update = (next, .ok step)) :
    ∃ row found, planning.row (setting.resolved update.id) = some row ∧
      setting.resolved update.id ∉ setting.destroying ∧
      planning.roleOf setting update.role (some row) = .ok update.role ∧
      planning.rename setting row update = (next, .ok found) ∧
      step = .update index row.id found (if found.isSome then next.followers row else [])
        (update.subscribed.filter fun wanted => wanted ≠ row.subscribed) update.role := by
  rw [Planning.update] at h
  split at h
  · cases h
  rename_i row hrow
  split at h
  · cases h
  rename_i hdestroying
  split at h
  · cases h
  rename_i role hrole
  obtain ⟨rfl, -⟩ := roleOf_ok hrole
  simp only at h
  split at h
  · cases h
  split at h
  · cases h
  rename_i after found hrename
  obtain ⟨rfl, hstep⟩ := Prod.mk.inj h
  exact ⟨row, found, hrow, hdestroying, hrole, hrename, (Except.ok.inj hstep).symm⟩

theorem destroy_ok {index : Nat} {id : String} {removeEmails : Bool} {step : Step}
    (h : planning.destroy setting index id removeEmails = (next, .ok step)) :
    ∃ row, planning.row (setting.resolved id) = some row ∧ row.role = none ∧
      planning.children row.id = 0 ∧ next = planning.leaveParent row.parentId ∧
      step = .destroy index row.id row.subscribed := by
  rw [Planning.destroy] at h
  split at h
  · cases h
  rename_i row hrow
  split at h
  · cases h
  rename_i hmay
  split at h
  · cases h
  rename_i hchildren
  split at h
  · cases h
  obtain ⟨rfl, hstep⟩ := Prod.mk.inj h
  refine ⟨row, hrow, ?_, by omega, rfl, (Except.ok.inj hstep).symm⟩
  have hright : setting.snapshot.may row .delete = true := not_not.1 hmay
  simp only [MailboxSnapshot.may, Bool.and_eq_true] at hright
  exact Option.isNone_iff_eq_none.1 hright.2

/-! ## An object that was refused -/

theorem create_refused {index : Nat} {id : MailboxId} {create : Create} {refusal : Refusal}
    (h : planning.create setting index id create = (next, .error refusal)) : next = planning := by
  rw [Planning.create] at h
  split at h
  · exact (Prod.mk.inj h).1.symm
  split at h
  · exact (Prod.mk.inj h).1.symm
  split at h
  · exact (Prod.mk.inj h).1.symm
  · cases h

theorem rename_refused {row : MailboxRow} {update : Update} {refusal : Refusal}
    (h : planning.rename setting row update = (next, .error refusal)) :
    ∃ names, next = { planning with names } ∧ planning.names ⊆ names := by
  rw [rename] at h
  simp only at h
  split at h
  · cases h
  split at h
  · exact ⟨planning.names, (Prod.mk.inj h).1.symm, Finset.Subset.refl _⟩
  split at h
  · exact ⟨planning.names, (Prod.mk.inj h).1.symm, Finset.Subset.refl _⟩
  split at h
  · exact ⟨planning.names, (Prod.mk.inj h).1.symm, Finset.Subset.refl _⟩
  split at h
  · exact ⟨_, (Prod.mk.inj h).1.symm, Finset.insert_erase_subset _ _⟩
  · cases h

theorem update_refused {index : Nat} {update : Update} {refusal : Refusal}
    (h : planning.update setting index update = (next, .error refusal)) :
    ∃ names, next = { planning with names } ∧ planning.names ⊆ names := by
  have same : ∀ {refused}, (planning, Except.error (α := Step) refused) = (next, .error refusal) →
      ∃ names, next = { planning with names } ∧ planning.names ⊆ names :=
    fun h => ⟨planning.names, (Prod.mk.inj h).1.symm, Finset.Subset.refl _⟩
  rw [Planning.update] at h
  split at h
  · exact same h
  split at h
  · exact same h
  split at h
  · exact same h
  simp only at h
  split at h
  · exact same h
  split at h
  · rename_i hrename
    obtain ⟨rfl, -⟩ := Prod.mk.inj h
    exact rename_refused hrename
  · cases h

theorem destroy_refused {index : Nat} {id : String} {removeEmails : Bool} {refusal : Refusal}
    (h : planning.destroy setting index id removeEmails = (next, .error refusal)) :
    next = planning := by
  rw [Planning.destroy] at h
  split at h
  · exact (Prod.mk.inj h).1.symm
  split at h
  · exact (Prod.mk.inj h).1.symm
  split at h
  · exact (Prod.mk.inj h).1.symm
  split at h
  · exact (Prod.mk.inj h).1.symm
  · cases h

/-- **A refused object leaves everything as it stood** and frees no name. -/
theorem check_refused {object : Object} {refusal : Refusal}
    (h : planning.check setting object = (next, .error refusal)) :
    ∃ names, next = { planning with names } ∧ planning.names ⊆ names := by
  cases object with
  | create index id create =>
    exact ⟨planning.names, create_refused h, Finset.Subset.refl _⟩
  | update index update => exact update_refused h
  | destroy index id removeEmails =>
    exact ⟨planning.names, destroy_refused h, Finset.Subset.refl _⟩

/-! ## Runs -/

theorem take_ok {object : Object} {step : Step}
    (h : planning.check setting object = (next, .ok step)) :
    planning.take setting object = { next with steps := next.steps ++ [step] } := by
  rw [take, h]
  rfl

theorem take_refused {object : Object} {refusal : Refusal}
    (h : planning.check setting object = (next, .error refusal)) :
    planning.take setting object =
      { next with refused := next.refused ++ [(object.index, refusal)] } := by
  rw [take, h]
  rfl

/-- A check adds no step; only its passing does. -/
theorem check_steps {object : Object} {answer : Except Refusal Step}
    (h : planning.check setting object = (next, answer)) : next.steps = planning.steps := by
  cases answer with
  | error refusal =>
    obtain ⟨names, rfl, -⟩ := check_refused h
    rfl
  | ok step =>
    cases object with
    | create index id create =>
      obtain ⟨-, -, -, -, -, -, -, -, -, -, hsteps⟩ := create_ok h
      exact hsteps
    | update index update =>
      obtain ⟨_, _, -, -, -, hrename, -⟩ := update_ok h
      rcases rename_ok hrename with ⟨-, rfl⟩ | ⟨-, -, -, -, -, -, -, -, -, -, -, hsteps⟩
      · rfl
      · exact hsteps
    | destroy index id removeEmails =>
      obtain ⟨-, -, -, -, rfl, -⟩ := destroy_ok h
      exact leaveParent_steps

theorem check_roles {object : Object} {answer : Except Refusal Step}
    (h : planning.check setting object = (next, answer)) : next.roles = planning.roles := by
  cases answer with
  | error refusal =>
    obtain ⟨names, rfl, -⟩ := check_refused h
    rfl
  | ok step =>
    cases object with
    | create index id create =>
      obtain ⟨-, -, -, -, -, -, -, -, -, hroles, -⟩ := create_ok h
      exact hroles
    | update index update =>
      obtain ⟨_, _, -, -, -, hrename, -⟩ := update_ok h
      rcases rename_ok hrename with ⟨-, rfl⟩ | ⟨-, -, -, -, -, -, -, -, -, -, hroles, -⟩
      · rfl
      · exact hroles
    | destroy index id removeEmails =>
      obtain ⟨-, -, -, -, rfl, -⟩ := destroy_ok h
      exact leaveParent_roles

theorem run_cons {object : Object} {objects : List Object} :
    planning.run setting (object :: objects) =
      (planning.take setting object).run setting objects := rfl

theorem run_append {before after : List Object} :
    planning.run setting (before ++ after) = (planning.run setting before).run setting after :=
  List.foldl_append

theorem run_concat {object : Object} {before : List Object} :
    planning.run setting (before ++ [object]) = (planning.run setting before).take setting object :=
  run_append

theorem take_steps (object : Object) : (planning.take setting object).steps = planning.steps ∨
    ∃ next step, planning.check setting object = (next, .ok step) ∧
      (planning.take setting object).steps = planning.steps ++ [step] := by
  cases hcheck : planning.check setting object with
  | mk next answer =>
    have hsteps := check_steps hcheck
    cases answer with
    | error refusal =>
      rw [take_refused hcheck]
      exact .inl hsteps
    | ok step =>
      rw [take_ok hcheck]
      exact .inr ⟨next, step, rfl, by rw [hsteps]⟩

theorem take_roles (object : Object) :
    (planning.take setting object).roles = planning.roles := by
  cases hcheck : planning.check setting object with
  | mk next answer =>
    have hroles := check_roles hcheck
    cases answer with
    | error refusal =>
      rw [take_refused hcheck]
      exact hroles
    | ok step =>
      rw [take_ok hcheck]
      exact hroles

@[simp] theorem run_roles (objects : List Object) :
    (planning.run setting objects).roles = planning.roles := by
  induction objects generalizing planning with
  | nil => rfl
  | cons object objects ih => rw [run_cons, ih, take_roles]

/-- **The steps of a run only grow**, each by an object that passed where it stood. -/
theorem run_steps (setting : Setting) (planning : Planning) (objects : List Object) : ∃ more,
    (planning.run setting objects).steps = planning.steps ++ more ∧
    ∀ step ∈ more, ∃ before object after next, objects = before ++ object :: after ∧
      (planning.run setting before).check setting object = (next, .ok step) := by
  induction objects generalizing planning with
  | nil => exact ⟨[], (List.append_nil _).symm, nofun⟩
  | cons object objects ih =>
    obtain ⟨more, hmore, hall⟩ := ih (planning.take setting object)
    have hlater : ∀ step ∈ more, ∃ before other after next,
        object :: objects = before ++ other :: after ∧
        (planning.run setting before).check setting other = (next, .ok step) := by
      intro step hstep
      obtain ⟨before, other, after, next, rfl, hcheck⟩ := hall step hstep
      exact ⟨object :: before, other, after, next, rfl, hcheck⟩
    rcases take_steps object with hsame | ⟨next, found, hcheck, hstep⟩
    · exact ⟨more, by rw [run_cons, hmore, hsame], hlater⟩
    · refine ⟨found :: more, by rw [run_cons, hmore, hstep, List.append_assoc]; rfl, ?_⟩
      intro step hin
      rcases List.mem_cons.1 hin with rfl | hin
      · exact ⟨[], object, objects, next, rfl, hcheck⟩
      · exact hlater step hin

/-- Every accepted step came from an object that passed where it stood. -/
theorem of_mem_steps {objects : List Object} {step : Step}
    (h : step ∈ (planning.run setting objects).steps) : step ∈ planning.steps ∨
    ∃ before object after next, objects = before ++ object :: after ∧
      (planning.run setting before).check setting object = (next, .ok step) := by
  obtain ⟨more, hmore, hall⟩ := run_steps setting planning objects
  rw [hmore, List.mem_append] at h
  exact h.imp_right (hall step)

/-- The first steps of a run are those of the objects up to some place, where the next step's object
stands. -/
theorem exists_before (setting : Setting) (planning : Planning) (objects : List Object)
    (more : List Step) (h : (planning.run setting objects).steps = planning.steps ++ more) (n : Nat) :
    ∃ before after, objects = before ++ after ∧
      (planning.run setting before).steps = planning.steps ++ more.take n ∧
      ∀ step, more[n]? = some step → ∃ object rest next, after = object :: rest ∧
        (planning.run setting before).check setting object = (next, .ok step) := by
  induction objects generalizing planning more n with
  | nil =>
    obtain rfl : more = [] := List.append_cancel_left (h.symm.trans (List.append_nil _).symm)
    exact ⟨[], [], rfl, by rw [List.take_nil, List.append_nil]; rfl, nofun⟩
  | cons object objects ih =>
    rcases take_steps object with hsame | ⟨next, step, hcheck, hstep⟩
    · have hsteps : ((planning.take setting object).run setting objects).steps =
          (planning.take setting object).steps ++ more := by
        rw [hsame]
        exact h
      obtain ⟨before, after, rfl, hsteps, hnext⟩ := ih (planning.take setting object) more hsteps n
      exact ⟨object :: before, after, rfl, by rw [run_cons, hsteps, hsame], hnext⟩
    · -- The object's own step is the first of them.
      obtain ⟨later, hlater, -⟩ := run_steps setting (planning.take setting object) objects
      have hmore : more = step :: later := by
        refine (List.append_right_inj planning.steps).1 ?_
        rw [← h, run_cons, hlater, hstep, List.append_assoc]
        rfl
      cases n with
      | zero =>
        refine ⟨[], object :: objects, rfl, by rw [List.take_zero, List.append_nil]; rfl, ?_⟩
        intro found hfound
        rw [hmore] at hfound
        obtain rfl := Option.some.inj hfound
        exact ⟨object, objects, next, rfl, hcheck⟩
      | succ n =>
        obtain ⟨before, after, rfl, hsteps, hnext⟩ :=
          ih (planning.take setting object) later hlater n
        refine ⟨object :: before, after, rfl, ?_, ?_⟩
        · rw [run_cons, hsteps, hstep, hmore, List.take_succ_cons, List.append_assoc]
          rfl
        · intro found hfound
          rw [hmore] at hfound
          exact hnext found hfound

/-- What passed where it stood is accepted. -/
theorem mem_steps {before : List Object} {object : Object} {step : Step} (after : List Object)
    (h : (planning.run setting before).check setting object = (next, .ok step)) :
    step ∈ (planning.run setting (before ++ object :: after)).steps := by
  rw [run_append, run_cons]
  obtain ⟨more, hmore, -⟩ := run_steps setting ((planning.run setting before).take setting object)
    after
  rw [hmore, take_ok h]
  simp

end Planning

end Huliho.Folders
