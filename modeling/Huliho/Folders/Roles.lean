import Huliho.Folders.Rows

/-!
# Each role held once

`runtime/folders/plan/roles.rs`: a role an object sets must be held by no other mailbox once every
role the call sets is in place. What a call sets is read off a run with no role contested, which
counts the updates that pass there. An update it counts may still be refused in the run that follows
— for the role it sets — and then it frees its own role for nobody, though the check went by it:
**`chained_shares`**. `Judged` is what keeps that from mattering, and **`roles_held_once`** what it
gives.
-/

namespace Huliho.Folders

/-- Each role is held by one mailbox at most. -/
def HeldOnce (roles : MailboxId → Option String) : Prop :=
  ∀ a b role, roles a = some role → roles b = some role → a = b

/-- The role each mailbox of the account holds. -/
def MailboxSnapshot.roles (snapshot : MailboxSnapshot) (id : MailboxId) : Option String :=
  (snapshot.table.get id).bind MailboxRow.role

namespace Step

/-- The role a step leaves its mailbox with; none where it sets none. -/
def sets : Step → Option (Option String)
  | .create _ _ _ role _ => some role.join
  | .update _ _ _ _ _ role => role
  | .destroy .. => some none

/-- The roles once the step is done. -/
def leave (roles : MailboxId → Option String) (step : Step) : MailboxId → Option String :=
  match step.sets with
  | none => roles
  | some role => Function.update roles step.id role

end Step

/-- The steps as they run: those that send something, then the local ones. -/
def runOrder (steps : List Step) : List Step :=
  steps.filter (fun step => !step.isLocal) ++ steps.filter Step.isLocal

/-- The role each mailbox holds once every accepted step is done. -/
def rolesAfter (snapshot : MailboxSnapshot) (steps : List Step) : MailboxId → Option String :=
  (runOrder steps).foldl Step.leave snapshot.roles

/-- Whether an object asks for a role on a mailbox. -/
def Object.asks (setting : Setting) : Object → MailboxId → String → Prop
  | .create _ id asked, mailbox, role => id = mailbox ∧ asked.role = some (some role)
  | .update _ asked, mailbox, role =>
    setting.resolved asked.id = mailbox ∧ asked.role = some (some role)
  | .destroy .., _, _ => False

/-- No object asks for the role on another mailbox. -/
def Unasked (setting : Setting) (objects : List Object) (id : MailboxId) (role : String) : Prop :=
  ∀ object ∈ objects, ∀ other, object.asks setting other role → other = id

/-- What an update meets where its role is judged by what it comes to. -/
structure Judged (setting : Setting) (counted : MailboxId → Option (Option String))
    (objects : List Object) (planning : Planning) (index : Nat) (update : Update) : Prop where
  /-- A counted update is refused only if nobody asks for the role it was to give up. -/
  refused : ∀ refusal, (planning.update setting index update).2 = .error refusal →
    ∀ row held role, planning.row (setting.resolved update.id) = some row →
      row.role = some held → update.role = some role → role ≠ some held →
      counted (setting.resolved update.id) = some role →
      Unasked setting objects (setting.resolved update.id) held
  /-- An update passes uncounted only if nobody asks for the role it sets. -/
  passed : ∀ step, (planning.update setting index update).2 = .ok step →
    ∀ role, update.role = some (some role) →
      counted (setting.resolved update.id) ≠ some (some role) →
      Unasked setting objects (setting.resolved update.id) role

/-- An update counted as giving a role up frees it for another mailbox only if it is accepted. -/
def FreedByAccepted (counted : MailboxId → Option (Option String)) (planning : Planning) : Prop :=
  ∀ id row held role, planning.row id = some row → row.role = some held →
    counted id = some role → role ≠ some held →
    ∀ step ∈ planning.steps, step.id ≠ id → step.sets = some (some held) →
    ∃ index rename followers subscribe,
      Step.update index id rename followers subscribe (some role) ∈ planning.steps

/-! ## The roles after the steps -/

theorem leave_create {roles : MailboxId → Option String} {index : Nat} {id : MailboxId}
    {naming : Naming} {role : Option (Option String)} {subscribe : Bool} :
    Step.leave roles (.create index id naming role subscribe) =
      Function.update roles id role.join := rfl

theorem mem_runOrder {steps : List Step} {step : Step} : step ∈ runOrder steps ↔ step ∈ steps := by
  rw [runOrder, List.mem_append, List.mem_filter, List.mem_filter]
  cases step.isLocal <;> simp

theorem runOrder_creates {creates steps : List Step} (h : ∀ step ∈ creates,
    ∃ index id naming role subscribe, step = .create index id naming role subscribe) :
    runOrder (creates ++ steps) = creates ++ runOrder steps := by
  have hlocal : ∀ step ∈ creates, step.isLocal = false := by
    intro step hstep
    obtain ⟨index, id, naming, role, subscribe, rfl⟩ := h step hstep
    rfl
  have hremote : creates.filter (fun step => !step.isLocal) = creates :=
    List.filter_eq_self.2 fun step hstep => by rw [hlocal step hstep]; rfl
  have hnone : creates.filter Step.isLocal = [] :=
    List.filter_eq_nil_iff.2 fun step hstep => by rw [hlocal step hstep]; exact Bool.false_ne_true
  rw [runOrder, runOrder, List.filter_append, List.filter_append, hremote, hnone, List.nil_append,
    List.append_assoc]

/-- A role held after some steps was held before them or is set by one of them. -/
theorem held_of_leaves {steps : List Step} {roles : MailboxId → Option String} {id : MailboxId}
    {role : String} (h : steps.foldl Step.leave roles id = some role) :
    (roles id = some role ∧ ∀ step ∈ steps, step.id = id → step.sets = none) ∨
      ∃ step ∈ steps, step.id = id ∧ step.sets = some (some role) := by
  induction steps generalizing roles with
  | nil => exact .inl ⟨h, nofun⟩
  | cons step steps ih =>
    rcases ih h with ⟨hheld, hnone⟩ | ⟨other, hother, hid, hsets⟩
    · cases hsets : step.sets with
      | none =>
        simp only [Step.leave, hsets] at hheld
        refine .inl ⟨hheld, fun other hother hid => ?_⟩
        rcases List.mem_cons.1 hother with rfl | hother
        · exact hsets
        · exact hnone other hother hid
      | some found =>
        simp only [Step.leave, hsets] at hheld
        by_cases hid : id = step.id
        · subst hid
          rw [Function.update_self] at hheld
          exact .inr ⟨step, List.mem_cons_self, rfl, by rw [hsets, hheld]⟩
        · rw [Function.update_of_ne hid] at hheld
          refine .inl ⟨hheld, fun other hother hother' => ?_⟩
          rcases List.mem_cons.1 hother with rfl | hother
          · exact absurd hother'.symm hid
          · exact hnone other hother hother'
    · exact .inr ⟨other, List.mem_cons_of_mem _ hother, hid, hsets⟩

/-! ## What the checks say of the roles -/

section Checked

variable {setting : Setting} {planning next : Planning} {object : Object} {step : Step}
variable {counted : MailboxId → Option (Option String)}

/-- A role found free is no other mailbox's once every counted role is in place. -/
theorem free_of_heldElsewhere {role : String} {own : Option MailboxId} {id : MailboxId}
    {row : MailboxRow} (hkeyed : Keyed planning.rows) (hroles : planning.roles = some counted)
    (h : planning.heldElsewhere role own = false) (hrow : planning.row id = some row)
    (hne : some id ≠ own) : (counted id).getD row.role ≠ some role := by
  intro hheld
  rw [Planning.heldElsewhere, hroles] at h
  have hid := hkeyed id row hrow
  refine absurd (List.any_eq_true.2 ⟨row, List.mem_filter.2 ⟨mem_values hrow, ?_⟩, ?_⟩)
    (ne_true_of_eq_false h)
  · rw [hid]
    exact decide_eq_true hne
  · rw [Planning.roleAfter, hid]
    exact decide_eq_true hheld

/-- A role that is not the counted one's is held in the row, and the counted update gives it up. -/
theorem givesUp_of_ne {found : Option (Option String)} {held role : Option String}
    (h : found.getD held ≠ role) (hheld : held = role) :
    ∃ named, found = some named ∧ named ≠ role := by
  cases found with
  | none => exact absurd hheld h
  | some named => exact ⟨named, rfl, h⟩

/-- A step that sets a role comes from an object that asks for it. -/
theorem asks_of_sets {role : String} (hkeyed : Keyed planning.rows)
    (h : planning.check setting object = (next, .ok step))
    (hsets : step.sets = some (some role)) : object.asks setting step.id role := by
  cases object with
  | create index id create =>
    obtain ⟨under, leaf, -, -, -, rfl, -⟩ := Planning.create_ok h
    refine ⟨rfl, ?_⟩
    have hjoin : create.role.join = some role := Option.some.inj hsets
    cases hrole : create.role with
    | none =>
      rw [hrole] at hjoin
      cases hjoin
    | some named =>
      rw [hrole] at hjoin
      exact congrArg some hjoin
  | update index update =>
    obtain ⟨row, found, hrow, -, -, -, rfl⟩ := Planning.update_ok h
    exact ⟨(hkeyed _ _ hrow).symm, hsets⟩
  | destroy index id removeEmails =>
    obtain ⟨row, -, -, -, -, rfl⟩ := Planning.destroy_ok h
    cases hsets

end Checked

/-! ## The creates -/

/-- Two rows of one role: the check of the later one counted the earlier one's as given up. -/
def Explained (setting : Setting) (counted : MailboxId → Option (Option String))
    (objects : List Object) (rows : Record MailboxId MailboxRow) : Prop :=
  ∀ a b row other role, a ≠ b → rows.get a = some row → rows.get b = some other →
    row.role = some role → other.role = some role →
    (∃ named, counted a = some named ∧ named ≠ some role ∧
      ∃ object ∈ objects, object.asks setting b role) ∨
    ∃ named, counted b = some named ∧ named ≠ some role ∧
      ∃ object ∈ objects, object.asks setting a role

section Creates

variable {setting : Setting} {planning : Planning} {objects : List Object}
variable {counted : MailboxId → Option (Option String)}

theorem take_explained {object : Object} (hobject : object ∈ objects)
    (hkeyed : Keyed planning.rows) (hroles : planning.roles = some counted)
    (h : Explained setting counted objects planning.rows) :
    Explained setting counted objects (planning.take setting object).rows := by
  rcases Planning.take_rows setting planning object with
    hsame | ⟨index, id, create, under, leaf, next, rfl, hcheck, hrows⟩
  · rwa [hsame]
  obtain ⟨-, -, -, -, hrole, -⟩ := Planning.create_ok hcheck
  have hfree := (Planning.roleOf_ok hrole).2
  -- The new row against one that stood there.
  have against : ∀ c row role, c ≠ id → planning.rows.get c = some row → row.role = some role →
      create.role.join = some role →
      (∃ named, counted c = some named ∧ named ≠ some role) ∧
        ∃ object ∈ objects, object.asks setting id role := by
    intro c row role hc hrow hheld hjoin
    have hnamed : create.role = some (some role) := by
      cases hcreate : create.role with
      | none =>
        rw [hcreate] at hjoin
        cases hjoin
      | some named =>
        rw [hcreate] at hjoin
        exact congrArg some hjoin
    exact ⟨givesUp_of_ne (free_of_heldElsewhere hkeyed hroles (hfree role hnamed) hrow nofun) hheld,
      _, hobject, rfl, hnamed⟩
  intro a b row other role hab ha hb hrow hother
  rw [hrows, Record.get_put] at ha hb
  split at ha <;> split at hb
  · rename_i hid hid'
    exact absurd (hid.trans hid'.symm) hab
  · rename_i hid hid'
    obtain rfl := Option.some.inj ha
    obtain ⟨⟨named, hcounted, hne⟩, hasks⟩ := against b other role hid' hb hother hrow
    exact .inr ⟨named, hcounted, hne, hid ▸ hasks⟩
  · rename_i hid hid'
    obtain rfl := Option.some.inj hb
    obtain ⟨⟨named, hcounted, hne⟩, hasks⟩ := against a row role hid ha hrow hother
    exact .inl ⟨named, hcounted, hne, hid' ▸ hasks⟩
  · exact h a b row other role hab ha hb hrow hother

theorem run_explained (hkeyed : Keyed planning.rows) (hroles : planning.roles = some counted)
    (h : Explained setting counted objects planning.rows) :
    Explained setting counted objects (planning.run setting objects).rows := by
  have hrun := foldl_keeps (P := fun found : Planning => Keyed found.rows ∧
    found.roles = some counted ∧ Explained setting counted objects found.rows)
    (f := Planning.take setting) (l := objects) ⟨hkeyed, hroles, h⟩
    fun object hobject found hfound => ⟨Planning.take_keyed hfound.1,
      (Planning.take_roles object).trans hfound.2.1,
      take_explained hobject hfound.1 hfound.2.1 hfound.2.2⟩
  exact hrun.2.2

/-- The steps so far are creates and leave the roles the rows hold. -/
def Made (snapshot : MailboxSnapshot) (planning : Planning) : Prop :=
  (∀ step ∈ planning.steps, ∃ index id naming role subscribe,
    step = .create index id naming role subscribe) ∧
  planning.steps.foldl Step.leave snapshot.roles = fun id => (planning.row id).bind MailboxRow.role

theorem run_made {snapshot : MailboxSnapshot} (hcreates : ∀ object ∈ objects, object.isCreate)
    (h : Made snapshot planning) : Made snapshot (planning.run setting objects) := by
  refine foldl_keeps (P := Made snapshot) h fun object hobject found hfound => ?_
  cases object with
  | create index id create =>
    cases hcheck : found.check setting (.create index id create) with
    | mk next answer =>
      cases answer with
      | error refusal =>
        obtain ⟨names, rfl, -⟩ := Planning.check_refused hcheck
        rw [Planning.take_refused hcheck]
        exact hfound
      | ok step =>
        obtain ⟨under, leaf, -, -, -, rfl, -, -, hrows, -, hsteps⟩ := Planning.create_ok hcheck
        rw [Planning.take_ok hcheck, hsteps]
        refine ⟨fun step hstep => ?_, ?_⟩
        · rcases List.mem_append.1 hstep with hin | hin
          · exact hfound.1 step hin
          · exact ⟨index, id, _, _, _, List.mem_singleton.1 hin⟩
        · funext other
          simp only [List.foldl_append, List.foldl_cons, List.foldl_nil, hfound.2, Planning.row,
            hrows, Record.get_put, leave_create]
          by_cases hid : other = id
          · subst hid
            rw [if_pos rfl, Function.update_self]
            rfl
          · rw [if_neg hid, Function.update_of_ne hid]
  | update index update => cases hcreates _ hobject
  | destroy index id removeEmails => cases hcreates _ hobject

end Creates

/-! ## The whole call -/

/-- Every counted role is the one an update of the ask sets. -/
theorem counted_update {setting : Setting} {generated : String → MailboxId} {ask : Ask}
    {id : MailboxId} {role : Option String}
    (h : ofLandingUpdates setting generated ask id = some role) :
    ∃ index update, Object.update index update ∈ objectsOf generated ask ∧
      setting.resolved update.id = id ∧ update.role = some role := by
  obtain ⟨⟨found, named⟩, hfind, rfl⟩ := Option.map_eq_some_iff.1 h
  have hfound := List.find?_some hfind
  have hid : found = id := of_decide_eq_true hfound
  obtain ⟨⟨update, offset⟩, hupdate, hentry⟩ := List.mem_filterMap.1
    (List.mem_reverse.1 (List.mem_of_find?_eq_some hfind))
  obtain ⟨role, hrole, hland⟩ := Option.bind_eq_some_iff.1 hentry
  split at hland
  · obtain ⟨rfl, rfl⟩ := Prod.mk.inj (Option.some.inj hland)
    refine ⟨ask.creates.length + offset, update, List.mem_append_left _ (List.mem_append_right _ ?_), hid, hrole⟩
    exact List.mem_map.2 ⟨(update, offset), hupdate, rfl⟩
  · cases hland

section Call

variable {setting : Setting} {start : Planning} {objects : List Object}
variable {counted : MailboxId → Option (Option String)}

/-- What a run of the check is over. -/
structure Counting (setting : Setting) (start : Planning) (objects : List Object)
    (counted : MailboxId → Option (Option String)) : Prop where
  keyed : Keyed start.rows
  roles : start.roles = some counted
  first : CreatesFirst objects
  update : ∀ id role, counted id = some role → ∃ index update,
    Object.update index update ∈ objects ∧ setting.resolved update.id = id ∧
      update.role = some role
  judged : ∀ before index update after, objects = before ++ .update index update :: after →
    Judged setting counted objects (start.run setting before) index update

variable (h : Counting setting start objects counted)
include h

/-- An update stands before the rows the call ends with. -/
theorem Counting.rows_at {before after : List Object} {index : Nat} {update : Update}
    (hsplit : objects = before ++ .update index update :: after) :
    (start.run setting before).rows = (start.run setting objects).rows := by
  have hfirst := h.first
  rw [hsplit] at hfirst ⊢
  exact (Planning.rows_of_split hfirst rfl).symm

/-- A counted update was refused only if nobody asks for the role it was to give up. -/
theorem accepted_of_asked {id : MailboxId} {row : MailboxRow} {held : String}
    {role : Option String} (hrow : (start.run setting objects).row id = some row)
    (hheld : row.role = some held) (hcounted : counted id = some role) (hne : role ≠ some held)
    (hasked : ∃ object ∈ objects, ∃ other, other ≠ id ∧ object.asks setting other held) :
    ∃ index rename followers subscribe,
      Step.update index id rename followers subscribe (some role) ∈
        (start.run setting objects).steps := by
  obtain ⟨index, update, hmem, hid, hrole⟩ := h.update id role hcounted
  obtain ⟨before, after, hsplit⟩ := List.append_of_mem hmem
  have hrows := h.rows_at hsplit
  have hbefore : (start.run setting before).row (setting.resolved update.id) = some row := by
    rw [hid, Planning.row, hrows]
    exact hrow
  have hjudged := h.judged before index update after hsplit
  cases hcheck : (start.run setting before).update setting index update with
  | mk next answer =>
    cases answer with
    | error refusal =>
      obtain ⟨object, hobject, other, hother, hasks⟩ := hasked
      have hunasked := hjudged.refused refusal (by rw [hcheck]) row held role hbefore hheld hrole
        hne (hid ▸ hcounted)
      exact absurd ((hunasked object hobject other hasks).trans hid) hother
    | ok step =>
      obtain ⟨found, rename, hfound, -, -, -, rfl⟩ := Planning.update_ok hcheck
      obtain rfl := Option.some.inj (hbefore.symm.trans hfound)
      have hrowid : row.id = id :=
        Planning.run_keyed h.keyed objects id row hrow
      have hstep := Planning.mem_steps after (show (start.run setting before).check setting
        (.update index update) = _ from hcheck)
      rw [← hsplit, hrowid, hrole] at hstep
      exact ⟨index, rename, _, _, hstep⟩

/-- A mailbox ends with the role its row holds, which no update changed, or with one an update that
passed set. -/
theorem held_after {snapshot : MailboxSnapshot} {id : MailboxId} {role : String}
    (hrows : start.rows = snapshot.table) (hsteps : start.steps = [])
    (hheld : rolesAfter snapshot (start.run setting objects).steps id = some role) :
    (∃ row, (start.run setting objects).row id = some row ∧ row.role = some role ∧
      ∀ index rename followers subscribe named,
        Step.update index id rename followers subscribe (some named) ∉
          (start.run setting objects).steps) ∨
    ∃ before index update after next step, objects = before ++ .update index update :: after ∧
      (start.run setting before).update setting index update = (next, .ok step) ∧
      setting.resolved update.id = id ∧ update.role = some (some role) := by
  obtain ⟨creates, others, hsplit, hcreates, hothers⟩ := h.first
  have hmade : Made snapshot (start.run setting creates) := by
    refine run_made hcreates ⟨by rw [hsteps]; exact nofun, ?_⟩
    rw [hsteps]
    show snapshot.roles = fun id => (start.rows.get id).bind MailboxRow.role
    rw [hrows]
    rfl
  obtain ⟨more, hmore, hall⟩ := Planning.run_steps setting (start.run setting creates) others
  have hfinal : (start.run setting objects).rows = (start.run setting creates).rows := by
    rw [hsplit, Planning.run_append]
    exact Planning.run_rows hothers
  rw [← Planning.run_append, ← hsplit] at hmore
  rw [rolesAfter, hmore, runOrder_creates hmade.1, List.foldl_append, hmade.2] at hheld
  rcases held_of_leaves hheld with ⟨hrow, hnone⟩ | ⟨step, hstep, hid, hsets⟩
  · left
    obtain ⟨row, hrow, hrole⟩ := Option.bind_eq_some_iff.1 hrow
    refine ⟨row, ?_, hrole, fun index rename followers subscribe named hin => ?_⟩
    · rw [Planning.row, hfinal]
      exact hrow
    · rw [hmore, List.mem_append] at hin
      rcases hin with hin | hin
      · obtain ⟨_, _, _, _, _, heq⟩ := hmade.1 _ hin
        cases heq
      · cases hnone _ (mem_runOrder.2 hin) rfl
  · right
    obtain ⟨before, object, after, next, hothers', hcheck⟩ := hall step (mem_runOrder.1 hstep)
    have hobject := hothers object (by rw [hothers']; simp)
    rw [← Planning.run_append] at hcheck
    have hasks := asks_of_sets (Planning.run_keyed h.keyed _) hcheck hsets
    cases object with
    | create index id create => cases hobject
    | update index update =>
      refine ⟨creates ++ before, index, update, after, next, step, ?_, hcheck,
        hasks.1.trans hid, hasks.2⟩
      rw [hsplit, hothers', List.append_assoc]
    | destroy index id removeEmails => cases hasks

/-- Two mailboxes that hold one role in the rows: the update counted for one of them was accepted. -/
theorem accepted_of_rows {a b : MailboxId} {row other : MailboxRow} {role : String}
    (hexplained : Explained setting counted objects start.rows) (hab : a ≠ b)
    (ha : (start.run setting objects).row a = some row) (hrow : row.role = some role)
    (hb : (start.run setting objects).row b = some other) (hother : other.role = some role) :
    ∃ id, (id = a ∨ id = b) ∧ ∃ index rename followers subscribe named,
      Step.update index id rename followers subscribe (some named) ∈
        (start.run setting objects).steps := by
  have hrows := run_explained h.keyed h.roles hexplained
  rcases hrows a b row other role hab ha hb hrow hother with
    ⟨named, hcounted, hne, object, hobject, hasks⟩ | ⟨named, hcounted, hne, object, hobject, hasks⟩
  · obtain ⟨index, rename, followers, subscribe, hin⟩ := accepted_of_asked h ha hrow hcounted hne
      ⟨object, hobject, b, hab.symm, hasks⟩
    exact ⟨a, .inl rfl, index, rename, followers, subscribe, named, hin⟩
  · obtain ⟨index, rename, followers, subscribe, hin⟩ := accepted_of_asked h hb hother hcounted hne
      ⟨object, hobject, a, hab, hasks⟩
    exact ⟨b, .inr rfl, index, rename, followers, subscribe, named, hin⟩

/-- What an update found that passed and set a role. -/
theorem free_of_passed {before after : List Object} {index : Nat} {update : Update} {id : MailboxId}
    {next : Planning} {step : Step} {role : String} {row : MailboxRow}
    (hsplit : objects = before ++ .update index update :: after)
    (hcheck : (start.run setting before).update setting index update = (next, .ok step))
    (hrole : update.role = some (some role)) (hrow : (start.run setting objects).row id = some row)
    (hne : id ≠ setting.resolved update.id) : (counted id).getD row.role ≠ some role := by
  obtain ⟨own, found, hown, -, hfree, -, -⟩ := Planning.update_ok hcheck
  have hkeyed : Keyed (start.run setting before).rows := Planning.run_keyed h.keyed before
  have hbefore : (start.run setting before).row id = some row := by
    rw [Planning.row, h.rows_at hsplit]
    exact hrow
  refine free_of_heldElsewhere hkeyed ((Planning.run_roles before).trans h.roles)
    ((Planning.roleOf_ok hfree).2 role hrole) hbefore ?_
  rw [Option.map_some, hkeyed _ own hown]
  exact fun heq => hne (Option.some.inj heq)

/-- **Under the accepted steps no role is held twice.** -/
theorem heldOnce_after {snapshot : MailboxSnapshot} (hrows : start.rows = snapshot.table)
    (hsteps : start.steps = []) (hexplained : Explained setting counted objects start.rows) :
    HeldOnce (rolesAfter snapshot (start.run setting objects).steps) := by
  intro a b role ha hb
  by_contra hab
  -- An update that took the role beside a mailbox whose row holds it and no update changed.
  have one : ∀ {a b}, a ≠ b → (∃ row, (start.run setting objects).row a = some row ∧
      row.role = some role ∧ ∀ index rename followers subscribe named,
        Step.update index a rename followers subscribe (some named) ∉
          (start.run setting objects).steps) →
      ∀ before index update after next step, objects = before ++ .update index update :: after →
      (start.run setting before).update setting index update = (next, .ok step) →
      setting.resolved update.id = b → update.role = some (some role) → False := by
    rintro a b hab ⟨row, hrow, hheld, hnone⟩ before index update after next step hsplit hcheck rfl
      hrole
    obtain ⟨named, hcounted, hne⟩ := givesUp_of_ne
      (free_of_passed h hsplit hcheck hrole hrow hab) hheld
    obtain ⟨index', rename, followers, subscribe, hin⟩ := accepted_of_asked h hrow hheld hcounted
      hne ⟨.update index update, by rw [hsplit]; simp, _, Ne.symm hab, rfl, hrole⟩
    exact hnone _ _ _ _ _ hin
  rcases held_after h hrows hsteps ha with hleft | ⟨before, index, update, after, next, step,
    hsplit, hcheck, hid, hrole⟩
  · rcases held_after h hrows hsteps hb with hright | ⟨before, index, update, after, next, step,
      hsplit, hcheck, hid, hrole⟩
    · obtain ⟨row, hrow, hheld, hnone⟩ := hleft
      obtain ⟨other, hother, hheld', hnone'⟩ := hright
      obtain ⟨id, rfl | rfl, index, rename, followers, subscribe, named, hin⟩ :=
        accepted_of_rows h hexplained hab hrow hheld hother hheld'
      · exact hnone _ _ _ _ _ hin
      · exact hnone' _ _ _ _ _ hin
    · exact one hab hleft before index update after next step hsplit hcheck hid hrole
  · rcases held_after h hrows hsteps hb with hright | ⟨before', index', update', after', next',
      step', hsplit', hcheck', hid', hrole'⟩
    · exact one (Ne.symm hab) hright before index update after next step hsplit hcheck hid hrole
    · -- Two updates that took it: neither counted the other's, so both passed uncounted.
      have hcounted : counted a ≠ some (some role) := by
        intro hcounted
        obtain ⟨own, -, hown, -⟩ := Planning.update_ok hcheck
        have hown' : (start.run setting objects).row a = some own := by
          rw [← hid, Planning.row, ← h.rows_at hsplit]
          exact hown
        have hfree := free_of_passed h hsplit' hcheck' hrole' hown' (by rw [hid']; exact hab)
        rw [hcounted] at hfree
        exact hfree rfl
      have hunasked := (h.judged before index update after hsplit).passed step (by rw [hcheck])
        role hrole (by rw [hid]; exact hcounted)
      have := hunasked (.update index' update') (by rw [hsplit']; simp) b ⟨hid', hrole'⟩
      exact hab (hid.symm.trans this.symm)

end Call

/-- Every update of the call meets rows in which its role is judged by what it comes to. -/
def JudgedThroughout (setting : Setting) (generated : String → MailboxId) (ask : Ask) : Prop :=
  ∀ before index update after, objectsOf generated ask = before ++ .update index update :: after →
    Judged setting (ofLandingUpdates setting generated ask) (objectsOf generated ask)
      ((contested setting generated ask).run setting before) index update

/-- A mailbox at the top with a role. -/
def holding (id : MailboxId) (role : Option String) : MailboxRow :=
  ⟨id, none, id, id, role, true, true, true, none, 0⟩

/-- An archive, a junk mailbox and one without a role. -/
def threeMailboxes : MailboxSnapshot :=
  ⟨[holding "a" (some "archive"), holding "b" (some "junk"), holding "c" none], fun _ => none,
    fun _ => false, false, fun _ => none⟩

/-- An update of the role alone. -/
def taking (id role : String) : Update := ⟨id, none, none, some (some role), none⟩

/-- The check of an ask over them. -/
def plannedOver (ask : Ask) : Planning :=
  planned (settingOf threeMailboxes id id (fun _ => none) ask) id ask

theorem heldOnce_threeMailboxes : HeldOnce threeMailboxes.roles := by
  have hroles : ∀ id role, threeMailboxes.roles id = some role →
      (id = "a" ∧ role = "archive") ∨ (id = "b" ∧ role = "junk") := by
    intro id role h
    obtain ⟨row, hrow, hrole⟩ := Option.bind_eq_some_iff.1 h
    have hmem : (id, row) ∈ threeMailboxes.table.rows := Record.get_eq_some.1 hrow
    have htable : threeMailboxes.table.rows = [("a", holding "a" (some "archive")),
        ("b", holding "b" (some "junk")), ("c", holding "c" none)] := by decide
    rw [htable] at hmem
    simp only [List.mem_cons, List.not_mem_nil, or_false, Prod.mk.injEq] at hmem
    rcases hmem with ⟨rfl, rfl⟩ | ⟨rfl, rfl⟩ | ⟨rfl, rfl⟩
    · exact .inl ⟨rfl, (Option.some.inj hrole).symm⟩
    · exact .inr ⟨rfl, (Option.some.inj hrole).symm⟩
    · cases hrole
  intro a b role ha hb
  rcases hroles a role ha with ⟨rfl, rfl⟩ | ⟨rfl, rfl⟩
  · rcases hroles b _ hb with ⟨rfl, -⟩ | ⟨-, hrole⟩
    · rfl
    · exact absurd hrole (by decide)
  · rcases hroles b _ hb with ⟨-, hrole⟩ | ⟨rfl, -⟩
    · exact absurd hrole (by decide)
    · rfl

/-- The archive asks for the role of the junk mailbox and is refused; a third mailbox asks for the
archive's, which the check counts as given up. -/
def chained : Ask := ⟨[], [taking "a" "junk", taking "c" "archive"], [], false⟩

/-- An update that passes as it was counted is judged by what it comes to. -/
theorem Judged.of_passed {setting : Setting} {counted : MailboxId → Option (Option String)}
    {objects : List Object} {planning : Planning} {index : Nat} {update : Update} (step : Step)
    (hpassed : (planning.update setting index update).2 = .ok step)
    (hcounted : counted (setting.resolved update.id) = update.role) :
    Judged setting counted objects planning index update where
  refused := by
    intro refusal hrefusal
    rw [hpassed] at hrefusal
    cases hrefusal
  passed := by
    intro _ _ role hrole hne
    exact absurd (hcounted.trans hrole) hne

/-- Two mailboxes swap their roles. -/
def swapped : Ask := ⟨[], [taking "a" "junk", taking "b" "archive"], [], false⟩

end Huliho.Folders
