import Huliho.Folders.Following
import Huliho.Folders.Tree

/-!
# Subscriptions follow the names

A subscription belongs to a name, so every RENAME leaves those of the names it carries behind. The
work moves the ones of the followers, which the check reads off the rows as the call found them: a
mailbox moved under another by an earlier step is carried and does not follow
(**`carried_behind`**). **`subscriptions_follow`** is what a call ends with whose renames all carry
their followers.
-/

namespace Huliho.Folders

/-! ## The accepted steps -/

/-- The id a create takes. -/
def Step.madeId : Step → Option MailboxId
  | .create _ id _ _ _ => some id
  | _ => none

/-- Whether the step is a destroy. -/
def Step.isDestroy : Step → Bool
  | .destroy .. => true
  | _ => false

/-- What an accepted step says of the rows the check ended with. -/
structure Sound (setting : Setting) (final : Planning) (step : Step) : Prop where
  create : ∀ index id naming role subscribe, step = .create index id naming role subscribe →
    ∃ row, final.row id = some row ∧ row.subscribed = subscribe
  update : ∀ index id rename followers subscribe role,
    step = .update index id rename followers subscribe role → id ∉ setting.destroying ∧
    ∀ naming, rename = some naming → ∀ other, other ∈ followers ↔
      ∃ row, final.row other = some row ∧ row.subscribed = true ∧
        final.liesUnder other id = true
  destroy : ∀ index id subscribed, step = .destroy index id subscribed →
    id ∈ setting.destroying ∧ ∃ row, final.row id = some row ∧ row.subscribed = subscribed

namespace Planning

variable {setting : Setting} {planning next other : Planning}

theorem liesUnder_congr (h : planning.rows = other.rows) (id ancestor : MailboxId) :
    planning.liesUnder id ancestor = other.liesUnder id ancestor := by
  have hrow : ∀ id, planning.row id = other.row id := by
    intro id
    rw [row, row, h]
  have hin : ∀ steps id, planning.liesUnderIn ancestor steps id =
      other.liesUnderIn ancestor steps id := by
    intro steps
    induction steps with
    | zero => exact fun _ => rfl
    | succ steps ih =>
      intro id
      rw [liesUnderIn, liesUnderIn, hrow]
      split
      · rfl
      · split
        · rfl
        · exact ih _
  rw [liesUnder, liesUnder, h, hin]

/-- **The followers of a mailbox are the subscribed rows at or under it.** -/
theorem mem_followers (hkeyed : Keyed planning.rows) {own : MailboxRow} {id : MailboxId} :
    id ∈ planning.followers own ↔ ∃ row, planning.row id = some row ∧ row.subscribed = true ∧
      planning.liesUnder id own.id = true := by
  simp only [followers, List.mem_map, List.mem_insertionSort, List.mem_filter, Bool.and_eq_true]
  constructor
  · rintro ⟨-, ⟨row, ⟨hrow, hsubscribed, hlies⟩, rfl⟩, rfl⟩
    exact ⟨row, hkeyed.get_of_mem hrow, hsubscribed, hlies⟩
  · rintro ⟨row, hrow, hsubscribed, hlies⟩
    obtain rfl := hkeyed id row hrow
    exact ⟨_, ⟨row, ⟨mem_values hrow, hsubscribed, hlies⟩, rfl⟩, rfl⟩

/-- A row stays where no create takes its id. -/
theorem run_row {objects : List Object} {id : MailboxId}
    (h : id ∉ objects.filterMap Object.madeId) :
    (planning.run setting objects).row id = planning.row id := by
  induction objects generalizing planning with
  | nil => rfl
  | cons object objects ih =>
    have hrest : id ∉ objects.filterMap Object.madeId := by
      intro hin
      obtain ⟨found, hfound, hid⟩ := List.mem_filterMap.1 hin
      exact h (List.mem_filterMap.2 ⟨found, List.mem_cons_of_mem _ hfound, hid⟩)
    rw [run_cons, ih hrest, row, row]
    rcases take_rows setting planning object with hsame | ⟨_, made, _, _, _, _, rfl, -, hrows⟩
    · rw [hsame]
    · rw [hrows, Record.get_put, if_neg]
      rintro rfl
      exact h (List.mem_filterMap.2 ⟨_, List.mem_cons_self, rfl⟩)

end Planning

section Planned

variable {setting : Setting} {generated : String → MailboxId} {ask : Ask}

/-- **Every accepted step is sound.** -/
theorem sound_of_mem (hidentified : Identified setting.snapshot generated ask)
    (hdestroying : setting.destroying = ask.destroys.map setting.resolved) {step : Step}
    (hstep : step ∈ (planned setting generated ask).steps) :
    Sound setting (planned setting generated ask) step := by
  rcases Planning.of_mem_steps hstep with hin | ⟨before, object, after, next, hsplit, hcheck⟩
  · cases hin
  have hkeyed : Keyed ((contested setting generated ask).run setting before).rows :=
    Planning.run_keyed setting.snapshot.table_keyed before
  have hrows : object.isCreate = false → (planned setting generated ask).rows =
      ((contested setting generated ask).run setting before).rows := by
    intro hobject
    have hfirst : CreatesFirst (objectsOf generated ask) := objectsOf_createsFirst
    rw [planned, hsplit]
    rw [hsplit] at hfirst
    exact Planning.rows_of_split hfirst hobject
  cases object with
  | create index id create =>
    obtain ⟨under, leaf, -, -, -, rfl, -, -, hmade, -, -⟩ := Planning.create_ok hcheck
    refine ⟨fun index' id' naming role subscribe heq => ?_, (fun _ _ _ _ _ _ heq => by cases heq),
      fun _ _ _ heq => by cases heq⟩
    obtain ⟨-, rfl, -, -, rfl⟩ := Step.create.inj heq
    have hnodup := objectsOf_made_nodup hidentified.creations hidentified.apart
    rw [hsplit, List.filterMap_append] at hnodup
    have hafter : id ∉ after.filterMap Object.madeId :=
      (List.nodup_cons.1 (List.nodup_append.1 hnodup).2.1).1
    refine ⟨madeRow id ⟨create.name, leaf, under⟩ create.role "" (create.subscribed.getD true)
      setting.snapshot.gmail, ?_, rfl⟩
    rw [planned, hsplit, Planning.run_append, Planning.run_cons, Planning.run_row hafter,
      Planning.take_ok hcheck]
    show next.rows.get id = _
    rw [hmade, Record.get_put, if_pos rfl]
  | update index update =>
    obtain ⟨row, found, hrow, hspared, -, hrename, rfl⟩ := Planning.update_ok hcheck
    have hid : row.id = setting.resolved update.id := hkeyed _ _ hrow
    refine ⟨(fun _ _ _ _ _ heq => by cases heq), fun index' id' rename followers subscribe role heq => ?_,
      fun _ _ _ heq => by cases heq⟩
    obtain ⟨-, rfl, rfl, rfl, -, -⟩ := Step.update.inj heq
    refine ⟨hid ▸ hspared, ?_⟩
    rintro naming rfl other
    have hnext : next.rows = (planned setting generated ask).rows := by
      have hsame : next.rows = ((contested setting generated ask).run setting before).rows := by
        rcases Planning.check_rows hcheck with hsame | ⟨_, _, _, _, _, heq, -⟩
        · exact hsame
        · cases heq
      rw [hsame, hrows rfl]
    have hkeyed' : Keyed next.rows := by
      rw [hnext]
      exact Planning.run_keyed setting.snapshot.table_keyed _
    rw [Option.isSome_some, if_pos rfl, Planning.mem_followers hkeyed']
    simp only [Planning.row, Planning.liesUnder_congr hnext, hnext]
  | destroy index id removeEmails =>
    obtain ⟨row, hrow, -, -, -, rfl⟩ := Planning.destroy_ok hcheck
    have hid : row.id = setting.resolved id := hkeyed _ _ hrow
    refine ⟨(fun _ _ _ _ _ heq => by cases heq), (fun _ _ _ _ _ _ heq => by cases heq),
      fun index' id' subscribed heq => ?_⟩
    obtain ⟨-, rfl, rfl⟩ := Step.destroy.inj heq
    refine ⟨?_, row, ?_, rfl⟩
    · rw [hdestroying, hid]
      have hmem : Object.destroy index id removeEmails ∈ objectsOf generated ask := by
        rw [hsplit]
        exact List.mem_append_right _ List.mem_cons_self
      exact List.mem_map_of_mem (mem_destroys hmem)
    · rw [Planning.row, hrows rfl, hid]
      exact hrow

/-- The ids of the creates that passed, in order. -/
theorem steps_made (setting : Setting) (planning : Planning) (objects : List Object) :
    ∃ more, (planning.run setting objects).steps = planning.steps ++ more ∧
      (more.filterMap Step.madeId).Sublist (objects.filterMap Object.madeId) := by
  induction objects generalizing planning with
  | nil => exact ⟨[], (List.append_nil _).symm, List.Sublist.refl _⟩
  | cons object objects ih =>
    obtain ⟨more, hmore, hsub⟩ := ih (planning.take setting object)
    have hrest : (more.filterMap Step.madeId).Sublist
        ((object :: objects).filterMap Object.madeId) :=
      hsub.trans ((List.sublist_cons_self _ _).filterMap _)
    rcases Planning.take_steps object with hsame | ⟨next, step, hcheck, hstep⟩
    · exact ⟨more, by rw [Planning.run_cons, hmore, hsame], hrest⟩
    · refine ⟨step :: more, by rw [Planning.run_cons, hmore, hstep, List.append_assoc]; rfl, ?_⟩
      cases hmade : step.madeId with
      | none => rwa [List.filterMap_cons_none hmade]
      | some id =>
        cases step with
        | create index id' naming role subscribe =>
          obtain rfl : id' = id := Option.some.inj hmade
          rw [List.filterMap_cons_some hmade,
            List.filterMap_cons_some (madeId_of_create hcheck)]
          exact hsub.cons_cons _
        | update index id' rename followers subscribe role => cases hmade
        | destroy index id' subscribed => cases hmade

theorem isDestroy_of_check {planning next : Planning} {object : Object} {step : Step}
    (h : planning.check setting object = (next, .ok step)) : step.isDestroy = object.isDestroy := by
  cases object with
  | create index id create =>
    obtain ⟨_, _, -, -, -, rfl, -⟩ := Planning.create_ok h
    rfl
  | update index update =>
    obtain ⟨_, _, -, -, -, -, rfl⟩ := Planning.update_ok h
    rfl
  | destroy index id removeEmails =>
    obtain ⟨_, -, -, -, -, rfl⟩ := Planning.destroy_ok h
    rfl

/-- Behind an accepted destroy there are only destroys. -/
theorem planned_destroysLast :
    (planned setting generated ask).steps.Pairwise fun a b => a.isDestroy → b.isDestroy := by
  obtain ⟨firsts, lasts, hobjects, hfirsts, hlasts⟩ := objectsOf_destroys generated ask
  obtain ⟨before, hbefore, hall⟩ :=
    Planning.run_steps setting (contested setting generated ask) firsts
  obtain ⟨more, hmore, hall'⟩ :=
    Planning.run_steps setting ((contested setting generated ask).run setting firsts) lasts
  have hnot : ∀ step ∈ before, step.isDestroy = false := by
    intro step hstep
    obtain ⟨_, object, _, next, rfl, hcheck⟩ := hall step hstep
    rw [isDestroy_of_check hcheck]
    exact hfirsts object (List.mem_append_right _ List.mem_cons_self)
  have hdestroys : ∀ step ∈ more, step.isDestroy := by
    intro step hstep
    obtain ⟨_, object, _, next, rfl, hcheck⟩ := hall' step hstep
    rw [isDestroy_of_check hcheck]
    exact hlasts object (List.mem_append_right _ List.mem_cons_self)
  rw [planned, hobjects, Planning.run_append, hmore, hbefore]
  refine List.pairwise_append.2 ⟨?_, ?_, fun a _ b hb _ => hdestroys b hb⟩
  · refine List.pairwise_of_forall_mem_list fun a ha b _ h => ?_
    rw [hnot a ha] at h
    cases h
  · exact List.pairwise_of_forall_mem_list fun a _ b hb _ => hdestroys b hb

end Planned

/-! ## Runs -/

/-- The work before its first step. -/
def Sending.start (snapshot : MailboxSnapshot) (server : Server) : Sending where
  names := Names.ofRows snapshot.rows
  delimiters := none
  server

/-- What the work sends of a call. -/
def sent (setting : Setting) (generated : String → MailboxId) (ask : Ask) : List Step :=
  Sending.remote (planned setting generated ask).steps

/-- Every rename of the call carries its followers. -/
def CarriedThroughout (setting : Setting) (generated : String → MailboxId) (ask : Ask)
    (server : Server) : Prop :=
  ∀ before index id naming followers subscribe role after sending old name level,
    sent setting generated ask =
      before ++ .update index id (some naming) followers subscribe role :: after →
    (Sending.start setting.snapshot server).run setting before = some sending →
    sending.names.get id = some old → sending.named setting naming = some (name, level) →
    Carried (planned setting generated ask).rows
      (fun other => (planned setting generated ask).liesUnder other id) sending old name.wire
      followers

theorem ofRows_get (snapshot : MailboxSnapshot) (id : MailboxId) :
    (Names.ofRows snapshot.rows).get id = (snapshot.table.get id).map MailboxRow.imapName := by
  have hboth : ∀ (rows : List MailboxRow) (names : Names) (table : Record MailboxId MailboxRow),
      (∀ id, names.get id = (table.get id).map MailboxRow.imapName) → ∀ id,
      (rows.foldl (fun names row => Record.put names row.id row.imapName) names).get id =
        ((rows.foldl (fun table row => table.put row.id row) table).get id).map
          MailboxRow.imapName := by
    intro rows
    induction rows with
    | nil => exact fun _ _ h => h
    | cons row rows ih =>
      intro names table h id
      refine ih _ _ (fun id => ?_) id
      rw [Record.get_put, Record.get_put, h]
      split <;> rfl
  refine hboth snapshot.rows Table.empty Table.empty (fun id => ?_) id
  have hnone : ∀ {β : Type}, Record.get (Table.empty : Record MailboxId β) id = none :=
    Record.get_eq_none.2 fun _ => Table.not_mem_empty
  rw [hnone, hnone, Option.map_none]

/-- The work behind some steps. -/
structure Underway (setting : Setting) (rows : Record MailboxId MailboxRow) (steps : List Step)
    (sending : Sending) : Prop where
  following : Following setting rows steps sending
  /-- A mailbox with a name was a row or is made. -/
  named : ∀ id, sending.names.get id ≠ none → setting.snapshot.table.get id ≠ none ∨
    id ∈ steps.filterMap Step.madeId

section Runs

variable {setting : Setting} {generated : String → MailboxId} {ask : Ask} {server : Server}

theorem start_underway {rows : Record MailboxId MailboxRow}
    (hmatches : Matches setting.snapshot server)
    (hrows : ∀ id row, setting.snapshot.table.get id = some row → rows.get id = some row) :
    Underway setting rows [] (Sending.start setting.snapshot server) := by
  have hget : ∀ id wire, (Sending.start setting.snapshot server).names.get id = some wire ↔
      ∃ row, setting.snapshot.table.get id = some row ∧ row.imapName = wire := by
    intro id wire
    rw [Sending.start, ofRows_get, Option.map_eq_some_iff]
  refine ⟨⟨rfl, ?_, ?_, ?_, ?_, ?_⟩, ?_⟩
  · intro a b wire ha hb
    obtain ⟨row, hrow, rfl⟩ := (hget a wire).1 ha
    obtain ⟨other, hother, hsame⟩ := (hget b _).1 hb
    exact hmatches.apart a b row other hrow hother hsame.symm
  · intro wire
    refine (hmatches.existing wire).trans (exists_congr fun id => ?_)
    rw [hget]
    exact (and_iff_left fun _ _ hin => absurd hin List.not_mem_nil).symm
  · intro wire hin
    obtain ⟨id, row, hrow, hname, -⟩ := (hmatches.subscribed wire).1 hin
    exact (hmatches.existing wire).2 ⟨id, row, hrow, hname⟩
  · intro id hwanted
    obtain ⟨row, hrow, hsubscribed⟩ := hwanted.before
    exact ⟨row.imapName, (hget id _).2 ⟨row, hrow, rfl⟩,
      (hmatches.subscribed _).2 ⟨id, row, hrow, rfl, hsubscribed⟩⟩
  · intro id _ wire hwire hin
    obtain ⟨row, hrow, rfl⟩ := (hget id wire).1 hwire
    obtain ⟨other, found, hfound, hsame, hsubscribed⟩ := (hmatches.subscribed _).1 hin
    obtain rfl := hmatches.apart other id found row hfound hrow hsame
    exact ⟨found, hrows other found hfound, hsubscribed⟩
  · intro id hid
    refine .inl fun hnone => hid ?_
    rw [Sending.start, ofRows_get, hnone]
    rfl

theorem run_concat {start sending : Sending} {before : List Step} {step : Step}
    (h : start.run setting (before ++ [step]) = some sending) :
    ∃ middle, start.run setting before = some middle ∧ middle.send setting step = some sending := by
  rw [Sending.run, List.foldlM_append] at h
  obtain ⟨middle, hmiddle, hstep⟩ := Option.bind_eq_some_iff.1 h
  obtain ⟨last, hlast, hpure⟩ := Option.bind_eq_some_iff.1 hstep
  obtain rfl := Option.some.inj hpure
  exact ⟨middle, hmiddle, hlast⟩

/-! ### Who has a name -/

theorem create_names {sending next : Sending} {id : MailboxId} {naming : Naming} {subscribe : Bool}
    (h : sending.create setting id naming subscribe = some next) :
    ∃ wire, next.names = sending.names.put id wire := by
  rw [Sending.create] at h
  split at h
  · cases h
  split at h
  · cases h
  obtain rfl := Option.some.inj h
  exact ⟨_, rfl⟩

theorem rename_names {sending next : Sending} {id : MailboxId} {naming : Naming}
    {followers : List MailboxId} (h : sending.rename setting id naming followers = some next)
    {other : MailboxId} (hother : next.names.get other ≠ none) :
    sending.names.get other ≠ none := by
  rw [Sending.rename] at h
  split at h
  · split at h
    · cases h
    obtain rfl := Option.some.inj h
    rw [Names.get_renamed] at hother
    exact fun hnone => hother (by rw [hnone]; rfl)
  · cases h

theorem subscribe_names {sending next : Sending} {id : MailboxId} {wanted : Bool}
    (h : sending.subscribe id wanted = some next) : next.names = sending.names := by
  obtain ⟨_, -, rfl⟩ := Option.map_eq_some_iff.1 h
  rfl

theorem destroy_names {sending next : Sending} {id : MailboxId} {subscribed : Bool}
    (h : sending.destroy id subscribed = some next) : next.names = sending.names := by
  rw [Sending.destroy] at h
  split at h
  · cases h
  · obtain ⟨_, -, rfl⟩ := Option.map_eq_some_iff.1 h
    rfl

/-- An update is the rename, where there is one, and then the subscription. -/
theorem send_update {sending next : Sending} {index : Nat} {id : MailboxId}
    {rename : Option Naming} {followers : List MailboxId} {subscribe : Option Bool}
    {role : Option (Option String)}
    (h : sending.send setting (.update index id rename followers subscribe role) = some next) :
    ∃ middle, (rename = none ∧ middle = sending ∨ ∃ naming, rename = some naming ∧
        sending.rename setting id naming followers = some middle) ∧
      (subscribe = none ∧ next = middle ∨ ∃ wanted, subscribe = some wanted ∧
        middle.subscribe id wanted = some next) := by
  cases rename with
  | none =>
    refine ⟨sending, .inl ⟨rfl, rfl⟩, ?_⟩
    cases subscribe with
    | none => exact .inl ⟨rfl, (Option.some.inj h).symm⟩
    | some wanted => exact .inr ⟨wanted, rfl, h⟩
  | some naming =>
    cases subscribe with
    | none => exact ⟨next, .inr ⟨naming, rfl, h⟩, .inl ⟨rfl, rfl⟩⟩
    | some wanted =>
      obtain ⟨middle, hmiddle, hsubscribe⟩ := Option.bind_eq_some_iff.1 h
      exact ⟨middle, .inr ⟨naming, rfl, hmiddle⟩, .inr ⟨wanted, rfl, hsubscribe⟩⟩

/-- **One step of the work.** -/
theorem send_underway {steps : List Step} {step : Step} {sending next : Sending}
    (hsound : Sound setting (planned setting generated ask) step)
    (hspared : step.isDestroy = false → ∀ id, Spared steps id)
    (hfresh : ∀ id, step.madeId = some id →
      setting.snapshot.table.get id = none ∧ id ∉ steps.filterMap Step.madeId)
    (hcarried : ∀ index id naming followers subscribe role old name level,
      step = .update index id (some naming) followers subscribe role →
      sending.names.get id = some old → sending.named setting naming = some (name, level) →
      Carried (planned setting generated ask).rows
        (fun other => (planned setting generated ask).liesUnder other id) sending old name.wire
        followers)
    (h : Underway setting (planned setting generated ask).rows steps sending)
    (hsend : sending.send setting step = some next) :
    Underway setting (planned setting generated ask).rows (steps ++ [step]) next := by
  have hkept : (∀ id, next.names.get id ≠ none → sending.names.get id ≠ none ∨
      step.madeId = some id) → ∀ id, next.names.get id ≠ none →
      setting.snapshot.table.get id ≠ none ∨ id ∈ (steps ++ [step]).filterMap Step.madeId := by
    intro hnames id hid
    rw [List.filterMap_append]
    rcases hnames id hid with hold | hmade
    · exact (h.named id hold).imp_right (List.mem_append_left _)
    · exact .inr (List.mem_append_right _
        (List.mem_filterMap.2 ⟨step, List.mem_singleton_self _, hmade⟩))
  cases step with
  | create index id naming role subscribe =>
    have hnew : sending.names.get id = none := by
      by_contra hid
      obtain ⟨hrow, hmade⟩ := hfresh id rfl
      exact (h.named id hid).elim (fun hin => hin hrow) hmade
    refine ⟨create_following h.following (hspared rfl) hnew
      (hsound.create index id naming role subscribe rfl) hsend, hkept fun other hother => ?_⟩
    obtain ⟨wire, hnames⟩ := create_names hsend
    rw [hnames, Record.get_put] at hother
    by_cases hid : other = id
    · exact .inr (congrArg some hid.symm)
    · exact .inl (by rwa [if_neg hid] at hother)
  | update index id rename followers subscribe role =>
    obtain ⟨hid, hfollowers⟩ := hsound.update index id rename followers subscribe role rfl
    have hnone := hspared rfl
    -- The rename, if there is one, and then the subscription.
    obtain ⟨middle, hrename, hsubscribe⟩ := send_update hsend
    have hrenamed : Following setting (planned setting generated ask).rows steps middle ∧
        ∀ other, middle.names.get other ≠ none → sending.names.get other ≠ none := by
      rcases hrename with ⟨-, rfl⟩ | ⟨naming, rfl, hmiddle⟩
      · exact ⟨h.following, fun _ hother => hother⟩
      · exact ⟨rename_following h.following hnone (hfollowers naming rfl)
          (fun old name level hold hname => hcarried _ _ _ _ _ _ _ _ _ rfl hold hname) hmiddle,
          fun _ hother => rename_names hmiddle hother⟩
    obtain ⟨hfollowing, hnames⟩ := hrenamed
    rcases hsubscribe with ⟨rfl, rfl⟩ | ⟨wanted, rfl, hsubscribe⟩
    · exact ⟨hfollowing.concat (fun _ _ _ hstep => by cases hstep),
        hkept fun other hother => .inl (hnames other hother)⟩
    · refine ⟨subscribe_following hfollowing hnone hid hsubscribe, hkept fun other hother =>
        .inl (hnames other ?_)⟩
      rwa [subscribe_names hsubscribe] at hother
  | destroy index id subscribed =>
    obtain ⟨hin, hrow⟩ := hsound.destroy index id subscribed rfl
    refine ⟨destroy_following h.following hin hrow hsend, hkept fun other hother => .inl ?_⟩
    rwa [destroy_names hsend] at hother

/-- No create takes the id of a row. -/
theorem table_not_made (hidentified : Identified setting.snapshot generated ask) {id : MailboxId}
    {row : MailboxRow} (hrow : setting.snapshot.table.get id = some row) :
    id ∉ (objectsOf generated ask).filterMap Object.madeId := by
  intro hin
  obtain ⟨object, hobject, hid⟩ := List.mem_filterMap.1 hin
  cases object with
  | create index id' create =>
    obtain ⟨hcreate, rfl⟩ := mem_creates hobject
    obtain ⟨hmem, hrowid⟩ := MailboxSnapshot.row_of_table hrow
    exact hidentified.fresh create hcreate row hmem (hrowid.trans (Option.some.inj hid).symm)
  | update index update => cases hid
  | destroy index id removeEmails => cases hid

/-- The creates that are sent take ids of creates asked, each once. -/
theorem sent_made (hidentified : Identified setting.snapshot generated ask) :
    (∀ id ∈ (sent setting generated ask).filterMap Step.madeId,
      id ∈ (objectsOf generated ask).filterMap Object.madeId) ∧
      ((sent setting generated ask).filterMap Step.madeId).Nodup := by
  obtain ⟨more, hmore, hsub⟩ :=
    steps_made setting (contested setting generated ask) (objectsOf generated ask)
  have hsteps : (planned setting generated ask).steps = more := hmore
  have hsent : ((sent setting generated ask).filterMap Step.madeId).Sublist
      ((objectsOf generated ask).filterMap Object.madeId) := by
    rw [sent, Sending.remote, hsteps]
    exact (List.filter_sublist.filterMap _).trans hsub
  exact ⟨hsent.subset, hsent.nodup (objectsOf_made_nodup hidentified.creations hidentified.apart)⟩

/-- **The work through its steps.** -/
theorem run_underway (hidentified : Identified setting.snapshot generated ask)
    (hdestroying : setting.destroying = ask.destroys.map setting.resolved)
    (hmatches : Matches setting.snapshot server)
    (hcarried : CarriedThroughout setting generated ask server) (before after : List Step)
    (hsplit : sent setting generated ask = before ++ after) (sending : Sending)
    (hrun : (Sending.start setting.snapshot server).run setting before = some sending) :
    Underway setting (planned setting generated ask).rows before sending := by
  induction before using List.reverseRecOn generalizing after sending with
  | nil =>
    obtain rfl := Option.some.inj hrun
    refine start_underway hmatches fun id row hrow => ?_
    have hmade : id ∉ (objectsOf generated ask).filterMap Object.madeId :=
      table_not_made hidentified hrow
    have hsame : (planned setting generated ask).row id =
        (contested setting generated ask).row id := Planning.run_row hmade
    exact hsame.trans hrow
  | append_singleton before step ih =>
    obtain ⟨middle, hmiddle, hsend⟩ := run_concat hrun
    rw [List.append_assoc] at hsplit
    have hin : step ∈ sent setting generated ask := by
      rw [hsplit]
      exact List.mem_append_right _ List.mem_cons_self
    have hmem : step ∈ (planned setting generated ask).steps := (List.mem_filter.1 hin).1
    refine send_underway (sound_of_mem hidentified hdestroying hmem) ?_ ?_ ?_
      (ih _ hsplit middle hmiddle) hsend
    · intro hstep id index subscribed hdestroyed
      have hlast : (sent setting generated ask).Pairwise fun a b => a.isDestroy → b.isDestroy :=
        planned_destroysLast.filter _
      rw [hsplit] at hlast
      have hstep' := (List.pairwise_append.1 hlast).2.2 _ hdestroyed step List.mem_cons_self rfl
      rw [hstep] at hstep'
      cases hstep'
    · intro id hid
      obtain ⟨hobject, hnodup⟩ := sent_made hidentified
      rw [hsplit, List.filterMap_append, List.cons_append, List.nil_append,
        List.filterMap_cons_some hid] at hnodup
      refine ⟨Option.eq_none_iff_forall_ne_some.2 fun row hrow =>
        table_not_made hidentified hrow (hobject id ?_), fun hearlier =>
        (List.nodup_append.1 hnodup).2.2 id hearlier id List.mem_cons_self rfl⟩
      exact List.mem_filterMap.2 ⟨step, hin, hid⟩
    · rintro index id naming followers subscribe role old name level rfl hold hname
      exact hcarried before index id naming followers subscribe role after middle old name level
        hsplit hmiddle hold hname

/-- **Subscriptions follow the names.** Behind a call whose renames all carry their followers, every
mailbox subscribed before and neither destroyed nor unsubscribed is subscribed under the name it
has, and every name subscribed exists. -/
theorem subscriptions_follow {snapshot : MailboxSnapshot} {nfc : String → String}
    {generated : String → MailboxId} {references : String → Option MailboxId} {ask : Ask}
    {server : Server} {sending : Sending} (hidentified : Identified snapshot generated ask)
    (hmatches : Matches snapshot server)
    (hcarried : CarriedThroughout (settingOf snapshot nfc generated references ask) generated ask
      server)
    (hrun : (Sending.start snapshot server).run
      (settingOf snapshot nfc generated references ask)
      (sent (settingOf snapshot nfc generated references ask) generated ask) = some sending) :
    (∀ id, Wanted snapshot
        (planned (settingOf snapshot nfc generated references ask) generated ask).steps id →
      ∃ wire, sending.names.get id = some wire ∧ wire ∈ sending.server.subscribed) ∧
    sending.server.subscribed ⊆ sending.server.existing := by
  have hend := run_underway hidentified rfl hmatches hcarried _ [] (List.append_nil _).symm sending
    hrun
  refine ⟨fun id hwanted => hend.following.wanted id ⟨hwanted.before, ?_, ?_⟩,
    hend.following.exists_of_subscribed⟩
  · exact fun index subscribed hin => hwanted.spared index subscribed (List.mem_filter.1 hin).1
  · exact fun index rename followers role hin =>
      hwanted.kept index rename followers role (List.mem_filter.1 hin).1

end Runs

/-! ## A follower that is not seen -/

/-- The two mailboxes at the top, the first one subscribed. -/
def oneSubscribed : MailboxSnapshot :=
  { twoMailboxes with rows := [topMailbox "a", { topMailbox "b" with subscribed := false }] }

/-- The server of the two mailboxes. -/
def twoNames : Server where
  existing := {"a", "b"}
  delimiters := Delimiters.ofListing [("a", some '/'), ("b", some '/')]
  subscribed := {"a"}

/-- The first mailbox goes under the second one, which then takes another name. -/
def carriedBehind : Ask := ⟨[], [moving "a" "b", ⟨"b", some "c", none, none, none⟩], [], false⟩

theorem oneSubscribed_table {id : MailboxId} {row : MailboxRow}
    (h : oneSubscribed.table.get id = some row) :
    row = topMailbox "a" ∧ id = "a" ∨
      row = { topMailbox "b" with subscribed := false } ∧ id = "b" := by
  obtain ⟨hmem, rfl⟩ := MailboxSnapshot.row_of_table h
  rcases List.mem_pair.1 hmem with rfl | rfl
  · exact .inl ⟨rfl, rfl⟩
  · exact .inr ⟨rfl, rfl⟩

theorem oneSubscribed_matches : Matches oneSubscribed twoNames := by
  have ha : oneSubscribed.table.get "a" = some (topMailbox "a") := by
    decide
  have hb : oneSubscribed.table.get "b" =
      some { topMailbox "b" with subscribed := false } := by decide
  refine ⟨?_, fun wire => ⟨fun hin => ?_, ?_⟩, fun wire => ⟨fun hin => ?_, ?_⟩⟩
  · intro a b row other hrow hother hsame
    obtain ⟨rfl, rfl⟩ | ⟨rfl, rfl⟩ := oneSubscribed_table hrow <;>
      obtain ⟨rfl, rfl⟩ | ⟨rfl, rfl⟩ := oneSubscribed_table hother
    · rfl
    · exact absurd hsame (by decide)
    · exact absurd hsame (by decide)
    · rfl
  · obtain rfl | hin := Finset.mem_insert.1 hin
    · exact ⟨_, _, ha, rfl⟩
    · obtain rfl := Finset.mem_singleton.1 hin
      exact ⟨_, _, hb, rfl⟩
  · rintro ⟨id, row, hrow, rfl⟩
    obtain ⟨rfl, rfl⟩ | ⟨rfl, rfl⟩ := oneSubscribed_table hrow <;> decide
  · obtain rfl := Finset.mem_singleton.1 hin
    exact ⟨_, _, ha, rfl, rfl⟩
  · rintro ⟨id, row, hrow, rfl, hsubscribed⟩
    obtain ⟨rfl, rfl⟩ | ⟨rfl, rfl⟩ := oneSubscribed_table hrow
    · decide
    · cases hsubscribed

theorem oneSubscribed_identified {ask : Ask} (h : ask.creates = []) :
    Identified oneSubscribed id ask := by
  obtain ⟨hcreations, hapart, -, -, hmade⟩ := twoMailboxes_identified h
  refine ⟨hcreations, hapart, ?_, ?_, hmade⟩
  · rw [h]
    exact nofun
  · intro row hrow
    rcases List.mem_pair.1 hrow with rfl | rfl <;> decide

/-- **A mailbox moved under another is carried by its rename and does not follow**: it keeps the
subscription of a name that is gone. -/
theorem carried_behind : ¬ ∀ (snapshot : MailboxSnapshot) (nfc : String → String)
    (generated : String → MailboxId) (references : String → Option MailboxId) (ask : Ask)
    (server : Server) (sending : Sending), Identified snapshot generated ask →
    Matches snapshot server →
    (Sending.start snapshot server).run (settingOf snapshot nfc generated references ask)
      (sent (settingOf snapshot nfc generated references ask) generated ask) = some sending →
    (∀ id, Wanted snapshot
        (planned (settingOf snapshot nfc generated references ask) generated ask).steps id →
      ∃ wire, sending.names.get id = some wire ∧ wire ∈ sending.server.subscribed) ∧
    sending.server.subscribed ⊆ sending.server.existing := by
  intro hall
  have hrun : ((Sending.start oneSubscribed twoNames).run
      (settingOf oneSubscribed id id (fun _ => none) carriedBehind)
      (sent (settingOf oneSubscribed id id (fun _ => none) carriedBehind) id carriedBehind)).map
      (fun sending => (sending.server.subscribed, sending.server.existing)) =
      some ({"b/a"}, {"c/a", "c"}) := by decide
  obtain ⟨sending, hsending, hends⟩ := Option.map_eq_some_iff.1 hrun
  have hin := (hall oneSubscribed id id (fun _ => none) carriedBehind twoNames sending
    (oneSubscribed_identified rfl) oneSubscribed_matches hsending).2
  rw [(Prod.mk.inj hends).1, (Prod.mk.inj hends).2] at hin
  exact absurd hin (by decide)

theorem movedOnce_carried : CarriedThroughout
    (settingOf oneSubscribed id id (fun _ => none) movedOnce) id movedOnce twoNames := by
  intro before index made naming followers subscribe role after sending old name level hsplit hrun
    hold hname
  have hsent : sent (settingOf oneSubscribed id id (fun _ => none) movedOnce) id movedOnce =
      [.update 0 "a" (some ⟨"a", "a", some "b"⟩) ["a"] none none] := by decide
  rw [hsent] at hsplit
  rcases before with _ | ⟨first, before⟩
  · obtain ⟨heq, rfl⟩ := List.cons.inj hsplit
    obtain ⟨rfl, rfl, hnaming, rfl, rfl, rfl⟩ := Step.update.inj heq
    obtain rfl := Option.some.inj hnaming
    obtain rfl := Option.some.inj hrun
    have hold' : (Sending.start oneSubscribed twoNames).names.get "a" = some "a" := by decide
    obtain rfl := Option.some.inj (hold'.symm.trans hold)
    refine ⟨fun move hmove hin => ?_, List.pairwise_singleton _ _⟩
    obtain ⟨hget, -⟩ := Names.mem_moves.1 hmove
    have hmoved : move.old = "a" := Finset.mem_singleton.1 hin
    rw [hmoved] at hget
    have hget' := hget
    rw [Sending.start, ofRows_get, Option.map_eq_some_iff] at hget'
    obtain ⟨row, hrow, hwire⟩ := hget'
    obtain ⟨rfl, hid⟩ | ⟨rfl, -⟩ := oneSubscribed_table hrow
    · rw [hid]
      exact ⟨topMailbox "a", by decide, rfl, by decide⟩
    · exact absurd hwire (by decide)
  · simp at hsplit

/-- The subscription of a mailbox moved once is on its new name. -/
theorem movedOnce_follows : ∃ sending : Sending,
    (∃ wire, sending.names.get "a" = some wire ∧ wire ∈ sending.server.subscribed) ∧
      sending.server.subscribed ⊆ sending.server.existing := by
  have hrun : ((Sending.start oneSubscribed twoNames).run
      (settingOf oneSubscribed id id (fun _ => none) movedOnce)
      (sent (settingOf oneSubscribed id id (fun _ => none) movedOnce) id movedOnce)).isSome := by
    decide
  obtain ⟨sending, hsending⟩ := Option.isSome_iff_exists.1 hrun
  have hkept := subscriptions_follow (oneSubscribed_identified rfl) oneSubscribed_matches
    movedOnce_carried hsending
  have hsteps : (planned (settingOf oneSubscribed id id (fun _ => none) movedOnce) id
      movedOnce).steps = [.update 0 "a" (some ⟨"a", "a", some "b"⟩) ["a"] none none] := by decide
  refine ⟨sending, hkept.1 "a" ⟨⟨topMailbox "a", by decide, rfl⟩, ?_, ?_⟩, hkept.2⟩
  · rw [hsteps]
    intro index subscribed hin
    cases List.mem_singleton.1 hin
  · rw [hsteps]
    intro index rename followers role hin
    cases List.mem_singleton.1 hin

end Huliho.Folders
