import Huliho.Store.Arrivals

/-!
# Rows leave under an open sequence

Once a write has opened its sequence it logs straight into the log, so there the journal is the log
itself: `Logged before t` says that under the newest sequence it tracks every email and every
thread. `leave`, `vanish` and `renumber` keep it (`Logged.leave`, `Logged.vanish`,
`Logged.renumber`).

An upsert that lands on an entry is right only where that entry is not `created`: the rows that
leave were there before the write, or share their thread with one that stays. That is what
`Departs` asks.
-/

namespace Huliho

/-- The log under the newest sequence tracks what the write did since `before`. -/
structure Logged (before t : Tables) : Prop where
  tracks : Tracks (fun _ => False) (fun x : Item => entryAt t t.sequence x.slot) (view before)
    (view t)
  hashes : HashLive t
  members : MembersLive t
  below : LogBelow t
  sequence : t.sequence = before.sequence + 1
  other : ∀ s x, s ≤ before.sequence → entryAt t s x = entryAt before s x

variable {before t : Tables}

/-- The rows that leave were there before the write, and so was a thread they leave empty. -/
structure Departs (before t : Tables) (folder : MailboxId) (leaving : Leaving) : Prop where
  emails : ∀ r ∈ t.emails, Leaves folder leaving r → ∃ r' ∈ before.emails, r'.id = r.id
  threads : ∀ r ∈ t.emails, Leaves folder leaving r →
    (∀ o ∈ t.emails, o.threadId = r.threadId → Leaves folder leaving o) →
    Holding before r.threadId

/-! ## What `leave` logs -/

theorem mem_leavingMailboxes {folder : MailboxId} {leaving : Leaving} {x : Slot} :
    x ∈ leavingMailboxes t folder leaving ↔ ∃ mailbox, x = (.mailbox, mailbox) ∧
      mailbox ≠ folder ∧ ∃ r ∈ t.emails, Leaves folder leaving r ∧ MemberOf t r.id mailbox := by
  simp only [leavingMailboxes, List.mem_dedup, List.mem_map, List.mem_filter, decide_eq_true_eq,
    MemberOf, Table.mem_def]
  constructor
  · rintro ⟨m, ⟨hm, hne, r, hr, hid, hl⟩, rfl⟩
    exact ⟨m.mailboxId, rfl, hne, r, hr, hl, m, hm, hid.symm, rfl⟩
  · rintro ⟨_, rfl, hne, r, hr, hl, m, hm, hid, rfl⟩
    exact ⟨m, ⟨hm, hne, r, hr, hid.symm, hl⟩, rfl⟩

theorem mem_leavingThreads {folder : MailboxId} {leaving : Leaving} {x : Slot} :
    x ∈ leavingThreads t folder leaving ↔
      ∃ r ∈ t.emails, Leaves folder leaving r ∧ x = (.thread, r.threadId) := by
  simp [leavingThreads, Table.mem_def, and_assoc, eq_comm]

theorem mem_leavingEmails {folder : MailboxId} {leaving : Leaving} {x : Slot} :
    x ∈ leavingEmails t folder leaving ↔
      ∃ r ∈ t.emails, Leaves folder leaving r ∧ x = (.email, r.id) := by
  simp [leavingEmails, Table.mem_def, and_assoc, eq_comm]

theorem leavingThreadKind_of_stays {folder : MailboxId} {leaving : Leaving} {thread : ThreadId}
    (h : ∃ o ∈ t.emails, o.threadId = thread ∧ ¬ Leaves folder leaving o) :
    leavingThreadKind t folder leaving (.thread, thread) = .updated := if_pos h

theorem leavingThreadKind_of_empties {folder : MailboxId} {leaving : Leaving} {thread : ThreadId}
    (h : ¬ ∃ o ∈ t.emails, o.threadId = thread ∧ ¬ Leaves folder leaving o) :
    leavingThreadKind t folder leaving (.thread, thread) = .destroyed := if_neg h

theorem nodup_leavingEmails {folder : MailboxId} {leaving : Leaving} :
    (leavingEmails t folder leaving).Nodup := by
  rw [leavingEmails, List.Nodup, List.pairwise_map]
  exact (t.emails.apart.filter _).imp fun h hc => h.1 (congrArg Prod.snd hc)

theorem nodup_leavingThreads {folder : MailboxId} {leaving : Leaving} :
    (leavingThreads t folder leaving).Nodup := List.nodup_dedup _

theorem nodup_leavingMailboxes {folder : MailboxId} {leaving : Leaving} :
    (leavingMailboxes t folder leaving).Nodup := List.nodup_dedup _

/-- The log `leave` writes, before a row is gone. -/
def leaveLog (t : Tables) (folder : MailboxId) (s : Nat) (leaving : Leaving) : Tables :=
  logEach (logEach (logEach t s (fun _ => .updated) (fun _ kind => kind)
      (leavingMailboxes t folder leaving)) s (leavingThreadKind t folder leaving)
      threadOnConflict (leavingThreads t folder leaving)) s (fun _ => .destroyed)
    (fun excluded _ => excluded) (leavingEmails t folder leaving)

theorem logsUnder_leaveLog {folder : MailboxId} {s : Nat} {leaving : Leaving} :
    LogsUnder s t (leaveLog t folder s leaving) :=
  (logsUnder_logEach.trans logsUnder_logEach).trans logsUnder_logEach

/-- The entries `leave` leaves under its sequence, type by type. -/
theorem entryAt_leaveLog_email {folder : MailboxId} {s : Nat} {leaving : Leaving} {id : EmailId} :
    entryAt (leaveLog t folder s leaving) s (.email, id) =
      if (.email, id) ∈ leavingEmails t folder leaving then some .destroyed
      else entryAt t s (.email, id) := by
  have hm : (ObjectType.email, id) ∉ leavingMailboxes t folder leaving := fun h => by
    obtain ⟨_, h, -⟩ := mem_leavingMailboxes.1 h
    simp at h
  have hth : (ObjectType.email, id) ∉ leavingThreads t folder leaving := fun h => by
    obtain ⟨_, -, -, h⟩ := mem_leavingThreads.1 h
    simp at h
  rw [leaveLog, entryAt_logEach nodup_leavingEmails, entryAt_logEach nodup_leavingThreads,
    entryAt_logEach nodup_leavingMailboxes]
  simp only [true_and, hm, hth, if_false]
  split
  · cases entryAt t s (.email, id) <;> rfl
  · rfl

theorem entryAt_leaveLog_thread {folder : MailboxId} {s : Nat} {leaving : Leaving}
    {thread : ThreadId} :
    entryAt (leaveLog t folder s leaving) s (.thread, thread) =
      if (.thread, thread) ∈ leavingThreads t folder leaving then
        some (((entryAt t s (.thread, thread)).map
          (threadOnConflict (leavingThreadKind t folder leaving (.thread, thread)))).getD
            (leavingThreadKind t folder leaving (.thread, thread)))
      else entryAt t s (.thread, thread) := by
  have hm : (ObjectType.thread, thread) ∉ leavingMailboxes t folder leaving := fun h => by
    obtain ⟨_, h, -⟩ := mem_leavingMailboxes.1 h
    simp at h
  have he : (ObjectType.thread, thread) ∉ leavingEmails t folder leaving := fun h => by
    obtain ⟨_, -, -, h⟩ := mem_leavingEmails.1 h
    simp at h
  rw [leaveLog, entryAt_logEach nodup_leavingEmails, entryAt_logEach nodup_leavingThreads,
    entryAt_logEach nodup_leavingMailboxes]
  simp only [true_and, hm, he, if_false]

theorem entryAt_leaveLog_mailbox {folder : MailboxId} {s : Nat} {leaving : Leaving}
    {mailbox : MailboxId} :
    entryAt (leaveLog t folder s leaving) s (.mailbox, mailbox) =
      if (.mailbox, mailbox) ∈ leavingMailboxes t folder leaving then
        some ((entryAt t s (.mailbox, mailbox)).getD .updated)
      else entryAt t s (.mailbox, mailbox) := by
  have hth : (ObjectType.mailbox, mailbox) ∉ leavingThreads t folder leaving := fun h => by
    obtain ⟨_, -, -, h⟩ := mem_leavingThreads.1 h
    simp at h
  have he : (ObjectType.mailbox, mailbox) ∉ leavingEmails t folder leaving := fun h => by
    obtain ⟨_, -, -, h⟩ := mem_leavingEmails.1 h
    simp at h
  rw [leaveLog, entryAt_logEach nodup_leavingEmails, entryAt_logEach nodup_leavingThreads,
    entryAt_logEach nodup_leavingMailboxes]
  simp only [true_and, hth, he, if_false]
  split
  · cases entryAt t s (.mailbox, mailbox) <;> rfl
  · rfl

/-! ## What `leave` leaves -/

/-- What is left of the rows, in one place. -/
structure LeftBehind (t : Tables) (folder : MailboxId) (s : Nat) (leaving : Leaving)
    (t' : Tables) : Prop where
  emails : ∀ r, r ∈ t'.emails ↔ r ∈ t.emails ∧ ¬ Leaves folder leaving r
  memberships : ∀ m, m ∈ t'.memberships ↔
    m ∈ t.memberships ∧ ∀ r ∈ t.emails, Leaves folder leaving r → r.id ≠ m.emailId
  messageIds : ∀ r, r ∈ t'.messageIds ↔ r ∈ t.messageIds ∧
    entryAt t' s (.thread, r.threadId) ≠ some .destroyed
  entries : ∀ s' x, entryAt t' s' x = entryAt (leaveLog t folder s leaving) s' x
  below : LogBelow t → s ≤ t.sequence → LogBelow t'
  frame : t' = { t with
    emails := t'.emails
    memberships := t'.memberships
    messageIds := t'.messageIds
    changes := t'.changes }

theorem leave_spec (t : Tables) (folder : MailboxId) (s : Nat) (leaving : Leaving) :
    LeftBehind t folder s leaving (leave t folder s leaving) := by
  have hlog : (leaveLog t folder s leaving).changes = (leave t folder s leaving).changes := rfl
  have hentries : ∀ s' x, entryAt (leave t folder s leaving) s' x =
      entryAt (leaveLog t folder s leaving) s' x := fun s' x => by rw [entryAt, entryAt, hlog]
  refine ⟨fun r => Table.mem_delete, fun m => ?_, fun r => ?_, hentries, fun ht hs => ?_, ?_⟩
  · refine Table.mem_delete.trans (and_congr_right fun _ => ?_)
    push Not
    exact Iff.rfl
  · refine Table.mem_delete.trans (and_congr_right fun _ => not_congr ?_)
    rw [entryAt_eq_some]
    constructor
    · rintro ⟨⟨s₁, o, i, k⟩, hrow, rfl, rfl, rfl, rfl⟩
      exact hrow
    · intro hrow
      exact ⟨_, hrow, rfl, rfl, rfl, rfl⟩
  · exact fun row hrow => logsUnder_leaveLog.below ht hs row hrow
  · have hframe : leaveLog t folder s leaving =
        { t with changes := (leaveLog t folder s leaving).changes } := logsUnder_leaveLog.frame
    have hleave : leave t folder s leaving = { leaveLog t folder s leaving with
        emails := (leave t folder s leaving).emails
        memberships := (leave t folder s leaving).memberships
        messageIds := (leave t folder s leaving).messageIds } := rfl
    rw [hleave, hframe]

/-- What a departure changes under a sequence stays inside it. -/
theorem LeftBehind.other {folder : MailboxId} {s : Nat} {leaving : Leaving} {t' : Tables}
    (h : LeftBehind t folder s leaving t') {s' : Nat} (hs : s' ≠ s) (x : Slot) :
    entryAt t' s' x = entryAt t s' x := by
  rw [h.entries, logsUnder_leaveLog.other s' x hs]

/-! ## The journal -/

/-- A step under the open sequence. -/
theorem Logged.step (h : Logged before t) {t' : Tables} (hq : t'.sequence = t.sequence)
    (hs : ∀ x : Item, Stepped False False (entryAt t t.sequence x.slot)
      (entryAt t' t.sequence x.slot) (view t x) (view t' x))
    (hh : HashLive t') (hm : MembersLive t') (hb : LogBelow t')
    (ho : ∀ s x, s ≠ t.sequence → entryAt t' s x = entryAt t s x) : Logged before t' := by
  refine ⟨?_, hh, hm, hb, hq.trans h.sequence, fun s x hs' => ?_⟩
  · rw [hq]
    exact h.tracks.step hs
  · have := h.sequence
    rw [ho s x (by omega), h.other s x hs']

/-- Tables that moved where no client looks, the log aside. -/
theorem Logged.unseen (h : Logged before t) {t' : Tables} (hu : Unseen t t') :
    Logged before t' := by
  have he : ∀ s x, entryAt t' s x = entryAt t s x := fun s x => by rw [entryAt, entryAt, hu.changes]
  refine h.step hu.sequence (fun x => ?_) (h.hashes.unseen hu) (h.members.unseen hu)
    (fun row hrow => ?_) fun s x _ => he s x
  · exact .kept (he _ _) (hu.view x) id
  · rw [hu.sequence]
    rw [hu.changes] at hrow
    exact h.below row hrow

/-- An entry about an object that is there is not `destroyed`, one about an object that was there
is not `created`. -/
theorem Logged.entry_ne_destroyed (h : Logged before t) {x : Item} (hx : (view t x).isSome) :
    entryAt t t.sequence x.slot ≠ some .destroyed := fun hc => by
  have := h.tracks.agrees x
  rw [hc] at this
  have := this.2
  rw [this] at hx
  cases hx

theorem Logged.entry_ne_created (h : Logged before t) {x : Item} (hx : (view before x).isSome) :
    entryAt t t.sequence x.slot ≠ some .created := fun hc => by
  have := h.tracks.agrees x
  rw [hc] at this
  have := this.1
  rw [this] at hx
  cases hx

/-- An upsert that overwrites lands as a note would, on anything but `created`. -/
theorem fold_destroyed {e : Option ChangeKind} (h : e ≠ some .created) :
    fold e .destroyed = some .destroyed := by
  rcases e with _ | ⟨_ | _ | _⟩
  · rfl
  · exact absurd rfl h
  · rfl
  · rfl

theorem getD_updated (e : Option ChangeKind) : some (e.getD .updated) = fold e .updated := by
  rcases e with _ | ⟨_ | _ | _⟩ <;> rfl

/-- **Rows leave.** -/
theorem Logged.leave (h : Logged before t) {folder : MailboxId} {leaving : Leaving}
    (hd : Departs before t folder leaving) :
    Logged before (leave t folder t.sequence leaving) := by
  have hl := leave_spec t folder t.sequence leaving
  revert hl
  generalize Huliho.leave t folder t.sequence leaving = t'
  intro hl
  have hseq : t'.sequence = t.sequence := by rw [hl.frame]
  have hkept : ∀ thread, (∃ o ∈ t.emails, o.threadId = thread ∧ ¬ Leaves folder leaving o) ↔
      Holding t' thread := fun thread => by
    simp only [Holding, hl.emails]
    exact exists_congr fun o => by rw [and_assoc, and_congr_right_iff]; exact fun _ => and_comm
  refine h.step hseq (fun x => ?_) (fun r hr => ?_) (fun m hm => ?_) (hl.below h.below le_rfl)
    fun s x hs => hl.other hs x
  · rw [hl.entries]
    cases x with
    | email id =>
      rw [Item.slot, entryAt_leaveLog_email]
      by_cases hin : (ObjectType.email, id) ∈ leavingEmails t folder leaving
      · obtain ⟨r, hr, hlv, hid⟩ := mem_leavingEmails.1 hin
        obtain rfl : id = r.id := congrArg Prod.snd hid
        obtain ⟨r', hr', hid'⟩ := hd.emails r hr hlv
        have hne := h.entry_ne_created (view_email_isSome.2 ⟨r', hr', hid'⟩)
        refine .noted .destroyed ?_ ⟨view_email_isSome.2 ⟨r, hr, rfl⟩, ?_⟩
        · rw [if_pos hin]
          exact (fold_destroyed hne).symm
        · refine view_email_eq_none.2 fun s hs hc => ?_
          obtain ⟨hs, hns⟩ := (hl.emails s).1 hs
          rw [EmailRecord.eq_of_id hs hr hc] at hns
          exact hns hlv
      · have hstay : ∀ r ∈ t.emails, r.id = id → ¬ Leaves folder leaving r :=
          fun r hr hid hlv => hin (mem_leavingEmails.2 ⟨r, hr, hlv, by rw [hid]⟩)
        refine .kept (if_neg hin) ?_ False.elim
        refine view_email_congr (fun thread keywords => ?_) fun mailbox => ?_
        · simp only [EmailAt, hl.emails]
          constructor
          · rintro ⟨r, ⟨hr, -⟩, hrest⟩
            exact ⟨r, hr, hrest⟩
          · rintro ⟨r, hr, hid, hrest⟩
            exact ⟨r, ⟨hr, hstay r hr hid⟩, hid, hrest⟩
        · simp only [MemberOf, hl.memberships]
          constructor
          · rintro ⟨m, ⟨hm, -⟩, hrest⟩
            exact ⟨m, hm, hrest⟩
          · rintro ⟨m, hm, hid, hrest⟩
            exact ⟨m, ⟨hm, fun r hr hlv hc => hstay r hr (hc.trans hid) hlv⟩, hid, hrest⟩
    | thread thread =>
      rw [Item.slot, entryAt_leaveLog_thread]
      by_cases hin : (ObjectType.thread, thread) ∈ leavingThreads t folder leaving
      · obtain ⟨r, hr, hlv, hth⟩ := mem_leavingThreads.1 hin
        obtain rfl : thread = r.threadId := congrArg Prod.snd hth
        have hwas : (view t (.thread r.threadId)).isSome := view_thread_isSome.2 ⟨r, hr, rfl⟩
        have hnd := h.entry_ne_destroyed hwas
        rw [if_pos hin]
        by_cases hstay : ∃ o ∈ t.emails, o.threadId = r.threadId ∧ ¬ Leaves folder leaving o
        · rw [leavingThreadKind_of_stays hstay]
          refine .noted .updated ?_ ⟨hwas, view_thread_isSome.2 ((hkept _).1 hstay)⟩
          simp only [Item.slot] at hnd
          cases he : entryAt t t.sequence (.thread, r.threadId) with
          | none => rfl
          | some k =>
            rw [he] at hnd
            cases k with
            | created => rfl
            | updated => rfl
            | destroyed => exact absurd rfl hnd
        · rw [leavingThreadKind_of_empties hstay]
          have hall : ∀ o ∈ t.emails, o.threadId = r.threadId → Leaves folder leaving o :=
            fun o ho hoth => by
              by_contra hc
              exact hstay ⟨o, ho, hoth, hc⟩
          have hnc := h.entry_ne_created (view_thread_isSome.2 (hd.threads r hr hlv hall))
          refine .noted .destroyed ?_
            ⟨hwas, view_thread_eq_none.2 fun hc => hstay ((hkept _).2 hc)⟩
          simp only [Item.slot] at hnc ⊢
          rw [fold_destroyed hnc]
          cases entryAt t t.sequence (.thread, r.threadId) <;> rfl
      · have hstay : ∀ r ∈ t.emails, r.threadId = thread → ¬ Leaves folder leaving r :=
          fun r hr hth hlv => hin (mem_leavingThreads.2 ⟨r, hr, hlv, by rw [hth]⟩)
        refine .kept (if_neg hin) (view_thread_congr fun id => ?_) False.elim
        simp only [InThread, hl.emails]
        constructor
        · rintro ⟨r, ⟨hr, -⟩, hrest⟩
          exact ⟨r, hr, hrest⟩
        · rintro ⟨r, hr, hid, hth⟩
          exact ⟨r, ⟨hr, hstay r hr hth⟩, hid, hth⟩
  · -- A hash whose thread emptied is dropped, since the thread is logged as destroyed.
    obtain ⟨hr, hne⟩ := (hl.messageIds r).1 hr
    obtain ⟨o, ho, hoth⟩ := h.hashes r hr
    rw [← hkept]
    by_contra hc
    have hall : ∀ o ∈ t.emails, o.threadId = r.threadId → Leaves folder leaving o :=
      fun o ho hoth => by
        by_contra hlv
        exact hc ⟨o, ho, hoth, hlv⟩
    have hin : (ObjectType.thread, r.threadId) ∈ leavingThreads t folder leaving :=
      mem_leavingThreads.2 ⟨o, ho, hall o ho hoth, by rw [hoth]⟩
    refine hne ?_
    rw [hl.entries, entryAt_leaveLog_thread, if_pos hin, leavingThreadKind_of_empties hc]
    cases entryAt t t.sequence (.thread, r.threadId) <;> rfl
  · obtain ⟨hm, hne⟩ := (hl.memberships m).1 hm
    obtain ⟨r, hr, hid⟩ := h.members m hm
    exact ⟨r, (hl.emails r).2 ⟨hr, fun hlv => hne r hr hlv hid⟩, hid⟩

/-! ## Folders that vanish or are renumbered -/

theorem mem_membersOf {mailbox : MailboxId} {id : EmailId} :
    (ObjectType.email, id) ∈ membersOf t mailbox ↔ MemberOf t id mailbox := by
  simp only [membersOf, List.mem_map, List.mem_filter, decide_eq_true_eq, Prod.mk.injEq, true_and,
    MemberOf, Table.mem_def]
  exact exists_congr fun m => by rw [and_assoc, and_congr_right_iff]; exact fun _ => and_comm

theorem nodup_membersOf {mailbox : MailboxId} : (membersOf t mailbox).Nodup := by
  rw [membersOf, List.Nodup, List.pairwise_map]
  refine (t.memberships.apart.filter _).imp_of_mem fun ha hb h hc => ?_
  have ha := of_decide_eq_true (List.mem_filter.1 ha).2
  have hb := of_decide_eq_true (List.mem_filter.1 hb).2
  exact h ⟨congrArg Prod.snd hc, ha.trans hb.symm⟩

/-- **A folder vanishes.** Its rows leave, then the rows of other folders lose the membership and
read as updated. -/
theorem Logged.vanish (h : Logged before t) {folder : MailboxId}
    (hd : Departs before t folder .all) : Logged before (vanish t folder t.sequence) := by
  have h₁ := h.leave hd
  have hq : (Huliho.leave t folder t.sequence .all).sequence = t.sequence := by
    rw [(leave_spec t folder t.sequence .all).frame]
  unfold Huliho.vanish
  simp only
  revert h₁ hq
  generalize Huliho.leave t folder t.sequence .all = t₁
  intro h₁ hq
  rw [← hq]
  have hunder : LogsUnder t₁.sequence t₁ (logEach t₁ t₁.sequence (fun _ => .updated)
      (fun _ kind => kind) (membersOf t₁ folder)) := logsUnder_logEach
  refine h₁.step (by rw [forgetProgress, hunder.frame]) (fun x => ?_) ?_ (fun m hm => ?_)
    (fun row hrow => hunder.below h₁.below le_rfl row hrow) fun s x hs => hunder.other s x hs
  · show Stepped _ _ _ (entryAt (logEach t₁ _ _ _ _) _ _) _ _
    rw [entryAt_logEach nodup_membersOf]
    cases x with
    | email id =>
      simp only [Item.slot, true_and]
      by_cases hin : (ObjectType.email, id) ∈ membersOf t₁ folder
      · obtain ⟨m, hm, hid, -⟩ := mem_membersOf.1 hin
        obtain ⟨r, hr, hr'⟩ := h₁.members m hm
        have hex : ∃ r ∈ t₁.emails, r.id = id := ⟨r, hr, hr'.trans hid⟩
        refine .noted .updated ?_ ⟨view_email_isSome.2 hex, ?_⟩
        · rw [if_pos hin, ← getD_updated]
          cases entryAt t₁ t₁.sequence (.email, id) <;> rfl
        · refine view_email_isSome.2 ?_
          rw [forgetProgress, hunder.frame]
          exact hex
      · refine .kept (if_neg hin) ?_ False.elim
        refine view_email_congr (fun thread keywords => ?_) fun mailbox => ?_
        · rw [EmailAt, EmailAt, forgetProgress, hunder.frame]
        · simp only [MemberOf, forgetProgress, Table.mem_delete]
          constructor
          · rintro ⟨m, ⟨hm, -⟩, hrest⟩
            exact ⟨m, hm, hrest⟩
          · rintro ⟨m, hm, hid, hmb⟩
            refine ⟨m, ⟨hm, fun hc => hin (mem_membersOf.2 ⟨m, hm, hid, hc⟩)⟩, hid, hmb⟩
    | thread thread =>
      have hnot : (ObjectType.thread, thread) ∉ membersOf t₁ folder := fun hc => by
        simp [membersOf] at hc
      simp only [Item.slot, hnot, and_false, if_false]
      refine .kept rfl (view_thread_congr fun id => ?_) False.elim
      rw [InThread, InThread, forgetProgress, hunder.frame]
  · have := h₁.hashes
    rw [forgetProgress, hunder.frame]
    exact this
  · rw [forgetProgress, hunder.frame] at hm ⊢
    exact h₁.members m (Table.mem_delete.1 hm).1

/-- **A folder is renumbered.** What waited from before leaves, the rest waits where no client
looks. -/
theorem Logged.renumber (h : Logged before t) {folder : MailboxId} {t' : Tables}
    (hd : Departs before t folder (renumberLeaving t folder))
    (hr : renumber t folder t.sequence = .ok t') : Logged before t' := by
  simp only [Huliho.renumber, Except.bind_eq_ok, constrained_eq_ok, pure, Except.pure,
    Except.ok.injEq] at hr
  obtain ⟨emails, he, rfl⟩ := hr
  -- The rows wait under their negative UIDs first, then the progress is forgotten.
  have hwait : Unseen (Huliho.leave t folder t.sequence (renumberLeaving t folder))
      { Huliho.leave t folder t.sequence (renumberLeaving t folder) with emails } := by
    refine Unseen.of_map (f := EmailRecord.wait folder) (fun r => Table.mem_update? he)
      (fun r => ?_) rfl
    unfold EmailRecord.wait
    split <;> exact ⟨rfl, rfl, rfl⟩
  refine (h.leave hd).unseen ?_
  exact ⟨hwait.emails, rfl, rfl, rfl, rfl⟩

end Huliho
