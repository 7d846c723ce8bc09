import Huliho.Store.Joins

/-!
# A Gmail message arrives

An arrival writes one row — new, or the one that holds its message id, wherever that lies — and
brings the thread the server names, the thread the row was in and the memberships along.
`Sound.place` follows one arrival through all of it. The code notes the thread that was left before
the email; as the two notes are about different objects, the proof takes them in the order that
lets `Sound.leftThread` go last.
-/

namespace Huliho

variable {before : Tables} {w w' : Writing}

/-! ## The row -/

/-- The emails with the row of one id replaced or added. -/
structure Upserted (t : Tables) (row : EmailRecord) (t' : Tables) : Prop where
  rows : ∀ s, s ∈ t'.emails ↔ (s ∈ t.emails ∧ s.id ≠ row.id) ∨ s = row

theorem upsertEmail_spec {t t' : Tables} {record : EmailRecord}
    (h : upsertEmail t record = .ok t') :
    ∃ msgid, Upserted t { record with gmailMsgid := msgid } t' ∧
      t' = { t with emails := t'.emails } := by
  simp only [upsertEmail, Except.bind_eq_ok, constrained_eq_ok, pure, Except.pure,
    Except.ok.injEq] at h
  obtain ⟨emails, he, rfl⟩ := h
  cases hf : t.emails.find? fun r => r.id = record.id with
  | none =>
    rw [hf] at he
    have hfresh := Table.find?_eq_none.1 hf
    refine ⟨record.gmailMsgid, ⟨fun s => ?_⟩, rfl⟩
    rw [Table.mem_insert? he]
    exact or_congr_left (iff_self_and.2 fun hs => hfresh s hs)
  | some r =>
    rw [hf] at he
    obtain ⟨hr, hid⟩ := Table.mem_of_find? hf
    refine ⟨r.gmailMsgid, ⟨fun s => ?_⟩, rfl⟩
    rw [Table.mem_update? he]
    constructor
    · rintro ⟨r', hr', rfl⟩
      unfold EmailRecord.takes
      split
      · rename_i hid'
        rw [EmailRecord.eq_of_id hr' hr (hid'.trans hid.symm)]
        exact .inr rfl
      · rename_i hid'
        exact .inl ⟨hr', hid'⟩
    · rintro (⟨hs, hid'⟩ | rfl)
      · exact ⟨s, hs, if_neg hid'⟩
      · exact ⟨r, hr, if_pos hid⟩

namespace Upserted

variable {t t' : Tables} {row : EmailRecord}

theorem exists_id (h : Upserted t row t') : ∃ r ∈ t'.emails, r.id = row.id :=
  ⟨row, (h.rows row).2 (.inr rfl), rfl⟩

/-- Every email that was there is there, and the row's. -/
theorem exists_of_exists (h : Upserted t row t') {id : EmailId} (hid : ∃ r ∈ t.emails, r.id = id) :
    ∃ r ∈ t'.emails, r.id = id := by
  obtain ⟨r, hr, rfl⟩ := hid
  by_cases hc : r.id = row.id
  · rw [hc]; exact h.exists_id
  · exact ⟨r, (h.rows r).2 (.inl ⟨hr, hc⟩), rfl⟩

theorem emailAt (h : Upserted t row t') {id : EmailId} {thread : ThreadId}
    {keywords : Finset String} (hne : id ≠ row.id) :
    EmailAt t' id thread keywords ↔ EmailAt t id thread keywords := by
  simp only [EmailAt, h.rows]
  constructor
  · rintro ⟨s, ⟨hs, -⟩ | rfl, hid, hrest⟩
    · exact ⟨s, hs, hid, hrest⟩
    · exact absurd hid.symm hne
  · rintro ⟨s, hs, hid, hrest⟩
    exact ⟨s, .inl ⟨hs, hid ▸ hne⟩, hid, hrest⟩

theorem inThread (h : Upserted t row t') {id : EmailId} {thread : ThreadId} :
    InThread t' id thread ↔
      (id ≠ row.id ∧ InThread t id thread) ∨ (id = row.id ∧ thread = row.threadId) := by
  simp only [InThread, h.rows]
  constructor
  · rintro ⟨s, ⟨hs, hne⟩ | rfl, hid, hth⟩
    · exact .inl ⟨hid ▸ hne, s, hs, hid, hth⟩
    · exact .inr ⟨hid.symm, hth.symm⟩
  · rintro (⟨hne, s, hs, hid, hth⟩ | ⟨rfl, rfl⟩)
    · exact ⟨s, .inl ⟨hs, hid ▸ hne⟩, hid, hth⟩
    · exact ⟨row, .inr rfl, rfl, rfl⟩

/-- The thread of the row holds it; a thread the row was not in holds what it held. -/
theorem holding_self (h : Upserted t row t') : Holding t' row.threadId :=
  ⟨row, (h.rows row).2 (.inr rfl), rfl⟩

theorem holding_of_ne (h : Upserted t row t') {thread : ThreadId}
    (hne : ∀ r ∈ t.emails, r.id = row.id → r.threadId ≠ thread) (hh : Holding t thread) :
    Holding t' thread := by
  obtain ⟨r, hr, hth⟩ := hh
  exact ⟨r, (h.rows r).2 (.inl ⟨hr, fun hid => hne r hr hid hth⟩), hth⟩

end Upserted

/-! ## The threads -/

/-- What `claim` notes is right for a thread that holds an email afterwards. -/
theorem claim_spec (w : Writing) (thread : ThreadId) : ∃ k : ChangeKind,
    claim w thread = { w with ledger := w.ledger.note (.thread, thread) k } ∧
      ∀ t, Holding t thread → k.Between (view w.tables (.thread thread)) (view t (.thread thread)) := by
  unfold claim
  split
  · rename_i hsize
    refine ⟨.created, rfl, fun t ht => ⟨view_thread_eq_none.2 ?_, view_thread_isSome.2 ht⟩⟩
    rintro ⟨r, hr, hth⟩
    exact size_eq_zero.1 hsize r hr hth
  · rename_i hsize
    refine ⟨.updated, rfl, fun t ht => ⟨view_thread_isSome.2 ?_, view_thread_isSome.2 ht⟩⟩
    exact size_pos.1 (Nat.pos_of_ne_zero hsize)

/-- Memberships show nothing to `left`: it does the same before and after they are replaced. -/
theorem left_replace (t : Tables) (ledger ledger' : Ledger) (thread : ThreadId) (id : EmailId)
    (receivedAt : Int) (wanted : List MailboxId) : ∃ k : ChangeKind,
      (left ⟨t, ledger⟩ thread).ledger = ledger.note (.thread, thread) k ∧
      left ⟨replaceMemberships t id receivedAt wanted, ledger'⟩ thread =
        ⟨replaceMemberships (left ⟨t, ledger⟩ thread).tables id receivedAt wanted,
          ledger'.note (.thread, thread) k⟩ := by
  have hsize : size (replaceMemberships t id receivedAt wanted) thread = size t thread := rfl
  simp only [left, hsize]
  split
  · exact ⟨.updated, rfl, rfl⟩
  · exact ⟨.destroyed, rfl, rfl⟩

/-- The writing an arrival leaves, up to the thread it left: what has been claimed, the row in its
place, its memberships replaced and the email noted. -/
structure Landing (w : Writing) (row : EmailRecord) (kind : ChangeKind)
    (previous : Option ThreadId) (w₁ : Writing) : Prop where
  upserted : Upserted w.tables row w₁.tables
  kind_eq : (kind = .created ∧ previous = none ∧ ∀ r ∈ w.tables.emails, r.id ≠ row.id) ∨
    (kind = .updated ∧ ∃ r ∈ w.tables.emails, r.id = row.id ∧
      previous = if r.threadId = row.threadId then none else some r.threadId)
  members : ∀ id mailbox, id ≠ row.id →
    (MemberOf w₁.tables id mailbox ↔ MemberOf w.tables id mailbox)
  frame : w₁.tables.messageIds = w.tables.messageIds ∧ w₁.tables.changes = w.tables.changes ∧
    w₁.tables.sequence = w.tables.sequence
  claimed : kind = .created ∨ previous.isSome → ∃ k : ChangeKind,
    (∀ x, w₁.ledger.items x = if x = .email row.id then fold (w.ledger.items x) kind
      else if x = .thread row.threadId then fold (w.ledger.items x) k else w.ledger.items x) ∧
    k.Between (view w.tables (.thread row.threadId)) (view w₁.tables (.thread row.threadId))
  unclaimed : ¬(kind = .created ∨ previous.isSome) →
    ∀ x, w₁.ledger.items x =
      if x = .email row.id then fold (w.ledger.items x) kind else w.ledger.items x

namespace Landing

variable {row : EmailRecord} {kind : ChangeKind} {previous : Option ThreadId} {w₁ : Writing}

/-- The row of the arrival was in no thread but the one it keeps and the one it leaves. -/
theorem was (h : Landing w row kind previous w₁) {r : EmailRecord} (hr : r ∈ w.tables.emails)
    (hid : r.id = row.id) : r.threadId = row.threadId ∨ previous = some r.threadId := by
  rcases h.kind_eq with ⟨-, -, hfresh⟩ | ⟨-, r₀, hr₀, hid₀, hprev⟩
  · exact absurd hid (hfresh r hr)
  · rw [EmailRecord.eq_of_id hr hr₀ (hid.trans hid₀.symm), hprev]
    by_cases hc : r₀.threadId = row.threadId
    · exact .inl hc
    · exact .inr (if_neg hc)

/-- A thread other than the one left holds what it held. -/
theorem holding (h : Landing w row kind previous w₁) {thread : ThreadId}
    (hp : previous ≠ some thread) (hh : Holding w.tables thread) : Holding w₁.tables thread := by
  by_cases hth : thread = row.threadId
  · rw [hth]; exact h.upserted.holding_self
  · refine h.upserted.holding_of_ne (fun r hr hid hc => ?_) hh
    rcases h.was hr hid with hw | hw
    · exact hth (hc ▸ hw)
    · exact hp (hc ▸ hw)

/-- Everything but the thread that was left is noted. -/
theorem noted (h : Landing w row kind previous w₁) {x : Item}
    (hp : ∀ thread, previous = some thread → x ≠ .thread thread) : Noted w w₁ x := by
  have hother : ∀ y : Item, y ≠ .email row.id → y ≠ .thread row.threadId →
      w₁.ledger.items y = w.ledger.items y := fun y hye hyt => by
    by_cases hc : kind = .created ∨ previous.isSome
    · obtain ⟨k, hk, -⟩ := h.claimed hc
      rw [hk, if_neg hye, if_neg hyt]
    · rw [h.unclaimed hc, if_neg hye]
  cases x with
  | email id =>
    by_cases hid : id = row.id
    · subst hid
      have hl : w₁.ledger.items (.email row.id) = fold (w.ledger.items (.email row.id)) kind := by
        by_cases hc : kind = .created ∨ previous.isSome
        · obtain ⟨k, hk, -⟩ := h.claimed hc
          rw [hk, if_pos rfl]
        · rw [h.unclaimed hc, if_pos rfl]
      have hafter := view_email_isSome.2 h.upserted.exists_id
      rcases h.kind_eq with ⟨rfl, -, hfresh⟩ | ⟨rfl, r, hr, hid, -⟩
      · exact .noted .created hl ⟨view_email_eq_none.2 hfresh, hafter⟩
      · exact .noted .updated hl ⟨view_email_isSome.2 ⟨r, hr, hid⟩, hafter⟩
    · refine .kept (hother _ (by simpa using hid) (by simp)) ?_
      exact view_email_congr (fun _ _ => h.upserted.emailAt hid) fun mailbox => h.members id mailbox hid
  | thread thread =>
    by_cases hth : thread = row.threadId
    · subst hth
      by_cases hc : kind = .created ∨ previous.isSome
      · obtain ⟨k, hk, hb⟩ := h.claimed hc
        exact .noted k ((hk _).trans (by simp)) hb
      · refine .kept ((h.unclaimed hc _).trans (by simp)) (view_thread_congr fun id => ?_)
        rw [h.upserted.inThread]
        by_cases hid : id = row.id
        · subst hid
          -- The row keeps its thread, so it is in it before as well.
          have hin : InThread w.tables row.id row.threadId := by
            rcases h.kind_eq with ⟨hk, -⟩ | ⟨-, r, hr, hid, hprev⟩
            · exact absurd (.inl hk) hc
            · refine ⟨r, hr, hid, ?_⟩
              by_contra hne
              rw [if_neg hne] at hprev
              exact hc (.inr (by rw [hprev]; rfl))
          simp [hin]
        · simp [hid]
    · refine .kept (hother _ (by simp) (by simpa using hth)) (view_thread_congr fun id => ?_)
      rw [h.upserted.inThread]
      by_cases hid : id = row.id
      · subst hid
        simp only [ne_eq, not_true_eq_false, false_and, true_and, false_or, hth, false_iff]
        rintro ⟨r, hr, hid, hc⟩
        rcases h.was hr hid with hw | hw
        · exact hth (hc ▸ hw)
        · exact hp _ hw (congrArg Item.thread hc.symm)
      · simp [hid]

theorem membersLive (h : Landing w row kind previous w₁) (hm : MembersLive w.tables) :
    MembersLive w₁.tables := by
  intro m hmem
  by_cases hid : m.emailId = row.id
  · rw [hid]; exact h.upserted.exists_id
  · obtain ⟨m', hm', heq, -⟩ := (h.members m.emailId m.mailboxId hid).1 ⟨m, hmem, rfl, rfl⟩
    rw [← heq]
    exact h.upserted.exists_of_exists (hm m' hm')

/-- The arrival is sound once the thread it left, if any, is noted. -/
theorem sound (h : Landing w row kind previous w₁) (hs : Sound before w) :
    Sound before (previous.elim w₁ (left w₁)) := by
  have hlive := h.membersLive hs.members
  obtain ⟨hids, hchanges, hsequence⟩ := h.frame
  cases hprev : previous with
  | none =>
    rw [Option.elim_none]
    refine hs.step (fun x => h.noted (by simp [hprev])) (fun r hr => ?_) hlive hchanges hsequence
    rw [hids] at hr
    exact h.holding (by simp [hprev]) (hs.hashes r hr)
  | some thread =>
    obtain ⟨r, hr, hid, hif⟩ : ∃ r ∈ w.tables.emails, r.id = row.id ∧
        previous = if r.threadId = row.threadId then none else some r.threadId := by
      rcases h.kind_eq with ⟨-, hnone, -⟩ | ⟨-, hex⟩
      · rw [hnone] at hprev; cases hprev
      · exact hex
    have hth : r.threadId = thread ∧ thread ≠ row.threadId := by
      rw [hprev] at hif
      split at hif
      · cases hif
      · rename_i hne
        obtain rfl := Option.some.inj hif
        exact ⟨rfl, hne⟩
    have hkept : w₁.ledger.items (.thread thread) = w.ledger.items (.thread thread) := by
      obtain ⟨k, hk, -⟩ := h.claimed (.inr (by rw [hprev]; rfl))
      rw [hk, if_neg (by simp), if_neg (by simpa using hth.2)]
    refine hs.leftThread ⟨r, hr, hth.1⟩ (fun x hx => h.noted fun thread' hp => ?_) hkept
      (fun s hs' hne => ?_) hlive hchanges hsequence
    · rw [hprev] at hp
      obtain rfl := Option.some.inj hp
      exact hx
    · rw [hids] at hs'
      exact h.holding (by rw [hprev]; exact fun hc => hne (Option.some.inj hc).symm)
        (hs.hashes s hs')

end Landing

/-- **One arrival.** It lands on a new row, or on the row of its id with the thread that row
leaves. -/
theorem Sound.place (h : Sound before w) {a : Arrival} {sealer : Sealer} {id : EmailId}
    {kind : ChangeKind} {previous : Option ThreadId}
    (hrow : (kind = .created ∧ previous = none ∧ ∀ r ∈ w.tables.emails, r.id ≠ id) ∨
      (kind = .updated ∧ ∃ r ∈ w.tables.emails, r.id = id ∧
        previous = if r.threadId = a.gmail.thread then none else some r.threadId))
    (hp : a.place sealer w id kind previous = .ok w') :
    Sound before { w' with ledger := w'.ledger.note (.email, id) kind } ∧
      ∃ sealed msgid, Upserted w.tables { a.record id sealed with gmailMsgid := msgid }
        w'.tables := by
  simp only [Arrival.place, Except.bind_eq_ok, pure, Except.pure, Except.ok.injEq] at hp
  obtain ⟨sealed, -, t, ht, rfl⟩ := hp
  obtain ⟨k, hclaim, hbetween⟩ := claim_spec w a.gmail.thread
  set claimed := if kind = .created ∨ previous.isSome then claim w a.gmail.thread else w with hcl
  have hct : claimed.tables = w.tables := by
    rw [hcl]; split
    · rw [hclaim]
    · rfl
  rw [hct] at ht
  obtain ⟨msgid, hups, hframe⟩ := upsertEmail_spec ht
  set row : EmailRecord := { a.record id sealed with gmailMsgid := msgid } with hrowdef
  set wanted := a.labels.memberships a.folder a.gmail.labels
  -- What the arrival is before the thread it left is noted.
  let w₁ : Writing := ⟨Huliho.replaceMemberships t id a.facts.receivedAt wanted,
    claimed.ledger.note (.email, id) kind⟩
  have hland : Landing w row kind previous w₁ := by
    have hids : t.messageIds = w.tables.messageIds ∧ t.changes = w.tables.changes ∧
        t.sequence = w.tables.sequence ∧ t.memberships = w.tables.memberships := by
      rw [hframe]; exact ⟨rfl, rfl, rfl, rfl⟩
    refine ⟨⟨hups.rows⟩, hrow, fun id' mailbox hne => ?_, ⟨hids.1, hids.2.1, hids.2.2.1⟩,
      fun hc => ?_, fun hc x => ?_⟩
    · refine (memberOf_replace hne).trans ?_
      rw [MemberOf, MemberOf, hids.2.2.2]
    · refine ⟨k, fun x => ?_, hbetween _ hups.holding_self⟩
      simp only [w₁, Ledger.items_note_email, hcl, if_pos hc, hclaim, Ledger.items_note_thread]
      cases x with
      | email id' =>
        by_cases hid : id' = id
        · subst hid; simp [row, Arrival.record]
        · simp [row, Arrival.record, hid]
      | thread thread =>
        by_cases hth : thread = a.gmail.thread
        · subst hth; simp [row, Arrival.record]
        · simp [row, Arrival.record, hth]
    · simp only [w₁, Ledger.items_note_email, hcl, if_neg hc]
      by_cases hx : x = .email id
      · subst hx; rfl
      · simp [row, Arrival.record, hx]
  have hsound := hland.sound h
  refine ⟨?_, sealed, msgid, ?_⟩
  · cases hprev : previous with
    | none =>
      rw [hprev, Option.elim_none] at hsound
      refine hsound.relist fun x => ?_
      simp only [w₁, Ledger.items_note_email, Ledger.items_noteMailboxes]
    | some thread =>
      rw [hprev, Option.elim_some] at hsound
      obtain ⟨k', hk', hleft⟩ := left_replace t claimed.ledger
        (claimed.ledger.note (.email, id) kind) thread id a.facts.receivedAt wanted
      have hw₁ : left w₁ thread = _ := hleft
      rw [hw₁] at hsound
      refine hsound.relist fun x => ?_
      simp only [Ledger.items_note_email, Ledger.items_note_thread, Ledger.items_noteMailboxes, hk']
      cases x <;> simp
  · refine ⟨fun s => ?_⟩
    rw [← hups.rows s]
    cases previous with
    | none => rfl
    | some thread =>
      show s ∈ (left _ thread).tables.emails ↔ _
      rw [left_emails]

end Huliho
