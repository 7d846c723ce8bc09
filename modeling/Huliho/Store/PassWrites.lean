import Huliho.Store.ClientWrites

/-!
# Sweeps, passes and mailbox writes tell what they did

The writes that take whole folders away. They log straight into the log, so what they keep is
`Logged`; and as the rows only shrink on the way (`Shrunk`), whatever leaves was there before, its
thread with it.
-/

namespace Huliho

variable {before t t' : Tables} {w w' : Writing} {s : Nat}

/-! ## Rows that only shrink -/

/-- Every row is one that was there, in the thread it was in. -/
def Shrunk (before t : Tables) : Prop :=
  ∀ r ∈ t.emails, ∃ r' ∈ before.emails, r'.id = r.id ∧ r'.threadId = r.threadId

theorem Shrunk.of_emails (h : t.emails = before.emails) : Shrunk before t := fun r hr =>
  ⟨r, h ▸ hr, rfl, rfl⟩

/-- What leaves was there before. -/
theorem Shrunk.departs (h : Shrunk before t) (folder : MailboxId) (leaving : Leaving) :
    Departs before t folder leaving := by
  refine ⟨fun r hr _ => ?_, fun r hr _ _ => ?_⟩
  · obtain ⟨r', hr', hid, -⟩ := h r hr
    exact ⟨r', hr', hid⟩
  · obtain ⟨r', hr', -, hth⟩ := h r hr
    exact ⟨r', hr', hth⟩

theorem Shrunk.leave (h : Shrunk before t) (folder : MailboxId) (s : Nat) (leaving : Leaving) :
    Shrunk before (leave t folder s leaving) := fun r hr =>
  h r (((leave_spec t folder s leaving).emails r).1 hr).1

/-- The log holds a row under the sequence. -/
def HasRow (s : Nat) (t : Tables) : Prop := ∃ row ∈ t.changes, row.sequence = s

theorem HasRow.logOver (h : HasRow s t) (s' : Nat) (x : Slot) (k : ChangeKind)
    (f : ChangeKind → ChangeKind) : HasRow s (logOver t s' x k f) := by
  obtain ⟨row, hrow, hs⟩ := h
  by_cases hc : row.sequence = s' ∧ row.slot = x
  · exact ⟨_, mem_logOver.2 (.inr rfl), hc.1.symm.trans hs⟩
  · exact ⟨row, mem_logOver.2 (.inl ⟨hrow, hc⟩), hs⟩

theorem HasRow.logEach (h : HasRow s t) (s' : Nat) (kind : Slot → ChangeKind)
    (onConflict : ChangeKind → ChangeKind → ChangeKind) (xs : List Slot) :
    HasRow s (logEach t s' kind onConflict xs) :=
  foldl_keeps h fun _ _ _ h => h.logOver _ _ _ _

theorem HasRow.leave (h : HasRow s t) (folder : MailboxId) (s' : Nat) (leaving : Leaving) :
    HasRow s (leave t folder s' leaving) := by
  have hlog : HasRow s (leaveLog t folder s' leaving) :=
    ((h.logEach _ _ _ _).logEach _ _ _ _).logEach _ _ _ _
  exact hlog

theorem HasRow.vanish (h : HasRow s t) (folder : MailboxId) (s' : Nat) :
    HasRow s (vanish t folder s') := by
  have hlog := (h.leave folder s' .all).logEach s' (fun _ => .updated)
    (fun _ kind => kind) (membersOf (Huliho.leave t folder s' .all) folder)
  exact hlog

theorem HasRow.log (h : HasRow s t) {s' : Nat} {x : Slot} {k : ChangeKind}
    (hl : Huliho.log t s' x k = .ok t') : HasRow s t' := by
  obtain ⟨row, hrow, hs⟩ := h
  obtain ⟨c, hc, rfl⟩ := log_eq_ok hl
  exact ⟨row, (Table.mem_insert? hc).2 (.inl hrow), hs⟩

theorem HasRow.of_log {x : Slot} {k : ChangeKind} (hl : Huliho.log t s x k = .ok t') : HasRow s t' := by
  obtain ⟨c, hc, rfl⟩ := log_eq_ok hl
  exact ⟨_, (Table.mem_insert? hc).2 (.inr rfl), rfl⟩

/-! ## The sweep -/

/-- **The sweep tells what it did.** -/
theorem sweepParked_outcome {state : Nat} (hi : Inv before)
    (hw : sweepParked before = .ok (t, state)) : Outcome before t := by
  unfold sweepParked at hw
  simp only at hw
  split at hw
  · obtain ⟨rfl, -⟩ := Prod.mk.inj (Except.ok.inj hw)
    exact .quiet hi .refl
  · rename_i hsome
    obtain ⟨folder, folders, hfolders⟩ := List.exists_cons_of_ne_nil hsome
    rw [Except.bind_eq_ok] at hw
    obtain ⟨t₁, hloop, hw⟩ := hw
    obtain ⟨rfl, -⟩ := Prod.mk.inj (Except.ok.inj hw)
    -- Each turn keeps the journal, the sequence and that the rows only shrink.
    have hturn : ∀ folder (t t' : Tables),
        (Logged before t ∧ Shrunk before t ∧ t.sequence = (nextSequence before).2) →
        log (leave t folder (nextSequence before).2 .unmatched) (nextSequence before).2
          (.mailbox, folder) .updated = .ok t' →
        Logged before t' ∧ Shrunk before t' ∧ t'.sequence = (nextSequence before).2 := by
      rintro folder t t' ⟨hlogged, hshrunk, hq⟩ hl
      rw [← hq] at hl
      have hleft := hlogged.leave (hshrunk.departs folder .unmatched)
      have hseq : (leave t folder t.sequence .unmatched).sequence = t.sequence := by
        rw [(leave_spec t folder t.sequence .unmatched).frame]
      have hframe := log_frame hl
      refine ⟨hleft.mailbox (by rw [hseq]; exact hl), ?_, ?_⟩
      · have := hshrunk.leave folder t.sequence .unmatched
        rw [hframe]
        exact this
      · rw [hframe]
        exact hseq.trans hq
    have hstart : Logged before (nextSequence before).1 ∧ Shrunk before (nextSequence before).1 ∧
        (nextSequence before).1.sequence = (nextSequence before).2 :=
      ⟨hi.opened .refl, .of_emails rfl, rfl⟩
    obtain ⟨hlogged, -, hq⟩ := foldlM_keeps (P := fun t => Logged before t ∧ Shrunk before t ∧
      t.sequence = (nextSequence before).2) hstart (fun folder _ t t' h hl => hturn folder t t' h hl)
      hloop
    refine hlogged.told ?_
    rw [hq]
    rw [hfolders, List.foldlM_cons, Except.bind_eq_ok] at hloop
    obtain ⟨t₂, hfirst, hloop⟩ := hloop
    exact foldlM_keeps (P := HasRow (nextSequence before).2) (.of_log hfirst)
      (fun folder _ t t' h hl => (h.leave folder _ .unmatched).log hl) hloop

/-- **A sweep that finds a row to take shows**: without one the counter stays. -/
theorem sweepParked_counter {state : Nat} (hw : sweepParked before = .ok (t, state))
    (hv : ∀ x, view t x = view before x) : t.sequence = before.sequence := by
  unfold sweepParked at hw
  simp only at hw
  split at hw
  · obtain ⟨rfl, -⟩ := Prod.mk.inj (Except.ok.inj hw)
    rfl
  · rename_i hsome
    exfalso
    obtain ⟨folder, folders, hfolders⟩ := List.exists_cons_of_ne_nil hsome
    rw [Except.bind_eq_ok] at hw
    obtain ⟨t₁, hloop, hw⟩ := hw
    obtain ⟨rfl, -⟩ := Prod.mk.inj (Except.ok.inj hw)
    have hwaits : folder ∈ waitingFolders before := by
      rw [hfolders]
      exact List.mem_cons_self
    obtain ⟨progress, hp, rfl⟩ := List.mem_map.1 hwaits
    obtain ⟨-, e, he, hfolder, huid⟩ := of_decide_eq_true (List.mem_filter.1 hp).2
    have hturn : ∀ (gone : MailboxId) (t t' : Tables),
        log (leave t gone (nextSequence before).2 .unmatched) (nextSequence before).2
          (.mailbox, gone) .updated = .ok t' →
        ∀ r, r ∈ t'.emails ↔ r ∈ t.emails ∧ ¬ Leaves gone .unmatched r := by
      intro gone t t' hl r
      rw [log_frame hl]
      exact (leave_spec t gone (nextSequence before).2 .unmatched).emails r
    rw [hfolders, List.foldlM_cons, Except.bind_eq_ok] at hloop
    obtain ⟨t₂, hfirst, hloop⟩ := hloop
    have hgone : e ∉ t₂.emails := fun hc =>
      ((hturn _ _ _ hfirst e).1 hc).2 ⟨hfolder, huid⟩
    obtain ⟨hsub, hout⟩ := foldlM_keeps (P := fun t => (∀ r ∈ t.emails, r ∈ before.emails) ∧
        e ∉ t.emails) ⟨fun r hr => ((hturn _ _ _ hfirst r).1 hr).1, hgone⟩
      (fun gone _ t t' h hl => ⟨fun r hr => h.1 r ((hturn _ _ _ hl r).1 hr).1,
        fun hc => h.2 ((hturn _ _ _ hl e).1 hc).1⟩) hloop
    obtain ⟨x, hx⟩ := view_ne_of_gone before (prune t₁) hsub ⟨e, he, hout⟩
    exact hx (hv x)

/-! ## Writes of mailbox rows -/

/-- The mailbox rows moved and nothing else. -/
def OnlyMailboxes (t t' : Tables) : Prop := t' = { t with mailboxes := t'.mailboxes }

theorem OnlyMailboxes.trans {t₁ t₂ t₃ : Tables} (h : OnlyMailboxes t₁ t₂)
    (h' : OnlyMailboxes t₂ t₃) : OnlyMailboxes t₁ t₃ := by
  unfold OnlyMailboxes at *
  rw [h', h]

theorem OnlyMailboxes.unseen (h : OnlyMailboxes t t') : Unseen t t' := by
  refine ⟨fun _ _ _ => ?_, ?_, ?_, ?_, ?_⟩
  · rw [h]; exact Iff.rfl
  all_goals rw [h]

theorem upsert_mailboxes {row : MailboxRow} (h : upsert t row = .ok t') : OnlyMailboxes t t' := by
  simp only [upsert, Except.bind_eq_ok, pure, Except.pure, Except.ok.injEq] at h
  obtain ⟨mailboxes, -, rfl⟩ := h
  rfl

/-- Before anything is logged a pass touches mailbox rows alone. -/
theorem planPass_mailboxes {order : List MailboxId → List MailboxId} {mint : String → MailboxId}
    {found : List MailboxFacts} {letters : Letters} {flipped : Bool} {p : Passing}
    (h : planPass order mint t found letters flipped = .ok p) : OnlyMailboxes t p.tables := by
  simp only [planPass, Except.bind_eq_ok, pure, Except.pure, Except.ok.injEq] at h
  obtain ⟨p₁, hloop, rfl⟩ := h
  have h₁ : OnlyMailboxes t p₁.tables := by
    refine foldlM_keeps (P := fun p : Passing => OnlyMailboxes t p.tables)
      (show OnlyMailboxes t t from rfl)
      (fun facts _ p p' h hp => ?_) hloop
    unfold passFacts at hp
    simp only at hp
    split at hp
    · split at hp
      · obtain rfl : p = p' := by simpa [pure, Except.pure] using hp
        exact h
      · simp only [Except.bind_eq_ok, pure, Except.pure, Except.ok.injEq] at hp
        obtain ⟨tables, hu, rfl⟩ := hp
        exact h.trans (upsert_mailboxes hu)
    · simp only [Except.bind_eq_ok, pure, Except.pure, Except.ok.injEq] at hp
      obtain ⟨tables, hu, rfl⟩ := hp
      exact h.trans (upsert_mailboxes hu)
  have h₂ : OnlyMailboxes t (passRights mint t found letters p₁).tables := by
    refine foldl_keeps (P := fun p : Passing => OnlyMailboxes t p.tables) h₁
      fun name _ p h => h.trans ?_
    unfold applyRights
    simp only
    split <;> rfl
  have h₃ : OnlyMailboxes t
      (passVanished (vanished order t found) (passRights mint t found letters p₁)).tables :=
    foldl_keeps (P := fun p : Passing => OnlyMailboxes t p.tables) h₂ fun id _ p h => h.trans rfl
  unfold passFlipped
  split <;> exact h₃

/-- A folder that vanishes inside a write. -/
theorem Logged.vanished (h : Logged before t) (hs : Shrunk before t) (hq : t.sequence = s)
    (folder : MailboxId) : Logged before (Huliho.vanish t folder s) ∧ Shrunk before (Huliho.vanish t folder s) ∧
      (Huliho.vanish t folder s).sequence = s := by
  subst hq
  refine ⟨h.vanish (hs.departs folder .all), ?_, ?_⟩
  · have := hs.leave folder t.sequence .all
    unfold Huliho.vanish
    simp only [forgetProgress]
    intro r hr
    rw [(logsUnder_logEach (t := Huliho.leave t folder t.sequence .all)).frame] at hr
    exact this r hr
  · unfold Huliho.vanish
    simp only [forgetProgress]
    rw [(logsUnder_logEach (t := Huliho.leave t folder t.sequence .all)).frame]
    simp only
    rw [(leave_spec t folder t.sequence .all).frame]

/-- A folder that is renumbered inside a write. -/
theorem Logged.renumbered (h : Logged before t) (hs : Shrunk before t) (hq : t.sequence = s)
    {folder : MailboxId} (hr : Huliho.renumber t folder s = .ok t') :
    Logged before t' ∧ Shrunk before t' ∧ t'.sequence = s := by
  subst hq
  refine ⟨h.renumber (hs.departs folder _) hr, ?_, ?_⟩ <;>
    simp only [Huliho.renumber, Except.bind_eq_ok, constrained_eq_ok, pure, Except.pure,
      Except.ok.injEq] at hr <;> obtain ⟨emails, hu, rfl⟩ := hr
  · intro r hr
    obtain ⟨r', hr', rfl⟩ := (Table.mem_update? hu).1 hr
    obtain ⟨o, ho, hid, hth⟩ := hs.leave folder t.sequence _ r' hr'
    refine ⟨o, ho, ?_⟩
    unfold EmailRecord.wait
    split <;> exact ⟨hid, hth⟩
  · simp only [forgetProgress]
    rw [(leave_spec t folder t.sequence (renumberLeaving t folder)).frame]

/-- **A pass tells what it did.** -/
theorem apply_outcome {order : List MailboxId → List MailboxId} {mint : String → MailboxId}
    {found : List MailboxFacts} {letters : Letters} {flipped : Bool} {state : Nat}
    (hi : Inv before)
    (hw : apply order mint before found letters flipped = .ok (t, state)) : Outcome before t := by
  unfold apply at hw
  rw [Except.bind_eq_ok] at hw
  obtain ⟨p, hplan, hw⟩ := hw
  have hrows := planPass_mailboxes hplan
  split at hw
  · obtain ⟨rfl, -⟩ := Prod.mk.inj (Except.ok.inj hw)
    exact .quiet hi hrows.unseen
  · rename_i hsome
    simp only [Except.bind_eq_ok] at hw
    obtain ⟨t₁, hrenumbered, t₂, hlog, hw⟩ := hw
    obtain ⟨rfl, -⟩ := Prod.mk.inj (Except.ok.inj hw)
    have hstart : Logged before (nextSequence p.tables).1 ∧
        Shrunk before (nextSequence p.tables).1 ∧
        (nextSequence p.tables).1.sequence = (nextSequence p.tables).2 :=
      ⟨hi.opened hrows.unseen, .of_emails (by rw [nextSequence, hrows]), rfl⟩
    have hvanished := foldl_keeps (l := vanished order before found)
      (P := fun t => Logged before t ∧ Shrunk before t ∧
        t.sequence = (nextSequence p.tables).2) hstart
      fun folder _ t h => h.1.vanished h.2.1 h.2.2 folder
    obtain ⟨hlogged, -, hq⟩ := foldlM_keeps (P := fun t => Logged before t ∧ Shrunk before t ∧
        t.sequence = (nextSequence p.tables).2) hvanished
      (fun folder _ t t' h hr => h.1.renumbered h.2.1 h.2.2 hr) hrenumbered
    obtain ⟨hlogged, hseq⟩ := hlogged.mailboxes hq.symm hlog
    refine hlogged.told ?_
    rw [hseq, hq]
    obtain ⟨c, changes, hc⟩ := List.exists_cons_of_ne_nil hsome
    rw [hc, List.foldlM_cons, Except.bind_eq_ok] at hlog
    obtain ⟨t₃, hfirst, hlog⟩ := hlog
    exact foldlM_keeps (P := HasRow (nextSequence p.tables).2) (.of_log hfirst)
      (fun c _ t t' h hl => h.log hl) hlog

/-! ## A `Mailbox/set` -/

/-- One change of a `Mailbox/set` touches mailbox rows alone and notes mailboxes alone. -/
theorem MailboxChange.rows_mailboxes {change : MailboxChange} (h : change.rows w = .ok w') :
    OnlyMailboxes w.tables w'.tables ∧ ∀ x, w'.ledger.items x = w.ledger.items x := by
  cases change with
  | created row override =>
    simp only [MailboxChange.rows, Except.bind_eq_ok, pure, Except.pure, Except.ok.injEq] at h
    obtain ⟨t, hu, rfl⟩ := h
    refine ⟨(upsert_mailboxes hu).trans ?_, fun _ => rfl⟩
    cases override <;> rfl
  | renamed id imapName name parentId =>
    simp only [MailboxChange.rows, Except.bind_eq_ok, pure, Except.pure, Except.ok.injEq] at h
    obtain ⟨w₁, hr, rfl⟩ := h
    suffices h₁ : OnlyMailboxes w.tables w₁.tables ∧
        ∀ x, w₁.ledger.items x = w.ledger.items x from ⟨h₁.1.trans rfl, h₁.2⟩
    unfold Huliho.renamed at hr
    simp only at hr
    split at hr
    · obtain rfl : w = w₁ := by simpa [pure, Except.pure] using hr
      exact ⟨rfl, fun _ => rfl⟩
    · refine foldlM_keeps (P := fun w₁ : Writing => OnlyMailboxes w.tables w₁.tables ∧
        ∀ x, w₁.ledger.items x = w.ledger.items x) ⟨rfl, fun _ => rfl⟩
        (fun member _ w₁ w₂ h hm => ?_) hr
      split at hm
      · obtain rfl : w₁ = w₂ := by simpa [pure, Except.pure] using hm
        exact h
      · simp only [Except.bind_eq_ok, pure, Except.pure, Except.ok.injEq] at hm
        obtain ⟨mailboxes, -, rfl⟩ := hm
        exact ⟨h.1.trans rfl, fun x => (Ledger.items_note_mailbox _ _ x _).trans (h.2 x)⟩
  | subscribed id on | role id override sortOrder | destroyed id =>
    obtain rfl := Except.ok.inj h
    exact ⟨rfl, fun _ => rfl⟩

theorem Sound.mailboxChange (h : Sound before w) {change : MailboxChange}
    (hc : change.written w = .ok w') : Sound before w' := by
  simp only [MailboxChange.written, Except.bind_eq_ok, pure, Except.pure, Except.ok.injEq] at hc
  obtain ⟨w₁, hr, rfl⟩ := hc
  obtain ⟨hrows, hitems⟩ := MailboxChange.rows_mailboxes hr
  exact (h.unseen hrows.unseen).relist fun x => (Ledger.items_note_mailbox _ _ x _).trans (hitems x)

/-- **A `Mailbox/set` tells what it did.** -/
theorem writeMailboxes_outcome {changes : List MailboxChange} {states : Nat × Nat}
    (hi : Inv before) (hw : writeMailboxes before changes = .ok (t, states)) :
    Outcome before t := by
  unfold writeMailboxes at hw
  simp only [Except.bind_eq_ok] at hw
  obtain ⟨w, hloop, hw⟩ := hw
  have hsound : Sound before w ∧ w.tables.emails = before.emails := by
    refine foldlM_keeps (P := fun w : Writing => Sound before w ∧
      w.tables.emails = before.emails) ⟨Sound.start hi, rfl⟩ (fun change _ w w' h hc => ?_) hloop
    refine ⟨h.1.mailboxChange hc, ?_⟩
    simp only [MailboxChange.written, Except.bind_eq_ok, pure, Except.pure, Except.ok.injEq] at hc
    obtain ⟨w₁, hr, rfl⟩ := hc
    rw [(MailboxChange.rows_mailboxes hr).1]
    exact h.2
  split at hw
  · rename_i hempty
    obtain ⟨rfl, -⟩ := Prod.mk.inj (Except.ok.inj hw)
    exact hsound.1.quiet hi hempty
  · rename_i hne
    rw [Except.bind_eq_ok] at hw
    obtain ⟨t₁, hl, hw⟩ := hw
    obtain ⟨rfl, -⟩ := Prod.mk.inj (Except.ok.inj hw)
    have hq : t₁.sequence = (nextSequence w.tables).2 := by
      rw [(Ledger.logsUnder_write hl).frame]
      rfl
    have hshrunk : Shrunk before t₁ := .of_emails (by
      rw [(Ledger.logsUnder_write hl).frame]
      exact hsound.2)
    have hrow : HasRow (nextSequence w.tables).2 t₁ := by
      obtain ⟨x, hx⟩ : ∃ x, w.ledger.kind x ≠ none := by
        by_contra hc
        push Not at hc
        exact hne (Ledger.isEmpty_iff.2 hc)
      obtain ⟨k, hk⟩ := Option.ne_none_iff_exists'.1 hx
      refine exists_row_of_entry (x := x) (k := k) ?_
      rw [Ledger.entryAt_write hl, hk, Option.some_or]
    obtain ⟨⟨hlogged, -, hseq⟩, hrow⟩ := foldl_keeps (l := changes.filterMap MailboxChange.gone)
      (P := fun t => (Logged before t ∧ Shrunk before t ∧
        t.sequence = (nextSequence w.tables).2) ∧ HasRow (nextSequence w.tables).2 t)
      ⟨⟨hsound.1.opened hi.below hl, hshrunk, hq⟩, hrow⟩
      fun folder _ t h => ⟨h.1.1.vanished h.1.2.1 h.1.2.2 folder, h.2.vanish folder _⟩
    refine hlogged.told ?_
    rw [hseq]
    exact hrow

end Huliho
