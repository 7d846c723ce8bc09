import Huliho.Store.Leaving

/-!
# A write begins and ends

Between the rows and the log: `Sound.opened` writes the ledger of a sound write under a fresh
sequence, `Inv.opened` opens one for a write that keeps no ledger, `Logged.mailbox` adds the line
of a mailbox and `Logged.told` closes it. `Outcome` is what is left to say of a write that went
through: nothing a client sees moved and neither did the log, or the counter moved by one and the
log under the new state tells every email and every thread.
-/

namespace Huliho

/-- A write that moved nothing a client sees and logged nothing. -/
structure Quiet (before after : Tables) : Prop where
  sequence : after.sequence = before.sequence
  changes : after.changes = before.changes
  view : ∀ x, view after x = view before x

/-- A write whose rows under the new state tell what it did. -/
structure Told (before after : Tables) : Prop where
  sequence : after.sequence = before.sequence + 1
  tracks : ∀ x : Item, Agrees (entryAt after after.sequence x.slot) (view before x) (view after x)
  logged : ∃ row ∈ after.changes, row.sequence = after.sequence
  /-- The rows of the states before stand, from some sequence on. -/
  kept : ∃ low ≤ after.sequence, ∀ row : LogRow, row.sequence ≤ before.sequence →
    (row ∈ after.changes ↔ row ∈ before.changes ∧ low ≤ row.sequence)

/-- How a write that went through came out. -/
structure Outcome (before after : Tables) : Prop where
  inv : Inv after
  told : Quiet before after ∨ Told before after

variable {before t t' : Tables} {w : Writing}

theorem Outcome.quiet (hi : Inv before) (hu : Unseen before t) : Outcome before t := by
  refine ⟨⟨fun row hrow => ?_, hi.hashes.unseen hu, hi.members.unseen hu⟩, .inl ?_⟩
  · rw [hu.changes] at hrow
    rw [hu.sequence]
    exact hi.below row hrow
  · exact ⟨hu.sequence, hu.changes, hu.view⟩

/-! ## Opening -/

theorem view_next (t : Tables) (x : Item) : view (nextSequence t).1 x = view t x :=
  view_frame rfl rfl x

/-- The ledger of a sound write under a fresh sequence. -/
theorem Sound.opened (h : Sound before w) (hb : LogBelow before)
    (hw : w.ledger.write (nextSequence w.tables).1 (nextSequence w.tables).2 = .ok t) :
    Logged before t := by
  have hbelow : LogBelow w.tables := fun row hrow => by
    rw [h.changes] at hrow
    rw [h.sequence]
    exact hb row hrow
  have hopen : LogBelow (nextSequence w.tables).1 := fun row hrow => by
    have := hbelow row hrow
    simp only [nextSequence]
    omega
  have hunder := Ledger.logsUnder_write hw
  have hseq : t.sequence = w.tables.sequence + 1 := by rw [hunder.frame]; rfl
  have hviews : ∀ x, view t x = view w.tables x := fun x => by
    rw [← view_next w.tables x, hunder.frame]
    exact view_frame rfl rfl x
  have hentry : ∀ x : Slot, entryAt t t.sequence x = w.ledger.kind x := fun x => by
    have hnone : entryAt (nextSequence w.tables).1 (w.tables.sequence + 1) x = none :=
      hbelow.entryAt_next x
    have hwrote := Ledger.entryAt_write hw x
    simp only [nextSequence] at hwrote hnone
    rw [hseq, hwrote, hnone, Option.or_none]
  refine ⟨fun x => ?_, ?_, ?_, hunder.below hopen le_rfl, by rw [hseq, h.sequence], ?_⟩
  · have := h.tracks x
    simp only [hentry, hviews]
    exact this
  · rw [hunder.frame]; exact h.hashes
  · rw [hunder.frame]; exact h.members
  · intro s x hs
    rw [hunder.other s x (by simp only [nextSequence, h.sequence]; omega)]
    simp only [entryAt, nextSequence, h.changes]

/-- A fresh sequence without a ledger. -/
theorem Inv.opened (h : Inv before) (hu : Unseen before t) : Logged before (nextSequence t).1 := by
  have hempty : Sound before ⟨t, Table.empty⟩ := (Sound.start h).unseen hu
  exact hempty.opened h.below rfl

/-! ## The line of a mailbox -/

/-- A line about a mailbox leaves the emails and the threads alone. -/
theorem Logged.mailbox (h : Logged before t) {id : MailboxId} {k : ChangeKind}
    (hl : log t t.sequence (.mailbox, id) k = .ok t') : Logged before t' := by
  have hunder := LogsUnder.of_log hl
  refine h.step (by rw [hunder.frame]) (fun x => ?_) ?_ ?_ (hunder.below h.below le_rfl)
    fun s x hs => hunder.other s x hs
  · refine .kept ?_ ?_ False.elim
    · rw [entryAt_log hl, if_neg fun hc => x.slot_ne_mailbox _ hc.2]
    · rw [hunder.frame]
      exact view_frame rfl rfl x
  · rw [hunder.frame]; exact h.hashes
  · rw [hunder.frame]; exact h.members

/-- The lines of many mailboxes. -/
theorem Logged.mailboxes (h : Logged before t) {changes : List (MailboxId × ChangeKind)} {s : Nat}
    (hs : s = t.sequence)
    (hl : changes.foldlM (fun t c => log t s (.mailbox, c.1) c.2) t = .ok t') :
    Logged before t' ∧ t'.sequence = t.sequence := by
  induction changes generalizing t with
  | nil =>
    obtain rfl : t = t' := by simpa [pure, Except.pure] using hl
    exact ⟨h, rfl⟩
  | cons c changes ih =>
    rw [List.foldlM_cons, Except.bind_eq_ok] at hl
    obtain ⟨t₁, h₁, hl⟩ := hl
    have hq : t₁.sequence = t.sequence := by rw [log_frame h₁]
    subst hs
    obtain ⟨hlog, hseq⟩ := ih (h.mailbox h₁) hq.symm hl
    exact ⟨hlog, hseq.trans hq⟩

/-! ## Closing -/

/-- **What was logged stands when the write commits.** -/
theorem Logged.told (h : Logged before t) (hrow : ∃ row ∈ t.changes, row.sequence = t.sequence) :
    Outcome before (prune t) := by
  refine ⟨⟨h.below.prune, h.hashes, h.members⟩, .inr ⟨h.sequence, fun x => ?_, ?_, ?_⟩⟩
  · have := h.tracks.agrees x
    rw [← entryAt_prune h.below] at this
    exact this
  · obtain ⟨row, hrow, hs⟩ := hrow
    exact ⟨row, (mem_prune_of_top h.below hs).2 hrow, hs⟩
  · obtain ⟨low, hlow, hprune⟩ := prune_kept h.below
    refine ⟨low, hlow, fun row hs => ?_⟩
    rw [hprune, mem_iff_entryAt, h.other row.sequence row.slot hs, ← mem_iff_entryAt]

theorem exists_row_of_entry {s : Nat} {x : Slot} {k : ChangeKind} (h : entryAt t s x = some k) :
    ∃ row ∈ t.changes, row.sequence = s := ⟨_, entryAt_eq_some.1 h, rfl⟩

/-- A write that ends with the line of its mailbox. -/
theorem Logged.closed (h : Logged before t) {id : MailboxId} {k : ChangeKind} {s : Nat}
    (hs : s = t.sequence) (hl : log t s (.mailbox, id) k = .ok t') :
    Outcome before (prune t') := by
  subst hs
  refine (h.mailbox hl).told ?_
  have hq : t'.sequence = t.sequence := by rw [log_frame hl]
  rw [hq]
  refine exists_row_of_entry (x := (.mailbox, id)) (k := k) ?_
  rw [entryAt_log hl, if_pos ⟨rfl, rfl⟩]

/-- A write whose ledger holds an entry and that logs nothing else. -/
theorem Sound.written (h : Sound before w) (hb : LogBelow before) (hne : ¬ w.ledger.isEmpty)
    (hw : w.ledger.write (nextSequence w.tables).1 (nextSequence w.tables).2 = .ok t) :
    Outcome before (prune t) := by
  refine (h.opened hb hw).told ?_
  obtain ⟨x, hx⟩ : ∃ x, w.ledger.kind x ≠ none := by
    by_contra hc
    push Not at hc
    exact hne (Ledger.isEmpty_iff.2 hc)
  obtain ⟨k, hk⟩ := Option.ne_none_iff_exists'.1 hx
  have hq : t.sequence = (nextSequence w.tables).2 := by rw [(Ledger.logsUnder_write hw).frame]; rfl
  rw [hq]
  refine exists_row_of_entry (x := x) (k := k) ?_
  rw [Ledger.entryAt_write hw, hk, Option.some_or]

/-- A sound write with an empty ledger moved nothing. -/
theorem Sound.quiet (h : Sound before w) (hi : Inv before) (he : w.ledger.isEmpty) :
    Outcome before w.tables := by
  refine ⟨⟨fun row hrow => ?_, h.hashes, h.members⟩, .inl ⟨h.sequence, h.changes, fun x => ?_⟩⟩
  · rw [h.changes] at hrow
    rw [h.sequence]
    exact hi.below row hrow
  · have := h.tracks.agrees x
    rw [Ledger.items, Ledger.isEmpty_iff.1 he] at this
    exact this

end Huliho
