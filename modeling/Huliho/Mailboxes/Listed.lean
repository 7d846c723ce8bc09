import Huliho.Store.Passes

/-!
# The mailboxes a pass leaves

`apply` of `store/mailboxes.rs` leaves the rows of what the listing found and no others:
**`apply_listed`**. On the way every row is one the pass is done with or one from before whose name
it has not come to (`PassUnderway`).
-/

namespace Huliho

variable {order : List MailboxId → List MailboxId} {mint : String → MailboxId}
  {before t t' : Tables} {found : List MailboxFacts}

/-- Every mailbox row is the row of a found mailbox. -/
def ListedAs (mint : String → MailboxId) (before : Tables) (found : List MailboxFacts)
    (t : Tables) : Prop :=
  ∀ r ∈ t.mailboxes, ∃ facts ∈ found, r.row = wantedRow mint before found facts

/-- Every mailbox row is the row of a mailbox already done, or a row from before of another name. -/
def PassUnderway (mint : String → MailboxId) (before : Tables) (found done : List MailboxFacts)
    (t : Tables) : Prop :=
  ∀ r ∈ t.mailboxes, (∃ facts ∈ done, r.row = wantedRow mint before found facts) ∨
    r.row.facts.imapName ∉ done.map MailboxFacts.imapName ∧ ∃ s ∈ before.mailboxes, s.row = r.row

theorem mem_of_upsert {row : MailboxRow} (h : upsert t row = .ok t') {r : MailboxRecord}
    (hr : r ∈ t'.mailboxes) :
    r.row = { row with facts.parentImapName := none } ∨ r ∈ t.mailboxes ∧ r.row.id ≠ row.id := by
  unfold upsert at h
  obtain ⟨mailboxes, hm, h⟩ := Except.bind_eq_ok.1 h
  rw [constrained_eq_ok] at hm
  cases h
  split_ifs at hm with hf
  · obtain ⟨s, hs, rfl⟩ := (Table.mem_update? hm).1 hr
    unfold MailboxRecord.takes
    split_ifs with hid
    · exact .inl rfl
    · exact .inr ⟨hs, hid⟩
  · rcases (Table.mem_insert? hm).1 hr with hr | rfl
    · refine .inr ⟨hr, fun hid => hf ?_⟩
      cases hfind : t.mailboxes.find? fun r => r.row.id = row.id with
      | some _ => rfl
      | none => exact absurd hid (Table.find?_eq_none.1 hfind r hr)
    · exact .inl rfl

/-- One found mailbox. -/
theorem PassUnderway.turn {done : List MailboxFacts} {p p' : Passing} {facts : MailboxFacts}
    (h : PassUnderway mint before found done p.tables)
    (hstep : passFacts mint before found p facts = .ok p') :
    PassUnderway mint before found (done ++ [facts]) p'.tables := by
  -- A row of another name stays what it was.
  have hother : ∀ r ∈ p.tables.mailboxes, r.row.facts.imapName ≠ facts.imapName →
      (∃ done' ∈ done ++ [facts], r.row = wantedRow mint before found done') ∨
        r.row.facts.imapName ∉ (done ++ [facts]).map MailboxFacts.imapName ∧
          ∃ s ∈ before.mailboxes, s.row = r.row := by
    intro r hr hname
    refine (h r hr).imp (fun ⟨done', hdone, hrow⟩ => ⟨done', List.mem_append_left _ hdone, hrow⟩)
      fun ⟨hnot, hold⟩ => ⟨?_, hold⟩
    rw [List.map_append, List.mem_append, not_or]
    exact ⟨hnot, fun hc => hname (List.mem_singleton.1 hc)⟩
  have hupsert : ∀ tables, upsert p.tables (wantedRow mint before found facts) = .ok tables →
      PassUnderway mint before found (done ++ [facts]) tables := by
    intro tables hw r hr
    rcases mem_of_upsert hw hr with hrow | ⟨hr, hid⟩
    · exact .inl ⟨facts, by simp, hrow⟩
    · by_cases hname : r.row.facts.imapName = facts.imapName
      · rcases h r hr with ⟨done', hdone, hrow⟩ | ⟨-, s, hs, hrow⟩
        · exact .inl ⟨done', List.mem_append_left _ hdone, hrow⟩
        · rw [← hrow] at hname hid
          have := idOf_of_mem mint hs
          rw [hname] at this
          exact absurd this.symm hid
      · exact hother r hr hname
  unfold passFacts at hstep
  dsimp only at hstep
  split at hstep
  · rename_i current hcurrent
    split_ifs at hstep with hsame
    · cases hstep
      intro r hr
      by_cases hname : r.row.facts.imapName = facts.imapName
      · rcases h r hr with ⟨done', hdone, hrow⟩ | ⟨-, s, hs, hrow⟩
        · exact .inl ⟨done', List.mem_append_left _ hdone, hrow⟩
        · obtain ⟨hc, hcname⟩ := existing_eq_some.1 hcurrent
          rw [← hrow] at hname
          obtain rfl := MailboxRecord.eq_of_imapName hs hc (hname.trans hcname.symm)
          exact .inl ⟨facts, by simp, hrow.symm.trans hsame⟩
      · exact hother r hr hname
    all_goals
      obtain ⟨tables, hw, hstep⟩ := Except.bind_eq_ok.1 hstep
      cases hstep
      exact hupsert tables hw
  · obtain ⟨tables, hw, hstep⟩ := Except.bind_eq_ok.1 hstep
    cases hstep
    exact hupsert tables hw

theorem PassUnderway.run {rest done : List MailboxFacts} {p p' : Passing}
    (h : PassUnderway mint before found done p.tables)
    (hrun : rest.foldlM (passFacts mint before found) p = .ok p') :
    PassUnderway mint before found (done ++ rest) p'.tables := by
  induction rest generalizing done p with
  | nil =>
    cases hrun
    rwa [List.append_nil]
  | cons facts rest ih =>
    rw [List.foldlM_cons] at hrun
    obtain ⟨q, hstep, hrun⟩ := Except.bind_eq_ok.1 hrun
    have := ih (h.turn hstep) hrun
    rwa [List.append_assoc] at this

/-! ## After the rows -/

/-- The letters of a pass leave every row as it is. -/
theorem passRights_rows (letters : Letters) (p : Passing) {r : MailboxRecord}
    (hr : r ∈ (passRights mint before found letters p).tables.mailboxes) :
    ∃ s ∈ p.tables.mailboxes, s.row = r.row := by
  unfold passRights at hr
  generalize foundNames found = names at hr
  induction names generalizing p with
  | nil => exact ⟨r, hr, rfl⟩
  | cons name names ih =>
    obtain ⟨s, hs, hrow⟩ := ih _ hr
    unfold applyRights at hs
    dsimp only at hs
    split_ifs at hs
    · exact ⟨s, hs, hrow⟩
    · obtain ⟨q, hq, rfl⟩ := (Table.mem_revise (MailboxRecord.lettered_apart _ _)).1 hs
      refine ⟨q, hq, ?_⟩
      rw [← hrow]
      unfold MailboxRecord.onId
      split_ifs <;> rfl

theorem passVanished_rows (gone : List MailboxId) (p : Passing) {r : MailboxRecord}
    (hr : r ∈ (passVanished gone p).tables.mailboxes) :
    r ∈ p.tables.mailboxes ∧ r.row.id ∉ gone := by
  unfold passVanished at hr
  induction gone generalizing p with
  | nil => exact ⟨hr, List.not_mem_nil⟩
  | cons id gone ih =>
    obtain ⟨hr, hgone⟩ := ih _ hr
    obtain ⟨hr, hid⟩ := Table.mem_delete.1 hr
    exact ⟨hr, fun hc => (List.mem_cons.1 hc).elim hid hgone⟩

/-- **A pass plans the rows of what it found.** -/
theorem planPass_listed (hl : Write.Listing order mint found before) {letters : Letters}
    {flipped : Bool} {p : Passing} (h : planPass order mint before found letters flipped = .ok p) :
    ListedAs mint before found p.tables := by
  unfold planPass at h
  obtain ⟨q, hloop, h⟩ := Except.bind_eq_ok.1 h
  have hp : p.tables = (passVanished (vanished order before found)
      (passRights mint before found letters q)).tables := by
    cases h
    unfold passFlipped
    split_ifs <;> rfl
  have hstart : PassUnderway mint before found [] before := fun r hr =>
    .inr ⟨List.not_mem_nil, r, hr, rfl⟩
  have hunderway := hstart.run (p := ⟨before, [], []⟩) hloop
  intro r hr
  rw [hp] at hr
  obtain ⟨hr, hstays⟩ := passVanished_rows _ _ hr
  obtain ⟨s, hs, hrow⟩ := passRights_rows letters q hr
  rw [← hrow] at hstays ⊢
  rcases hunderway s hs with hfound | ⟨hnot, old, hold, hrow'⟩
  · exact hfound
  · -- A name the listing does not hold has vanished.
    refine absurd ((mem_vanished hl).2 ⟨old, hold, by rw [hrow'], ?_⟩) hstays
    rw [hrow', mem_foundNames]
    rintro ⟨facts, hfacts, hname⟩
    exact hnot (List.mem_map.2 ⟨facts, hfacts, hname⟩)

/-! ## After the log -/

theorem logEach_mailboxes (sequence : Nat) (kind : Slot → ChangeKind)
    (onConflict : ChangeKind → ChangeKind → ChangeKind) (xs : List Slot) (t : Tables) :
    (logEach t sequence kind onConflict xs).mailboxes = t.mailboxes := by
  induction xs generalizing t with
  | nil => rfl
  | cons x xs ih => exact ih _

theorem leave_mailboxes (t : Tables) (folder : MailboxId) (sequence : Nat) (leaving : Leaving) :
    (leave t folder sequence leaving).mailboxes = t.mailboxes := by
  unfold leave
  dsimp only
  rw [logEach_mailboxes, logEach_mailboxes, logEach_mailboxes]

theorem vanish_mailboxes (t : Tables) (folder : MailboxId) (sequence : Nat) :
    (vanish t folder sequence).mailboxes = t.mailboxes :=
  (logEach_mailboxes ..).trans (leave_mailboxes ..)

theorem renumber_mailboxes {folder : MailboxId} {sequence : Nat}
    (h : renumber t folder sequence = .ok t') : t'.mailboxes = t.mailboxes := by
  unfold renumber at h
  obtain ⟨emails, -, h⟩ := Except.bind_eq_ok.1 h
  cases h
  exact leave_mailboxes ..

theorem log_mailboxes {sequence : Nat} {slot : Slot} {kind : ChangeKind}
    (h : log t sequence slot kind = .ok t') : t'.mailboxes = t.mailboxes := by
  unfold log at h
  obtain ⟨changes, -, h⟩ := Except.bind_eq_ok.1 h
  cases h
  rfl

/-- Steps that keep the mailboxes keep them over a run. -/
theorem foldlM_mailboxes {α : Type} {step : Tables → α → Except StoreError Tables}
    (hstep : ∀ t a t', step t a = .ok t' → t'.mailboxes = t.mailboxes) (l : List α) (t : Tables)
    {t' : Tables} (h : l.foldlM step t = .ok t') : t'.mailboxes = t.mailboxes := by
  induction l generalizing t with
  | nil =>
    cases h
    rfl
  | cons a l ih =>
    rw [List.foldlM_cons] at h
    obtain ⟨s, hs, h⟩ := Except.bind_eq_ok.1 h
    exact (ih s h).trans (hstep t a s hs)

/-- **After a pass every mailbox is one the listing found**, as the pass wants its row. -/
theorem apply_listed (hl : Write.Listing order mint found before) {letters : Letters}
    {flipped : Bool} {sequence : Nat}
    (h : apply order mint before found letters flipped = .ok (t, sequence)) :
    ListedAs mint before found t := by
  unfold apply at h
  obtain ⟨p, hplan, h⟩ := Except.bind_eq_ok.1 h
  have hlisted := planPass_listed hl hplan
  split_ifs at h with hquiet
  · cases h
    exact hlisted
  · dsimp only [nextSequence] at h
    obtain ⟨t₁, hrenumber, h⟩ := Except.bind_eq_ok.1 h
    obtain ⟨t₂, hlog, h⟩ := Except.bind_eq_ok.1 h
    cases h
    have hgone : ∀ (gone : List MailboxId) (t : Tables),
        (gone.foldl (fun t id => vanish t id (p.tables.sequence + 1)) t).mailboxes =
          t.mailboxes := by
      intro gone
      induction gone with
      | nil => exact fun t => rfl
      | cons id gone ih => exact fun t => (ih _).trans (vanish_mailboxes ..)
    have hkept : (prune t₂).mailboxes = p.tables.mailboxes :=
      (foldlM_mailboxes (fun _ _ _ h => log_mailboxes h) _ _ hlog).trans
        ((foldlM_mailboxes (fun _ _ _ h => renumber_mailboxes h) _ _ hrenumber).trans
          (hgone _ _))
    intro r hr
    rw [hkept] at hr
    exact hlisted r hr

end Huliho
