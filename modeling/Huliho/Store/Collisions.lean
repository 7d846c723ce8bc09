import Huliho.Store.Passes

/-!
# When a pass commits

A pass logs twice under one sequence: `leave` writes a row for every mailbox the leaving emails were
members of, an upsert, and the plan writes its own changes behind it, each a plain `INSERT`. The two
meet where a mailbox the plan changed held an email that left — and then the pass fails
(`apply_isOk_iff`). `writeMailboxes` and a batch log the ledger first and are spared.

`Swept` follows the folders that go, one by one: the rows and memberships of the folders still to
come stand as they did, and the log says of a mailbox exactly what `Logs` reads off the rows before
the pass.
-/

namespace Huliho

variable {order : List MailboxId → List MailboxId} {mint : String → MailboxId}
  {before t t' : Tables} {found : List MailboxFacts} {s : Nat} {gone again : List MailboxId}

/-- A row that leaves the folder was a member of the mailbox. -/
def Sends (before : Tables) (folder : MailboxId) (leaving : Leaving) (m : MailboxId) : Prop :=
  m ≠ folder ∧ ∃ r ∈ before.emails, Leaves folder leaving r ∧ MemberOf before r.id m

/-- The folders that go, in this order, log the mailbox: a row that leaves a vanished one was a
member of it, unless the mailbox vanished first and took the membership along, or a row that leaves
a renumbered one was. -/
def Logs (before : Tables) (gone : List MailboxId) (again : MailboxId → Prop) (m : MailboxId) :
    Prop :=
  (∃ first folder rest, gone = first ++ folder :: rest ∧ m ∉ first ∧ Sends before folder .all m) ∨
  (m ∉ gone ∧ ∃ folder, again folder ∧ Sends before folder (renumberLeaving before folder) m)

/-- The pass changes a mailbox that the folders it takes log as well. -/
def Collides (order : List MailboxId → List MailboxId) (mint : String → MailboxId)
    (before : Tables) (found : List MailboxFacts) (letters : Letters) (flipped : Bool) : Prop :=
  ∃ m, Touched mint before found letters flipped m ∧
    Logs before (vanished order before found) (Renumbered mint before found) m

/-! ## Folder by folder -/

/-- The tables after the folders `gone` vanished and `again` were renumbered. -/
structure Swept (before : Tables) (s : Nat) (gone again : List MailboxId) (t : Tables) : Prop where
  emails : ∀ r, r.folderId ∉ gone → r.folderId ∉ again → (r ∈ t.emails ↔ r ∈ before.emails)
  members : ∀ r ∈ before.emails, r.folderId ∉ gone → r.folderId ∉ again →
    ∀ m, MemberOf t r.id m ↔ MemberOf before r.id m ∧ m ∉ gone
  logged : ∀ m, (entryAt t s (.mailbox, m)).isSome ↔ Logs before gone (· ∈ again) m

theorem Sends.mem_leaving (h : Swept before s gone again t) {folder : MailboxId}
    {leaving : Leaving} {m : MailboxId} (hg : folder ∉ gone) (ha : folder ∉ again) :
    (.mailbox, m) ∈ leavingMailboxes t folder leaving ↔ Sends before folder leaving m ∧ m ∉ gone := by
  rw [mem_leavingMailboxes]
  constructor
  · rintro ⟨m', heq, hne, r, hr, hl, hm⟩
    obtain rfl : m = m' := congrArg Prod.snd heq
    obtain rfl := hl.1
    have hr' := (h.emails r hg ha).1 hr
    obtain ⟨hm, hgone⟩ := (h.members r hr' hg ha m).1 hm
    exact ⟨⟨hne, r, hr', hl, hm⟩, hgone⟩
  · rintro ⟨⟨hne, r, hr, hl, hm⟩, hgone⟩
    obtain rfl := hl.1
    exact ⟨m, rfl, hne, r, (h.emails r hg ha).2 hr, hl,
      (h.members r hr hg ha m).2 ⟨hm, hgone⟩⟩

/-- What `leave` does to the rows of the folders still to come, and to the log of mailboxes. -/
theorem Swept.leave (h : Swept before s gone again t) {folder : MailboxId} (leaving : Leaving)
    (hg : folder ∉ gone) (ha : folder ∉ again) :
    (∀ r, r.folderId ≠ folder → (r ∈ (Huliho.leave t folder s leaving).emails ↔ r ∈ t.emails)) ∧
    (∀ r ∈ before.emails, r.folderId ≠ folder → r.folderId ∉ gone → r.folderId ∉ again →
      ∀ m, MemberOf (Huliho.leave t folder s leaving) r.id m ↔ MemberOf t r.id m) ∧
    ∀ m, (entryAt (Huliho.leave t folder s leaving) s (.mailbox, m)).isSome ↔
      (Sends before folder leaving m ∧ m ∉ gone) ∨ (entryAt t s (.mailbox, m)).isSome := by
  have hspec := leave_spec t folder s leaving
  refine ⟨fun r hne => ?_, fun r hr hne hrg hra m => ?_, fun m => ?_⟩
  · rw [hspec.emails]
    exact and_iff_left fun hl => hne hl.1
  · have hrt := (h.emails r hrg hra).2 hr
    constructor
    · rintro ⟨m', hm', hrest⟩
      exact ⟨m', ((hspec.memberships m').1 hm').1, hrest⟩
    · rintro ⟨m', hm', hid, hmb⟩
      refine ⟨m', (hspec.memberships m').2 ⟨hm', fun o ho hl hc => hne ?_⟩, hid, hmb⟩
      rw [← EmailRecord.eq_of_id ho hrt (hc.trans hid)]
      exact hl.1
  · rw [hspec.entries, entryAt_leaveLog_mailbox, ← Sends.mem_leaving h hg ha]
    split
    · rename_i hin
      simp [hin]
    · rename_i hin
      simp [hin]

/-- One more folder vanishes. -/
theorem Swept.vanish (h : Swept before s gone [] t) {folder : MailboxId} (hg : folder ∉ gone) :
    Swept before s (gone ++ [folder]) [] (Huliho.vanish t folder s) := by
  obtain ⟨hemails, hmembers, hlogged⟩ := h.leave .all hg List.not_mem_nil
  have hlog : LogsUnder s (Huliho.leave t folder s .all) (logEach (Huliho.leave t folder s .all) s
      (fun _ => .updated) (fun _ kind => kind) (membersOf (Huliho.leave t folder s .all) folder)) :=
    logsUnder_logEach
  have hrows : (Huliho.vanish t folder s).emails = (Huliho.leave t folder s .all).emails := by
    unfold Huliho.vanish
    simp only [forgetProgress]
    rw [hlog.frame]
  have hentry : ∀ m, entryAt (Huliho.vanish t folder s) s (.mailbox, m) =
      entryAt (Huliho.leave t folder s .all) s (.mailbox, m) := by
    intro m
    show entryAt (logEach _ _ _ _ _) _ _ = _
    rw [entryAt_logEach nodup_membersOf, if_neg]
    rintro ⟨-, hc⟩
    simp [membersOf] at hc
  refine ⟨fun r hrg hra => ?_, fun r hr hrg hra m => ?_, fun m => ?_⟩
  · rw [List.mem_append, List.mem_singleton, not_or] at hrg
    rw [hrows, hemails r hrg.2]
    exact h.emails r hrg.1 hra
  · rw [List.mem_append, List.mem_singleton, not_or] at hrg
    have hdeleted : MemberOf (Huliho.vanish t folder s) r.id m ↔
        MemberOf (Huliho.leave t folder s .all) r.id m ∧ m ≠ folder := by
      simp only [MemberOf, Huliho.vanish, forgetProgress, Table.mem_delete]
      constructor
      · rintro ⟨m', ⟨hm', hne⟩, hid, rfl⟩
        exact ⟨⟨m', hm', hid, rfl⟩, hne⟩
      · rintro ⟨⟨m', hm', hid, rfl⟩, hne⟩
        exact ⟨m', ⟨hm', hne⟩, hid, rfl⟩
    rw [hdeleted, hmembers r hr hrg.2 hrg.1 hra, h.members r hr hrg.1 hra, List.mem_append,
      List.mem_singleton, not_or, and_assoc]
  · rw [hentry, hlogged, h.logged]
    simp only [Logs, List.not_mem_nil, false_and, exists_false, and_false, or_false]
    constructor
    · rintro (⟨hs, hm⟩ | ⟨first, f, rest, heq, hm, hs⟩)
      · exact ⟨gone, folder, [], rfl, hm, hs⟩
      · exact ⟨first, f, rest ++ [folder], by rw [heq]; simp, hm, hs⟩
    · rintro ⟨first, f, rest, heq, hm, hs⟩
      -- The folder that logs the mailbox is the last one or stood before.
      rcases List.eq_nil_or_concat rest with rfl | ⟨rest, last, rfl⟩
      · obtain ⟨rfl, hlast⟩ := List.append_inj' heq rfl
        obtain rfl : folder = f := by simpa using hlast
        exact .inl ⟨hs, hm⟩
      · rw [List.concat_eq_append, ← List.cons_append, ← List.append_assoc] at heq
        obtain ⟨rfl, -⟩ := List.append_inj' heq rfl
        exact .inr ⟨first, f, rest, rfl, hm, hs⟩

theorem heldUids_congr {folder : MailboxId}
    (h : ∀ r, r.folderId = folder → (r ∈ t.emails ↔ r ∈ t'.emails)) :
    renumberLeaving t folder = renumberLeaving t' folder := by
  have hperm : (t.emails.rows.filter fun e => e.folderId = folder ∧ 0 < e.uid).Perm
      (t'.emails.rows.filter fun e => e.folderId = folder ∧ 0 < e.uid) := by
    have hnodup : ∀ t : Tables, t.emails.rows.Nodup := fun t =>
      t.emails.apart.imp fun hab hc => hab.1 (congrArg EmailRecord.id hc)
    refine (List.perm_ext_iff_of_nodup ((hnodup t).filter _) ((hnodup t').filter _)).2 fun r => ?_
    simp only [List.mem_filter, decide_eq_true_eq]
    exact ⟨fun ⟨hr, hf, hu⟩ => ⟨(h r hf).1 hr, hf, hu⟩, fun ⟨hr, hf, hu⟩ => ⟨(h r hf).2 hr, hf, hu⟩⟩
  rw [renumberLeaving, renumberLeaving, heldUids, heldUids, hperm.length_eq]

/-- **A renumbering goes through**: no row waits where another one will. -/
theorem renumber_total (t : Tables) (folder : MailboxId) (s : Nat) :
    ∃ emails, (leave t folder s (renumberLeaving t folder)).emails.update?
      (EmailRecord.wait folder) = some emails := by
  refine Option.isSome_iff_exists.1 (Table.update?_isSome fun a ha b hb hab => ?_)
  have hstay := fun r hr =>
    (((leave_spec t folder s (renumberLeaving t folder)).emails r).1 hr).2
  have hwaits : ∀ r : EmailRecord, (r.wait folder).id = r.id ∧
      (r.wait folder).folderId = r.folderId ∧ (r.wait folder).gmailMsgid = r.gmailMsgid :=
    fun r => by unfold EmailRecord.wait; split <;> exact ⟨rfl, rfl, rfl⟩
  have huid : ∀ r : EmailRecord, (r.wait folder).uid =
      if r.folderId = folder ∧ 0 < r.uid then -r.uid else r.uid := fun r => by
    unfold EmailRecord.wait; split <;> rfl
  refine ⟨?_, ?_, ?_⟩
  · rw [(hwaits a).1, (hwaits b).1]
    exact hab.1
  · rintro ⟨hf, hu⟩
    rw [(hwaits a).2.1, (hwaits b).2.1] at hf
    refine hab.2.1 ⟨hf, ?_⟩
    by_cases haf : a.folderId = folder
    · -- Every row of the folder that waited left before, so none holds a negative UID.
      have hpos : ∀ r, r ∈ (leave t folder s (renumberLeaving t folder)).emails →
          r.folderId = folder → 0 ≤ r.uid := by
        intro r hr hrf
        by_contra hneg
        refine hstay r hr ⟨hrf, ?_⟩
        have : (0 : Int) ≤ (renumberLeaving t folder).below := by
          cases renumberLeaving t folder <;> decide
        omega
      have hpa := hpos a ha haf
      have hpb := hpos b hb (hf ▸ haf)
      have hbf : b.folderId = folder := hf ▸ haf
      rw [huid, huid] at hu
      simp only [haf, hbf, true_and] at hu
      split at hu <;> split at hu <;> omega
    · have hbf : b.folderId ≠ folder := hf ▸ haf
      rw [huid, huid] at hu
      simpa [haf, hbf] using hu
  · rw [(hwaits a).2.2, (hwaits b).2.2]
    exact hab.2.2

/-- One more folder is renumbered. -/
theorem Swept.renumber (h : Swept before s gone again t) {folder : MailboxId} (hg : folder ∉ gone)
    (ha : folder ∉ again) :
    ∃ t', Huliho.renumber t folder s = .ok t' ∧ Swept before s gone (again ++ [folder]) t' := by
  have hleaving : renumberLeaving t folder = renumberLeaving before folder :=
    heldUids_congr fun r hr => h.emails r (hr ▸ hg) (hr ▸ ha)
  obtain ⟨emails, hu⟩ := renumber_total t folder s
  obtain ⟨hemails, hmembers, hlogged⟩ := h.leave (renumberLeaving t folder) hg ha
  refine ⟨forgetProgress { Huliho.leave t folder s (renumberLeaving t folder) with emails } folder,
    ?_, fun r hrg hra => ?_, fun r hr hrg hra m => ?_, fun m => ?_⟩
  · rw [Huliho.renumber]
    simp only [hu, constrained]
    rfl
  · rw [List.mem_append, List.mem_singleton, not_or] at hra
    rw [← h.emails r hrg hra.1, ← hemails r hra.2]
    refine (Table.mem_update? hu).trans ⟨?_, fun hr => ⟨r, hr, if_neg fun hc => hra.2 hc.1⟩⟩
    rintro ⟨o, ho, rfl⟩
    have hof : (o.wait folder).folderId = o.folderId := by
      unfold EmailRecord.wait; split <;> rfl
    rwa [show o.wait folder = o from if_neg fun hc => hra.2 (hof.trans hc.1)]
  · rw [List.mem_append, List.mem_singleton, not_or] at hra
    exact (hmembers r hr hra.2 hrg hra.1 m).trans (h.members r hr hrg hra.1 m)
  · refine (hlogged m).trans ?_
    rw [h.logged, hleaving]
    simp only [Logs, List.mem_append, List.mem_singleton]
    constructor
    · rintro (⟨hs, hm⟩ | hv | ⟨hm, f, hf, hs⟩)
      · exact .inr ⟨hm, folder, .inr rfl, hs⟩
      · exact .inl hv
      · exact .inr ⟨hm, f, .inl hf, hs⟩
    · rintro (hv | ⟨hm, f, hf | rfl, hs⟩)
      · exact .inr (.inl hv)
      · exact .inr (.inr ⟨hm, f, hf, hs⟩)
      · exact .inl ⟨hs, hm⟩

/-! ## The pass -/

theorem Swept.start (hb : LogBelow before) (hu : OnlyMailboxes before t) :
    Swept before (nextSequence t).2 [] [] (nextSequence t).1 := by
  have hemails : t.emails = before.emails := by rw [hu]
  have hmembers : t.memberships = before.memberships := by rw [hu]
  refine ⟨fun r _ _ => by rw [nextSequence]; simp only [hemails], fun r _ _ _ m => ?_, fun m => ?_⟩
  · simp only [MemberOf, nextSequence, hmembers, List.not_mem_nil, not_false_eq_true, and_true]
  · have hbelow : LogBelow t := fun row hrow => by
      rw [hu] at hrow ⊢
      exact hb row hrow
    have hnone : entryAt (nextSequence t).1 (nextSequence t).2 (.mailbox, m) = none :=
      hbelow.entryAt_next _
    rw [hnone]
    simp [Logs]

/-- **When a pass commits**: exactly where no mailbox it changes is logged by a folder it takes. -/
theorem apply_isOk_iff (hb : LogBelow before) (hl : Write.Listing order mint found before)
    (letters : Letters) (flipped : Bool) :
    (apply order mint before found letters flipped).isOk ↔
      ¬ Collides order mint before found letters flipped := by
  obtain ⟨p, hplan, hids, hnodup, hrenumbered, hrnodup⟩ := planPass_spec hl letters flipped
  have hrows := planPass_mailboxes hplan
  unfold apply
  rw [hplan]
  simp only [bind, Except.bind]
  by_cases hnil : p.changes = []
  · simp only [hnil, if_true]
    refine iff_of_true rfl ?_
    rintro ⟨m, ht, -⟩
    have := (hids m).2 ht
    rw [hnil] at this
    simp [ids] at this
  · simp only [hnil, if_false]
    -- The vanished folders, one by one.
    have hvanished : Swept before (nextSequence p.tables).2 (vanished order before found) []
        ((vanished order before found).foldl (fun t id => vanish t id (nextSequence p.tables).2)
          (nextSequence p.tables).1) := by
      have hnd := nodup_vanished hl
      obtain ⟨done, hdone, hswept⟩ := foldl_rest (P := fun rest t =>
          ∃ done, vanished order before found = done ++ rest ∧
            Swept before (nextSequence p.tables).2 done [] t)
        (f := fun t id => vanish t id (nextSequence p.tables).2)
        (fun id rest t h => by
          obtain ⟨done, hdone, hswept⟩ := h
          refine ⟨done ++ [id], by rw [hdone]; simp, hswept.vanish fun hc => ?_⟩
          rw [hdone, List.nodup_append] at hnd
          exact hnd.2.2 id hc id List.mem_cons_self rfl)
        (l := vanished order before found) ⟨[], rfl, Swept.start hb hrows⟩
      rw [List.append_nil] at hdone
      rw [hdone] at hswept ⊢
      exact hswept
    -- Then the renumbered ones: they were found, so none of them vanished.
    have hfound : ∀ f ∈ p.renumbered, f ∉ vanished order before found := by
      intro f hf hc
      obtain ⟨facts, hfacts, r, hr, rfl, -⟩ := (hrenumbered f).1 hf
      obtain ⟨hmem, hname⟩ := existing_eq_some.1 hr
      rw [← idOf_of_mem mint hmem, hname] at hc
      exact not_vanished hl (mem_foundNames.2 ⟨facts, hfacts, rfl⟩) hc
    obtain ⟨t₁, hloop, done, hdone, hswept⟩ := foldlM_total (P := fun rest t =>
        ∃ done, p.renumbered = done ++ rest ∧
          Swept before (nextSequence p.tables).2 (vanished order before found) done t)
      (f := fun t id => renumber t id (nextSequence p.tables).2)
      (fun id rest t h => by
        obtain ⟨done, hdone, hswept⟩ := h
        have hid : id ∈ p.renumbered := by
          rw [hdone]
          exact List.mem_append_right _ List.mem_cons_self
        have hnew : id ∉ done := fun hc => by
          rw [hdone, List.nodup_append] at hrnodup
          exact hrnodup.2.2 id hc id List.mem_cons_self rfl
        obtain ⟨t', ht', hs'⟩ := hswept.renumber (hfound id hid) hnew
        exact ⟨t', ht', done ++ [id], by rw [hdone]; simp, hs'⟩)
      (l := p.renumbered) ⟨[], rfl, hvanished⟩
    rw [List.append_nil] at hdone
    subst hdone
    have hloop' : (p.renumbered.foldlM (fun t id => renumber t id (nextSequence p.tables).2)
        ((vanished order before found).foldl (fun t id => vanish t id (nextSequence p.tables).2)
          (nextSequence p.tables).1)) = .ok t₁ := hloop
    rw [hloop']
    simp only
    -- The plan's own lines go in where none of them is there yet.
    have hlines := Ledger.foldlM_log_isOk (s := (nextSequence p.tables).2)
      (p.changes.map fun c => ((.mailbox, c.1), c.2)) t₁ (by
        rw [List.pairwise_map]
        refine (List.pairwise_map.1 hnodup).imp fun hne hc => hne (congrArg Prod.snd hc))
    rw [List.foldlM_map] at hlines
    have hcollides : Collides order mint before found letters flipped ↔
        ∃ c ∈ p.changes, (entryAt t₁ (nextSequence p.tables).2 (.mailbox, c.1)).isSome := by
      have hlogs : ∀ m, Logs before (vanished order before found) (Renumbered mint before found) m ↔
          Logs before (vanished order before found) (· ∈ p.renumbered) m := fun m => by
        simp only [Logs, hrenumbered]
      simp only [Collides, ← hids, hlogs, hswept.logged]
      constructor
      · rintro ⟨m, hm, h⟩
        obtain ⟨c, hc, rfl⟩ := List.mem_map.1 hm
        exact ⟨c, hc, h⟩
      · rintro ⟨c, hc, h⟩
        exact ⟨c.1, List.mem_map_of_mem hc, h⟩
    rw [hcollides]
    have hall : (∀ e ∈ p.changes.map (fun c => (((ObjectType.mailbox, c.1), c.2) : Entry)),
        entryAt t₁ (nextSequence p.tables).2 e.1 = none) ↔
        ¬ ∃ c ∈ p.changes, (entryAt t₁ (nextSequence p.tables).2 (.mailbox, c.1)).isSome := by
      rw [List.forall_mem_map]
      push Not
      exact forall₂_congr fun c _ => by simp
    rw [← hall, ← hlines]
    cases p.changes.foldlM (fun t c => log t (nextSequence p.tables).2 (.mailbox, c.1) c.2) t₁ with
    | ok t₂ => simp [Except.isOk, Except.toBool, pure, Except.pure]
    | error e => simp [Except.isOk, Except.toBool]

/-! ## Passes of a run -/

/-- **Which passes commit.** On a reachable store a pass, and the listing alone, goes through
exactly where the account is not forgotten and the folders it takes log no mailbox it changes. -/
theorem Reachable.pass_commits {store : Store} (h : Reachable store) (pass : Pass)
    (hl : Write.Listing order mint pass.found store.tables) :
    ((store.run (.pass order mint pass)).2 = .ok () ↔ store.forgotten = false ∧
      ¬ Collides order mint store.tables pass.found pass.rights
        (store.moving ≠ some pass.moving)) ∧
    ((store.run (.mailboxes order mint pass.found)).2 = .ok () ↔ store.forgotten = false ∧
      ¬ Collides order mint store.tables pass.found (some fun _ => none) false) := by
  have hrun : ∀ (write : Write) letters flipped, write.operation store.moving store.tables =
      Prod.fst <$> apply order mint store.tables pass.found letters flipped →
      ((store.run write).2 = .ok () ↔ store.forgotten = false ∧
        ¬ Collides order mint store.tables pass.found letters flipped) := by
    intro write letters flipped ho
    rw [← apply_isOk_iff h.inv.below hl, Store.run, ho]
    cases store.forgotten with
    | true => simp
    | false =>
      cases apply order mint store.tables pass.found letters flipped with
      | ok answer => simp [Functor.map, Except.map, Except.isOk, Except.toBool]
      | error error => simp [Functor.map, Except.map, Except.isOk, Except.toBool]
  exact ⟨hrun _ _ _ rfl, hrun _ _ _ rfl⟩

/-- A pass that finds the one folder again goes through. -/
theorem pass_commits_again :
    (oneFolder.run (.pass id (lettered 'n')
      ⟨[folderFacts "INBOX" (some "inbox") none], ⟨true, true⟩, none⟩)).2 = .ok () := by
  have hempty : ∀ r, r ∉ oneFolder.tables.emails := by
    intro r hr
    rw [Table.mem_def, show oneFolder.tables.emails.rows = [] by decide +kernel] at hr
    cases hr
  refine (oneFolder_reachable.pass_commits ⟨[folderFacts "INBOX" (some "inbox") none],
    ⟨true, true⟩, none⟩ (listing_numbered (by decide) (by decide +kernel))).1.2 ⟨rfl, ?_⟩
  rintro ⟨m, -, ⟨_, _, _, -, -, -, r, hr, -⟩ | ⟨-, _, -, -, r, hr, -⟩⟩
  · exact hempty r hr
  · exact hempty r hr

/-- All Mail of a Gmail account, and the mailbox of a label. -/
def allMailFacts : MailboxFacts :=
  ⟨"All Mail", "[Gmail]/All Mail", none, some "archive", 1, true, true, true, none, some 1, some 1,
    none, 1, 0⟩

def workFacts (totalEmails : Nat) : MailboxFacts :=
  ⟨"Work", "Work", none, none, 2, true, true, false, some "Work", none, none, none, totalEmails, 0⟩

/-- The listing that finds both. -/
def firstGmailPass : Write :=
  .pass id (lettered 'm') ⟨[allMailFacts, workFacts 0], ⟨true, true⟩, none⟩

/-- A message in All Mail under the label. -/
def labelledBatch : Write :=
  .batch plainSealer (numberedMint 'e' 'd') ⟨"m[Gmail]/All Mail", 1,
    [{ plainFacts 1 with gmail := some ⟨["Work"], 1, 1⟩ }], .down (some 1) true ⟨none, none, none⟩⟩

/-- A Gmail account with one labelled message. -/
def labelled : Store := ((Store.fresh.run firstGmailPass).1.run labelledBatch).1

theorem labelled_reachable : Reachable labelled :=
  .run (.run .fresh firstGmailPass (listing_numbered (by decide) (by decide +kernel))) labelledBatch
    (minting_numbered (by decide +kernel) (by decide +kernel) (by decide +kernel))

/-- The next listing: All Mail is hidden from it, and the label counts one message more. -/
def hiddenPass : Write := .pass id (lettered 'n') ⟨[workFacts 1], ⟨true, true⟩, none⟩

/-- **A pass that never commits.** All Mail leaves and logs the label mailbox its message was in;
the plan logs the same mailbox, since its count moved, and meets the primary key. The rollback
leaves the store as it was, so the same listing fails every time. -/
theorem pass_never_commits : Reachable labelled ∧ hiddenPass.Fresh labelled.tables ∧
    (labelled.run hiddenPass).2 = .error .database ∧ (labelled.run hiddenPass).1 = labelled := by
  have hfail : (labelled.run hiddenPass).2 = .error .database := by decide +kernel
  refine ⟨labelled_reachable, listing_numbered (by decide) (by decide +kernel), hfail, ?_⟩
  rcases labelled.run_cases hiddenPass with ⟨tables, -, hr⟩ | ⟨error, hr⟩
  · rw [hr] at hfail
    cases hfail
  · rw [hr]

end Huliho
