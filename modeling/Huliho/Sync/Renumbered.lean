import Huliho.Lib.Steps
import Huliho.Store.Collisions
import Huliho.Sync.Rematch

/-!
# A renumbered folder is synced in full

A pass finds the folder under another UIDVALIDITY and it starts over (**`apply_startsOver`**). Then
come the batches of the new listing, between any writes that leave the folder alone, and with the one
that finishes the first sync every row that still waits leaves. **Of each identity as many rows are
kept as the smaller of what waited and what is listed** (**`rematched`**).

A message that carries an X-GM-MSGID is found by that id alone, so of two messages of one identity it
takes the row of neither (`gmail_renumbered`).
-/

namespace Huliho.Sync

variable {origin t t' : Tables} {folder : MailboxId}

/-! ## The pass that finds the folder renumbered -/

/-- A folder that starts over: no row stands under a UID of the server, and no progress is kept. -/
structure StartsOver (folder : MailboxId) (t : Tables) : Prop where
  waits : ∀ r ∈ t.emails, r.folderId = folder → r.uid ≤ 0
  progress : ∀ s ∈ t.sync, s.folderId ≠ folder

/-- The rows and the progress a renumbering leaves. -/
theorem renumber_rows {s : Nat} (h : renumber t folder s = .ok t') :
    (∀ r, r ∈ t'.emails ↔ ∃ r₀ ∈ t.emails, ¬ Leaves folder (renumberLeaving t folder) r₀ ∧
      r₀.wait folder = r) ∧ ∀ p, p ∈ t'.sync ↔ p ∈ t.sync ∧ p.folderId ≠ folder := by
  simp only [renumber, Except.bind_eq_ok, constrained_eq_ok, pure, Except.pure,
    Except.ok.injEq] at h
  obtain ⟨emails, hemails, rfl⟩ := h
  have hspec := leave_spec t folder s (renumberLeaving t folder)
  refine ⟨fun r => (Table.mem_update? hemails).trans ?_, fun p => ?_⟩
  · simp only [hspec.emails, and_assoc]
  · refine Table.mem_delete.trans ?_
    rw [hspec.frame]

theorem startsOver_renumber {s : Nat} (h : renumber t folder s = .ok t') :
    StartsOver folder t' := by
  obtain ⟨hrows, hsync⟩ := renumber_rows h
  refine ⟨fun r hr hf => ?_, fun p hp => ((hsync p).1 hp).2⟩
  obtain ⟨r₀, -, -, rfl⟩ := (hrows r).1 hr
  unfold EmailRecord.wait at hf ⊢
  split
  · simp only
    omega
  · next hnot =>
    rw [if_neg hnot] at hf
    by_contra hpos
    exact hnot ⟨hf, by omega⟩

theorem StartsOver.renumber {other : MailboxId} {s : Nat} (h : StartsOver folder t)
    (hne : other ≠ folder) (hr : renumber t other s = .ok t') : StartsOver folder t' := by
  obtain ⟨hrows, hsync⟩ := renumber_rows hr
  refine ⟨fun r hr hf => ?_, fun p hp => h.progress p ((hsync p).1 hp).1⟩
  obtain ⟨r₀, hr₀, -, rfl⟩ := (hrows r).1 hr
  unfold EmailRecord.wait at hf ⊢
  split
  · next hother =>
    rw [if_pos hother] at hf
    exact absurd (hother.1.symm.trans hf) hne
  · next hnot =>
    rw [if_neg hnot] at hf
    exact h.waits r₀ hr₀ hf

theorem StartsOver.frame (h : StartsOver folder t) (hemails : t'.emails = t.emails)
    (hsync : t'.sync = t.sync) : StartsOver folder t' :=
  ⟨hemails ▸ h.waits, hsync ▸ h.progress⟩

/-- **A pass that finds a folder renumbered leaves it to start over**, wherever the folder stands
among those it renumbers. -/
theorem apply_startsOver {order : List MailboxId → List MailboxId} {mint : String → MailboxId}
    {found : List MailboxFacts} {letters : Letters} {flipped : Bool} {s : Nat}
    (hl : Write.Listing order mint found t) (hrenumbered : Renumbered mint t found folder)
    (hw : apply order mint t found letters flipped = .ok (t', s)) : StartsOver folder t' := by
  obtain ⟨p, hplan, hids, -, hagain, -⟩ := planPass_spec hl letters flipped
  have hfolder := (hagain folder).2 hrenumbered
  simp only [apply, hplan, Except.bind_eq_ok, Except.ok.injEq] at hw
  obtain ⟨_, rfl, hw⟩ := hw
  split at hw
  · -- a pass that changes nothing renumbers nothing
    next hnone =>
    obtain ⟨facts, hfacts, r, hr, hid, hwas⟩ := hrenumbered
    have htouched : Touched mint t found letters flipped folder := by
      refine .inl ⟨facts, hfacts, ?_, .inl fun r' hr' heq => ?_⟩
      · obtain ⟨hmem, hname⟩ := existing_eq_some.1 hr
        rw [← hname, idOf_of_mem mint hmem, hid]
      · obtain rfl := Option.some.inj (hr.symm.trans hr')
        exact hwas.2.2 (by rw [heq])
    have hchanged := (hids folder).2 htouched
    rw [hnone] at hchanged
    cases hchanged
  · simp only [Except.bind_eq_ok, pure, Except.pure, Except.ok.injEq, Prod.mk.injEq] at hw
    obtain ⟨t₁, hagain, t₂, hlogs, rfl, -⟩ := hw
    have hover : StartsOver folder t₁ := by
      refine (foldlM_rest (P := fun rest t => folder ∈ rest ∨ StartsOver folder t)
        (fun id rest t t' h hr => ?_) (.inl hfolder) hagain).resolve_left List.not_mem_nil
      by_cases hid : id = folder
      · exact .inr (startsOver_renumber (hid ▸ hr))
      · exact h.imp (fun hmem => (List.mem_cons.1 hmem).resolve_left (Ne.symm hid))
          fun hover => hover.renumber hid hr
    refine StartsOver.frame (t := t₂) ?_ rfl rfl
    exact foldlM_keeps hover (fun c _ t t' h hlog => h.frame (by rw [log_frame hlog])
      (by rw [log_frame hlog])) hlogs

/-! ## The sync behind it -/

/-- A write with the commands for moving mail it runs under. -/
abbrev Turn := Option Moving × Write

/-- The rows a write that goes through leaves; one that fails is rolled back. -/
def turn (t : Tables) (a : Turn) : Option Tables := (a.2.operation a.1 t).toOption

theorem turn_batch {moving : Option Moving} {sealer : Sealer} {mint : Nat → Minted} {batch : Batch}
    (h : turn t (moving, .batch sealer mint batch) = some t') :
    ∃ state, writeBatch sealer mint t batch = .ok (t', state) := by
  rw [turn, Write.operation] at h
  cases hw : writeBatch sealer mint t batch with
  | error e =>
    rw [hw] at h
    cases h
  | ok written =>
    rw [hw] at h
    exact ⟨written.2, by rw [← Option.some.inj h]⟩

/-- The messages of the folder a write lists. -/
def lists (folder : MailboxId) : Write → List (Nat × Identity)
  | .batch sealer _ batch => if batch.folder = folder then listsOf sealer batch else []
  | _ => []

/-- The id is one a batch would give a message without a row. -/
def Mints (id : EmailId) : Write → Prop
  | .batch _ mint _ => ∃ n, id = (mint n).emailId
  | _ => False

/-- A batch of the folder as it stands now, of messages without an X-GM-MSGID. -/
def Plain (folder : MailboxId) (t : Tables) (batch : Batch) : Prop :=
  batch.folder = folder ∧ (pinned t ⟨batch.folder, batch.uidValidity⟩).2 = true ∧
    ∀ facts ∈ batch.emails, facts.gmail = none ∧ 0 < facts.uid

/-- The batch says that the first sync is done. -/
def finishes : Advance → Bool
  | .down _ done _ => done
  | _ => false

/-- A write that leaves the rows of the folder and how far it stands. -/
def Beside (folder : MailboxId) (t : Tables) (a : Turn) : Prop :=
  lists folder a.2 = [] ∧ ∀ t', turn t a = some t' →
    (∀ x, Stands t' folder x ↔ Stands t folder x) ∧
    ∀ s ∈ t'.sync, s.folderId = folder → ∃ s₀ ∈ t.sync, s₀.folderId = folder ∧ s₀.done = s.done

/-- A write while the folder is synced: a batch of its listing that is not the last one, or a write
beside it. -/
def Syncing (folder : MailboxId) (t : Tables) (a : Turn) : Prop :=
  (∃ sealer mint batch, a.2 = .batch sealer mint batch ∧ Plain folder t batch ∧
    finishes batch.advance = false) ∨ Beside folder t a

/-- The folder's first sync is not done. -/
def Undone (folder : MailboxId) (t : Tables) : Prop :=
  ∀ s ∈ t.sync, s.folderId = folder → s.done = false

theorem undone_save (h : Undone folder t) {advance : Advance} (hadvance : finishes advance = false) :
    Undone folder (save t folder advance).1 := by
  intro s hs hf
  cases advance with
  | down lowest done synced => exact (save_down hs hf).1.trans hadvance
  | up uidNext arrived =>
    obtain ⟨s₀, hs₀, rfl⟩ := (Table.mem_revise (SyncRecord.up_apart folder uidNext arrived)).1 hs
    rw [SyncRecord.up_folderId] at hf
    rw [SyncRecord.up, if_pos hf]
    exact h s₀ hs₀ hf
  | beside => exact h s hs hf

theorem save_unfinished {advance : Advance} (hadvance : finishes advance = false) :
    (save t folder advance).2 = false := by
  cases advance with
  | down lowest done synced =>
    obtain rfl : done = false := hadvance
    rfl
  | up uidNext arrived => rfl
  | beside => rfl

theorem save_finished (h : Undone folder t) {advance : Advance} (hadvance : finishes advance = true) :
    (save t folder advance).2 = true := by
  cases advance with
  | up uidNext arrived => cases hadvance
  | beside => cases hadvance
  | down lowest done synced =>
    obtain rfl : done = true := hadvance
    simp only [save, Bool.true_and, decide_eq_true_eq, ne_eq]
    intro hdone
    obtain ⟨s, hs, hdone⟩ := Option.map_eq_some_iff.1 hdone
    obtain ⟨hs, hf⟩ := Table.mem_of_find? hs
    rw [h s hs hf] at hdone
    cases hdone

/-- The messages of the folder the writes list. -/
def listings (folder : MailboxId) (as : List Turn) : List (Nat × Identity) :=
  as.flatMap fun a => lists folder a.2

/-- The ids the batches of some writes would give. -/
def MintedBy (as : List Turn) (id : EmailId) : Prop := ∃ a ∈ as, Mints id a.2

/-- **A batch of the listing**, whether it finishes the sync or not, leaves the rows its messages
found, less what still waits where it finishes. -/
theorem Rematching.batch {as past rest : List Turn} {moving : Option Moving} {sealer : Sealer}
    {mint : Nat → Minted} {batch : Batch}
    (hsplit : as = past ++ (moving, .batch sealer mint batch) :: rest)
    (hapart : ((listings folder as).map Prod.fst).Nodup)
    (h : Rematching origin folder (listings folder past) (MintedBy as) t)
    (hplain : Plain folder t batch) (hturn : turn t (moving, .batch sealer mint batch) = some t') :
    ∃ u, Rematching origin folder
        (listings folder (past ++ [(moving, .batch sealer mint batch)])) (MintedBy as) u ∧
      u.sync = t.sync ∧ ∀ r, r ∈ t'.emails ↔ r ∈ u.emails ∧
        ((save u folder batch.advance).2 = true → ¬ Leaves folder .unmatched r) := by
  obtain ⟨rfl, hstands, hmessages⟩ := hplain
  obtain ⟨state, hw⟩ := turn_batch hturn
  obtain ⟨b, hloop, hsync, hrows⟩ := writeBatch_rows hstands hw
  have hlists : listings batch.folder (past ++ [(moving, .batch sealer mint batch)]) =
      listings batch.folder past ++ listsOf sealer batch := by
    rw [listings, List.flatMap_append, List.flatMap_singleton, lists, if_pos rfl]
    rfl
  refine ⟨b.writing.tables, ?_, hsync, hrows⟩
  rw [hlists]
  refine h.loop hmessages ?_ (fun n => ?_) hloop
  · have hwhole : listings batch.folder as =
        listings batch.folder (past ++ [(moving, .batch sealer mint batch)]) ++
          listings batch.folder rest := by
      rw [hsplit, ← List.singleton_append, ← List.append_assoc]
      exact List.flatMap_append
    rw [← hlists]
    rw [hwhole] at hapart
    exact hapart.sublist (List.Sublist.map _ (List.sublist_append_left _ _))
  · refine ⟨(moving, .batch sealer mint batch), ?_, n, rfl⟩
    rw [hsplit]
    exact List.mem_append_right _ List.mem_cons_self

/-- The folder while it is synced, by the writes so far. -/
structure Matched (origin : Tables) (folder : MailboxId) (as past : List Turn) (t : Tables) :
    Prop where
  rows : Rematching origin folder (listings folder past) (MintedBy as) t
  undone : Undone folder t

/-- A batch that is not the last one. -/
theorem Matched.batch {as past rest : List Turn} {moving : Option Moving} {sealer : Sealer}
    {mint : Nat → Minted} {batch : Batch}
    (hsplit : as = past ++ (moving, .batch sealer mint batch) :: rest)
    (hapart : ((listings folder as).map Prod.fst).Nodup) (h : Matched origin folder as past t)
    (hplain : Plain folder t batch) (hunfinished : finishes batch.advance = false)
    (hturn : turn t (moving, .batch sealer mint batch) = some t') :
    Matched origin folder as (past ++ [(moving, .batch sealer mint batch)]) t' := by
  obtain ⟨u, hu, -, hrows⟩ := h.rows.batch hsplit hapart hplain hturn
  obtain ⟨state, hw⟩ := turn_batch hturn
  rw [save_unfinished hunfinished] at hrows
  have hsame : ∀ r, r ∈ t'.emails ↔ r ∈ u.emails :=
    fun r => (hrows r).trans (and_iff_left (fun hfinished => by cases hfinished))
  refine ⟨hu.congr fun x => by simp only [Stands, hsame], ?_⟩
  obtain ⟨rfl, -, -⟩ := hplain
  rcases writeBatch_sync hw with ⟨-, hsync⟩ | ⟨-, t₀, ht₀, hsync⟩
  · rw [Undone, hsync]
    exact h.undone
  · rw [Undone, hsync]
    have hundone : Undone batch.folder t₀ := by
      rw [Undone, ht₀]
      exact h.undone
    exact undone_save hundone hunfinished

/-- A write beside the folder. -/
theorem Matched.beside {as past : List Turn} {a : Turn} (h : Matched origin folder as past t)
    (hbeside : Beside folder t a) (hturn : turn t a = some t') :
    Matched origin folder as (past ++ [a]) t' := by
  obtain ⟨hlists, hkept⟩ := hbeside
  obtain ⟨hrows, hsync⟩ := hkept t' hturn
  have hlistings : listings folder (past ++ [a]) = listings folder past := by
    rw [listings, List.flatMap_append, List.flatMap_singleton, hlists, List.append_nil]
    rfl
  refine ⟨hlistings ▸ h.rows.congr hrows, fun s hs hf => ?_⟩
  obtain ⟨s₀, hs₀, hf₀, hdone⟩ := hsync s hs hf
  rw [← hdone]
  exact h.undone s₀ hs₀ hf₀

/-- What a full sync leaves of a renumbered folder, by what waited in it and what was listed. -/
structure Rematched (origin : Tables) (folder : MailboxId) (listed : List (Nat × Identity))
    (mints : EmailId → Prop) (t : Tables) : Prop where
  /-- Of each identity as many waiting rows are kept as were listed, and the others are gone. -/
  claims : ∃ kept left, (unmatched origin folder).Perm (kept ++ left) ∧
    (∀ k, kept.countP (·.1 = k) = min ((unmatched origin folder).countP (·.1 = k))
      (listed.countP (·.2 = k))) ∧
    (∀ e ∈ kept, ∃ uid > 0, Stands t folder (e.2, uid, e.1)) ∧
    ∀ e ∈ left, ∀ r ∈ t.emails, r.id ≠ e.2
  /-- Each message has a row: one that waited or one with a new id. -/
  arrived : ∀ m ∈ listed, ∃ id, Stands t folder (id, m.1, m.2) ∧
    (id ∈ (unmatched origin folder).map Prod.snd ∨ mints id)
  /-- Two messages do not share a row. -/
  apart : ∀ m ∈ listed, ∀ m' ∈ listed, ∀ id, Stands t folder (id, m.1, m.2) →
    Stands t folder (id, m'.1, m'.2) → m.1 = m'.1
  /-- Nothing waits. -/
  settled : ∀ r ∈ t.emails, r.folderId = folder → 0 ≤ r.uid

/-- The last batch destroys what still waits. -/
theorem Rematching.finished {listed : List (Nat × Identity)} {mints : EmailId → Prop} {u : Tables}
    (h : Rematching origin folder listed mints u)
    (hrows : ∀ r, r ∈ t'.emails ↔ r ∈ u.emails ∧ ¬ Leaves folder .unmatched r) :
    Rematched origin folder listed mints t' := by
  have hstays : ∀ {id uid k}, Stands u folder (id, uid, k) → 0 < uid →
      Stands t' folder (id, uid, k) := by
    rintro id uid k ⟨r, hr, hf, hx⟩ huid
    refine ⟨r, (hrows r).2 ⟨hr, fun hleaves => ?_⟩, hf, hx⟩
    have hneg : r.uid < 0 := hleaves.2
    have : r.uid = uid := (Prod.mk.inj (Prod.mk.inj hx).2).1
    omega
  obtain ⟨kept, hclaims, hkept⟩ := h.claims
  refine ⟨⟨kept, _, hclaims.split, fun k => ?_, ?_, ?_⟩, ?_, ?_, ?_⟩
  · rw [hclaims.counts k, List.countP_map]
    rfl
  · intro e he
    obtain ⟨uid, huid, hstands⟩ := hkept e he
    exact ⟨uid, huid, hstays hstands huid⟩
  · intro e he r hr hid
    obtain ⟨uid, hneg, r₀, hr₀, hf, hx⟩ := mem_unmatched.1 he
    obtain ⟨hr, hleaves⟩ := (hrows r).1 hr
    obtain rfl := EmailRecord.eq_of_id hr hr₀ (hid.trans (Prod.mk.inj hx).1.symm)
    refine hleaves ⟨hf, ?_⟩
    have : r.uid = uid := (Prod.mk.inj (Prod.mk.inj hx).2).1
    show r.uid < 0
    omega
  · intro m hm
    obtain ⟨hpos, id, hstands⟩ := h.arrived m hm
    exact ⟨id, hstays hstands (by omega), (h.rows _ _ _ hstands (by omega)).2⟩
  · intro m _ m' _ id hstands hstands'
    have := (hstands.unique hstands').1
    omega
  · intro r hr hf
    by_contra hneg
    refine ((hrows r).1 hr).2 ⟨hf, ?_⟩
    show r.uid < 0
    omega

/-- **A renumbered folder finds its rows again.** A pass finds the folder under another UIDVALIDITY
and it is synced in full: batches of its new listing, each as the folder stands, come between any
writes beside it until one of them finishes. No UID is listed twice. Then of each identity as many
of the waiting ids are kept as the smaller of what waited and what is listed, the messages beyond
have new ids, two messages share no row, the waiting rows left over are gone and none waits. -/
theorem rematched {order : List MailboxId → List MailboxId} {mint : String → MailboxId}
    {before : Tables} {found : List MailboxFacts} {letters : Letters} {flipped : Bool} {s : Nat}
    {as : List Turn} {moving : Option Moving} {sealer : Sealer} {mint' : Nat → Minted}
    {last : Batch} (hl : Write.Listing order mint found before)
    (hrenumbered : Renumbered mint before found folder)
    (hpass : apply order mint before found letters flipped = .ok (t, s))
    (hsyncing : Meets turn (Syncing folder) t as) {middle : Tables}
    (hrun : runs turn t as = some middle) (hplain : Plain folder middle last)
    (hfinishes : finishes last.advance = true)
    (hlast : turn middle (moving, .batch sealer mint' last) = some t')
    (hapart : ((listings folder (as ++ [(moving, .batch sealer mint' last)])).map
      Prod.fst).Nodup) :
    Rematched t folder (listings folder (as ++ [(moving, .batch sealer mint' last)]))
      (MintedBy (as ++ [(moving, .batch sealer mint' last)])) t' := by
  have hover := apply_startsOver hl hrenumbered hpass
  have hstart : Matched t folder (as ++ [(moving, .batch sealer mint' last)]) [] t :=
    ⟨.start hover.waits, fun s hs hf => absurd hf (hover.progress s hs)⟩
  have hmatched : Matched t folder (as ++ [(moving, .batch sealer mint' last)]) as middle := by
    refine runs_traced hstart (fun past a rest u next hsplit h hok hturn => ?_) hsyncing hrun
    rcases hok with ⟨sealer₀, mint₀, batch, hwrite, hplain, hunfinished⟩ | hbeside
    · obtain ⟨moving₀, w⟩ := a
      obtain rfl : w = .batch sealer₀ mint₀ batch := hwrite
      have hwhole : as ++ [(moving, .batch sealer mint' last)] =
          past ++ (moving₀, .batch sealer₀ mint₀ batch) ::
            (rest ++ [(moving, .batch sealer mint' last)]) := by
        rw [hsplit, List.append_assoc, List.cons_append]
      exact h.batch hwhole hapart hplain hunfinished hturn
    · exact h.beside hbeside hturn
  obtain ⟨u, hu, hsync, hrows⟩ := hmatched.rows.batch rfl hapart hplain hlast
  refine hu.finished fun r => (hrows r).trans (and_congr_right fun _ => ?_)
  have hundone : Undone folder u := by
    rw [Undone, hsync]
    exact hmatched.undone
  rw [save_finished hundone hfinishes]
  exact ⟨fun h => h rfl, fun h _ => h⟩

/-! ## One message renumbered, another one new -/

theorem eq_some_getD {α : Type} {x : Option α} (d : α) (h : x.isSome) : x = some (x.getD d) := by
  obtain ⟨a, rfl⟩ := Option.isSome_iff_exists.1 h
  rfl

/-- The rows a pass leaves that reads this listing. -/
def passed (t : Tables) (found : List MailboxFacts) : Tables :=
  ((apply id (lettered 'n') t found (some fun _ => none) false).toOption.getD (t, 0)).1

theorem passed_eq {found : List MailboxFacts}
    (h : (apply id (lettered 'n') t found (some fun _ => none) false).isOk) :
    ∃ s, apply id (lettered 'n') t found (some fun _ => none) false = .ok (passed t found, s) := by
  unfold passed
  cases hw : apply id (lettered 'n') t found (some fun _ => none) false with
  | error e =>
    rw [hw] at h
    cases h
  | ok written => exact ⟨written.2, rfl⟩

theorem renumbered_of_any {mint : String → MailboxId} {facts : MailboxFacts}
    {found : List MailboxFacts} (hfacts : facts ∈ found)
    (h : (existing t facts.imapName).any (fun r => r.row.id = folder ∧
      WasRenumbered r.row (wantedRow mint t found facts)) = true) :
    Renumbered mint t found folder := by
  cases hr : existing t facts.imapName with
  | none =>
    rw [hr] at h
    cases h
  | some r =>
    rw [hr, Option.any_some, decide_eq_true_eq] at h
    exact ⟨facts, hfacts, r, hr, h⟩

/-- The folder of `oneMessage` under another UIDVALIDITY. -/
def inboxAgain : MailboxFacts := { folderFacts "INBOX" (some "inbox") none with uidValidity := some 2 }

/-- The rows behind the pass that reads it. -/
def startedOver : Tables := passed oneMessage.tables [inboxAgain]

/-- A batch of the new listing. -/
def inboxBatch (uid : Nat) (email thread : Char) (done : Bool) : Batch × Write :=
  let batch : Batch := ⟨"mINBOX", 2, [plainFacts uid], .down (some uid) done ⟨none, none, none⟩⟩
  (batch, .batch plainSealer (numberedMint email thread) batch)

/-- The rows behind the first one. -/
def halfway : Tables := (turn startedOver (none, (inboxBatch 8 'f' 'g' false).2)).getD Tables.empty

/-- The first message listed keeps the id of the row that waits, the second one gets a new id. -/
theorem found_again : ∃ t, turn halfway (none, (inboxBatch 7 'h' 'i' true).2) = some t ∧
    Rematched startedOver "mINBOX" [(8, none, 0, 1), (7, none, 0, 1)]
      (MintedBy [(none, (inboxBatch 8 'f' 'g' false).2), (none, (inboxBatch 7 'h' 'i' true).2)])
      t := by
  have hok : (apply id (lettered 'n') oneMessage.tables [inboxAgain] (some fun _ => none)
      false).isOk := by decide +kernel
  obtain ⟨s, hpass⟩ := passed_eq hok
  have hlisting : Write.Listing id (lettered 'n') [inboxAgain] oneMessage.tables :=
    listing_numbered (by decide) (by decide +kernel)
  have hfirst : turn startedOver (none, (inboxBatch 8 'f' 'g' false).2) = some halfway :=
    eq_some_getD _ (by decide +kernel)
  have hrun : runs turn startedOver [(none, (inboxBatch 8 'f' 'g' false).2)] = some halfway :=
    runs_cons.2 ⟨_, hfirst, rfl⟩
  obtain ⟨t, hlast⟩ : ∃ t, turn halfway (none, (inboxBatch 7 'h' 'i' true).2) = some t :=
    Option.isSome_iff_exists.1 (by decide +kernel)
  have hplain : Plain "mINBOX" startedOver (inboxBatch 8 'f' 'g' false).1 :=
    ⟨rfl, by decide +kernel, by decide⟩
  have hmeets : Meets turn (Syncing "mINBOX") startedOver
      [(none, (inboxBatch 8 'f' 'g' false).2)] := by
    refine ⟨.inl ⟨_, _, _, rfl, hplain, rfl⟩, ?_⟩
    rw [hfirst]
    trivial
  exact ⟨t, hlast, rematched hlisting (renumbered_of_any List.mem_cons_self (by decide +kernel)) hpass hmeets hrun
    ⟨rfl, by decide +kernel, by decide⟩ rfl hlast (by decide +kernel)⟩

/-! ## Two messages of one identity on a Gmail account -/

/-- All Mail under another UIDVALIDITY, and the row of its one message that waits. -/
def allMailAgain : List MailboxFacts := [{ allMailFacts with uidValidity := some 2 }, workFacts 0]

/-- The listing has another message of the same identity under an X-GM-MSGID of its own. -/
def otherCopy : Batch :=
  ⟨"m[Gmail]/All Mail", 2, [{ plainFacts 1 with gmail := some ⟨["Work"], 2, 1⟩ }],
    .down (some 1) true ⟨none, none, none⟩⟩

/-- **A message is found by its X-GM-MSGID alone where it carries one**: the row of the same identity
that waits is destroyed, and the message gets a new id. -/
theorem gmail_renumbered : ¬ ∀ (order : List MailboxId → List MailboxId)
    (mint : String → MailboxId) (before t t' : Tables) (found : List MailboxFacts)
    (letters : Letters) (flipped : Bool) (s : Nat) (sealer : Sealer) (mint' : Nat → Minted)
    (last : Batch), Write.Listing order mint found before →
      Renumbered mint before found last.folder →
      apply order mint before found letters flipped = .ok (t, s) →
      (pinned t ⟨last.folder, last.uidValidity⟩).2 = true → (∀ facts ∈ last.emails, 0 < facts.uid) →
      finishes last.advance = true → turn t (none, .batch sealer mint' last) = some t' →
      ((listsOf sealer last).map Prod.fst).Nodup →
      Rematched t last.folder (listsOf sealer last) (MintedBy [(none, .batch sealer mint' last)])
        t' := by
  intro h
  have hok : (apply id (lettered 'n') labelled.tables allMailAgain (some fun _ => none)
      false).isOk := by decide +kernel
  obtain ⟨s, hpass⟩ := passed_eq hok
  obtain ⟨t', hlast⟩ : ∃ t', turn (passed labelled.tables allMailAgain)
      (none, .batch plainSealer (numberedMint 'f' 'g') otherCopy) = some t' :=
    Option.isSome_iff_exists.1 (by decide +kernel)
  have hright := h _ _ _ _ t' allMailAgain _ _ s plainSealer (numberedMint 'f' 'g') otherCopy
    (listing_numbered (by decide) (by decide +kernel))
    (renumbered_of_any List.mem_cons_self (by decide +kernel)) hpass (by decide +kernel) (by decide)
    rfl hlast (by decide)
  obtain ⟨kept, left, hsplit, hcounts, hkept, -⟩ := hright.claims
  -- one row waits and one message of its identity is listed, so the row should be kept
  have hone : kept.countP (·.1 = ((none, 0, 1) : Identity)) = 1 := by
    rw [hcounts]
    decide +kernel
  obtain ⟨e, he, -⟩ := List.countP_pos_iff.1 (hone ▸ Nat.one_pos)
  obtain ⟨uid, -, r, hr, -, hx⟩ := hkept e he
  have hrow : unmatched (passed labelled.tables allMailAgain) otherCopy.folder =
      [((none, 0, 1), "e")] := by decide +kernel
  have hwaits : e ∈ [(((none, 0, 1), "e") : Identity × EmailId)] := by
    rw [← hrow]
    exact hsplit.mem_iff.2 (List.mem_append_left _ he)
  have hgone : (turn (passed labelled.tables allMailAgain)
      (none, .batch plainSealer (numberedMint 'f' 'g') otherCopy)).all
        (fun t => t.emails.rows.all fun r => r.id ≠ "e") = true := by decide +kernel
  rw [hlast, Option.all_some, List.all_eq_true] at hgone
  have hid := of_decide_eq_true (hgone r hr)
  rw [List.mem_singleton.1 hwaits] at hx
  exact hid (Prod.mk.inj hx).1

end Huliho.Sync
