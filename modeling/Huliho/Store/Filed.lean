import Huliho.EmailSet.Plan
import Huliho.Store.ClientWalks
import Huliho.Store.Passes

/-!
# A pass and a mailbox change keep the emails filed

A pass and a `Mailbox/set` write the mailbox rows first and take the members of the gone ones out
after, so in between the memberships of those are owed (`Filed gone`): **`apply_filed`** and
**`writeMailboxes_filed`**. Every other write is a walk from the start.
-/

namespace Huliho

section

variable {kept : Prop} {gone : List MailboxId} {t t' : Tables} {w w' : Writing} {id : MailboxId}
  {order : List MailboxId → List MailboxId} {mint : String → MailboxId} {found : List MailboxFacts}

/-! ## Mailbox rows -/

/-- The mailbox rows as a write goes over them: those of `gone` may leave, no store becomes a label.
-/
structure Rehoused (gone : List MailboxId) (t t' : Tables) : Prop where
  only : OnlyMailboxes t t'
  ids : ∀ id, HasMailbox t id → id ∈ gone ∨ HasMailbox t' id
  stores : Stores t → Stores t'

theorem Rehoused.refl : Rehoused gone t t := ⟨rfl, fun _ h => .inr h, fun h => h⟩

theorem Rehoused.trans {t'' : Tables} (h : Rehoused gone t t') (h' : Rehoused gone t' t'') :
    Rehoused gone t t'' :=
  ⟨h.only.trans h'.only, fun id hid => (h.ids id hid).elim .inl fun hid => h'.ids id hid,
    fun hs => h'.stores (h.stores hs)⟩

theorem Rehoused.mono {more : List MailboxId} (h : Rehoused gone t t')
    (hm : ∀ id ∈ gone, id ∈ more) : Rehoused more t t' :=
  ⟨h.only, fun id hid => (h.ids id hid).imp_left (hm id), h.stores⟩

theorem Rehoused.timed (h : Rehoused gone t t') (ht : Timed t) : Timed t' := by
  rw [Timed, h.only]
  exact ht

theorem Rehoused.filed (h : Rehoused gone t t') (ht : Filed [] t) : Filed gone t' := by
  have hs := h.stores ht.stores
  have hids := h.ids
  rw [h.only]
  refine ⟨ht.timed, ht.homed, fun m hm => ?_, ht.numbered, ?_⟩
  · rcases ht.housed m hm with hm | hm
    · cases hm
    · refine (hids _ hm).imp_right ?_
      rintro ⟨b, hb, hid⟩
      exact ⟨b, hb, hid⟩
  · exact hs

/-- An update of columns beside the id. -/
theorem Rehoused.of_stand (hb : OnlyMailboxes t t') (hs : Stand t t') : Rehoused gone t t' :=
  ⟨hb, fun id hid => .inr ((hs.ids id).2 hid), hs.stores⟩

theorem upsert_rehoused {row : MailboxRow} (h : upsert t row = .ok t')
    (hrow : Unlabelled row.facts) : Rehoused gone t t' := by
  refine ⟨upsert_mailboxes h, fun id hid => .inr ?_, fun hs => ?_⟩ <;>
    simp only [upsert, Except.bind_eq_ok, constrained_eq_ok, pure, Except.pure,
      Except.ok.injEq] at h <;> obtain ⟨mailboxes, hu, rfl⟩ := h <;> split at hu
  · obtain ⟨b, hb, rfl⟩ := hid
    refine ⟨_, (Table.mem_update? hu).2 ⟨b, hb, rfl⟩, ?_⟩
    unfold MailboxRecord.takes
    split
    · rename_i hid
      exact hid.symm
    · rfl
  · obtain ⟨b, hb, rfl⟩ := hid
    exact ⟨b, (Table.mem_insert? hu).2 (.inl hb), rfl⟩
  · intro b hb
    obtain ⟨c, hc, rfl⟩ := (Table.mem_update? hu).1 hb
    unfold MailboxRecord.takes
    split
    · exact hrow
    · exact hs c hc
  · intro b hb
    rcases (Table.mem_insert? hu).1 hb with hb | rfl
    · exact hs b hb
    · exact hrow

/-! ## A folder that vanishes -/

theorem vanish_members {s : Nat} {m : Membership} (h : m ∈ (vanish t id s).memberships) :
    m.mailboxId ≠ id := (Table.mem_delete.1 h).2

/-- One gone mailbox less to take care of. -/
theorem Filed.vanish (h : Filed (id :: gone) t) (s : Nat) : Filed gone (vanish t id s) := by
  have hwalk : Walk True t (Huliho.vanish t id s) := .vanish t id s
  have h' := hwalk.filed trivial h
  refine { h' with housed := fun m hm => ?_ }
  rcases h'.housed m hm with hmem | hhas
  · exact .inl ((List.mem_cons.1 hmem).resolve_left (vanish_members hm))
  · exact .inr hhas

theorem Filed.vanishes (h : Filed gone t) (s : Nat) :
    Filed [] (gone.foldl (fun t id => Huliho.vanish t id s) t) :=
  foldl_rest (P := Filed) (fun _ _ _ h => h.vanish s) h

theorem Walk.vanishes (gone : List MailboxId) (t : Tables) (s : Nat) :
    Walk kept t (gone.foldl (fun t id => Huliho.vanish t id s) t) :=
  foldl_keeps (P := fun t' => Walk kept t t') .refl fun id _ t' h => h.trans (.vanish t' id s)

/-! ## A pass -/

/-- The rows of a pass: what vanished leaves, what was found stands. -/
theorem planPass_rehoused {letters : Letters} {flipped : Bool} {p : Passing}
    (h : planPass order mint t found letters flipped = .ok p)
    (hf : ∀ facts ∈ found, Unlabelled facts) :
    Rehoused (vanished order t found) t p.tables := by
  simp only [planPass, Except.bind_eq_ok, pure, Except.pure, Except.ok.injEq] at h
  obtain ⟨p₁, hloop, rfl⟩ := h
  have h₁ : Rehoused (vanished order t found) t p₁.tables := by
    refine foldlM_keeps (P := fun p : Passing => Rehoused (vanished order t found) t p.tables) .refl
      (fun facts hfacts p p' h hp => ?_) hloop
    unfold passFacts at hp
    simp only at hp
    split at hp
    · split at hp
      · obtain rfl : p = p' := by simpa [pure, Except.pure] using hp
        exact h
      · simp only [Except.bind_eq_ok, pure, Except.pure, Except.ok.injEq] at hp
        obtain ⟨tables, hu, rfl⟩ := hp
        exact h.trans (upsert_rehoused hu (hf facts hfacts))
    · simp only [Except.bind_eq_ok, pure, Except.pure, Except.ok.injEq] at hp
      obtain ⟨tables, hu, rfl⟩ := hp
      exact h.trans (upsert_rehoused hu (hf facts hfacts))
  have h₂ : Rehoused (vanished order t found) t (passRights mint t found letters p₁).tables := by
    refine foldl_keeps (P := fun p : Passing => Rehoused (vanished order t found) t p.tables) h₁
      fun name _ p h => h.trans ?_
    unfold applyRights
    simp only
    split
    · exact .refl
    · exact .of_stand rfl (.revised (MailboxRecord.lettered_apart _ _) rfl
        (MailboxRecord.onId_id fun _ => rfl) (MailboxRecord.onId_facts fun _ h => h))
  have h₃ : Rehoused (vanished order t found) t (passVanished (vanished order t found)
      (passRights mint t found letters p₁)).tables := by
    refine foldl_keeps (P := fun p : Passing => Rehoused (vanished order t found) t p.tables) h₂
      fun id hid p h => h.trans ⟨rfl, fun other hother => ?_, fun hs b hb =>
        hs b (Table.mem_delete.1 hb).1⟩
    obtain ⟨b, hb, rfl⟩ := hother
    by_cases hc : b.row.id = id
    · exact .inl (hc ▸ hid)
    · exact .inr ⟨b, Table.mem_delete.2 ⟨hb, hc⟩, rfl⟩
  unfold passFlipped
  split <;> exact h₃

/-- A pass that changed nothing found everything. -/
theorem vanished_of_unchanged {letters : Letters} {flipped : Bool} {p : Passing}
    (h : planPass order mint t found letters flipped = .ok p) (hc : p.changes = []) :
    vanished order t found = [] := by
  simp only [planPass, Except.bind_eq_ok, pure, Except.pure, Except.ok.injEq] at h
  obtain ⟨p₁, -, rfl⟩ := h
  have hids := (mem_passVanished (vanished order t found) (passRights mint t found letters p₁)).1
  have hsub : ∀ m ∈ ids (passVanished (vanished order t found)
      (passRights mint t found letters p₁)).changes,
      m ∈ ids (passFlipped mint t found flipped (passVanished (vanished order t found)
        (passRights mint t found letters p₁))).changes := by
    intro m hm
    unfold passFlipped
    split
    · refine foldl_keeps (P := fun changes => m ∈ ids changes) hm fun name _ changes h => ?_
      exact mem_ids_addChange.2 (.inl h)
    · exact hm
  refine List.eq_nil_iff_forall_not_mem.2 fun m hm => ?_
  have hin := hsub m (hids ▸ List.mem_append_right _ hm)
  rw [hc] at hin
  cases hin

theorem apply_stages (kept : Prop) {letters : Letters} {flipped : Bool} {state : Nat}
    (h : apply order mint t found letters flipped = .ok (t', state)) :
    ∃ p, planPass order mint t found letters flipped = .ok p ∧
      ((p.changes = [] ∧ t' = p.tables) ∨ ∃ s, Walk kept ((vanished order t found).foldl
        (fun t id => vanish t id s) (nextSequence p.tables).1) t') := by
  unfold apply at h
  rw [Except.bind_eq_ok] at h
  obtain ⟨p, hplan, h⟩ := h
  refine ⟨p, hplan, ?_⟩
  split at h
  · rename_i hc
    obtain ⟨rfl, -⟩ := Prod.mk.inj (Except.ok.inj h)
    exact .inl ⟨hc, rfl⟩
  · simp only [Except.bind_eq_ok] at h
    obtain ⟨t₁, hrenumbered, t₂, hlog, h⟩ := h
    obtain ⟨rfl, -⟩ := Prod.mk.inj (Except.ok.inj h)
    have hr : Walk kept _ t₁ := foldlM_keeps (P := fun t' => Walk kept _ t') .refl
      (fun folder _ t t' h hr => h.trans (.renumber hr)) hrenumbered
    have hl : Walk kept t₁ t₂ := foldlM_keeps (P := fun t' => Walk kept t₁ t') .refl
      (fun c _ t t' h hl => h.trans (.of_changes (log_frame hl))) hlog
    exact .inr ⟨_, hr.trans (hl.trans (.of_changes (prune_frame t₂)))⟩

theorem apply_timed {letters : Letters} {flipped : Bool} {state : Nat} (ht : Timed t)
    (h : apply order mint t found letters flipped = .ok (t', state)) : Timed t' := by
  obtain ⟨p, hplan, hrest⟩ := apply_stages False h
  have hp : Timed p.tables := by
    rw [Timed, planPass_mailboxes hplan]
    exact ht
  rcases hrest with ⟨-, rfl⟩ | ⟨s, hwalk⟩
  · exact hp
  · have hnext : Walk False p.tables (nextSequence p.tables).1 := .of_tables rfl rfl rfl
    exact ((hnext.trans (.vanishes _ _ s)).trans hwalk).timed hp

/-- **A pass keeps the emails filed.** -/
theorem apply_filed {letters : Letters} {flipped : Bool} {state : Nat} (ht : Filed [] t)
    (hf : ∀ facts ∈ found, Unlabelled facts)
    (h : apply order mint t found letters flipped = .ok (t', state)) : Filed [] t' := by
  obtain ⟨p, hplan, hrest⟩ := apply_stages True h
  have hp := (planPass_rehoused hplan hf).filed ht
  rcases hrest with ⟨hc, rfl⟩ | ⟨s, hwalk⟩
  · rwa [vanished_of_unchanged hplan hc] at hp
  · have hnext : Walk True p.tables (nextSequence p.tables).1 := .of_tables rfl rfl rfl
    exact hwalk.filed trivial ((hnext.filed trivial hp).vanishes s)

/-! ## A `Mailbox/set` -/

/-- What a change of a `Mailbox/set` owes: a created mailbox is a new one and no store and label. -/
def MailboxChange.Asked (t : Tables) : MailboxChange → Prop
  | .created row _ => Unlabelled row.facts ∧ ¬ HasMailbox t row.id
  | _ => True

theorem MailboxRecord.Beside.stand {f : MailboxRecord → MailboxRecord}
    (hf : MailboxRecord.Beside f)
    (hfacts : ∀ b, Unlabelled b.row.facts → Unlabelled (f b).row.facts)
    (t : Tables) (id : MailboxId) : Stand t (updateMailbox t id f (hf.apart id)) :=
  .revised (hf.apart id) rfl (MailboxRecord.onId_id fun b => (hf b).1)
    (MailboxRecord.onId_facts hfacts)

theorem rewire_spec (id : MailboxId) (wire : String) (b : MailboxRecord) :
    (b.rewire id wire).row.id = b.row.id ∧
      (Unlabelled b.row.facts → Unlabelled (b.rewire id wire).row.facts) := by
  unfold MailboxRecord.rewire
  split
  · refine ⟨rfl, fun h hstore => ?_⟩
    have hnone : b.row.facts.gmailLabel = none := h hstore
    simp [hnone]
  · exact ⟨rfl, fun h => h⟩

/-- The rows of one change of a `Mailbox/set`. -/
theorem MailboxChange.rows_rehoused {change : MailboxChange} (h : change.rows w = .ok w')
    (ha : change.Asked t) : Rehoused change.gone.toList w.tables w'.tables := by
  have honly := (MailboxChange.rows_mailboxes h).1
  cases change with
  | created row override =>
    simp only [MailboxChange.rows, Except.bind_eq_ok, pure, Except.pure, Except.ok.injEq] at h
    obtain ⟨t, hu, rfl⟩ := h
    refine (upsert_rehoused hu ha.1).trans ?_
    cases override with
    | none => exact .refl
    | some override =>
      exact .of_stand rfl ((MailboxRecord.overridden_beside _).stand (fun _ h => h) _ _)
  | renamed id imapName name parentId =>
    simp only [MailboxChange.rows, Except.bind_eq_ok, pure, Except.pure, Except.ok.injEq] at h
    obtain ⟨w₁, hr, rfl⟩ := h
    suffices h₁ : Rehoused [] w.tables w₁.tables from
      h₁.trans (.of_stand rfl ((MailboxRecord.placedUnder_beside _ _).stand (fun _ h => h) _ _))
    unfold Huliho.renamed at hr
    simp only at hr
    split at hr
    · obtain rfl : w = w₁ := by simpa [pure, Except.pure] using hr
      exact .refl
    · refine foldlM_keeps (P := fun w₁ : Writing => Rehoused [] w.tables w₁.tables) .refl
        (fun member _ w₁ w₂ h hm => h.trans ?_) hr
      split at hm
      · obtain rfl : w₁ = w₂ := by simpa [pure, Except.pure] using hm
        exact .refl
      · simp only [Except.bind_eq_ok, constrained_eq_ok, pure, Except.pure, Except.ok.injEq] at hm
        obtain ⟨mailboxes, hu, rfl⟩ := hm
        refine ⟨rfl, fun id hid => .inr ?_, fun hs b hb => ?_⟩
        · obtain ⟨b, hb, rfl⟩ := hid
          exact ⟨_, (Table.mem_update? hu).2 ⟨b, hb, rfl⟩, (rewire_spec _ _ b).1⟩
        · obtain ⟨c, hc, rfl⟩ := (Table.mem_update? hu).1 hb
          exact (rewire_spec _ _ c).2 (hs c hc)
  | subscribed id on =>
    obtain rfl := Except.ok.inj h
    exact .of_stand rfl ((MailboxRecord.subscribe_beside _).stand (fun _ h => h) _ _)
  | role id override sortOrder =>
    obtain rfl := Except.ok.inj h
    exact .of_stand rfl ((MailboxRecord.withRole_beside _ _).stand (fun _ h => h) _ _)
  | destroyed id =>
    obtain rfl := Except.ok.inj h
    refine ⟨rfl, fun other hother => ?_, fun hs b hb => hs b (Table.mem_delete.1 hb).1⟩
    obtain ⟨b, hb, rfl⟩ := hother
    by_cases hc : b.row.id = id
    · exact .inl (by simp [MailboxChange.gone, hc])
    · exact .inr ⟨b, Table.mem_delete.2 ⟨hb, hc⟩, rfl⟩

/-! ## The ledger of a `Mailbox/set` -/

/-- The entry of a mailbox that was there before the write: none says it was created. -/
def Elder (e : Option ChangeKind) : Prop := e ≠ some .created

theorem Elder.note {e : Option ChangeKind} {k : ChangeKind} (h : Elder e) (hk : k ≠ .created) :
    Elder (fold e k) ∧ (fold e k).isSome := by
  rcases e with _ | ⟨_ | _ | _⟩ <;> rcases k with _ | _ | _ <;> simp_all [Elder, fold]

/-- The rows of a change note nothing or an update. -/
theorem MailboxChange.rows_notes {change : MailboxChange} (h : change.rows w = .ok w') (x : Slot) :
    w'.ledger.kind x = w.ledger.kind x ∨ w'.ledger.kind x = fold (w.ledger.kind x) .updated := by
  cases change with
  | created row override =>
    simp only [MailboxChange.rows, Except.bind_eq_ok, pure, Except.pure, Except.ok.injEq] at h
    obtain ⟨t, -, rfl⟩ := h
    exact .inl rfl
  | renamed id imapName name parentId =>
    simp only [MailboxChange.rows, Except.bind_eq_ok, pure, Except.pure, Except.ok.injEq] at h
    obtain ⟨w₁, hr, rfl⟩ := h
    change w₁.ledger.kind x = _ ∨ w₁.ledger.kind x = _
    unfold Huliho.renamed at hr
    simp only at hr
    split at hr
    · obtain rfl : w = w₁ := by simpa [pure, Except.pure] using hr
      exact .inl rfl
    · refine foldlM_keeps (P := fun w₁ : Writing => w₁.ledger.kind x = w.ledger.kind x ∨
        w₁.ledger.kind x = fold (w.ledger.kind x) .updated) (.inl rfl)
        (fun member _ w₁ w₂ h hm => ?_) hr
      split at hm
      · obtain rfl : w₁ = w₂ := by simpa [pure, Except.pure] using hm
        exact h
      · simp only [Except.bind_eq_ok, pure, Except.pure, Except.ok.injEq] at hm
        obtain ⟨mailboxes, -, rfl⟩ := hm
        rw [Ledger.kind_note]
        split
        · rename_i hx
          subst hx
          rcases h with h | h
          · exact .inr (by rw [h])
          · exact .inr (by rw [h, Ledger.fold_updated_updated])
        · exact h
  | subscribed id on | role id override sortOrder | destroyed id =>
    obtain rfl := Except.ok.inj h
    exact .inl rfl

/-- A mailbox that was there stands, or its entry says it changed. -/
def Accounted (t : Tables) (w : Writing) : Prop :=
  ∀ id, HasMailbox t id → Elder (w.ledger.kind (.mailbox, id)) ∧
    (HasMailbox w.tables id ∨ (w.ledger.kind (.mailbox, id)).isSome)

theorem MailboxChange.accounted {change : MailboxChange} (ha : change.Asked t)
    (h : change.written w = .ok w') (hw : Accounted t w) : Accounted t w' := by
  simp only [MailboxChange.written, Except.bind_eq_ok, pure, Except.pure, Except.ok.injEq] at h
  obtain ⟨w₁, hr, rfl⟩ := h
  intro id hid
  obtain ⟨helder, hstands⟩ := hw id hid
  have h₁ : Elder (w₁.ledger.kind (.mailbox, id)) ∧ (change.gone = some id ∨
      HasMailbox w₁.tables id ∨ (w₁.ledger.kind (.mailbox, id)).isSome) := by
    rcases MailboxChange.rows_notes hr (.mailbox, id) with hk | hk <;> rw [hk]
    · refine ⟨helder, ?_⟩
      rcases hstands with hstands | hsome
      · exact ((MailboxChange.rows_rehoused hr ha).ids id hstands).imp
          (fun hm => by simpa using hm) .inl
      · exact .inr (.inr hsome)
    · exact ⟨(helder.note (by decide)).1, .inr (.inr (helder.note (by decide)).2)⟩
  simp only [Ledger.kind_note]
  split
  · rename_i hx
    obtain rfl : id = change.entry.1 := congrArg Prod.snd hx
    have hkind : change.entry.2 ≠ .created := by
      cases change with
      | created row override => exact absurd hid ha.2
      | renamed | subscribed | role | destroyed => simp [MailboxChange.entry]
    exact ⟨(h₁.1.note hkind).1, .inr (h₁.1.note hkind).2⟩
  · rename_i hx
    refine ⟨h₁.1, h₁.2.resolve_left fun hgone => hx ?_⟩
    cases change with
    | destroyed gone =>
      obtain rfl : gone = id := by simpa [MailboxChange.gone] using hgone
      rfl
    | created | renamed | subscribed | role => cases hgone

/-- **A `Mailbox/set`**: its rows first, then what the gone mailboxes held. -/
theorem writeMailboxes_stages (kept : Prop) {changes : List MailboxChange} {states : Nat × Nat}
    (h : writeMailboxes t changes = .ok (t', states)) :
    ∃ w, changes.foldlM MailboxChange.written ⟨t, Table.empty⟩ = .ok w ∧
      ((w.ledger.isEmpty ∧ t' = w.tables) ∨ ∃ t₁ s, Walk kept w.tables t₁ ∧
        t' = prune ((changes.filterMap MailboxChange.gone).foldl
          (fun t id => Huliho.vanish t id s) t₁)) := by
  unfold writeMailboxes at h
  simp only [Except.bind_eq_ok] at h
  obtain ⟨w, hloop, h⟩ := h
  refine ⟨w, hloop, ?_⟩
  split at h
  · rename_i hempty
    obtain ⟨rfl, -⟩ := Prod.mk.inj (Except.ok.inj h)
    exact .inl ⟨hempty, rfl⟩
  · rw [Except.bind_eq_ok] at h
    obtain ⟨t₁, hl, h⟩ := h
    obtain ⟨rfl, -⟩ := Prod.mk.inj (Except.ok.inj h)
    exact .inr ⟨t₁, _, .ledgered hl, rfl⟩

theorem writeMailboxes_timed {changes : List MailboxChange} {states : Nat × Nat} (ht : Timed t)
    (h : writeMailboxes t changes = .ok (t', states)) : Timed t' := by
  obtain ⟨w, hloop, hrest⟩ := writeMailboxes_stages False h
  have hw : Timed w.tables := by
    refine foldlM_keeps (P := fun w : Writing => Timed w.tables) ht (fun change _ w w' h hc => ?_)
      hloop
    simp only [MailboxChange.written, Except.bind_eq_ok, pure, Except.pure, Except.ok.injEq] at hc
    obtain ⟨w₁, hr, rfl⟩ := hc
    rw [Timed, (MailboxChange.rows_mailboxes hr).1]
    exact h
  rcases hrest with ⟨-, rfl⟩ | ⟨t₁, s, hwalk, rfl⟩
  · exact hw
  · exact ((hwalk.trans (.vanishes _ _ s)).trans (.of_changes (prune_frame _))).timed hw

/-- **A `Mailbox/set` keeps the emails filed.** One that notes nothing in the end took out only what
it made. -/
theorem writeMailboxes_filed {changes : List MailboxChange} {states : Nat × Nat} (ht : Filed [] t)
    (ha : ∀ change ∈ changes, change.Asked t)
    (h : writeMailboxes t changes = .ok (t', states)) : Filed [] t' := by
  obtain ⟨w, hloop, hrest⟩ := writeMailboxes_stages True h
  obtain ⟨hrows, haccounted⟩ : Rehoused (changes.filterMap MailboxChange.gone) t w.tables ∧
      Accounted t w := by
    refine foldlM_keeps (P := fun w : Writing =>
      Rehoused (changes.filterMap MailboxChange.gone) t w.tables ∧ Accounted t w)
      ⟨.refl, fun id hid => ⟨by simp [Elder], .inl hid⟩⟩ (fun change hmem w w' h hc => ?_) hloop
    refine ⟨?_, MailboxChange.accounted (ha change hmem) hc h.2⟩
    simp only [MailboxChange.written, Except.bind_eq_ok, pure, Except.pure, Except.ok.injEq] at hc
    obtain ⟨w₁, hr, rfl⟩ := hc
    refine h.1.trans ((MailboxChange.rows_rehoused hr (ha change hmem)).mono fun id hid => ?_)
    exact List.mem_filterMap.2 ⟨change, hmem, by simpa using hid⟩
  rcases hrest with ⟨hempty, rfl⟩ | ⟨t₁, s, hwalk, rfl⟩
  · refine Rehoused.filed ⟨hrows.only, fun id hid => ?_, hrows.stores⟩ ht
    obtain ⟨-, hstands⟩ := haccounted id hid
    rw [Ledger.isEmpty_iff.1 hempty] at hstands
    exact .inr (hstands.resolve_right (by simp))
  · have hpruned := (hwalk.filed trivial (hrows.filed ht)).vanishes s
    exact Walk.filed trivial (.of_changes (prune_frame _)) hpruned

end

end Huliho
