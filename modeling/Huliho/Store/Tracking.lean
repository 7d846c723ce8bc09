import Huliho.Store.View

/-!
# A write keeps its journal

`Sound before w` says that a write that began on `before` and stands at `w` has noted exactly what
it did: its ledger tracks the views of the emails and the threads, every hash still points at a
thread with an email, every membership is an email's, and the log has not moved yet. Each
operation on rows keeps it; a write is then a run of such operations, and `Sound` is what its end
relies on.

`Sound.step` reduces an operation to one question per object: did it leave the object alone, or
note the kind it took it through (`Huliho.Stepped`)?
-/

namespace Huliho

/-- The entries of a ledger about the objects whose value shows in the rows. -/
def Ledger.items (ledger : Ledger) (x : Item) : Option ChangeKind := ledger.kind x.slot

/-- The write has noted what it did. -/
structure Sound (before : Tables) (w : Writing) : Prop where
  tracks : Tracks (fun _ => False) w.ledger.items (view before) (view w.tables)
  hashes : HashLive w.tables
  members : MembersLive w.tables
  changes : w.tables.changes = before.changes
  sequence : w.tables.sequence = before.sequence

/-- An object a step left alone or noted. -/
abbrev Noted (w w' : Writing) (x : Item) : Prop :=
  Stepped False False (w.ledger.items x) (w'.ledger.items x) (view w.tables x) (view w'.tables x)

variable {before : Tables} {w w' : Writing}

theorem Sound.start {t : Tables} (ht : Inv t) : Sound t ⟨t, Table.empty⟩ :=
  ⟨Tracks.refl, ht.hashes, ht.members, rfl, rfl⟩

theorem Sound.step (h : Sound before w) (hs : ∀ x, Noted w w' x) (hh : HashLive w'.tables)
    (hm : MembersLive w'.tables) (hc : w'.tables.changes = w.tables.changes)
    (hq : w'.tables.sequence = w.tables.sequence) : Sound before w' :=
  ⟨h.tracks.step hs, hh, hm, hc.trans h.changes, hq.trans h.sequence⟩

theorem Noted.kept {x : Item} (he : w'.ledger.items x = w.ledger.items x)
    (hv : view w'.tables x = view w.tables x) : Noted w w' x := Stepped.kept he hv id

/-! ## Ledgers -/

theorem Ledger.items_note (ledger : Ledger) (x y : Item) (k : ChangeKind) :
    (ledger.note x.slot k).items y = if y = x then fold (ledger.items x) k else ledger.items y := by
  rw [Ledger.items, Ledger.kind_note]
  by_cases hyx : y = x
  · rw [if_pos (congrArg _ hyx), if_pos hyx]; rfl
  · rw [if_neg fun h => hyx (Item.slot_injective h), if_neg hyx]; rfl

theorem Ledger.items_note_email (ledger : Ledger) (id : EmailId) (y : Item) (k : ChangeKind) :
    (ledger.note (.email, id) k).items y =
      if y = .email id then fold (ledger.items (.email id)) k else ledger.items y :=
  ledger.items_note (.email id) y k

theorem Ledger.items_note_thread (ledger : Ledger) (id : ThreadId) (y : Item) (k : ChangeKind) :
    (ledger.note (.thread, id) k).items y =
      if y = .thread id then fold (ledger.items (.thread id)) k else ledger.items y :=
  ledger.items_note (.thread id) y k

@[simp] theorem Ledger.items_note_mailbox (ledger : Ledger) (id : MailboxId) (y : Item)
    (k : ChangeKind) : (ledger.note (.mailbox, id) k).items y = ledger.items y :=
  kind_note_of_ne (y.slot_ne_mailbox id)

@[simp] theorem Ledger.items_noteAll (ledger : Ledger) (mailboxes : List MailboxId) (y : Item) :
    Ledger.items (noteAll ledger mailboxes) y = ledger.items y := by
  rw [Ledger.items, noteAll, kind_foldl_note (fun mailbox => (ObjectType.mailbox, mailbox)), if_neg]
  · rfl
  · rintro ⟨m, -, hm⟩
    exact y.slot_ne_mailbox m hm.symm

@[simp] theorem Ledger.items_noteMailboxes (ledger : Ledger) (touched : List MailboxId)
    (folder : MailboxId) (y : Item) :
    Ledger.items (noteMailboxes ledger touched folder) y = ledger.items y :=
  Ledger.items_noteAll ledger (touched.filter fun mailbox => mailbox ≠ folder) y

/-! ## Changes a client does not see -/

/-- The tables moved where no client looks. -/
structure Unseen (t t' : Tables) : Prop where
  emails : ∀ id thread keywords, EmailAt t' id thread keywords ↔ EmailAt t id thread keywords
  memberships : t'.memberships = t.memberships
  messageIds : t'.messageIds = t.messageIds
  changes : t'.changes = t.changes
  sequence : t'.sequence = t.sequence

theorem Unseen.view {t t' : Tables} (h : Unseen t t') (x : Item) : view t' x = view t x :=
  view_congr h.emails (fun _ _ => by rw [MemberOf, MemberOf, h.memberships]) x

theorem Unseen.refl {t : Tables} : Unseen t t := ⟨fun _ _ _ => Iff.rfl, rfl, rfl, rfl, rfl⟩

theorem Unseen.trans {t₁ t₂ t₃ : Tables} (h : Unseen t₁ t₂) (h' : Unseen t₂ t₃) : Unseen t₁ t₃ :=
  ⟨fun id thread keywords => (h'.emails id thread keywords).trans (h.emails id thread keywords),
    h'.memberships.trans h.memberships, h'.messageIds.trans h.messageIds,
    h'.changes.trans h.changes, h'.sequence.trans h.sequence⟩

/-- An `UPDATE` of the emails that keeps the id, the thread and the keywords. -/
theorem Unseen.of_map {t t' : Tables} {f : EmailRecord → EmailRecord}
    (hmem : ∀ r, r ∈ t'.emails ↔ ∃ s ∈ t.emails, f s = r)
    (hf : ∀ r, (f r).id = r.id ∧ (f r).threadId = r.threadId ∧ (f r).keywords = r.keywords)
    (hrest : t' = { t with emails := t'.emails }) : Unseen t t' := by
  refine ⟨fun id thread keywords => ?_, by rw [hrest], by rw [hrest], by rw [hrest], by rw [hrest]⟩
  simp only [EmailAt, hmem]
  constructor
  · rintro ⟨_, ⟨s, hs, rfl⟩, h⟩
    obtain ⟨h1, h2, h3⟩ := hf s
    exact ⟨s, hs, h1 ▸ h2 ▸ h3 ▸ h⟩
  · rintro ⟨s, hs, h⟩
    obtain ⟨h1, h2, h3⟩ := hf s
    exact ⟨f s, ⟨s, hs, rfl⟩, by rw [h1, h2, h3]; exact h⟩

theorem holding_iff {t : Tables} {thread : ThreadId} :
    Holding t thread ↔ ∃ id keywords, EmailAt t id thread keywords := by
  simp [Holding, EmailAt]

theorem exists_email_iff {t : Tables} {id : EmailId} :
    (∃ r ∈ t.emails, r.id = id) ↔ ∃ thread keywords, EmailAt t id thread keywords := by
  simp [EmailAt]

theorem HashLive.unseen {t t' : Tables} (h : HashLive t) (hu : Unseen t t') : HashLive t' := by
  intro r hr
  rw [hu.messageIds] at hr
  have := h r hr
  rw [holding_iff] at this ⊢
  simpa only [hu.emails] using this

theorem MembersLive.unseen {t t' : Tables} (h : MembersLive t) (hu : Unseen t t') :
    MembersLive t' := by
  intro m hm
  rw [hu.memberships] at hm
  have := h m hm
  rw [exists_email_iff] at this ⊢
  simpa only [hu.emails] using this

theorem Sound.unseen (h : Sound before w) {t : Tables} (hu : Unseen w.tables t) :
    Sound before { w with tables := t } :=
  h.step (fun x => .kept rfl (hu.view x)) (h.hashes.unseen hu) (h.members.unseen hu) hu.changes
    hu.sequence

/-- A check that the folder stands shows nowhere. -/
theorem pinned_unseen (t : Tables) (standing : Standing) : Unseen t (pinned t standing).1 := by
  unfold pinned
  split
  · exact .refl
  · split
    · exact ⟨fun _ _ _ => Iff.rfl, rfl, rfl, rfl, rfl⟩
    · exact .refl

end Huliho
