import Huliho.Store.Mailboxes

/-!
# What a client sees of the rows

The visible value of an Email — its thread, its mailboxes, its keywords — and of a Thread — the
emails in it — as `Email/get` and `Thread/get` read them. `view` is that value, `none` while the
object does not exist, and `Item` ranges over the two types, so that the journal of a write
(`Huliho.Tracks`) can be kept over both at once.

Two relations say all a view depends on: `EmailAt` (the row of an email) and `MemberOf` (its
memberships). `view_email_congr` and `view_thread_congr` turn a statement about them into one about
the view.

`Inv` is what every write keeps of the tables beyond their constraints.
-/

namespace Huliho

/-- An object whose visible value the rows hold. -/
inductive Item
  | email (id : EmailId)
  | thread (id : ThreadId)
deriving DecidableEq, Repr

/-- The object of the log. -/
@[simp] def Item.slot : Item → Slot
  | .email id => (.email, id)
  | .thread id => (.thread, id)

theorem Item.slot_injective {x y : Item} (h : x.slot = y.slot) : x = y := by
  cases x <;> cases y <;> simp_all [Item.slot]

theorem Item.slot_ne_mailbox (x : Item) (id : MailboxId) : x.slot ≠ (.mailbox, id) := by
  cases x <;> simp

/-- The visible value of an email or of a thread. -/
inductive Value
  | email (threadId : ThreadId) (mailboxIds : Finset MailboxId) (keywords : Finset String)
  | thread (emails : Finset EmailId)
deriving DecidableEq

/-- What a client sees of an object. A thread exists while an email is in it. -/
def view (t : Tables) : Item → Option Value
  | .email id =>
    (rowOf t id).map fun r => .email r.threadId (currentMemberships t id).toFinset r.keywords
  | .thread id =>
    if emailsOf t id = [] then none else some (.thread (emailsOf t id).toFinset)

/-! ## What a view depends on -/

/-- The row of the email is in the thread and carries the keywords. -/
def EmailAt (t : Tables) (id : EmailId) (thread : ThreadId) (keywords : Finset String) : Prop :=
  ∃ r ∈ t.emails, r.id = id ∧ r.threadId = thread ∧ r.keywords = keywords

/-- The email is a member of the mailbox. -/
def MemberOf (t : Tables) (id : EmailId) (mailbox : MailboxId) : Prop :=
  ∃ m ∈ t.memberships, m.emailId = id ∧ m.mailboxId = mailbox

/-- The email is in the thread. -/
def InThread (t : Tables) (id : EmailId) (thread : ThreadId) : Prop :=
  ∃ r ∈ t.emails, r.id = id ∧ r.threadId = thread

/-- The thread holds an email. -/
def Holding (t : Tables) (thread : ThreadId) : Prop := ∃ r ∈ t.emails, r.threadId = thread

theorem rowOf_eq_some {t : Tables} {id : EmailId} {r : EmailRecord} :
    rowOf t id = some r ↔ r ∈ t.emails ∧ r.id = id := by
  constructor
  · exact Table.mem_of_find?
  · rintro ⟨hr, rfl⟩
    exact Table.find?_eq_some hr rfl fun s hs h => EmailRecord.eq_of_id hs hr h

theorem rowOf_eq_none {t : Tables} {id : EmailId} :
    rowOf t id = none ↔ ∀ r ∈ t.emails, r.id ≠ id := Table.find?_eq_none

theorem mem_currentMemberships {t : Tables} {id : EmailId} {mailbox : MailboxId} :
    mailbox ∈ currentMemberships t id ↔ MemberOf t id mailbox := by
  simp [currentMemberships, MemberOf, Table.mem_def, and_assoc]

theorem mem_emailsOf_iff {t : Tables} {id : EmailId} {thread : ThreadId} :
    id ∈ emailsOf t thread ↔ InThread t id thread := by
  rw [mem_emailsOf]
  exact exists_congr fun r => and_congr_right fun _ => and_comm

theorem view_email_isSome {t : Tables} {id : EmailId} :
    (view t (.email id)).isSome ↔ ∃ r ∈ t.emails, r.id = id := by
  rw [view, Option.isSome_map, Option.isSome_iff_exists]
  simp [rowOf_eq_some]

theorem view_thread_isSome {t : Tables} {thread : ThreadId} :
    (view t (.thread thread)).isSome ↔ Holding t thread := by
  have hnil : emailsOf t thread ≠ [] ↔ Holding t thread := by
    rw [List.ne_nil_iff_exists_cons, ← List.ne_nil_iff_exists_cons, ← List.length_pos_iff,
      List.length_pos_iff_exists_mem]
    simp [mem_emailsOf, Holding]
  rw [view, ← hnil]
  split <;> simp_all

theorem view_email_eq_none {t : Tables} {id : EmailId} :
    view t (.email id) = none ↔ ∀ r ∈ t.emails, r.id ≠ id := by
  rw [← Option.not_isSome_iff_eq_none, view_email_isSome]
  simp

theorem view_thread_eq_none {t : Tables} {thread : ThreadId} :
    view t (.thread thread) = none ↔ ¬ Holding t thread := by
  rw [← Option.not_isSome_iff_eq_none, view_thread_isSome]

/-- The view of an email depends on its row and its memberships. -/
theorem view_email_congr {t t' : Tables} {id : EmailId}
    (hrow : ∀ thread keywords, EmailAt t' id thread keywords ↔ EmailAt t id thread keywords)
    (hmem : ∀ mailbox, MemberOf t' id mailbox ↔ MemberOf t id mailbox) :
    view t' (.email id) = view t (.email id) := by
  have hset : (currentMemberships t' id).toFinset = (currentMemberships t id).toFinset := by
    ext mailbox
    simp [mem_currentMemberships, hmem]
  simp only [view, hset]
  cases hr : rowOf t id with
  | none =>
    have hr' : rowOf t' id = none := by
      rw [rowOf_eq_none] at hr ⊢
      rintro r hm rfl
      obtain ⟨r', hm', hid, -⟩ := (hrow r.threadId r.keywords).1 ⟨r, hm, rfl, rfl, rfl⟩
      exact hr r' hm' hid
    simp [hr']
  | some r =>
    obtain ⟨hm, rfl⟩ := rowOf_eq_some.1 hr
    obtain ⟨r', hm', hid, hth, hkw⟩ := (hrow r.threadId r.keywords).2 ⟨r, hm, rfl, rfl, rfl⟩
    rw [rowOf_eq_some.2 ⟨hm', hid⟩]
    simp [hth, hkw]

/-- The view of a thread depends on the emails in it. -/
theorem view_thread_congr {t t' : Tables} {thread : ThreadId}
    (h : ∀ id, InThread t' id thread ↔ InThread t id thread) :
    view t' (.thread thread) = view t (.thread thread) := by
  have hmem : ∀ id, id ∈ emailsOf t' thread ↔ id ∈ emailsOf t thread := fun id => by
    rw [mem_emailsOf_iff, mem_emailsOf_iff, h]
  have hset : (emailsOf t' thread).toFinset = (emailsOf t thread).toFinset := by
    ext id
    simp [hmem]
  have hnil : emailsOf t' thread = [] ↔ emailsOf t thread = [] := by
    simp only [List.eq_nil_iff_forall_not_mem, hmem]
  simp only [view, hset, hnil]

/-- Tables that agree on the emails and the memberships look the same. -/
theorem view_congr {t t' : Tables} (he : ∀ id thread keywords,
      EmailAt t' id thread keywords ↔ EmailAt t id thread keywords)
    (hm : ∀ id mailbox, MemberOf t' id mailbox ↔ MemberOf t id mailbox) (x : Item) :
    view t' x = view t x := by
  cases x with
  | email id => exact view_email_congr (he id) (hm id)
  | thread thread =>
    refine view_thread_congr fun id => ?_
    have hin : ∀ t : Tables, InThread t id thread ↔ ∃ keywords, EmailAt t id thread keywords :=
      fun t => by simp [InThread, EmailAt]
    simp only [hin, he]

/-- Only the emails and the memberships show. -/
theorem view_frame {t t' : Tables} (he : t'.emails = t.emails)
    (hm : t'.memberships = t.memberships) (x : Item) : view t' x = view t x :=
  view_congr (fun _ _ _ => by rw [EmailAt, EmailAt, he]) (fun _ _ => by rw [MemberOf, MemberOf, hm]) x

/-! ## What every write keeps -/

/-- Every hash points at a thread that holds an email. -/
def HashLive (t : Tables) : Prop := ∀ r ∈ t.messageIds, Holding t r.threadId

/-- Every membership is an email's. -/
def MembersLive (t : Tables) : Prop := ∀ m ∈ t.memberships, ∃ r ∈ t.emails, r.id = m.emailId

/-- The invariant of the tables. -/
structure Inv (t : Tables) : Prop where
  below : LogBelow t
  hashes : HashLive t
  members : MembersLive t

theorem Inv.empty : Inv Tables.empty :=
  ⟨fun _ h => absurd h Table.not_mem_empty, fun _ h => absurd h Table.not_mem_empty,
    fun _ h => absurd h Table.not_mem_empty⟩

end Huliho
