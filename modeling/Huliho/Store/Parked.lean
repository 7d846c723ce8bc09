import Huliho.Store.Run

/-!
# A batch on parked rows

`park_uids` puts the rows of some UIDs of one folder under a negative UID, all at once
(**`parkUids_eq_ok`**). A batch of another folder does the same on the rows so parked as on the rows
before, and what it leaves is parked in the same way (**`writeBatch_parked`**): it reads of a row of that
folder neither its UID nor anything that depends on it, and a row it moves takes the UID of its new
folder.
-/

namespace Huliho

/-- The row of a folder under one of these UIDs waits. -/
def EmailRecord.parks (folder : MailboxId) (uids : List Nat) (r : EmailRecord) : EmailRecord :=
  if r.folderId = folder ∧ ∃ uid ∈ uids, r.uid = uid then { r with uid := -r.uid } else r

/-- The emails with the rows of some UIDs of a folder parked. -/
def ParkedRows (folder : MailboxId) (uids : List Nat) (e e' : Table EmailRecord.Apart) : Prop :=
  e'.rows = e.rows.map (EmailRecord.parks folder uids)

section

variable {folder : MailboxId} {uids : List Nat} {r : EmailRecord} {e e' : Table EmailRecord.Apart}

@[simp] theorem EmailRecord.parks_id : (r.parks folder uids).id = r.id := by
  unfold parks; split <;> rfl

@[simp] theorem EmailRecord.parks_folderId : (r.parks folder uids).folderId = r.folderId := by
  unfold parks; split <;> rfl

@[simp] theorem EmailRecord.parks_threadId : (r.parks folder uids).threadId = r.threadId := by
  unfold parks; split <;> rfl

@[simp] theorem EmailRecord.parks_receivedAt :
    (r.parks folder uids).receivedAt = r.receivedAt := by
  unfold parks; split <;> rfl

@[simp] theorem EmailRecord.parks_gmailMsgid :
    (r.parks folder uids).gmailMsgid = r.gmailMsgid := by
  unfold parks; split <;> rfl

theorem EmailRecord.parks_of_ne (h : r.folderId ≠ folder) : r.parks folder uids = r :=
  if_neg fun hc => h hc.1

/-! ## Queries -/

/-- A query that does not tell a parked row from the row answers the same rows, parked. -/
theorem ParkedRows.filter (h : ParkedRows folder uids e e') {p : EmailRecord → Bool}
    (hp : ∀ r, p (r.parks folder uids) = p r) :
    e'.rows.filter p = (e.rows.filter p).map (EmailRecord.parks folder uids) := by
  have hcomp : p ∘ EmailRecord.parks folder uids = p := funext hp
  rw [h, List.filter_map, hcomp]

theorem ParkedRows.find? (h : ParkedRows folder uids e e') {p : EmailRecord → Prop}
    [DecidablePred p] (hp : ∀ r, p (r.parks folder uids) ↔ p r) :
    e'.find? p = (e.find? p).map (EmailRecord.parks folder uids) := by
  have hcomp : (fun r => decide (p r)) ∘ EmailRecord.parks folder uids = fun r => decide (p r) :=
    funext fun r => decide_eq_decide.2 (hp r)
  rw [Table.find?, h, List.find?_map, hcomp]
  rfl

theorem ParkedRows.exists (h : ParkedRows folder uids e e') {p : EmailRecord → Prop}
    (hp : ∀ r, p (r.parks folder uids) ↔ p r) : (∃ r ∈ e'.rows, p r) ↔ ∃ r ∈ e.rows, p r := by
  rw [h]
  simp only [List.mem_map, exists_exists_and_eq_and, hp]

/-- A condition on the rows of another folder. -/
theorem parks_elsewhere {other : MailboxId} {p : EmailRecord → Prop} (hne : other ≠ folder)
    (r : EmailRecord) :
    ((r.parks folder uids).folderId = other ∧ p (r.parks folder uids)) ↔
      r.folderId = other ∧ p r := by
  rw [EmailRecord.parks_folderId]
  refine and_congr_right fun hother => ?_
  rw [EmailRecord.parks_of_ne (hother ▸ hne)]

/-! ## Statements -/

/-- A row of another folder stands apart from a parked row where it does from the row. -/
theorem apart_parks {row : EmailRecord} (hrow : row.folderId ≠ folder) :
    (r.parks folder uids).Apart row ↔ r.Apart row := by
  by_cases hfolder : r.folderId = folder
  · have hne : r.folderId ≠ row.folderId := fun h => hrow (h ▸ hfolder)
    simp [EmailRecord.Apart, hne]
  · rw [EmailRecord.parks_of_ne hfolder]

/-- A row of another folder goes in among the parked rows as among the rows. -/
theorem ParkedRows.insert? (h : ParkedRows folder uids e e') {row : EmailRecord}
    {e₂ : Table EmailRecord.Apart} (hrow : row.folderId ≠ folder) (hi : e.insert? row = some e₂) :
    ∃ e₂', e'.insert? row = some e₂' ∧ ParkedRows folder uids e₂ e₂' := by
  obtain ⟨hapart, hrows⟩ := Table.insert?_eq_some hi
  have hparked : ∀ s ∈ e', s.Apart row := by
    intro s hs
    rw [Table.mem_def, h] at hs
    obtain ⟨r, hr, rfl⟩ := List.mem_map.1 hs
    exact (apart_parks hrow).2 (hapart r hr)
  obtain ⟨e₂', hi'⟩ := Option.isSome_iff_exists.1 (Table.insert?_isSome.2 hparked)
  refine ⟨e₂', hi', ?_⟩
  rw [ParkedRows, (Table.insert?_eq_some hi').2, hrows, List.map_append, List.map_singleton, ← h,
    EmailRecord.parks_of_ne hrow]

/-- An update that moves rows to another folder, or leaves them as they are, does so among the parked
rows. -/
theorem ParkedRows.update? (h : ParkedRows folder uids e e') {f : EmailRecord → EmailRecord}
    {e₂ : Table EmailRecord.Apart} (hf : ∀ r ∈ e, f r = r ∨ (f r).folderId ≠ folder)
    (hcomm : ∀ r ∈ e, f (r.parks folder uids) = (f r).parks folder uids)
    (hu : e.update? f = some e₂) :
    ∃ e₂', e'.update? f = some e₂' ∧ ParkedRows folder uids e₂ e₂' := by
  obtain ⟨hrows, hpairs⟩ : e₂.rows = e.rows.map f ∧ (e.rows.map f).Pairwise EmailRecord.Apart := by
    unfold Table.update? at hu
    split at hu
    · rename_i hpairs
      obtain rfl := Option.some.inj hu
      exact ⟨rfl, hpairs⟩
    · cases hu
  have hmap : e'.rows.map f = e₂.rows.map (EmailRecord.parks folder uids) := by
    rw [h, hrows, List.map_map, List.map_map]
    exact List.map_congr_left hcomm
  have happ : (e'.rows.map f).Pairwise EmailRecord.Apart := by
    have hbefore : (e.rows.map (EmailRecord.parks folder uids)).Pairwise EmailRecord.Apart := by
      rw [← h]
      exact e'.apart
    rw [hmap, hrows, List.map_map, List.pairwise_map]
    rw [List.pairwise_map] at hpairs hbefore
    refine (hpairs.and hbefore).imp_of_mem fun {a b} ha hb hab => ?_
    obtain ⟨hmoved, hparked⟩ := hab
    simp only [Function.comp_apply]
    rcases hf b hb with hb' | hb'
    · rcases hf a ha with ha' | ha'
      · rwa [ha', hb']
      · -- One moved away, the other may be parked.
        rw [EmailRecord.parks_of_ne ha']
        exact Std.Symm.symm _ _ ((apart_parks ha').2 (Std.Symm.symm _ _ hmoved))
    · rw [EmailRecord.parks_of_ne hb']
      exact (apart_parks hb').2 hmoved
  refine ⟨⟨e'.rows.map f, happ⟩, dif_pos happ, ?_⟩
  exact hmap

/-! ## Writings -/

/-- A writing on other emails. -/
def Writing.on (w : Writing) (emails : Table EmailRecord.Apart) : Writing :=
  ⟨{ w.tables with emails }, w.ledger⟩

variable {w w₂ : Writing} {thread : ThreadId}

theorem size_on (h : ParkedRows folder uids w.tables.emails e) (thread : ThreadId) :
    size (w.on e).tables thread = size w.tables thread := by
  have hfilter := h.filter (p := fun r => r.threadId = thread) fun r => by simp
  rw [size, size]
  change (e.rows.filter _).length = _
  rw [hfilter, List.length_map]

theorem emailsOf_on (h : ParkedRows folder uids w.tables.emails e) (thread : ThreadId) :
    emailsOf (w.on e).tables thread = emailsOf w.tables thread := by
  have hfilter := h.filter (p := fun r => r.threadId = thread) fun r => by simp
  rw [emailsOf, emailsOf]
  change ((e.rows.filter _).insertionSort _).map _ = _
  rw [hfilter, ← List.map_insertionSort EmailRecord.Before EmailRecord.Before, List.map_map]
  · congr 1
    funext r
    simp
  · intro a _ b _
    simp [EmailRecord.Before]

theorem claim_on (h : ParkedRows folder uids w.tables.emails e) (thread : ThreadId) :
    claim (w.on e) thread = (claim w thread).on e := by
  rw [claim, claim, size_on h]
  rfl

theorem left_on (h : ParkedRows folder uids w.tables.emails e) (thread : ThreadId) :
    left (w.on e) thread = (left w thread).on e := by
  rw [left, left, size_on h]
  split <;> rfl

/-- A merge moves the same rows between threads, parked or not. -/
theorem merge_on (h : ParkedRows folder uids w.tables.emails e) (loser survivor : ThreadId) :
    ∃ e₂, ParkedRows folder uids (merge w loser survivor).tables.emails e₂ ∧
      merge (w.on e) loser survivor = (merge w loser survivor).on e₂ := by
  refine ⟨(merge (w.on e) loser survivor).tables.emails, ?_, ?_⟩
  · change (e.rows.map _) = (w.tables.emails.rows.map _).map _
    rw [h, List.map_map, List.map_map]
    refine List.map_congr_left fun r _ => ?_
    simp only [Function.comp_apply, EmailRecord.rethread, EmailRecord.parks_threadId]
    split
    · unfold EmailRecord.parks
      split <;> rfl
    · rfl
  · rw [merge, merge, emailsOf_on h]
    rfl

theorem merges_on (thread : ThreadId) (losers : List (Nat × ThreadId)) :
    ∀ {w : Writing} {e : Table EmailRecord.Apart}, ParkedRows folder uids w.tables.emails e →
      ∃ e₂, ParkedRows folder uids
          (losers.foldl (fun w loser => merge w loser.2 thread) w).tables.emails e₂ ∧
        losers.foldl (fun w loser => merge w loser.2 thread) (w.on e) =
          (losers.foldl (fun w loser => merge w loser.2 thread) w).on e₂ := by
  induction losers with
  | nil => exact fun h => ⟨_, h, rfl⟩
  | cons loser losers ih =>
    intro w e h
    obtain ⟨e₁, h₁, hmerge⟩ := merge_on h loser.2 thread
    obtain ⟨e₂, h₂, hmerges⟩ := ih h₁
    refine ⟨e₂, h₂, ?_⟩
    rw [List.foldl_cons, hmerge, hmerges]
    rfl

theorem points_on (thread : ThreadId) (hashes : List Bytes) (t : Tables)
    (e : Table EmailRecord.Apart) :
    hashes.foldl (point thread) { t with emails := e } =
      { hashes.foldl (point thread) t with emails := e } := by
  induction hashes generalizing t with
  | nil => rfl
  | cons hash hashes ih =>
    rw [List.foldl_cons, List.foldl_cons]
    exact ih (point thread t hash)

theorem named_on (h : ParkedRows folder uids w.tables.emails e) (hashes : List Bytes) :
    named (w.on e).tables hashes = named w.tables hashes := by
  have hone : nameOne (w.on e).tables = nameOne w.tables := by
    funext known hash
    have hthread : threadOf (w.on e).tables hash = threadOf w.tables hash := rfl
    rw [nameOne, nameOne, hthread]
    cases threadOf w.tables hash with
    | none => rfl
    | some thread =>
      dsimp only
      rw [size_on h]
  rw [named, named, hone]

/-- **A message joins the same thread.** -/
theorem join_on (h : ParkedRows folder uids w.tables.emails e) (hashes : List Bytes)
    (generated : ThreadId) :
    ∃ e₂, ParkedRows folder uids (join w hashes generated).1.tables.emails e₂ ∧
      join (w.on e) hashes generated =
        ((join w hashes generated).1.on e₂, (join w hashes generated).2) := by
  rw [join, join, named_on h]
  dsimp only
  generalize (named w.tables hashes).insertionSort Larger = sorted
  obtain ⟨e₂, h₂, hmerges⟩ := merges_on (sorted.head?.getD (0, generated)).2 sorted.tail h
  refine ⟨e₂, ?_, ?_⟩
  · rw [points_frame]
    exact h₂
  · rw [hmerges]
    simp only [Writing.on, points_on]

/-! ## Arrivals -/

/-- The row an arrival in another folder writes is the same. -/
theorem upsertEmail_on (h : ParkedRows folder uids w.tables.emails e) {record : EmailRecord}
    (hrecord : record.folderId ≠ folder) {t : Tables} (hu : upsertEmail w.tables record = .ok t) :
    ∃ e₂, ParkedRows folder uids t.emails e₂ ∧
      upsertEmail (w.on e).tables record = .ok { t with emails := e₂ } := by
  simp only [upsertEmail, Except.bind_eq_ok, constrained_eq_ok, pure, Except.pure,
    Except.ok.injEq] at hu
  obtain ⟨rows, hrows, rfl⟩ := hu
  have hheld : (e.find? fun r => r.id = record.id).isSome =
      (w.tables.emails.find? fun r => r.id = record.id).isSome := by
    rw [h.find? fun r => by simp, Option.isSome_map]
  have hgoes : ∃ e₂, (if (e.find? fun r => r.id = record.id).isSome then e.update? record.takes
      else e.insert? record) = some e₂ ∧ ParkedRows folder uids rows e₂ := by
    rw [hheld]
    split at hrows
    · rename_i hsome
      rw [if_pos hsome]
      refine h.update? (fun r _ => ?_) (fun r _ => ?_) hrows
      · unfold EmailRecord.takes
        split
        · exact .inr hrecord
        · exact .inl rfl
      · unfold EmailRecord.takes
        rw [EmailRecord.parks_id, EmailRecord.parks_gmailMsgid]
        split
        · have hmoved : ({ record with gmailMsgid := r.gmailMsgid } : EmailRecord).folderId ≠
              folder := hrecord
          exact (EmailRecord.parks_of_ne hmoved).symm
        · rfl
    · rename_i hnone
      rw [if_neg hnone]
      exact h.insert? hrecord hrows
  obtain ⟨e₂, hstatement, hparked⟩ := hgoes
  refine ⟨e₂, hparked, ?_⟩
  simp only [upsertEmail, Except.bind_eq_ok, constrained_eq_ok, pure, Except.pure,
    Except.ok.injEq]
  exact ⟨e₂, hstatement, rfl⟩

/-- **An arrival in another folder** is placed alike. -/
theorem place_on (h : ParkedRows folder uids w.tables.emails e) {a : Arrival}
    (hfolder : a.folder ≠ folder) {sealer : Sealer} {id : EmailId} {kind : ChangeKind}
    {previous : Option ThreadId} (hp : a.place sealer w id kind previous = .ok w₂) :
    ∃ e₂, ParkedRows folder uids w₂.tables.emails e₂ ∧
      a.place sealer (w.on e) id kind previous = .ok (w₂.on e₂) := by
  simp only [Arrival.place, Except.bind_eq_ok, pure, Except.pure, Except.ok.injEq] at hp ⊢
  obtain ⟨sealed, hsealed, t, ht, rfl⟩ := hp
  obtain ⟨claimed, hclaimed, hparked, hon⟩ : ∃ claimed : Writing,
      claimed = (if kind = .created ∨ previous.isSome then claim w a.gmail.thread else w) ∧
      ParkedRows folder uids claimed.tables.emails e ∧
      claimed.on e = (if kind = .created ∨ previous.isSome then claim (w.on e) a.gmail.thread
        else w.on e) := by
    refine ⟨_, rfl, ?_, ?_⟩
    · split
      · exact h
      · exact h
    · split
      · exact (claim_on h _).symm
      · rfl
  rw [← hclaimed] at ht ⊢
  rw [← hon]
  obtain ⟨e₂, h₂, hups⟩ :=
    upsertEmail_on hparked (show (a.record id sealed).folderId ≠ folder from hfolder) ht
  cases previous with
  | none => exact ⟨e₂, h₂, sealed, hsealed, { t with emails := e₂ }, hups, rfl⟩
  | some previous =>
    have hleft : left (Writing.on ⟨t, claimed.ledger⟩ e₂) previous =
        (left ⟨t, claimed.ledger⟩ previous).on e₂ := left_on h₂ previous
    refine ⟨e₂, ?_, sealed, hsealed, { t with emails := e₂ }, hups, ?_⟩
    · change ParkedRows folder uids (left ⟨t, claimed.ledger⟩ previous).tables.emails e₂
      rw [left_emails]
      exact h₂
    · change (⟨replaceMemberships (left (Writing.on ⟨t, claimed.ledger⟩ e₂) previous).tables id
        a.facts.receivedAt _, noteMailboxes (left (Writing.on ⟨t, claimed.ledger⟩ e₂) previous).ledger
          (symmetricDifference (currentMemberships
            (left (Writing.on ⟨t, claimed.ledger⟩ e₂) previous).tables id) _) _⟩ : Writing) = _
      rw [hleft]
      rfl

/-- The row that holds a message id is the same. -/
theorem held_on (h : ParkedRows folder uids w.tables.emails e) (msgid : Int) :
    held (w.on e).tables msgid = (held w.tables msgid).map (EmailRecord.parks folder uids) := by
  exact h.find? fun r => by simp

/-- **A message arrives in another folder** alike. -/
theorem write_on (h : ParkedRows folder uids w.tables.emails e) {a : Arrival}
    (hfolder : a.folder ≠ folder) {sealer : Sealer} {generated : EmailId}
    {wrote : Option (EmailId × ChangeKind)}
    (hw : a.write sealer generated w = .ok (w₂, wrote)) :
    ∃ e₂, ParkedRows folder uids w₂.tables.emails e₂ ∧
      a.write sealer generated (w.on e) = .ok (w₂.on e₂, wrote) := by
  rw [Arrival.write] at hw ⊢
  rw [held_on h]
  cases hheld : held w.tables a.gmail.storedMsgid with
  | none =>
    rw [hheld] at hw
    simp only [Except.bind_eq_ok, pure, Except.pure, Except.ok.injEq, Prod.mk.injEq,
      Option.map_none] at hw ⊢
    obtain ⟨placed, hplace, rfl, rfl⟩ := hw
    obtain ⟨e₂, h₂, hon⟩ := place_on h hfolder hplace
    exact ⟨e₂, h₂, _, hon, rfl, rfl⟩
  | some row =>
    rw [hheld] at hw
    have hchases : a.Chases (row.parks folder uids) ↔ a.Chases row :=
      parks_elsewhere (p := fun r => 0 < r.uid ∧ r.uid ≠ a.facts.uid) hfolder row
    simp only [Option.map_some, hchases, EmailRecord.parks_id, EmailRecord.parks_threadId] at hw ⊢
    split at hw
    · rename_i hchased
      simp only [pure, Except.pure, Except.ok.injEq, Prod.mk.injEq] at hw
      obtain ⟨rfl, rfl⟩ := hw
      exact ⟨e, h, if_pos hchased⟩
    · rename_i hfree
      rw [if_neg hfree]
      simp only [Except.bind_eq_ok, pure, Except.pure, Except.ok.injEq, Prod.mk.injEq] at hw ⊢
      obtain ⟨placed, hplace, rfl, rfl⟩ := hw
      obtain ⟨e₂, h₂, hon⟩ := place_on h hfolder hplace
      exact ⟨e₂, h₂, _, hon, rfl, rfl⟩

/-! ## The loop of a batch -/

/-- A join moves rows between threads and does nothing else to them. -/
theorem join_rows (w : Writing) (hashes : List Bytes) (generated : ThreadId) :
    ∃ rethread : EmailRecord → EmailRecord,
      (∀ r, ∃ thread, rethread r = { r with threadId := thread }) ∧
      (join w hashes generated).1.tables.emails.rows = w.tables.emails.rows.map rethread := by
  rw [join]
  dsimp only
  rw [points_frame]
  generalize ((named w.tables hashes).insertionSort Larger).head?.getD (0, generated) = survivor
  generalize ((named w.tables hashes).insertionSort Larger).tail = losers
  induction losers generalizing w with
  | nil => exact ⟨id, fun r => ⟨r.threadId, rfl⟩, (List.map_id _).symm⟩
  | cons loser losers ih =>
    obtain ⟨rest, hrest, hrows⟩ := ih (merge w loser.2 survivor.2)
    refine ⟨rest ∘ EmailRecord.rethread loser.2 survivor.2, fun r => ?_, ?_⟩
    · obtain ⟨thread, hthread⟩ := hrest (r.rethread loser.2 survivor.2)
      refine ⟨thread, hthread.trans ?_⟩
      unfold EmailRecord.rethread
      split <;> rfl
    · rw [List.foldl_cons, hrows]
      exact List.map_map

/-- A message of another folder that is no Gmail message goes in alike. -/
theorem insert_on (h : ParkedRows folder uids w.tables.emails e) {facts : EmailFacts} {id : EmailId}
    {other : MailboxId} (hother : other ≠ folder) {hash : Option Bytes} {sealed : Bytes} {t : Tables}
    (hi : insert w.tables facts id other hash sealed thread = .ok t) :
    ∃ e₂, ParkedRows folder uids t.emails e₂ ∧
      insert (w.on e).tables facts id other hash sealed thread = .ok { t with emails := e₂ } := by
  simp only [insert, Except.bind_eq_ok, constrained_eq_ok, pure, Except.pure, Except.ok.injEq] at hi ⊢
  obtain ⟨rows, hrows, memberships, hmemberships, rfl⟩ := hi
  obtain ⟨e₂, hinsert, h₂⟩ := h.insert? hother hrows
  exact ⟨e₂, h₂, e₂, hinsert, memberships, hmemberships, rfl⟩

/-- A waiting row of another folder is matched alike. -/
theorem rewrite_on (h : ParkedRows folder uids w.tables.emails e) {facts : EmailFacts} {id : EmailId}
    {sealed : Bytes} (hid : ∀ r ∈ w.tables.emails, r.id = id → r.folderId ≠ folder) {t : Tables}
    (hr : rewrite w.tables facts id sealed = .ok t) :
    ∃ e₂, ParkedRows folder uids t.emails e₂ ∧
      rewrite (w.on e).tables facts id sealed = .ok { t with emails := e₂ } := by
  simp only [rewrite, Except.bind_eq_ok, constrained_eq_ok, pure, Except.pure, Except.ok.injEq] at hr ⊢
  obtain ⟨rows, hrows, rfl⟩ := hr
  have hfolder : ∀ r : EmailRecord, (r.matched facts id sealed).folderId = r.folderId := by
    intro r
    unfold EmailRecord.matched
    split <;> rfl
  have hf : ∀ r ∈ w.tables.emails,
      r.matched facts id sealed = r ∨ (r.matched facts id sealed).folderId ≠ folder := by
    intro r hr
    by_cases hr' : r.id = id
    · right
      rw [hfolder]
      exact hid r hr hr'
    · exact .inl (if_neg hr')
  have hcomm : ∀ r ∈ w.tables.emails, (r.parks folder uids).matched facts id sealed =
      (r.matched facts id sealed).parks folder uids := by
    intro r hr
    by_cases hr' : r.id = id
    · have hne := hid r hr hr'
      rw [EmailRecord.parks_of_ne hne, EmailRecord.parks_of_ne ((hfolder r).trans_ne hne)]
    · rw [EmailRecord.matched, EmailRecord.matched, EmailRecord.parks_id, if_neg hr', if_neg hr']
  obtain ⟨e₂, hupdate, h₂⟩ := h.update? hf hcomm hrows
  exact ⟨e₂, h₂, e₂, hupdate, rfl⟩

theorem holds_on (h : ParkedRows folder uids w.tables.emails e) {other : MailboxId}
    (hother : other ≠ folder) (uid : Nat) :
    holds (w.on e).tables other uid = holds w.tables other uid := by
  rw [holds, holds]
  change (e.find? _).isSome = _
  rw [h.find? (fun r => parks_elsewhere (p := fun r => r.uid = (uid : Int)) hother r),
    Option.isSome_map]

/-- The rows that wait in the loop are not of the folder. -/
def Elsewhere (folder : MailboxId) (b : Batching) : Prop :=
  ∀ v ∈ b.waiting, ∀ r ∈ b.writing.tables.emails, r.id = v.2 → r.folderId ≠ folder

/-- The loop on other emails. -/
def Batching.on (b : Batching) (emails : Table EmailRecord.Apart) : Batching :=
  ⟨b.writing.on emails, b.waiting⟩

/-- **One message of a batch** of another folder, on the parked rows as on the rows. -/
theorem writeFacts_on {b b₂ : Batching} (h : ParkedRows folder uids b.writing.tables.emails e)
    (hwaiting : Elsewhere folder b) {sealer : Sealer} {mint : Nat → Minted} {other : MailboxId}
    (hother : other ≠ folder) {labels : Labels} {message : EmailFacts × Nat}
    (hw : writeFacts sealer mint other labels b message = .ok b₂) :
    ∃ e₂, ParkedRows folder uids b₂.writing.tables.emails e₂ ∧
      writeFacts sealer mint other labels (b.on e) message = .ok (b₂.on e₂) := by
  obtain ⟨facts, n⟩ := message
  simp only [writeFacts] at hw ⊢
  change ∃ e₂, _ ∧ (if holds (b.writing.on e).tables other facts.uid = true then _ else _) = _
  rw [holds_on h hother]
  split at hw
  · rename_i hheld
    obtain rfl := Except.ok.inj hw
    exact ⟨e, h, if_pos hheld⟩
  · rename_i hnew
    rw [if_neg hnew]
    cases hgmail : facts.gmail with
    | some gmail =>
      rw [hgmail] at hw
      simp only [Except.bind_eq_ok, pure, Except.pure, Except.ok.injEq] at hw ⊢
      obtain ⟨⟨written, wrote⟩, hwrite, rfl⟩ := hw
      obtain ⟨e₂, h₂, hon⟩ := write_on h hother hwrite
      refine ⟨e₂, ?_, _, hon, ?_⟩
      · cases wrote <;> exact h₂
      · cases wrote <;> rfl
    | none =>
      rw [hgmail] at hw
      have hwait : (b.on e).waiting = b.waiting := rfl
      rw [hwait]
      dsimp only at hw ⊢
      cases hmatched : (popWaiting b.waiting
          (ownHash sealer facts.personal, facts.receivedAt, facts.size)).1 with
      | none =>
        rw [hmatched] at hw
        simp only [Except.bind_eq_ok, pure, Except.pure, Except.ok.injEq] at hw ⊢
        obtain ⟨sealed, hsealed, t, hinsert, rfl⟩ := hw
        obtain ⟨e₁, h₁, hjoin⟩ := join_on h (namedHashes sealer facts.personal) (mint n).threadId
        obtain ⟨e₂, h₂, hon⟩ := insert_on h₁ hother hinsert
        refine ⟨e₂, h₂, sealed, hsealed, { t with emails := e₂ }, ?_, ?_⟩
        · change insert (join (b.writing.on e) _ _).1.tables _ _ _ _ _ (join (b.writing.on e) _ _).2 = _
          rw [hjoin]
          exact hon
        · change (⟨⟨_, (join (b.writing.on e) _ _).1.ledger.note _ _⟩, _⟩ : Batching) = _
          rw [hjoin]
          rfl
      | some id =>
        rw [hmatched] at hw
        simp only [Except.bind_eq_ok, pure, Except.pure, Except.ok.injEq] at hw ⊢
        obtain ⟨sealed, hsealed, t, hrewrite, rfl⟩ := hw
        obtain ⟨v, hv, hvid⟩ := (popWaiting_spec b.waiting _).2 id hmatched
        obtain ⟨e₂, h₂, hon⟩ :=
          rewrite_on h (fun r hr hid => hwaiting v hv r hr (hid.trans hvid.symm)) hrewrite
        exact ⟨e₂, h₂, sealed, hsealed, _, hon, rfl⟩

/-! ## Where the rows of a batch lie -/

/-- A write of one message of `other`: a row after it lies where the row of its id lay, or it took the
UID of the message, in its folder or in the one it lay in. -/
def Lands (other : MailboxId) (uid : Nat) (t t' : Tables) : Prop :=
  ∀ r' ∈ t'.emails,
    (∃ r ∈ t.emails, r.id = r'.id ∧ r.folderId = r'.folderId ∧ r.uid = r'.uid) ∨
      (r'.uid = uid ∧
        (r'.folderId = other ∨ ∃ r ∈ t.emails, r.id = r'.id ∧ r.folderId = r'.folderId))

section

variable {t t' : Tables} {other : MailboxId} {uid : Nat}

theorem Lands.of_emails (h : t'.emails = t.emails) : Lands other uid t t' :=
  fun r hr => .inl ⟨r, h ▸ hr, rfl, rfl, rfl⟩

/-- No row of another folder gets there but from there. -/
theorem Lands.stays (h : Lands other uid t t') {r' : EmailRecord} (hr' : r' ∈ t'.emails)
    (hne : r'.folderId ≠ other) : ∃ r ∈ t.emails, r.id = r'.id ∧ r.folderId = r'.folderId := by
  rcases h r' hr' with ⟨r, hr, hid, hfolder, -⟩ | ⟨-, hfolder | hold⟩
  · exact ⟨r, hr, hid, hfolder⟩
  · exact absurd hfolder hne
  · exact hold

/-- No other UID of the folder is taken. -/
theorem Lands.free (h : Lands other uid t t') {uid' : Nat} (hne : uid' ≠ uid)
    (hfree : holds t other uid' = false) : holds t' other uid' = false := by
  by_contra hheld
  rw [Bool.not_eq_false] at hheld
  obtain ⟨r', hr'⟩ := Option.isSome_iff_exists.1 hheld
  obtain ⟨hr', hfolder, huid⟩ := Table.mem_of_find? hr'
  rcases h r' hr' with ⟨r, hr, -, hfolder', huid'⟩ | ⟨huid', -⟩
  · have hnone := Table.find?_eq_none.1 (Option.isNone_iff_eq_none.1 (by simpa [holds] using hfree))
    exact hnone r hr ⟨hfolder'.trans hfolder, huid'.trans huid⟩
  · omega

end

theorem lands_place {a : Arrival} {sealer : Sealer} {id : EmailId} {kind : ChangeKind}
    {previous : Option ThreadId} (hp : a.place sealer w id kind previous = .ok w₂) :
    Lands a.folder a.facts.uid w.tables w₂.tables := by
  simp only [Arrival.place, Except.bind_eq_ok, pure, Except.pure, Except.ok.injEq] at hp
  obtain ⟨sealed, -, t, ht, rfl⟩ := hp
  have hclaimed : (if kind = .created ∨ previous.isSome then claim w a.gmail.thread
      else w).tables.emails = w.tables.emails := by
    split <;> rfl
  have hplaced : ∀ s ∈ t.emails, s ∈ w.tables.emails ∨
      (s.uid = (a.facts.uid : Int) ∧ s.folderId = a.folder) := by
    intro s hs
    obtain ⟨msgid, hups, -⟩ := upsertEmail_spec ht
    rcases (hups.rows s).1 hs with ⟨hs, -⟩ | rfl
    · exact .inl (hclaimed ▸ hs)
    · exact .inr ⟨rfl, rfl⟩
  intro r' hr'
  have hr' : r' ∈ t.emails := by
    cases previous with
    | none => exact hr'
    | some previous =>
      have hleft := left_emails ⟨t, (if kind = .created ∨ (some previous).isSome then
        claim w a.gmail.thread else w).ledger⟩ previous
      exact hleft ▸ hr'
  rcases hplaced r' hr' with hr | ⟨huid, hfolder⟩
  · exact .inl ⟨r', hr, rfl, rfl, rfl⟩
  · exact .inr ⟨huid, .inl hfolder⟩

/-- **One message of a batch** lands in its folder. -/
theorem lands_writeFacts {b b₂ : Batching} {sealer : Sealer} {mint : Nat → Minted}
    {other : MailboxId} {labels : Labels} {message : EmailFacts × Nat}
    (hw : writeFacts sealer mint other labels b message = .ok b₂) :
    Lands other message.1.uid b.writing.tables b₂.writing.tables ∧ b₂.waiting ⊆ b.waiting := by
  obtain ⟨facts, n⟩ := message
  simp only [writeFacts] at hw
  split at hw
  · obtain rfl := Except.ok.inj hw
    exact ⟨.of_emails rfl, List.Subset.refl _⟩
  cases hgmail : facts.gmail with
  | some gmail =>
    rw [hgmail] at hw
    simp only [Except.bind_eq_ok, pure, Except.pure, Except.ok.injEq] at hw
    obtain ⟨⟨written, wrote⟩, hwrite, rfl⟩ := hw
    have hlands : Lands other facts.uid b.writing.tables written.tables := by
      rw [Arrival.write] at hwrite
      split at hwrite
      · split at hwrite
        · simp only [pure, Except.pure, Except.ok.injEq, Prod.mk.injEq] at hwrite
          obtain ⟨rfl, -⟩ := hwrite
          exact .of_emails rfl
        · simp only [Except.bind_eq_ok, pure, Except.pure, Except.ok.injEq, Prod.mk.injEq] at hwrite
          obtain ⟨placed, hplace, rfl, -⟩ := hwrite
          exact lands_place hplace
      · simp only [Except.bind_eq_ok, pure, Except.pure, Except.ok.injEq, Prod.mk.injEq] at hwrite
        obtain ⟨placed, hplace, rfl, -⟩ := hwrite
        exact lands_place hplace
    refine ⟨?_, List.Subset.refl _⟩
    cases wrote <;> exact hlands
  | none =>
    rw [hgmail] at hw
    dsimp only at hw
    have hsub := (popWaiting_spec b.waiting
      (ownHash sealer facts.personal, facts.receivedAt, facts.size)).1
    split at hw
    · simp only [Except.bind_eq_ok, pure, Except.pure, Except.ok.injEq] at hw
      obtain ⟨sealed, -, t, hi, rfl⟩ := hw
      refine ⟨fun r' hr' => ?_, hsub⟩
      obtain ⟨rethread, hthreads, hjoined⟩ :=
        join_rows b.writing (namedHashes sealer facts.personal) (mint n).threadId
      rcases ((insert_spec hi).1 r').1 hr' with hr | rfl
      · rw [Table.mem_def, hjoined] at hr
        obtain ⟨r, hold, rfl⟩ := List.mem_map.1 hr
        obtain ⟨thread, hthread⟩ := hthreads r
        rw [hthread]
        exact .inl ⟨r, hold, rfl, rfl, rfl⟩
      · exact .inr ⟨rfl, .inl rfl⟩
    · simp only [Except.bind_eq_ok, pure, Except.pure, Except.ok.injEq] at hw
      obtain ⟨sealed, -, t, hr, rfl⟩ := hw
      refine ⟨fun r' hr' => ?_, hsub⟩
      simp only [rewrite, Except.bind_eq_ok, constrained_eq_ok, pure, Except.pure,
        Except.ok.injEq] at hr
      obtain ⟨rows, hrows, rfl⟩ := hr
      obtain ⟨r, hr, rfl⟩ := (Table.mem_update? hrows).1 hr'
      unfold EmailRecord.matched
      split
      · exact .inr ⟨rfl, .inr ⟨r, hr, rfl, rfl⟩⟩
      · exact .inl ⟨r, hr, rfl, rfl, rfl⟩

/-- So no row of the folder comes to wait in the loop. -/
theorem Elsewhere.writeFacts {b b₂ : Batching} (h : Elsewhere folder b) {sealer : Sealer}
    {mint : Nat → Minted} {other : MailboxId} (hother : other ≠ folder) {labels : Labels}
    {message : EmailFacts × Nat} (hw : writeFacts sealer mint other labels b message = .ok b₂) :
    Elsewhere folder b₂ := by
  obtain ⟨hlands, hsub⟩ := lands_writeFacts hw
  intro v hv r' hr' hid hfolder
  obtain ⟨r, hr, hid', hfolder'⟩ := hlands.stays hr' (hfolder.trans_ne hother.symm)
  exact h v (hsub hv) r hr (hid'.trans hid) (hfolder'.trans hfolder)

/-- **The loop of a batch** of another folder, on the parked rows as on the rows. -/
theorem loop_on {b₂ : Batching} {sealer : Sealer} {mint : Nat → Minted}
    {other : MailboxId} (hother : other ≠ folder) {labels : Labels}
    {messages : List (EmailFacts × Nat)} :
    ∀ {b : Batching} {e : Table EmailRecord.Apart}, ParkedRows folder uids b.writing.tables.emails e →
      Elsewhere folder b →
      messages.foldlM (writeFacts sealer mint other labels) b = .ok b₂ →
      ∃ e₂, ParkedRows folder uids b₂.writing.tables.emails e₂ ∧
        messages.foldlM (writeFacts sealer mint other labels) (b.on e) = .ok (b₂.on e₂) := by
  induction messages with
  | nil =>
    intro b e h _ hloop
    obtain rfl : b = b₂ := by simpa [pure, Except.pure] using hloop
    exact ⟨e, h, rfl⟩
  | cons message messages ih =>
    intro b e h helsewhere hloop
    rw [List.foldlM_cons, Except.bind_eq_ok] at hloop
    obtain ⟨b₁, hone, hrest⟩ := hloop
    obtain ⟨e₁, h₁, hon⟩ := writeFacts_on h helsewhere hother hone
    obtain ⟨e₂, h₂, hloop⟩ := ih h₁ (helsewhere.writeFacts hother hone) hrest
    refine ⟨e₂, h₂, ?_⟩
    rw [List.foldlM_cons, hon]
    exact hloop

/-! ## The end of a batch -/

section

variable {t : Tables}

/-- The rows of another folder that wait are the same. -/
theorem unmatched_on (h : ParkedRows folder uids t.emails e) {other : MailboxId}
    (hother : other ≠ folder) : unmatched { t with emails := e } other = unmatched t other := by
  have hfilter := h.filter (p := fun r => r.folderId = other ∧ r.uid < 0)
    fun r => decide_eq_decide.2 (parks_elsewhere (p := fun r => r.uid < 0) hother r)
  rw [unmatched, unmatched]
  change (e.rows.filter _).map _ = _
  rw [hfilter, List.map_map]
  refine List.map_congr_left fun r hr => ?_
  have hr' : r.folderId = other ∧ r.uid < 0 := by simpa using (List.mem_filter.1 hr).2
  rw [Function.comp_apply, EmailRecord.parks_of_ne (hr'.1 ▸ hother)]

theorem save_on (other : MailboxId) (advance : Advance) :
    save { t with emails := e } other advance =
      ({ (save t other advance).1 with emails := e }, (save t other advance).2) := by
  cases advance <;> rfl

theorem log_on {s : Nat} {x : Slot} {k : ChangeKind} {t' : Tables} (hl : log t s x k = .ok t') :
    log { t with emails := e } s x k = .ok { t' with emails := e } := by
  simp only [log, Except.bind_eq_ok, constrained_eq_ok, pure, Except.pure, Except.ok.injEq] at hl ⊢
  obtain ⟨changes, hi, rfl⟩ := hl
  exact ⟨changes, hi, rfl⟩

theorem ledgerWrite_on {ledger : Ledger} {s : Nat} {t' : Tables} (hl : ledger.write t s = .ok t') :
    ledger.write { t with emails := e } s = .ok { t' with emails := e } := by
  unfold Ledger.write at hl ⊢
  generalize ledger.rows = entries at hl ⊢
  induction entries generalizing t with
  | nil =>
    obtain rfl : t = t' := by simpa [pure, Except.pure] using hl
    rfl
  | cons entry entries ih =>
    rw [List.foldlM_cons, Except.bind_eq_ok] at hl
    obtain ⟨t₁, hone, hrest⟩ := hl
    rw [List.foldlM_cons, log_on hone]
    exact ih hrest

theorem logEach_on (s : Nat) (kind : Slot → ChangeKind)
    (onConflict : ChangeKind → ChangeKind → ChangeKind) (xs : List Slot) :
    logEach { t with emails := e } s kind onConflict xs =
      { logEach t s kind onConflict xs with emails := e } := by
  unfold logEach
  induction xs generalizing t with
  | nil => rfl
  | cons x xs ih =>
    rw [List.foldl_cons, List.foldl_cons]
    exact ih (t := logOver t s x _ _)

/-- **What waits in another folder leaves** alike. -/
theorem leave_on (h : ParkedRows folder uids t.emails e) {other : MailboxId} (hother : other ≠ folder)
    (s : Nat) :
    ∃ e₂, ParkedRows folder uids (leave t other s .unmatched).emails e₂ ∧
      leave { t with emails := e } other s .unmatched =
        { leave t other s .unmatched with emails := e₂ } := by
  have hleaves : ∀ r, Leaves other .unmatched (r.parks folder uids) ↔ Leaves other .unmatched r :=
    fun r => parks_elsewhere (p := fun r => r.uid < Leaving.below .unmatched) hother r
  have hmember : ∀ id, (∃ r ∈ e.rows, Leaves other .unmatched r ∧ r.id = id) ↔
      ∃ r ∈ t.emails.rows, Leaves other .unmatched r ∧ r.id = id := fun id =>
    h.exists fun r => by rw [hleaves, EmailRecord.parks_id]
  have hfilter := h.filter (p := fun r => Leaves other .unmatched r)
    fun r => decide_eq_decide.2 (hleaves r)
  have hmailboxes : leavingMailboxes { t with emails := e } other .unmatched =
      leavingMailboxes t other .unmatched := by
    have hsame : ∀ id, (∃ r ∈ e.rows, r.id = id ∧ Leaves other .unmatched r) ↔
        ∃ r ∈ t.emails.rows, r.id = id ∧ Leaves other .unmatched r := fun id =>
      h.exists fun r => by rw [hleaves, EmailRecord.parks_id]
    simp only [leavingMailboxes, hsame]
  have hthreads : leavingThreads { t with emails := e } other .unmatched =
      leavingThreads t other .unmatched := by
    rw [leavingThreads, leavingThreads]
    change ((e.rows.filter _).map _).dedup = _
    rw [hfilter, List.map_map]
    congr 2
    funext r
    simp
  have hemails : leavingEmails { t with emails := e } other .unmatched =
      leavingEmails t other .unmatched := by
    rw [leavingEmails, leavingEmails]
    change (e.rows.filter _).map _ = _
    rw [hfilter, List.map_map]
    congr 1
    funext r
    simp
  have hkind : leavingThreadKind { t with emails := e } other .unmatched =
      leavingThreadKind t other .unmatched := by
    funext x
    have hsame : (∃ o ∈ e.rows, o.threadId = x.2 ∧ ¬ Leaves other .unmatched o) ↔
        ∃ o ∈ t.emails.rows, o.threadId = x.2 ∧ ¬ Leaves other .unmatched o :=
      h.exists fun r => by rw [hleaves, EmailRecord.parks_threadId]
    simp only [leavingThreadKind, hsame]
  refine ⟨e.delete (Leaves other .unmatched), ?_, ?_⟩
  · change (e.rows.filter _) = (t.emails.rows.filter _).map _
    exact h.filter fun r => by simp [hleaves]
  · simp only [leave, hmailboxes, hthreads, hemails, hkind, logEach_on, hmember]

end

/-- **A batch of another folder** does the same on the parked rows, and leaves them parked. -/
theorem writeBatch_parked {t t' : Tables} (h : ParkedRows folder uids t.emails e) {sealer : Sealer}
    {mint : Nat → Minted} {batch : Batch} (hother : batch.folder ≠ folder) {state : Option Nat}
    (hw : writeBatch sealer mint t batch = .ok (t', state)) :
    ∃ e', ParkedRows folder uids t'.emails e' ∧
      writeBatch sealer mint { t with emails := e } batch = .ok ({ t' with emails := e' }, state) := by
  have hpinned : pinned { t with emails := e } ⟨batch.folder, batch.uidValidity⟩ =
      ({ (pinned t ⟨batch.folder, batch.uidValidity⟩).1 with emails := e },
        (pinned t ⟨batch.folder, batch.uidValidity⟩).2) := by
    unfold pinned
    dsimp only
    split
    · rfl
    · split <;> rfl
  have hparked : ParkedRows folder uids (pinned t ⟨batch.folder, batch.uidValidity⟩).1.emails e := by
    rw [pinned_emails]
    exact h
  unfold writeBatch at hw ⊢
  rw [hpinned]
  revert hparked hw
  generalize pinned t ⟨batch.folder, batch.uidValidity⟩ = checked
  obtain ⟨t₀, stands⟩ := checked
  intro hw hparked
  dsimp only at hparked hw ⊢
  split at hw
  · rename_i hgone
    simp only [pure, Except.pure, Except.ok.injEq, Prod.mk.injEq] at hw
    obtain ⟨rfl, rfl⟩ := hw
    exact ⟨e, hparked, if_pos hgone⟩
  · rename_i hstands
    rw [if_neg hstands]
    rw [Except.bind_eq_ok] at hw
    obtain ⟨b, hloop, hw⟩ := hw
    have hstart : Elsewhere folder ⟨⟨t₀, Table.empty⟩, unmatched t₀ batch.folder⟩ := by
      intro v hv r hr hid
      obtain ⟨s, hs, rfl⟩ := List.mem_map.1 hv
      obtain ⟨hs, hwaits⟩ := List.mem_filter.1 hs
      obtain rfl := EmailRecord.eq_of_id hr hs hid
      have hfolder : r.folderId = batch.folder ∧ r.uid < 0 := by simpa using hwaits
      exact hfolder.1.trans_ne hother
    obtain ⟨e₁, h₁, hon⟩ := loop_on hother hparked hstart hloop
    have hlabels : Labels.read { t₀ with emails := e } batch.folder =
        Labels.read t₀ batch.folder := rfl
    have hdo : ∀ rest : Batching → Except StoreError (Tables × Option Nat),
        (Except.ok (b.on e₁) >>= rest) = rest (b.on e₁) := fun _ => rfl
    have hstarted : (⟨⟨{ t₀ with emails := e }, Table.empty⟩, unmatched t₀ batch.folder⟩ : Batching) =
        Batching.on ⟨⟨t₀, Table.empty⟩, unmatched t₀ batch.folder⟩ e := rfl
    rw [hlabels, unmatched_on hparked hother, hstarted, hon, hdo]
    have hrows := save_emails b.writing.tables batch.folder batch.advance
    have hsaved := save_on (e := e₁) (t := b.writing.tables) batch.folder batch.advance
    revert hw hrows hsaved
    generalize save b.writing.tables batch.folder batch.advance = saved
    obtain ⟨t₁, finished⟩ := saved
    intro hw hrows hsaved
    dsimp only [Batching.on, Writing.on] at hw hrows hsaved ⊢
    simp only [hsaved]
    rw [← hrows] at h₁
    split at hw
    · rename_i hquiet
      simp only [pure, Except.pure, Except.ok.injEq, Prod.mk.injEq] at hw
      obtain ⟨rfl, rfl⟩ := hw
      exact ⟨e₁, h₁, if_pos hquiet⟩
    · rename_i hnoted
      simp only [Except.bind_eq_ok, pure, Except.pure, Except.ok.injEq, Prod.mk.injEq] at hw
      obtain ⟨t₂, hledger, t₃, hlog, rfl, rfl⟩ := hw
      have hledger' := ledgerWrite_on (e := e₁) hledger
      have hwritten : t₂.emails = t₁.emails := by
        rw [(Ledger.logsUnder_write hledger).frame]
        rfl
      rw [← hwritten] at h₁
      obtain ⟨e₂, h₂, hleft⟩ : ∃ e₂,
          ParkedRows folder uids
            (if finished then leave t₂ batch.folder (nextSequence t₁).2 .unmatched else t₂).emails e₂ ∧
          (if finished then leave { t₂ with emails := e₁ } batch.folder (nextSequence t₁).2 .unmatched
            else { t₂ with emails := e₁ }) =
            { (if finished then leave t₂ batch.folder (nextSequence t₁).2 .unmatched else t₂) with
              emails := e₂ } := by
        cases finished with
        | false => exact ⟨e₁, h₁, rfl⟩
        | true => exact leave_on h₁ hother _
      have hlog' := log_on (e := e₂) hlog
      refine ⟨e₂, ?_, ?_⟩
      · have hlogged : (prune t₃).emails = (if finished then
            leave t₂ batch.folder (nextSequence t₁).2 .unmatched else t₂).emails := by
          simp only [log, Except.bind_eq_ok, constrained_eq_ok, pure, Except.pure,
            Except.ok.injEq] at hlog
          obtain ⟨changes, -, rfl⟩ := hlog
          rfl
        rw [hlogged]
        exact h₂
      · rw [if_neg hnoted, Except.bind_eq_ok]
        refine ⟨_, hledger', ?_⟩
        have hnext : (nextSequence { t₁ with emails := e₁ }).2 = (nextSequence t₁).2 := rfl
        rw [hnext, hleft, Except.bind_eq_ok]
        exact ⟨_, hlog', rfl⟩

end

/-! ## A park as one statement -/

section

variable {t t' : Tables} {folder : MailboxId} {uids : List Nat} {e e' : Table EmailRecord.Apart}

theorem ParkedRows.eq {e'' : Table EmailRecord.Apart} (h : ParkedRows folder uids e e')
    (h' : ParkedRows folder uids e e'') : e' = e'' := by
  cases e'
  cases e''
  obtain rfl : _ = _ := h.trans h'.symm
  rfl

theorem EmailRecord.parks_pos {r : EmailRecord} (h : r.folderId = folder ∧ ∃ uid ∈ uids, r.uid = uid) :
    r.parks folder uids = { r with uid := -r.uid } := if_pos h

theorem EmailRecord.parks_neg {r : EmailRecord}
    (h : ¬(r.folderId = folder ∧ ∃ uid ∈ uids, r.uid = uid)) : r.parks folder uids = r := if_neg h

/-- One UID is parked as a list of it. -/
theorem EmailRecord.park_eq_parks (folder : MailboxId) (uid : Nat) (r : EmailRecord) :
    r.park folder uid = r.parks folder [uid] := by
  simp [park, parks]

/-- Some UIDs parked after others. -/
theorem EmailRecord.parks_parks (folder : MailboxId) (uids uids' : List Nat) (r : EmailRecord) :
    (r.parks folder uids).parks folder uids' = r.parks folder (uids ++ uids') := by
  by_cases h : r.folderId = folder ∧ ∃ uid ∈ uids, r.uid = uid
  · obtain ⟨hfolder, uid, huid, heq⟩ := h
    rw [parks_pos ⟨hfolder, uid, huid, heq⟩,
      parks_pos ⟨hfolder, uid, List.mem_append_left _ huid, heq⟩]
    -- A parked row is under no UID, but for the one that is its own negative.
    by_cases hagain : ∃ uid' ∈ uids', -r.uid = (uid' : Int)
    · obtain ⟨uid', huid', heq'⟩ := hagain
      have hzero : -r.uid = r.uid := by omega
      have hparked : ({ r with uid := -r.uid } : EmailRecord) = r := by rw [hzero]
      rw [hparked, parks_pos ⟨hfolder, uid', huid', by omega⟩]
      exact hparked
    · exact parks_neg fun h => hagain h.2
  · rw [parks_neg h]
    by_cases h' : r.folderId = folder ∧ ∃ uid ∈ uids', r.uid = uid
    · obtain ⟨hfolder, uid, huid, heq⟩ := h'
      rw [parks_pos ⟨hfolder, uid, huid, heq⟩,
        parks_pos ⟨hfolder, uid, List.mem_append_right _ huid, heq⟩]
    · rw [parks_neg h', parks_neg]
      rintro ⟨hfolder, uid, huid, heq⟩
      rcases List.mem_append.1 huid with huid | huid
      · exact h ⟨hfolder, uid, huid, heq⟩
      · exact h' ⟨hfolder, uid, huid, heq⟩

theorem EmailRecord.parks_uid (r : EmailRecord) : (r.parks folder uids).uid =
    if r.folderId = folder ∧ ∃ uid ∈ uids, r.uid = uid then -r.uid else r.uid := by
  unfold parks
  split <;> rfl

/-- A row that waits is not under the UID another row was parked from. -/
theorem parks_collide {a b : EmailRecord} {uids' : List Nat} (hne : a.uid ≠ b.uid)
    (ha : a.folderId = folder ∧ ∃ uid ∈ uids, a.uid = uid) (heq : -a.uid = b.uid) :
    (a.parks folder (uids ++ uids')).uid = (b.parks folder (uids ++ uids')).uid := by
  obtain ⟨hfolder, uid, huid, hat⟩ := ha
  have hb : ¬(b.folderId = folder ∧ ∃ uid ∈ uids ++ uids', b.uid = (uid : Int)) := by
    rintro ⟨-, uid', -, hbt⟩
    omega
  rw [EmailRecord.parks_pos ⟨hfolder, uid, List.mem_append_left _ huid, hat⟩,
    EmailRecord.parks_neg hb]
  exact heq

/-- Rows that stand apart before and after a park stand apart on the way. -/
theorem apart_parks_of_append {a b : EmailRecord} {uids' : List Nat} (h : a.Apart b)
    (hparked : (a.parks folder (uids ++ uids')).Apart (b.parks folder (uids ++ uids'))) :
    (a.parks folder uids).Apart (b.parks folder uids) := by
  obtain ⟨hid, huid, hmsgid⟩ := h
  obtain ⟨-, huid', -⟩ := hparked
  refine ⟨by simpa using hid, ?_, by simpa using hmsgid⟩
  simp only [EmailRecord.parks_folderId] at huid' ⊢
  rintro ⟨hfolder, heq⟩
  have hne : a.uid ≠ b.uid := fun h => huid ⟨hfolder, h⟩
  refine huid' ⟨hfolder, ?_⟩
  rw [EmailRecord.parks_uid, EmailRecord.parks_uid] at heq
  split at heq
  · rename_i ha
    split at heq
    · omega
    · exact parks_collide hne ha heq
  · split at heq
    · rename_i hb
      exact (parks_collide hne.symm hb heq.symm).symm
    · exact absurd heq hne

/-- The statements of a park, one UID after the other. -/
theorem foldlM_park {stored : Tables} :
    ∀ {t : Tables}, uids.foldlM (fun t uid => do
        let emails ← constrained (t.emails.update? (EmailRecord.park folder uid))
        pure { t with emails }) t = .ok stored ↔
      ∃ e', ParkedRows folder uids t.emails e' ∧ stored = { t with emails := e' } := by
  induction uids with
  | nil =>
    intro t
    have hid : EmailRecord.parks folder [] = id := funext fun r => EmailRecord.parks_neg (by simp)
    simp only [List.foldlM_nil, pure, Except.pure, Except.ok.injEq, ParkedRows, hid, List.map_id]
    constructor
    · rintro rfl
      exact ⟨t.emails, rfl, rfl⟩
    · rintro ⟨e', hrows, rfl⟩
      obtain ⟨rows, happ⟩ := e'
      obtain rfl : rows = t.emails.rows := hrows
      rfl
  | cons uid uids ih =>
    intro t
    have hcomp : EmailRecord.parks folder (uid :: uids) =
        EmailRecord.parks folder uids ∘ EmailRecord.park folder uid := by
      funext r
      rw [Function.comp_apply, EmailRecord.park_eq_parks, EmailRecord.parks_parks]
      rfl
    simp only [List.foldlM_cons, Except.bind_eq_ok, constrained_eq_ok, pure, Except.pure,
      Except.ok.injEq]
    constructor
    · rintro ⟨_, ⟨e₁, hone, rfl⟩, hrest⟩
      obtain ⟨e', hparked, rfl⟩ := ih.1 hrest
      refine ⟨e', ?_, rfl⟩
      unfold Table.update? at hone
      split at hone
      · obtain rfl := Option.some.inj hone
        rw [ParkedRows, hparked, hcomp, ← List.map_map]
      · cases hone
    · rintro ⟨e', hparked, rfl⟩
      have happ : (t.emails.rows.map (EmailRecord.park folder uid)).Pairwise EmailRecord.Apart := by
        have hafter := e'.apart
        rw [hparked, List.pairwise_map] at hafter
        rw [List.pairwise_map]
        refine (t.emails.apart.and hafter).imp fun {a b} hab => ?_
        rw [EmailRecord.park_eq_parks, EmailRecord.park_eq_parks]
        exact apart_parks_of_append hab.1 hab.2
      refine ⟨_, ⟨⟨_, happ⟩, dif_pos happ, rfl⟩, ih.2 ⟨e', ?_, rfl⟩⟩
      rw [ParkedRows, hparked, hcomp, ← List.map_map]

/-- **A park of a folder that stands** is one statement on all its rows, and goes through where the
rows it leaves stand apart. -/
theorem parkUids_eq_ok {standing : Standing} (hstands : pinned t standing = (t, true)) :
    parkUids t standing uids = .ok (t', some ()) ↔
      ∃ e', ParkedRows standing.folder uids t.emails e' ∧ t' = { t with emails := e' } := by
  rw [← foldlM_park]
  unfold parkUids
  rw [hstands]
  simp only [Bool.not_true, Bool.false_eq_true, if_false, Except.bind_eq_ok, pure, Except.pure,
    Except.ok.injEq, Prod.mk.injEq, and_true]
  exact exists_eq_right

end

end Huliho
