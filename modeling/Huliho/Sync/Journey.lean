import Huliho.Sync.Record

/-!
# No message is passed over

`Journey` is a walk with what it did so far: the UIDs it listed in the order it goes through them,
what became of each one it passed, and the slices whose fetch failed. `Journey.Going` is what every
turn keeps — passed and still to go make up the list, in order, and the recorded progress lies
between the two — and `Reached.going` the induction over every sequence of turns, extensions,
failures and reopenings.
-/

namespace Huliho.Sync

/-! ## The order of the walk -/

namespace FolderSync

/-- The UIDs of a slice in the order of the walk. -/
def ordered (s : FolderSync) (uids : List Nat) : List Nat :=
  if s.downward then uids.reverse else uids

/-- The slices that were fetched before and are fetched again, the next one last. -/
def retry (s : FolderSync) : List Slice := s.narrowed ++ s.pending.toList

/-- Every UID no write passed yet, in the order of the walk. -/
def toGo (s : FolderSync) : List Nat :=
  (s.retry.reverse.flatMap fun slice => s.ordered slice.uids) ++ s.remaining.reverse

theorem mem_ordered {s : FolderSync} {uids : List Nat} {u : Nat} :
    u ∈ s.ordered uids ↔ u ∈ uids := by
  unfold ordered
  split <;> simp

theorem mem_toGo {s : FolderSync} {u : Nat} :
    u ∈ s.toGo ↔ (∃ slice ∈ s.retry, u ∈ slice.uids) ∨ u ∈ s.remaining := by
  simp [toGo, mem_ordered]

/-- What a slice is taken from: everything but the slices and the UIDs stays. -/
structure SameWalk (s s' : FolderSync) : Prop where
  walk : s'.walk = s.walk
  folder : s'.folder = s.folder
  top : s'.top = s.top

theorem SameWalk.downward {s s' : FolderSync} (h : SameWalk s s') : s'.downward = s.downward := by
  rw [FolderSync.downward, h.walk]
  rfl

theorem SameWalk.ordered {s s' : FolderSync} (h : SameWalk s s') (uids : List Nat) :
    s'.ordered uids = s.ordered uids := by
  rw [FolderSync.ordered, h.downward]
  rfl

theorem SameWalk.trans {s s' s'' : FolderSync} (h : SameWalk s s') (h' : SameWalk s' s'') :
    SameWalk s s'' :=
  ⟨h'.walk.trans h.walk, h'.folder.trans h.folder, h'.top.trans h.top⟩

/-- **The next slice is the front of what is still to go.** -/
theorem nextSlice_some {s s' : FolderSync} {slice : Slice}
    (h : s.nextSlice = (some slice, s')) :
    s.toGo = s.ordered slice.uids ++ s'.toGo ∧ s'.pending = none ∧ SameWalk s s' ∧
      (slice ∈ s.retry ∨ (slice.withStructure = true ∧ slice.uids ≠ [] ∧ s.retry = [])) ∧
      (∀ other ∈ s'.retry, other ∈ s.retry) := by
  unfold nextSlice at h
  cases hp : s.pending with
  | some pending =>
    rw [hp] at h
    simp only [Prod.mk.injEq, Option.some.injEq] at h
    obtain ⟨rfl, rfl, rfl⟩ := h
    refine ⟨?_, rfl, ⟨rfl, rfl, rfl⟩, .inl ?_, fun other ho => ?_⟩
    · change s.toGo = s.ordered pending.uids ++ ((s.narrowed ++ []).reverse.flatMap
        (fun slice : Slice => s.ordered slice.uids) ++ s.remaining.reverse)
      simp [toGo, retry, hp]
    · simp [retry, hp]
    · simp only [retry, Option.toList_none, List.append_nil] at ho
      exact List.mem_append_left _ ho
  | none =>
    rw [hp] at h
    simp only at h
    cases hn : s.narrowed.getLast? with
    | some last =>
      rw [hn] at h
      simp only [Prod.mk.injEq, Option.some.injEq] at h
      obtain ⟨rfl, rfl, rfl⟩ := h
      obtain ⟨front, hfront⟩ := List.getLast?_eq_some_iff.1 hn
      refine ⟨?_, rfl, ⟨rfl, rfl, rfl⟩, .inl ?_, fun other ho => ?_⟩
      · change s.toGo = s.ordered last.uids ++ ((s.narrowed.dropLast ++ []).reverse.flatMap
          (fun slice : Slice => s.ordered slice.uids) ++ s.remaining.reverse)
        simp [toGo, retry, hp, hfront]
      · simp [retry, hp, hfront]
      · simp only [retry, hp, hfront, List.dropLast_concat, Option.toList_none,
          List.append_nil] at ho ⊢
        exact List.mem_append_left _ ho
    | none =>
      rw [hn] at h
      simp only at h
      split at h
      · cases h
      rename_i hr
      have hrest : s.remaining.length - SYNC_BATCH < s.remaining.length := by
        have hlen : 0 < s.remaining.length := List.length_pos_iff.2 hr
        have hb : 0 < SYNC_BATCH := by decide
        omega
      revert h hrest
      generalize s.remaining.length - SYNC_BATCH = rest
      intro h hrest
      simp only [Prod.mk.injEq, Option.some.injEq] at h
      obtain ⟨rfl, rfl, rfl⟩ := h
      have hnil : s.narrowed = [] := by simpa using hn
      have hsplit : s.remaining.reverse =
          (s.remaining.drop rest).reverse ++ (s.remaining.take rest).reverse := by
        rw [← List.reverse_append, List.take_append_drop]
      refine ⟨?_, rfl, ⟨rfl, rfl, rfl⟩, .inr ⟨rfl, ?_, by simp [retry, hp, hnil]⟩, fun other ho => ?_⟩
      · change s.toGo = s.ordered _ ++ ((s.narrowed ++ []).reverse.flatMap
          (fun slice : Slice => s.ordered slice.uids) ++ (s.remaining.take rest).reverse)
        simp only [toGo, retry, hp, hnil, Option.toList_none, List.append_nil, List.reverse_nil,
          List.flatMap_nil, List.nil_append]
        rw [hsplit, ordered]
        cases s.downward <;> simp
      · have hdrop : s.remaining.drop rest ≠ [] := by
          rw [ne_eq, List.drop_eq_nil_iff]
          omega
        show (if _ then _ else _) ≠ []
        split
        · exact hdrop
        · simpa using hdrop
      · simp [retry, hnil] at ho

theorem nextSlice_none {s s' : FolderSync} (h : s.nextSlice = (none, s')) :
    s.toGo = [] ∧ s' = s := by
  unfold nextSlice at h
  cases hp : s.pending with
  | some pending => simp [hp] at h
  | none =>
    cases hn : s.narrowed.getLast? with
    | some last => simp [hp, hn] at h
    | none =>
      rw [hp, hn] at h
      simp only at h
      split at h
      · rename_i hr
        have hnil : s.narrowed = [] := by simpa using hn
        exact ⟨by simp [toGo, retry, hp, hnil, hr], (Prod.mk.inj h).2.symm⟩
      · cases h

/-- **What a slice narrows to**: the same UIDs at the front again, or one message less, which was
fetched alone and without its structure. -/
theorem narrow_none {s s' : FolderSync} {slice : Slice} (hp : s.pending = none)
    (h : s.narrow slice = (none, s')) (hne : slice.uids ≠ []) :
    s'.toGo = s.ordered slice.uids ++ s.toGo ∧ SameWalk s s' ∧
      ∀ other ∈ s'.retry, other ∈ s.retry ∨ other = slice ∨
        (other.uids ≠ [] ∧ (other.withStructure = slice.withStructure ∧ slice.uids.length > 1 ∨
          (slice.withStructure = true ∧ slice.uids.length ≤ 1 ∧ other.uids = slice.uids))) := by
  unfold narrow at h
  split at h
  · obtain ⟨-, rfl⟩ := Prod.mk.inj h
    refine ⟨?_, ⟨rfl, rfl, rfl⟩, fun other ho => ?_⟩
    · change (s.narrowed ++ [slice] ++ s.pending.toList).reverse.flatMap
        (fun slice : Slice => s.ordered slice.uids) ++ s.remaining.reverse = _
      simp [toGo, retry, hp]
    · simp only [retry, hp, Option.toList_none, List.append_nil, List.mem_append,
        List.mem_singleton] at ho ⊢
      exact ho.imp_right .inl
  · rename_i budget _
    split at h
    · rename_i hlong
      obtain ⟨-, rfl⟩ := Prod.mk.inj h
      have hhalf : slice.uids.take (slice.uids.length / 2) ≠ [] ∧
          slice.uids.drop (slice.uids.length / 2) ≠ [] := by
        constructor
        · rw [ne_eq, List.take_eq_nil_iff, not_or]
          exact ⟨by omega, hne⟩
        · rw [ne_eq, List.drop_eq_nil_iff]
          omega
      have hwhole : slice.uids = slice.uids.take (slice.uids.length / 2) ++
          slice.uids.drop (slice.uids.length / 2) := (List.take_append_drop _ _).symm
      refine ⟨?_, ⟨rfl, rfl, rfl⟩, fun other ho => ?_⟩
      · have hd : ({ s with budget := budget } : FolderSync).downward = s.downward := rfl
        rw [hd]
        change (s.narrowed ++ _ ++ s.pending.toList).reverse.flatMap
          (fun slice : Slice => s.ordered slice.uids) ++ s.remaining.reverse = _
        cases hs : s.downward with
        | true =>
          have hrev : slice.uids.reverse = (slice.uids.drop (slice.uids.length / 2)).reverse ++
              (slice.uids.take (slice.uids.length / 2)).reverse := by
            rw [← List.reverse_append, ← hwhole]
          simp [toGo, retry, hp, ordered, hs, hrev]
        | false =>
          simp only [toGo, retry, hp, ordered, hs, Bool.false_eq_true, if_false,
            Option.toList_none, List.append_nil, List.reverse_append, List.reverse_cons,
            List.reverse_nil, List.nil_append, List.flatMap_append, List.flatMap_cons,
            List.flatMap_nil, List.append_assoc]
          rw [← List.append_assoc (slice.uids.take _), ← hwhole]
      · simp only [retry, hp, Option.toList_none, List.append_nil, List.mem_append] at ho ⊢
        refine ho.imp_right fun ho => .inr ?_
        split at ho <;>
        · simp only [List.mem_cons, List.not_mem_nil, or_false] at ho
          rcases ho with rfl | rfl
          · first | exact ⟨hhalf.1, .inl ⟨rfl, hlong⟩⟩ | exact ⟨hhalf.2, .inl ⟨rfl, hlong⟩⟩
          · first | exact ⟨hhalf.1, .inl ⟨rfl, hlong⟩⟩ | exact ⟨hhalf.2, .inl ⟨rfl, hlong⟩⟩
    · rename_i hlone
      split at h
      · rename_i hwith
        obtain ⟨-, rfl⟩ := Prod.mk.inj h
        refine ⟨?_, ⟨rfl, rfl, rfl⟩, fun other ho => ?_⟩
        · change (s.narrowed ++ [_] ++ s.pending.toList).reverse.flatMap
            (fun slice : Slice => s.ordered slice.uids) ++ s.remaining.reverse = _
          simp [toGo, retry, hp]
        · simp only [retry, hp, Option.toList_none, List.append_nil, List.mem_append,
            List.mem_singleton] at ho ⊢
          refine ho.imp_right fun ho => .inr ?_
          subst ho
          exact ⟨hne, .inr ⟨hwith, by omega, rfl⟩⟩
      · obtain ⟨hhead, -⟩ := Prod.mk.inj h
        exact absurd (List.head?_eq_none_iff.1 hhead) hne

theorem narrow_some {s s' : FolderSync} {slice : Slice} {uid : Nat}
    (h : s.narrow slice = (some uid, s')) :
    slice = ⟨[uid], false⟩ ∧ s'.toGo = s.toGo ∧ SameWalk s s' ∧ s'.retry = s.retry ∧
      s'.pending = s.pending := by
  unfold narrow at h
  split at h
  · cases h
  split at h
  · cases h
  rename_i hlone
  split at h
  · cases h
  rename_i hwith
  obtain ⟨hhead, rfl⟩ := Prod.mk.inj h
  obtain ⟨uids, withStructure⟩ := slice
  refine ⟨?_, rfl, ⟨rfl, rfl, rfl⟩, rfl, rfl⟩
  cases uids with
  | nil => cases hhead
  | cons a rest =>
    simp only [List.head?_cons, Option.some.injEq] at hhead
    simp only [List.length_cons] at hlone
    have hrest : rest = [] := List.length_eq_zero_iff.1 (by omega)
    simp only [Bool.not_eq_true] at hwith
    rw [hhead, hrest, hwith]

end FolderSync

/-! ## A walk and what it did -/

/-- What became of a UID the walk passed. -/
inductive Verdict
  | written
  | leftOut
deriving DecidableEq, Repr

/-- Which way a walk goes, without what it read at its opening. -/
inductive Way
  | down
  | up
  | beside
deriving DecidableEq, Repr

def Walk.way : Walk → Way
  | .down _ => .down
  | .up => .up
  | .beside => .beside

/-- A walk with what it did. `line` holds every UID it listed, in the order it goes through them;
`passed` those a turn answered for; `failed` the slices whose fetch failed on what the server sent.
The sync is gone once a caller dropped it. -/
structure Journey where
  sync : Option FolderSync
  store : Store
  folder : MailboxId
  way : Way
  line : List Nat
  passed : List (Nat × Verdict)
  failed : List Slice

/-- A step with the folder still there. -/
def Goes : Except Failure Step → Bool
  | .ok .more => true
  | .ok .done => true
  | _ => false

/-- The caller drops a sync whose folder is stale or whose write failed. -/
def Ends : Except Failure Step → Bool
  | .ok .stale => true
  | .error (.store _) => true
  | _ => false

/-- The UIDs a turn answers for: those of a slice the server answered and the store wrote, and the
one a narrowing leaves out. -/
def FolderSync.passes (env : Env) (store : Store) (s : FolderSync) (answer : Answer) :
    List (Nat × Verdict) :=
  match s.nextSlice with
  | (none, _) => []
  | (some slice, rest) =>
    match answer with
    | .fetched _ =>
      if Goes (s.batch env store answer).2.2 then
        (s.ordered slice.uids).map fun u => (u, .written)
      else []
    | .protocol => (rest.narrow slice).1.toList.map fun u => (u, .leftOut)
    | _ => []

/-- The slice a turn saw fail on what the server sent. -/
def FolderSync.fails (s : FolderSync) : Answer → List Slice
  | .protocol => s.nextSlice.1.toList
  | _ => []

namespace Journey

/-- What is still to go. -/
def ahead (j : Journey) : List Nat := j.line.drop j.passed.length

/-- One turn of the walk. -/
def turn (j : Journey) (env : Env) (answer : Answer) : Journey :=
  match j.sync with
  | none => j
  | some s =>
    let out := s.batch env j.store answer
    { j with
      sync := if Ends out.2.2 then none else some out.1
      store := out.2.1
      passed := j.passed ++ s.passes env j.store answer
      failed := j.failed ++ s.fails answer }

/-- A walk upward takes in the mail that arrived above it; a gap too wide ends it. -/
def extend (j : Journey) (through : Nat) : Journey :=
  match j.sync with
  | none => j
  | some s =>
    { j with
      sync := s.extendTo through
      line := j.line ++
        if s.walk ≠ .up ∨ through ≤ s.top then [] else FolderSync.span (s.top + 1) through }

/-- A walk opened again behind the recorded progress: what it passed is kept, the rest is listed
anew. -/
def reopen (j : Journey) (s : FolderSync) (kept : Nat → Bool) : Journey :=
  { j with
    sync := some s
    line := j.line.filter kept ++ s.remaining.reverse
    passed := j.passed.filter fun p => kept p.1 }

/-- Where a UID of the list stands. -/
inductive Standing
  | written
  | leftOut
  | retry
  | waiting

/-- `u` stands there: written, left out, in a slice that is fetched again or not reached yet. -/
def At (j : Journey) : Standing → Nat → Prop
  | .written, u => (u, .written) ∈ j.passed
  | .leftOut, u => (u, .leftOut) ∈ j.passed
  | .retry, u => ∃ s ∈ j.sync, ∃ slice ∈ s.retry, u ∈ slice.uids
  | .waiting, u =>
    match j.sync with
    | some s => u ∈ s.remaining
    | none => u ∈ j.line ∧ u ∉ j.passed.map Prod.fst

end Journey

/-- The journeys of a folder: a walk is opened, takes turns with any answers, is widened, dropped
and opened again, while other writes leave its progress on record alone. -/
inductive Reached : Journey → Prop
  | openDown {store : Store} {row : MailboxRow} {gmail : Bool}
      {selected : Option FolderSync.Selected} {uids : List Nat} {s : FolderSync}
      (hl : uids.Pairwise (· > ·))
      (h : FolderSync.openDown store.tables row gmail selected uids = some s) :
      Reached ⟨some s, store, row.id, .down, s.remaining.reverse, [], []⟩
  | openUp {store : Store} {row : MailboxRow} {low through : Nat} {gmail : Bool}
      {uids : List Nat} {s : FolderSync} (hl : uids.Pairwise (· > ·))
      (hlow : ∀ r ∈ store.tables.sync, r.folderId = row.id → ∀ n, r.uidNext = some n → n ≤ low)
      (h : FolderSync.above row low through gmail uids = some s) :
      Reached ⟨some s, store, row.id, .up, s.remaining.reverse, [], []⟩
  | openBeside {store : Store} {row : MailboxRow} {low through : Nat} {gmail : Bool}
      {uids : List Nat} {s : FolderSync} (hl : uids.Pairwise (· > ·))
      (h : FolderSync.above row low through gmail uids = some s) :
      Reached ⟨some s.asBeside, store, row.id, .beside, s.remaining.reverse, [], []⟩
  | turn {j : Journey} (h : Reached j) (env : Env) (answer : Answer) : Reached (j.turn env answer)
  | extend {j : Journey} (h : Reached j) (through : Nat) : Reached (j.extend through)
  | dropped {j : Journey} (h : Reached j) : Reached { j with sync := none }
  | other {j : Journey} (h : Reached j) {store : Store} (hs : ∀ r : SyncRecord,
      r.folderId = j.folder → (r ∈ store.tables.sync ↔ r ∈ j.store.tables.sync)) :
      Reached { j with store }
  | reopenDown {j : Journey} (h : Reached j) (hw : j.way = .down) {row : MailboxRow}
      (hrow : row.id = j.folder) {gmail : Bool} {selected : Option FolderSync.Selected}
      {uids : List Nat} {s : FolderSync} {lowest : Nat} (hl : uids.Pairwise (· > ·))
      (hp : (syncProgress j.store.tables row.id).lowestSyncedUid = some lowest)
      (ho : FolderSync.openDown j.store.tables row gmail selected uids = some s) :
      Reached (j.reopen s fun u => lowest ≤ u)
  | reopenUp {j : Journey} (h : Reached j) (hw : j.way = .up) {row : MailboxRow}
      (hrow : row.id = j.folder) {through : Nat} {gmail : Bool} {uids : List Nat}
      {s : FolderSync} {uidNext : Nat} (hl : uids.Pairwise (· > ·))
      (hp : (syncProgress j.store.tables row.id).uidNext = some uidNext)
      (ho : FolderSync.above row uidNext through gmail uids = some s) :
      Reached (j.reopen s fun u => u < uidNext)

/-! ## What every turn keeps -/

/-- The record lies behind what is still to go. -/
def Way.Behind (way : Way) (ahead : List Nat) (r : SyncRecord) : Prop :=
  match way with
  | .down => (∀ l, r.lowestSyncedUid = some l → ∀ u ∈ ahead, u < l) ∧ (r.done = true → ahead = [])
  | .up => ∀ n, r.uidNext = some n → ∀ u ∈ ahead, n ≤ u
  | .beside => True

/-- The order of the walk. -/
def Way.Before (way : Way) (a b : Nat) : Prop :=
  match way with
  | .down => b < a
  | _ => a < b

/-- A walk upward covers all that is on record. -/
def FolderSync.Covers (s : FolderSync) (store : Store) : Prop :=
  s.walk = .up → ∀ r ∈ store.tables.sync, r.folderId = s.folder →
    ∀ n, r.uidNext = some n → n ≤ s.top + 1

/-- The sync in hand: what it has to go, and what it knows of the slices it fetches again. -/
structure Journey.Holds (j : Journey) (s : FolderSync) : Prop where
  toGo : s.toGo = j.ahead
  way : s.walk.way = j.way
  folder : s.folder = j.folder
  slices : ∀ slice ∈ s.retry, slice.uids ≠ []
  lone : ∀ slice ∈ s.retry, slice.withStructure = false →
    ∃ u, slice.uids = [u] ∧ ⟨[u], true⟩ ∈ j.failed
  top : s.walk = .up → ∀ u ∈ j.line, u ≤ s.top
  covers : s.Covers j.store

/-- **Passed and ahead are the list, in order**, and the record lies between them. -/
structure Journey.Going (j : Journey) : Prop where
  line : j.line = j.passed.map Prod.fst ++ j.ahead
  sorted : j.line.Pairwise j.way.Before
  holds : ∀ s ∈ j.sync, j.Holds s
  leftOut : ∀ u, (u, .leftOut) ∈ j.passed → ⟨[u], true⟩ ∈ j.failed ∧ ⟨[u], false⟩ ∈ j.failed
  behind : ∀ r ∈ j.store.tables.sync, r.folderId = j.folder → j.way.Behind j.ahead r

/-! ## What a write does to the record -/

namespace FolderSync

variable {env : Env} {store : Store} {messages : List FetchedMessage}
  {passed : Option (Nat × Nat)}

/-- A write with no step to answer leaves the record. -/
theorem write_stays {s : FolderSync} (h : ¬ Goes ((s.write env store messages passed).2.mapError
    .store)) : (s.write env store messages passed).1.tables.sync = store.tables.sync := by
  unfold write at h ⊢
  cases ha : s.advance messages.length passed with
  | none => rfl
  | some advance =>
    rw [ha] at h
    simp only at h ⊢
    rcases applyBatch_sync env store ⟨s.folder, s.uidValidity,
      messages.filterMap FetchedMessage.email, advance⟩ with ⟨hsync, -⟩ | ⟨⟨n, hn⟩, -⟩
    · exact hsync
    · refine absurd ?_ h
      rw [hn]
      simp only [Except.map, reduceCtorEq, if_false, Except.mapError]
      split <;> rfl

/-- What the row of the folder says after a write. -/
theorem write_record {s : FolderSync} {r : SyncRecord}
    (hr : r ∈ (s.write env store messages passed).1.tables.sync) (hf : r.folderId = s.folder) :
    r ∈ store.tables.sync ∨
      (s.walk.way = .down ∧ r.done = s.finished ∧ (r.lowestSyncedUid = passed.map Prod.fst ∨
        ∃ r₀ ∈ store.tables.sync, r₀.folderId = s.folder ∧
          r.lowestSyncedUid = r₀.lowestSyncedUid)) ∨
      (s.walk.way = .up ∧ ∃ range ∈ passed, ∃ r₀ ∈ store.tables.sync, r₀.folderId = s.folder ∧
        ∃ n ≤ range.2 + 1, r.uidNext = some (max (r₀.uidNext.getD 0) n)) := by
  unfold write at hr
  cases ha : s.advance messages.length passed with
  | none =>
    rw [ha] at hr
    exact .inl hr
  | some advance =>
    rw [ha] at hr
    simp only at hr
    rcases applyBatch_sync env store ⟨s.folder, s.uidValidity,
      messages.filterMap FetchedMessage.email, advance⟩ with ⟨hsync, -⟩ | ⟨-, t₀, ht₀, hsync⟩
    · rw [hsync] at hr
      exact .inl hr
    rw [hsync] at hr
    unfold FolderSync.advance at ha
    split at ha
    · rename_i synced _ hwalk
      obtain rfl := Option.some.inj ha
      obtain ⟨hdone, hlow⟩ := save_down hr hf
      refine .inr (.inl ⟨by rw [hwalk]; rfl, hdone, hlow.imp id ?_⟩)
      rintro ⟨-, r₀, hr₀, hrest⟩
      exact ⟨r₀, ht₀ ▸ hr₀, hrest⟩
    · rename_i range hwalk
      obtain rfl := Option.some.inj ha
      obtain ⟨r₀, hr₀, hf₀, hnext⟩ := save_up hr hf
      exact .inr (.inr ⟨by rw [hwalk]; rfl, range, rfl, r₀, ht₀ ▸ hr₀, hf₀, _,
        Nat.min_le_left _ _, hnext⟩)
    · obtain rfl := Option.some.inj ha
      rw [save_beside, ht₀] at hr
      exact .inl hr
    · cases ha

theorem range_mem {slice : Slice} {range : Nat × Nat} (h : slice.range = some range) :
    range.1 ∈ slice.uids ∧ range.2 ∈ slice.uids := by
  unfold Slice.range at h
  split at h
  · rename_i hhead hlast
    obtain rfl := Option.some.inj h
    exact ⟨List.mem_of_head? hhead, List.mem_of_getLast? hlast⟩
  · cases h

theorem range_none {slice : Slice} (h : slice.range = none) : slice.uids = [] := by
  unfold Slice.range at h
  cases hu : slice.uids with
  | nil => rfl
  | cons u rest => simp [hu, List.getLast?_cons] at h

end FolderSync

theorem Way.Behind.shorter {way : Way} {gone rest : List Nat} {r : SyncRecord}
    (h : way.Behind (gone ++ rest) r) : way.Behind rest r := by
  cases way with
  | down =>
    exact ⟨fun l hl u hu => h.1 l hl u (List.mem_append_right _ hu),
      fun hd => (List.append_eq_nil_iff.1 (h.2 hd)).2⟩
  | up => exact fun n hn u hu => h n hn u (List.mem_append_right _ hu)
  | beside => trivial

/-- **A write that passes `gone`** leaves the record behind the rest. -/
theorem FolderSync.write_behind {env : Env} {store : Store} {s : FolderSync}
    {messages : List FetchedMessage} {range : Nat × Nat} {g rest : List Nat}
    (hsorted : (g ++ rest).Pairwise s.walk.way.Before) (hlow : range.1 ∈ g)
    (hhigh : range.2 ∈ g) (hfin : s.finished = true → rest = [])
    (h : ∀ r ∈ store.tables.sync, r.folderId = s.folder → s.walk.way.Behind (g ++ rest) r) :
    ∀ r ∈ (s.write env store messages (some range)).1.tables.sync, r.folderId = s.folder →
      s.walk.way.Behind rest r := by
  intro r hr hf
  have hafter := (List.pairwise_append.1 hsorted).2.2
  rcases write_record hr hf with hold | ⟨hway, hdone, hlowest⟩ |
    ⟨hway, range', hrange, r₀, hr₀, hf₀, n, hn, hnext⟩
  · exact (h r hold hf).shorter
  · rw [hway] at hafter h ⊢
    refine ⟨fun l hl u hu => ?_, fun hd => hfin (hdone ▸ hd)⟩
    rcases hlowest with hlowest | ⟨r₀, hr₀, hf₀, hlowest⟩
    · rw [hlowest] at hl
      obtain rfl := Option.some.inj hl
      exact hafter _ hlow u hu
    · rw [hlowest] at hl
      exact (h r₀ hr₀ hf₀).1 l hl u (List.mem_append_right _ hu)
  · obtain rfl := Option.some.inj (Option.mem_def.1 hrange)
    rw [hway] at hafter h ⊢
    intro m hm u hu
    rw [hnext] at hm
    obtain rfl := Option.some.inj hm
    have hgt : range.2 < u := hafter _ hhigh u hu
    refine Nat.max_le.2 ⟨?_, by omega⟩
    cases hold : r₀.uidNext with
    | none => exact Nat.zero_le _
    | some m => exact h r₀ hr₀ hf₀ m hold u (List.mem_append_right _ hu)

/-- What a walk upward writes stays below its top. -/
theorem FolderSync.write_covers {env : Env} {store : Store} {s : FolderSync}
    {messages : List FetchedMessage} {passed : Option (Nat × Nat)} (h : s.Covers store)
    (hpassed : s.walk = .up → ∀ range ∈ passed, range.2 ≤ s.top) :
    s.Covers (s.write env store messages passed).1 := by
  intro hw r hr hf n hn
  rcases write_record hr hf with hold | ⟨hway, -⟩ | ⟨-, range, hrange, r₀, hr₀, hf₀, m, hm, hnext⟩
  · exact h hw r hold hf n hn
  · rw [hw] at hway
    cases hway
  · have htop := hpassed hw range hrange
    have hold : r₀.uidNext.getD 0 ≤ s.top + 1 := by
      cases hu : r₀.uidNext with
      | none => exact Nat.zero_le _
      | some k => exact h hw r₀ hr₀ hf₀ k hu
    rw [hn] at hnext
    obtain rfl := Option.some.inj hnext
    omega

theorem FolderSync.SameWalk.covers {s s' : FolderSync} {store : Store} (h : SameWalk s s')
    (hc : s.Covers store) : s'.Covers store := by
  intro hw r hr hf
  rw [h.top]
  exact hc (h.walk ▸ hw) r hr (hf.trans h.folder)

/-! ## One turn -/

theorem Journey.ahead_of {j : Journey} {line : List Nat} {more : List (Nat × Verdict)}
    {rest : List Nat} (hl : j.line = j.passed.map Prod.fst ++ j.ahead)
    (ha : j.ahead = more.map Prod.fst ++ rest) (hline : line = j.line) :
    line.drop (j.passed ++ more).length = rest ∧
      line = (j.passed ++ more).map Prod.fst ++ line.drop (j.passed ++ more).length := by
  have hwhole : line = (j.passed ++ more).map Prod.fst ++ rest := by
    rw [hline, hl, ha, List.map_append, List.append_assoc]
  have hdrop : line.drop (j.passed ++ more).length = rest := by
    rw [hwhole]
    exact List.drop_left' (by simp)
  exact ⟨hdrop, by rw [hdrop]; exact hwhole⟩

/-- A turn in one form: `more` passed, `rest` still to go. -/
theorem Journey.Going.step {j : Journey} (h : j.Going) {sync : Option FolderSync} {store : Store}
    {more : List (Nat × Verdict)} {fails : List Slice} {l : List Nat}
    (ha : j.ahead = more.map Prod.fst ++ l)
    (hsync : ∀ s' ∈ sync, s'.toGo = l ∧ (∃ s ∈ j.sync, FolderSync.SameWalk s s') ∧
      s'.Covers store ∧ ∀ slice ∈ s'.retry, slice.uids ≠ [] ∧ (slice.withStructure = false →
        ∃ u, slice.uids = [u] ∧ ⟨[u], true⟩ ∈ j.failed ++ fails))
    (hmore : ∀ u, (u, .leftOut) ∈ more →
      ⟨[u], true⟩ ∈ j.failed ++ fails ∧ ⟨[u], false⟩ ∈ j.failed ++ fails)
    (hbehind : ∀ r ∈ store.tables.sync, r.folderId = j.folder → j.way.Behind l r) :
    Journey.Going { j with sync, store, passed := j.passed ++ more, failed := j.failed ++ fails } := by
  obtain ⟨hrest, hline⟩ := Journey.ahead_of h.line ha rfl
  refine ⟨hline, h.sorted, fun s' hs' => ?_, fun u hu => ?_, fun r hr hf => ?_⟩
  · obtain ⟨hgo, ⟨s, hs, hsame⟩, hcovers, hslices⟩ := hsync s' hs'
    have hold := h.holds s hs
    refine ⟨hgo.trans hrest.symm, by rw [hsame.walk]; exact hold.way,
      hsame.folder.trans hold.folder, fun slice hm => (hslices slice hm).1,
      fun slice hm => (hslices slice hm).2, fun hw u hu => ?_, hcovers⟩
    rw [hsame.top]
    exact hold.top (hsame.walk ▸ hw) u hu
  · rcases List.mem_append.1 hu with hu | hu
    · obtain ⟨hwith, hwithout⟩ := h.leftOut u hu
      exact ⟨List.mem_append_left _ hwith, List.mem_append_left _ hwithout⟩
    · exact hmore u hu
  · show j.way.Behind (j.line.drop (j.passed ++ more).length) r
    rw [hrest]
    exact hbehind r hr hf

/-- The slices in hand stay as good when more failures are known. -/
theorem Journey.Holds.retried {j : Journey} {s : FolderSync} (h : j.Holds s) (fails : List Slice)
    {slice : Slice} (hm : slice ∈ s.retry) : slice.uids ≠ [] ∧ (slice.withStructure = false →
      ∃ u, slice.uids = [u] ∧ ⟨[u], true⟩ ∈ j.failed ++ fails) := by
  refine ⟨h.slices slice hm, fun hw => ?_⟩
  obtain ⟨u, hu, hf⟩ := h.lone slice hm hw
  exact ⟨u, hu, List.mem_append_left _ hf⟩

/-- What the next slice is known to be. -/
theorem Journey.Holds.next {j : Journey} {s rest : FolderSync} {slice : Slice} (h : j.Holds s)
    (hn : s.nextSlice = (some slice, rest)) : slice.uids ≠ [] ∧ (slice.withStructure = false →
      ∃ u, slice.uids = [u] ∧ ⟨[u], true⟩ ∈ j.failed) := by
  obtain ⟨-, -, -, hslice, -⟩ := FolderSync.nextSlice_some hn
  rcases hslice with hm | ⟨hwith, hne, -⟩
  · exact ⟨h.slices slice hm, h.lone slice hm⟩
  · exact ⟨hne, fun hw => by rw [hwith] at hw; cases hw⟩

theorem FolderSync.finished_iff {s : FolderSync} (hp : s.pending = none) (h : s.finished = true) :
    s.toGo = [] := by
  unfold finished at h
  rw [Bool.and_eq_true, List.isEmpty_iff, List.isEmpty_iff] at h
  simp [toGo, retry, hp, h.1, h.2]

theorem Journey.Going.aheadSorted {j : Journey} (h : j.Going) :
    j.ahead.Pairwise j.way.Before := by
  have := h.sorted
  rw [h.line] at this
  exact (List.pairwise_append.1 this).2.1

theorem ends_of_not_goes {r : Except StoreError Step} (h : ¬ Goes (r.mapError .store)) :
    Ends (r.mapError .store) := by
  rcases r with e | ⟨_ | _ | _⟩
  · rfl
  · exact absurd rfl h
  · exact absurd rfl h
  · rfl

/-- **One turn.** -/
theorem Journey.Going.turn {j : Journey} (h : j.Going) (env : Env) (answer : Answer) :
    (j.turn env answer).Going := by
  unfold Journey.turn
  cases hs : j.sync with
  | none => exact h
  | some s =>
    have hold := h.holds s hs
    simp only
    cases hn : s.nextSlice with
    | mk next rest =>
    cases next with
    | none =>
      -- Nothing is left to fetch: at most the end of a first sync is recorded.
      obtain ⟨hgo, hrest⟩ := FolderSync.nextSlice_none hn
      rw [hrest] at hn
      have hempty : j.ahead = [] := by rw [← hold.toGo]; exact hgo
      have hpasses : s.passes env j.store answer = [] := by simp [FolderSync.passes, hn]
      rw [hpasses]
      refine h.step (l := []) (by simp [hempty]) (fun s' hs' => ?_) (by simp) fun r _ _ => ?_
      · have hsame : s' = s := by
          revert hs'
          split
          · exact fun h => absurd h (by simp)
          · intro h
            obtain rfl := Option.some.inj h
            simp [FolderSync.batch, hn]
        subst hsame
        refine ⟨hgo, ⟨s', hs, ⟨rfl, rfl, rfl⟩⟩, ?_, fun slice hm => hold.retried _ hm⟩
        simp only [FolderSync.batch, hn]
        exact FolderSync.write_covers hold.covers fun _ range hc => by cases hc
      · cases j.way with
        | down => exact ⟨fun _ _ u hu => absurd hu List.not_mem_nil, fun _ => rfl⟩
        | up => exact fun _ _ u hu => absurd hu List.not_mem_nil
        | beside => trivial
    | some slice =>
      obtain ⟨hgo, hpending, hsame, -, hkept⟩ := FolderSync.nextSlice_some hn
      obtain ⟨hne, hlone⟩ := hold.next hn
      have hahead : j.ahead = s.ordered slice.uids ++ rest.toGo := by rw [← hold.toGo, hgo]
      have hretry : ∀ fails, ∀ other ∈ rest.retry, other.uids ≠ [] ∧
          (other.withStructure = false → ∃ u, other.uids = [u] ∧ ⟨[u], true⟩ ∈ j.failed ++ fails) :=
        fun fails other ho => hold.retried fails (hkept other ho)
      obtain ⟨range, hrange⟩ := Option.ne_none_iff_exists'.1 fun hc => hne (FolderSync.range_none hc)
      obtain ⟨hlow, hhigh⟩ := FolderSync.range_mem hrange
      have hstands : ∀ r ∈ j.store.tables.sync, r.folderId = j.folder →
          j.way.Behind j.ahead r := h.behind
      cases answer with
      | dropped =>
        have hbatch : s.batch env j.store .dropped =
            ({ rest with pending := some slice }, j.store, .error .cut) := by
          simp [FolderSync.batch, hn, hrange]
        have hpasses : s.passes env j.store .dropped = [] := by simp [FolderSync.passes, hn]
        rw [hbatch, hpasses]
        refine h.step (l := j.ahead) (by simp) (fun s' hs' => ?_) (by simp) hstands
        obtain rfl := Option.some.inj (Option.mem_def.1 hs')
        have hsame' : FolderSync.SameWalk s { rest with pending := some slice } :=
          ⟨hsame.walk, hsame.folder, hsame.top⟩
        refine ⟨?_, ⟨s, hs, hsame'⟩, hsame'.covers hold.covers, fun other ho => ?_⟩
        · change (rest.narrowed ++ [slice]).reverse.flatMap
            (fun slice : Slice => rest.ordered slice.uids) ++ rest.remaining.reverse = _
          rw [hahead, ← hsame.ordered]
          simp [FolderSync.toGo, FolderSync.retry, hpending]
        · simp only [FolderSync.retry, Option.toList_some, List.mem_append,
            List.mem_singleton] at ho
          rcases ho with ho | rfl
          · exact hretry _ other (by simp [FolderSync.retry, ho])
          · refine ⟨hne, fun hw => ?_⟩
            obtain ⟨u, hu, hf⟩ := hlone hw
            exact ⟨u, hu, List.mem_append_left _ hf⟩
      | other =>
        have hbatch : s.batch env j.store .other =
            ({ rest with narrowed := rest.narrowed ++ [slice] }, j.store, .error .session) := by
          simp [FolderSync.batch, hn, hrange]
        have hpasses : s.passes env j.store .other = [] := by simp [FolderSync.passes, hn]
        rw [hbatch, hpasses]
        refine h.step (l := j.ahead) (by simp) (fun s' hs' => ?_) (by simp) hstands
        obtain rfl := Option.some.inj (Option.mem_def.1 hs')
        have hsame' : FolderSync.SameWalk s { rest with narrowed := rest.narrowed ++ [slice] } :=
          ⟨hsame.walk, hsame.folder, hsame.top⟩
        refine ⟨?_, ⟨s, hs, hsame'⟩, hsame'.covers hold.covers, fun other ho => ?_⟩
        · change (rest.narrowed ++ [slice] ++ rest.pending.toList).reverse.flatMap
            (fun slice : Slice => rest.ordered slice.uids) ++ rest.remaining.reverse = _
          rw [hahead, ← hsame.ordered]
          simp [FolderSync.toGo, FolderSync.retry, hpending]
        · simp only [FolderSync.retry, hpending, Option.toList_none, List.append_nil,
            List.mem_append, List.mem_singleton] at ho
          rcases ho with ho | rfl
          · exact hretry _ other (by simp [FolderSync.retry, ho])
          · refine ⟨hne, fun hw => ?_⟩
            obtain ⟨u, hu, hf⟩ := hlone hw
            exact ⟨u, hu, List.mem_append_left _ hf⟩
      | fetched messages =>
        have hfetched : FolderSync.SameWalk s
            { rest with answered := min (rest.answered + messages.length) U32_MAX } :=
          ⟨hsame.walk, hsame.folder, hsame.top⟩
        have htoGo : ({ rest with answered := min (rest.answered + messages.length) U32_MAX } :
            FolderSync).toGo = rest.toGo := rfl
        have hslices : ({ rest with answered := min (rest.answered + messages.length) U32_MAX } :
            FolderSync).retry = rest.retry := rfl
        have hpending' : ({ rest with answered := min (rest.answered + messages.length) U32_MAX } :
            FolderSync).pending = none := hpending
        have hbatch : s.batch env j.store (.fetched messages) =
            let s' := { rest with answered := min (rest.answered + messages.length) U32_MAX }
            let written := s'.write env j.store messages (some range)
            (s', written.1, written.2.mapError .store) := by
          simp [FolderSync.batch, hn, hrange]
        have hpasses : s.passes env j.store (.fetched messages) =
            if Goes (s.batch env j.store (.fetched messages)).2.2 then
              (s.ordered slice.uids).map fun u => (u, .written) else [] := by
          simp [FolderSync.passes, hn]
        rw [hbatch] at hpasses
        rw [hbatch, hpasses]
        revert hfetched htoGo hslices hpending'
        generalize ({ rest with answered := min (rest.answered + messages.length) U32_MAX } :
          FolderSync) = s'
        intro hfetched htoGo hslices hpending'
        simp only
        have hcovers : s'.Covers (s'.write env j.store messages (some range)).1 :=
          FolderSync.write_covers (hfetched.covers hold.covers) fun hw r hr => by
            obtain rfl := Option.some.inj (Option.mem_def.1 hr)
            rw [hfetched.top]
            refine hold.top (hfetched.walk ▸ hw) _ (h.line ▸ List.mem_append_right _ ?_)
            rw [hahead]
            exact List.mem_append_left _ (FolderSync.mem_ordered.2 hhigh)
        by_cases hgoes : Goes ((s'.write env j.store messages (some range)).2.mapError .store)
        · rw [if_pos hgoes]
          refine h.step (l := rest.toGo) ?_ (fun s₁ hs₁ => ?_) (by simp) ?_
          · rw [hahead, List.map_map]
            simp [Function.comp_def]
          · obtain rfl : s' = s₁ := by
              revert hs₁
              split
              · exact fun h => absurd h (by simp)
              · exact fun h => Option.some.inj (Option.mem_def.1 h)
            exact ⟨htoGo, ⟨s, hs, hfetched⟩, hcovers, fun other ho => hretry _ other (hslices ▸ ho)⟩
          · have hway : s'.walk.way = j.way := by rw [hfetched.walk]; exact hold.way
            have hfolder : s'.folder = j.folder := hfetched.folder.trans hold.folder
            rw [← hway, ← hfolder]
            refine FolderSync.write_behind (g := s.ordered slice.uids) ?_
              (FolderSync.mem_ordered.2 hlow) (FolderSync.mem_ordered.2 hhigh) (fun hfin => ?_) ?_
            · rw [← hahead, hway]
              exact h.aheadSorted
            · rw [← htoGo]
              exact FolderSync.finished_iff hpending' hfin
            · rw [← hahead, hway, hfolder]
              exact hstands
        · rw [if_neg hgoes]
          refine h.step (l := j.ahead) (by simp) (fun s₁ hs₁ => ?_) (by simp) ?_
          · refine absurd hs₁ ?_
            rw [if_pos (ends_of_not_goes hgoes)]
            simp
          · rw [FolderSync.write_stays hgoes]
            exact hstands
      | protocol =>
        have hfails : s.fails .protocol = [slice] := by simp [FolderSync.fails, hn]
        have hpasses : s.passes env j.store .protocol =
            (rest.narrow slice).1.toList.map fun u => (u, .leftOut) := by
          simp [FolderSync.passes, hn]
        rw [hfails, hpasses]
        cases hnarrow : rest.narrow slice with
        | mk left s' =>
        cases left with
        | none =>
          have hbatch : s.batch env j.store .protocol = (s', j.store, .error .session) := by
            simp [FolderSync.batch, hn, hrange, hnarrow]
          rw [hbatch]
          obtain ⟨htoGo, hsame', hslices⟩ := FolderSync.narrow_none hpending hnarrow hne
          refine h.step (l := j.ahead) (by simp) (fun s₁ hs₁ => ?_) (by simp) hstands
          obtain rfl := Option.some.inj (Option.mem_def.1 hs₁)
          refine ⟨by rw [htoGo, hahead, hsame.ordered], ⟨s, hs, hsame.trans hsame'⟩,
            (hsame.trans hsame').covers hold.covers, fun other ho => ?_⟩
          rcases hslices other ho with ho | rfl | ⟨hother, ⟨hwith, hlong⟩ | ⟨hwith, hshort, huids⟩⟩
          · exact hretry _ other ho
          · refine ⟨hne, fun hw => ?_⟩
            obtain ⟨u, hu, hf⟩ := hlone hw
            exact ⟨u, hu, List.mem_append_left _ hf⟩
          · refine ⟨hother, fun hw => ?_⟩
            obtain ⟨u, hu, -⟩ := hlone (hwith ▸ hw)
            simp [hu] at hlong
          · refine ⟨hother, fun _ => ?_⟩
            obtain ⟨u, hu⟩ := List.length_eq_one_iff.1 (by
              have := List.length_pos_iff.2 hne
              omega : slice.uids.length = 1)
            refine ⟨u, by rw [huids, hu], List.mem_append_right _ (List.mem_singleton.2 ?_)⟩
            rw [← hu, ← hwith]
        | some uid =>
          obtain ⟨rfl, htoGo, hsame', hslices, hp'⟩ := FolderSync.narrow_some hnarrow
          have hbatch : s.batch env j.store .protocol =
              let written := s'.write env j.store [] (some (uid, uid))
              (s', written.1, .error (FolderSync.failed written.2)) := by
            simp only [FolderSync.batch, hn, hrange, hnarrow]
          rw [hbatch]
          simp only
          obtain ⟨u, hu, hwith⟩ := hlone rfl
          obtain rfl : uid = u := by simpa using hu
          have hone : j.ahead = [uid] ++ rest.toGo := by
            rw [hahead, FolderSync.ordered]
            split <;> rfl
          refine h.step (l := rest.toGo) (by simpa using hone) (fun s₁ hs₁ => ?_)
            (fun u hu => ?_) ?_
          · obtain rfl : s' = s₁ := by
              revert hs₁
              split
              · exact fun h => absurd h (by simp)
              · exact fun h => Option.some.inj (Option.mem_def.1 h)
            refine ⟨htoGo, ⟨s, hs, hsame.trans hsame'⟩, ?_,
              fun other ho => hretry _ other (hslices ▸ ho)⟩
            refine FolderSync.write_covers ((hsame.trans hsame').covers hold.covers) fun hw r hr => ?_
            obtain rfl := Option.some.inj (Option.mem_def.1 hr)
            rw [(hsame.trans hsame').top]
            refine hold.top ((hsame.trans hsame').walk ▸ hw) _ (h.line ▸ List.mem_append_right _ ?_)
            rw [hone]
            exact List.mem_append_left _ List.mem_cons_self
          · obtain rfl : u = uid := by simpa using hu
            exact ⟨List.mem_append_left _ hwith, List.mem_append_right _ (by simp)⟩
          · have hway : s'.walk.way = j.way := by
              rw [(hsame.trans hsame').walk]
              exact hold.way
            have hfolder : s'.folder = j.folder := (hsame.trans hsame').folder.trans hold.folder
            rw [← hway, ← hfolder]
            refine FolderSync.write_behind (g := [uid]) ?_ List.mem_cons_self
              List.mem_cons_self (fun hfin => ?_) ?_
            · rw [← hone, hway]
              exact h.aheadSorted
            · rw [← htoGo]
              exact FolderSync.finished_iff (hp'.trans hpending) hfin
            · rw [← hone, hway, hfolder]
              exact hstands

/-! ## Openings -/

/-- What an opening lists, and nothing else in hand. -/
structure FolderSync.Opened (s : FolderSync) (folder : MailboxId) (way : Way) : Prop where
  folder : s.folder = folder
  walks : s.walk.way = way
  retry : s.retry = []
  sorted : s.remaining.reverse.Pairwise way.Before
  top : s.walk = .up → ∀ u ∈ s.remaining, u ≤ s.top

theorem FolderSync.Opened.toGo {s : FolderSync} {folder : MailboxId} {way : Way}
    (h : s.Opened folder way) : s.toGo = s.remaining.reverse := by
  simp [FolderSync.toGo, h.retry]

theorem syncProgress_of_mem {t : Tables} {r : SyncRecord} (hr : r ∈ t.sync) :
    syncProgress t r.folderId = ⟨r.lowestSyncedUid, r.done, if r.done then r.uidNext else none⟩ := by
  have hone : ∀ s ∈ t.sync, s.folderId = r.folderId → s = r :=
    fun s hs hf => t.sync.unique hs hr fun hc => hc hf
  rw [syncProgress, Table.find?_eq_some (p := fun s => s.folderId = r.folderId) hr rfl hone]

/-- A first sync lists below the lowest UID on record and is not done. -/
theorem FolderSync.openDown_spec {t : Tables} {row : MailboxRow} {gmail : Bool}
    {selected : Option Selected} {uids : List Nat} {s : FolderSync}
    (hl : uids.Pairwise (· > ·)) (h : openDown t row gmail selected uids = some s) :
    s.Opened row.id .down ∧ (syncProgress t row.id).done = false ∧
      ∀ l, (syncProgress t row.id).lowestSyncedUid = some l → ∀ u ∈ s.remaining, u < l := by
  unfold openDown at h
  split at h
  · rename_i sync selected hsync
    simp only at h
    split at h
    · cases h
    rename_i hopen
    obtain rfl := Option.some.inj h
    simp only [Bool.or_eq_true, decide_eq_true_eq, not_or, Bool.not_eq_true] at hopen
    have hof : sync.folder = row.id ∧ sync.retry = [] := by
      unfold of at hsync
      split at hsync
      · obtain ⟨v, -, rfl⟩ := Option.map_eq_some_iff.1 hsync
        exact ⟨rfl, rfl⟩
      · cases hsync
    refine ⟨⟨hof.1, rfl, hof.2, ?_, fun hw => ?_⟩, hopen.1, fun l hlow u hu => ?_⟩
    · rw [List.reverse_reverse]
      split
      · exact hl.filter _
      · exact hl
    · cases hw
    · simp only [hlow, List.mem_reverse, List.mem_filter, decide_eq_true_eq] at hu
      exact hu.2
  · cases h

theorem mem_span {low high u : Nat} : u ∈ FolderSync.span low high ↔ low ≤ u ∧ u ≤ high := by
  unfold FolderSync.span
  rw [List.mem_range'_1]
  omega

theorem sorted_span (low high : Nat) : (FolderSync.span low high).Pairwise (· < ·) :=
  List.pairwise_lt_range'

/-- A walk upward lists from `low` on. -/
theorem FolderSync.above_spec {row : MailboxRow} {low through : Nat} {gmail : Bool}
    {uids : List Nat} {s : FolderSync} (hl : uids.Pairwise (· > ·))
    (h : above row low through gmail uids = some s) :
    s.Opened row.id .up ∧ low ≤ s.top ∧ ∀ u ∈ s.remaining, low ≤ u := by
  unfold above at h
  simp only at h
  split at h
  · rename_i sync hsync
    split at h
    · obtain rfl := Option.some.inj h
      have hof : sync.folder = row.id ∧ sync.retry = [] ∧ sync.walk = .up := by
        unfold of at hsync
        split at hsync
        · obtain ⟨v, -, rfl⟩ := Option.map_eq_some_iff.1 hsync
          exact ⟨rfl, rfl, rfl⟩
        · cases hsync
      have hrange : ∀ u ∈ (if through - max low 1 < REFRESH_GAP then
          (span (max low 1) through).reverse
          else uids.filter fun uid => max low 1 ≤ uid ∧ uid ≤ through), max low 1 ≤ u ∧ u ≤ through := by
        intro u hu
        split at hu
        · exact mem_span.1 (List.mem_reverse.1 hu)
        · exact of_decide_eq_true (List.mem_filter.1 hu).2
      refine ⟨⟨hof.1, by simp [hof.2.2, Walk.way], hof.2.1, ?_, fun _ u hu => (hrange u hu).2⟩,
        by show low ≤ through; omega, fun u hu => ?_⟩
      · simp only
        split
        · rw [List.reverse_reverse]
          exact sorted_span _ _
        · rw [List.pairwise_reverse]
          exact hl.filter _
      · have := (hrange u hu).1
        omega
    · cases h
  · cases h

/-- An opening is a journey of its own. -/
theorem FolderSync.Opened.going {s : FolderSync} {folder : MailboxId} {way : Way} {store : Store}
    (h : s.Opened folder way) (hb : ∀ r ∈ store.tables.sync, r.folderId = folder →
      way.Behind s.remaining.reverse r) (hc : s.Covers store) :
    Journey.Going ⟨some s, store, folder, way, s.remaining.reverse, [], []⟩ := by
  refine ⟨rfl, h.sorted, fun s' hs' => ?_, fun u hu => absurd hu List.not_mem_nil, hb⟩
  obtain rfl := Option.some.inj (Option.mem_def.1 hs')
  refine ⟨h.toGo, h.walks, h.folder, fun slice hm => ?_, fun slice hm => ?_,
    fun hw u hu => h.top hw u (List.mem_reverse.1 hu), hc⟩
  · simp [h.retry] at hm
  · simp [h.retry] at hm

/-- What is kept of a list, with a listing of what comes after it. -/
theorem Journey.Going.reopen {j : Journey} (h : j.Going) {s : FolderSync}
    (ho : s.Opened j.folder j.way) {kept : Nat → Bool} (hkept : ∀ u ∈ j.ahead, kept u = false)
    (hafter : ∀ u, kept u = true → ∀ v ∈ s.remaining, j.way.Before u v)
    (htop : s.walk = .up → ∀ u ∈ j.line, kept u = true → u ≤ s.top) (hc : s.Covers j.store)
    (hb : ∀ r ∈ j.store.tables.sync, r.folderId = j.folder →
      j.way.Behind s.remaining.reverse r) : (j.reopen s kept).Going := by
  have hmap : ∀ l : List (Nat × Verdict),
      (l.map Prod.fst).filter kept = (l.filter fun p => kept p.1).map Prod.fst := by
    intro l
    rw [List.filter_map]
    rfl
  have hline : j.line.filter kept = (j.passed.filter fun p => kept p.1).map Prod.fst := by
    have hnone : j.ahead.filter kept = [] := List.filter_eq_nil_iff.2 fun u hu => by
      rw [hkept u hu]
      exact Bool.false_ne_true
    rw [h.line, List.filter_append, hmap, hnone, List.append_nil]
  have hahead : (j.reopen s kept).ahead = s.remaining.reverse := by
    unfold Journey.ahead Journey.reopen
    simp only
    rw [hline]
    exact List.drop_left' (by simp)
  refine ⟨?_, ?_, fun s' hs' => ?_, fun u hu => ?_, fun r hr hf => ?_⟩
  · rw [hahead]
    unfold Journey.reopen
    rw [hline]
  · show (j.line.filter kept ++ s.remaining.reverse).Pairwise j.way.Before
    refine List.pairwise_append.2 ⟨h.sorted.filter _, ho.sorted, fun u hu v hv => ?_⟩
    exact hafter u (List.mem_filter.1 hu).2 v (List.mem_reverse.1 hv)
  · obtain rfl := Option.some.inj (Option.mem_def.1 hs')
    refine ⟨ho.toGo.trans hahead.symm, ho.walks, ho.folder, fun slice hm => ?_,
      fun slice hm => ?_, fun hw u hu => ?_, hc⟩
    · simp [ho.retry] at hm
    · simp [ho.retry] at hm
    · rcases List.mem_append.1 hu with hu | hu
      · obtain ⟨hu, hk⟩ := List.mem_filter.1 hu
        exact htop hw u hu hk
      · exact ho.top hw u (List.mem_reverse.1 hu)
  · exact h.leftOut u (List.mem_filter.1 hu).1
  · rw [hahead]
    exact hb r hr hf

/-! ## Every run -/

theorem recorded_of_progress {t : Tables} {folder : MailboxId} {lowest : Nat}
    (h : (syncProgress t folder).lowestSyncedUid = some lowest) :
    ∃ r ∈ t.sync, r.folderId = folder ∧ r.lowestSyncedUid = some lowest := by
  unfold syncProgress at h
  split at h
  · rename_i s hs
    obtain ⟨hm, hf⟩ := Table.mem_of_find? hs
    exact ⟨s, hm, hf, h⟩
  · cases h

theorem recorded_of_next {t : Tables} {folder : MailboxId} {n : Nat}
    (h : (syncProgress t folder).uidNext = some n) :
    ∃ r ∈ t.sync, r.folderId = folder ∧ r.uidNext = some n := by
  unfold syncProgress at h
  split at h
  · rename_i s hs
    obtain ⟨hm, hf⟩ := Table.mem_of_find? hs
    simp only at h
    split at h
    · exact ⟨s, hm, hf, h⟩
    · cases h
  · cases h

/-- A wider walk has the new UIDs behind all it had. -/
theorem Journey.Going.extend {j : Journey} (h : j.Going) (through : Nat) :
    (j.extend through).Going := by
  unfold Journey.extend
  cases hs : j.sync with
  | none => exact h
  | some s =>
    have hold := h.holds s hs
    simp only
    by_cases hstays : s.walk ≠ .up ∨ through ≤ s.top
    · rw [if_pos hstays, List.append_nil]
      refine ⟨h.line, h.sorted, fun s' hs' => ?_, h.leftOut, h.behind⟩
      obtain rfl : s = s' := by simpa [FolderSync.extendTo, hstays] using hs'
      exact ⟨hold.toGo, hold.way, hold.folder, hold.slices, hold.lone, hold.top, hold.covers⟩
    rw [if_neg hstays]
    obtain ⟨hup, hwider⟩ := not_or.1 hstays
    have hup := not_not.1 hup
    have hway : j.way = .up := by rw [← hold.way, hup]; rfl
    have hlen : j.passed.length ≤ j.line.length := by
      rw [h.line]
      simp
    have hahead : (j.line ++ FolderSync.span (s.top + 1) through).drop j.passed.length =
        j.ahead ++ FolderSync.span (s.top + 1) through := List.drop_append_of_le_length hlen
    have hnew : ∀ u ∈ FolderSync.span (s.top + 1) through, s.top < u ∧ u ≤ through :=
      fun u hu => mem_span.1 hu
    refine ⟨?_, ?_, fun s' hs' => ?_, h.leftOut, fun r hr hf => ?_⟩
    · show j.line ++ _ = j.passed.map Prod.fst ++ List.drop _ _
      rw [hahead, ← List.append_assoc, ← h.line]
    · show (j.line ++ _).Pairwise j.way.Before
      refine List.pairwise_append.2 ⟨h.sorted, hway ▸ sorted_span _ _, fun u hu v hv => ?_⟩
      rw [hway]
      exact Nat.lt_of_le_of_lt (hold.top hup u hu) (hnew v hv).1
    · unfold FolderSync.extendTo at hs'
      rw [if_neg hstays] at hs'
      split at hs'
      · cases hs'
      obtain rfl := Option.some.inj (Option.mem_def.1 hs')
      refine ⟨?_, hold.way, hold.folder, hold.slices, hold.lone, fun _ u hu => ?_, ?_⟩
      · show _ = (j.line ++ _).drop _
        rw [hahead, ← hold.toGo]
        change (s.narrowed ++ s.pending.toList).reverse.flatMap
          (fun slice : Slice => s.ordered slice.uids) ++
          ((FolderSync.span (s.top + 1) through).reverse ++ s.remaining).reverse = _
        simp [FolderSync.toGo, FolderSync.retry]
      · rcases List.mem_append.1 hu with hu | hu
        · have := hold.top hup u hu
          show u ≤ through
          omega
        · exact (hnew u hu).2
      · intro _ r hr hf n hn
        have := hold.covers hup r hr hf n hn
        show n ≤ through + 1
        omega
    · show j.way.Behind (List.drop _ _) r
      rw [hahead, hway]
      intro n hn u hu
      rcases List.mem_append.1 hu with hu | hu
      · have hb := h.behind r hr hf
        rw [hway] at hb
        exact hb n hn u hu
      · have := hold.covers hup r hr (hf.trans hold.folder.symm) n hn
        have := (hnew u hu).1
        omega

/-- **What holds of every walk**, whatever the server, the disk and the deadline did to it. -/
theorem Reached.going {j : Journey} (h : Reached j) : j.Going := by
  induction h with
  | openDown hl h =>
    obtain ⟨ho, hdone, hlow⟩ := FolderSync.openDown_spec hl h
    refine ho.going (fun r hr hf => ⟨fun l hl u hu => ?_, fun hd => ?_⟩) fun hw => ?_
    · rw [← hf, syncProgress_of_mem hr] at hlow
      exact hlow l hl u (List.mem_reverse.1 hu)
    · rw [← hf, syncProgress_of_mem hr] at hdone
      rw [hd] at hdone
      cases hdone
    · have := ho.walks
      rw [hw] at this
      cases this
  | openUp hl hlow h =>
    obtain ⟨ho, htop, hfrom⟩ := FolderSync.above_spec hl h
    refine ho.going (fun r hr hf n hn u hu => ?_) fun _ r hr hf n hn => ?_
    · exact (hlow r hr hf n hn).trans (hfrom u (List.mem_reverse.1 hu))
    · have := hlow r hr (hf.trans ho.folder) n hn
      omega
  | @openBeside _ _ _ _ _ _ s hl h =>
    obtain ⟨ho, -⟩ := FolderSync.above_spec hl h
    have hnot : ¬ s.asBeside.walk = .up := fun hw => by cases hw
    have hbeside : s.asBeside.Opened s.folder .beside :=
      ⟨rfl, rfl, ho.retry, ho.sorted, fun hw => by cases hw⟩
    rw [ho.folder] at hbeside
    exact hbeside.going (fun _ _ _ => trivial) fun hw => absurd hw hnot
  | turn _ env answer ih => exact ih.turn env answer
  | extend _ through ih => exact ih.extend through
  | dropped _ ih =>
    exact ⟨ih.line, ih.sorted, fun s hs => (by cases hs), ih.leftOut, ih.behind⟩
  | other _ hs ih =>
    exact ⟨ih.line, ih.sorted, fun s h => ⟨(ih.holds s h).toGo, (ih.holds s h).way,
      (ih.holds s h).folder, (ih.holds s h).slices, (ih.holds s h).lone, (ih.holds s h).top,
      fun hw r hr hf => (ih.holds s h).covers hw r
        ((hs r (hf.trans (ih.holds s h).folder)).1 hr) hf⟩, ih.leftOut, fun r hr hf => ih.behind r ((hs r hf).1 hr) hf⟩
  | @reopenDown j _ hw row hrow gmail selected uids s lowest hl hp ho ih =>
    obtain ⟨hopened, hdone, hlow⟩ := FolderSync.openDown_spec hl ho
    have hbelow := hlow lowest hp
    rw [hrow, ← hw] at hopened
    refine ih.reopen hopened (fun u hu => ?_) (fun u hk v hv => ?_) (fun hwalk => ?_)
      (fun hwalk => ?_) fun r hr hf => ?_
    · have hrec := recorded_of_progress hp
      obtain ⟨r, hr, hf, hlowest⟩ := hrec
      have hb := ih.behind r hr (hf.trans hrow)
      rw [hw] at hb
      have := hb.1 lowest hlowest u hu
      exact decide_eq_false (by omega)
    · rw [hw]
      have hlt := hbelow v hv
      have hle : lowest ≤ u := of_decide_eq_true hk
      exact Nat.lt_of_lt_of_le hlt hle
    · have := hopened.walks
      rw [hwalk, hw] at this
      cases this
    · have := hopened.walks
      rw [hwalk, hw] at this
      cases this
    · rw [hw]
      rw [hrow, ← hf, syncProgress_of_mem hr] at hp hdone
      refine ⟨fun l hl u hu => ?_, fun hd => ?_⟩
      · obtain rfl : lowest = l := by rw [show r.lowestSyncedUid = some lowest from hp] at hl; exact Option.some.inj hl
        exact hbelow u (List.mem_reverse.1 hu)
      · rw [hd] at hdone
        cases hdone
  | @reopenUp j _ hw row hrow through gmail uids s uidNext hl hp ho ih =>
    obtain ⟨hopened, htop, hfrom⟩ := FolderSync.above_spec hl ho
    rw [hrow, ← hw] at hopened
    have hnext : ∀ r ∈ j.store.tables.sync, r.folderId = j.folder → r.uidNext = some uidNext := by
      intro r hr hf
      rw [hrow, ← hf, syncProgress_of_mem hr] at hp
      simp only at hp
      split at hp
      · exact hp
      · cases hp
    refine ih.reopen hopened (fun u hu => ?_) (fun u hk v hv => ?_) (fun _ u _ hk => ?_)
      (fun _ r hr hf n hn => ?_) fun r hr hf => ?_
    · obtain ⟨r, hr, hf, hrec⟩ := recorded_of_next hp
      have hb := ih.behind r hr (hf.trans hrow)
      rw [hw] at hb
      exact decide_eq_false (Nat.not_lt.2 (hb uidNext hrec u hu))
    · rw [hw]
      exact Nat.lt_of_lt_of_le (of_decide_eq_true hk) (hfrom v hv)
    · have := of_decide_eq_true hk
      omega
    · rw [hnext r hr (hf.trans hopened.folder)] at hn
      obtain rfl := Option.some.inj hn
      omega
    · rw [hw]
      intro n hn u hu
      rw [hnext r hr hf] at hn
      obtain rfl := Option.some.inj hn
      exact hfrom u (List.mem_reverse.1 hu)

end Huliho.Sync
