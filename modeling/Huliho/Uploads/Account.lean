import Huliho.Lib.Turns
import Huliho.Uploads.Room
import Mathlib.Logic.Relation

/-!
# The writers of one account

`store.rs`: every write of an account's directory takes the account's lock for its turn. A turn goes
one file call at a time, so an upload may be abandoned between any two of them, which takes no lock.
`Step` is one such call, or what the lock's table sees of a task; any call may fail, and then its turn
is over. `forget` throws the lock away after its turn.

`Sound` is what holds throughout: the directory is within its bounds, a listing under way covers all
that is still there but what it has yet to read, and where room was made the ask still fits. Each kind
of step keeps it (**`Step.sound`**), so every run does (**`Run.sound`**), as long as nobody else is
inside when a lock is thrown away (`Undisturbed`).
-/

namespace Huliho.Uploads

/-- What a task came for. -/
inductive Op
  | begin (id : UploadId)
  | append (id : UploadId) (bytes : Nat)
  | complete (id : UploadId) (created : Nat)
  | sweep (now : Nat)
  | forget
deriving DecidableEq, Repr

/-- The room it takes. -/
def Op.ask : Op → Ask
  | .begin _ => ⟨1, 0⟩
  | .append _ bytes => ⟨0, bytes⟩
  | _ => ⟨0, 0⟩

/-- Where a task is in its turn. -/
inductive Phase
  | waiting (op : Op)
  | listing (op : Op) (seen : Listing) (left : List Name)
  /-- Room is made; the write is next. -/
  | writing (op : Op)
  /-- The file is in its place; its sidecar is next. -/
  | noting (id : UploadId) (created : Nat)
  | sweeping (now : Nat) (left : List Name)
  | clearing (left : List Name)
  /-- The turn is over; the lock is thrown away next. -/
  | leaving

/-- From its arrival to the end of its turn. -/
def Phase.Inside : Phase → Prop
  | .leaving => False
  | _ => True

/-- During its turn. -/
def Phase.Holds : Phase → Prop
  | .waiting _ => False
  | .leaving => False
  | _ => True

theorem Phase.Holds.inside {p : Phase} (h : p.Holds) : p.Inside := by
  cases p <;> first | exact h | trivial

/-- The first thing done in a turn. -/
def Op.start (d : Dir) : Op → Phase
  | .begin id => .listing (.begin id) .empty d.names
  | .append id bytes => .listing (.append id bytes) .empty d.names
  | .complete id created => .writing (.complete id created)
  | .sweep now => .sweeping now d.names
  | .forget => .clearing d.names

/-- The last nanosecond of the clock. -/
def clockEnd : Nat := 9223372036854775807999999999

/-- Whether an upload that came at `created` still lives at `now`. -/
def Lives (created now ttl : Nat) : Prop :=
  created * 1000000000 + ttl ≤ clockEnd ∧ now < created * 1000000000 + ttl

/-- Whether the sweep removes a file: an upload past its time, and a part file or an upload without
its sidecar once it is older than that. -/
def File.Gone (f : File) (now ttl : Nat) : Prop :=
  match f.done, f.created with
  | some _, some created => ¬ Lives created now ttl
  | _, _ => f.modified + ttl ≤ clockEnd ∧ f.modified + ttl ≤ now

abbrev TaskId := Nat

/-- An account: its directory and the tasks on it. -/
structure Account where
  dir : Dir
  turns : Turns TaskId Phase

/-- What happens next. -/
inductive Event
  | arrive (t : TaskId) (op : Op)
  | enter (t : TaskId)
  | read (t : TaskId)
  | room (t : TaskId) (faults : UploadId → Option Fault)
  | write (t : TaskId) (now bytes : Nat)
  | note (t : TaskId) (written : Bool)
  | sweep (t : TaskId)
  | clear (t : TaskId)
  | quit (t : TaskId)
  | throw (t : TaskId)
  | abandon (id : UploadId)

/-- One file call, or one thing the lock's table sees. -/
inductive Step (bounds : Bounds) : Account → Event → Account → Prop
  | arrive {s t op} : s.turns.tasks t = none →
    Step bounds s (.arrive t op) { s with turns := s.turns.arrive t (.waiting op) }
  | enter {s t l op} : s.turns.tasks t = some (l, .waiting op) →
    (∀ u p, s.turns.tasks u = some (l, p) → ¬ p.Holds) →
    Step bounds s (.enter t) { s with turns := s.turns.go t l (op.start s.dir) }
  | read {s t l op seen n left} : s.turns.tasks t = some (l, .listing op seen (n :: left)) →
    Step bounds s (.read t)
      { s with turns := s.turns.go t l (.listing op (seen.read s.dir n) left) }
  | room {s t l op seen faults d} : s.turns.tasks t = some (l, .listing op seen []) →
    seen.makeRoom bounds faults op.ask s.dir = (none, d) →
    Step bounds s (.room t faults) ⟨d, s.turns.go t l (.writing op)⟩
  | refused {s t l op seen faults e d} : s.turns.tasks t = some (l, .listing op seen []) →
    seen.makeRoom bounds faults op.ask s.dir = (some e, d) →
    Step bounds s (.room t faults) ⟨d, s.turns.finish t⟩
  | begun {s t l id now} : s.turns.tasks t = some (l, .writing (.begin id)) →
    s.dir.find (.part id) = none →
    Step bounds s (.write t now 0) ⟨s.dir.put ⟨.part id, 0, none, now⟩, s.turns.finish t⟩
  /-- An append that fails may leave some of its octets. -/
  | appended {s t l id bytes f now written} : s.turns.tasks t = some (l, .writing (.append id bytes)) →
    s.dir.find (.part id) = some f → written ≤ bytes →
    Step bounds s (.write t now written)
      ⟨s.dir.put ⟨.part id, f.length + written, none, now⟩, s.turns.finish t⟩
  | renamed {s t l id created f now} : s.turns.tasks t = some (l, .writing (.complete id created)) →
    s.dir.find (.part id) = some f →
    Step bounds s (.write t now 0)
      ⟨(s.dir.remove (.part id)).put ⟨.done id, f.length, none, f.modified⟩,
        s.turns.go t l (.noting id created)⟩
  | noted {s t l id created f} : s.turns.tasks t = some (l, .noting id created) →
    s.dir.find (.done id) = some f →
    Step bounds s (.note t true)
      ⟨s.dir.put ⟨.done id, f.length, some created, f.modified⟩, s.turns.finish t⟩
  /-- A file whose sidecar cannot be written goes again. -/
  | unnoted {s t l id created} : s.turns.tasks t = some (l, .noting id created) →
    Step bounds s (.note t false) ⟨s.dir.remove (.done id), s.turns.finish t⟩
  | swept {s t l now n left f} : s.turns.tasks t = some (l, .sweeping now (n :: left)) →
    s.dir.find n = some f → f.Gone now bounds.ttl →
    Step bounds s (.sweep t) ⟨s.dir.remove n, s.turns.go t l (.sweeping now left)⟩
  | spared {s t l now n left} : s.turns.tasks t = some (l, .sweeping now (n :: left)) →
    (∀ f, s.dir.find n = some f → ¬ f.Gone now bounds.ttl) →
    Step bounds s (.sweep t) { s with turns := s.turns.go t l (.sweeping now left) }
  | cleared {s t l n left} : s.turns.tasks t = some (l, .clearing (n :: left)) →
    Step bounds s (.clear t) ⟨s.dir.remove n, s.turns.go t l (.clearing left)⟩
  /-- `forget` ends its turn, having removed everything or failed to. -/
  | released {s t l left} : s.turns.tasks t = some (l, .clearing left) →
    Step bounds s (.quit t) { s with turns := s.turns.go t l .leaving }
  /-- Any other turn is over, done or failed. -/
  | quit {s t l p} : s.turns.tasks t = some (l, p) → p.Holds → (∀ left, p ≠ .clearing left) →
    Step bounds s (.quit t) { s with turns := s.turns.finish t }
  | thrown {s t l} : s.turns.tasks t = some (l, .leaving) →
    Step bounds s (.throw t) { s with turns := s.turns.throw t }
  | abandoned {s id} :
    Step bounds s (.abandon id) { s with dir := s.dir.remove (.part id) }

/-- Nobody else is inside when a lock is thrown away. -/
def Undisturbed (s : Account) : Event → Prop
  | .throw t => ∀ u l p, u ≠ t → s.turns.tasks u = some (l, p) → ¬ p.Inside
  | _ => True

/-- Any number of steps, undisturbed each. -/
def Run (bounds : Bounds) : Account → Account → Prop :=
  Relation.ReflTransGen fun s s' => ∃ e, Step bounds s e s' ∧ Undisturbed s e

/-! ## What holds throughout -/

/-- A listing under way read the files that are still there but those it has yet to read, and files in
flight that are gone by now. -/
structure Reading (d : Dir) (seen : Listing) (left : List Name) (read gone : List File) : Prop where
  listed : seen = listed read
  flights : ∀ f ∈ gone, f.inFlight = true
  covers : read.Perm (d.files.filter (fun f => f.name ∉ left) ++ gone)
  nodup : left.Nodup

/-- What holds of the directory while a task is in its turn. -/
def Phase.Ok (bounds : Bounds) (d : Dir) : Phase → Prop
  | .listing _ seen left => ∃ read gone, Reading d seen left read gone
  | .writing op => d.Fits bounds op.ask
  | _ => True

structure Sound (bounds : Bounds) (s : Account) : Prop where
  turns : s.turns.Exclusive Phase.Inside Phase.Holds
  within : s.dir.Fits bounds ⟨0, 0⟩
  ok : ∀ t l p, s.turns.tasks t = some (l, p) → p.Ok bounds s.dir

section
variable {bounds : Bounds} {s s' : Account} {t : TaskId} {l : Nat} {p q : Phase} {d d' : Dir}
  {ask : Ask} {n : Name} {f : File} {left : List Name} {seen : Listing} {read gone : List File}

theorem Phase.ok_of_not_holds (h : ¬ p.Holds) : p.Ok bounds d := by
  cases p <;> first | exact absurd trivial h | exact True.intro

theorem Dir.Fits.mono (h : d.Fits bounds ask) (hused : d'.used ≤ d.used)
    (hcount : d'.count ≤ d.count) : d'.Fits bounds ask :=
  ⟨(Nat.add_le_add_right hcount _).trans h.1, (Nat.add_le_add_right hused _).trans h.2⟩

theorem Dir.Fits.keep (h : d.Fits bounds ask) (p : File → Bool) : (d.keep p).Fits bounds ask :=
  h.mono Dir.used_keep_le Dir.count_keep_le

/-- The task that holds the lock may change the directory, within its bounds, and go on. -/
theorem Sound.go (h : Sound bounds s) (ht : s.turns.tasks t = some (l, p)) (hp : p.Holds)
    (hwithin : d.Fits bounds ⟨0, 0⟩) (hok : q.Ok bounds d) :
    Sound bounds ⟨d, s.turns.go t l q⟩ where
  turns := h.turns.go (fun _ => Phase.Holds.inside) ht hp
  within := hwithin
  ok u m r hu := by
    rcases Turns.tasks_update hu with ⟨-, hu⟩ | ⟨hne, hu⟩
    · cases hu
      exact hok
    · exact Phase.ok_of_not_holds fun hr => hne (h.turns.alone u t _ _ hu ht hr hp)

/-- It may also be done. -/
theorem Sound.finish (h : Sound bounds s) (ht : s.turns.tasks t = some (l, p)) (hp : p.Holds)
    (hwithin : d.Fits bounds ⟨0, 0⟩) : Sound bounds ⟨d, s.turns.finish t⟩ where
  turns := h.turns.finish
  within := hwithin
  ok u m r hu := by
    rcases Turns.tasks_update hu with ⟨-, hu⟩ | ⟨hne, hu⟩
    · cases hu
    · exact Phase.ok_of_not_holds fun hr => hne (h.turns.alone u t _ _ hu ht hr hp)

theorem Dir.Fits.within (h : d.Fits bounds ask) : d.Fits bounds ⟨0, 0⟩ :=
  ⟨(Nat.le_add_right _ _).trans h.1, (Nat.le_add_right _ _).trans h.2⟩

/-! ## A listing under way -/

/-- The files a listing has yet to read, one of them apart. -/
theorem filter_left (hf : d.find n = some f) (hn : n ∉ left) :
    (d.files.filter fun g => g.name ∉ left).Perm
      (f :: d.files.filter fun g => g.name ∉ n :: left) := by
  obtain ⟨hmem, rfl⟩ := Dir.find_eq_some.1 hf
  have hperm := (Dir.perm_remove hmem).filter fun g => g.name ∉ left
  rw [List.filter_cons, if_pos (decide_eq_true hn)] at hperm
  have hrest : (d.remove f.name).files.filter (fun g => g.name ∉ left) =
      d.files.filter fun g => g.name ∉ f.name :: left := by
    unfold Dir.remove Dir.keep
    rw [List.filter_filter]
    congr 1
    funext g
    simp only [List.mem_cons, not_or, Bool.decide_and, Bool.and_comm, ne_eq]
  rwa [hrest] at hperm

theorem reading_start (d : Dir) : Reading d .empty d.names [] [] where
  listed := rfl
  flights f hf := by cases hf
  covers := by
    have hnone : d.files.filter (fun f => f.name ∉ d.names) = [] := by
      rw [List.filter_eq_nil_iff]
      intro f hf hname
      exact of_decide_eq_true hname (List.mem_map.2 ⟨f, hf, rfl⟩)
    rw [hnone]
    exact .refl _
  nodup := d.distinct

/-- One more entry read. -/
theorem Reading.next (h : Reading d seen (n :: left) read gone) :
    ∃ read', Reading d (seen.read d n) left read' gone := by
  obtain ⟨hn, hleft⟩ := List.nodup_cons.1 h.nodup
  unfold Listing.read
  cases hf : d.find n with
  | none =>
    refine ⟨read, h.listed, h.flights, ?_, hleft⟩
    have hsame : d.files.filter (fun g => g.name ∉ n :: left) =
        d.files.filter fun g => g.name ∉ left := by
      refine List.filter_congr fun g hg => ?_
      have hne : g.name ≠ n := fun hname =>
        Dir.find_eq_none.1 hf (List.mem_map.2 ⟨g, hg, hname⟩)
      simp only [List.mem_cons, hne, false_or]
    rw [← hsame]
    exact h.covers
  | some f =>
    refine ⟨read ++ [f], ?_, h.flights, ?_, hleft⟩
    · rw [h.listed, listed_concat]
    · have hcovers := (List.perm_append_singleton f read).trans (h.covers.cons f)
      exact hcovers.trans ((filter_left hf hn).symm.append_right gone)

/-- A listing with nothing left to read covers the directory. -/
theorem Reading.covered (h : Reading d seen [] read gone) : seen.Covers d gone := by
  have hall : d.files.filter (fun f => f.name ∉ ([] : List Name)) = d.files :=
    List.filter_eq_self.2 fun f _ => decide_eq_true List.not_mem_nil
  have hcovers := h.covers
  rw [hall] at hcovers
  rw [h.listed]
  exact covers_listed h.flights hcovers

/-- An upload abandoned in the meantime is among those that are gone. -/
theorem Reading.abandon (h : Reading d seen left read gone) (id : UploadId) :
    ∃ gone', Reading (d.remove (.part id)) seen left read gone' := by
  cases hf : d.find (.part id) with
  | none => exact ⟨gone, by rwa [Dir.remove_of_find hf]⟩
  | some f =>
    obtain ⟨hmem, hname⟩ := Dir.find_eq_some.1 hf
    have hperm := (Dir.perm_remove hmem).filter fun g => g.name ∉ left
    rw [hname, List.filter_cons] at hperm
    by_cases hin : Name.part id ∈ left
    · rw [if_neg (by rw [hname]; simpa using hin)] at hperm
      exact ⟨gone, h.listed, h.flights, h.covers.trans (hperm.append_right gone), h.nodup⟩
    · rw [if_pos (by rw [hname]; simpa using hin)] at hperm
      refine ⟨f :: gone, h.listed, ?_, ?_, h.nodup⟩
      · refine List.forall_mem_cons.2 ⟨?_, h.flights⟩
        rw [File.inFlight, File.done, hname]
        rfl
      · have hcovers := h.covers.trans (hperm.append_right gone)
        rw [List.cons_append] at hcovers
        exact hcovers.trans List.perm_middle.symm

/-- A file written over keeps the others, and takes its new length. -/
theorem put_over {g : File} (hf : d.find n = some f) (hname : g.name = n) :
    (d.put g).used + f.length = d.used + g.length ∧ (d.put g).count = d.count := by
  obtain ⟨hmem, rfl⟩ := Dir.find_eq_some.1 hf
  have hused := Dir.used_remove hmem
  have hcount := Dir.count_remove hmem
  rw [Dir.used_put, Dir.count_put, hname]
  omega

/-- A file renamed takes no more room. -/
theorem put_renamed {m : Name} {g : File} (hf : d.find m = some f) (hlength : g.length = f.length) :
    ((d.remove m).put g).used ≤ d.used ∧ ((d.remove m).put g).count ≤ d.count := by
  obtain ⟨hmem, rfl⟩ := Dir.find_eq_some.1 hf
  have hused := Dir.used_remove hmem
  have hcount := Dir.count_remove hmem
  have hless : ((d.remove f.name).remove g.name).used ≤ (d.remove f.name).used :=
    Dir.used_keep_le
  have hfewer : ((d.remove f.name).remove g.name).count ≤ (d.remove f.name).count :=
    Dir.count_keep_le
  rw [Dir.used_put, Dir.count_put, hlength]
  omega

theorem Phase.Ok.abandon (h : p.Ok bounds d) (id : UploadId) :
    p.Ok bounds (d.remove (.part id)) := by
  cases p with
  | listing op seen left =>
    obtain ⟨read, gone, hread⟩ := h
    obtain ⟨gone', hgone⟩ := hread.abandon id
    exact ⟨read, gone', hgone⟩
  | writing op => exact Dir.Fits.keep h _
  | _ => trivial

/-- **One step keeps it**: an undisturbed one, by its kind. -/
theorem Step.sound {e : Event} (hstep : Step bounds s e s') (he : Undisturbed s e)
    (h : Sound bounds s) : Sound bounds s' := by
  have hwithin := h.within
  have hword : s.dir.used ≤ maxU64 :=
    Nat.le_of_lt (Nat.lt_of_le_of_lt hwithin.2 bounds.summed)
  cases hstep with
  | arrive ht =>
    refine ⟨h.turns.arrive id, hwithin, fun u m r hu => ?_⟩
    rcases Turns.tasks_update hu with ⟨-, hu⟩ | ⟨-, hu⟩
    · cases hu
      trivial
    · exact h.ok u m r hu
  | @enter t l op ht hfree =>
    refine ⟨h.turns.enter (fun _ => Phase.Holds.inside) ht trivial hfree, hwithin,
      fun u m r hu => ?_⟩
    rcases Turns.tasks_update hu with ⟨-, hu⟩ | ⟨-, hu⟩
    · cases hu
      cases op with
      | begin id => exact ⟨[], [], reading_start _⟩
      | append id bytes => exact ⟨[], [], reading_start _⟩
      | complete id created => exact hwithin
      | sweep now => trivial
      | forget => trivial
    · exact h.ok u m r hu
  | read ht =>
    obtain ⟨read, gone, hread⟩ := h.ok _ _ _ ht
    obtain ⟨read', hnext⟩ := hread.next
    exact h.go ht trivial hwithin ⟨read', gone, hnext⟩
  | @room t l op seen faults d ht hroom =>
    obtain ⟨read, gone, hread⟩ := h.ok _ _ _ ht
    have hfits := hread.covered.room hword hroom
    exact h.go ht trivial hfits.within hfits
  | @refused t l op seen faults e d ht hroom =>
    obtain ⟨ids, hids⟩ := makeRoom_without bounds faults op.ask seen s.dir
    rw [hroom] at hids
    obtain rfl : d = s.dir.without ids := hids
    exact h.finish ht trivial (hwithin.keep _)
  | @begun t l id now ht hnone =>
    have hfits : s.dir.Fits bounds ⟨1, 0⟩ := h.ok _ _ _ ht
    refine h.finish ht trivial ⟨?_, ?_⟩
    · rw [Dir.count_put, Dir.remove_of_find hnone]
      exact hfits.1
    · rw [Dir.used_put, Dir.remove_of_find hnone]
      exact hfits.2
  | @appended t l id bytes f now written ht hf hwritten =>
    have hfits : s.dir.Fits bounds ⟨0, bytes⟩ := h.ok _ _ _ ht
    obtain ⟨hused, hcount⟩ :=
      put_over (g := ⟨.part id, f.length + written, none, now⟩) hf rfl
    refine h.finish ht trivial ⟨?_, ?_⟩
    · rw [hcount]
      exact hfits.1
    · have hquota := hfits.2
      dsimp only at hused hquota ⊢
      omega
  | @renamed t l id created f now ht hf =>
    obtain ⟨hused, hcount⟩ := put_renamed (g := ⟨.done id, f.length, none, f.modified⟩) hf rfl
    exact h.go ht trivial (hwithin.mono hused hcount) trivial
  | @noted t l id created f ht hf =>
    obtain ⟨hused, hcount⟩ :=
      put_over (g := ⟨.done id, f.length, some created, f.modified⟩) hf rfl
    exact h.finish ht trivial (hwithin.mono (Nat.le_of_add_le_add_right hused.le) hcount.le)
  | unnoted ht => exact h.finish ht trivial (hwithin.keep _)
  | swept ht hf hgone => exact h.go ht trivial (hwithin.keep _) trivial
  | spared ht hspared => exact h.go ht trivial hwithin trivial
  | cleared ht => exact h.go ht trivial (hwithin.keep _) trivial
  | released ht => exact h.go ht trivial hwithin trivial
  | quit ht hp => exact h.finish ht hp hwithin
  | thrown ht =>
    refine ⟨h.turns.throw he, hwithin, fun u m r hu => ?_⟩
    rcases Turns.tasks_update hu with ⟨-, hu⟩ | ⟨-, hu⟩
    · cases hu
    · exact h.ok u m r hu
  | abandoned =>
    exact ⟨h.turns, hwithin.keep _, fun u m r hu => (h.ok u m r hu).abandon _⟩

/-- **So does every run.** -/
theorem Run.sound (hrun : Run bounds s s') (h : Sound bounds s) : Sound bounds s' := by
  induction hrun with
  | refl => exact h
  | tail _ hstep ih =>
    obtain ⟨e, hstep, he⟩ := hstep
    exact hstep.sound he ih

/-- An account nobody writes to, within its bounds. -/
theorem Sound.start (hnone : ∀ t, s.turns.tasks t = none) (hwithin : s.dir.Fits bounds ⟨0, 0⟩) :
    Sound bounds s where
  turns := Turns.exclusive_of_none hnone
  within := hwithin
  ok t l p ht := by
    rw [hnone t] at ht
    cases ht

end

/-! ## The bounds are kept -/

theorem covers_of (d : Dir) : (Listing.of d).Covers d [] := by
  rw [Listing.of_eq]
  exact covers_listed (fun f hf => by cases hf) (by rw [List.append_nil])

theorem created_aged {d : Dir} {done : List UploadId} {a : Aged} (h : a ∈ aged d done) :
    a.1 = d.created a.2 := by
  unfold aged at h
  rw [List.mem_insertionSort, List.mem_map] at h
  obtain ⟨id, -, rfl⟩ := h
  rfl

/-- **Room is made by the shortest run of the oldest uploads that lets the ask fit**; an ask that does
not fit even without them is refused with all of them gone. **Whatever the writers of an account do,
its directory keeps within its bounds.** -/
theorem bounds_kept (bounds : Bounds) :
    (∀ (d : Dir) (ask : Ask) (faults : UploadId → Option Fault), d.used ≤ maxU64 →
      ∃ order : List Aged, (order.map Prod.snd).Perm d.done ∧ order.Pairwise Older ∧
        (∀ a ∈ order, a.1 = d.created a.2) ∧
        (∀ d', (Listing.of d).makeRoom bounds faults ask d = (none, d') →
          ∃ n ≤ order.length, d' = d.without ((order.map Prod.snd).take n) ∧ d'.Fits bounds ask ∧
            ∀ m < n, ¬ (d.without ((order.map Prod.snd).take m)).Fits bounds ask) ∧
        ∀ d', (Listing.of d).makeRoom bounds faults ask d = (some .overQuota, d') →
          d' = d.without (order.map Prod.snd) ∧ d'.done = [] ∧
            ∀ m ≤ order.length, ¬ (d.without ((order.map Prod.snd).take m)).Fits bounds ask) ∧
    ∀ s s', (∀ t, s.turns.tasks t = none) → s.dir.Fits bounds ⟨0, 0⟩ → Run bounds s s' →
      s'.dir.count ≤ bounds.count ∧ s'.dir.used ≤ bounds.quota := by
  refine ⟨fun d ask faults hword => ?_, fun s s' hnone hwithin hrun => ?_⟩
  · have hcovers := covers_of d
    have hperm : (order d (Listing.of d)).Perm d.done := (perm_aged d _).trans hcovers.done
    have hlength : (aged d (Listing.of d).done).length = (order d (Listing.of d)).length :=
      (List.length_map _).symm
    obtain ⟨n, hn, hbefore, hend⟩ := makeRoom_spec bounds faults ask (Listing.of d) d
    have hshort : ∀ m < n, ¬ (d.without ((order d (Listing.of d)).take m)).Fits bounds ask :=
      fun m hm => hcovers.crowded hword (hm.le.trans hn) (hbefore m hm)
    refine ⟨aged d (Listing.of d).done, hperm, pairwise_aged d _, fun a => created_aged,
      fun d' hroom => ?_, fun d' hrefused => ?_⟩
    · rcases hend with ⟨hdone, hfits⟩ | ⟨hdone, -⟩ | ⟨ids, hdone⟩ <;> rw [hdone] at hroom
      · cases hroom
        exact ⟨n, hlength ▸ hn, rfl, hcovers.fits hword hn hfits, hshort⟩
      · cases hroom
      · cases hroom
    · rcases hend with ⟨hdone, -⟩ | ⟨hdone, rfl, hcrowded⟩ | ⟨ids, hdone⟩ <;> rw [hdone] at hrefused
      · cases hrefused
      · cases hrefused
        rw [List.take_length]
        refine ⟨rfl, Dir.done_without fun id hid => hperm.symm.subset hid, fun m hm => ?_⟩
        rcases Nat.lt_or_eq_of_le (hlength ▸ hm) with hlt | rfl
        · exact hshort m hlt
        · exact hcovers.crowded hword (Nat.le_refl _) hcrowded
      · cases hrefused
  · obtain ⟨hcount, hused⟩ := (hrun.sound (Sound.start hnone hwithin)).within
    exact ⟨hcount, hused⟩

/-- Two uploads in their place, one without its sidecar. -/
def twoUploads : Dir where
  files := [⟨.done "a", 209715200, some 5, 0⟩, ⟨.done "b", 52428800, none, 0⟩]
  distinct := by decide

theorem bounds_kept_two :
    (∃ order : List Aged, (order.map Prod.snd).Perm ["a", "b"] ∧ ∃ n ≤ order.length,
      ((Listing.of twoUploads).makeRoom BOUNDS (fun _ => none) ⟨0, 31457280⟩ twoUploads).2 =
        twoUploads.without ((order.map Prod.snd).take n)) ∧
    twoUploads.count ≤ 1024 ∧ twoUploads.used ≤ 268435456 := by
  obtain ⟨hroom, hrun⟩ := bounds_kept BOUNDS
  constructor
  · obtain ⟨order, hperm, -, -, hmade, -⟩ :=
      hroom twoUploads ⟨0, 31457280⟩ (fun _ => none) (by decide)
    obtain ⟨n, hn, hleft, -⟩ := hmade _ rfl
    exact ⟨order, hperm, n, hn, hleft⟩
  · exact hrun ⟨twoUploads, ⟨none, 0, fun _ => none⟩⟩ _ (fun _ => rfl) (by decide) .refl

/-- An upload in its place beside one in flight that leaves no room. -/
def besideFlight : Dir where
  files := [⟨.done "a", 5, some 5, 0⟩, ⟨.part "b", 268435456, none, 0⟩]
  distinct := by decide

/-- Three uploads whose octets together are past the greatest word. -/
def pastWord : Dir where
  files := [⟨.done "a", 9223372036854775807, some 1, 0⟩, ⟨.done "b", 9223372036854775807, some 2, 0⟩,
    ⟨.done "c", 9223372036854775807, some 3, 0⟩]
  distinct := by decide

/-- An ask refused because of what is in flight takes the completed upload all the same, and room made
among files of more octets than a word holds is no room. -/
theorem refused_without : (∃ d', (Listing.of besideFlight).makeRoom BOUNDS (fun _ => none) ⟨0, 4⟩
      besideFlight = (some .overQuota, d') ∧ besideFlight.done = ["a"] ∧ d'.done = []) ∧
    ∃ d', (Listing.of pastWord).makeRoom BOUNDS (fun _ => none) ⟨0, 4⟩ pastWord = (none, d') ∧
      ¬ d'.Fits BOUNDS ⟨0, 4⟩ :=
  ⟨⟨_, rfl, rfl, rfl⟩, ⟨_, rfl, by decide⟩⟩

end Huliho.Uploads
