import Huliho.Store.Run
import Huliho.Jmap.Replica

/-!
# The log of a reachable store

The logs `/changes` folds are the ones the store writes. `Recalled whole t` ties an account's rows
to the log it would have had it forgotten nothing: the email and thread lifelines are lawful in it
and what exists at its last state is what a client sees. `Recalled.told` is the step every write
takes, `Reachable.recalled` the run, and `Reachable.caught_up` what it is worth: a replica that
held the emails or the threads of one store and follows `/changes` on a later one holds those of
the later one.
-/

namespace Huliho.Jmap

/-- The log `whole` is what `t` would hold had it forgotten nothing, and tells the emails and the
threads `t` holds. -/
structure Recalled (whole t : Tables) : Prop where
  forgot : Forgot whole t
  below : ∀ row ∈ whole.changes, 0 < row.sequence ∧ row.sequence ≤ whole.sequence
  every : ∀ state < whole.sequence, ∃ row ∈ whole.changes, row.sequence = state + 1
  lives : ∀ x : Item, Lawful false (lifeOf x.slot.2 (readChanges whole x.slot.1 0))
  stands : ∀ x : Item, standsAt whole x.slot.1 whole.sequence x.slot.2 = (view t x).isSome

theorem Recalled.consistent {whole t : Tables} (h : Recalled whole t) {object : ObjectType}
    (ho : object ≠ .mailbox) : Consistent whole object := by
  refine ⟨fun id => ?_, h.below, h.every⟩
  cases object with
  | mailbox => exact absurd rfl ho
  | email => exact h.lives (.email id)
  | thread => exact h.lives (.thread id)

theorem Recalled.empty : Recalled Tables.empty Tables.empty :=
  ⟨⟨rfl, 0, by simp⟩, fun row hrow => absurd hrow Table.not_mem_empty,
    fun state hs => absurd hs (Nat.not_lt_zero state), fun x => trivial, fun x => by cases x <;> rfl⟩

/-! ## One more state -/

/-- The log with the rows of one more state. -/
structure Extends (whole t whole' : Tables) : Prop where
  sequence : whole'.sequence = whole.sequence + 1
  rows : ∀ row, row ∈ whole'.changes ↔
    row ∈ whole.changes ∨ (row ∈ t.changes ∧ row.sequence = whole.sequence + 1)

theorem exists_extends {whole t : Tables} (hb : LogBelow whole) :
    ∃ whole', Extends whole t whole' := by
  have hapart : (whole.changes.rows ++
      (t.changes.rows.filter fun row => row.sequence = whole.sequence + 1)).Pairwise
        LogRow.Apart := by
    refine List.pairwise_append.2 ⟨whole.changes.apart, t.changes.apart.filter _, ?_⟩
    intro a ha b hb' hab
    have hle := hb a ha
    have hs := of_decide_eq_true (List.mem_filter.1 hb').2
    omega
  refine ⟨{ whole with sequence := whole.sequence + 1, changes := ⟨_, hapart⟩ }, rfl, fun row => ?_⟩
  simp [Table.mem_def]

section
variable {whole t whole' : Tables} {object : ObjectType}

/-- Up to the old state the log reads as before. -/
theorem Extends.upTo_old (h : Extends whole t whole') (hb : LogBelow whole) :
    upTo (readChanges whole' object 0) whole.sequence = readChanges whole object 0 := by
  refine sorted_ext ((readChanges_sorted whole' object 0).filter _)
    (readChanges_sorted whole object 0) ((readChanges_apart whole' object 0).filter _)
    (readChanges_apart whole object 0) fun c => ?_
  rw [mem_upTo, mem_readChanges, mem_readChanges, h.rows]
  constructor
  · rintro ⟨⟨hrow | ⟨-, hs⟩, hpos⟩, hle⟩
    · exact ⟨hrow, hpos⟩
    · simp only at hs
      omega
  · rintro ⟨hrow, hpos⟩
    exact ⟨⟨.inl hrow, hpos⟩, hb _ hrow⟩

theorem Extends.standsAt_old (h : Extends whole t whole') (hb : LogBelow whole) {state : Nat}
    (hs : state ≤ whole.sequence) (id : String) :
    standsAt whole' object state id = standsAt whole object state id := by
  have hnested : upTo (readChanges whole' object 0) state =
      upTo (upTo (readChanges whole' object 0) whole.sequence) state := by
    rw [upTo, upTo, upTo, List.filter_filter]
    refine List.filter_congr fun row _ => ?_
    rw [← Bool.decide_and, decide_eq_decide]
    omega
  rw [standsAt, hnested, h.upTo_old hb]
  rfl

theorem mem_new (h : Extends whole t whole') (hb : LogBelow whole) {c : Change} :
    c ∈ after (readChanges whole' object 0) whole.sequence ↔
      ⟨c.sequence, object, c.id, c.kind⟩ ∈ t.changes ∧ c.sequence = whole.sequence + 1 := by
  rw [mem_after, mem_readChanges, h.rows]
  constructor
  · rintro ⟨⟨hrow | hrow, -⟩, hlt⟩
    · have := hb _ hrow
      simp only at this
      omega
    · exact hrow
  · rintro ⟨hrow, hs⟩
    exact ⟨⟨.inr ⟨hrow, hs⟩, by omega⟩, by omega⟩

/-- Under one sequence an id's lifeline is its one row. -/
theorem lifeOf_same {rows : List Change} (hr : rows.Pairwise Change.Apart) {s : Nat}
    (hs : ∀ row ∈ rows, row.sequence = s) {c : Change} (hc : c ∈ rows) :
    lifeOf c.id rows = [c.kind] := by
  induction rows with
  | nil => cases hc
  | cons row rows ih =>
    obtain ⟨hrow, hr⟩ := List.pairwise_cons.1 hr
    have hsame : ∀ a ∈ rows, row.sequence = a.sequence := fun a ha =>
      (hs row List.mem_cons_self).trans (hs a (List.mem_cons_of_mem _ ha)).symm
    rcases List.mem_cons.1 hc with rfl | hc
    · have hnil : lifeOf c.id rows = [] := by
        by_contra hne
        obtain ⟨a, ha, hid⟩ := lifeOf_ne_nil.1 hne
        exact hrow a ha ⟨hsame a ha, hid.symm⟩
      rw [lifeOf] at hnil ⊢
      simp [hnil]
    · have hne : row.id ≠ c.id := fun hid => hrow c hc ⟨hsame c hc, hid⟩
      rw [← ih hr (fun a ha => hs a (List.mem_cons_of_mem _ ha)) hc]
      simp [lifeOf, hne]

/-- The new state adds the one entry it has for an id to the id's lifeline. -/
theorem Extends.life_new (h : Extends whole t whole') (hb : LogBelow whole) (id : String) :
    lifeOf id (after (readChanges whole' object 0) whole.sequence) =
      (entryAt t (whole.sequence + 1) (object, id)).toList := by
  have hapart := (readChanges_apart whole' object 0).filter fun row =>
    decide (whole.sequence < row.sequence)
  cases he : entryAt t (whole.sequence + 1) (object, id) with
  | none =>
    by_contra hne
    obtain ⟨c, hc, rfl⟩ := lifeOf_ne_nil.1 hne
    obtain ⟨hrow, hs⟩ := (mem_new h hb).1 hc
    exact entryAt_eq_none.1 he _ hrow hs rfl
  | some kind =>
    have hin : (⟨whole.sequence + 1, id, kind⟩ : Change) ∈
        after (readChanges whole' object 0) whole.sequence :=
      (mem_new h hb).2 ⟨entryAt_eq_some.1 he, rfl⟩
    exact lifeOf_same hapart (fun c hc => ((mem_new h hb).1 hc).2) hin

/-- A lifeline read to the new state: what it was, and the entry of the new state. -/
theorem Extends.life (h : Extends whole t whole') (hb : LogBelow whole) (id : String) :
    lifeOf id (readChanges whole' object 0) = lifeOf id (readChanges whole object 0) ++
      (entryAt t (whole.sequence + 1) (object, id)).toList := by
  conv_lhs => rw [← upTo_append_after (readChanges_ordered whole' object 0) whole.sequence]
  rw [lifeOf_append, h.upTo_old hb, h.life_new hb]

end

/-- At its last state a log is read whole. -/
theorem standsAt_top {whole : Tables} (hb : LogBelow whole) (object : ObjectType) (id : String) :
    standsAt whole object whole.sequence id =
      standing false (lifeOf id (readChanges whole object 0)) := by
  rw [standsAt, upTo_of_le fun row hrow => hb _ (mem_readChanges.1 hrow).1]

/-! ## Every write, every run -/

/-- The rows a log keeps after a write, seen from the whole one. -/
theorem Extends.forgot {whole t t' whole' : Tables} (hx : Extends whole t' whole')
    (h : Forgot whole t) (hb : LogBelow whole) (hb' : LogBelow t') (ht : Told t t') :
    Forgot whole' t' := by
  have hseq : t'.sequence = whole.sequence + 1 := by rw [ht.sequence, h.sequence]
  obtain ⟨horizon, hkept⟩ := h.kept
  obtain ⟨low, hlow, hkeeps⟩ := ht.kept
  refine ⟨by rw [hseq, hx.sequence], min (max horizon low) t'.sequence, fun row => ?_⟩
  rw [hx.rows]
  by_cases hold : row.sequence ≤ t.sequence
  · have hs : row.sequence ≤ whole.sequence := by rw [← h.sequence]; exact hold
    rw [hkeeps row hold, hkept row]
    constructor
    · rintro ⟨⟨hrow, hhorizon⟩, hle⟩
      exact ⟨.inl hrow, by omega⟩
    · rintro ⟨hrow | ⟨-, hnew⟩, hle⟩
      · exact ⟨⟨hrow, by omega⟩, by omega⟩
      · omega
  · rw [h.sequence] at hold
    constructor
    · intro hrow
      have := hb' row hrow
      exact ⟨.inr ⟨hrow, by omega⟩, by omega⟩
    · rintro ⟨hrow | ⟨hrow, -⟩, -⟩
      · exact absurd (hb row hrow) hold
      · exact hrow

/-- **A write that tells keeps the log recalled**, and leaves the states before as they were. -/
theorem Recalled.told {whole t t' : Tables} (h : Recalled whole t) (hb' : LogBelow t')
    (ht : Told t t') : ∃ whole', Recalled whole' t' ∧ whole.sequence ≤ whole'.sequence ∧
      ∀ object, ∀ state ≤ whole.sequence, ∀ id,
        standsAt whole' object state id = standsAt whole object state id := by
  have hb : LogBelow whole := fun row hrow => (h.below row hrow).2
  obtain ⟨whole', hx⟩ := exists_extends hb
  have hseq : t'.sequence = whole.sequence + 1 := by rw [ht.sequence, h.forgot.sequence]
  have hbelow : ∀ row ∈ whole'.changes, 0 < row.sequence ∧ row.sequence ≤ whole'.sequence := by
    intro row hrow
    rw [hx.sequence]
    rcases (hx.rows row).1 hrow with hrow | ⟨-, hs⟩
    · have := h.below row hrow
      omega
    · omega
  have htop : ∀ x : Item, Lawful (view t x).isSome
        (entryAt t' (whole.sequence + 1) x.slot).toList ∧
      standing (view t x).isSome (entryAt t' (whole.sequence + 1) x.slot).toList =
        (view t' x).isSome := fun x => by
    have := (ht.tracks x).lawful
    rwa [hseq] at this
  have hstood : ∀ x : Item, standing false (lifeOf x.slot.2 (readChanges whole x.slot.1 0)) =
      (view t x).isSome := fun x => by rw [← standsAt_top hb, h.stands x]
  refine ⟨whole', ⟨hx.forgot h.forgot hb hb' ht, hbelow, fun state hs => ?_, fun x => ?_,
    fun x => ?_⟩, by rw [hx.sequence]; omega, fun object state hs id => hx.standsAt_old hb hs id⟩
  · rw [hx.sequence] at hs
    by_cases hold : state < whole.sequence
    · obtain ⟨row, hrow, hrs⟩ := h.every state hold
      exact ⟨row, (hx.rows row).2 (.inl hrow), hrs⟩
    · obtain ⟨row, hrow, hrs⟩ := ht.logged
      exact ⟨row, (hx.rows row).2 (.inr ⟨hrow, by omega⟩), by omega⟩
  · rw [hx.life hb, lawful_append, hstood x]
    exact ⟨h.lives x, (htop x).1⟩
  · rw [standsAt_top (fun row hrow => (hbelow row hrow).2), hx.life hb, standing_append, hstood x]
    exact (htop x).2

/-- A write that moved nothing and logged nothing. -/
theorem Recalled.quiet {whole t t' : Tables} (h : Recalled whole t) (hq : Quiet t t') :
    Recalled whole t' := by
  obtain ⟨horizon, hkept⟩ := h.forgot.kept
  refine ⟨⟨by rw [hq.sequence, h.forgot.sequence], horizon, fun row => ?_⟩, h.below, h.every,
    h.lives, fun x => ?_⟩
  · rw [hq.changes]
    exact hkept row
  · rw [hq.view]
    exact h.stands x

/-- The stores an account comes to from one of them. -/
inductive Later (start : Store) : Store → Prop
  | refl : Later start start
  | run {store : Store} (h : Later start store) (write : Write) (hw : write.Fresh store.tables) :
      Later start (store.run write).1
  | forgotten {store : Store} (h : Later start store) :
      Later start { store with moving := none, forgotten := true }
  | reopened {store : Store} (h : Later start store) :
      Later start { store with moving := none, forgotten := false }

theorem Later.reachable {start store : Store} (h : Later start store) (hr : Reachable start) :
    Reachable store := by
  induction h with
  | refl => exact hr
  | run _ write hw ih => exact .run ih write hw
  | forgotten _ ih => exact .forgotten ih
  | reopened _ ih => exact .reopened ih

/-- **The log of every reachable store is one**: it is consistent for the emails and the threads,
and what exists in it is what a client sees. -/
theorem Reachable.recalled {store : Store} (h : Reachable store) :
    ∃ whole, Recalled whole store.tables := by
  induction h with
  | fresh => exact ⟨_, Recalled.empty⟩
  | run h write hw ih =>
    obtain ⟨whole, hrec⟩ := ih
    obtain ⟨hinv, hq | ht⟩ := h.outcome hw
    · exact ⟨whole, hrec.quiet hq⟩
    · obtain ⟨whole', hrec', -⟩ := hrec.told hinv.below ht
      exact ⟨whole', hrec'⟩
  | forgotten _ ih => exact ih
  | reopened _ ih => exact ih

/-- What existed at an earlier store's state stays what the log says of it. -/
theorem Later.recalled {start store : Store} (h : Later start store) (hr : Reachable start) :
    ∃ whole, Recalled whole store.tables ∧ start.tables.sequence ≤ store.tables.sequence ∧
      ∀ x : Item, standsAt whole x.slot.1 start.tables.sequence x.slot.2 =
        (view start.tables x).isSome := by
  induction h with
  | refl =>
    obtain ⟨whole, hrec⟩ := Reachable.recalled hr
    exact ⟨whole, hrec, le_rfl, fun x => by rw [hrec.forgot.sequence]; exact hrec.stands x⟩
  | run hl write hw ih =>
    obtain ⟨whole, hrec, hle, hstands⟩ := ih
    obtain ⟨hinv, hq | ht⟩ := (hl.reachable hr).outcome hw
    · exact ⟨whole, hrec.quiet hq, by rw [hq.sequence]; exact hle, hstands⟩
    · obtain ⟨whole', hrec', -, hold⟩ := hrec.told hinv.below ht
      refine ⟨whole', hrec', by rw [ht.sequence]; omega, fun x => ?_⟩
      rw [hold _ _ (by rw [← hrec.forgot.sequence]; exact hle)]
      exact hstands x
  | forgotten _ ih => exact ih
  | reopened _ ih => exact ih

/-- **A client that follows `/changes` is never stale.** A replica that held the emails, or the
threads, of a store and catches up with a later store from the state it stood at holds those of
the later store. -/
theorem Later.caught_up {start store : Store} (h : Later start store) (hr : Reachable start)
    {key : String} {object : ObjectType} (ho : object ≠ .mailbox) {maxChanges : Option Nat}
    (hmax : maxChanges ≠ some 0) {ids ids' : Finset String}
    (hi : ∀ x : Item, x.slot.1 = object → (x.slot.2 ∈ ids ↔ (view start.tables x).isSome))
    (hc : CaughtUp ⟨key, store.tables⟩ object maxChanges start.tables.sequence.repr ids ids')
    {x : Item} (hx : x.slot.1 = object) : x.slot.2 ∈ ids' ↔ (view store.tables x).isSome := by
  obtain ⟨whole, hrec, -, hstands⟩ := h.recalled hr
  have hholds : Holds whole object start.tables.sequence ids := by
    intro id
    obtain ⟨y, rfl, rfl⟩ : ∃ y : Item, y.slot.1 = object ∧ y.slot.2 = id := by
      cases object with
      | mailbox => exact absurd rfl ho
      | email => exact ⟨.email id, rfl, rfl⟩
      | thread => exact ⟨.thread id, rfl, rfl⟩
    rw [hi y rfl, hstands y]
  have hforgot : Forgot whole (⟨key, store.tables⟩ : Context).store := hrec.forgot
  have hnow := hc.holds hforgot (hrec.consistent ho) hmax rfl hholds x.slot.2
  subst hx
  rw [hnow, hrec.stands x]

end Huliho.Jmap
