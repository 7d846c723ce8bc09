import Huliho.Jmap.Windows

/-!
# A client that follows `/changes`

What the folded answer is for. `whole` is the log an account would have had it never forgotten a
row, `Forgot whole t` says that `t` keeps its rows from some sequence on, and `Consistent` that the
lifelines of a type are lawful in it and every state has a row. `standsAt` is whether an id exists
at a state.

`Replicates` is what an answer is worth to a replica that holds the ids of the old state;
`changes_answers` and `changes_refused` settle one call, `CaughtUp` is a run of them and
`CaughtUp.ids` says where every run ends.
-/

namespace Huliho.Jmap

/-! ## What the log reads -/

theorem mem_readChanges {t : Tables} {object : ObjectType} {since : Nat} {c : Change} :
    c ∈ readChanges t object since ↔
      ⟨c.sequence, object, c.id, c.kind⟩ ∈ t.changes ∧ since < c.sequence := by
  simp only [readChanges, List.mem_insertionSort, List.mem_map, List.mem_filter, decide_eq_true_eq]
  constructor
  · rintro ⟨row, ⟨hrow, rfl, hs⟩, rfl⟩
    exact ⟨hrow, hs⟩
  · rintro ⟨hrow, hs⟩
    exact ⟨_, ⟨hrow, rfl, hs⟩, rfl⟩

instance : Std.Total Change.Before := ⟨fun a b => by
  rcases lt_trichotomy a.sequence b.sequence with h | h | h
  · exact .inl (.inl h)
  · exact (le_total a.id b.id).imp (fun hid => .inr ⟨h, hid⟩) fun hid => .inr ⟨h.symm, hid⟩
  · exact .inr (.inl h)⟩

instance : IsTrans Change Change.Before := ⟨fun a b c hab hbc => by
  unfold Change.Before at *
  rcases hab with hab | ⟨hab, hid⟩
  · omega
  · rcases hbc with hbc | ⟨hbc, hid'⟩
    · omega
    · exact .inr ⟨hab.trans hbc, hid.trans hid'⟩⟩

theorem readChanges_sorted (t : Tables) (object : ObjectType) (since : Nat) :
    (readChanges t object since).Pairwise Change.Before := List.pairwise_insertionSort _ _

theorem readChanges_ordered (t : Tables) (object : ObjectType) (since : Nat) :
    Ordered (readChanges t object since) := by
  refine (readChanges_sorted t object since).imp fun {a b} hab => ?_
  rcases hab with hab | hab
  · exact hab.le
  · exact hab.1.le

/-- Two rows of one read are of two sequences or of two ids. -/
def Change.Apart (a b : Change) : Prop := ¬(a.sequence = b.sequence ∧ a.id = b.id)

instance : Std.Symm Change.Apart := ⟨fun _ _ h hc => h ⟨hc.1.symm, hc.2.symm⟩⟩

/-- Under one sequence an id has one row. -/
theorem readChanges_apart (t : Tables) (object : ObjectType) (since : Nat) :
    (readChanges t object since).Pairwise Change.Apart := by
  refine (List.perm_insertionSort _ _).symm.pairwise ?_ fun {a b} h hc => h ⟨hc.1.symm, hc.2.symm⟩
  refine List.pairwise_map.2 ?_
  refine List.Pairwise.imp_of_mem (fun {a b} ha hb hab hc => hab ⟨hc.1, ?_, hc.2⟩)
    (t.changes.apart.filter _)
  have hobject := (of_decide_eq_true (List.mem_filter.1 ha).2).1
  exact hobject.trans (of_decide_eq_true (List.mem_filter.1 hb).2).1.symm

/-- **Two reads of the same rows are one list.** -/
theorem sorted_ext {xs ys : List Change} (hx : xs.Pairwise Change.Before)
    (hy : ys.Pairwise Change.Before) (ax : xs.Pairwise Change.Apart)
    (ay : ys.Pairwise Change.Apart) (h : ∀ c, c ∈ xs ↔ c ∈ ys) : xs = ys := by
  have hnodup : ∀ {zs : List Change}, zs.Pairwise Change.Apart → zs.Nodup := fun az =>
    az.imp fun {a b} hab heq => hab ⟨by rw [heq], by rw [heq]⟩
  have hperm := (List.perm_ext_iff_of_nodup (hnodup ax) (hnodup ay)).2 h
  refine hperm.eq_of_pairwise (fun a b ha hb hab hba => ?_) hx hy
  by_contra hne
  refine ax.forall ha ((h b).2 hb) hne ?_
  unfold Change.Before at hab hba
  rcases hab with hab | ⟨hab, hid⟩
  · omega
  · rcases hba with hba | ⟨-, hid'⟩
    · omega
    · exact ⟨hab, le_antisymm hid hid'⟩

/-- The rows after a state. -/
def after (rows : List Change) (state : Nat) : List Change :=
  rows.filter fun row => state < row.sequence

/-- **A log that forgot nothing the answer needs reads as the whole one.** -/
theorem readChanges_eq_after {whole t : Tables} {object : ObjectType} {since : Nat}
    (h : ∀ row : LogRow, since < row.sequence → (row ∈ t.changes ↔ row ∈ whole.changes)) :
    readChanges t object since = after (readChanges whole object 0) since := by
  refine sorted_ext (readChanges_sorted t object since)
    ((readChanges_sorted whole object 0).filter _) (readChanges_apart t object since)
    ((readChanges_apart whole object 0).filter _) fun c => ?_
  simp only [after, List.mem_filter, mem_readChanges, decide_eq_true_eq]
  constructor
  · rintro ⟨hrow, hs⟩
    exact ⟨⟨(h _ hs).1 hrow, by omega⟩, hs⟩
  · rintro ⟨⟨hrow, -⟩, hs⟩
    exact ⟨(h _ hs).2 hrow, hs⟩

/-! ## Rows up to a state and after it -/

theorem mem_after {rows : List Change} {state : Nat} {row : Change} :
    row ∈ after rows state ↔ row ∈ rows ∧ state < row.sequence := by
  simp [after]

theorem after_ordered {rows : List Change} (ho : Ordered rows) (state : Nat) :
    Ordered (after rows state) := List.Pairwise.filter _ ho

theorem upTo_append_after {rows : List Change} (ho : Ordered rows) (state : Nat) :
    upTo rows state ++ after rows state = rows := by
  induction rows with
  | nil => rfl
  | cons row rows ih =>
    obtain ⟨hrow, ho⟩ := List.pairwise_cons.1 ho
    by_cases hs : row.sequence ≤ state
    · have hup : upTo (row :: rows) state = row :: upTo rows state := by simp [upTo, hs]
      have haf : after (row :: rows) state = after rows state := by simp [after, hs]
      rw [hup, haf, List.cons_append, ih ho]
    · have hup : upTo (row :: rows) state = [] := by
        refine List.filter_eq_nil_iff.2 fun a ha => ?_
        rcases List.mem_cons.1 ha with rfl | ha
        · simpa using hs
        · have := hrow a ha
          simp only [decide_eq_true_eq]
          omega
      have haf : after (row :: rows) state = row :: rows := by
        refine List.filter_eq_self.2 fun a ha => ?_
        rcases List.mem_cons.1 ha with rfl | ha
        · simpa using hs
        · have := hrow a ha
          simp only [decide_eq_true_eq]
          omega
      rw [hup, haf, List.nil_append]

/-- The rows up to a later state are those up to an earlier one and the window between. -/
theorem upTo_eq_append {rows : List Change} (ho : Ordered rows) {since state : Nat}
    (hs : since ≤ state) : upTo rows state = upTo rows since ++ upTo (after rows since) state := by
  have hsplit := upTo_append_after ho since
  have hfirst : upTo (upTo rows since) state = upTo rows since :=
    upTo_of_le fun row hrow => ((mem_upTo.1 hrow).2).trans hs
  conv_lhs => rw [← hsplit]
  rw [upTo, List.filter_append, ← upTo, ← upTo, hfirst]

/-! ## Consistent logs -/

/-- `t` is `whole` after its log forgot some rows: it keeps those from a sequence on. -/
structure Forgot (whole t : Tables) : Prop where
  sequence : t.sequence = whole.sequence
  kept : ∃ horizon, ∀ row : LogRow,
    row ∈ t.changes ↔ row ∈ whole.changes ∧ horizon ≤ row.sequence

/-- The lifelines of a type are lawful, and every state the counter has passed has a row. -/
structure Consistent (whole : Tables) (object : ObjectType) : Prop where
  lives : ∀ id, Lawful false (lifeOf id (readChanges whole object 0))
  below : ∀ row ∈ whole.changes, 0 < row.sequence ∧ row.sequence ≤ whole.sequence
  every : ∀ state < whole.sequence, ∃ row ∈ whole.changes, row.sequence = state + 1

/-- Whether an id exists at a state. -/
def standsAt (whole : Tables) (object : ObjectType) (state : Nat) (id : String) : Bool :=
  standing false (lifeOf id (upTo (readChanges whole object 0) state))

/-- The rows of a type between two states. -/
def between (whole : Tables) (object : ObjectType) (since state : Nat) : List Change :=
  upTo (after (readChanges whole object 0) since) state

section
variable {whole : Tables} {object : ObjectType} {since state : Nat}

theorem mem_between {c : Change} :
    c ∈ between whole object since state ↔
      ⟨c.sequence, object, c.id, c.kind⟩ ∈ whole.changes ∧ since < c.sequence ∧
        c.sequence ≤ state := by
  rw [between, mem_upTo, mem_after, mem_readChanges]
  constructor
  · rintro ⟨⟨⟨hrow, -⟩, hs⟩, hle⟩
    exact ⟨hrow, hs, hle⟩
  · rintro ⟨hrow, hs, hle⟩
    exact ⟨⟨⟨hrow, by omega⟩, hs⟩, hle⟩

/-- An id's existence later on is its existence before, taken along its rows between. -/
theorem standsAt_eq (hs : since ≤ state) (id : String) :
    standsAt whole object state id =
      standing (standsAt whole object since id) (lifeOf id (between whole object since state)) := by
  rw [standsAt, upTo_eq_append (readChanges_ordered whole object 0) hs, lifeOf_append,
    standing_append]
  rfl

theorem Consistent.lawful_between (hc : Consistent whole object) (hs : since ≤ state)
    (id : String) :
    Lawful (standsAt whole object since id) (lifeOf id (between whole object since state)) := by
  have hlife := hc.lives id
  have ho := readChanges_ordered whole object 0
  rw [← upTo_append_after ho state, lifeOf_append, lawful_append, upTo_eq_append ho hs,
    lifeOf_append, lawful_append] at hlife
  exact hlife.1.2

/-- **The fate of an id between two states**: none if it has no row there, and otherwise what its
existence at the two says. -/
theorem Consistent.fate (hc : Consistent whole object) (hs : since ≤ state) (id : String) :
    (fatesOf (between whole object since state))[id]? =
      if lifeOf id (between whole object since state) = [] then none
      else some (Fate.between (standsAt whole object since id)
        (standsAt whole object state id)) := by
  rw [fatesOf_get]
  split
  · rename_i hnil
    rw [hnil]
    rfl
  · rename_i hne
    rw [Fate.of_lawful (hc.lawful_between hs id) hne, standsAt_eq hs id]

theorem between_row {id : String} : lifeOf id (between whole object since state) ≠ [] ↔
    ∃ row ∈ whole.changes, row.slot = (object, id) ∧ since < row.sequence ∧
      row.sequence ≤ state := by
  rw [lifeOf_ne_nil]
  constructor
  · rintro ⟨c, hin, rfl⟩
    obtain ⟨hin, hs⟩ := mem_between.1 hin
    exact ⟨_, hin, rfl, hs⟩
  · rintro ⟨row, hin, hslot, hs⟩
    obtain ⟨rfl, rfl⟩ := Prod.mk.inj hslot
    exact ⟨⟨row.sequence, row.id, row.kind⟩, mem_between.2 ⟨hin, hs⟩, rfl⟩

/-- An id without a row between two states exists at both or at neither. -/
theorem standsAt_of_nil (hs : since ≤ state) {id : String}
    (h : lifeOf id (between whole object since state) = []) :
    standsAt whole object state id = standsAt whole object since id := by
  rw [standsAt_eq hs, h]
  rfl

theorem Consistent.mem_created (hc : Consistent whole object) (hs : since ≤ state) {id : String} :
    id ∈ ofFate (fatesOf (between whole object since state)) .created ↔
      standsAt whole object since id = false ∧ standsAt whole object state id = true := by
  rw [mem_ofFate, hc.fate hs]
  split
  · rename_i hnil
    rw [standsAt_of_nil hs hnil]
    cases standsAt whole object since id <;> simp
  · cases standsAt whole object since id <;>
      cases standsAt whole object state id <;> simp [Fate.between]

theorem Consistent.mem_destroyed (hc : Consistent whole object) (hs : since ≤ state)
    {id : String} :
    id ∈ ofFate (fatesOf (between whole object since state)) .destroyed ↔
      standsAt whole object since id = true ∧ standsAt whole object state id = false := by
  rw [mem_ofFate, hc.fate hs]
  split
  · rename_i hnil
    rw [standsAt_of_nil hs hnil]
    cases standsAt whole object since id <;> simp
  · cases standsAt whole object since id <;>
      cases standsAt whole object state id <;> simp [Fate.between]

theorem Consistent.mem_updated (hc : Consistent whole object) (hs : since ≤ state) {id : String} :
    id ∈ ofFate (fatesOf (between whole object since state)) .updated ↔
      (∃ row ∈ whole.changes, row.slot = (object, id) ∧ since < row.sequence ∧
        row.sequence ≤ state) ∧
        standsAt whole object since id = true ∧ standsAt whole object state id = true := by
  rw [mem_ofFate, hc.fate hs, ← between_row]
  split
  · rename_i hnil
    simp [hnil]
  · rename_i hne
    cases standsAt whole object since id <;>
      cases standsAt whole object state id <;> simp [Fate.between, hne]

end

/-! ## The log a state reads -/

/-- The log has forgotten a row after the state. -/
def Lost (whole t : Tables) (since : Nat) : Prop :=
  ∃ row ∈ whole.changes, row ∉ t.changes ∧ since < row.sequence

section
variable {whole t : Tables} {object : ObjectType} {since : Nat}

theorem oldestKept_eq_some {oldest : Nat} :
    oldestKept t = some oldest ↔
      (∃ row ∈ t.changes, row.sequence = oldest) ∧ ∀ row ∈ t.changes, oldest ≤ row.sequence := by
  simp [oldestKept, List.min?_eq_some_iff, Table.mem_def]

theorem oldestKept_eq_none : oldestKept t = none ↔ ∀ row, row ∉ t.changes := by
  simp [oldestKept, Table.mem_def, List.eq_nil_iff_forall_not_mem]

/-- A state that reads has every row after it. -/
theorem Forgot.after_of_some (hf : Forgot whole t) (hc : Consistent whole object)
    {rows : List Change} (h : (changesSince t object since).changes = some rows) :
    since ≤ whole.sequence ∧ ¬ Lost whole t since ∧
      rows = after (readChanges whole object 0) since := by
  obtain ⟨horizon, hkept⟩ := hf.kept
  simp only [changesSince, stateOf, hf.sequence] at h
  split at h
  · cases h
  · rename_i hle
    have hkeeps : (∀ row ∈ whole.changes, since < row.sequence → row ∈ t.changes) ∧
        rows = readChanges t object since := by
      split at h
      · rename_i hnone
        split at h
        · rename_i hs
          refine ⟨fun row hrow hlt => ?_, ?_⟩
          · have := (hc.below row hrow).2
            omega
          · rw [← Option.some.inj h]
            refine (List.eq_nil_iff_forall_not_mem.2 fun c hin => ?_).symm
            exact oldestKept_eq_none.1 hnone _ (mem_readChanges.1 hin).1
        · cases h
      · rename_i oldest hsome
        split at h
        · cases h
        · rename_i hold
          obtain ⟨⟨first, hfirst, rfl⟩, -⟩ := oldestKept_eq_some.1 hsome
          refine ⟨fun row hrow hlt => (hkept row).2 ⟨hrow, ?_⟩, (Option.some.inj h).symm⟩
          have := ((hkept first).1 hfirst).2
          omega
    refine ⟨by omega, fun ⟨row, hrow, hgone, hlt⟩ => hgone (hkeeps.1 row hrow hlt), ?_⟩
    rw [hkeeps.2]
    exact readChanges_eq_after fun row hs => ⟨fun h => ((hkept row).1 h).1, fun h =>
      hkeeps.1 row h hs⟩

/-- **A state does not read** exactly where it is ahead of the counter or a row after it is
gone. -/
theorem Forgot.changes_eq_none (hf : Forgot whole t) (hc : Consistent whole object) :
    (changesSince t object since).changes = none ↔
      whole.sequence < since ∨ Lost whole t since := by
  constructor
  · intro h
    simp only [changesSince, stateOf, hf.sequence] at h
    by_cases hle : since > whole.sequence
    · exact .inl hle
    · right
      rw [if_neg hle] at h
      have hnext : since < whole.sequence ∧ ∀ row ∈ t.changes, row.sequence ≠ since + 1 := by
        split at h
        · rename_i hnone
          split at h
          · cases h
          · exact ⟨by omega, fun row hrow => absurd hrow (oldestKept_eq_none.1 hnone row)⟩
        · rename_i oldest hsome
          split at h
          · rename_i hold
            obtain ⟨⟨first, hfirst, rfl⟩, hmin⟩ := oldestKept_eq_some.1 hsome
            obtain ⟨horizon, hkept⟩ := hf.kept
            have := (hc.below first ((hkept first).1 hfirst).1).2
            refine ⟨by omega, fun row hrow hs => ?_⟩
            have := hmin row hrow
            omega
          · cases h
      obtain ⟨row, hrow, hs⟩ := hc.every since hnext.1
      exact ⟨row, hrow, fun hin => hnext.2 row hin hs, by omega⟩
  · intro h
    cases hrows : (changesSince t object since).changes with
    | none => rfl
    | some rows =>
      obtain ⟨hle, hkept, -⟩ := hf.after_of_some hc hrows
      rcases h with h | h
      · omega
      · exact absurd h hkept

end

/-! ## The first sequence -/

/-- Rows of one sequence list every id they name. -/
theorem listing_eq_length {rows : List Change} (hr : rows.Pairwise Change.Apart) {s : Nat}
    (hs : ∀ row ∈ rows, row.sequence = s) : listing rows = rows.length := by
  induction rows using List.reverseRecOn with
  | nil => exact listing_nil
  | append_singleton rows row ih =>
    obtain ⟨hrows, -, hrow⟩ := List.pairwise_append.1 hr
    have hnew : lifeOf row.id rows = [] := by
      by_contra hc
      obtain ⟨a, ha, hid⟩ := lifeOf_ne_nil.1 hc
      exact hrow a ha row (by simp) ⟨(hs a (by simp [ha])).trans (hs row (by simp)).symm, hid⟩
    have hnone : (fatesOf rows)[row.id]? = none := by
      rw [fatesOf_get, hnew]
      rfl
    have hcount := card_listedIds_advance (fatesOf rows) row
    have hlisted : (Fate.start row.kind).listed = true := by cases row.kind <;> rfl
    have hinit := ih hrows fun a ha => hs a (by simp [ha])
    rw [listing] at hinit
    simp only [advance, hnone, Option.elim_none, hlisted, Bool.toNat_true, Option.any_none,
      Bool.toNat_false, Nat.sub_zero, hinit] at hcount
    rw [listing, fatesOf_concat, List.length_append, List.length_singleton, ← hcount]
    simp only [advance, hnone, Option.elim_none]

/-- The first sequence of a type after a state, with its rows. -/
def FirstAfter (whole : Tables) (object : ObjectType) (since : Nat) (rows : List Change) : Prop :=
  ∃ first, (∃ row ∈ rows, row.sequence = first) ∧ since < first ∧
    rows = (readChanges whole object 0).filter (fun row => row.sequence = first) ∧
    ∀ row ∈ readChanges whole object 0, since < row.sequence → first ≤ row.sequence

section
variable {whole : Tables} {object : ObjectType} {since : Nat}

/-- What the first sequence lists are its rows. -/
theorem listing_first {first : Change}
    (h : first ∈ (after (readChanges whole object 0) since).head?) :
    ∃ rows, FirstAfter whole object since rows ∧
      listing (upTo (after (readChanges whole object 0) since) first.sequence) = rows.length := by
  have hin := List.mem_of_head? h
  obtain ⟨hfirst, hs⟩ := mem_after.1 hin
  have hmin : ∀ row ∈ after (readChanges whole object 0) since, first.sequence ≤ row.sequence := by
    intro row hrow
    have ho := after_ordered (readChanges_ordered whole object 0) since
    obtain ⟨rest, hrest⟩ := List.head?_eq_some_iff.1 h
    rw [hrest] at ho hrow
    rcases List.mem_cons.1 hrow with rfl | hrow
    · exact le_rfl
    · exact (List.pairwise_cons.1 ho).1 row hrow
  have hrows : upTo (after (readChanges whole object 0) since) first.sequence =
      (readChanges whole object 0).filter (fun row => row.sequence = first.sequence) := by
    rw [upTo, after, List.filter_filter]
    refine List.filter_congr fun row hrow => ?_
    rw [← Bool.decide_and, decide_eq_decide]
    constructor
    · rintro ⟨hle, hlt⟩
      exact le_antisymm hle (hmin row (mem_after.2 ⟨hrow, hlt⟩))
    · intro heq
      omega
  refine ⟨_, ⟨first.sequence, ⟨first, ?_, rfl⟩, hs, rfl, fun row hrow hlt =>
    hmin row (mem_after.2 ⟨hrow, hlt⟩)⟩, ?_⟩
  · simp [hfirst]
  · rw [hrows]
    refine listing_eq_length (s := first.sequence) ((readChanges_apart whole object 0).filter _)
      fun row hrow => ?_
    exact of_decide_eq_true (List.mem_filter.1 hrow).2

theorem FirstAfter.unique {rows rows' : List Change} (h : FirstAfter whole object since rows)
    (h' : FirstAfter whole object since rows') : rows = rows' := by
  obtain ⟨first, ⟨row, hrow, hs⟩, hlt, hrows, hmin⟩ := h
  obtain ⟨first', ⟨row', hrow', hs'⟩, hlt', hrows', hmin'⟩ := h'
  have hin : row ∈ readChanges whole object 0 := by
    rw [hrows] at hrow
    exact (List.mem_filter.1 hrow).1
  have hin' : row' ∈ readChanges whole object 0 := by
    rw [hrows'] at hrow'
    exact (List.mem_filter.1 hrow').1
  have hle := hmin row' hin' (by omega)
  have hge := hmin' row hin (by omega)
  obtain rfl : first = first' := by omega
  rw [hrows, hrows']

/-- **A fold over the rows after a state has no window** exactly where the first sequence alone
has more rows than the cap. -/
theorem fold_after_eq_none {maxChanges : Option Nat} {current : Nat} :
    fold (after (readChanges whole object 0) since) maxChanges current = none ↔
      ∃ max ∈ maxChanges, ∃ rows, FirstAfter whole object since rows ∧ max < rows.length := by
  rw [fold_eq_none (after_ordered (readChanges_ordered whole object 0) since)]
  constructor
  · rintro ⟨max, hmax, first, hfirst, hpast⟩
    obtain ⟨rows, hrows, hlen⟩ := listing_first hfirst
    exact ⟨max, hmax, rows, hrows, by omega⟩
  · rintro ⟨max, hmax, rows, hrows, hpast⟩
    obtain ⟨_, ⟨row, hrow, hs⟩, hlt, heq, -⟩ := id hrows
    have hin : row ∈ after (readChanges whole object 0) since := by
      rw [heq] at hrow
      exact mem_after.2 ⟨(List.mem_filter.1 hrow).1, by omega⟩
    obtain ⟨first, rest, hhead⟩ := List.exists_cons_of_ne_nil (List.ne_nil_of_mem hin)
    have hfirst : first ∈ (after (readChanges whole object 0) since).head? := by
      rw [hhead]
      rfl
    obtain ⟨rows', hrows', hlen⟩ := listing_first hfirst
    rw [hrows.unique hrows'] at hpast
    exact ⟨max, hmax, first, hfirst, by omega⟩

end

/-! ## One call -/

/-- A call for an account's own changes since a state. -/
def ask (context : Context) (object : ObjectType) (since : Nat) (maxChanges : Option Nat) :
    Except MethodError ChangesAnswer :=
  changes context ⟨context.key, since.repr, maxChanges⟩ object

/-- What an answer is worth to a replica that holds the ids of the old state. -/
structure Replicates (whole : Tables) (object : ObjectType) (since : Nat)
    (maxChanges : Option Nat) (answer : ChangesAnswer) (state : Nat) : Prop where
  newState : answer.newState = state.repr
  within : since ≤ state ∧ state ≤ whole.sequence
  disjoint : answer.created.Disjoint answer.updated ∧ answer.created.Disjoint answer.destroyed ∧
    answer.updated.Disjoint answer.destroyed
  /-- The ids of the old state without the destroyed ones and with the created ones are the ids of
  the new one. -/
  ids : ∀ id, standsAt whole object state id ↔
    (standsAt whole object since id ∧ id ∉ answer.destroyed) ∨ id ∈ answer.created
  updated : ∀ id, id ∈ answer.updated ↔ (∃ row ∈ whole.changes, row.slot = (object, id) ∧
    since < row.sequence ∧ row.sequence ≤ state) ∧ standsAt whole object since id ∧
      standsAt whole object state id
  capped : ∀ max ∈ maxChanges,
    answer.created.length + answer.updated.length + answer.destroyed.length ≤ max
  more : answer.hasMoreChanges = true → since < state
  reaches : answer.hasMoreChanges = false → state = whole.sequence
  uncapped : maxChanges = none → answer.hasMoreChanges = false

section
variable {whole : Tables} {context : Context} {object : ObjectType} {since : Nat}
  {maxChanges : Option Nat}

/-- How a call comes out: the rows after the state, folded, or a refusal. -/
theorem ask_eq (hmax : maxChanges ≠ some 0) :
    ask context object since maxChanges =
      (calculated (changesSince context.store object since).changes).bind fun rows =>
        (calculated (fold rows maxChanges context.store.sequence)).bind fun window =>
          .ok ⟨context.key, since.repr, window.newState.repr, window.hasMore, window.created,
            window.updated, window.destroyed⟩ := by
  simp [ask, changes, Context.account, checked, hmax, bind, Except.bind, pure, Except.pure,
    calculated, changesSince, stateOf]

theorem Consistent.row_le (hc : Consistent whole object) {c : Change}
    (h : c ∈ after (readChanges whole object 0) since) : c.sequence ≤ whole.sequence :=
  (hc.below _ (mem_readChanges.1 (mem_after.1 h).1).1).2

/-- The state a window reaches lies after the old one where the log holds more. -/
theorem Folds.reached (hc : Consistent whole object) (hs : since ≤ whole.sequence) {window : Window}
    (h : Folds (after (readChanges whole object 0) since) maxChanges whole.sequence window) :
    since ≤ window.newState ∧ window.newState ≤ whole.sequence ∧
      (window.hasMore = true → since < window.newState) := by
  cases hm : window.hasMore with
  | false =>
    rw [h.last hm]
    exact ⟨hs, le_rfl, by simp⟩
  | true =>
    obtain ⟨row, hrow, hrs⟩ := h.more hm
    have hlt := (mem_after.1 hrow).2
    have htop := hc.row_le hrow
    exact ⟨by omega, by omega, fun _ => by omega⟩

/-- **An answer takes a replica on.** -/
theorem ask_answers (hf : Forgot whole context.store) (hc : Consistent whole object)
    (hmax : maxChanges ≠ some 0) {answer : ChangesAnswer}
    (h : ask context object since maxChanges = .ok answer) :
    ∃ state, Replicates whole object since maxChanges answer state := by
  rw [ask_eq hmax] at h
  obtain ⟨rows, hrows, hfolded⟩ := Except.bind_eq_ok.1 h
  obtain ⟨window, hwindow, hanswer⟩ := Except.bind_eq_ok.1 hfolded
  rw [calculated_eq_ok] at hrows hwindow
  obtain ⟨hle, -, rfl⟩ := hf.after_of_some hc hrows
  rw [hf.sequence] at hwindow
  have hfold := fold_spec (after_ordered (readChanges_ordered whole object 0) since)
    (fun row hrow => hc.row_le hrow) hwindow
  obtain ⟨hreached, htop, hmore⟩ := hfold.reached hc hle
  obtain rfl := Except.ok.inj hanswer
  refine ⟨window.newState, rfl, ⟨hreached, htop⟩, ?_, fun id => ?_, fun id => ?_, ?_, hmore,
    hfold.last, hfold.uncapped⟩
  · simp only [hfold.created, hfold.updated, hfold.destroyed]
    exact ⟨ofFate_disjoint (by decide), ofFate_disjoint (by decide), ofFate_disjoint (by decide)⟩
  · simp only [hfold.created, hfold.destroyed]
    rw [← between, hc.mem_created hreached, hc.mem_destroyed hreached]
    cases standsAt whole object since id <;>
      cases standsAt whole object window.newState id <;> simp
  · simp only [hfold.updated]
    rw [← between, hc.mem_updated hreached]
  · intro max hmax
    have hcap := hfold.capped max hmax
    rw [listing, card_listedIds, ← hfold.created, ← hfold.updated, ← hfold.destroyed] at hcap
    exact hcap

/-- **A call is refused** exactly where the state is ahead of the counter, a row after it is gone,
or the first sequence after it alone has more rows than the cap. -/
theorem ask_refused (hf : Forgot whole context.store) (hc : Consistent whole object)
    (hmax : maxChanges ≠ some 0) {error : MethodError} :
    ask context object since maxChanges = .error error ↔
      error = .cannotCalculateChanges ∧ (whole.sequence < since ∨
        Lost whole context.store since ∨ ∃ max ∈ maxChanges, ∃ rows,
          FirstAfter whole object since rows ∧ max < rows.length) := by
  rw [ask_eq hmax, ← or_assoc, ← hf.changes_eq_none hc]
  cases hrows : (changesSince context.store object since).changes with
  | none => simp [calculated, Except.bind, eq_comm]
  | some rows =>
    obtain ⟨-, -, rfl⟩ := hf.after_of_some hc hrows
    have hnone : fold (after (readChanges whole object 0) since) maxChanges
        context.store.sequence = none ↔ _ := fold_after_eq_none
    rw [← hnone]
    cases hw : fold (after (readChanges whole object 0) since) maxChanges context.store.sequence <;>
      simp [calculated, Except.bind, hw, eq_comm]

end

/-! ## A run of calls -/

/-- What a replica makes of an answer. -/
def ChangesAnswer.apply (answer : ChangesAnswer) (ids : Finset String) : Finset String :=
  (ids \ answer.destroyed.toFinset) ∪ answer.created.toFinset

/-- The replica holds the ids of a state. -/
def Holds (whole : Tables) (object : ObjectType) (state : Nat) (ids : Finset String) : Prop :=
  ∀ id, id ∈ ids ↔ standsAt whole object state id

/-- A replica asks from a state, takes the answer in and asks again from the state it names, until
an answer says that there is no more. -/
inductive CaughtUp (context : Context) (object : ObjectType) (maxChanges : Option Nat) :
    String → Finset String → Finset String → Prop
  | last {state : String} {ids : Finset String} {answer : ChangesAnswer}
      (h : changes context ⟨context.key, state, maxChanges⟩ object = .ok answer)
      (hm : answer.hasMoreChanges = false) :
      CaughtUp context object maxChanges state ids (answer.apply ids)
  | more {state : String} {ids ids' : Finset String} {answer : ChangesAnswer}
      (h : changes context ⟨context.key, state, maxChanges⟩ object = .ok answer)
      (hm : answer.hasMoreChanges = true)
      (rest : CaughtUp context object maxChanges answer.newState (answer.apply ids) ids') :
      CaughtUp context object maxChanges state ids ids'

section
variable {whole : Tables} {context : Context} {object : ObjectType} {since : Nat}
  {maxChanges : Option Nat}

theorem Replicates.holds {answer : ChangesAnswer} {state : Nat} {ids : Finset String}
    (h : Replicates whole object since maxChanges answer state)
    (hi : Holds whole object since ids) : Holds whole object state (answer.apply ids) := by
  intro id
  rw [h.ids id, ← hi id]
  simp [ChangesAnswer.apply]

/-- **A run of calls ends at the ids of the current state.** -/
theorem CaughtUp.holds (hf : Forgot whole context.store) (hc : Consistent whole object)
    (hmax : maxChanges ≠ some 0) {state : String} {ids ids' : Finset String}
    (h : CaughtUp context object maxChanges state ids ids') (hs : state = since.repr)
    (hi : Holds whole object since ids) : Holds whole object whole.sequence ids' := by
  induction h generalizing since with
  | last h hm =>
    subst hs
    obtain ⟨state, hr⟩ := ask_answers hf hc hmax h
    rw [← hr.reaches hm]
    exact hr.holds hi
  | more h hm _ ih =>
    subst hs
    obtain ⟨state, hr⟩ := ask_answers hf hc hmax h
    exact ih hr.newState (hr.holds hi)

/-- A state the log reads answers, unless the first sequence after it is past the cap. -/
theorem ask_isOk (hf : Forgot whole context.store) (hc : Consistent whole object)
    (hmax : maxChanges ≠ some 0) (hs : since ≤ whole.sequence)
    (hl : ¬ Lost whole context.store since) :
    (∃ answer, ask context object since maxChanges = .ok answer) ∨
      ∃ max ∈ maxChanges, ∃ rows, FirstAfter whole object since rows ∧ max < rows.length := by
  cases h : ask context object since maxChanges with
  | ok answer => exact .inl ⟨answer, rfl⟩
  | error error =>
    rcases ((ask_refused hf hc hmax).1 h).2 with hahead | hlost | hpast
    · omega
    · exact absurd hlost hl
    · exact .inr hpast

/-- **A run of calls gets there**, unless it comes to a state whose next sequence alone is past
the cap: every answer but the last moves the state on. -/
theorem caughtUp_or_past (hf : Forgot whole context.store) (hc : Consistent whole object)
    (hmax : maxChanges ≠ some 0) (hs : since ≤ whole.sequence)
    (hl : ¬ Lost whole context.store since) (ids : Finset String) :
    (∃ ids', CaughtUp context object maxChanges since.repr ids ids') ∨
      ∃ state, since ≤ state ∧ ∃ max ∈ maxChanges, ∃ rows,
        FirstAfter whole object state rows ∧ max < rows.length := by
  induction hn : whole.sequence - since using Nat.strongRecOn generalizing since ids with
  | ind n ih =>
    rcases ask_isOk hf hc hmax hs hl with ⟨answer, h⟩ | hpast
    · obtain ⟨state, hr⟩ := ask_answers hf hc hmax h
      cases hm : answer.hasMoreChanges with
      | false => exact .inl ⟨_, .last h hm⟩
      | true =>
        have hlt := hr.more hm
        have htop := hr.within.2
        have hl' : ¬ Lost whole context.store state := fun ⟨row, hrow, hgone, hrs⟩ =>
          hl ⟨row, hrow, hgone, by omega⟩
        rcases ih _ (by omega) htop hl' (answer.apply ids) rfl with ⟨ids', hrest⟩ | hpast
        · exact .inl ⟨ids', .more h hm (hr.newState ▸ hrest)⟩
        · obtain ⟨later, hle, hpast⟩ := hpast
          exact .inr ⟨later, by omega, hpast⟩
    · exact .inr ⟨since, le_rfl, hpast⟩

/-- **A folded answer is a faithful step for a replica.** Over a consistent log, for every state
and every cap above zero: an answer takes the ids of the old state to those of the new one and
names what was updated; a refusal has one of its three reasons; a run of capped calls, which only a
sequence past the cap can stop, ends where one uncapped call does. -/
theorem changes_faithful (hf : Forgot whole context.store) (hc : Consistent whole object)
    (hmax : maxChanges ≠ some 0) :
    (∀ answer, ask context object since maxChanges = .ok answer →
      ∃ state, Replicates whole object since maxChanges answer state) ∧
    (∀ error, ask context object since maxChanges = .error error ↔
      error = .cannotCalculateChanges ∧ (whole.sequence < since ∨
        Lost whole context.store since ∨ ∃ max ∈ maxChanges, ∃ rows,
          FirstAfter whole object since rows ∧ max < rows.length)) ∧
    (since ≤ whole.sequence → ¬ Lost whole context.store since →
      ∀ ids, Holds whole object since ids →
        ((∃ ids', CaughtUp context object maxChanges since.repr ids ids') ∨
          ∃ state, since ≤ state ∧ ∃ max ∈ maxChanges, ∃ rows,
            FirstAfter whole object state rows ∧ max < rows.length) ∧
        ∃ answer, ask context object since none = .ok answer ∧ answer.hasMoreChanges = false ∧
          ∀ ids', CaughtUp context object maxChanges since.repr ids ids' →
            ids' = answer.apply ids) := by
  refine ⟨fun answer h => ask_answers hf hc hmax h, fun error => ask_refused hf hc hmax,
    fun hs hl ids hi => ⟨caughtUp_or_past hf hc hmax hs hl ids, ?_⟩⟩
  have hfree : (none : Option Nat) ≠ some 0 := by simp
  rcases ask_isOk hf hc hfree hs hl with ⟨answer, h⟩ | ⟨_, hnone, _⟩
  · obtain ⟨state, hr⟩ := ask_answers hf hc hfree h
    have hm := hr.uncapped rfl
    have hnow := hr.holds hi
    rw [hr.reaches hm] at hnow
    refine ⟨answer, h, hm, fun ids' hrun => Finset.ext fun id => ?_⟩
    rw [hrun.holds hf hc hmax rfl hi id, hnow id]
  · cases hnone

end

/-! ## A concrete log -/

/-- A log consistent for the ids it names is consistent. -/
theorem lawful_of_rows {rows : List Change}
    (h : ∀ row ∈ rows, Lawful false (lifeOf row.id rows)) (id : String) :
    Lawful false (lifeOf id rows) := by
  by_cases hne : lifeOf id rows = []
  · rw [hne]
    trivial
  · obtain ⟨row, hrow, rfl⟩ := lifeOf_ne_nil.1 hne
    exact h row hrow

/-- Five states in which one email comes, moves, goes and comes again, and one comes and goes. -/
def fiveStates : Tables :=
  { Tables.empty with
    sequence := 5
    changes := ⟨[⟨1, .email, "a", .created⟩, ⟨1, .email, "b", .created⟩,
      ⟨2, .email, "a", .updated⟩, ⟨3, .email, "a", .destroyed⟩, ⟨4, .email, "a", .created⟩,
      ⟨5, .email, "b", .destroyed⟩], by decide⟩ }

/-- The same log after it forgot its first state. -/
def fourKept : Tables :=
  { fiveStates with changes := fiveStates.changes.delete fun row => row.sequence < 2 }

theorem fourKept_forgot : Forgot fiveStates fourKept :=
  ⟨rfl, 2, fun row => by
    show row ∈ fiveStates.changes.delete _ ↔ _
    rw [Table.mem_delete, Nat.not_lt]⟩

theorem fiveStates_consistent : Consistent fiveStates .email := by
  refine ⟨lawful_of_rows (by decide +kernel), ?_, ?_⟩
  · exact (by decide +kernel : ∀ row ∈ fiveStates.changes.rows,
      0 < row.sequence ∧ row.sequence ≤ fiveStates.sequence)
  · exact (by decide +kernel : ∀ state < fiveStates.sequence,
      ∃ row ∈ fiveStates.changes.rows, row.sequence = state + 1)

/-- From the first state, one id at a time, the answer leads to the fourth state; the state before
it is forgotten. -/
theorem changes_faithful_kept :
    (ask ⟨"a1", fourKept⟩ .email 1 (some 1) =
        .ok ⟨"a1", "1", "4", true, [], ["a"], []⟩ ∧
      ∃ state, Replicates fiveStates .email 1 (some 1)
        ⟨"a1", "1", "4", true, [], ["a"], []⟩ state) ∧
    ask ⟨"a1", fourKept⟩ .email 0 (some 1) = .error .cannotCalculateChanges := by
  have hone : ask ⟨"a1", fourKept⟩ .email 1 (some 1) =
      .ok ⟨"a1", "1", "4", true, [], ["a"], []⟩ := by decide +kernel
  have hlost : Lost fiveStates fourKept 0 :=
    ⟨⟨1, .email, "a", .created⟩, (by decide +kernel : _ ∈ fiveStates.changes.rows),
      (by decide +kernel : _ ∉ fourKept.changes.rows), by decide⟩
  have hf : Forgot fiveStates (⟨"a1", fourKept⟩ : Context).store := fourKept_forgot
  refine ⟨⟨hone, (changes_faithful hf fiveStates_consistent (by decide)).1 _ hone⟩, ?_⟩
  exact ((changes_faithful hf fiveStates_consistent (by decide)).2.1 _).2 ⟨rfl, .inr (.inl hlost)⟩

end Huliho.Jmap
