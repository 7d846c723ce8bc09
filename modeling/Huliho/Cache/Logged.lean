import Huliho.Lib.Loops
import Huliho.Cache.Restated

/-!
# What a change and its undoing leave of one email

**`takeBack_of`** says which rows stay of an email some of whose rows leave, and the state it
returns to; **`mutateMany_of`** which rows a call adds to the log of an email, and the state they
leave. Both read the email as the store knows it.
-/

namespace Huliho.Cache

variable {store : Store} {id : EmailId} {threadId : ThreadId} {k : KnownEmail}

/-! ## Rows taken back -/

section TakeBack

variable {leaving : List Nat}

/-- The references of the rows that leave. -/
def takenRefs (store : Store) (leaving : List Nat) : List EmailRef :=
  (store.pending.rows.filter fun row => row.seq ∈ leaving).map fun row => ⟨row.id, row.threadId⟩

/-- The emails of the rows that leave, as the store knows them. -/
def takenKnown (store : Store) (leaving : List Nat) : EmailId → Option KnownEmail :=
  (knownEmails store (takenRefs store leaving)).get

theorem mem_takenRefs : id ∈ (takenRefs store leaving).map EmailRef.id ↔
    ∃ row ∈ store.pending.of id, row.seq ∈ leaving := by
  simp only [takenRefs, List.map_map, List.mem_map, List.mem_filter, decide_eq_true_eq,
    Function.comp_apply, Log.mem_of]
  constructor
  · rintro ⟨row, ⟨hr, hl⟩, rfl⟩
    exact ⟨row, ⟨hr, rfl⟩, hl⟩
  · rintro ⟨row, ⟨hr, rfl⟩, hl⟩
    exact ⟨row, ⟨hr, hl⟩, rfl⟩

/-- The states the emails of the rows that leave return to. -/
def takenStates (store : Store) (leaving : List Nat) : List (EmailId × MemberState) :=
  (knownEmails store (takenRefs store leaving)).rows.map fun (id, email) =>
    (id, (backed store.pending leaving id email).1)

/-- The rows that stay of those emails. -/
def takenKept (store : Store) (leaving : List Nat) : List PendingRow :=
  (knownEmails store (takenRefs store leaving)).rows.flatMap fun (id, email) =>
    (backed store.pending leaving id email).2

theorem mem_takenStates {s : MemberState} : (id, s) ∈ takenStates store leaving ↔
    ∃ k, takenKnown store leaving id = some k ∧ (backed store.pending leaving id k).1 = s := by
  simp only [takenStates, takenKnown, List.mem_map, Prod.exists, Prod.mk.injEq,
    Record.get_eq_some]
  constructor
  · rintro ⟨id, k, hm, rfl, rfl⟩
    exact ⟨k, hm, rfl⟩
  · rintro ⟨k, hm, rfl⟩
    exact ⟨id, k, hm, rfl, rfl⟩

theorem mem_takenKept {row : PendingRow} : row ∈ takenKept store leaving ↔
    ∃ id k, takenKnown store leaving id = some k ∧ row ∈ (backed store.pending leaving id k).2 := by
  simp only [takenKept, takenKnown, List.mem_flatMap, Prod.exists, Record.get_eq_some]
  rfl

theorem restates_taken : Restates store (takenStates store leaving) (takenKnown store leaving) where
  one := by
    rintro ⟨id, s⟩ hp ⟨_, t⟩ hq rfl
    obtain ⟨k, hk, rfl⟩ := mem_takenStates.1 hp
    obtain ⟨k', hk', rfl⟩ := mem_takenStates.1 hq
    rw [Option.some.inj (hk.symm.trans hk')]
  known id s hs := by
    obtain ⟨k, hk, -⟩ := mem_takenStates.1 hs
    exact ⟨k, hk, (knownIn_of_get hk).1⟩

/-- Rows taken back restate their emails. -/
theorem takeBack_eq (store : Store) (leaving : List Nat) : takeBack store leaving = store ∧
      (∀ id, takenKnown store leaving id = none) ∧ (∀ row ∈ store.pending, row.seq ∉ leaving) ∨
    ∃ restores, takeBack store leaving =
      restated store (takenStates store leaving) (takenKnown store leaving) restores
        { put := takenKept store leaving, remove := leaving } := by
  simp only [takeBack]
  split
  · rename_i hnone
    refine .inl ⟨rfl, fun id => ?_, fun row hr hl => ?_⟩
    · rw [takenKnown, takenRefs, hnone, List.map_nil, knownEmails_get]
      rfl
    · exact List.filter_eq_nil_iff.1 hnone row hr (decide_eq_true hl)
  · exact .inr ⟨_, rfl⟩

/-- The rows of an email after rows were taken back. -/
theorem takeBack_rows : (takeBack store leaving).pending.of id =
    match takenKnown store leaving id with
    | some k => (backed store.pending leaving id k).2
    | none => (store.pending.of id).filter fun row => row.seq ∉ leaving := by
  rcases takeBack_eq store leaving with ⟨heq, hknown, hnone⟩ | ⟨restores, heq⟩
  · rw [heq, hknown]
    refine (List.filter_eq_self.2 fun row hr => decide_eq_true ?_).symm
    exact hnone row (Log.mem_of.1 hr).1
  · have hkept : ∀ row ∈ takenKept store leaving, ∃ held ∈ store.pending,
        row.Refits held ∧ held.seq ∉ leaving ∧
          ∃ k, takenKnown store leaving held.id = some k ∧
            row ∈ (backed store.pending leaving held.id k).2 := by
      intro row hr
      obtain ⟨id, k, hk, hr⟩ := mem_takenKept.1 hr
      obtain ⟨held, hm, hf, rfl, hl⟩ := refits_backed hr
      exact ⟨held, hm, hf, hl, k, hk, hr⟩
    have hstand : ∀ row ∈ takenKept store leaving,
        ∃ held ∈ store.pending.remove leaving, held.seq = row.seq := by
      intro row hr
      obtain ⟨held, hm, hf, hl, -⟩ := hkept row hr
      exact ⟨held, Sequence.mem_remove.2 ⟨hm, hl⟩, hf.seq.symm⟩
    have hid : ∀ row ∈ store.pending.remove leaving,
        (Sequence.latest PendingRow.seq (takenKept store leaving) row).id = row.id := by
      intro row hr
      rcases Sequence.latest_mem PendingRow.seq (takenKept store leaving) row with hl | hl
      · obtain ⟨held, hm, hf, -⟩ := hkept _ hl
        have hseq := (Sequence.latest_seq PendingRow.seq _ row).symm.trans hf.seq
        rw [hf.id, store.pending.unique (Sequence.mem_remove.1 hr).1 hm hseq]
      · rw [hl.1]
    rw [heq]
    show Log.of ((store.pending.remove leaving).putAll (takenKept store leaving)) id = _
    rw [Sequence.putAll_of_mem hstand, Log.of_revise hid, Log.of_remove]
    have hin : ∀ row ∈ takenKept store leaving,
        row.seq ∈ ((store.pending.of id).filter fun row => row.seq ∉ leaving).map PendingRow.seq →
          ∃ k, takenKnown store leaving id = some k ∧
            row ∈ (backed store.pending leaving id k).2 := by
      intro row hr hseq
      obtain ⟨held, hm, hf, -, k, hk, hb⟩ := hkept row hr
      obtain ⟨other, ho, hseq⟩ := List.mem_map.1 hseq
      obtain ⟨hlog, hid⟩ := Log.mem_of.1 (List.mem_filter.1 ho).1
      have hsame := store.pending.unique hm hlog (hf.seq.symm.trans hseq.symm)
      rw [hsame, hid] at hk hb
      exact ⟨k, hk, hb⟩
    cases hk : takenKnown store leaving id with
    | none =>
      refine map_latest_other (Log.of_sorted.filter _) fun row hr hseq => ?_
      obtain ⟨k, hk', -⟩ := hin row hr hseq
      rw [hk] at hk'
      cases hk'
    | some k =>
      refine Sequence.map_latest (Log.of_sorted.filter _) (replayed_map fun _ _ => rfl)
        (fun row hr hseq => ?_) fun row hr => .inl (mem_takenKept.2 ⟨id, k, hk, hr⟩)
      obtain ⟨k', hk', hb⟩ := hin row hr hseq
      rw [hk] at hk'
      exact Option.some.inj hk' ▸ hb

/-- The header of an email after rows were taken back. -/
theorem takeBack_email (hkeyed : store.Keyed) : (takeBack store leaving).emails id =
    (store.emails id).map fun header =>
      match takenKnown store leaving id with
      | some k => { header with state := (backed store.pending leaving id k).1 }
      | none => header := by
  rcases takeBack_eq store leaving with ⟨heq, hknown, -⟩ | ⟨restores, heq⟩
  · rw [heq, hknown, Option.map_id']
  · rw [heq]
    cases hk : takenKnown store leaving id with
    | some k => exact restate_email hkeyed restates_taken (mem_takenStates.2 ⟨k, hk, rfl⟩)
    | none =>
      rw [restate_email_other hkeyed restates_taken, Option.map_id']
      intro s hs
      obtain ⟨k, hk', -⟩ := mem_takenStates.1 hs
      rw [hk] at hk'
      cases hk'

/-- The member of an email after rows were taken back, in the thread it is known in. -/
theorem takeBack_member (hkeyed : store.Keyed) (hk : takenKnown store leaving id = some k) :
    (takeBack store leaving).memberAt k.threadId id =
      (store.memberAt k.threadId id).map fun _ => (backed store.pending leaving id k).1 := by
  rcases takeBack_eq store leaving with ⟨-, hknown, -⟩ | ⟨restores, heq⟩
  · rw [hknown] at hk
    cases hk
  · rw [heq]
    exact restate_member_of hkeyed restates_taken (mem_takenStates.2 ⟨k, hk, rfl⟩) hk

theorem takeBack_member_other (hkeyed : store.Keyed) (hk : takenKnown store leaving id = none) :
    (takeBack store leaving).memberAt threadId id = store.memberAt threadId id := by
  rcases takeBack_eq store leaving with ⟨heq, -⟩ | ⟨restores, heq⟩
  · rw [heq]
  · rw [heq]
    refine restate_member_other hkeyed fun s hs => ?_
    obtain ⟨k, hk', -⟩ := mem_takenStates.1 hs
    rw [hk] at hk'
    cases hk'

/-- No email enters a thread as rows are taken back. -/
theorem takeBack_member_none (hkeyed : store.Keyed) (h : store.memberAt threadId id = none) :
    (takeBack store leaving).memberAt threadId id = none := by
  rcases takeBack_eq store leaving with ⟨heq, -⟩ | ⟨restores, heq⟩
  · rw [heq, h]
  · rw [heq, restate_member hkeyed, h]
    rfl

theorem takeBack_keyed (hkeyed : store.Keyed) : (takeBack store leaving).Keyed := by
  rcases takeBack_eq store leaving with ⟨heq, -⟩ | ⟨restores, heq⟩
  · rwa [heq]
  · rw [heq]
    exact hkeyed.commit

end TakeBack

/-! ## A change logged -/

/-- The rows of the steps about one email, wherever in the log they come to stand. -/
def rowsLogged (steps : List LogStep) (id : EmailId) : List PendingRow :=
  (steps.filter fun step => step.id = id).map fun step => step.row 0

theorem mem_rowsLogged {steps : List LogStep} {row : PendingRow} :
    row ∈ rowsLogged steps id ↔ ∃ step ∈ steps, step.id = id ∧ row = step.row 0 := by
  simp only [rowsLogged, List.mem_map, List.mem_filter, decide_eq_true_eq]
  constructor
  · rintro ⟨step, ⟨hs, hid⟩, rfl⟩
    exact ⟨step, hs, hid, rfl⟩
  · rintro ⟨step, hs, hid, rfl⟩
    exact ⟨step, ⟨hs, hid⟩, rfl⟩

theorem rowsLogged_concat {steps : List LogStep} {step : LogStep} :
    rowsLogged (steps ++ [step]) id =
      rowsLogged steps id ++ if step.id = id then [step.row 0] else [] := by
  unfold rowsLogged
  rw [List.filter_append, List.map_append]
  by_cases h : step.id = id <;> simp [h]

/-- **The row of a step fits the state it was made over.** -/
theorem stepOf_spec {s : MemberState} {mutation : Mutation} {lease : Option String}
    {step : LogStep} (h : stepOf s mutation threadId lease = some step) :
    step.id = mutation.id ∧ step.threadId = threadId ∧ (step.row 0).fitted s = step.row 0 ∧
      (step.row 0).patchAt s = step.patch := by
  cases mutation with
  | patch id given patch restores =>
    simp only [stepOf] at h
    split at h
    · obtain rfl := Option.some.inj h
      exact ⟨rfl, rfl, rfl, rfl⟩
    · cases h
  | destroy id given =>
    simp only [stepOf] at h
    split at h
    · obtain rfl := Option.some.inj h
      exact ⟨rfl, rfl, rfl, rfl⟩
    · cases h

/-- What a call logged so far, said of each email: its rows fit the state it is known in and leave
the state the call goes on with. A destroy is the last word on its email. -/
structure Logging.Good (known : EmailId → Option KnownEmail) (doomed : List EmailId)
    (logging : Logging) : Prop where
  knows : ∀ step ∈ logging.steps, ∃ k, known step.id = some k ∧ step.threadId = k.threadId
  states : ∀ id k, known id = some k →
    logging.states id = some (replayed k.state (rowsLogged logging.steps id)).1 ∧
      Fits k.state (rowsLogged logging.steps id)
  logged : ∀ id, (logging.logged.get id).isSome ↔ ∃ step ∈ logging.steps, step.id = id
  dooms : ∀ id, id ∈ logging.doomed ↔
    id ∈ doomed ∨ ∃ step ∈ logging.steps, step.id = id ∧ step.destroy = true
  spared : ∀ step ∈ logging.steps, step.id ∉ doomed
  last : logging.steps.Pairwise fun a b => a.id = b.id → a.destroy = false

namespace Logging

variable {known : EmailId → Option KnownEmail} {doomed : List EmailId} {logging : Logging}
  {lease : Option String}

theorem good_start : Good known doomed
    ⟨[], fun id => (known id).map KnownEmail.state, Table.empty, doomed⟩ where
  knows _ h := absurd h List.not_mem_nil
  states id k h := ⟨congrArg (Option.map KnownEmail.state) h, rfl⟩
  logged id := by
    refine ⟨fun h => ?_, fun ⟨_, h, _⟩ => absurd h List.not_mem_nil⟩
    cases h
  dooms id := ⟨.inl, fun h => h.resolve_right fun ⟨_, h, _⟩ => absurd h List.not_mem_nil⟩
  spared _ h := absurd h List.not_mem_nil
  last := List.Pairwise.nil

theorem Good.log (h : logging.Good known doomed) (mutation : Mutation) :
    (logMutation known lease logging mutation).Good known doomed := by
  unfold logMutation
  split
  · rename_i email state hemail hstate
    split
    · exact h
    rename_i hfree
    split
    · exact h
    rename_i step hstep
    obtain ⟨hid, hthread, hfits, hpatch⟩ := stepOf_spec hstep
    have hfree : mutation.id ∉ doomed ∧
        ∀ other ∈ logging.steps, other.id = mutation.id → other.destroy = false := by
      rw [h.dooms, not_or] at hfree
      refine ⟨hfree.1, fun other ho hother => ?_⟩
      by_contra hd
      exact hfree.2 ⟨other, ho, hother, by simpa using hd⟩
    refine ⟨fun other ho => ?_, fun id k hk => ?_, fun id => ?_, fun id => ?_, fun other ho => ?_, ?_⟩
    · rcases List.mem_append.1 ho with ho | ho
      · exact h.knows other ho
      · obtain rfl := List.mem_singleton.1 ho
        exact ⟨email, by rw [hid]; exact hemail, hthread⟩
    · obtain ⟨hheld, hfit⟩ := h.states id k hk
      dsimp only
      rw [rowsLogged_concat, hid]
      by_cases hsame : mutation.id = id
      · subst hsame
        obtain rfl := Option.some.inj (hstate.symm.trans hheld)
        rw [if_pos rfl, replayed_append, fits_append, Function.update_self]
        refine ⟨?_, hfit, ?_⟩
        · rw [replayed_cons, hpatch]
          rfl
        · unfold Fits
          rw [replayed_cons, hfits]
          rfl
      · rw [if_neg hsame, List.append_nil, Function.update_of_ne (Ne.symm hsame)]
        exact ⟨hheld, hfit⟩
    · rw [Record.get_put]
      split
      · rename_i hsame
        refine ⟨fun _ => ⟨step, List.mem_append_right _ List.mem_cons_self, hid.trans hsame.symm⟩,
          fun _ => rfl⟩
      · rename_i hne
        rw [h.logged id]
        constructor
        · rintro ⟨other, ho, hother⟩
          exact ⟨other, List.mem_append_left _ ho, hother⟩
        · rintro ⟨other, ho, hother⟩
          rcases List.mem_append.1 ho with ho | ho
          · exact ⟨other, ho, hother⟩
          · obtain rfl := List.mem_singleton.1 ho
            exact absurd (hother.symm.trans hid) hne
    · have hmore : (∃ other ∈ logging.steps ++ [step], other.id = id ∧ other.destroy = true) ↔
          (∃ other ∈ logging.steps, other.id = id ∧ other.destroy = true) ∨
            (mutation.id = id ∧ step.destroy = true) := by
        simp only [List.mem_append, List.mem_singleton, or_and_right, exists_or,
          exists_eq_left, hid]
      rw [hmore, ← or_assoc, ← h.dooms]
      split
      · rename_i hd
        rw [List.mem_cons, and_iff_left hd, or_comm, eq_comm]
      · rename_i hd
        simp [hd]
    · rcases List.mem_append.1 ho with ho | ho
      · exact h.spared other ho
      · obtain rfl := List.mem_singleton.1 ho
        rw [hid]
        exact hfree.1
    · refine List.pairwise_append.2 ⟨h.last, List.pairwise_singleton _ _, fun a ha b hb hab => ?_⟩
      obtain rfl := List.mem_singleton.1 hb
      exact hfree.2 a ha (hab.trans hid)
  · exact h

end Logging

theorem stepsOf_good (mutations : List Mutation) (known : EmailId → Option KnownEmail)
    (doomed : List EmailId) (lease : Option String) :
    (stepsOf mutations known doomed lease).Good known doomed :=
  foldl_keeps Logging.good_start fun mutation _ _ h => h.log mutation

/-! ## The rows after a change -/

section Mutate

variable {mutations : List Mutation} {lease : Option String}

/-- The emails a call names, as the store knows them. -/
def mutateKnown (store : Store) (mutations : List Mutation) : EmailId → Option KnownEmail :=
  (knownEmails store (mutations.map Mutation.ref)).get

/-- What a call logs over the store. -/
def loggingOf (store : Store) (mutations : List Mutation) (lease : Option String) : Logging :=
  stepsOf mutations (mutateKnown store mutations) (doomedIn store.pending) lease

/-- The rows a call adds to the log of an email. -/
def added (store : Store) (mutations : List Mutation) (lease : Option String) (id : EmailId) :
    List PendingRow :=
  (rowsOf store.pending.next (loggingOf store mutations lease).steps).filter fun row => row.id = id

theorem loggingOf_good :
    (loggingOf store mutations lease).Good (mutateKnown store mutations) (doomedIn store.pending) :=
  stepsOf_good _ _ _ _

theorem rowsOf_sorted {first : Nat} {steps : List LogStep} :
    (rowsOf first steps).Pairwise fun a b => a.seq < b.seq := by
  have hseqs : (rowsOf first steps).map PendingRow.seq =
      (List.range' 0 steps.length).map (first + ·) := by
    rw [rowsOf, List.map_map, ← List.zipIdx_map_snd 0 steps, List.map_map]
    rfl
  have hsorted : ((rowsOf first steps).map PendingRow.seq).Pairwise (· < ·) := by
    rw [hseqs, List.pairwise_map]
    exact (List.pairwise_lt_range' : (List.range' 0 steps.length).Pairwise (· < ·)).imp
      fun h => Nat.add_lt_add_left h _
  exact List.pairwise_map.1 hsorted

/-- The rows added differ from the ones logged in their numbers alone. -/
theorem added_change {β : Type} {f : PendingRow → β}
    (hf : ∀ (step : LogStep) n, f (step.row n) = f (step.row 0)) :
    (added store mutations lease id).map f =
      (rowsLogged (loggingOf store mutations lease).steps id).map f := by
  have hgeneral : ∀ (first n : Nat) (steps : List LogStep),
      (((steps.zipIdx n).map fun p => p.1.row (first + p.2)).filter fun row => row.id = id).map f =
        (rowsLogged steps id).map f := by
    intro first n steps
    induction steps generalizing n with
    | nil => rfl
    | cons step steps ih =>
      rw [List.zipIdx_cons, List.map_cons, List.filter_cons, rowsLogged, List.filter_cons]
      have hid : (step.row (first + n)).id = step.id := rfl
      simp only [hid]
      split
      · rw [List.map_cons, List.map_cons, List.map_cons, ih, hf]
        rfl
      · exact ih (n + 1)
  exact hgeneral _ 0 _

theorem mem_added {row : PendingRow} (h : row ∈ added store mutations lease id) :
    ∃ step ∈ (loggingOf store mutations lease).steps, step.id = id ∧ ∃ n, row = step.row n := by
  obtain ⟨hr, hid⟩ := List.mem_filter.1 h
  obtain ⟨p, hp, rfl⟩ := List.mem_map.1 hr
  exact ⟨p.1, (List.mem_zipIdx' hp).2 ▸ List.getElem_mem _, of_decide_eq_true hid, _, rfl⟩

theorem added_eq_nil : added store mutations lease id = [] ↔
    ∀ step ∈ (loggingOf store mutations lease).steps, step.id ≠ id := by
  have hmap : (added store mutations lease id).map PendingRow.change =
      (rowsLogged (loggingOf store mutations lease).steps id).map PendingRow.change :=
    added_change fun _ _ => rfl
  have hlen := congrArg List.length hmap
  rw [List.length_map, List.length_map] at hlen
  rw [← List.length_eq_zero_iff, hlen, List.length_eq_zero_iff, rowsLogged, List.map_eq_nil_iff,
    List.filter_eq_nil_iff]
  simp

/-- **What a call adds to the log of an email**: rows that fit the state it is known in, a destroy
last, and none where it is not known or already waits to be destroyed. -/
structure Adds (store : Store) (known : Option KnownEmail) (id : EmailId)
    (more : List PendingRow) : Prop where
  fits : ∀ k, known = some k → Fits k.state more
  unknown : known = none → more = []
  spared : (∃ row ∈ store.pending.of id, row.destroy = true) → more = []
  last : more.Pairwise fun a _ => a.destroy = false
  row : ∀ row ∈ more, row.sentAt = none ∧ row.held = row.destroy ∧
    row.threadId = known.map KnownEmail.threadId

theorem adds_added : Adds store (mutateKnown store mutations id) id
    (added store mutations lease id) where
  fits k hk := (fits_change (added_change fun _ _ => rfl)).2 (loggingOf_good.states id k hk).2
  unknown hk := by
    refine added_eq_nil.2 fun step hs hid => ?_
    obtain ⟨k, hk', -⟩ := loggingOf_good.knows step hs
    rw [hid, hk] at hk'
    cases hk'
  spared := by
    rintro ⟨row, hr, hd⟩
    refine added_eq_nil.2 fun step hs hid => loggingOf_good.spared step hs ?_
    obtain ⟨hr, hrow⟩ := Log.mem_of.1 hr
    rw [hid, ← hrow]
    exact List.mem_map_of_mem (List.mem_filter.2 ⟨hr, hd⟩)
  last := by
    have hflags : (added store mutations lease id).map PendingRow.destroy =
        (rowsLogged (loggingOf store mutations lease).steps id).map PendingRow.destroy :=
      added_change fun _ _ => rfl
    have hlast := (loggingOf_good : (loggingOf store mutations lease).Good _ _).last
    have hof : ((rowsLogged (loggingOf store mutations lease).steps id).map
        PendingRow.destroy).Pairwise fun a _ => a = false := by
      rw [List.pairwise_map, rowsLogged, List.pairwise_map]
      refine (hlast.filter _).imp_of_mem fun ha hb hab => ?_
      exact hab ((of_decide_eq_true (List.mem_filter.1 ha).2).trans
        (of_decide_eq_true (List.mem_filter.1 hb).2 : _ = id).symm)
    exact List.pairwise_map.1 (hflags ▸ hof)
  row row hr := by
    obtain ⟨step, hs, rfl, n, rfl⟩ := mem_added hr
    obtain ⟨k, hk, ht⟩ := loggingOf_good.knows step hs
    refine ⟨rfl, rfl, ?_⟩
    rw [hk, Option.map_some, ← ht]
    rfl

/-- The states a call leaves the emails it logged in. -/
def mutateStates (store : Store) (mutations : List Mutation) (lease : Option String) :
    List (EmailId × MemberState) :=
  (loggingOf store mutations lease).logged.rows.map fun (id, _) =>
    (id, ((loggingOf store mutations lease).states id).getD ∅)

theorem mem_mutateStates {s : MemberState} : (id, s) ∈ mutateStates store mutations lease ↔
    added store mutations lease id ≠ [] ∧ ∃ k, mutateKnown store mutations id = some k ∧
      s = (replayed k.state (added store mutations lease id)).1 := by
  have hgood := (loggingOf_good : (loggingOf store mutations lease).Good
    (mutateKnown store mutations) (doomedIn store.pending))
  have hmem : (id, s) ∈ mutateStates store mutations lease ↔
      ((loggingOf store mutations lease).logged.get id).isSome = true ∧
        s = ((loggingOf store mutations lease).states id).getD ∅ := by
    simp only [mutateStates, List.mem_map, Prod.exists, Prod.mk.injEq, Option.isSome_iff_exists,
      Record.get_eq_some]
    constructor
    · rintro ⟨id, t, hm, rfl, rfl⟩
      exact ⟨⟨t, hm⟩, rfl⟩
    · rintro ⟨⟨t, hm⟩, rfl⟩
      exact ⟨id, t, hm, rfl, rfl⟩
  rw [hmem, hgood.logged, ne_eq, added_eq_nil]
  simp only [not_forall, not_not, exists_prop]
  refine and_congr_right fun hsome => ?_
  obtain ⟨step, hs, hid⟩ := hsome
  obtain ⟨k, hk, -⟩ := hgood.knows step hs
  rw [hid] at hk
  have hstate := (hgood.states id k hk).1
  have hreplay : (replayed k.state (added store mutations lease id)).1 =
      (replayed k.state (rowsLogged (loggingOf store mutations lease).steps id)).1 :=
    (replayed_change (added_change fun _ _ => rfl)).1
  rw [hstate, Option.getD_some, ← hreplay]
  refine ⟨fun h => ⟨k, hk, h⟩, fun h => ?_⟩
  obtain ⟨k', hk', h⟩ := h
  rw [Option.some.inj (hk.symm.trans hk')]
  exact h

theorem restates_mutate :
    Restates store (mutateStates store mutations lease) (mutateKnown store mutations) where
  one := by
    rintro ⟨id, s⟩ hp ⟨_, t⟩ hq rfl
    obtain ⟨-, k, hk, rfl⟩ := mem_mutateStates.1 hp
    obtain ⟨-, k', hk', rfl⟩ := mem_mutateStates.1 hq
    rw [Option.some.inj (hk.symm.trans hk')]
  known id s hs := by
    obtain ⟨-, k, hk, -⟩ := mem_mutateStates.1 hs
    exact ⟨k, hk, (knownIn_of_get hk).1⟩

/-- A change restates the emails it logs. -/
theorem mutateMany_eq (store : Store) (mutations : List Mutation) (lease : Option String) :
    (mutateMany store mutations lease).1 = store ∧
      (loggingOf store mutations lease).steps = [] ∨
    ∃ restores, (mutateMany store mutations lease).1 =
      restated store (mutateStates store mutations lease) (mutateKnown store mutations) restores
        { put := rowsOf store.pending.next (loggingOf store mutations lease).steps } := by
  unfold mutateMany
  simp only
  split
  · rename_i hnone
    exact .inl ⟨rfl, hnone⟩
  · exact .inr ⟨_, rfl⟩

/-- **The log of an email after a change**: what it held, then the rows of the call. -/
theorem mutateMany_rows : (mutateMany store mutations lease).1.pending.of id =
    store.pending.of id ++ added store mutations lease id := by
  have hrows : (mutateMany store mutations lease).1.pending.rows =
      store.pending.rows ++ rowsOf store.pending.next (loggingOf store mutations lease).steps := by
    rcases mutateMany_eq store mutations lease with
      ⟨heq, hnone⟩ | ⟨restores, heq⟩
    · rw [heq, hnone]
      exact (List.append_nil _).symm
    · have hbeyond : ∀ a ∈ store.pending,
          ∀ b ∈ rowsOf store.pending.next (loggingOf store mutations lease).steps,
            a.seq < b.seq := by
        intro a ha b hb
        obtain ⟨p, -, rfl⟩ := List.mem_map.1 hb
        exact Nat.lt_of_lt_of_le (Sequence.lt_next ha) (Nat.le_add_right _ _)
      have happend := List.pairwise_append.2 ⟨store.pending.sorted, rowsOf_sorted, hbeyond⟩
      refine sorted_ext (Sequence.sorted _) happend fun row => ?_
      have hput := Sequence.mem_putAll (s := store.pending) (x := row)
        (rowsOf_sorted.imp fun h => Nat.ne_of_lt h :
          (rowsOf store.pending.next (loggingOf store mutations lease).steps).Pairwise
            fun a b => a.seq ≠ b.seq)
      rw [heq, ← Sequence.mem_def, restated_pending rfl, hput, List.mem_append, or_comm]
      refine or_congr_left ⟨fun h => h.1, fun h => ⟨h, fun b hb => ?_⟩⟩
      exact Nat.ne_of_lt (hbeyond row h b hb)
  rw [Log.of, hrows, List.filter_append]
  rfl

/-- The header of an email after a change. -/
theorem mutateMany_email (hkeyed : store.Keyed) :
    (mutateMany store mutations lease).1.emails id = (store.emails id).map fun header =>
      { header with state := (replayed header.state (added store mutations lease id)).1 } := by
  have hnone (h : added store mutations lease id = []) : (store.emails id).map (fun header =>
      { header with state := (replayed header.state (added store mutations lease id)).1 }) =
        store.emails id := by
    rw [h]
    exact Option.map_id'
  rcases mutateMany_eq store mutations lease with
    ⟨heq, hsteps⟩ | ⟨restores, heq⟩
  · rw [heq, hnone (added_eq_nil.2 (by rw [hsteps]; simp))]
  · rw [heq]
    by_cases hadded : added store mutations lease id = []
    · rw [hnone hadded]
      exact restate_email_other hkeyed restates_mutate fun s hs =>
        (mem_mutateStates.1 hs).1 hadded
    · cases hk : mutateKnown store mutations id with
      | none => exact absurd (adds_added.unknown hk) hadded
      | some k =>
        rw [restate_email hkeyed restates_mutate (mem_mutateStates.2 ⟨hadded, k, hk, rfl⟩)]
        have hplace := (knownIn_of_get hk).1.place
        cases hemail : store.emails id with
        | none => rfl
        | some header =>
          rw [hemail] at hplace
          rw [hplace]
          rfl

/-- The member of an email after a change, in the thread it is known in. -/
theorem mutateMany_member (hkeyed : store.Keyed) (hk : mutateKnown store mutations id = some k) :
    (mutateMany store mutations lease).1.memberAt k.threadId id =
      (store.memberAt k.threadId id).map fun member =>
        if added store mutations lease id = [] then member
        else (replayed k.state (added store mutations lease id)).1 := by
  rcases mutateMany_eq store mutations lease with
    ⟨heq, hsteps⟩ | ⟨restores, heq⟩
  · have hadded : added store mutations lease id = [] := added_eq_nil.2 (by rw [hsteps]; simp)
    simp only [heq, if_pos hadded, Option.map_id']
  · rw [heq]
    by_cases hadded : added store mutations lease id = []
    · simp only [if_pos hadded, Option.map_id']
      exact restate_member_other hkeyed fun s hs => (mem_mutateStates.1 hs).1 hadded
    · simp only [if_neg hadded]
      exact restate_member_of hkeyed restates_mutate
        (mem_mutateStates.2 ⟨hadded, k, hk, rfl⟩) hk

/-- The member of an email a change leaves alone. -/
theorem mutateMany_member_other (hkeyed : store.Keyed)
    (hadded : added store mutations lease id = []) :
    (mutateMany store mutations lease).1.memberAt threadId id = store.memberAt threadId id := by
  rcases mutateMany_eq store mutations lease with
    ⟨heq, -⟩ | ⟨restores, heq⟩
  · rw [heq]
  · rw [heq]
    exact restate_member_other hkeyed fun s hs => (mem_mutateStates.1 hs).1 hadded

theorem mutateMany_member_none (hkeyed : store.Keyed) (h : store.memberAt threadId id = none) :
    (mutateMany store mutations lease).1.memberAt threadId id = none := by
  rcases mutateMany_eq store mutations lease with
    ⟨heq, -⟩ | ⟨restores, heq⟩
  · rw [heq, h]
  · rw [heq, restate_member hkeyed, h]
    rfl

theorem mutateMany_keyed (hkeyed : store.Keyed) : (mutateMany store mutations lease).1.Keyed := by
  rcases mutateMany_eq store mutations lease with
    ⟨heq, -⟩ | ⟨restores, heq⟩
  · rwa [heq]
  · rw [heq]
    exact hkeyed.commit

end Mutate

end Huliho.Cache
