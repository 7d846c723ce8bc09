import Huliho.Cache.Landings

/-!
# What a change and its undoing leave

Both `mutateMany` and `takeBack` give some emails other states: their headers and the members of
their threads take them, every other email stands as it stood (`restate_email`, `restate_member`).
**`mutateMany_of`** says which rows a change adds to the log of an email, `takeBack_of` which ones
stay of an email some of whose rows leave.
-/

namespace Huliho.Cache

variable {store : Store} {id : EmailId} {threadId : ThreadId} {s : MemberState}
  {known : EmailId → Option KnownEmail} {k : KnownEmail} {row : PendingRow}

/-! ## Rows under their keys -/

/-- Each row stands under its own id. -/
structure Store.Keyed (store : Store) : Prop where
  email : ∀ id header, store.emails id = some header → header.id = id
  thread : ∀ threadId thread, store.threads threadId = some thread → thread.id = threadId

theorem Store.keyed_empty : Store.empty.Keyed := ⟨fun _ _ h => (nomatch h), fun _ _ h => (nomatch h)⟩

theorem Store.Keyed.commit {batch : Batch} (h : store.Keyed) : (store.commit batch).Keyed where
  email id header hh := by
    rw [commit_emails] at hh
    cases hl : batch.emails.landing EmailHeader.id id with
    | some landed =>
      rw [hl] at hh
      obtain rfl := Option.some.inj hh
      exact (Change.landing_eq_some hl).2
    | none =>
      rw [hl, Option.none_or] at hh
      split at hh
      · cases hh
      · exact h.email id header hh
  thread threadId thread hh := by
    rw [commit_threads] at hh
    cases hl : batch.threads.landing ThreadRow.id threadId with
    | some landed =>
      rw [hl] at hh
      obtain rfl := Option.some.inj hh
      exact (Change.landing_eq_some hl).2
    | none =>
      rw [hl, Option.none_or] at hh
      split at hh
      · cases hh
      · exact h.thread threadId thread hh

/-! ## What the store knows -/

/-- What is known of an email is what the store holds: its header, else its member. -/
structure KnownIn (store : Store) (id : EmailId) (k : KnownEmail) : Prop where
  header : k.header = store.emails id
  place : match store.emails id with
    | some header => k = headerKnown header
    | none => store.memberAt k.threadId id = some k.state

section Known

variable {refs : List EmailRef}

theorem memberIn_eq_some {ref : EmailRef} (h : memberIn store ref = some k) :
    ref.threadId = some k.threadId ∧ store.memberAt k.threadId ref.id = some k.state ∧
      k.header = none := by
  obtain ⟨threadId, ht, h⟩ := Option.bind_eq_some_iff.1 h
  obtain ⟨thread, hthread, h⟩ := Option.bind_eq_some_iff.1 h
  obtain ⟨state, hs, rfl⟩ := Option.map_eq_some_iff.1 h
  exact ⟨ht, by rw [Store.memberAt, hthread]; exact hs, rfl⟩

/-- An email with a header is known by it, another by the first reference that finds it. -/
theorem knownEmails_get : (knownEmails store refs).get id =
    if id ∈ refs.map EmailRef.id then knownEmail store refs id else none := by
  rw [knownEmails, Record.get_gather]
  by_cases hin : id ∈ refs.map EmailRef.id
  · rw [if_pos hin]
    split
    · rfl
    · rename_i hkeys
      symm
      cases hemail : store.emails id with
      | some header =>
        refine absurd (List.mem_append_left _ (List.mem_filter.2 ⟨hin, ?_⟩)) hkeys
        rw [hemail]
        rfl
      | none =>
        rw [knownEmail, hemail]
        refine List.findSome?_eq_none_iff.2 fun ref hr => ?_
        split
        · rename_i hid
          by_contra hne
          obtain ⟨k, hk⟩ := Option.ne_none_iff_exists'.1 hne
          refine hkeys (List.mem_append_right _ (List.mem_map.2 ⟨ref, ?_, hid⟩))
          exact List.mem_filter.2 ⟨hr, by rw [hk]; rfl⟩
        · rfl
  · rw [if_neg hin, if_neg]
    intro hkeys
    rcases List.mem_append.1 hkeys with hkeys | hkeys
    · exact hin (List.mem_filter.1 hkeys).1
    · obtain ⟨ref, hr, rfl⟩ := List.mem_map.1 hkeys
      exact hin (List.mem_map_of_mem (List.mem_filter.1 hr).1)

theorem knownEmails_of_header {header : EmailHeader} (hemail : store.emails id = some header)
    (hin : id ∈ refs.map EmailRef.id) :
    (knownEmails store refs).get id = some (headerKnown header) := by
  rw [knownEmails_get, if_pos hin, knownEmail, hemail]

/-- **What is known of an email is what the store holds of it.** -/
theorem knownIn_of_get (h : (knownEmails store refs).get id = some k) :
    KnownIn store id k ∧ id ∈ refs.map EmailRef.id ∧
      (store.emails id = none → ∃ ref ∈ refs, ref.id = id ∧ ref.threadId = some k.threadId) := by
  rw [knownEmails_get] at h
  split at h
  · rename_i hin
    rw [knownEmail] at h
    cases hemail : store.emails id with
    | some header =>
      rw [hemail] at h
      obtain rfl := Option.some.inj h
      exact ⟨⟨hemail.symm, by rw [hemail]⟩, hin, fun hc => nomatch hc⟩
    | none =>
      rw [hemail] at h
      obtain ⟨ref, hr, hfound⟩ := List.exists_of_findSome?_eq_some h
      split at hfound
      · rename_i hid
        obtain ⟨ht, hmember, hheader⟩ := memberIn_eq_some hfound
        rw [hid] at hmember
        exact ⟨⟨hheader.trans hemail.symm, by rw [hemail]; exact hmember⟩, hin,
          fun _ => ⟨ref, hr, hid, ht⟩⟩
      · cases hfound
  · cases h

/-- An email whose every reference names one thread is known by its member there. -/
theorem knownEmails_of_member (hemail : store.emails id = none)
    (hin : id ∈ refs.map EmailRef.id)
    (hrefs : ∀ ref ∈ refs, ref.id = id → ref.threadId = some threadId)
    (hmember : store.memberAt threadId id = some s) :
    (knownEmails store refs).get id = some ⟨threadId, none, s, none⟩ := by
  have hall : ∀ ref ∈ refs, ref.id = id → memberIn store ref = some ⟨threadId, none, s, none⟩ := by
    intro ref hr hid
    rw [memberIn, hrefs ref hr hid, hid]
    unfold Store.memberAt at hmember
    obtain ⟨thread, ht, hm⟩ := Option.bind_eq_some_iff.1 hmember
    simp [ht, hm]
  rw [knownEmails_get, if_pos hin, knownEmail, hemail]
  obtain ⟨ref, hr, hid⟩ := List.mem_map.1 hin
  simp only
  cases hf : refs.findSome? fun ref => if ref.id = id then memberIn store ref else none with
  | none =>
    have := List.findSome?_eq_none_iff.1 hf ref hr
    rw [if_pos hid, hall ref hr hid] at this
    cases this
  | some found =>
    obtain ⟨other, ho, hfound⟩ := List.exists_of_findSome?_eq_some hf
    split at hfound
    · rename_i hid'
      rw [hall other ho hid'] at hfound
      exact hfound.symm
    · cases hfound

end Known

/-! ## The rows restated -/

section Restate

variable {states : List (EmailId × MemberState)} {restores : List EmailId}
  {rows : Change PendingRow Nat}

/-- States of known emails, one an email. -/
structure Restates (store : Store) (states : List (EmailId × MemberState))
    (known : EmailId → Option KnownEmail) : Prop where
  one : ∀ p ∈ states, ∀ q ∈ states, p.1 = q.1 → p = q
  known : ∀ id s, (id, s) ∈ states → ∃ k, known id = some k ∧ KnownIn store id k

/-- The rows once a batch restated some emails and changed the log. -/
def restated (store : Store) (states : List (EmailId × MemberState))
    (known : EmailId → Option KnownEmail) (restores : List EmailId) (rows : Change PendingRow Nat) :
    Store := store.commit { restate store states known restores with pending := rows }

theorem mem_changesOf {change : ListChange} (h : change ∈ changesOf states known restores) :
    ∃ k, known change.id = some k ∧ (change.id, change.after) ∈ states ∧
      change.threadId = k.threadId := by
  obtain ⟨⟨id, s⟩, hs, hc⟩ := List.mem_filterMap.1 h
  obtain ⟨k, hk, rfl⟩ := Option.map_eq_some_iff.1 hc
  exact ⟨k, hk, hs, rfl⟩

theorem exists_changesOf (restores : List EmailId) (hs : (id, s) ∈ states) (hk : known id = some k) :
    ∃ change ∈ changesOf states known restores, change.id = id ∧ change.after = s ∧
      change.threadId = k.threadId := by
  let change : ListChange := ⟨⟨id, k.threadId, k.state, s⟩, k.receivedAt, id ∈ restores⟩
  refine ⟨change, List.mem_filterMap.2 ⟨(id, s), hs, ?_⟩, rfl, rfl, rfl⟩
  simp only [hk]
  rfl

theorem restated_emails : (restated store states known restores rows).emails id =
    ((restate store states known restores).emails.landing EmailHeader.id id).or
      (store.emails id) := by
  rw [restated, commit_emails]
  simp [restate, Batch.clears]

theorem restated_memberAt : (restated store states known restores rows).memberAt threadId id =
    match (restate store states known restores).threads.landing ThreadRow.id threadId with
    | some thread => thread.members.get id
    | none => store.memberAt threadId id := by
  refine commit_member.trans ?_
  cases (restate store states known restores).threads.landing ThreadRow.id threadId with
  | some thread => rfl
  | none => exact if_neg (by simp [restate, Batch.clears])

theorem restated_pending (hremove : rows.remove = []) :
    (restated store states known restores rows).pending = store.pending.putAll rows.put := by
  show (store.pending.remove rows.remove).putAll rows.put = _
  rw [hremove, Sequence.remove_nil]

/-- A header that lands is one the store held, with its email's new state. -/
theorem mem_restate_emails (hkeyed : store.Keyed) (h : Restates store states known)
    {header : EmailHeader} (hm : header ∈ (restate store states known restores).emails.put) :
    (header.id, header.state) ∈ states ∧ ∃ held, store.emails header.id = some held ∧
      header = { held with state := header.state } := by
  obtain ⟨change, hc, hmap⟩ := List.mem_filterMap.1 hm
  obtain ⟨held, hheld, rfl⟩ := Option.map_eq_some_iff.1 hmap
  obtain ⟨k, hk, hs, -⟩ := mem_changesOf hc
  obtain ⟨k', hk', hin⟩ := h.known _ _ hs
  obtain rfl : k = k' := Option.some.inj (hk.symm.trans hk')
  rw [hk, Option.bind_some, hin.header] at hheld
  have hid := hkeyed.email _ _ hheld
  exact ⟨by rw [← hid] at hs; exact hs, held, by rw [← hid] at hheld; exact hheld, rfl⟩

/-- The header of an email that takes a state. -/
theorem restate_email (hkeyed : store.Keyed) (h : Restates store states known)
    (hs : (id, s) ∈ states) : (restated store states known restores rows).emails id =
      (store.emails id).map fun header => { header with state := s } := by
  obtain ⟨k, hk, hin⟩ := h.known id s hs
  obtain ⟨change, hc, rfl, rfl, -⟩ := exists_changesOf restores hs hk
  rw [restated_emails]
  cases hl : (restate store states known restores).emails.landing EmailHeader.id change.id with
  | some header =>
    obtain ⟨hm, hid⟩ := Change.landing_eq_some hl
    obtain ⟨hs', held, hheld, heq⟩ := mem_restate_emails hkeyed h hm
    rw [hid] at hs' hheld
    have hstate : header.state = change.after := (Prod.mk.inj (h.one _ hs' _ hs rfl)).2
    rw [Option.some_or, hheld, Option.map_some, heq, hstate]
  | none =>
    rw [Option.none_or]
    cases hemail : store.emails change.id with
    | none => rfl
    | some held =>
      have hput : ({ held with state := change.after } : EmailHeader) ∈
          (restate store states known restores).emails.put := by
        refine List.mem_filterMap.2 ⟨change, hc, ?_⟩
        rw [hk, Option.bind_some, hin.header, hemail]
        rfl
      have hid := Change.landing_eq_none.1 hl _ hput
      exact absurd (hkeyed.email _ _ hemail) hid

/-- The header of any other email. -/
theorem restate_email_other (hkeyed : store.Keyed) (h : Restates store states known)
    (hs : ∀ s, (id, s) ∉ states) :
    (restated store states known restores rows).emails id = store.emails id := by
  have hnone : (restate store states known restores).emails.landing EmailHeader.id id = none := by
    refine Change.landing_eq_none.2 fun header hm hid => ?_
    obtain ⟨hs', -⟩ := mem_restate_emails hkeyed h hm
    exact hs _ (hid ▸ hs')
  rw [restated_emails, hnone, Option.none_or]

/-- The state a batch gives an email. -/
def afterOf (states : List (EmailId × MemberState)) (known : EmailId → Option KnownEmail)
    (restores : List EmailId) (id : EmailId) : Option MemberState :=
  ((changesOf states known restores).reverse.find? fun change => change.id = id).map
    fun change => change.after

theorem afterOf_mem (h : Restates store states known) (hs : (id, s) ∈ states) :
    afterOf states known restores id = some s := by
  obtain ⟨k, hk, -⟩ := h.known id s hs
  obtain ⟨change, hc, hid, -⟩ := exists_changesOf restores hs hk
  unfold afterOf
  cases hf : (changesOf states known restores).reverse.find? fun change => decide (change.id = id)
    with
  | none =>
    exact absurd (decide_eq_true hid) (List.find?_eq_none.1 hf change (List.mem_reverse.2 hc))
  | some found =>
    obtain ⟨-, -, hs', -⟩ := mem_changesOf (List.mem_reverse.1 (List.mem_of_find?_eq_some hf))
    have hid' := List.find?_some hf
    have hid' : found.id = id := of_decide_eq_true hid'
    have := (Prod.mk.inj (h.one _ hs' _ hs hid')).2
    rw [Option.map_some, this]

theorem afterOf_other (hs : ∀ s, (id, s) ∉ states) : afterOf states known restores id = none := by
  unfold afterOf
  rw [Option.map_eq_none_iff, List.find?_eq_none]
  intro change hc hid
  obtain ⟨-, -, hs', -⟩ := mem_changesOf (List.mem_reverse.1 hc)
  have hid : change.id = id := of_decide_eq_true hid
  exact hs _ (hid ▸ hs')

/-- A member after a batch restated some emails. -/
theorem restate_member (hkeyed : store.Keyed) :
    (restated store states known restores rows).memberAt threadId id =
      (store.memberAt threadId id).map fun member =>
        if ∃ change ∈ changesOf states known restores, change.threadId = threadId then
          (afterOf states known restores id).getD member
        else member := by
  have hput : (restate store states known restores).threads.put =
      ((firsts ((changesOf states known restores).map fun change => change.threadId)).filterMap
        store.threads).map fun thread => withMembers thread (afterOf states known restores) := rfl
  have hmem : ∀ thread ∈ (restate store states known restores).threads.put,
      ∃ held, store.threads thread.id = some held ∧
        thread = withMembers held (afterOf states known restores) ∧
        ∃ change ∈ changesOf states known restores, change.threadId = thread.id := by
    intro thread hm
    rw [hput] at hm
    obtain ⟨held, hfound, rfl⟩ := List.mem_map.1 hm
    obtain ⟨other, hother, hheld⟩ := List.mem_filterMap.1 hfound
    obtain ⟨change, hc, rfl⟩ := List.mem_map.1 (mem_firsts.1 hother)
    have hid := hkeyed.thread _ _ hheld
    exact ⟨held, hid.symm ▸ hheld, rfl, change, hc, hid.symm⟩
  rw [restated_memberAt]
  cases hl : (restate store states known restores).threads.landing ThreadRow.id threadId with
  | some thread =>
    obtain ⟨hm, rfl⟩ := Change.landing_eq_some hl
    obtain ⟨held, hheld, heq, hchange⟩ := hmem thread hm
    simp only [if_pos hchange, Store.memberAt, hheld, Option.bind_some]
    rw [heq, withMembers, Record.get_mapped]
  | none =>
    simp only
    split
    · rename_i hc
      obtain ⟨change, hc, rfl⟩ := hc
      cases hthread : store.threads change.threadId with
      | none => simp [Store.memberAt, hthread]
      | some held =>
        have hlands : withMembers held (afterOf states known restores) ∈
            (restate store states known restores).threads.put := by
          rw [hput]
          refine List.mem_map_of_mem (List.mem_filterMap.2 ⟨change.threadId, ?_, hthread⟩)
          exact mem_firsts.2 (List.mem_map_of_mem hc)
        have hid := Change.landing_eq_none.1 hl _ hlands
        exact absurd (hkeyed.thread _ _ hthread) hid
    · rw [Option.map_id']

/-- The member of an email that takes a state, in its thread. -/
theorem restate_member_of (hkeyed : store.Keyed) (h : Restates store states known)
    (hs : (id, s) ∈ states) (hk : known id = some k) :
    (restated store states known restores rows).memberAt k.threadId id =
      (store.memberAt k.threadId id).map fun _ => s := by
  obtain ⟨change, hc, -, -, ht⟩ := exists_changesOf restores hs hk
  have hchange : ∃ change ∈ changesOf states known restores, change.threadId = k.threadId :=
    ⟨change, hc, ht⟩
  rw [restate_member hkeyed, afterOf_mem h hs]
  simp only [if_pos hchange, Option.getD_some]

/-- The member of any other email. -/
theorem restate_member_other (hkeyed : store.Keyed) (hs : ∀ s, (id, s) ∉ states) :
    (restated store states known restores rows).memberAt threadId id =
      store.memberAt threadId id := by
  rw [restate_member hkeyed, afterOf_other hs]
  simp

end Restate

end Huliho.Cache
