import Huliho.Fetching.Worker

/-!
# The bodies that stay

What the store is to hold once all is done (`State.Tidy`), what a run has to meet for it (`Sound`), and
the invariant behind it. A row of a destroyed email is never there; a row of a forgotten account is
there only while a batch that takes it is **due**; and the bodies no such batch takes are inside both
bounds or a read will bring them there: it has yet to evict, or what it has still to remove leaves few
enough. Bounds survive every removal, so reads that evict side by side do not undo each other.
-/

namespace Huliho.Fetching

namespace State

variable (s : State)

/-- An account that was forgotten and is not in the list again. -/
def Forgotten (accountId : AccountId) : Prop :=
  accountId ∈ s.forgotten ∧ accountId ∉ s.accounts

/-- Whether the rows of an account are about to leave: a `forget` that no halt refuses waits for its
lock, or a sign-out empties the store. -/
def Due (accountId : AccountId) : Prop :=
  0 < s.destroys ∨ ⟨accountId, .forget, s.generation⟩ ∈ s.line

instance : DecidablePred s.Forgotten := fun _ => inferInstanceAs (Decidable (_ ∧ _))

instance : DecidablePred s.Due := fun _ => inferInstanceAs (Decidable (_ ∨ _))

/-- Every operation that was started has ended. -/
def Ended : Prop :=
  s.line = [] ∧ s.expired = [] ∧ s.sweeps = [] ∧ s.destroys = 0 ∧ s.waiting = [] ∧ s.reads.rows = []

/-- No body of a destroyed email, none of a forgotten account, and both bounds. -/
def Tidy : Prop :=
  (∀ row ∈ s.bodies.rows, row.1 ∉ s.gone ∧ ¬ s.Forgotten row.1.1) ∧ InBounds (bodySizes s.bodies)

/-- The bodies of the accounts outside the list. -/
def outside : List BodySize := (bodySizes s.bodies).filter fun size => size.accountId ∉ s.accounts

instance : Decidable s.Ended := inferInstanceAs (Decidable (_ ∧ _))

instance : Decidable s.Tidy := inferInstanceAs (Decidable (_ ∧ _))

end State

/-- The body a read is about to store. -/
def Stage.body : Stage → Option EmailBody
  | .storing fetched => fetched
  | _ => none

/-- What an action has to meet. A body is stored only while its email is not destroyed and its account
not forgotten, or forgotten by a batch still to come; a halt finds no row of a forgotten account and
the rows of the accounts outside the list inside both bounds, unless a sign-out empties the store. -/
def Sound (s : State) : Action → Prop
  | .store ticket => ∀ read ∈ s.reads.get ticket, ∀ body ∈ read.stage.body,
      read.generation = s.generation → (read.fetch.accountId, body.id) ∉ s.gone ∧
        (s.Forgotten read.fetch.accountId → s.Due read.fetch.accountId)
  | .halt generation => generation = s.generation → s.destroys = 0 →
      (∀ row ∈ s.bodies.rows, ¬ s.Forgotten row.1.1) ∧ InBounds s.outside
  | _ => True

instance (s : State) : ∀ a, Decidable (Sound s a)
  | .store ticket => inferInstanceAs (Decidable (∀ read ∈ s.reads.get ticket,
      ∀ body ∈ read.stage.body, _ → _))
  | .halt generation => inferInstanceAs (Decidable (generation = s.generation → _ → _))
  | .setAccounts _ _ | .sweep _ _ | .poll _ | .change _ | .land _ _ | .leave _ _ | .forget _
  | .restart | .clear | .destroy | .ask _ _ _ | .drain _ _ | .resume _ | .look _ | .answer _ _ _
  | .fail _ _ | .measure _ _ | .remove _ _ | .settle _ => inferInstanceAs (Decidable True)

/-! ## The invariant -/

/-- The bodies that no batch under way takes with their account. -/
def State.standing (s : State) : List BodySize :=
  (bodySizes s.bodies).filter fun size => ¬ s.Due size.accountId

/-- Whether a read brings some bodies inside the bounds: `evict` is to come, or what it has still to
remove leaves few enough. -/
def Stage.Clears : Stage → List BodySize → Prop
  | .measuring, _ => True
  | .evicting leaving, sizes =>
    InBounds (sizes.filter fun size => !leaving.names (size.accountId, size.id))
  | _, _ => False

/-- Some bodies are inside the bounds, or a read whose batches land brings them there. -/
def State.Bounded (s : State) (sizes : List BodySize) : Prop :=
  InBounds sizes ∨ ∃ ticket read, s.reads.get ticket = some read ∧
    read.generation = s.generation ∧ read.stage.Clears sizes

structure Kept (s : State) : Prop where
  present : ∀ row ∈ s.bodies.rows, row.1 ∉ s.gone
  wanted : ∀ row ∈ s.bodies.rows, s.Forgotten row.1.1 → s.Due row.1.1
  bounded : s.Bounded s.standing

section

variable {s s' : State} {sizes rest : List BodySize} {ticket : Ticket} {read : Read}

theorem Stage.Clears.sublist {stage : Stage} (h : stage.Clears sizes)
    (hsub : rest.Sublist sizes) : stage.Clears rest := by
  cases stage with
  | measuring => trivial
  | evicting leaving => exact InBounds.sublist h (hsub.filter _)
  | looking | fetching | storing => exact h

theorem State.Bounded.sublist (h : s.Bounded sizes) (hsub : rest.Sublist sizes) :
    s.Bounded rest := by
  rcases h with hin | ⟨ticket, read, hread, hcurrent, hclears⟩
  · exact .inl (hin.sublist hsub)
  · exact .inr ⟨ticket, read, hread, hcurrent, hclears.sublist hsub⟩

/-- A filter that lets no more through, on fewer items. -/
theorem filter_sublist_filter {α : Type*} {l l' : List α} {p q : α → Bool} (hsub : l'.Sublist l)
    (h : ∀ a ∈ l', q a → p a) : (l'.filter q).Sublist (l.filter p) := by
  have hq : l'.filter q = (l'.filter p).filter q := by
    rw [List.filter_filter]
    refine List.filter_congr fun a ha => ?_
    cases hqa : q a with
    | false => rfl
    | true => rw [h a ha hqa, Bool.and_self]
  rw [hq]
  exact List.filter_sublist.trans (hsub.filter p)

/-- With fewer bodies, each of them as much about to leave as before, fewer stand. -/
theorem State.standing_sublist (hrows : s'.bodies.rows.Sublist s.bodies.rows)
    (hdue : ∀ row ∈ s'.bodies.rows, s.Due row.1.1 → s'.Due row.1.1) :
    s'.standing.Sublist s.standing := by
  refine filter_sublist_filter (hrows.map sizeOf) fun size hsize hstands => ?_
  obtain ⟨row, hrow, rfl⟩ := List.mem_map.1 hsize
  rw [decide_eq_true_eq] at hstands ⊢
  exact fun h => hstands (hdue row hrow h)

theorem standing_of_destroy (h : 0 < s.destroys) : s.standing = [] := by
  refine List.filter_eq_nil_iff.2 fun size _ hstands => ?_
  exact of_decide_eq_true hstands (.inl h)

/-- A stage that clears nothing. -/
def Stage.Idle (stage : Stage) : Prop := ∀ sizes, ¬ stage.Clears sizes

/-- Whether a read that clears, or would, goes on as it did. -/
def State.Continues (s s' : State) : Prop :=
  ∀ ticket read, s.reads.get ticket = some read → read.generation = s.generation →
    ¬ read.stage.Idle → ∃ later, s'.reads.get ticket = some later ∧
      later.generation = read.generation ∧ later.stage = read.stage

theorem State.Continues.of_reads (h : s'.reads = s.reads) : s.Continues s' :=
  fun _ read hread _ _ => ⟨read, h ▸ hread, rfl, rfl⟩

theorem State.Bounded.continues (h : s.Bounded sizes) (hgeneration : s'.generation = s.generation)
    (hreads : s.Continues s') : s'.Bounded sizes := by
  rcases h with hin | ⟨ticket, read, hread, hcurrent, hclears⟩
  · exact .inl hin
  · obtain ⟨later, hlater, hsame, hstage⟩ :=
      hreads ticket read hread hcurrent fun hidle => hidle sizes hclears
    refine .inr ⟨ticket, later, hlater, ?_, hstage ▸ hclears⟩
    rw [hsame, hcurrent, hgeneration]

/-- What adds no body keeps the invariant: no email of a row is destroyed, no account of a row forgotten
for good and none of them spared. -/
theorem Kept.fewer (h : Kept s) (hrows : s'.bodies.rows.Sublist s.bodies.rows)
    (hgeneration : s'.generation = s.generation) (hreads : s.Continues s')
    (hgone : ∀ row ∈ s'.bodies.rows, row.1 ∈ s'.gone → row.1 ∈ s.gone)
    (hforgotten : ∀ row ∈ s'.bodies.rows, s'.Forgotten row.1.1 →
      s.Forgotten row.1.1 ∨ s'.Due row.1.1)
    (hdue : ∀ row ∈ s'.bodies.rows, s.Due row.1.1 → s'.Due row.1.1) : Kept s' where
  present := fun row hrow hin => h.present row (hrows.subset hrow) (hgone row hrow hin)
  wanted := by
    intro row hrow hf
    rcases hforgotten row hrow hf with hf | hdueNow
    · exact hdue row hrow (h.wanted row (hrows.subset hrow) hf)
    · exact hdueNow
  bounded := (h.bounded.sublist (State.standing_sublist hrows hdue)).continues hgeneration hreads

/-- A request more in line, or one fewer that forgets nothing. -/
theorem State.Due.line {accountId : AccountId} (h : s.Due accountId)
    (hgeneration : s'.generation = s.generation) (hdestroys : s'.destroys = s.destroys)
    (hline : ⟨accountId, .forget, s.generation⟩ ∈ s.line →
      ⟨accountId, .forget, s.generation⟩ ∈ s'.line) : s'.Due accountId := by
  rcases h with h | h
  · exact .inl (hdestroys ▸ h)
  · exact .inr (hgeneration ▸ hline h)

theorem Kept.line (h : Kept s) {line : List Request} {expired : List Nat}
    (hline : ∀ accountId, (⟨accountId, .forget, s.generation⟩ : Request) ∈ s.line →
      (⟨accountId, .forget, s.generation⟩ : Request) ∈ line) :
    Kept { s with line, expired } :=
  h.fewer (.refl _) rfl (.of_reads rfl) (fun _ _ hin => hin) (fun _ _ hf => .inl hf)
    fun row _ hdue => hdue.line rfl rfl (hline row.1.1)

/-! ## One action -/

theorem Kept.ended (h : Kept s)
    (hidle : ∀ read, s.reads.get ticket = some read → read.generation = s.generation →
      read.stage.Idle) : Kept (s.ended ticket) := by
  refine h.fewer (.refl _) rfl ?_ (fun _ _ hin => hin) (fun _ _ hf => .inl hf)
    fun _ _ hdue => hdue
  intro other read hread hcurrent hbusy
  refine ⟨read, ?_, rfl, rfl⟩
  rw [State.ended, Record.get_only, if_pos ?_, hread]
  rintro rfl
  exact hbusy (hidle read hread hcurrent)

theorem Kept.started (h : Kept s) (hidle : ∀ read, s.reads.get ticket = some read →
    read.generation = s.generation → read.stage.Idle) (next : Read) {waiting : List Fetch} :
    Kept { s with waiting, reads := s.reads.put ticket next } := by
  refine h.fewer (.refl _) rfl ?_ (fun _ _ hin => hin) (fun _ _ hf => .inl hf)
    fun _ _ hdue => hdue
  intro other read hread hcurrent hbusy
  refine ⟨read, ?_, rfl, rfl⟩
  rw [Record.get_put, if_neg ?_, hread]
  rintro rfl
  exact hbusy (hidle read hread hcurrent)

/-- Some bodies leave. -/
theorem Kept.without (h : Kept s) (p : AccountId × EmailId → Prop) [DecidablePred p] :
    Kept (s.without p) :=
  h.fewer List.filter_sublist rfl (.of_reads rfl) (fun _ _ hin => hin) (fun _ _ hf => .inl hf)
    fun _ _ hdue => hdue

theorem Kept.stop (h : Kept s) (ids : List AccountId)
    (hgone : ∀ row ∈ s.bodies.rows, row.1.1 ∈ ids → s.Due row.1.1) : Kept (s.stop ids) := by
  refine h.fewer (.refl _) rfl ?_ (fun _ _ hin => hin) ?_ fun _ _ hdue => hdue
  · intro ticket read hread _ _
    refine ⟨{ read with stopped := read.stopped || read.fetch.accountId ∈ ids }, ?_, rfl, rfl⟩
    rw [State.stop, Record.get_mapped, hread]
    rfl
  · rintro row hrow ⟨hforgotten, hout⟩
    by_cases hin : row.1.1 ∈ ids
    · exact .inr (hgone row hrow hin)
    · refine .inl ⟨hforgotten, fun hlisted => hout (List.mem_filter.2 ⟨hlisted, ?_⟩)⟩
      exact decide_eq_true hin

theorem Kept.forget (h : Kept s) (ids : List AccountId) : Kept (s.forget ids) := by
  refine h.fewer (.refl _) rfl (.of_reads rfl) (fun _ _ hin => hin) ?_
    fun row _ hdue => hdue.line rfl rfl fun hin => List.mem_append_left _ hin
  rintro row hrow ⟨hforgotten, hout⟩
  rcases List.mem_append.1 hforgotten with hin | hin
  · exact .inr (.inr (List.mem_append_right _ (List.mem_map_of_mem hin)))
  · exact .inl ⟨hin, hout⟩

theorem Kept.empty (hrows : s.bodies.rows = []) : Kept s where
  present := by
    rw [hrows]
    exact fun _ hrow => absurd hrow List.not_mem_nil
  wanted := by
    rw [hrows]
    exact fun _ hrow => absurd hrow List.not_mem_nil
  bounded := by
    refine .inl ?_
    rw [State.standing, bodySizes, hrows]
    exact inBounds_nil

/-- A sign-out: every row is about to leave. -/
theorem Kept.clear (h : Kept s) : Kept { s.halt with destroys := s.destroys + 1 } where
  present := h.present
  wanted := fun _ _ _ => .inl (Nat.succ_pos _)
  bounded := by
    refine .inl ?_
    rw [standing_of_destroy (Nat.succ_pos s.destroys)]
    exact inBounds_nil

/-- A halt forgets every account of the list at the new generation. -/
theorem Kept.halt (h : Kept s) {expired : List Nat}
    (hsound : s.destroys = 0 → (∀ row ∈ s.bodies.rows, ¬ s.Forgotten row.1.1) ∧ InBounds s.outside) :
    Kept ({ s with expired }.halt.forget s.accounts) := by
  have hlisted : ∀ accountId ∈ s.accounts,
      ({ s with expired }.halt.forget s.accounts).Due accountId :=
    fun accountId hin => .inr (List.mem_append_right _ (List.mem_map_of_mem hin))
  rcases Nat.eq_zero_or_pos s.destroys with hnone | hsome
  · obtain ⟨hkept, hin⟩ := hsound hnone
    refine ⟨h.present, ?_, .inl (hin.sublist (filter_sublist_filter (.refl _) ?_))⟩
    · rintro row hrow ⟨hforgotten, -⟩
      by_cases hlist : row.1.1 ∈ s.accounts
      · exact hlisted _ hlist
      · rcases List.mem_append.1 hforgotten with hin | hin
        · exact absurd hin hlist
        · exact absurd ⟨hin, hlist⟩ (hkept row hrow)
    · intro size _ hstands
      rw [decide_eq_true_eq] at hstands ⊢
      exact fun hlist => hstands (hlisted _ hlist)
  · refine ⟨h.present, fun _ _ _ => .inl hsome, .inl ?_⟩
    rw [standing_of_destroy (show 0 < ({ s with expired }.halt.forget s.accounts).destroys from
      hsome)]
    exact inBounds_nil

/-- The list of a lease. -/
theorem Kept.setAccounts (h : Kept s) (ids : List AccountId) (fresh : Bool) :
    Kept (s.setAccounts ids fresh) := by
  have hlisted : Kept { s with accounts := firsts (s.accounts ++ ids) } := by
    refine h.fewer (.refl _) rfl (.of_reads rfl) (fun _ _ hin => hin) ?_ fun _ _ hdue => hdue
    rintro row - ⟨hforgotten, hout⟩
    exact .inl ⟨hforgotten, fun hin => hout (mem_firsts.2 (List.mem_append_left _ hin))⟩
  have hleft := (hlisted.forget (s.accounts.filter (· ∉ ids))).stop (s.accounts.filter (· ∉ ids))
    fun row _ hin => .inr (List.mem_append_right _ (List.mem_map_of_mem hin))
  rw [State.setAccounts]
  cases fresh with
  | false => exact hleft
  | true => exact ⟨hleft.present, hleft.wanted, hleft.bounded⟩

theorem holder_account {accountId : AccountId} {request : Request}
    (h : s.holder accountId = some request) : request.accountId = accountId := by
  have hp := List.find?_some h
  exact of_decide_eq_true hp

/-- The batch of a `forget`: the rows of its account leave, or it is of an older generation. -/
theorem Kept.forgets (h : Kept s) {accountId : AccountId} {generation : Nat} :
    Kept (let left := { s with line := s.line.erase ⟨accountId, .forget, generation⟩ }
      if generation = s.generation then left.without fun key => key.1 = accountId else left) := by
  have herased : ∀ other, ¬ (generation = s.generation ∧ other = accountId) →
      (⟨other, .forget, s.generation⟩ : Request) ∈ s.line →
      (⟨other, .forget, s.generation⟩ : Request) ∈
        s.line.erase ⟨accountId, .forget, generation⟩ := by
    intro other hne hin
    refine (List.mem_erase_of_ne fun heq => hne ?_).2 hin
    obtain ⟨haccount, -, hsame⟩ := Request.mk.inj heq
    exact ⟨hsame.symm, haccount⟩
  dsimp only
  split
  · rename_i hcurrent
    refine h.fewer List.filter_sublist rfl (.of_reads rfl) (fun _ _ hin => hin)
      (fun _ _ hf => .inl hf) fun row hrow hdue => hdue.line rfl rfl ?_
    have hother := not_not.1 (of_decide_eq_true (List.mem_filter.1 hrow).2)
    exact herased _ fun heq => hother heq.2
  · rename_i hstale
    exact h.line fun other => herased other fun heq => hstale heq.1

/-- A body stored by a current read, which evicts behind it. -/
theorem Kept.store (h : Kept s) (next : Read) (body : EmailBody)
    (hgeneration : next.generation = s.generation)
    (hsound : (next.fetch.accountId, body.id) ∉ s.gone ∧
      (s.Forgotten next.fetch.accountId → s.Due next.fetch.accountId)) :
    Kept ({ s with bodies := s.bodies.put (next.fetch.accountId, body.id) body }.staged ticket next
      .measuring) where
  present := by
    intro row hrow
    rcases Record.mem_put.1 hrow with ⟨hrow, -⟩ | rfl
    · exact h.present row hrow
    · exact hsound.1
  wanted := by
    intro row hrow hforgotten
    rcases Record.mem_put.1 hrow with ⟨hrow, -⟩ | rfl
    · exact h.wanted row hrow hforgotten
    · exact hsound.2 hforgotten
  bounded := .inr ⟨ticket, { next with stage := .measuring },
    by rw [State.staged, Record.get_put, if_pos rfl], hgeneration, trivial⟩

/-- The sizes that `evict` reads make its batches. -/
theorem Kept.measure (h : Kept s) (hread : s.reads.get ticket = some read)
    (hperm : sizes.Perm (bodySizes s.bodies)) :
    Kept (s.staged ticket read (.evicting (evict sizes))) where
  present := h.present
  wanted := h.wanted
  bounded := by
    by_cases hcurrent : read.generation = s.generation
    · refine .inr ⟨ticket, { read with stage := .evicting (evict sizes) }, ?_, hcurrent, ?_⟩
      · rw [State.staged, Record.get_put, if_pos rfl]
      · have hin := (evicted_inBounds sizes).perm (hperm.filter _)
        exact hin.sublist (List.filter_sublist.filter _)
    · refine (h.started (fun found hfound hsame => ?_) _).bounded
      obtain rfl := Option.some.inj (hread.symm.trans hfound)
      exact absurd hsame hcurrent

/-- What a batch of `evict` removed need not be removed again. -/
theorem names_only {leaving : Leaving} {accountId : AccountId} {ids : List EmailId}
    {key : AccountId × EmailId} (hget : leaving.get accountId = some ids)
    (h : leaving.names key = true) (hkey : ¬ (key.1 = accountId ∧ key.2 ∈ ids)) :
    Leaving.names (leaving.only (· ≠ accountId)) key = true := by
  have hother : key.1 ≠ accountId := by
    intro heq
    rw [Leaving.names, heq, hget] at h
    exact hkey ⟨heq, List.contains_iff_mem.1 h⟩
  rw [Leaving.names, Record.get_only, if_pos hother]
  exact h

theorem Kept.remove (h : Kept s) {leaving : Leaving} {accountId : AccountId} {ids : List EmailId}
    (hread : s.reads.get ticket = some read) (hstage : read.stage = .evicting leaving)
    (hget : leaving.get accountId = some ids) :
    Kept ((s.without fun key => key.1 = accountId ∧ key.2 ∈ ids).staged ticket read
      (.evicting (leaving.only (· ≠ accountId)))) := by
  have hless := h.without fun key => key.1 = accountId ∧ key.2 ∈ ids
  refine ⟨hless.present, hless.wanted, ?_⟩
  have hsub : (s.without fun key => key.1 = accountId ∧ key.2 ∈ ids).standing.Sublist s.standing :=
    State.standing_sublist List.filter_sublist fun _ _ hdue => hdue
  rcases h.bounded with hin | ⟨other, found, hfound, hcurrent, hclears⟩
  · exact .inl (hin.sublist hsub)
  by_cases heq : other = ticket
  · -- The read itself: what it has still to remove is removed here.
    obtain rfl : found = read := by
      rw [heq, hread] at hfound
      exact (Option.some.inj hfound).symm
    rw [hstage] at hclears
    refine .inr ⟨ticket, { found with stage := .evicting (leaving.only (· ≠ accountId)) }, ?_,
      hcurrent, InBounds.sublist hclears (filter_sublist_filter hsub fun size hsize hkept => ?_)⟩
    · rw [State.staged, Record.get_put, if_pos rfl]
    · obtain ⟨row, hrow, rfl⟩ := List.mem_map.1 (List.mem_filter.1 hsize).1
      have hstays : ¬ (row.1.1 = accountId ∧ row.1.2 ∈ ids) :=
        not_not.1 (of_decide_eq_true (List.mem_filter.1 hrow).2)
      rw [Bool.not_eq_true', Bool.eq_false_iff] at hkept ⊢
      exact fun hnamed => hkept (names_only hget hnamed hstays)
  · refine .inr ⟨other, found, ?_, hcurrent, hclears.sublist hsub⟩
    rw [State.staged, Record.get_put, if_neg heq]
    exact hfound

/-- A read that has removed all it had to. -/
theorem Kept.settle (h : Kept s) {leaving : Leaving} (hread : s.reads.get ticket = some read)
    (hstage : read.stage = .evicting leaving) (hempty : leaving.rows = []) :
    Kept (s.ended ticket) := by
  refine ⟨h.present, h.wanted, ?_⟩
  rcases h.bounded with hin | ⟨other, found, hfound, hcurrent, hclears⟩
  · exact .inl hin
  by_cases heq : other = ticket
  · rw [heq, hread] at hfound
    obtain rfl := Option.some.inj hfound
    rw [hstage] at hclears
    have hin : InBounds (s.standing.filter fun size =>
      !leaving.names (size.accountId, size.id)) := hclears
    rw [List.filter_eq_self.2 ?_] at hin
    · exact .inl hin
    · intro size _
      have hnone : leaving.get size.accountId = none :=
        Record.get_eq_none.2 fun ids hin => by simp [Table.mem_def, hempty] at hin
      rw [Leaving.names, hnone]
      rfl
  · refine .inr ⟨other, found, ?_, hcurrent, hclears⟩
    rw [State.ended, Record.get_only, if_pos heq]
    exact hfound

end

end Huliho.Fetching
