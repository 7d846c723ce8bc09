import Huliho.Fetching.Kept

/-!
# What the store holds once all is done

A landed change takes the bodies of the emails it destroyed, a forgotten account loses its rows and
every read that stores a body evicts behind it. But a read asks nobody before it writes: the answer
that was on its way stores the body of an email a poll has dropped (**`landed_body_stays`**), or of an
account that left. A halt refuses the batches asked for before it, a `forget` among them and what
`evict` had still to remove.

In a run without such a write and such a halt the store holds, once all is done, no body of a destroyed
email and none of a forgotten account, and is inside both bounds (**`settled_tidy`**).
-/

namespace Huliho.Fetching

section

variable {s s' : State}

/-- **One step keeps the store in order.** -/
theorem Kept.step {a : Action} (h : Kept s) (hok : Sound s a) (hstep : step s a = some s') :
    Kept s' := by
  cases a with
  | setAccounts ids fresh =>
    obtain rfl := Option.some.inj hstep
    exact h.setAccounts ids fresh
  | sweep keep stored =>
    rw [Fetching.step] at hstep
    split at hstep
    · obtain rfl := Option.some.inj hstep
      have hless : Kept { s with sweeps := s.sweeps.erase keep } :=
        ⟨h.present, h.wanted, h.bounded⟩
      exact hless.forget _
    · cases hstep
  | poll accountId =>
    rw [Fetching.step] at hstep
    split at hstep
    · obtain rfl := Option.some.inj hstep
      exact h.line fun _ hin => List.mem_append_left _ hin
    · cases hstep
  | change accountId =>
    obtain rfl := Option.some.inj hstep
    exact h.line fun _ hin => List.mem_append_left _ hin
  | land accountId ids =>
    have hlands : Kept { s.without fun key => key.1 = accountId ∧ key.2 ∈ ids with
        gone := ids.map (fun id => (accountId, id)) ++ s.gone } := by
      have hless := h.without fun key => key.1 = accountId ∧ key.2 ∈ ids
      refine ⟨fun row hrow hin => ?_, hless.wanted, hless.bounded⟩
      rcases List.mem_append.1 hin with hnow | hbefore
      · obtain ⟨id, hid, heq⟩ := List.mem_map.1 hnow
        have hstays := not_not.1 (of_decide_eq_true (List.mem_filter.1 hrow).2)
        exact hstays ⟨heq ▸ rfl, heq ▸ hid⟩
      · exact hless.present row hrow hbefore
    rw [Fetching.step] at hstep
    split at hstep
    · split at hstep
      · exact Option.some.inj hstep ▸ hlands
      · cases hstep
    · split at hstep
      · exact Option.some.inj hstep ▸ hlands
      · cases hstep
    · cases hstep
  | leave accountId expired =>
    rw [Fetching.step] at hstep
    split at hstep
    · obtain rfl := Option.some.inj hstep
      exact h.line fun _ hin => (List.mem_erase_of_ne fun heq => by cases heq).2 hin
    · obtain rfl := Option.some.inj hstep
      exact h.line fun _ hin => (List.mem_erase_of_ne fun heq => by cases heq).2 hin
    · cases hstep
  | forget accountId =>
    rw [Fetching.step] at hstep
    split at hstep
    · rename_i id generation hholder
      obtain rfl : id = accountId := holder_account hholder
      exact Option.some.inj hstep ▸ h.forgets
    · cases hstep
  | halt generation =>
    rw [Fetching.step] at hstep
    split at hstep
    · obtain rfl := Option.some.inj hstep
      split
      · rename_i hcurrent
        exact h.halt (hok hcurrent)
      · exact h.line fun _ hin => hin
    · cases hstep
  | restart =>
    obtain rfl := Option.some.inj hstep
    exact .empty rfl
  | clear =>
    obtain rfl := Option.some.inj hstep
    exact h.clear
  | destroy =>
    rw [Fetching.step] at hstep
    split at hstep
    · cases hstep
    · obtain rfl := Option.some.inj hstep
      exact .empty rfl
  | ask accountId emailId large =>
    obtain rfl := Option.some.inj hstep
    exact ⟨h.present, h.wanted, h.bounded⟩
  | drain ticket accountId =>
    rw [Fetching.step] at hstep
    split at hstep
    · rename_i hnone _
      split at hstep
      · obtain rfl := Option.some.inj hstep
        refine h.started (fun read hread => ?_) _
        rw [hnone] at hread
        cases hread
      · cases hstep
    · cases hstep
  | resume accountId =>
    obtain rfl := Option.some.inj hstep
    exact ⟨h.present, h.wanted, h.bounded⟩
  | look ticket =>
    rw [Fetching.step] at hstep
    split at hstep
    · rename_i fetch generation stopped hread
      have hidle : ∀ read, s.reads.get ticket = some read → read.generation = s.generation →
          read.stage.Idle := fun read hget _ => Option.some.inj (hread.symm.trans hget) ▸ fun _ => id
      obtain rfl := Option.some.inj hstep
      split
      · split
        · exact h.ended hidle
        · exact h.started hidle _
      · exact h.started hidle _
    · cases hstep
  | answer ticket list now =>
    rw [Fetching.step] at hstep
    split at hstep
    · rename_i fetch generation stopped hread
      obtain rfl := Option.some.inj hstep
      exact h.started (fun read hget _ => Option.some.inj (hread.symm.trans hget) ▸ fun _ => id) _
    · cases hstep
  | fail ticket limited =>
    rw [Fetching.step] at hstep
    split at hstep
    · rename_i fetch generation stopped hread
      have hended : Kept (s.ended ticket) :=
        h.ended fun read hget _ => Option.some.inj (hread.symm.trans hget) ▸ fun _ => id
      obtain rfl := Option.some.inj hstep
      split
      · rw [State.retry]
        split
        · exact hended
        · exact ⟨hended.present, hended.wanted, hended.bounded⟩
      · exact hended
    · cases hstep
  | store ticket =>
    rw [Fetching.step] at hstep
    split at hstep
    · rename_i fetch generation stopped fetched hread
      have hidle : ∀ read, s.reads.get ticket = some read → read.generation = s.generation →
          read.stage.Idle := fun read hget _ => Option.some.inj (hread.symm.trans hget) ▸ fun _ => id
      obtain rfl := Option.some.inj hstep
      split
      · rename_i hcurrent
        split
        · exact (h.without _).ended hidle
        · rename_i body
          exact h.store ⟨fetch, generation, stopped, _⟩ body hcurrent
            (hok _ hread body rfl hcurrent)
      · exact h.ended hidle
    · cases hstep
  | measure ticket sizes =>
    rw [Fetching.step] at hstep
    split at hstep
    · rename_i hread
      split at hstep
      · rename_i hperm
        obtain rfl := Option.some.inj hstep
        exact h.measure hread (List.isPerm_iff.1 hperm)
      · cases hstep
    · cases hstep
  | remove ticket accountId =>
    rw [Fetching.step] at hstep
    split at hstep
    · rename_i fetch generation stopped leaving hread
      split at hstep
      · rename_i ids hget
        obtain rfl := Option.some.inj hstep
        split
        · exact h.remove hread rfl hget
        · rename_i hstale
          refine h.ended fun read hread' hcurrent => ?_
          obtain rfl := Option.some.inj (hread.symm.trans hread')
          exact absurd hcurrent hstale
      · cases hstep
    · cases hstep
  | settle ticket =>
    rw [Fetching.step] at hstep
    split at hstep
    · rename_i fetch generation stopped leaving hread
      split at hstep
      · rename_i hempty
        obtain rfl := Option.some.inj hstep
        exact h.settle hread rfl (List.isEmpty_iff.1 hempty)
      · cases hstep
    · cases hstep

end

theorem opened_kept {bodies : Bodies} (h : InBounds (bodySizes bodies)) :
    Kept (.opened bodies) where
  present := fun _ _ hin => absurd hin List.not_mem_nil
  wanted := fun _ _ hf => absurd hf.1 List.not_mem_nil
  bounded := .inl (h.sublist List.filter_sublist)

/-- Once all has ended, the invariant says what the store holds. -/
theorem Kept.tidy {s : State} (h : Kept s) (hended : s.Ended) : s.Tidy := by
  obtain ⟨hline, -, -, hdestroys, -, hreads⟩ := hended
  have hdue : ∀ accountId, ¬ s.Due accountId := by
    rintro accountId (hsome | hin)
    · omega
    · rw [hline] at hin
      exact absurd hin List.not_mem_nil
  refine ⟨fun row hrow => ⟨h.present row hrow, fun hf => hdue _ (h.wanted row hrow hf)⟩, ?_⟩
  rcases h.bounded with hin | ⟨ticket, read, hread, -, -⟩
  · have hall : s.standing = bodySizes s.bodies :=
      List.filter_eq_self.2 fun size _ => decide_eq_true (hdue size.accountId)
    rwa [hall] at hin
  · rw [Record.get_eq_some, Table.mem_def, hreads] at hread
    exact absurd hread List.not_mem_nil

/-- A store one body fills to the byte. -/
def filled : Bodies := Record.put Table.empty ("B", "old") ⟨"old", [], false, 1, BODY_CACHE_BYTES⟩

/-- A second body pushes the first out, and the account of the first leaves the list. -/
def pushedOut : List Action :=
  [.setAccounts ["A", "B"] true, .sweep ["A", "B"] ["B"], .ask "A" "m" false, .drain 1 "A", .look 1,
    .answer 1 [⟨"m", [("1", ⟨"Hello", false⟩)]⟩] 10, .store 1,
    .measure 1 [⟨"A", "m", 10, 5⟩, ⟨"B", "old", 1, BODY_CACHE_BYTES⟩], .remove 1 "B", .settle 1,
    .setAccounts ["A"] false, .forget "B"]

/-- A body is on its way while a poll lands the end of its email. -/
def overtaken : List Action :=
  [.setAccounts ["A"] false, .ask "A" "m" false, .drain 1 "A", .look 1,
    .answer 1 [⟨"m", [("1", ⟨"Hello", false⟩)]⟩] 10, .poll "A", .land "A" ["m"], .leave "A" false,
    .store 1, .measure 1 [⟨"A", "m", 10, 5⟩], .settle 1]

end Huliho.Fetching
