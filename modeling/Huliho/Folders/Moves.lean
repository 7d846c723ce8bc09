import Huliho.Folders.Send

/-!
# The names a rename moves

A RENAME moves the old name and what lies under it and leaves every subscription behind; the work
then moves the followers' ones (`Sending.follow`). **`Names.get_renamed`** says what name a mailbox
has then, **`of_mem_follow`** and **`mem_follow_new`** what is subscribed.
-/

namespace Huliho.Folders

/-! ## The names a rename moves -/

theorem isPrefixOf?_eq {l m rest : List Char} (h : l.isPrefixOf? m = some rest) : m = l ++ rest := by
  induction l generalizing m with
  | nil => exact Option.some.inj h
  | cons a l ih =>
    cases m with
    | nil => cases h
    | cons b m =>
      rw [List.isPrefixOf?] at h
      split at h
      · rename_i hab
        rw [beq_iff_eq.1 hab, ih h]
        rfl
      · cases h

/-- A name moved to a new one changes. -/
theorem moved_ne {wire old new moving : String} {delimiter : Option Char} (hne : new ≠ old)
    (h : moved wire old new delimiter = some moving) : moving ≠ wire := by
  unfold moved at h
  split at h
  · rename_i hold
    rw [hold, ← Option.some.inj h]
    exact hne
  split at h
  · rename_i first rest found hprefix
    split at h
    · rename_i hfirst
      subst hfirst
      obtain rfl := Option.some.inj h
      intro heq
      have hlists := congrArg String.toList heq
      rw [isPrefixOf?_eq hprefix, String.toList_append, String.toList_ofList] at hlists
      exact hne (String.toList_inj.1 (List.append_cancel_right hlists))
    · cases h
  · cases h

namespace Names

variable {names : Names} {old new : String} {delimiter : Option Char}

theorem mem_moves {move : Moved} : move ∈ names.moves old new delimiter ↔
    names.get move.id = some move.old ∧ moved move.old old new delimiter = some move.new := by
  rw [moves, List.mem_insertionSort, List.mem_filterMap]
  constructor
  · rintro ⟨⟨id, wire⟩, hmem, hmove⟩
    obtain ⟨moving, hmoving, rfl⟩ := Option.map_eq_some_iff.1 hmove
    exact ⟨Record.get_eq_some.2 hmem, hmoving⟩
  · rintro ⟨hget, hmoving⟩
    exact ⟨(move.id, move.old), Record.get_eq_some.1 hget, by rw [hmoving]; rfl⟩

/-- The move of a mailbox is one. -/
theorem moves_unique {a b : Moved} (ha : a ∈ names.moves old new delimiter)
    (hb : b ∈ names.moves old new delimiter) (h : a.id = b.id) : a = b := by
  obtain ⟨hget, hmoving⟩ := mem_moves.1 ha
  obtain ⟨hget', hmoving'⟩ := mem_moves.1 hb
  rw [h] at hget
  have hold : a.old = b.old := Option.some.inj (hget.symm.trans hget')
  rw [hold] at hmoving
  have hnew : a.new = b.new := Option.some.inj (hmoving.symm.trans hmoving')
  cases a
  cases b
  simp only at h hold hnew
  rw [h, hold, hnew]

theorem get_foldl_put {moves : List Moved} {id : MailboxId} (wire : String)
    (hone : ∀ move ∈ moves, move.id = id → move.new = wire) :
    (moves.foldl (fun names move => Record.put names move.id move.new) names).get id =
      if ∃ move ∈ moves, move.id = id then some wire else names.get id := by
  induction moves generalizing names with
  | nil => rfl
  | cons move moves ih =>
    rw [List.foldl_cons, ih fun other hother => hone other (List.mem_cons_of_mem _ hother),
      Record.get_put]
    by_cases hid : id = move.id
    · have hnew := hone move List.mem_cons_self hid.symm
      have hin : ∃ other ∈ move :: moves, other.id = id := ⟨move, List.mem_cons_self, hid.symm⟩
      rw [if_pos hin, if_pos hid, hnew]
      split <;> rfl
    · have hiff : (∃ other ∈ move :: moves, other.id = id) ↔ ∃ other ∈ moves, other.id = id := by
        constructor
        · rintro ⟨other, hother, rfl⟩
          rcases List.mem_cons.1 hother with rfl | hother
          · exact absurd rfl hid
          · exact ⟨other, hother, rfl⟩
        · rintro ⟨other, hother, rfl⟩
          exact ⟨other, List.mem_cons_of_mem _ hother, rfl⟩
      rw [if_neg hid, if_congr hiff rfl rfl]

/-- **Every mailbox keeps a name, the moved one where its own moved.** -/
theorem get_renamed (id : MailboxId) : (names.renamed old new delimiter).get id =
    (names.get id).map fun wire => (moved wire old new delimiter).getD wire := by
  cases hget : names.get id with
  | none =>
    have hnone : ¬ ∃ move ∈ names.moves old new delimiter, move.id = id := by
      rintro ⟨move, hmove, rfl⟩
      rw [(mem_moves.1 hmove).1] at hget
      cases hget
    rw [renamed, get_foldl_put "" fun move hmove hid =>
      absurd ⟨move, hmove, hid⟩ hnone, if_neg hnone, hget]
    rfl
  | some wire =>
    cases hmoving : moved wire old new delimiter with
    | none =>
      have hnone : ¬ ∃ move ∈ names.moves old new delimiter, move.id = id := by
        rintro ⟨move, hmove, rfl⟩
        obtain ⟨hget', hmoving'⟩ := mem_moves.1 hmove
        obtain rfl := Option.some.inj (hget.symm.trans hget')
        rw [hmoving] at hmoving'
        cases hmoving'
      rw [renamed, get_foldl_put "" fun move hmove hid =>
        absurd ⟨move, hmove, hid⟩ hnone, if_neg hnone, hget, Option.map_some, hmoving]
      rfl
    | some moving =>
      have hmove : (⟨id, wire, moving⟩ : Moved) ∈ names.moves old new delimiter :=
        mem_moves.2 ⟨hget, hmoving⟩
      rw [renamed, get_foldl_put moving fun other hother hid =>
        congrArg Moved.new (moves_unique hother hmove hid), if_pos ⟨_, hmove, rfl⟩,
        Option.map_some, hmoving]
      rfl

end Names

/-! ## The followers' subscriptions -/

section Follow

variable {moves : List Moved} {followers : List MailboxId} {server : Server} {name : String}

theorem followOne_none {id : MailboxId} (h : ∀ move ∈ moves, move.id ≠ id) :
    Sending.followOne moves server id = server := by
  have hfind : moves.find? (fun move => move.id = id) = none :=
    List.find?_eq_none.2 fun move hmove => by simpa using h move hmove
  simp only [Sending.followOne, hfind]

theorem followOne_some {move : Moved} (hmove : move ∈ moves)
    (hone : ∀ a ∈ moves, ∀ b ∈ moves, a.id = b.id → a = b) :
    Sending.followOne moves server move.id =
      (server.subscribe move.new).unsubscribe move.old := by
  cases hfind : moves.find? fun other => other.id = move.id with
  | none => exact absurd (decide_eq_true rfl) (List.find?_eq_none.1 hfind move hmove)
  | some found =>
    have hid := List.find?_some hfind
    obtain rfl := hone found (List.mem_of_find?_eq_some hfind) move hmove (of_decide_eq_true hid)
    simp only [Sending.followOne, hfind]

theorem mem_tidied {move : Moved} : name ∈ ((server.subscribe move.new).unsubscribe
    move.old).subscribed ↔ name ≠ move.old ∧ (name = move.new ∨ name ∈ server.subscribed) := by
  rw [Server.unsubscribe, Server.subscribe, Finset.mem_erase, Finset.mem_insert]

@[simp] theorem follow_existing :
    (Sending.follow moves followers server).existing = server.existing := by
  induction followers generalizing server with
  | nil => rfl
  | cons id followers ih =>
    refine ih.trans ?_
    unfold Sending.followOne
    split <;> rfl

@[simp] theorem follow_delimiters :
    (Sending.follow moves followers server).delimiters = server.delimiters := by
  induction followers generalizing server with
  | nil => rfl
  | cons id followers ih =>
    refine ih.trans ?_
    unfold Sending.followOne
    split <;> rfl

variable (hone : ∀ a ∈ moves, ∀ b ∈ moves, a.id = b.id → a = b)
include hone

/-- What is subscribed behind the followers is a new name of one, or was and is no old name. -/
theorem of_mem_follow (h : name ∈ (Sending.follow moves followers server).subscribed) :
    (∃ move ∈ moves, move.id ∈ followers ∧ move.new = name) ∨
      name ∈ server.subscribed ∧ ∀ move ∈ moves, move.id ∈ followers → move.old ≠ name := by
  induction followers generalizing server with
  | nil => exact .inr ⟨h, nofun⟩
  | cons id followers ih =>
    rcases ih h with ⟨move, hmove, hid, hnew⟩ | ⟨hin, hnone⟩
    · exact .inl ⟨move, hmove, List.mem_cons_of_mem _ hid, hnew⟩
    · by_cases hmoved : ∃ move ∈ moves, move.id = id
      · obtain ⟨move, hmove, rfl⟩ := hmoved
        rw [followOne_some hmove hone, mem_tidied] at hin
        obtain ⟨hne, rfl | hin⟩ := hin
        · exact .inl ⟨move, hmove, List.mem_cons_self, rfl⟩
        · refine .inr ⟨hin, fun other hother hid => ?_⟩
          rcases List.mem_cons.1 hid with hid | hid
          · rw [hone other hother move hmove hid]
            exact hne.symm
          · exact hnone other hother hid
      · rw [followOne_none fun move hmove hid => hmoved ⟨move, hmove, hid⟩] at hin
        refine .inr ⟨hin, fun other hother hid => ?_⟩
        rcases List.mem_cons.1 hid with hid | hid
        · exact absurd ⟨other, hother, hid⟩ hmoved
        · exact hnone other hother hid

/-- A subscribed name stays so where no follower gives it up. -/
theorem mem_follow_kept (h : name ∈ server.subscribed)
    (hkept : ∀ move ∈ moves, move.id ∈ followers → move.old ≠ name) :
    name ∈ (Sending.follow moves followers server).subscribed := by
  induction followers generalizing server with
  | nil => exact h
  | cons id followers ih =>
    refine ih ?_ fun move hmove hid => hkept move hmove (List.mem_cons_of_mem _ hid)
    by_cases hmoved : ∃ move ∈ moves, move.id = id
    · obtain ⟨move, hmove, rfl⟩ := hmoved
      rw [followOne_some hmove hone, mem_tidied]
      exact ⟨(hkept move hmove List.mem_cons_self).symm, .inr h⟩
    · rwa [followOne_none fun move hmove hid => hmoved ⟨move, hmove, hid⟩]

/-- A follower ends subscribed under its new name, where no follower behind it gives that name up. -/
theorem mem_follow_new {move : Moved} (hmove : move ∈ moves) (hne : move.new ≠ move.old)
    (hordered : followers.Pairwise fun i j => ∀ a ∈ moves, ∀ b ∈ moves, a.id = i → b.id = j →
      a.new ≠ b.old) (hin : move.id ∈ followers) :
    move.new ∈ (Sending.follow moves followers server).subscribed := by
  induction followers generalizing server with
  | nil => cases hin
  | cons id followers ih =>
    obtain ⟨hfirst, hordered⟩ := List.pairwise_cons.1 hordered
    by_cases hlater : move.id ∈ followers
    · exact ih hordered hlater
    · obtain rfl : move.id = id := (List.mem_cons.1 hin).resolve_right hlater
      show move.new ∈ (Sending.follow moves followers
        (Sending.followOne moves server move.id)).subscribed
      refine mem_follow_kept hone ?_ fun other hother hid heq => ?_
      · rw [followOne_some hmove hone, mem_tidied]
        exact ⟨hne, .inl rfl⟩
      · exact hfirst other.id hid move hmove other hother rfl rfl heq.symm

end Follow

end Huliho.Folders
