import Huliho.Folders.Moves

/-!
# What the names and the subscriptions keep

`Following` ties the names, the names that exist and the subscriptions to the rows the check ended
with; every step of the work keeps it. A rename keeps it where it is `Carried`: every subscribed
name it moves is a follower's (**`rename_following`**).
-/

namespace Huliho.Folders

/-- The server stands as the rows say. -/
structure Matches (snapshot : MailboxSnapshot) (server : Server) : Prop where
  apart : ∀ a b row other, snapshot.table.get a = some row → snapshot.table.get b = some other →
    row.imapName = other.imapName → a = b
  existing : ∀ wire, wire ∈ server.existing ↔
    ∃ id row, snapshot.table.get id = some row ∧ row.imapName = wire
  subscribed : ∀ wire, wire ∈ server.subscribed ↔
    ∃ id row, snapshot.table.get id = some row ∧ row.imapName = wire ∧ row.subscribed = true

/-- No step destroys the mailbox. -/
def Spared (steps : List Step) (id : MailboxId) : Prop :=
  ∀ index subscribed, Step.destroy index id subscribed ∉ steps

/-- A mailbox subscribed before and neither destroyed nor unsubscribed by a step. -/
structure Wanted (snapshot : MailboxSnapshot) (steps : List Step) (id : MailboxId) : Prop where
  before : ∃ row, snapshot.table.get id = some row ∧ row.subscribed = true
  spared : Spared steps id
  kept : ∀ index rename followers role,
    Step.update index id rename followers (some false) role ∉ steps

/-- The names and the subscriptions behind some steps, with the rows the check ended with. -/
structure Following (setting : Setting) (rows : Record MailboxId MailboxRow) (steps : List Step)
    (sending : Sending) : Prop where
  agreed : sending.listing = sending.server.delimiters
  apart : ∀ a b wire, sending.names.get a = some wire → sending.names.get b = some wire → a = b
  existing : ∀ wire, wire ∈ sending.server.existing ↔
    ∃ id, sending.names.get id = some wire ∧ Spared steps id
  /-- No name is subscribed that does not exist. -/
  exists_of_subscribed : sending.server.subscribed ⊆ sending.server.existing
  wanted : ∀ id, Wanted setting.snapshot steps id →
    ∃ wire, sending.names.get id = some wire ∧ wire ∈ sending.server.subscribed
  /-- A mailbox to be destroyed is subscribed only where its row says so. -/
  doomed : ∀ id ∈ setting.destroying, ∀ wire, sending.names.get id = some wire →
    wire ∈ sending.server.subscribed → ∃ row, rows.get id = some row ∧ row.subscribed = true

/-- What a rename has to meet: every subscribed name it carries is a follower's, and none takes the
name of one behind it. -/
structure Carried (rows : Record MailboxId MailboxRow) (lies : MailboxId → Bool)
    (sending : Sending) (old new : String) (followers : List MailboxId) : Prop where
  complete : ∀ move ∈ sending.names.moves old new (sending.listing.under old),
    move.old ∈ sending.server.subscribed →
    ∃ row, rows.get move.id = some row ∧ row.subscribed = true ∧ lies move.id = true
  ordered : followers.Pairwise fun i j =>
    ∀ a ∈ sending.names.moves old new (sending.listing.under old),
    ∀ b ∈ sending.names.moves old new (sending.listing.under old),
      a.id = i → b.id = j → a.new ≠ b.old

theorem Wanted.of_concat {snapshot : MailboxSnapshot} {steps : List Step} {step : Step}
    {id : MailboxId} (h : Wanted snapshot (steps ++ [step]) id) : Wanted snapshot steps id where
  before := h.before
  spared := fun index subscribed hin => h.spared index subscribed (List.mem_append_left _ hin)
  kept := fun index rename followers role hin =>
    h.kept index rename followers role (List.mem_append_left _ hin)

section Steps

variable {setting : Setting} {rows : Record MailboxId MailboxRow} {steps : List Step}
variable {sending next : Sending}

theorem mem_existing (h : Following setting rows steps sending) {id : MailboxId} {wire : String}
    (hget : sending.names.get id = some wire) (hspared : Spared steps id) :
    wire ∈ sending.server.existing := (h.existing wire).2 ⟨id, hget, hspared⟩

theorem spared_concat {step : Step} {id : MailboxId} (hstep : ∀ index subscribed,
    step ≠ .destroy index id subscribed) : Spared (steps ++ [step]) id ↔ Spared steps id := by
  constructor
  · exact fun h index subscribed hin => h index subscribed (List.mem_append_left _ hin)
  · intro h index subscribed hin
    rcases List.mem_append.1 hin with hin | hin
    · exact h index subscribed hin
    · exact hstep index subscribed (List.mem_singleton.1 hin).symm

theorem create_following {index : Nat} {id : MailboxId} {naming : Naming}
    {role : Option (Option String)} {subscribe : Bool} (h : Following setting rows steps sending)
    (hspared : ∀ id, Spared steps id) (hnew : sending.names.get id = none)
    (hrow : ∃ row, rows.get id = some row ∧ row.subscribed = subscribe)
    (hsend : sending.create setting id naming subscribe = some next) :
    Following setting rows (steps ++ [.create index id naming role subscribe]) next := by
  rw [Sending.create] at hsend
  split at hsend
  · cases hsend
  rename_i name delimiter hname
  split at hsend
  · cases hsend
  rename_i server hserver
  rw [Server.create] at hserver
  split at hserver
  · cases hserver
  rename_i hfree
  obtain rfl := Option.some.inj hserver
  obtain rfl := Option.some.inj hsend
  have hspared' : ∀ other, Spared (steps ++ [.create index id naming role subscribe]) other ↔
      Spared steps other := fun other => spared_concat nofun
  have hold : ∀ other wire, sending.names.get other = some wire → other ≠ id := by
    rintro other wire hget rfl
    rw [hnew] at hget
    cases hget
  have hunsubscribed : name.wire ∉ sending.server.subscribed :=
    fun hin => hfree (h.exists_of_subscribed hin)
  refine ⟨?_, ?_, ?_, ?_, ?_, ?_⟩
  · have hlisting : sending.listing.made name.wire delimiter =
        sending.server.delimiters.made name.wire delimiter := by rw [h.agreed]
    cases subscribe <;> exact hlisting
  · intro a b wire ha hb
    rw [Record.get_put] at ha hb
    split at ha <;> split at hb
    · rename_i hid hid'
      exact hid.trans hid'.symm
    · obtain rfl := Option.some.inj ha
      exact absurd (mem_existing h hb (hspared b)) hfree
    · obtain rfl := Option.some.inj hb
      exact absurd (mem_existing h ha (hspared a)) hfree
    · exact h.apart a b wire ha hb
  · intro wire
    have hexisting : wire ∈ insert name.wire sending.server.existing ↔
        ∃ other, (sending.names.put id name.wire).get other = some wire ∧
          Spared (steps ++ [.create index id naming role subscribe]) other := by
      rw [Finset.mem_insert, h.existing]
      constructor
      · rintro (rfl | ⟨other, hget, hother⟩)
        · exact ⟨id, by rw [Record.get_put, if_pos rfl], (hspared' id).2 (hspared id)⟩
        · exact ⟨other, by rw [Record.get_put, if_neg (hold other wire hget), hget],
            (hspared' other).2 hother⟩
      · rintro ⟨other, hget, -⟩
        rw [Record.get_put] at hget
        split at hget
        · exact .inl (Option.some.inj hget).symm
        · exact .inr ⟨other, hget, hspared other⟩
    cases subscribe <;> exact hexisting
  · cases subscribe
    · exact h.exists_of_subscribed.trans (Finset.subset_insert _ _)
    · exact Finset.insert_subset_insert _ h.exists_of_subscribed
  · intro other hwanted
    obtain ⟨wire, hget, hin⟩ := h.wanted other hwanted.of_concat
    refine ⟨wire, by rw [Record.get_put, if_neg (hold other wire hget), hget], ?_⟩
    cases subscribe
    · exact hin
    · exact Finset.mem_insert_of_mem hin
  · intro other hdoomed wire hget hin
    rw [Record.get_put] at hget
    split at hget
    · rename_i hid
      obtain rfl := Option.some.inj hget
      obtain ⟨row, hrow, rfl⟩ := hrow
      cases hsubscribed : row.subscribed with
      | true => exact ⟨row, hid ▸ hrow, hsubscribed⟩
      | false =>
        rw [hsubscribed] at hin
        exact absurd hin hunsubscribed
    · refine h.doomed other hdoomed wire hget ?_
      cases subscribe
      · exact hin
      · rcases Finset.mem_insert.1 hin with rfl | hin
        · exact absurd (mem_existing h hget (hspared other)) hfree
        · exact hin

theorem Server.rename_ok {server next : Server} {old new : String}
    (h : server.rename old new = some next) :
    old ∈ server.existing ∧ new ∉ server.existing ∧ (∀ a ∈ server.existing,
      ∀ b ∈ server.existing, server.carried old new a = server.carried old new b → a = b) ∧
      next.existing = server.existing.image (server.carried old new) ∧
      next.delimiters = server.delimiters.renamed old new ∧
      next.subscribed = server.subscribed := by
  rw [Server.rename] at h
  split at h
  · rename_i htaken
    obtain rfl := Option.some.inj h
    exact ⟨htaken.1, htaken.2.1, htaken.2.2, rfl, rfl, rfl⟩
  · cases h

/-- **A rename that carries its followers keeps every subscription under the name it has.** -/
theorem rename_following {id : MailboxId} {naming : Naming} {followers : List MailboxId}
    {lies : MailboxId → Bool} (h : Following setting rows steps sending)
    (hspared : ∀ id, Spared steps id)
    (hfollowers : ∀ other, other ∈ followers ↔
      ∃ row, rows.get other = some row ∧ row.subscribed = true ∧ lies other = true)
    (hcarried : ∀ old name level, sending.names.get id = some old →
      sending.named setting naming = some (name, level) →
      Carried rows lies sending old name.wire followers)
    (hsend : sending.rename setting id naming followers = some next) :
    Following setting rows steps next := by
  rw [Sending.rename] at hsend
  split at hsend
  · rename_i old name level hold hname
    split at hsend
    · cases hsend
    rename_i server hserver
    have hcarried := hcarried old name level hold hname
    obtain ⟨hin, hfree, hone, hexisting, hdelimiters, hsubscribed⟩ := Server.rename_ok hserver
    obtain rfl := Option.some.inj hsend
    generalize hmoves : sending.names.moves old name.wire (sending.listing.under old) = moves at *
    have hcarry : ∀ wire, sending.server.carried old name.wire wire =
        (moved wire old name.wire (sending.listing.under old)).getD wire := by
      intro wire
      rw [Server.carried, h.agreed]
    have hmem : ∀ {move : Moved}, move ∈ moves ↔ sending.names.get move.id = some move.old ∧
        moved move.old old name.wire (sending.listing.under old) = some move.new := by
      intro move
      rw [← hmoves]
      exact Names.mem_moves
    have hget : ∀ other wire, (sending.names.renamed old name.wire
        (sending.listing.under old)).get other = some wire ↔ ∃ before,
        sending.names.get other = some before ∧ sending.server.carried old name.wire before =
          wire := by
      intro other wire
      rw [Names.get_renamed, Option.map_eq_some_iff]
      exact exists_congr fun before => and_congr_right fun _ => by rw [hcarry]
    have happart : ∀ a b wire, (sending.names.renamed old name.wire
        (sending.listing.under old)).get a = some wire → (sending.names.renamed old name.wire
        (sending.listing.under old)).get b = some wire → a = b := by
      intro a b wire ha hb
      obtain ⟨before, hbefore, rfl⟩ := (hget a wire).1 ha
      obtain ⟨other, hother, hsame⟩ := (hget b _).1 hb
      have := hone before (mem_existing h hbefore (hspared a)) other
        (mem_existing h hother (hspared b)) hsame.symm
      subst this
      exact h.apart a b before hbefore hother
    have hnew : name.wire ≠ old := by
      rintro heq
      exact hfree (heq ▸ hin)
    have hunique : ∀ a ∈ moves, ∀ b ∈ moves, a.id = b.id → a = b := by
      rw [← hmoves]
      exact fun a ha b hb => Names.moves_unique ha hb
    -- A subscribed name that moves is a follower's.
    have hfollows : ∀ move ∈ moves, move.old ∈ sending.server.subscribed → move.id ∈ followers := by
      intro move hmove hin
      exact (hfollowers move.id).2 (hcarried.complete move (hmoves ▸ hmove) hin)
    -- What is subscribed then was a follower's new name, or it did not move.
    have hstays : ∀ wire, wire ∈ (Sending.follow moves followers server).subscribed →
        (∃ move ∈ moves, move.id ∈ followers ∧ move.new = wire) ∨
          ∃ other, wire ∈ sending.server.subscribed ∧ sending.names.get other = some wire ∧
            moved wire old name.wire (sending.listing.under old) = none := by
      intro wire hwire
      rcases of_mem_follow hunique hwire with hmove | ⟨hin, hkept⟩
      · exact .inl hmove
      · rw [hsubscribed] at hin
        obtain ⟨other, hother, -⟩ := (h.existing wire).1 (h.exists_of_subscribed hin)
        refine .inr ⟨other, hin, hother, ?_⟩
        cases hmoved : moved wire old name.wire (sending.listing.under old) with
        | none => rfl
        | some moving =>
          have hmove : (⟨other, wire, moving⟩ : Moved) ∈ moves := hmem.2 ⟨hother, hmoved⟩
          exact absurd rfl (hkept _ hmove (hfollows _ hmove hin))
    refine ⟨?_, happart, ?_, ?_, ?_, ?_⟩
    · show sending.listing.renamed old name.wire = (Sending.follow moves followers server).delimiters
      rw [follow_delimiters, hdelimiters, h.agreed]
    · intro wire
      show wire ∈ (Sending.follow moves followers server).existing ↔ _
      rw [follow_existing, hexisting, Finset.mem_image]
      constructor
      · rintro ⟨before, hbefore, rfl⟩
        obtain ⟨other, hother, hspared⟩ := (h.existing before).1 hbefore
        exact ⟨other, (hget other _).2 ⟨before, hother, rfl⟩, hspared⟩
      · rintro ⟨other, hwire, hspared⟩
        obtain ⟨before, hbefore, rfl⟩ := (hget other wire).1 hwire
        exact ⟨before, mem_existing h hbefore hspared, rfl⟩
    · intro wire hwire
      show wire ∈ (Sending.follow moves followers server).existing
      rw [follow_existing, hexisting, Finset.mem_image]
      rcases hstays wire hwire with ⟨move, hmove, -, rfl⟩ | ⟨other, hin, -, hmoved⟩
      · obtain ⟨hold, hmoved⟩ := hmem.1 hmove
        refine ⟨move.old, mem_existing h hold (hspared move.id), ?_⟩
        rw [hcarry, hmoved]
        rfl
      · refine ⟨wire, h.exists_of_subscribed hin, ?_⟩
        rw [hcarry, hmoved]
        rfl
    · intro other hwanted
      obtain ⟨wire, hwire, hin⟩ := h.wanted other hwanted
      refine ⟨sending.server.carried old name.wire wire, (hget other _).2 ⟨wire, hwire, rfl⟩, ?_⟩
      rw [hcarry]
      cases hmoved : moved wire old name.wire (sending.listing.under old) with
      | none =>
        refine mem_follow_kept hunique (hsubscribed ▸ hin) fun move hmove _ heq => ?_
        obtain ⟨-, hmoved'⟩ := hmem.1 hmove
        rw [heq, Option.getD_none, hmoved] at hmoved'
        cases hmoved'
      | some moving =>
        have hmove : (⟨other, wire, moving⟩ : Moved) ∈ moves := hmem.2 ⟨hwire, hmoved⟩
        refine mem_follow_new hunique hmove (moved_ne hnew hmoved) ?_ (hfollows _ hmove hin)
        rw [← hmoves]
        exact hcarried.ordered
    · intro other hdoomed wire hwire hin
      rcases hstays wire hin with ⟨move, hmove, hfollower, rfl⟩ | ⟨last, hin, hlast, hmoved⟩
      · obtain ⟨hold, hmoved⟩ := hmem.1 hmove
        have hmoving : (sending.names.renamed old name.wire
            (sending.listing.under old)).get move.id = some move.new := by
          refine (hget move.id _).2 ⟨move.old, hold, ?_⟩
          rw [hcarry, hmoved]
          rfl
        obtain rfl := happart other move.id move.new hwire hmoving
        obtain ⟨row, hrow, hsub, -⟩ := (hfollowers move.id).1 hfollower
        exact ⟨row, hrow, hsub⟩
      · have hlast' : (sending.names.renamed old name.wire
            (sending.listing.under old)).get last = some wire := by
          refine (hget last _).2 ⟨wire, hlast, ?_⟩
          rw [hcarry, hmoved]
          rfl
        obtain rfl := happart other last wire hwire hlast'
        exact h.doomed other hdoomed wire hlast hin
  · cases hsend

theorem Following.concat {step : Step} (h : Following setting rows steps sending)
    (hstep : ∀ index id subscribed, step ≠ .destroy index id subscribed) :
    Following setting rows (steps ++ [step]) sending where
  agreed := h.agreed
  apart := h.apart
  existing := by
    intro wire
    rw [h.existing]
    exact exists_congr fun id => and_congr_right fun _ =>
      (spared_concat fun index subscribed => hstep index id subscribed).symm
  exists_of_subscribed := h.exists_of_subscribed
  wanted := fun id hwanted => h.wanted id hwanted.of_concat
  doomed := h.doomed

theorem subscribe_following {index : Nat} {id : MailboxId} {rename : Option Naming}
    {followers : List MailboxId} {wanted : Bool} {role : Option (Option String)}
    (h : Following setting rows steps sending) (hspared : ∀ id, Spared steps id)
    (hid : id ∉ setting.destroying) (hsend : sending.subscribe id wanted = some next) :
    Following setting rows (steps ++ [.update index id rename followers (some wanted) role])
      next := by
  obtain ⟨wire, hget, rfl⟩ := Option.map_eq_some_iff.1 hsend
  have hexisting := mem_existing h hget (hspared id)
  have hconcat : Following setting rows
      (steps ++ [.update index id rename followers (some wanted) role]) sending := h.concat nofun
  cases wanted with
  | true =>
    refine ⟨hconcat.agreed, hconcat.apart, hconcat.existing, ?_, ?_, ?_⟩
    · exact Finset.insert_subset hexisting h.exists_of_subscribed
    · intro other hwanted
      obtain ⟨name, hname, hin⟩ := hconcat.wanted other hwanted
      exact ⟨name, hname, Finset.mem_insert_of_mem hin⟩
    · intro other hdoomed name hname hin
      rcases Finset.mem_insert.1 hin with rfl | hin
      · exact absurd (h.apart other id name hname hget ▸ hdoomed) hid
      · exact h.doomed other hdoomed name hname hin
  | false =>
    refine ⟨hconcat.agreed, hconcat.apart, hconcat.existing, ?_, ?_, ?_⟩
    · exact (Finset.erase_subset _ _).trans h.exists_of_subscribed
    · intro other hwanted
      obtain ⟨name, hname, hin⟩ := hconcat.wanted other hwanted
      refine ⟨name, hname, Finset.mem_erase.2 ⟨?_, hin⟩⟩
      rintro rfl
      obtain rfl := h.apart other id name hname hget
      exact hwanted.kept index rename followers role
        (List.mem_append_right _ (List.mem_singleton_self _))
    · intro other hdoomed name hname hin
      exact h.doomed other hdoomed name hname (Finset.mem_of_mem_erase hin)

theorem destroy_following {index : Nat} {id : MailboxId} {subscribed : Bool}
    (h : Following setting rows steps sending) (hid : id ∈ setting.destroying)
    (hrow : ∃ row, rows.get id = some row ∧ row.subscribed = subscribed)
    (hsend : sending.destroy id subscribed = some next) :
    Following setting rows (steps ++ [.destroy index id subscribed]) next := by
  rw [Sending.destroy] at hsend
  split at hsend
  · cases hsend
  rename_i wire hget
  obtain ⟨server, hserver, rfl⟩ := Option.map_eq_some_iff.1 hsend
  rw [Server.delete] at hserver
  split at hserver
  · rename_i hexisting
    obtain rfl := Option.some.inj hserver
    have hspared : ∀ other, Spared (steps ++ [.destroy index id subscribed]) other ↔
        Spared steps other ∧ other ≠ id := by
      intro other
      constructor
      · intro hother
        refine ⟨fun index subscribed hin => hother index subscribed (List.mem_append_left _ hin), ?_⟩
        rintro rfl
        exact hother index subscribed (List.mem_append_right _ (List.mem_singleton_self _))
      · rintro ⟨hother, hne⟩ index' subscribed' hin
        rcases List.mem_append.1 hin with hin | hin
        · exact hother index' subscribed' hin
        · obtain ⟨-, heq, -⟩ := Step.destroy.inj (List.mem_singleton.1 hin)
          exact hne heq
    -- Its own subscription goes, and no other mailbox has its name.
    have hkept : ∀ name, name ∈ sending.server.subscribed → name ≠ wire →
        name ∈ (if subscribed then ({ sending.server with
          existing := sending.server.existing.erase wire } : Server).unsubscribe wire
          else { sending.server with
            existing := sending.server.existing.erase wire }).subscribed := by
      intro name hin hne
      cases subscribed
      · exact hin
      · exact Finset.mem_erase.2 ⟨hne, hin⟩
    have hleft : ∀ name, name ∈ (if subscribed then ({ sending.server with
          existing := sending.server.existing.erase wire } : Server).unsubscribe wire
          else { sending.server with
            existing := sending.server.existing.erase wire }).subscribed →
        name ∈ sending.server.subscribed ∧ name ≠ wire := by
      intro name hin
      cases subscribed with
      | true =>
        obtain ⟨hne, hin⟩ := Finset.mem_erase.1 hin
        exact ⟨hin, hne⟩
      | false =>
        refine ⟨hin, ?_⟩
        rintro rfl
        obtain ⟨row, hrow, hfalse⟩ := hrow
        obtain ⟨other, hother, htrue⟩ := h.doomed id hid name hget hin
        obtain rfl := Option.some.inj (hrow.symm.trans hother)
        rw [hfalse] at htrue
        cases htrue
    refine ⟨?_, h.apart, ?_, ?_, ?_, ?_⟩
    · have hagreed := h.agreed
      cases subscribed <;> exact hagreed
    · intro name
      have hexists : name ∈ sending.server.existing.erase wire ↔
          ∃ other, sending.names.get other = some name ∧
            Spared (steps ++ [.destroy index id subscribed]) other := by
        rw [Finset.mem_erase, h.existing]
        constructor
        · rintro ⟨hne, other, hother, hin⟩
          refine ⟨other, hother, (hspared other).2 ⟨hin, ?_⟩⟩
          rintro rfl
          exact hne (Option.some.inj (hother.symm.trans hget))
        · rintro ⟨other, hother, hin⟩
          obtain ⟨hin, hne⟩ := (hspared other).1 hin
          refine ⟨?_, other, hother, hin⟩
          rintro rfl
          exact hne (h.apart other id name hother hget)
      cases subscribed <;> exact hexists
    · intro name hin
      obtain ⟨hin, hne⟩ := hleft name hin
      have hexists := Finset.mem_erase.2 ⟨hne, h.exists_of_subscribed hin⟩
      cases subscribed <;> exact hexists
    · intro other hwanted
      obtain ⟨name, hname, hin⟩ := h.wanted other hwanted.of_concat
      refine ⟨name, hname, hkept name hin ?_⟩
      rintro rfl
      exact ((hspared other).1 hwanted.spared).2 (h.apart other id name hname hget)
    · intro other hdoomed name hname hin
      exact h.doomed other hdoomed name hname (hleft name hin).1
  · cases hserver

end Steps

end Huliho.Folders
