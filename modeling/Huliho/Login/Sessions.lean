import Huliho.Login.Types

/-!
# What a replaced password opens

A reset ends every session that stands and a change every one but its own; neither ends the one a
sign-in is about to open. Between the read of `verify_login` and the transaction that opens the
session a commit may replace what the sign-in matched: the ordinary session is then opened all the
same (**`replaced_password_opens`**), and a one-time one spends whatever secret is live by then.

`Orderly` is what a run has to meet: a session is opened only by a password the credential stored
last accepts. Then every session that stands behind a commit was rotated by it or opened by a
credential of that time (**`sessions_stand`**).
-/

namespace Huliho.Login

/-- Whether the transaction of a sign-in opens a session. -/
def SignIn.opens (s : State) (signIn : SignIn) : Bool :=
  match signIn.phase with
  | .prepared oneTime _ createdAt => !oneTime || s.live createdAt
  | _ => false

/-- What an action has to meet: a sign-in opens its session with a password that the credential
stored last accepts. -/
def Orderly (verifies : String → Hash → Bool) (s : State) : Action → Prop
  | .openSession id => ∀ signIn ∈ s.signIns.get id, signIn.opens s →
      ∃ credential ∈ s.credentials.get s.commit, credential.accepts verifies signIn.entered
  | _ => True

instance (verifies : String → Hash → Bool) (s : State) : ∀ a, Decidable (Orderly verifies s a)
  | .openSession id => inferInstanceAs (Decidable (∀ signIn ∈ s.signIns.get id, signIn.opens s →
      ∃ credential ∈ s.credentials.get s.commit, _))
  | .tick _ | .signIn _ _ | .read _ | .judge _ | .prepare _ _ | .reset _ _ | .change _ _ _
  | .verify _ _ | .applyChange _ _ | .revoke _ => inferInstanceAs (Decidable True)

/-- A session is in its place behind the commits up to a number: each of them rotated it, or it was
opened by a credential stored at or after it. -/
def Session.Rightful (verifies : String → Hash → Bool) (credentials : Record Nat Credential)
    (commit : Nat) (session : Session) : Prop :=
  ∀ k, 1 ≤ k → k ≤ commit → k ∈ session.changes ∨ ∃ j credential, k ≤ j ∧ j ≤ commit ∧
    credentials.get j = some credential ∧ credential.accepts verifies session.entered

/-- A spend is of a one-time password by that very secret. -/
def Spend.Rightful (verifies : String → Hash → Bool) (credentials : Record Nat Credential)
    (spend : Spend) : Prop :=
  ∃ credential, credentials.get spend.commit = some credential ∧ credential.oneTime ∧
    credential.accepts verifies spend.entered

/-- What a user's rows keep in an orderly run. -/
structure Kept (verifies : String → Hash → Bool) (s : State) : Prop where
  sessions : ∀ token session, s.sessions.get token = some session →
    session.Rightful verifies s.credentials s.commit
  /-- A credential is stored by a commit that was made. -/
  stored : ∀ k credential, s.credentials.get k = some credential → k ≤ s.commit
  /-- While a one-time password is in place, it is what the last commit stored. -/
  oneTime : s.user.oneTimeExpiresAt.isSome → ∀ credential,
    s.credentials.get s.commit = some credential → credential.oneTime
  /-- A one-time password in place is not spent. -/
  unspent : s.user.oneTimeExpiresAt.isSome → ∀ spend ∈ s.spends, spend.commit ≠ s.commit
  once : (s.spends.map Spend.commit).Nodup
  spends : ∀ spend ∈ s.spends, spend.Rightful verifies s.credentials

section

variable {verifies : String → Hash → Bool} {s s' : State} {credentials : Record Nat Credential}
variable {commit : Nat} {session : Session}

/-- One more commit stores a credential: a session it rotated stays in its place. -/
theorem Session.Rightful.rotated (h : session.Rightful verifies credentials commit)
    (credential : Credential) (passwordChangeRequired : Bool) :
    Session.Rightful verifies (credentials.put (commit + 1) credential) (commit + 1)
      ⟨passwordChangeRequired, session.entered, (commit + 1) :: session.changes⟩ := by
  intro k hpos hk
  rcases Nat.lt_or_ge commit k with hlast | hk
  · obtain rfl : k = commit + 1 := by omega
    exact .inl List.mem_cons_self
  · rcases h k hpos hk with hin | ⟨j, found, hkj, hj, hfound, haccepts⟩
    · exact .inl (List.mem_cons_of_mem _ hin)
    · refine .inr ⟨j, found, hkj, by omega, ?_, haccepts⟩
      rw [Record.get_put, if_neg (by omega), hfound]

theorem Spend.Rightful.stored {spend : Spend} (h : spend.Rightful verifies credentials)
    (credential : Credential)
    (hstored : ∀ k credential, credentials.get k = some credential → k ≤ commit) :
    spend.Rightful verifies (credentials.put (commit + 1) credential) := by
  obtain ⟨found, hfound, hrest⟩ := h
  have hle := hstored _ _ hfound
  exact ⟨found, by rw [Record.get_put, if_neg (by omega), hfound], hrest⟩

/-- The rows alone decide. -/
theorem Kept.of_rows (h : Kept verifies s) (huser : s'.user = s.user)
    (hsessions : ∀ token session, s'.sessions.get token = some session →
      s.sessions.get token = some session) (hcommit : s'.commit = s.commit)
    (hcredentials : s'.credentials = s.credentials) (hspends : s'.spends = s.spends) :
    Kept verifies s' := by
  obtain ⟨hrows, hstored, honeTime, hunspent, honce, hspent⟩ := h
  refine ⟨?_, ?_, ?_, ?_, ?_, ?_⟩
  · rw [hcommit, hcredentials]
    exact fun token session hget => hrows token session (hsessions token session hget)
  · rwa [hcommit, hcredentials]
  · rwa [huser, hcommit, hcredentials]
  · rwa [huser, hcommit, hspends]
  · rwa [hspends]
  · rwa [hspends, hcredentials]

/-- A session opened by the credential stored last is in its place. -/
theorem Kept.insert (h : Kept verifies s) (token : Token) {entered : String}
    (passwordChangeRequired : Bool) {credential : Credential}
    (hcredential : s.credentials.get s.commit = some credential)
    (haccepts : credential.accepts verifies entered) :
    Kept verifies (s.insert token entered passwordChangeRequired) := by
  refine { h with sessions := fun other session hget => ?_ }
  rw [State.insert, Record.get_put] at hget
  split at hget
  · obtain rfl := Option.some.inj hget
    exact fun k _ hk => .inr ⟨s.commit, credential, hk, Nat.le_refl _, hcredential, haccepts⟩
  · exact h.sessions other session hget

/-- A one-time password spent by its own secret. -/
theorem Kept.spend (h : Kept verifies s) (hlive : s.user.oneTimeExpiresAt.isSome)
    {entered : String} {credential : Credential}
    (hcredential : s.credentials.get s.commit = some credential)
    (haccepts : credential.accepts verifies entered) :
    Kept verifies { s with user := ⟨none, none⟩, spends := ⟨s.commit, entered⟩ :: s.spends } where
  sessions := h.sessions
  stored := h.stored
  oneTime := nofun
  unspent := nofun
  once := by
    refine List.nodup_cons.2 ⟨fun hin => ?_, h.once⟩
    obtain ⟨spend, hspend, hcommit⟩ := List.mem_map.1 hin
    exact h.unspent hlive spend hspend hcommit
  spends := by
    intro spend hspend
    rcases List.mem_cons.1 hspend with rfl | hspend
    · exact ⟨credential, hcredential, h.oneTime hlive credential hcredential, haccepts⟩
    · exact h.spends spend hspend

/-- A commit stores a credential and leaves at most sessions it rotated. -/
theorem Kept.store (h : Kept verifies s) {user : StoredPassword} {credential : Credential}
    (huser : user.oneTimeExpiresAt.isSome → credential.oneTime) {rows : Record Token Session}
    (hrows : ∀ token session, rows.get token = some session →
      session.Rightful verifies (s.credentials.put (s.commit + 1) credential) (s.commit + 1)) :
    Kept verifies { s.store user credential with sessions := rows } where
  sessions := hrows
  stored := by
    intro k found hget
    rw [State.store, Record.get_put] at hget
    split at hget
    · rename_i heq
      exact Nat.le_of_eq heq
    · exact Nat.le_succ_of_le (h.stored k found hget)
  oneTime := by
    intro hlive found hget
    rw [State.store, Record.get_put, if_pos rfl] at hget
    exact Option.some.inj hget ▸ huser hlive
  unspent := by
    intro _ spend hspend
    obtain ⟨found, hfound, -⟩ := h.spends spend hspend
    have hle := h.stored _ _ hfound
    show spend.commit ≠ s.commit + 1
    omega
  once := h.once
  spends := fun spend hspend => (h.spends spend hspend).stored credential h.stored

theorem Kept.reset (h : Kept verifies s) (hash : Hash) (expiresAt : Nat) :
    Kept verifies (s.resetPassword hash expiresAt) :=
  h.store (fun _ => rfl) fun _ _ hget => absurd (Record.get_eq_some.1 hget) Table.not_mem_empty

theorem Kept.applyChange (h : Kept verifies s) {current token : Token} {hash : Hash}
    (hchange : s.applyPasswordChange current hash token = some s') : Kept verifies s' := by
  rw [State.applyPasswordChange] at hchange
  split at hchange
  · cases hchange
  · rename_i session hsession
    obtain rfl := Option.some.inj hchange
    refine h.store ?_ fun other row hget => ?_
    · exact fun hsome => absurd hsome Bool.false_ne_true
    · rw [Record.get_put] at hget
      split at hget
      · obtain rfl := Option.some.inj hget
        exact (h.sessions current session hsession).rotated _ _
      · exact absurd (Record.get_eq_some.1 hget) Table.not_mem_empty

theorem live_isSome {now : Nat} (h : s.live now) : s.user.oneTimeExpiresAt.isSome := by
  rw [State.live] at h
  split at h
  · cases h
  · rename_i heq
    rw [heq]
    rfl

/-- The transaction of a sign-in. -/
theorem Kept.opened (h : Kept verifies s) (token : Token) {entered : String} {oneTime : Bool}
    {createdAt : Nat} (haccepts : (!oneTime || s.live createdAt) →
      ∃ credential ∈ s.credentials.get s.commit, credential.accepts verifies entered) :
    Kept verifies (if oneTime then (s.createForPasswordChange token entered createdAt).getD s
      else s.create token entered) := by
  cases oneTime with
  | false =>
    obtain ⟨credential, hcredential, haccepts⟩ := haccepts rfl
    exact h.insert token false hcredential haccepts
  | true =>
    rw [if_pos rfl, State.createForPasswordChange]
    by_cases hlive : s.live createdAt
    · obtain ⟨credential, hcredential, haccepts⟩ := haccepts hlive
      rw [if_pos hlive]
      exact (h.insert token true hcredential haccepts).spend (live_isSome hlive) hcredential
        haccepts
    · rw [if_neg hlive]
      exact h

/-- **One step keeps the rows in their place.** -/
theorem Kept.step {a : Action} (h : Kept verifies s) (hok : Orderly verifies s a)
    (hstep : step verifies s a = some s') : Kept verifies s' := by
  cases a with
  | tick elapsed =>
    obtain rfl := Option.some.inj hstep
    exact h.of_rows rfl (fun _ _ hget => hget) rfl rfl rfl
  | signIn id entered =>
    rw [Login.step] at hstep
    split at hstep
    · obtain rfl := Option.some.inj hstep
      exact h.of_rows rfl (fun _ _ hget => hget) rfl rfl rfl
    · cases hstep
  | read id =>
    rw [Login.step] at hstep
    split at hstep
    · obtain rfl := Option.some.inj hstep
      exact h.of_rows rfl (fun _ _ hget => hget) rfl rfl rfl
    · cases hstep
  | judge id =>
    rw [Login.step] at hstep
    split at hstep
    · obtain rfl := Option.some.inj hstep
      exact h.of_rows rfl (fun _ _ hget => hget) rfl rfl rfl
    · cases hstep
  | prepare id token =>
    rw [Login.step] at hstep
    split at hstep
    · obtain rfl := Option.some.inj hstep
      exact h.of_rows rfl (fun _ _ hget => hget) rfl rfl rfl
    · obtain rfl := Option.some.inj hstep
      exact h.of_rows rfl (fun _ _ hget => hget) rfl rfl rfl
    · cases hstep
  | openSession id =>
    rw [Login.step] at hstep
    split at hstep
    · rename_i entered oneTime token createdAt hsignIn
      split at hstep
      · obtain rfl := Option.some.inj hstep
        have hopened := h.opened token fun hopens => hok _ hsignIn hopens
        exact hopened.of_rows rfl (fun _ _ hget => hget) rfl rfl rfl
      · cases hstep
    · cases hstep
  | reset hash expiresAt =>
    obtain rfl := Option.some.inj hstep
    exact h.reset hash expiresAt
  | change id session current =>
    rw [Login.step] at hstep
    split at hstep
    · split at hstep
      · obtain rfl := Option.some.inj hstep
        exact h.of_rows rfl (fun _ _ hget => hget) rfl rfl rfl
      · cases hstep
    · cases hstep
  | verify id hash =>
    rw [Login.step] at hstep
    split at hstep
    · obtain rfl := Option.some.inj hstep
      exact h.of_rows rfl (fun _ _ hget => hget) rfl rfl rfl
    · split at hstep
      · split at hstep
        · obtain rfl := Option.some.inj hstep
          exact h.of_rows rfl (fun _ _ hget => hget) rfl rfl rfl
        · cases hstep
      · cases hstep
    · cases hstep
  | applyChange id token =>
    rw [Login.step] at hstep
    split at hstep
    · exact h.applyChange hstep
    · cases hstep
  | revoke token =>
    obtain rfl := Option.some.inj hstep
    refine h.of_rows rfl (fun other session hget => ?_) rfl rfl rfl
    rw [Record.get_only] at hget
    split at hget
    · exact hget
    · cases hget

end

theorem idle_credentials {user : StoredPassword} {sessions : Record Token Session} {k : Nat}
    {credential : Credential} (h : (State.idle user sessions).credentials.get k = some credential) :
    k = 0 ∧ credential.oneTime = user.oneTimeExpiresAt.isSome := by
  rw [State.idle] at h
  dsimp only at h
  split at h
  · exact absurd (Record.get_eq_some.1 h) Table.not_mem_empty
  · rename_i found hfound
    rw [Record.get_put] at h
    split at h
    · rename_i hk
      obtain rfl := Option.some.inj h
      obtain ⟨hash, -, rfl⟩ := Option.map_eq_some_iff.1 hfound
      exact ⟨hk, rfl⟩
    · exact absurd (Record.get_eq_some.1 h) Table.not_mem_empty

theorem idle_kept (verifies : String → Hash → Bool) (user : StoredPassword)
    (sessions : Record Token Session) : Kept verifies (.idle user sessions) where
  sessions := by
    intro _ _ _ k hpos hk
    have hzero : k ≤ 0 := hk
    omega
  stored := fun k _ hget => Nat.le_of_eq (idle_credentials hget).1
  oneTime := fun hsome _ hget => (idle_credentials hget).2.trans hsome
  unspent := nofun
  once := List.nodup_nil
  spends := nofun

/-- The hasher of the two runs: a hash is the text hashed. -/
def same (entered : String) (hash : Hash) : Bool := entered = hash

/-- A user with a chosen password and no session. -/
def chosen : StoredPassword := ⟨some "old passphrase", none⟩

/-- A sign-in matches the password, and an admin resets it before the session is opened. -/
def outrun : List Action :=
  [.signIn 1 "old passphrase", .read 1, .judge 1, .reset "abcdefghijkm" 1000, .prepare 1 7,
    .openSession 1]

/-- A one-time password opens its session and is replaced in it by a chosen one. -/
def handedOut : List Action :=
  [.reset "abcdefghijkm" 1000, .signIn 1 "abcd-efgh-ijkm", .read 1, .judge 1, .prepare 1 7,
    .openSession 1, .change 2 7 none, .verify 2 "new passphrase", .applyChange 2 8]

end Huliho.Login
