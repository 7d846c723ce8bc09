import Huliho.Upstream.Outbound

/-!
# What the server reaches

Every path checks what it connects to: a URL is on a name before a request of it goes out, so the
client asks its resolver, and what that answers the rule permits (**`serve_permitted`**). What is
left is what the rule lets through: the server reaches nothing it should not where, and only where,
no answer of the resolver slips (**`reaches_iff`**).
-/

namespace Huliho.Upstream

variable {rule : NetworkRule} {world : World}

/-- The resolver answered the address for a name, with none that is refused. -/
def Answered (rule : NetworkRule) (world : World) (address : Ip) : Prop :=
  ∃ n host addresses, world.addresses n host = some addresses ∧
    (∀ other ∈ addresses, rule.permits other) ∧ address ∈ addresses

/-- Every address connected to was answered, and every endpoint remembered is on a name. -/
structure Permitted (rule : NetworkRule) (world : World) (trace : Trace) : Prop where
  connections : ∀ address ∈ trace.connections, Answered rule world address
  endpoints : ∀ entry ∈ trace.endpoints, entry.2.api.named

/-- The program keeps to the rule, whatever it answers. -/
abbrev Keeps (rule : NetworkRule) (world : World) {α : Type} (x : Out α) : Prop :=
  Gives (Permitted rule world) x fun _ => True

theorem keeps_return {α : Type} (a : α) : Keeps rule world (pure a) := gives_pure trivial

/-- Followed by a program that keeps to the rule. -/
theorem keeps_bind {α β : Type} {Q : α → Prop} {x : Out α} {f : α → Out β}
    (hx : Gives (Permitted rule world) x Q) (hf : ∀ a, Q a → Keeps rule world (f a)) : Keeps rule world (x >>= f) :=
  gives_bind hx hf

/-- The addresses of a lookup. -/
def Checked (rule : NetworkRule) (world : World) (found : Except UpstreamError (List Ip)) : Prop :=
  ∀ addresses, found = .ok addresses → ∀ address ∈ addresses, Answered rule world address

theorem lookup_gives (host : String) :
    Gives (Permitted rule world) (lookup rule world host) (Checked rule world) := by
  refine gives_bind (Q := fun found => ∃ n, world.addresses n host = found)
    (gives_modifyGet fun trace htrace =>
      ⟨⟨trace.lookups, rfl⟩, htrace.connections, htrace.endpoints⟩) fun found hfound => ?_
  obtain ⟨n, hfound⟩ := hfound
  cases found with
  | none => exact gives_pure nofun
  | some addresses =>
    cases hfind : addresses.find? fun address => !rule.permits address with
    | some address =>
      simp only [hfind]
      exact gives_pure nofun
    | none =>
      simp only [hfind]
      refine gives_pure fun answered heq address hmem => ?_
      obtain rfl := Except.ok.inj heq
      refine ⟨n, host, addresses, hfound, fun other hother => ?_, hmem⟩
      have hnot := List.find?_eq_none.1 hfind other hother
      simpa using hnot

theorem connect_keeps {addresses : List Ip}
    (h : ∀ address ∈ addresses, Answered rule world address) :
    Keeps rule world (connect addresses) := by
  refine gives_modify fun trace htrace => ⟨fun address hmem => ?_, htrace.endpoints⟩
  rcases List.mem_append.1 hmem with hmem | hmem
  · exact htrace.connections address hmem
  · exact h address hmem

/-! ## The HTTP client -/

theorem request_keeps {url : Url} (h : url.named) : Keeps rule world (request rule world url) := by
  obtain ⟨name, hname⟩ : ∃ name, url.host = some (.domain name) := by
    rw [Url.named] at h
    split at h
    · exact ⟨_, ‹_›⟩
    · cases h
  have hdial : Keeps rule world (dial rule world url.host) := by
    rw [hname]
    refine keeps_bind (lookup_gives name) fun found hfound => ?_
    cases found with
    | error error => exact keeps_return _
    | ok addresses =>
      exact keeps_bind (connect_keeps (hfound addresses rfl)) fun _ _ => keeps_return _
  rw [request]
  split
  · exact keeps_return _
  · refine keeps_bind hdial fun reached _ => ?_
    cases reached
    · exact keeps_return _
    · exact gives_modifyGet fun trace htrace => ⟨trivial, htrace.connections, htrace.endpoints⟩

theorem follow_keeps {left : Nat} {url : Url} (h : url.named) :
    Keeps rule world (follow rule world left url) := by
  induction left generalizing url with
  | zero =>
    rw [follow]
    refine keeps_bind (request_keeps h) fun answer _ => ?_
    cases answer <;> exact keeps_return _
  | succ left ih =>
    rw [follow]
    refine keeps_bind (request_keeps h) fun answer _ => ?_
    cases answer with
    | redirect target =>
      dsimp only
      split
      · rename_i hcheck
        exact ih (Bool.and_eq_true_iff.1 hcheck).2
      · exact keeps_return _
    | body api download upload => exact keeps_return _
    | failed => exact keeps_return _

theorem send_keeps {url : Url} (h : url.named) : Keeps rule world (send rule world url) := follow_keeps h

/-! ## The paths -/

theorem signIn_keeps (works : Bool) (endpoint : Endpoint) :
    Keeps rule world (signIn rule world works endpoint) := by
  refine keeps_bind (lookup_gives endpoint.host) fun found hfound => ?_
  cases found with
  | error error => exact keeps_return _
  | ok addresses =>
    exact keeps_bind (connect_keeps (hfound addresses rfl)) fun _ _ => keeps_return _

/-- A URL that was checked is on a name. -/
theorem checkedEndpoint_gives (url : Url) : Gives (Permitted rule world) (checkedEndpoint rule world url)
    fun checked => ∀ found, checked = some found → found.named := by
  rw [checkedEndpoint]
  split
  · rename_i name hname
    split
    · exact gives_pure nofun
    · split
      · exact gives_pure nofun
      · refine gives_bind (lookup_gives name) fun found _ => ?_
        cases found with
        | error error => exact gives_pure nofun
        | ok addresses =>
          refine gives_pure fun found heq => ?_
          obtain rfl := Option.some.inj heq
          rw [Url.named, hname]
  · exact gives_pure nofun

theorem remember_keeps {account : AccountId} {urls : UpstreamUrls} (h : urls.api.named) :
    Keeps rule world (remember account urls) := by
  refine gives_modify fun trace htrace => ⟨htrace.connections, fun entry hentry => ?_⟩
  rcases List.mem_cons.1 hentry with rfl | hentry
  · exact h
  · exact htrace.endpoints entry hentry

/-- A URL-less answer is none of an endpoint off the rules. -/
theorem none_gives : Gives (Permitted rule world) (pure none : Out (Option UpstreamUrls))
    fun urls => ∀ found, urls = some found → found.api.named :=
  gives_pure fun _ heq => by cases heq

theorem fetchWith_gives {account : AccountId} {sessionUrl : Url} (h : sessionUrl.named) :
    Gives (Permitted rule world) (fetchWith rule world account sessionUrl)
      fun urls => ∀ found, urls = some found → found.api.named := by
  rw [fetchWith]
  refine gives_bind (send_keeps h) fun answered _ => ?_
  cases answered.2 with
  | redirect target => exact none_gives
  | failed => exact none_gives
  | body api download upload =>
    refine gives_bind (checkedEndpoint_gives api) fun checked hchecked => ?_
    cases checked with
    | none => exact none_gives
    | some url =>
      have hnamed := hchecked url rfl
      refine gives_bind (remember_keeps hnamed) fun _ _ => gives_pure ?_
      rintro found heq
      obtain rfl := Option.some.inj heq
      exact hnamed

theorem upstreamUrls_gives {account : AccountId} {sessionUrl : Url} (h : sessionUrl.named) :
    Gives (Permitted rule world) (upstreamUrls rule world account sessionUrl)
      fun urls => ∀ found, urls = some found → found.api.named := by
  refine gives_bind (Q := fun trace => Permitted rule world trace)
    (fun trace htrace => ⟨htrace, htrace⟩) fun trace htrace => ?_
  cases hfind : trace.endpoints.find? fun entry => entry.1 = account with
  | none =>
    dsimp only
    exact fetchWith_gives h
  | some entry =>
    refine gives_pure fun found heq => ?_
    obtain rfl := Option.some.inj heq
    exact htrace.endpoints entry (List.mem_of_find?_eq_some hfind)

theorem admitted_named {url found : Url} (h : admitted url = some found) : found.named := by
  rw [admitted] at h
  split at h
  · cases h
  split at h
  · cases h
  split at h
  · cases h
  · rename_i hcheck
    obtain rfl := Option.some.inj h
    rw [Bool.or_eq_true, not_or] at hcheck
    simpa [Url.named] using hcheck.2

theorem hop_keeps {url : Url} (h : url.named) : Keeps rule world (hop rule world url) := by
  have hresolved : Keeps rule world (resolved rule world url) := by
    rw [resolved]
    split
    · split
      · exact keeps_return _
      · refine keeps_bind (lookup_gives _) fun found _ => ?_
        cases found <;> exact keeps_return _
    · exact keeps_return _
  refine keeps_bind hresolved fun reached _ => ?_
  cases reached with
  | false => exact keeps_return _
  | true =>
    refine keeps_bind (request_keeps h) fun answer _ => ?_
    cases answer <;> exact keeps_return _

theorem fetch_keeps {left : Nat} {url : Url} (h : url.named) :
    Keeps rule world (fetch rule world left url) := by
  induction left generalizing url with
  | zero =>
    rw [fetch]
    refine keeps_bind (hop_keeps h) fun target _ => ?_
    cases target <;> exact keeps_return _
  | succ left ih =>
    rw [fetch]
    refine keeps_bind (hop_keeps h) fun target _ => ?_
    cases target with
    | none => exact keeps_return _
    | some target =>
      cases hadmitted : admitted target with
      | none =>
        simp only [hadmitted]
        exact keeps_return _
      | some next =>
        simp only [hadmitted]
        exact ih (admitted_named hadmitted)

theorem https_named (name : String) (port : Option Nat) : (Url.https name port).named := rfl

theorem discover_keeps (goes : Nat → Bool) (domain : String) :
    Keeps rule world (discover rule world goes domain) := by
  have hsend : ∀ name port, Keeps rule world (send rule world (.https name port)) :=
    fun name port => send_keeps (https_named name port)
  have hsrv : Keeps rule world (srvTarget world ("_jmap._tcp." ++ domain)) :=
    keeps_bind (Q := fun _ => True) (gives_modifyGet fun trace htrace =>
      ⟨trivial, htrace.connections, htrace.endpoints⟩) fun _ _ => keeps_return _
  have hrest : Keeps rule world (autoconfig rule world goes domain) := by
    rw [autoconfig]
    refine keeps_bind (hsend _ _) fun _ _ => ?_
    split
    · refine keeps_bind (hsend _ _) fun _ _ => ?_
      split
      · exact keeps_bind (hsend _ _) fun _ _ => keeps_return _
      · exact keeps_return _
    · exact keeps_return _
  refine keeps_bind (hsend _ _) fun _ _ => ?_
  split
  · refine keeps_bind hsrv fun found _ => ?_
    cases found with
    | none =>
      dsimp only
      split
      · exact hrest
      · exact keeps_return _
    | some target =>
      refine keeps_bind (hsend _ _) fun _ _ => ?_
      split
      · exact hrest
      · exact keeps_return _
  · exact keeps_return _

/-- The session URL of a target the API took is on a name. -/
theorem normalized_named (target : Submitted) {sessionUrl : Url}
    (h : normalized target = some (.jmap sessionUrl)) : sessionUrl.named := by
  cases target with
  | jmap given =>
    rw [normalized] at h
    split at h
    · rename_i hcheck
      obtain rfl := AccountSettings.jmap.inj (Option.some.inj h)
      simp only [Bool.and_eq_true] at hcheck
      exact hcheck.1.2
    · cases h
  | imap username incoming outgoing =>
    rw [normalized] at h
    split at h
    · obtain ⟨_, -, h⟩ := Option.bind_eq_some_iff.1 h
      obtain ⟨_, -, h⟩ := Option.map_eq_some_iff.1 h
      cases h
    · cases h

theorem check_keeps {works : Bool} {target : AccountSettings}
    (h : ∀ sessionUrl, target = .jmap sessionUrl → sessionUrl.named) :
    Keeps rule world (check rule world works target) := by
  cases target with
  | jmap sessionUrl => exact keeps_bind (send_keeps (h sessionUrl rfl)) fun _ _ => keeps_return _
  | imap incoming outgoing =>
    refine keeps_bind (signIn_keeps works incoming) fun passed _ => ?_
    cases passed with
    | false => exact keeps_return _
    | true => exact keeps_bind (signIn_keeps works outgoing) fun _ _ => keeps_return _

theorem post_keeps {account : AccountId} {sessionUrl : Url} (h : sessionUrl.named) :
    Keeps rule world (post rule world account sessionUrl) := by
  rw [post]
  refine keeps_bind (upstreamUrls_gives h) fun urls hurls => ?_
  cases urls with
  | none => exact keeps_return _
  | some urls => exact keeps_bind (send_keeps (hurls urls rfl)) fun _ _ => keeps_return _

/-- A template is checked before anything goes out to it. -/
theorem template_keeps {template : Option Url} {go : Url → Out Unit}
    (h : ∀ url, url.named → Keeps rule world (go url)) : Keeps rule world (do
      match template with
      | none => return ()
      | some template =>
        match ← checkedEndpoint rule world template with
        | none => return ()
        | some url => go url : Out Unit) := by
  cases template with
  | none => exact keeps_return _
  | some template =>
    refine keeps_bind (checkedEndpoint_gives template) fun checked hchecked => ?_
    cases checked with
    | none => exact keeps_return _
    | some url => exact h url (hchecked url rfl)

theorem fetchBlob_keeps {account : AccountId} {sessionUrl : Url} (h : sessionUrl.named) :
    Keeps rule world (fetchBlob rule world account sessionUrl) := by
  rw [fetchBlob]
  exact keeps_bind (upstreamUrls_gives h) fun urls _ => template_keeps fun url hurl =>
    keeps_bind (send_keeps hurl) fun _ _ => keeps_return _

theorem forwardUpload_keeps {account : AccountId} {sessionUrl : Url} (h : sessionUrl.named) :
    Keeps rule world (forwardUpload rule world account sessionUrl) := by
  rw [forwardUpload]
  exact keeps_bind (upstreamUrls_gives h) fun urls _ => template_keeps fun url hurl =>
    keeps_bind (request_keeps hurl) fun _ _ => keeps_return _

theorem useOf_keeps {account : AccountId} {target : AccountSettings} {use : Use}
    (h : ∀ sessionUrl, target = .jmap sessionUrl → sessionUrl.named) :
    Keeps rule world (useOf rule world account target use) := by
  unfold useOf
  split
  · exact check_keeps h
  · exact keeps_bind (fetchWith_gives (h _ rfl)) fun _ _ => keeps_return _
  · exact post_keeps (h _ rfl)
  · exact fetchBlob_keeps (h _ rfl)
  · exact forwardUpload_keeps (h _ rfl)
  · exact keeps_bind (signIn_keeps _ _) fun _ _ =>
      keeps_bind (signIn_keeps _ _) fun _ _ => keeps_return _
  · exact keeps_return _

theorem answer_keeps (ask : Ask) : Keeps rule world (answer rule world ask) := by
  cases ask with
  | account account target use =>
    rw [answer]
    cases hnormalized : normalized target with
    | none => exact keeps_return _
    | some settings =>
      refine useOf_keeps fun sessionUrl heq => normalized_named target ?_
      rw [hnormalized, heq]
  | image given =>
    rw [answer, image]
    cases hadmitted : admitted given with
    | none => exact keeps_return _
    | some url => exact fetch_keeps (admitted_named hadmitted)
  | discover goes domain => exact discover_keeps goes domain

theorem serve_keeps (asks : List Ask) : Keeps rule world (serve rule world asks) := by
  induction asks with
  | nil =>
    rw [serve]
    exact keeps_return _
  | cons ask asks ih =>
    rw [serve]
    exact keeps_bind (answer_keeps ask) fun _ _ => ih

theorem start_permitted (lookups requests : Nat) : Permitted rule world (.start lookups requests) where
  connections := fun _ h => absurd h List.not_mem_nil
  endpoints := fun _ h => absurd h List.not_mem_nil

/-- What the server connects to while it answers some asks, the network standing anywhere in its
answers. -/
def reached (rule : NetworkRule) (world : World) (lookups requests : Nat) (asks : List Ask) :
    List Ip :=
  ((serve rule world asks).run (.start lookups requests)).2.connections

theorem reached_answered {lookups requests : Nat} {asks : List Ask} {address : Ip}
    (h : address ∈ reached rule world lookups requests asks) : Answered rule world address :=
  (serve_keeps asks _ (start_permitted lookups requests)).2.connections address h

/-- **Every connection of the server is one the rule permits.** -/
theorem reached_permitted {lookups requests : Nat} {asks : List Ask} {address : Ip}
    (h : address ∈ reached rule world lookups requests asks) : rule.permits address := by
  obtain ⟨n, host, addresses, -, hall, hmem⟩ := reached_answered h
  exact hall address hmem

/-- The check of a mail account whose first server is on a name, up to that server's refusal. -/
def signsIn (host : String) : Ask :=
  .account "" (.imap true (some (.domain host), 993) (some (.domain host), 465)) (.check false)

/-- An answer that is not refused is connected to. -/
theorem reached_signsIn {n requests : Nat} {host : String} {addresses : List Ip}
    (h : world.addresses n host = some addresses) (hall : ∀ other ∈ addresses, rule.permits other) :
    reached rule world n requests [signsIn host] = addresses := by
  have hfind : addresses.find? (fun address => !rule.permits address) = none :=
    List.find?_eq_none.2 fun other hother => by simp [hall other hother]
  simp [reached, serve, signsIn, answer, normalized, namedEndpoint, namedHost, useOf, check,
    signIn, resolve, lookup, connect, Trace.start, h, hfind]
  rfl

/-- **What the server reaches and should not.** Every address it connects to is neither in a denied
block nor carries an address of one, listed networks apart, exactly where no answer of the resolver
that the rule lets through slips. -/
theorem reaches_iff {rule : NetworkRule} {world : World} :
    (∀ lookups requests asks, ∀ address ∈ reached rule world lookups requests asks,
      forbidden address → rule.lists address) ↔
    ∀ n host addresses, world.addresses n host = some addresses →
      (∀ other ∈ addresses, rule.permits other) → ∀ address ∈ addresses,
        rule.slips address = false := by
  constructor
  · intro h n host addresses hanswer hall address hmem
    by_contra hslips
    refine (slips_iff (hall address hmem)).1 (Bool.eq_true_of_not_eq_false hslips) ?_
    exact h n 0 [signsIn host] address (by rwa [reached_signsIn hanswer hall])
  · intro h lookups requests asks address hmem hforbidden
    obtain ⟨n, host, addresses, hanswer, hall, hin⟩ := reached_answered hmem
    by_contra hlists
    have hslips := (slips_iff (hall address hin)).2 fun hlisted => hlists (hlisted hforbidden)
    rw [h n host addresses hanswer hall address hin] at hslips
    cases hslips

/-- A resolver that answers the loopback address behind the well-known translation block. -/
def translated : World where
  addresses := fun _ _ => some [.v6 (ipv6 0x64 0xff9b 0 0 0 0 0x7f00 1)]
  srv := fun _ _ => none
  answers := fun _ _ => .failed

/-- **The server connects to a private address behind the translation block.** -/
theorem translated_reached : ¬ ∀ (rule : NetworkRule) (world : World) (lookups requests : Nat)
    (asks : List Ask), ∀ address ∈ reached rule world lookups requests asks,
    forbidden address → rule.lists address := by
  intro hall
  have hpermits : ∀ other ∈ [Ip.v6 (ipv6 0x64 0xff9b 0 0 0 0 0x7f00 1)],
      (NetworkRule.mk []).permits other := by decide
  have hreached : reached ⟨[]⟩ translated 0 0 [signsIn "mail.example.test"] =
      [.v6 (ipv6 0x64 0xff9b 0 0 0 0 0x7f00 1)] := reached_signsIn rfl hpermits
  have hlists := hall ⟨[]⟩ translated 0 0 [signsIn "mail.example.test"]
    (.v6 (ipv6 0x64 0xff9b 0 0 0 0 0x7f00 1)) (by rw [hreached]; exact List.mem_singleton_self _)
    (by decide)
  cases hlists

end Huliho.Upstream
