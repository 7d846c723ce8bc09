import Huliho.Lib.Effects
import Huliho.Upstream.Networks

/-!
# What connects where

`upstream/mod.rs` and the paths that go out through it: the credential check of a submitted target,
the proxied calls, the remote images, the sign-ins of the bridge and discovery. A `World` answers
every lookup and every request, each of them anew; a `Trace` counts them and keeps the addresses
connected to.

The HTTP client is what its users rely on: it asks its resolver for a name and connects to what that
answered, and it connects to an address literal without asking. Parsing, templates and joining are
the URL library's, so every URL stands for what it reads.
-/

namespace Huliho.Upstream

/-- The host of a URL. -/
inductive Host
  | domain (name : String)
  | address (ip : Ip)
deriving DecidableEq

/-- A URL as far as a check reads it. -/
structure Url where
  scheme : String
  username : String
  password : Option String
  host : Option Host
  port : Option Nat
  /-- The bytes it is written in. -/
  length : Nat
deriving DecidableEq

namespace Url

variable (url : Url)

/-- Whether the host is a name. -/
def named : Bool :=
  match url.host with
  | some (.domain _) => true
  | _ => false

/-- Whether the URL carries no user information. -/
def anonymous : Bool := url.username.isEmpty && url.password.isNone

/-- The port, else the one of the scheme. -/
def portOrKnownDefault : Option Nat :=
  url.port.or (if url.scheme = "https" then some 443 else if url.scheme = "http" then some 80
    else none)

/-- An HTTPS URL on a name. -/
def https (name : String) (port : Option Nat) : Url := ⟨"https", "", none, some (.domain name), port, 0⟩

end Url

/-- What a request answers: the target of a redirect, joined and unchecked, or a body, whose session
object may name URLs. -/
inductive Answer
  | redirect (target : Url)
  | body (api : Url) (download upload : Option Url)
  /-- Refused or cut off. -/
  | failed

/-- What the network answers: the n-th lookup of a host, of a service, the n-th request of a URL. -/
structure World where
  addresses : Nat → String → Option (List Ip)
  /-- The host of the record to use, as `select_srv` chooses it, before it is read as a host. -/
  srv : Nat → String → Option (Option Host × Nat)
  answers : Nat → Url → Answer

/-- What the upstream named: the API endpoint, checked, and the templates. -/
structure UpstreamUrls where
  api : Url
  download : Option Url
  upload : Option Url

abbrev AccountId := String

/-- What went out so far, and the endpoints remembered of each account. -/
structure Trace where
  lookups : Nat
  requests : Nat
  connections : List Ip
  endpoints : List (AccountId × UpstreamUrls)

/-- Nothing went out yet; the network stands anywhere in its answers. -/
def Trace.start (lookups requests : Nat) : Trace := ⟨lookups, requests, [], []⟩

abbrev Out (α : Type) := StateM Trace α

inductive UpstreamError
  | resolve
  | privateNetwork (address : Ip)

/-- Redirect chains longer than this are refused. -/
def maxRedirects : Nat := 3

/-- Redirects followed for one image. -/
def remoteRedirects : Nat := 3

/-- The bound on the length of an image's URL. -/
def remoteUrlBytes : Nat := 2048

section

variable (rule : NetworkRule) (world : World)

/-! ## The resolver -/

/-- `Pinned::lookup`: the addresses as the resolver answers them; one denied refuses them all. -/
def lookup (host : String) : Out (Except UpstreamError (List Ip)) := do
  let found ← modifyGet fun trace =>
    (world.addresses trace.lookups host, { trace with lookups := trace.lookups + 1 })
  match found with
  | none => return .error .resolve
  | some addresses =>
    match addresses.find? fun address => !rule.permits address with
    | some address => return .error (.privateNetwork address)
    | none => return .ok addresses

/-- `Upstream::resolve`. -/
def resolve (host : String) : Out (Except UpstreamError (List Ip)) := lookup rule world host

/-- A connect to the addresses, one after the other. -/
def connect (addresses : List Ip) : Out Unit :=
  modify fun trace => { trace with connections := trace.connections ++ addresses }

/-! ## The HTTP client -/

/-- The client's connect; whether there was anything to connect to. -/
def dial (host : Option Host) : Out Bool := do
  match host with
  | none => return false
  | some (.address ip) =>
    connect [ip]
    return true
  | some (.domain name) =>
    match ← lookup rule world name with
    | .error _ => return false
    | .ok addresses =>
      connect addresses
      return true

/-- One request of a URL; the client speaks TLS only. -/
def request (url : Url) : Out Answer := do
  if url.scheme ≠ "https" then
    return .failed
  if ← dial rule world url.host then
    modifyGet fun trace =>
      (world.answers trace.requests url, { trace with requests := trace.requests + 1 })
  else
    return .failed

/-- `redirect_policy`: a redirect is followed only to another HTTPS URL on a named host, and only so
many times; the URL that answered comes with the answer. -/
def follow (left : Nat) (url : Url) : Out (Url × Answer) := do
  match ← request rule world url with
  | .redirect target =>
    match left with
    | 0 => return (url, .failed)
    | left + 1 =>
      if target.scheme = "https" && target.named then follow left target
      else return (url, .failed)
  | answer => return (url, answer)

/-- A request of `Upstream::http`. -/
def send (url : Url) : Out (Url × Answer) := follow rule world maxRedirects url

/-! ## Accounts -/

structure Endpoint where
  host : String
  port : Nat

/-- The target of an account. -/
inductive AccountSettings
  | jmap (sessionUrl : Url)
  | imap (incoming outgoing : Endpoint)

/-- A host as submitted, read by the URL library; its name where it is one. -/
def namedHost : Option Host → Option String
  | some (.domain name) => some name
  | _ => none

/-- A target as submitted: a session URL, or two hosts as read and their ports. -/
inductive Submitted
  | jmap (sessionUrl : Url)
  | imap (username : Bool) (incoming outgoing : Option Host × Nat)

def namedEndpoint (endpoint : Option Host × Nat) : Option Endpoint :=
  (namedHost endpoint.1).bind fun host => if endpoint.2 ≠ 0 then some ⟨host, endpoint.2⟩ else none

/-- `normalized`: a target names hosts, never address literals, speaks TLS and carries no credential
of its own. -/
def normalized : Submitted → Option AccountSettings
  | .jmap sessionUrl =>
    if sessionUrl.scheme = "https" && sessionUrl.named && sessionUrl.anonymous then
      some (.jmap sessionUrl)
    else none
  | .imap username incoming outgoing =>
    if username then
      (namedEndpoint incoming).bind fun incoming =>
        (namedEndpoint outgoing).map fun outgoing => .imap incoming outgoing
    else none

/-- A sign-in on an endpoint: its addresses resolved and checked, then connected to; `works` says
whether the server let it in. -/
def signIn (works : Bool) (endpoint : Endpoint) : Out Bool := do
  match ← resolve rule world endpoint.host with
  | .error _ => return false
  | .ok addresses =>
    connect addresses
    return works

/-- `Probe::check`: the session resource for JMAP, IMAP and then SMTP for the rest. -/
def check (works : Bool) (target : AccountSettings) : Out Unit := do
  match target with
  | .jmap sessionUrl =>
    let _ ← send rule world sessionUrl
  | .imap incoming outgoing =>
    if ← signIn rule world works incoming then
      let _ ← signIn rule world works outgoing

/-! ## The proxy -/

/-- `checked_endpoint`: a URL the upstream named as a target this instance may reach. -/
def checkedEndpoint (url : Url) : Out (Option Url) := do
  match url.host with
  | some (.domain name) =>
    if url.scheme ≠ "https" || !url.anonymous then
      return none
    match url.portOrKnownDefault with
    | none => return none
    | some _ =>
      match ← resolve rule world name with
      | .error _ => return none
      | .ok _ => return some url
  | _ => return none

/-- `Endpoints::remember`. -/
def remember (account : AccountId) (urls : UpstreamUrls) : Out Unit :=
  modify fun trace => { trace with endpoints := (account, urls) :: trace.endpoints }

/-- `fetch_with`: the session object, its API endpoint checked and remembered. -/
def fetchWith (account : AccountId) (sessionUrl : Url) : Out (Option UpstreamUrls) := do
  match (← send rule world sessionUrl).2 with
  | .body api download upload =>
    match ← checkedEndpoint rule world api with
    | none => return none
    | some api =>
      remember account ⟨api, download, upload⟩
      return some ⟨api, download, upload⟩
  | _ => return none

/-- `upstream_urls`: the URLs remembered, else fetched now. -/
def upstreamUrls (account : AccountId) (sessionUrl : Url) : Out (Option UpstreamUrls) := do
  match (← get).endpoints.find? fun entry => entry.1 = account with
  | some entry => return some entry.2
  | none => fetchWith rule world account sessionUrl

/-- `post`. -/
def post (account : AccountId) (sessionUrl : Url) : Out Unit := do
  match ← upstreamUrls rule world account sessionUrl with
  | none => return ()
  | some urls =>
    let _ ← send rule world urls.api

/-- `fetch_blob`. -/
def fetchBlob (account : AccountId) (sessionUrl : Url) : Out Unit := do
  match (← upstreamUrls rule world account sessionUrl).bind UpstreamUrls.download with
  | none => return ()
  | some template =>
    match ← checkedEndpoint rule world template with
    | none => return ()
    | some url =>
      let _ ← send rule world url

/-- `forward_upload`: a redirect is answered rather than followed. -/
def forwardUpload (account : AccountId) (sessionUrl : Url) : Out Unit := do
  match (← upstreamUrls rule world account sessionUrl).bind UpstreamUrls.upload with
  | none => return ()
  | some template =>
    match ← checkedEndpoint rule world template with
    | none => return ()
    | some url =>
      let _ ← request rule world url

/-! ## Remote images -/

/-- `admitted`: within the bound, `https` with an `http` scheme raised, without user information, on
a named host. -/
def admitted (url : Url) : Option Url :=
  if remoteUrlBytes < url.length then none
  else if url.scheme ≠ "https" && url.scheme ≠ "http" then none
  else if !url.anonymous || !url.named then none
  else some { url with scheme := "https" }

/-- `resolved`: the host resolved and checked before anything connects. -/
def resolved (url : Url) : Out Bool := do
  match url.host with
  | some (.domain name) =>
    match url.portOrKnownDefault with
    | none => return false
    | some _ =>
      match ← resolve rule world name with
      | .error _ => return false
      | .ok addresses => return !addresses.isEmpty
  | _ => return false

/-- `hop`: one request; the target of its redirect, if it answered one. -/
def hop (url : Url) : Out (Option Url) := do
  if ← resolved rule world url then
    match ← request rule world url with
    | .redirect target => return some target
    | _ => return none
  else
    return none

/-- `fetch`: every redirect checked like the first URL before it is followed. -/
def fetch (left : Nat) (url : Url) : Out Unit := do
  match ← hop rule world url with
  | none => return ()
  | some target =>
    match left with
    | 0 => return ()
    | left + 1 =>
      match admitted target with
      | none => return ()
      | some next => fetch left next

/-- The image behind a URL a sender wrote. -/
def image (given : Url) : Out Unit := do
  match admitted given with
  | none => return ()
  | some url => fetch rule world remoteRedirects url

/-! ## Discovery -/

def srvTarget (service : String) : Out (Option (String × Nat)) := do
  let found ← modifyGet fun trace =>
    (world.srv trace.lookups service, { trace with lookups := trace.lookups + 1 })
  return found.bind fun record => (namedHost record.1).map fun host => (host, record.2)

/-- The documents of the autoconfiguration; `goes` says after which request the chain goes on. -/
def autoconfig (goes : Nat → Bool) (domain : String) : Out Unit := do
  let _ ← send rule world (.https ("autoconfig." ++ domain) none)
  if goes 2 then
    let _ ← send rule world (.https domain none)
    if goes 3 then
      let _ ← send rule world (.https "autoconfig.thunderbird.net" none)

/-- `Chain::run` as far as it connects: the well-known resource on the domain and on the host its
record names, then the documents. -/
def discover (goes : Nat → Bool) (domain : String) : Out Unit := do
  let _ ← send rule world (.https domain none)
  if goes 0 then
    match ← srvTarget world ("_jmap._tcp." ++ domain) with
    | none => pure ()
    | some (host, port) =>
      let _ ← send rule world (.https host (some port))
    if goes 1 then
      autoconfig rule world goes domain

/-! ## The paths -/

/-- What goes out for an account. -/
inductive Use
  | check (works : Bool)
  | session
  | post
  | blob
  | upload
  /-- The sign-ins of the bridge: the mail session and the submission. -/
  | signIn (works : Bool)

/-- What goes out. -/
inductive Ask
  | account (account : AccountId) (target : Submitted) (use : Use)
  | image (given : Url)
  | discover (goes : Nat → Bool) (domain : String)

/-- One use of an account with a target the API took. -/
def useOf (account : AccountId) (target : AccountSettings) (use : Use) : Out Unit := do
  match target, use with
  | target, .check works => check rule world works target
  | .jmap sessionUrl, .session =>
    let _ ← fetchWith rule world account sessionUrl
  | .jmap sessionUrl, .post => post rule world account sessionUrl
  | .jmap sessionUrl, .blob => fetchBlob rule world account sessionUrl
  | .jmap sessionUrl, .upload => forwardUpload rule world account sessionUrl
  | .imap incoming outgoing, .signIn works =>
    let _ ← signIn rule world works incoming
    let _ ← signIn rule world works outgoing
  | _, _ => return ()

/-- One ask; an account's target is the one the API took. -/
def answer : Ask → Out Unit
  | .account account target use =>
    match normalized target with
    | none => return ()
    | some target => useOf rule world account target use
  | .image given => image rule world given
  | .discover goes domain => discover rule world goes domain

/-- The server answers one ask after the other. -/
def serve : List Ask → Out Unit
  | [] => return ()
  | ask :: asks => do
    answer rule world ask
    serve asks

end

end Huliho.Upstream
