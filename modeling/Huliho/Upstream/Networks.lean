import Mathlib.Data.BitVec
import Mathlib.Data.List.Basic

/-!
# The network rule

`upstream/network.rs`: which resolved addresses a connect may use. A network is an address and how
many of its leading bits count; the rule refuses an address inside a denied one unless the instance
lists a network that holds it.

An IPv6 address carries an IPv4 one in five ways. Three of their blocks are denied as a whole;
`::/96` and the well-known translation block `64:ff9b::/96` are not, and **`slips_iff`** says that
these two are all the rule lets through.
-/

namespace Huliho.Upstream

abbrev Ipv4 := BitVec 32

abbrev Ipv6 := BitVec 128

inductive Ip
  | v4 (address : Ipv4)
  | v6 (address : Ipv6)
deriving DecidableEq

/-- A network: an address and how many of its leading bits count. -/
structure Net (w : Nat) where
  address : BitVec w
  length : Nat

/-- Whether the leading bits of an address are the network's. -/
def Net.contains {w : Nat} (net : Net w) (address : BitVec w) : Bool :=
  address >>> (w - net.length) = net.address >>> (w - net.length)

inductive IpNet
  | v4 (net : Net 32)
  | v6 (net : Net 128)

/-- A network holds addresses of its own family only. -/
def IpNet.contains : IpNet → Ip → Bool
  | .v4 net, .v4 address => net.contains address
  | .v6 net, .v6 address => net.contains address
  | _, _ => false

/-- An IPv4 address by its bytes. -/
def ipv4 (a b c d : BitVec 8) : Ipv4 := a ++ b ++ c ++ d

/-- An IPv6 address by its segments. -/
def ipv6 (a b c d e f g h : BitVec 16) : Ipv6 := a ++ b ++ c ++ d ++ e ++ f ++ g ++ h

/-- The four-byte blocks of the special-purpose registry plus multicast and the reserved range. -/
def deniedV4 : List (Net 32) :=
  [⟨ipv4 0 0 0 0, 8⟩, ⟨ipv4 10 0 0 0, 8⟩, ⟨ipv4 100 64 0 0, 10⟩, ⟨ipv4 127 0 0 0, 8⟩,
    ⟨ipv4 169 254 0 0, 16⟩, ⟨ipv4 172 16 0 0, 12⟩, ⟨ipv4 192 0 0 0, 24⟩, ⟨ipv4 192 0 2 0, 24⟩,
    ⟨ipv4 192 88 99 0, 24⟩, ⟨ipv4 192 168 0 0, 16⟩, ⟨ipv4 198 18 0 0, 15⟩,
    ⟨ipv4 198 51 100 0, 24⟩, ⟨ipv4 203 0 113 0, 24⟩, ⟨ipv4 224 0 0 0, 4⟩, ⟨ipv4 240 0 0 0, 4⟩]

/-- The block of the mapped addresses. -/
def mapped : Net 128 := ⟨ipv6 0 0 0 0 0 0xffff 0 0, 96⟩

/-- The local translation block. -/
def localTranslation : Net 128 := ⟨ipv6 0x64 0xff9b 1 0 0 0 0 0, 48⟩

/-- The block of 6to4. -/
def sixToFour : Net 128 := ⟨ipv6 0x2002 0 0 0 0 0 0 0, 16⟩

/-- The sixteen-byte counterpart: unspecified, loopback, mapped, translation, discard, assignments,
documentation, 6to4, segment routing, unique local, link local and multicast. -/
def deniedV6 : List (Net 128) :=
  [⟨ipv6 0 0 0 0 0 0 0 0, 128⟩, ⟨ipv6 0 0 0 0 0 0 0 1, 128⟩, mapped, localTranslation,
    ⟨ipv6 0x100 0 0 0 0 0 0 0, 64⟩, ⟨ipv6 0x2001 0 0 0 0 0 0 0, 23⟩,
    ⟨ipv6 0x2001 0xdb8 0 0 0 0 0 0, 32⟩, sixToFour, ⟨ipv6 0x3fff 0 0 0 0 0 0 0, 20⟩,
    ⟨ipv6 0x5f00 0 0 0 0 0 0 0, 16⟩, ⟨ipv6 0xfc00 0 0 0 0 0 0 0, 7⟩,
    ⟨ipv6 0xfe80 0 0 0 0 0 0 0, 10⟩, ⟨ipv6 0xff00 0 0 0 0 0 0 0, 8⟩]

/-- Whether the address lies in a denied block. -/
def denied : Ip → Bool
  | .v4 address => deniedV4.any (·.contains address)
  | .v6 address => deniedV6.any (·.contains address)

/-- The rule of an instance: the networks it lists. -/
structure NetworkRule where
  allowed : List IpNet

/-- Whether the instance lists a network holding the address. -/
def NetworkRule.lists (rule : NetworkRule) (address : Ip) : Bool :=
  rule.allowed.any (·.contains address)

/-- Whether a connect may go to the address. -/
def NetworkRule.permits (rule : NetworkRule) (address : Ip) : Bool :=
  !denied address || rule.lists address

/-! ## What an address carries -/

/-- The block of the compatible addresses. -/
def compatible : Net 128 := ⟨ipv6 0 0 0 0 0 0 0 0, 96⟩

/-- The well-known translation block. -/
def wellKnownTranslation : Net 128 := ⟨ipv6 0x64 0xff9b 0 0 0 0 0 0, 96⟩

/-- The IPv4 address in the last four bytes. -/
def last (address : Ipv6) : Ipv4 := address.setWidth 32

/-- The IPv4 addresses an IPv6 address carries. Under the local translation block the prefix the
network chose is not known: it stands behind 48 bits with eight zero bits after two bytes, or in the
last four bytes. -/
def carried (address : Ipv6) : List Ipv4 :=
  (if mapped.contains address then [last address] else []) ++
  (if compatible.contains address then [last address] else []) ++
  (if wellKnownTranslation.contains address then [last address] else []) ++
  (if localTranslation.contains address then
    [address.extractLsb' 64 16 ++ address.extractLsb' 40 16, last address] else []) ++
  (if sixToFour.contains address then [address.extractLsb' 80 32] else [])

/-- Whether the address lies in a denied block or carries an IPv4 address of one. -/
def forbidden : Ip → Bool
  | .v4 address => denied (.v4 address)
  | .v6 address => denied (.v6 address) || (carried address).any fun inner => denied (.v4 inner)

/-- Whether the address carries a denied IPv4 address in one of the two blocks that are not denied
themselves, and no listed network holds it. -/
def NetworkRule.slips (rule : NetworkRule) : Ip → Bool
  | .v4 _ => false
  | .v6 address => (compatible.contains address || wellKnownTranslation.contains address) &&
      denied (.v4 (last address)) && !denied (.v6 address) && !rule.lists (.v6 address)

theorem denied_of_mem {net : Net 128} (h : net ∈ deniedV6) {address : Ipv6}
    (hin : net.contains address) : denied (.v6 address) := List.any_eq_true.2 ⟨net, h, hin⟩

theorem mem_carried {address : Ipv6} {inner : Ipv4} (h : inner ∈ carried address)
    (hallowed : denied (.v6 address) = false) : inner = last address ∧
      (compatible.contains address || wellKnownTranslation.contains address) := by
  have hnot : ∀ net ∈ deniedV6, net.contains address = false := by
    intro net hnet
    by_contra hin
    rw [denied_of_mem hnet (Bool.eq_true_of_not_eq_false hin)] at hallowed
    cases hallowed
  have hmapped := hnot mapped (by simp [deniedV6])
  have hlocal := hnot localTranslation (by simp [deniedV6])
  have hsix := hnot sixToFour (by simp [deniedV6])
  simp only [carried, hmapped, hlocal, hsix, Bool.false_eq_true, if_false, List.nil_append,
    List.append_nil, List.mem_append] at h
  rcases h with h | h
  · split at h
    · rename_i hin
      exact ⟨List.mem_singleton.1 h, by rw [hin]; rfl⟩
    · cases h
  · split at h
    · rename_i hin
      exact ⟨List.mem_singleton.1 h, by rw [hin]; exact Bool.or_true _⟩
    · cases h

theorem last_carried {address : Ipv6}
    (h : (compatible.contains address || wellKnownTranslation.contains address) = true) :
    last address ∈ carried address := by
  simp only [carried, List.mem_append]
  rcases Bool.or_eq_true_iff.1 h with hin | hin
  · exact .inl (.inl (.inl (.inr (by rw [if_pos hin]; exact List.mem_singleton_self _))))
  · exact .inl (.inl (.inr (by rw [if_pos hin]; exact List.mem_singleton_self _)))

/-- **What the rule lets through and should not** are the addresses that slip. -/
theorem slips_iff {rule : NetworkRule} {address : Ip} (h : rule.permits address) :
    rule.slips address ↔ ¬ (forbidden address → rule.lists address) := by
  rw [NetworkRule.permits, Bool.or_eq_true, Bool.not_eq_true'] at h
  cases address with
  | v4 address =>
    refine ⟨fun hslips => absurd hslips Bool.false_ne_true, fun hnot => absurd (fun hin => ?_) hnot⟩
    have hdenied : denied (.v4 address) = true := hin
    exact h.resolve_left (by rw [hdenied]; exact nofun)
  | v6 address =>
    simp only [NetworkRule.slips, Bool.and_eq_true, Bool.not_eq_true']
    constructor
    · rintro ⟨⟨⟨hblock, hinner⟩, -⟩, hlists⟩ hall
      have hforbidden : forbidden (.v6 address) := by
        rw [forbidden, Bool.or_eq_true]
        exact .inr (List.any_eq_true.2 ⟨_, last_carried hblock, hinner⟩)
      rw [hall hforbidden] at hlists
      cases hlists
    · intro hnot
      obtain ⟨hforbidden, hlists⟩ := Classical.not_imp.1 hnot
      rw [Bool.not_eq_true] at hlists
      have hallowed : denied (.v6 address) = false := h.resolve_right (by rw [hlists]; exact nofun)
      rw [forbidden, hallowed, Bool.false_or, List.any_eq_true] at hforbidden
      obtain ⟨inner, hinner, hdenied⟩ := hforbidden
      obtain ⟨rfl, hblock⟩ := mem_carried hinner hallowed
      exact ⟨⟨⟨hblock, hdenied⟩, hallowed⟩, hlists⟩

/-- The loopback address behind the well-known translation block slips, and the one of a public
server does not. -/
example : (NetworkRule.mk []).slips (.v6 (ipv6 0x64 0xff9b 0 0 0 0 0x7f00 1)) = true ∧
    (NetworkRule.mk []).slips (.v6 (ipv6 0x64 0xff9b 0 0 0 0 0x0808 0x0808)) = false := by decide

end Huliho.Upstream
