import GhostDag.Dag.Block
import GhostDag.Topology.Peers

/-!
# GhostDag.Topology.PointToPoint

The links over the connections, and the addresses on the links
(`helpers/node-topology-helper.cc`, `helpers/ipv4-address-helper-custom.cc`).

Links between miners come from the first entries of each miner's list, all
others from a second loop over the lists, and each of them goes from the
smaller to the larger id.  So every connection gets one link, and its ends get
each other's address.

The number of links is kept in 32 bits, and so is the index of the loop over
the devices: from `2 ^ 32` links on the count is wrong and the loop does not
end (`GhostDagTopology.linked_iff`).
-/

namespace GhostDag

open Containers

/-! ## links -/

/-- `m_totalNoLinks` and `m_devices`: a pair of devices stands for the nodes it
is installed on. -/
structure P2pLinks where
  totalNoLinks : Nat := 0
  devices : List (Nat × Nat) := []

namespace P2pLinks

/-- One more link, counted in 32 bits. -/
def install (s : P2pLinks) (a b : Nat) : P2pLinks where
  totalNoLinks := (s.totalNoLinks + 1) % 2 ^ 32
  devices := s.devices ++ [(a, b)]

/-- A loop over nodes and entries of their lists, which installs a link where
`p` holds. -/
def installAll (nodes : List Nat) (peers : Nat → List Nat) (p : Nat → Nat → Bool) (s : P2pLinks) :
    P2pLinks :=
  nodes.foldl (fun s a => (peers a).foldl (fun s b => if p a b then s.install a b else s) s) s

end P2pLinks

namespace GhostDagTopology

/-- The entries of a miner's list that the first loop goes through. -/
def minerPeers (t : GhostDagTopology) (miner : Nat) : List Nat :=
  (t.nodesConnections miner).take (t.miners.length - 1)

/-- The first loop: links between miners. -/
def installMinerLinks (t : GhostDagTopology) (s : P2pLinks) : P2pLinks :=
  s.installAll t.miners t.minerPeers fun miner it => miner < it

/-- The second loop: links that do not join two miners. -/
def installNodeLinks (t : GhostDagTopology) (s : P2pLinks) : P2pLinks :=
  s.installAll (List.range t.totalNoNodes) t.nodesConnections fun node it =>
    node < it && (it ∉ t.miners || node ∉ t.miners)

/-- The links after both loops. -/
def links (t : GhostDagTopology) : P2pLinks := t.installNodeLinks (t.installMinerLinks {})

end GhostDagTopology

/-! ## addresses -/

/-- `Ipv4AddressHelperCustom`, all fields being 32-bit. -/
structure Ipv4AddressHelperCustom where
  network : Nat
  address : Nat
  base : Nat
  shift : Nat
  max : Nat
  deriving DecidableEq

namespace Ipv4AddressHelperCustom

/-- `NumAddressBits`, over the bits that are left to look at. -/
def numAddressBits : Nat → Nat → Option Nat
  | 0, _ => none
  | bits + 1, mask => if mask % 2 = 1 then some 0 else (numAddressBits bits (mask / 2)).map (· + 1)

/-- `SetBase`, which asserts that network and mask fit together. -/
def setBase (network mask address : Nat) : Option Ipv4AddressHelperCustom :=
  if network &&& (2 ^ 32 - 1 - mask) ≠ 0 then none
  else do
    let shift ← numAddressBits 32 mask
    let max := (2 ^ shift + 2 ^ 32 - 2) % 2 ^ 32
    return { network := network / 2 ^ shift, address, base := address, shift, max }

/-- `NewAddress`, which asserts that there is one left; `main` turns the check
for duplicates off. -/
def newAddress (ip : Ipv4AddressHelperCustom) : Option (Ipv4Address × Ipv4AddressHelperCustom) :=
  if ip.address ≤ ip.max then
    some (ip.network * 2 ^ ip.shift % 2 ^ 32 ||| ip.address,
      { ip with address := (ip.address + 1) % 2 ^ 32 })
  else none

def newNetwork (ip : Ipv4AddressHelperCustom) : Ipv4AddressHelperCustom :=
  { ip with network := (ip.network + 1) % 2 ^ 32, address := ip.base }

/-- A new network with room for two addresses. -/
structure HasRoom (ip : Ipv4AddressHelperCustom) : Prop where
  address_eq : ip.address = ip.base
  base_lt : ip.base < ip.max
  max_lt : ip.max < 2 ^ 32

end Ipv4AddressHelperCustom

/-- The state of `AssignIpv4Addresses`: the addresses given to the pairs of
devices, and what each node knows of its peers. -/
structure Addressing where
  ip : Ipv4AddressHelperCustom
  interfaces : List (Ipv4Address × Ipv4Address) := []
  nodesConnectionsIps : Nat → List Ipv4Address := fun _ => []

namespace Addressing

/-- Give addresses to the two devices of a link, and tell each end the address
of the other. -/
def assign (s : Addressing) (devices : Nat × Nat) : Option Addressing := do
  let (address1, ip) ← s.ip.newAddress
  let (address2, ip) ← ip.newAddress
  return {
    ip := ip.newNetwork
    interfaces := s.interfaces ++ [(address1, address2)]
    nodesConnectionsIps :=
      Adjacency.push (Adjacency.push s.nodesConnectionsIps devices.1 address2) devices.2 address1 }

end Addressing

/-- `AssignIpv4Addresses`.  Its index is a `uint32_t`, which never gets to the
end of `2 ^ 32` pairs of devices. -/
def assignIpv4Addresses (devices : List (Nat × Nat)) (ip : Ipv4AddressHelperCustom) :
    Option Addressing :=
  if devices.length < 2 ^ 32 then devices.foldlM Addressing.assign { ip } else none

/-! ## exactly one link -/

/-- `a` is the address of the device of `v` on a link of `u` and `v`. -/
def PeerAddress (devices : List (Nat × Nat)) (interfaces : List (Ipv4Address × Ipv4Address))
    (u v : Nat) (a : Ipv4Address) : Prop :=
  ∃ (k : Nat) (a' : Ipv4Address),
    (devices[k]? = some (u, v) ∧ interfaces[k]? = some (a', a)) ∨
      (devices[k]? = some (v, u) ∧ interfaces[k]? = some (a, a'))

/-- The unordered pairs of connected nodes, the smaller id first. -/
def GhostDagTopology.connectedPairs (t : GhostDagTopology) : Finset (ℕ × ℕ) :=
  (Finset.range t.totalNoNodes ×ˢ Finset.range t.totalNoNodes).filter fun e =>
    e.1 < e.2 ∧ e.2 ∈ t.nodesConnections e.1

/-- **Each connection gets exactly one link**: nothing is read past the end of
a list, two nodes are joined by one pair of devices if they are connected and
by none otherwise, the links are counted, and every node gets one address for
each neighbour. -/
structure GhostDagTopology.Linked (t : GhostDagTopology) (ip : Ipv4AddressHelperCustom) : Prop where
  inRange : ∀ m ∈ t.miners, t.miners.length - 1 ≤ (t.nodesConnections m).length
  devices : ∀ a b, t.links.devices.countP (fun d => d = (a, b) ∨ d = (b, a)) =
    if b ∈ t.nodesConnections a then 1 else 0
  totalNoLinks : t.links.totalNoLinks = t.connectedPairs.card
  addresses : ∃ r, assignIpv4Addresses t.links.devices ip = some r ∧
    ∀ u, ∃ peers, List.Perm peers (t.nodesConnections u) ∧
      List.Forall₂ (PeerAddress t.links.devices r.interfaces u) peers (r.nodesConnectionsIps u)

/-! ## what the loops install -/

namespace P2pLinks

variable {nodes : List ℕ} {peers : ℕ → List ℕ} {p : ℕ → ℕ → Bool} {s : P2pLinks}

/-- The count is the number of links, modulo `2 ^ 32`. -/
def Counted (s : P2pLinks) : Prop := s.totalNoLinks = s.devices.length % 2 ^ 32

theorem Counted.install (h : s.Counted) (a b : ℕ) : (s.install a b).Counted := by
  unfold Counted at h ⊢
  rw [P2pLinks.install, List.length_append, List.length_singleton, h, Nat.mod_add_mod]

/-- **The loops install the pairs that `p` lets through.** -/
theorem installAll_spec (nodes : List ℕ) (peers : ℕ → List ℕ) (p : ℕ → ℕ → Bool)
    (h : s.Counted) : (s.installAll nodes peers p).Counted ∧
      (s.installAll nodes peers p).devices = s.devices ++ Adjacency.pairs nodes peers p := by
  have hinner : ∀ (a : ℕ) (l : List ℕ) (s : P2pLinks), s.Counted →
      (l.foldl (fun s b => if p a b then s.install a b else s) s).Counted ∧
        (l.foldl (fun s b => if p a b then s.install a b else s) s).devices =
          s.devices ++ (l.filter (p a)).map (Prod.mk a) := by
    intro a l
    induction l with
    | nil => exact fun s h => ⟨h, (List.append_nil _).symm⟩
    | cons b l ih =>
        intro s h
        rw [List.foldl_cons]
        by_cases hp : p a b = true
        · obtain ⟨hcount, hdevices⟩ := ih _ (h.install a b)
          rw [if_pos hp, List.filter_cons_of_pos hp, List.map_cons]
          refine ⟨hcount, ?_⟩
          rw [hdevices, P2pLinks.install, List.append_assoc, List.singleton_append]
        · rw [if_neg hp, List.filter_cons_of_neg hp]
          exact ih s h
  induction nodes generalizing s with
  | nil => exact ⟨h, (List.append_nil _).symm⟩
  | cons a nodes ih =>
      obtain ⟨hcount, hdevices⟩ := hinner a (peers a) s h
      obtain ⟨hcount', hdevices'⟩ := ih hcount
      refine ⟨hcount', ?_⟩
      rw [installAll, List.foldl_cons]
      refine hdevices'.trans ?_
      rw [hdevices, List.append_assoc, Adjacency.pairs, Adjacency.pairs, List.flatMap_cons]

end P2pLinks

namespace GhostDagTopology

variable {t : GhostDagTopology} {noMiners : ℕ} {limits : ConnectionLimits}

theorem links_spec (t : GhostDagTopology) : t.links.Counted ∧ t.links.devices =
    Adjacency.pairs t.miners t.minerPeers (fun miner it => miner < it) ++
      Adjacency.pairs (List.range t.totalNoNodes) t.nodesConnections (fun node it =>
        node < it && (it ∉ t.miners || node ∉ t.miners)) := by
  have hstart : ({} : P2pLinks).Counted := rfl
  obtain ⟨hcount, hdevices⟩ := P2pLinks.installAll_spec t.miners t.minerPeers
    (fun miner it => miner < it) hstart
  obtain ⟨hcount', hdevices'⟩ := P2pLinks.installAll_spec (List.range t.totalNoNodes)
    t.nodesConnections (fun node it => node < it && (it ∉ t.miners || node ∉ t.miners)) hcount
  refine ⟨hcount', hdevices'.trans ?_⟩
  rw [hdevices, List.nil_append]

namespace WellFormed

/-- **The links are the connections**, from the smaller id to the larger. -/
theorem mem_devices_iff (h : t.WellFormed noMiners limits) (a b : ℕ) :
    (a, b) ∈ t.links.devices ↔ a < b ∧ b ∈ t.nodesConnections a := by
  rw [t.links_spec.2, List.mem_append, Adjacency.mem_pairs, Adjacency.mem_pairs]
  simp only [minerPeers, List.mem_range, Bool.and_eq_true, Bool.or_eq_true, decide_eq_true_eq]
  constructor
  · rintro (⟨ha, hb, hlt⟩ | ⟨-, hb, hlt, -⟩)
    · exact ⟨hlt, List.mem_of_mem_take hb⟩
    · exact ⟨hlt, hb⟩
  · rintro ⟨hlt, hb⟩
    by_cases hminers : a ∈ t.miners ∧ b ∈ t.miners
    · exact .inl ⟨hminers.1, (h.miners_first a hminers.1 b).mpr ⟨hminers.2, hlt.ne'⟩, hlt⟩
    · exact .inr ⟨(h.lt a b hb).1, hb, hlt, by tauto⟩

theorem nodup_devices (h : t.WellFormed noMiners limits) : t.links.devices.Nodup := by
  rw [t.links_spec.2, List.nodup_append]
  refine ⟨Adjacency.nodup_pairs h.nodup_miners fun m _ =>
    (h.simple.nodup m).sublist (List.take_sublist _ _),
    Adjacency.nodup_pairs List.nodup_range fun a _ => h.simple.nodup a, ?_⟩
  -- the second loop leaves out what the first one has installed
  rintro ⟨a, b⟩ hfirst _ hsecond rfl
  obtain ⟨ha, hb, -⟩ := Adjacency.mem_pairs.mp hfirst
  obtain ⟨-, -, hno⟩ := Adjacency.mem_pairs.mp hsecond
  obtain ⟨hbm, -⟩ := (h.miners_first a ha b).mp hb
  simp [ha, hbm] at hno

theorem countP_devices (h : t.WellFormed noMiners limits) (a b : ℕ) :
    t.links.devices.countP (fun d => d = (a, b) ∨ d = (b, a)) =
      if b ∈ t.nodesConnections a then 1 else 0 := by
  have hone : ∀ a b, a < b → b ∈ t.nodesConnections a →
      t.links.devices.countP (fun d => d = (a, b) ∨ d = (b, a)) = 1 := by
    intro a b hlt hb
    refine Adjacency.countP_joins_eq_one h.nodup_devices ((h.mem_devices_iff a b).mpr ⟨hlt, hb⟩) ?_
    exact fun hback => hlt.asymm ((h.mem_devices_iff b a).mp hback).1
  split
  · next hb =>
      obtain hlt | rfl | hlt := lt_trichotomy a b
      · exact hone a b hlt hb
      · exact absurd hb (h.simple.irrefl a)
      · rw [← hone b a hlt (h.simple.symm a b hb)]
        exact List.countP_congr fun d _ => by simp only [or_comm]
  · next hb =>
      rw [List.countP_eq_zero]
      intro d hd hjoins
      obtain rfl | rfl := of_decide_eq_true hjoins
      · exact hb ((h.mem_devices_iff a b).mp hd).2
      · exact hb (h.simple.symm b a ((h.mem_devices_iff b a).mp hd).2)

theorem card_connectedPairs (h : t.WellFormed noMiners limits) :
    t.connectedPairs.card = t.links.devices.length := by
  rw [← List.toFinset_card_of_nodup h.nodup_devices]
  congr 1
  ext ⟨a, b⟩
  rw [List.mem_toFinset, h.mem_devices_iff, connectedPairs, Finset.mem_filter, Finset.mem_product,
    Finset.mem_range, Finset.mem_range]
  constructor
  · exact fun hmem => hmem.2
  · exact fun hmem => ⟨h.lt a b hmem.2, hmem⟩

theorem totalNoLinks_eq (h : t.WellFormed noMiners limits) :
    t.links.totalNoLinks = t.connectedPairs.card % 2 ^ 32 := by
  rw [h.card_connectedPairs]
  exact t.links_spec.1

end WellFormed

end GhostDagTopology

/-! ## who gets which address -/

/-- A network with room gives two addresses, and the next one has room too. -/
theorem Ipv4AddressHelperCustom.HasRoom.exists_newAddress {ip : Ipv4AddressHelperCustom}
    (h : ip.HasRoom) : ∃ address1 ip₁ address2 ip₂, ip.newAddress = some (address1, ip₁) ∧
      ip₁.newAddress = some (address2, ip₂) ∧ ip₂.newNetwork.HasRoom := by
  have hlt : ip.base + 1 < 2 ^ 32 := by
    have hbase := h.base_lt
    have hmax := h.max_lt
    omega
  have hfirst : ip.address ≤ ip.max := h.address_eq ▸ h.base_lt.le
  have hsecond : (ip.address + 1) % 2 ^ 32 ≤ ip.max := by
    rw [h.address_eq, Nat.mod_eq_of_lt hlt]
    exact h.base_lt
  exact ⟨_, _, _, _, if_pos hfirst, if_pos hsecond, rfl, h.base_lt, h.max_lt⟩

section Addresses

variable {devices : List (ℕ × ℕ)} {interfaces : List (Ipv4Address × Ipv4Address)} {u v : ℕ}
  {a : Ipv4Address} {s : Addressing}

/-- Later links do not change the address of a peer. -/
theorem PeerAddress.append (h : PeerAddress devices interfaces u v a) (d : ℕ × ℕ)
    (i : Ipv4Address × Ipv4Address) : PeerAddress (devices ++ [d]) (interfaces ++ [i]) u v a := by
  have hkeep : ∀ {α : Type} {l : List α} {x y : α} {k : ℕ}, l[k]? = some y →
      (l ++ [x])[k]? = some y := by
    intro α l x y k hk
    rw [List.getElem?_append_left (List.getElem?_eq_some_iff.mp hk).1, hk]
  obtain ⟨k, a', ⟨hdevices, haddress⟩ | ⟨hdevices, haddress⟩⟩ := h
  · exact ⟨k, a', .inl ⟨hkeep hdevices, hkeep haddress⟩⟩
  · exact ⟨k, a', .inr ⟨hkeep hdevices, hkeep haddress⟩⟩

/-- What holds after the pairs in `devices` have got their addresses. -/
structure Addressing.Assigned (devices : List (ℕ × ℕ)) (s : Addressing) : Prop where
  room : s.ip.HasRoom
  length : s.interfaces.length = devices.length
  peer : ∀ u, List.Forall₂ (PeerAddress devices s.interfaces u) (Adjacency.neighbours devices u)
    (s.nodesConnectionsIps u)

/-- **One more link** gets its addresses, and both ends the address of the
other. -/
theorem Addressing.Assigned.exists_assign (h : s.Assigned devices) (d : ℕ × ℕ) :
    ∃ s', s.assign d = some s' ∧ s'.Assigned (devices ++ [d]) := by
  obtain ⟨address1, ip₁, address2, ip₂, hfirst, hsecond, hroom⟩ := h.room.exists_newAddress
  have hassign : s.assign d = some
      { ip := ip₂.newNetwork
        interfaces := s.interfaces ++ [(address1, address2)]
        nodesConnectionsIps := Adjacency.push
          (Adjacency.push s.nodesConnectionsIps d.1 address2) d.2 address1 } := by
    rw [assign, hfirst, Option.bind_eq_bind, Option.bind_some]
    dsimp only
    rw [hsecond]
    rfl
  refine ⟨_, hassign, hroom, ?_, fun u => ?_⟩
  · rw [List.length_append, List.length_append, h.length, List.length_singleton,
      List.length_singleton]
  · have hlastDevice : (devices ++ [d])[devices.length]? = some d := List.getElem?_concat_length
    have hlastAddress : (s.interfaces ++ [(address1, address2)])[devices.length]? =
        some (address1, address2) := h.length ▸ List.getElem?_concat_length
    dsimp only
    rw [Adjacency.push_push_apply, Adjacency.neighbours, List.flatMap_append, List.flatMap_singleton]
    refine List.rel_append ((h.peer u).imp fun v a hpeer => hpeer.append d _) ?_
    refine List.rel_append ?_ ?_
    · split
      · next hu =>
          refine .cons ⟨devices.length, address1, .inl ⟨?_, hlastAddress⟩⟩ .nil
          rw [hlastDevice, ← hu]
      · exact .nil
    · split
      · next hu =>
          refine .cons ⟨devices.length, address2, .inr ⟨?_, hlastAddress⟩⟩ .nil
          rw [hlastDevice, ← hu]
      · exact .nil

/-- **All links get their addresses.** -/
theorem Addressing.Assigned.exists_foldlM (h : s.Assigned devices) (rest : List (ℕ × ℕ)) :
    ∃ s', rest.foldlM Addressing.assign s = some s' ∧ s'.Assigned (devices ++ rest) := by
  induction rest generalizing devices s with
  | nil => exact ⟨s, rfl, (List.append_nil devices).symm ▸ h⟩
  | cons d rest ih =>
      obtain ⟨s₁, hassign, h₁⟩ := h.exists_assign d
      obtain ⟨s', hrun, h'⟩ := ih h₁
      refine ⟨s', ?_, List.append_cons devices d rest ▸ h'⟩
      rw [List.foldlM_cons, hassign]
      exact hrun

theorem exists_assignIpv4Addresses {ip : Ipv4AddressHelperCustom} (hip : ip.HasRoom)
    (hlt : devices.length < 2 ^ 32) :
    ∃ r, assignIpv4Addresses devices ip = some r ∧ r.Assigned devices := by
  have hstart : ({ ip } : Addressing).Assigned [] := ⟨hip, rfl, fun _ => .nil⟩
  rw [assignIpv4Addresses, if_pos hlt]
  exact hstart.exists_foldlM devices

end Addresses

/-! ## exactly when -/

namespace GhostDagTopology

variable {t : GhostDagTopology} {noMiners : ℕ} {limits : ConnectionLimits}

/-- The links lead to the neighbours. -/
theorem WellFormed.neighbours_perm (h : t.WellFormed noMiners limits) (u : ℕ) :
    (Adjacency.neighbours t.links.devices u).Perm (t.nodesConnections u) := by
  have hback : ∀ a b, (a, b) ∈ t.links.devices → (b, a) ∉ t.links.devices := fun a b hab hba =>
    ((h.mem_devices_iff a b).mp hab).1.asymm ((h.mem_devices_iff b a).mp hba).1
  refine (List.perm_ext_iff_of_nodup (Adjacency.nodup_neighbours h.nodup_devices hback u)
    (h.simple.nodup u)).mpr fun v => ?_
  rw [Adjacency.mem_neighbours, h.mem_devices_iff, h.mem_devices_iff]
  constructor
  · rintro (⟨-, hv⟩ | ⟨-, hu⟩)
    · exact hv
    · exact h.simple.symm v u hu
  · intro hv
    obtain hlt | rfl | hlt := lt_trichotomy u v
    · exact .inl ⟨hlt, hv⟩
    · exact absurd hv (h.simple.irrefl u)
    · exact .inr ⟨hlt, h.simple.symm u v hv⟩

theorem WellFormed.linked (h : t.WellFormed noMiners limits) {ip : Ipv4AddressHelperCustom}
    (hip : ip.HasRoom) (hlt : t.connectedPairs.card < 2 ^ 32) : t.Linked ip where
  inRange m hm := h.length_miners ▸ (h.degree_miner m hm).1
  devices := h.countP_devices
  totalNoLinks := h.totalNoLinks_eq.trans (Nat.mod_eq_of_lt hlt)
  addresses := by
    obtain ⟨r, hrun, hr⟩ := exists_assignIpv4Addresses hip (h.card_connectedPairs ▸ hlt)
    exact ⟨r, hrun, fun u => ⟨_, h.neighbours_perm u, hr.peer u⟩⟩

/-- The miners alone have a connection for every two of them. -/
theorem WellFormed.le_card_connectedPairs (h : t.WellFormed noMiners limits) :
    noMiners * noMiners - noMiners ≤ 2 * t.connectedPairs.card := by
  have hsub : t.miners.toFinset.offDiag ⊆
      t.connectedPairs ∪ t.connectedPairs.image Prod.swap := by
    rintro ⟨a, b⟩ hab
    obtain ⟨ha, hb, hne⟩ := Finset.mem_offDiag.mp hab
    have ha := List.mem_toFinset.mp ha
    have hb := List.mem_toFinset.mp hb
    have hpair : ∀ a ∈ t.miners, ∀ b ∈ t.miners, a < b → (a, b) ∈ t.connectedPairs := by
      intro a ha b hb hlt
      exact Finset.mem_filter.mpr ⟨Finset.mem_product.mpr ⟨Finset.mem_range.mpr (h.miners_lt a ha),
        Finset.mem_range.mpr (h.miners_lt b hb)⟩, hlt, h.miners_connected a ha b hb hlt.ne⟩
    rw [Finset.mem_union]
    rcases lt_or_gt_of_ne hne with hlt | hlt
    · exact .inl (hpair a ha b hb hlt)
    · exact .inr (Finset.mem_image.mpr ⟨(b, a), hpair b hb a ha hlt, rfl⟩)
  calc noMiners * noMiners - noMiners
      = t.miners.toFinset.offDiag.card := by
        rw [Finset.offDiag_card, List.toFinset_card_of_nodup h.nodup_miners, h.length_miners]
    _ ≤ t.connectedPairs.card + (t.connectedPairs.image Prod.swap).card :=
        (Finset.card_le_card hsub).trans (Finset.card_union_le _ _)
    _ ≤ 2 * t.connectedPairs.card := by
        rw [two_mul]
        exact Nat.add_le_add_left Finset.card_image_le _

/-- The constructor leaves nothing behind that is not well formed. -/
theorem wellFormed_of_connectNodes {totalNoNodes noMiners : ℕ} {limits : List ℕ → ConnectionLimits}
    {rand : ℕ → ℕ} (hrun : connectNodes totalNoNodes noMiners limits rand = some t) :
    t.totalNoNodes = totalNoNodes ∧ t.WellFormed noMiners (limits t.miners) := by
  have hguard : ¬ (totalNoNodes < noMiners ∨ noMiners < 1) := by
    intro hbad
    rw [connectNodes, if_pos hbad] at hrun
    exact absurd hrun.symm (Option.some_ne_none t)
  obtain ⟨hle, hpos⟩ := not_or.mp hguard
  obtain ⟨miners, s, hrun', hlen, hnd, hlt, hs⟩ :=
    exists_growing (not_lt.mp hpos) (not_lt.mp hle) limits rand
  obtain rfl := Option.some.inj (hrun.symm.trans hrun')
  exact ⟨rfl, hs.wellFormed hlen hnd hlt⟩

/-- **The links and the addresses are those of the connections** exactly when
there are less than `2 ^ 32` connections. -/
theorem linked_iff {totalNoNodes noMiners : ℕ} {limits : List ℕ → ConnectionLimits} {rand : ℕ → ℕ}
    {ip : Ipv4AddressHelperCustom}
    (hrun : connectNodes totalNoNodes noMiners limits rand = some t) (hip : ip.HasRoom) :
    t.Linked ip ↔ t.connectedPairs.card < 2 ^ 32 := by
  obtain ⟨-, h⟩ := wellFormed_of_connectNodes hrun
  refine ⟨fun hlinked => ?_, h.linked hip⟩
  rw [← hlinked.totalNoLinks, h.totalNoLinks_eq]
  exact Nat.mod_lt _ (by decide)

/-- Three nodes, two of them miners, under `10.1.0.0`. -/
theorem linked_iff_three :
    ∃ t ip, connectNodes 3 2 (LimitArgs.limits ⟨1, 2, by decide, fun _ => 0, fun _ => 0⟩)
        (fun _ => 7) = some t ∧
      Ipv4AddressHelperCustom.setBase 0x0A010000 0xFFFFFF00 1 = some ip ∧ t.Linked ip := by
  obtain ⟨miners, s, hrun, -⟩ := exists_growing (by decide : 1 ≤ 2) (by decide : 2 ≤ 3)
    (LimitArgs.limits ⟨1, 2, by decide, fun _ => 0, fun _ => 0⟩) fun _ => 7
  refine ⟨_, ⟨0x0A0100, 1, 1, 8, 254⟩, hrun, by decide, ?_⟩
  refine (linked_iff hrun ⟨rfl, by decide, by decide⟩).mpr ?_
  -- there are no more than three times three pairs
  refine (Finset.card_filter_le _ _).trans_lt ?_
  rw [Finset.card_product, Finset.card_range]
  exact (by decide : 3 * 3 < 2 ^ 32)

/-- With `92683` miners, the count of the links is wrong. -/
theorem not_linked_all_miners :
    ∃ t ip, connectNodes 92683 92683 (LimitArgs.limits ⟨-1, -1, by decide, fun _ => 8, fun _ => 0⟩)
        (fun _ => 0) = some t ∧
      Ipv4AddressHelperCustom.setBase 0x0A010000 0xFFFFFF00 1 = some ip ∧ ¬ t.Linked ip := by
  obtain ⟨miners, s, hrun, -⟩ := exists_growing (by decide : 1 ≤ 92683) le_rfl
    (LimitArgs.limits ⟨-1, -1, by decide, fun _ => 8, fun _ => 0⟩) fun _ => 0
  refine ⟨_, ⟨0x0A0100, 1, 1, 8, 254⟩, hrun, by decide, fun hlinked => ?_⟩
  obtain ⟨-, h⟩ := wellFormed_of_connectNodes hrun
  have hmany := h.le_card_connectedPairs
  have hcount := h.totalNoLinks_eq.symm.trans hlinked.totalNoLinks
  omega

end GhostDagTopology

end GhostDag
