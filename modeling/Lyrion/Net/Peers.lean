/- GID: Lyrion/Net/Peers
   digest: Admission and removal of connections, and what the limits for an address and for a subnet
     enforce over every run. -/

import Lyrion.Net.Messages

set_option autoImplicit false
set_option relaxedAutoImplicit false

namespace Lyrion.Net

open Library.ByteCodec Library.KeyValue Library.Runs Data

def maxPeersPerSubnet : Nat := 2

def maskOctets {size : Nat} (kept : Nat) (octets : Vector UInt8 size) : Vector UInt8 size :=
  Vector.ofFn fun i => if i.val < kept then octets[i] else 0

/-- The network address: three octets of an IPv4 address, fourteen of an IPv6 address. -/
def subnetOf : IpAddr → IpAddr
  | .v4 octets => .v4 (maskOctets 3 octets)
  | .v6 octets => .v6 (maskOctets 14 octets)

def connections (s : PeerManager) (ip : IpAddr) : Nat := ((s.peers.lookup ip).getD []).length

/-- What one call of `add_peer` takes from outside: the address, the identity of the new
connection, the own peer id, the verdict of the handshake, the clock, and the address as text. -/
structure Newcomer where
  ip : IpAddr
  id : Nat
  peerId : Option Bytes
  handshake : Bool
  nowMs : Option Nat
  addr : PeerAddr

variable (around : Surroundings)

/-- `is_banned`, which first forgets the bans that have run out. -/
def isBanned (ip : IpAddr) (s : PeerManager) : Bool × PeerManager :=
  let bans := retain (fun expiry => decide (around.instant s.tick < expiry)) s.bans
  let persistent :=
    retain (fun expiry => decide (around.instant (s.tick + 1) < expiry)) s.bansPersistent
  ((bans.lookup ip).isSome || (persistent.lookup ip).isSome,
    { s with bans := bans, bansPersistent := persistent, tick := s.tick + 2 })

def welcome (call : Newcomer) (peer : Peer) (s : PeerManager) : PeerManager :=
  let s := { s with knownPeers := s.knownPeers ++ [call.addr.text] }
  match call.nowMs with
  | none => s
  | some now =>
      let s := reply peer .getAddr (broadcast (.addrBroadcast now call.addr) s)
      { s with peers := upsert s.peers call.ip [] fun ids => ids ++ [call.id] }

/-- The limits and the handshake of `add_peer`. The limit for the subnet is looked up under the
network address, while connections are filed under their own. -/
def considerPeer (maxPeers : Nat) (call : Newcomer) (s : PeerManager) : PeerManager :=
  if connections s call.ip ≥ maxPeers / 10 ∨ s.peers.keys.card ≥ maxPeers then s
  else if connections s (subnetOf call.ip) ≥ maxPeersPerSubnet then s
  else
    match call.peerId with
    | none => s
    | some peerId =>
        let peer := ⟨call.id, call.ip, peerId⟩
        if call.handshake then welcome call peer s else decreaseReputation around peer s

/-- `add_peer` up to the start of the connection's tasks. -/
def addPeer (maxPeers : Nat) (call : Newcomer) (s : PeerManager) : PeerManager :=
  let checked := isBanned around call.ip s
  if checked.1 then checked.2 else considerPeer around maxPeers call checked.2

structure Admits (maxPeers : Nat) (call : Newcomer) (s : PeerManager) : Prop where
  unbanned : (isBanned around call.ip s).1 = false
  address : connections s call.ip < maxPeers / 10
  total : s.peers.keys.card < maxPeers
  network : connections s (subnetOf call.ip) < maxPeersPerSubnet
  identified : call.peerId.isSome = true
  greeted : call.handshake = true
  timed : call.nowMs.isSome = true

inductive PeerEvent
  | add (call : Newcomer)
  | remove (peer : Peer)

def peerStep (maxPeers : Nat) (s : PeerManager) : PeerEvent → PeerManager
  | .add call => addPeer around maxPeers call s
  | .remove peer => removePeer peer s

section Steps

variable {around} {maxPeers : Nat} {call : Newcomer} {s : PeerManager}

private theorem addPeer_of_admits (admitted : Admits around maxPeers call s) :
    (addPeer around maxPeers call s).peers =
      upsert s.peers call.ip [] fun ids => ids ++ [call.id] := by
  obtain ⟨peerId, identified⟩ := Option.isSome_iff_exists.mp admitted.identified
  obtain ⟨now, timed⟩ := Option.isSome_iff_exists.mp admitted.timed
  have room : ¬ (connections (isBanned around call.ip s).2 call.ip ≥ maxPeers / 10 ∨
      (isBanned around call.ip s).2.peers.keys.card ≥ maxPeers) :=
    not_or.mpr ⟨Nat.not_le.mpr admitted.address, Nat.not_le.mpr admitted.total⟩
  have network : ¬ connections (isBanned around call.ip s).2 (subnetOf call.ip) ≥
      maxPeersPerSubnet := Nat.not_le.mpr admitted.network
  simp only [addPeer, admitted.unbanned, Bool.false_eq_true, if_false]
  rw [considerPeer, if_neg room, if_neg network, identified]
  simp [admitted.greeted, welcome, timed, reply, broadcast, isBanned]

private theorem decreaseReputation_peers (peer : Peer) (s : PeerManager) :
    (decreaseReputation around peer s).peers = s.peers ∨
      (decreaseReputation around peer s).peers = s.peers.erase peer.ip := by
  simp only [decreaseReputation]
  split
  · exact .inr rfl
  · exact .inl rfl

private theorem addPeer_of_not_admits (refused : ¬ Admits around maxPeers call s) :
    (addPeer around maxPeers call s).peers = s.peers ∨
      (addPeer around maxPeers call s).peers = s.peers.erase call.ip := by
  have kept : (isBanned around call.ip s).2.peers = s.peers := rfl
  rw [addPeer, ← kept]
  cases unbanned : (isBanned around call.ip s).1 with
  | true => exact .inl rfl
  | false =>
      rw [if_neg Bool.false_ne_true, considerPeer]
      by_cases full : connections (isBanned around call.ip s).2 call.ip ≥ maxPeers / 10 ∨
          (isBanned around call.ip s).2.peers.keys.card ≥ maxPeers
      · rw [if_pos full]
        exact .inl rfl
      by_cases crowded : connections (isBanned around call.ip s).2 (subnetOf call.ip) ≥
          maxPeersPerSubnet
      · rw [if_neg full, if_pos crowded]
        exact .inl rfl
      rw [if_neg full, if_neg crowded]
      cases identified : call.peerId with
      | none => exact .inl rfl
      | some peerId =>
          cases greeted : call.handshake with
          | false => exact decreaseReputation_peers _ _
          | true =>
              cases timed : call.nowMs with
              | none => exact .inl (by simp [welcome, timed])
              | some now =>
                  obtain ⟨address, total⟩ := not_or.mp full
                  exact absurd ⟨unbanned, Nat.not_le.mp address, Nat.not_le.mp total,
                    Nat.not_le.mp crowded, by simp [identified], greeted, by simp [timed]⟩ refused

private theorem removePeer_peers (peer : Peer) (s : PeerManager) :
    (removePeer peer s).peers = s.peers ∨ (removePeer peer s).peers = s.peers.erase peer.ip ∨
      ∃ ids, s.peers.lookup peer.ip = some ids ∧ (removePeer peer s).peers =
        s.peers.insert peer.ip (ids.filter fun id => id ≠ peer.id) := by
  rw [removePeer]
  cases found : s.peers.lookup peer.ip with
  | none => exact .inl rfl
  | some ids =>
      dsimp only
      split
      · exact .inr (.inl rfl)
      · exact .inr (.inr ⟨ids, rfl, rfl⟩)

end Steps

section Addresses

variable {around} {maxPeers : Nat} {s : PeerManager}

private theorem connections_of_peers {s' : PeerManager} (same : s'.peers = s.peers) (ip : IpAddr) :
    connections s' ip = connections s ip := by
  rw [connections, connections, same]

private theorem connections_erase_le {s' : PeerManager} {gone : IpAddr}
    (erased : s'.peers = s.peers.erase gone) (ip : IpAddr) :
    connections s' ip ≤ connections s ip := by
  rw [connections, connections, erased]
  by_cases same : ip = gone
  · subst same
    rw [Finmap.lookup_erase]
    exact Nat.zero_le _
  · rw [Finmap.lookup_erase_ne same]

private theorem connections_removePeer_le (peer : Peer) (ip : IpAddr) :
    connections (removePeer peer s) ip ≤ connections s ip := by
  rcases removePeer_peers peer s with same | erased | ⟨ids, found, kept⟩
  · exact (connections_of_peers same ip).le
  · exact connections_erase_le erased ip
  · rw [connections, connections, kept]
    by_cases same : ip = peer.ip
    · subst same
      rw [Finmap.lookup_insert, found]
      exact List.length_filter_le _ _
    · rw [Finmap.lookup_insert_of_ne _ same]

private theorem connections_addPeer {call : Newcomer} (admitted : Admits around maxPeers call s)
    (ip : IpAddr) : connections (addPeer around maxPeers call s) ip =
      connections s ip + if ip = call.ip then 1 else 0 := by
  rw [connections, addPeer_of_admits admitted, lookup_upsert, connections]
  split
  case isTrue same =>
    subst same
    simp
  case isFalse => rfl

private theorem connections_addPeer_le {call : Newcomer} (refused : ¬ Admits around maxPeers call s)
    (ip : IpAddr) : connections (addPeer around maxPeers call s) ip ≤ connections s ip := by
  rcases addPeer_of_not_admits refused with same | erased
  · exact (connections_of_peers same ip).le
  · exact connections_erase_le erased ip

private theorem connections_step (limit : IpAddr → Nat)
    (checked : ∀ call s, Admits around maxPeers call s → connections s call.ip < limit call.ip)
    (within : ∀ ip, connections s ip ≤ limit ip) (event : PeerEvent) (ip : IpAddr) :
    connections (peerStep around maxPeers s event) ip ≤ limit ip := by
  cases event with
  | remove peer => exact (connections_removePeer_le peer ip).trans (within ip)
  | add call =>
      by_cases admitted : Admits around maxPeers call s
      · rw [peerStep, connections_addPeer admitted]
        split
        case isTrue same =>
          subst same
          exact checked call s admitted
        case isFalse => exact within ip
      · exact (connections_addPeer_le admitted ip).trans (within ip)

private theorem connections_run (limit : IpAddr → Nat)
    (checked : ∀ call s, Admits around maxPeers call s → connections s call.ip < limit call.ip)
    (empty : s.peers = ∅) (events : List PeerEvent) (ip : IpAddr) :
    connections (run (peerStep around maxPeers) s events) ip ≤ limit ip := by
  have held : ∀ before after, events = before ++ after → ∀ ip,
      connections (run (peerStep around maxPeers) s before) ip ≤ limit ip := by
    refine run_invariant _ (fun s => ∀ ip, connections s ip ≤ limit ip) ?_ ?_
    · intro ip
      rw [connections, empty]
      exact Nat.zero_le _
    · intro before event after _ within ip
      exact connections_step limit checked within event ip
  exact held events [] (List.append_nil events).symm ip

end Addresses

section Subnets

variable {around} {maxPeers : Nat} {s : PeerManager}

def inSubnet (s : PeerManager) (network : IpAddr) : Nat :=
  tally (fun ip (ids : List Nat) => if subnetOf ip = network then ids.length else 0) s.peers

private theorem inSubnet_erase_le {s' : PeerManager} {gone : IpAddr}
    (erased : s'.peers = s.peers.erase gone) (network : IpAddr) :
    inSubnet s' network ≤ inSubnet s network := by
  rw [inSubnet, inSubnet, erased,
    ← tally_erase (fun ip (ids : List Nat) => if subnetOf ip = network then ids.length else 0)
      s.peers gone]
  exact Nat.le_add_right _ _

private theorem inSubnet_removePeer_le (peer : Peer) (network : IpAddr) :
    inSubnet (removePeer peer s) network ≤ inSubnet s network := by
  rcases removePeer_peers peer s with same | erased | ⟨ids, found, kept⟩
  · rw [inSubnet, inSubnet, same]
  · exact inSubnet_erase_le erased network
  · have moved := tally_insert
      (fun ip (ids : List Nat) => if subnetOf ip = network then ids.length else 0) s.peers peer.ip
      (ids.filter fun id => id ≠ peer.id)
    have fewer := List.length_filter_le (fun id => decide (id ≠ peer.id)) ids
    rw [measureAt, found, Option.map_some, Option.getD_some] at moved
    rw [inSubnet, inSubnet, kept]
    split at moved
    · omega
    · omega

private theorem inSubnet_addPeer {call : Newcomer} (admitted : Admits around maxPeers call s)
    (network : IpAddr) : inSubnet (addPeer around maxPeers call s) network =
      inSubnet s network + if subnetOf call.ip = network then 1 else 0 := by
  have moved := tally_insert
    (fun ip (ids : List Nat) => if subnetOf ip = network then ids.length else 0) s.peers call.ip
    ((s.peers.lookup call.ip).getD [] ++ [call.id])
  have before : measureAt
      (fun ip (ids : List Nat) => if subnetOf ip = network then ids.length else 0) s.peers call.ip =
        if subnetOf call.ip = network then ((s.peers.lookup call.ip).getD []).length else 0 := by
    cases found : s.peers.lookup call.ip with
    | none => simp [measureAt, found]
    | some ids => simp [measureAt, found]
  rw [before] at moved
  rw [inSubnet, addPeer_of_admits admitted, upsert, inSubnet]
  split at moved
  case isTrue same =>
    rw [List.length_append, List.length_singleton] at moved
    rw [if_pos same]
    omega
  case isFalse other =>
    rw [if_neg other]
    omega

private theorem inSubnet_addPeer_le {call : Newcomer} (refused : ¬ Admits around maxPeers call s)
    (network : IpAddr) :
    inSubnet (addPeer around maxPeers call s) network ≤ inSubnet s network := by
  rcases addPeer_of_not_admits refused with same | erased
  · rw [inSubnet, inSubnet, same]
  · exact inSubnet_erase_le erased network

private theorem inSubnet_step {event : PeerEvent}
    (within : ∀ network, inSubnet s network ≤ maxPeersPerSubnet)
    (room : ∀ call, event = .add call → Admits around maxPeers call s →
      inSubnet s (subnetOf call.ip) < maxPeersPerSubnet) (network : IpAddr) :
    inSubnet (peerStep around maxPeers s event) network ≤ maxPeersPerSubnet := by
  cases event with
  | remove peer => exact (inSubnet_removePeer_le peer network).trans (within network)
  | add call =>
      by_cases admitted : Admits around maxPeers call s
      · rw [peerStep, inSubnet_addPeer admitted]
        split
        case isTrue same =>
          subst same
          exact room call rfl admitted
        case isFalse => exact within network
      · exact (inSubnet_addPeer_le admitted network).trans (within network)

end Subnets

/-- Over every run from no connections: no address has more than a tenth of the peers; no network
address has more connections of its own than the limit for a subnet; and no subnet ever has more
than that limit exactly where no admission finds it reached. -/
theorem connection_limits (around : Surroundings) (maxPeers : Nat) (start : PeerManager)
    (empty : start.peers = ∅) (events : List PeerEvent) :
    (∀ ip, connections (run (peerStep around maxPeers) start events) ip ≤ maxPeers / 10) ∧
      (∀ ip, subnetOf ip = ip →
        connections (run (peerStep around maxPeers) start events) ip ≤ maxPeersPerSubnet) ∧
      ((∀ before after, events = before ++ after → ∀ network,
          inSubnet (run (peerStep around maxPeers) start before) network ≤ maxPeersPerSubnet) ↔
        ∀ before call after, events = before ++ .add call :: after →
          Admits around maxPeers call (run (peerStep around maxPeers) start before) →
          inSubnet (run (peerStep around maxPeers) start before) (subnetOf call.ip) <
            maxPeersPerSubnet) := by
  refine ⟨?_, ?_, ?_, ?_⟩
  · exact connections_run (fun _ => maxPeers / 10) (fun _ _ admitted => admitted.address) empty
      events
  · intro ip own
    have held : connections (run (peerStep around maxPeers) start events) ip ≤
        if subnetOf ip = ip then maxPeersPerSubnet else maxPeers / 10 := by
      refine connections_run (fun ip => if subnetOf ip = ip then _ else _) ?_ empty events ip
      intro call s admitted
      split
      case isTrue same => exact same ▸ admitted.network
      case isFalse => exact admitted.address
    rwa [if_pos own] at held
  · intro within before call after split admitted
    have next := within (before ++ [.add call]) after (by simp [split]) (subnetOf call.ip)
    rw [run_concat, peerStep, inSubnet_addPeer admitted, if_pos rfl] at next
    exact next
  · intro sparse
    refine run_invariant _ (fun s => ∀ network, inSubnet s network ≤ maxPeersPerSubnet) ?_ ?_
    · intro network
      rw [inSubnet, empty]
      exact Nat.zero_le _
    · intro before event after split within
      refine inSubnet_step within ?_
      intro call added admitted
      exact sparse before call after (added ▸ split) admitted

def sampleNewcomer (host : UInt8) : Newcomer where
  ip := .v4 ⟨#[10, 0, 0, host], rfl⟩
  id := host.toNat
  peerId := some [7]
  handshake := true
  nowMs := some 1732060800000
  addr := sampleAddr

/-- Three hosts of one subnet connect to a node that takes a hundred peers. -/
def sampleCrowd : List PeerEvent :=
  [.add (sampleNewcomer 1), .add (sampleNewcomer 2), .add (sampleNewcomer 3)]

theorem crowded_subnet :
    maxPeersPerSubnet < inSubnet (run (peerStep sampleAround 100) (sampleManager 0) sampleCrowd)
      (subnetOf (sampleNewcomer 1).ip) := by
  decide +kernel

def sampleInsistent : List PeerEvent :=
  [.add (sampleNewcomer 1), .add { sampleNewcomer 1 with id := 2 },
    .add { sampleNewcomer 1 with id := 3 }, .add { sampleNewcomer 1 with id := 4 }]

theorem crowd_within_address_limit :
    connections (run (peerStep sampleAround 20) (sampleManager 0) sampleInsistent)
        (sampleNewcomer 1).ip = 2 ∧
      connections (run (peerStep sampleAround 20) (sampleManager 0) sampleInsistent)
        (sampleNewcomer 1).ip ≤ 20 / 10 :=
  ⟨by decide +kernel, (connection_limits sampleAround 20 (sampleManager 0) rfl sampleInsistent).1 _⟩

end Lyrion.Net
