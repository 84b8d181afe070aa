/- GID: Lyrion/Net/Handshake
   digest: The handshake of two nodes: what each side sends, what it reads, and why no reply is
     accepted. -/

import Lyrion.Net
import Lyrion.Tx.Scripts

set_option autoImplicit false
set_option relaxedAutoImplicit false

namespace Lyrion.Net

open Library.ByteCodec Library.KeyValue Data Utils Tx

def protocolVersion : Nat := 1
def minVersion : Nat := 1
def signatureCacheTtlMs : Nat := 3600000

structure Ed25519 where
  Secret : Type
  publicKey : Secret → Vector UInt8 32
  sign : Secret → Bytes → Vector UInt8 64
  isPublicKey : Vector UInt8 32 → Bool
  isSignature : Vector UInt8 64 → Bool
  verify : Vector UInt8 32 → Bytes → Vector UInt8 64 → Bool
  peerId : Vector UInt8 32 → Option Bytes
  isPublicKey_publicKey : ∀ secret, isPublicKey (publicKey secret) = true
  isSignature_sign : ∀ secret msg, isSignature (sign secret msg) = true
  verify_sign : ∀ secret msg, verify (publicKey secret) msg (sign secret msg) = true

variable (ed : Ed25519)

structure HandshakeNode where
  genesisHash : Hash
  secret : ed.Secret
  signatureCache : Map Bytes (Vector UInt8 32 × Nat)

/-- What a handshake takes from outside: the readings of the clock in order, the random nonce, and
whether the writer's channel takes the message. -/
structure HandshakeOutside where
  nowMs : Nat → Option Nat
  nonce : Option (Vector UInt8 12)
  channelOpen : Bool

/-- Version, genesis hash, time stamp and nonce. The time stamp is a quotient of the 128-bit
clock. -/
def handshakeMsg (genesisHash : Hash) (timestamp : Nat) (nonce : Vector UInt8 12) : Bytes :=
  leBytes 4 protocolVersion ++ genesisHash.toList ++ leBytes 16 timestamp ++ nonce.toList

/-- The bytes given to the writer: the message, the public key, and the signature of both. -/
def sentHandshake (node : HandshakeNode ed) (timestamp : Nat) (nonce : Vector UInt8 12) : Bytes :=
  let toSign := handshakeMsg node.genesisHash timestamp nonce ++ (ed.publicKey node.secret).toList
  toSign ++ (ed.sign node.secret toSign).toList

/-- `read_exact` on the bytes that arrive before the timeout. -/
def readExact (count : Nat) (incoming : Bytes) : Result Bytes :=
  if count ≤ incoming.length then .ok (incoming.take count) else fail (.anyhow "Handshake timeout")

def arrayAt (size : Nat) (what : String) (buf : Bytes) (lo : Nat) : Result (Vector UInt8 size) := do
  let bytes ← sliceOf buf lo (lo + size)
  if sized : bytes.length = size then pure ⟨bytes.toArray, by simpa using sized⟩
  else fail (.anyhow what)

/-- Whether the key was verified within the last hour; the difference is one of 128-bit words. -/
def cachedKey (node : HandshakeNode ed) (nowMs : Nat → Option Nat) (peerId : Bytes)
    (key : Vector UInt8 32) : Result Bool :=
  match node.signatureCache.lookup peerId with
  | none => pure false
  | some (known, since) =>
      if key = known then do
        let now ← orFail .invalidTimestamp (nowMs 1)
        pure (decide ((now + 2 ^ 128 - since) % 2 ^ 128 < signatureCacheTtlMs))
      else pure false

def verifyReply (node : HandshakeNode ed) (key : Vector UInt8 32) (msgLen : Nat) (buf : Bytes) :
    Result Nat := do
  let signature ← arrayAt 64 "Invalid signature" buf (msgLen + 32)
  if !ed.isSignature signature then fail (.anyhow "Invalid signature")
  if !ed.verify key (buf.take msgLen ++ key.toList) signature then
    fail (.anyhow "Signature verification failed")
  let recvVersion := ofLeBytes (buf.take 4)
  if recvVersion < minVersion then fail .invalidHandshake
  let genesisHash ← sliceOf buf 4 36
  if genesisHash ≠ node.genesisHash.toList then fail .invalidHandshake
  pure recvVersion

def checkFreshness (timestamp : Nat) (buf : Bytes) : Result Unit := do
  let recvTimestamp ← sliceOf buf 36 44
  let recvNonce ← sliceOf buf 44 56
  -- the nonce is zeroized before it is compared with zero
  let recvNonce : Bytes := recvNonce.map fun _ => 0
  if recvNonce = List.replicate 12 0 then fail .invalidHandshake
  let timeDiff := (Int64.ofNat (ofLeBytes recvTimestamp) - Int64.ofNat timestamp).abs
  if timeDiff > 300 then fail .invalidHandshake

/-- The rest of a handshake once a reply of the expected length is there. A cached key ends it
before the signature is looked at. -/
def acceptReply (node : HandshakeNode ed) (outside : HandshakeOutside) (timestamp msgLen : Nat)
    (buf : Bytes) : Result (HandshakeNode ed × Option Nat) := do
  let key ← arrayAt 32 "Invalid pub" buf msgLen
  if !ed.isPublicKey key then fail (.anyhow "Invalid public key")
  let peerId ← orFail (.anyhow "PeerId from bytes failed") (ed.peerId key)
  if ← cachedKey ed node outside.nowMs peerId key then pure (node, none)
  else
    let recvVersion ← verifyReply ed node key msgLen buf
    checkFreshness timestamp buf
    let now ← orFail .invalidTimestamp (outside.nowMs 2)
    pure ({ node with signatureCache := node.signatureCache.insert peerId (key, now) },
      some recvVersion)

/-- `handshake`: the new state of the node and the version noted for the peer. -/
def handshake (node : HandshakeNode ed) (outside : HandshakeOutside) (incoming : Bytes) :
    Result (HandshakeNode ed × Option Nat) := do
  let now ← orFail .invalidTimestamp (outside.nowMs 0)
  let timestamp := now / 1000
  let nonce ← orFail (.anyhow "Nonce generation error") outside.nonce
  let msg := handshakeMsg node.genesisHash timestamp nonce
  if !outside.channelOpen then fail (.anyhow "Send handshake error")
  -- four bytes more than the other side sends
  let buf ← readExact (0 + msg.length + 32 + 64 + 4) incoming
  if buf.length ≠ msg.length + 32 + 64 then fail .invalidHandshake
  acceptReply ed node outside timestamp msg.length buf

section Layout

private theorem arrayAt_middle {size : Nat} (what : String) (before after : Bytes)
    (middle : Vector UInt8 size) {lo : Nat} (start : before.length = lo) :
    arrayAt size what (before ++ (middle.toList ++ after)) lo = .ok middle := by
  have sliced : sliceOf (before ++ (middle.toList ++ after)) lo (lo + size) =
      .ok middle.toList := sliceOf_eq_ok.mpr ⟨before, after, rfl, start, by simp⟩
  rw [arrayAt, sliced]
  simp [bind, Except.bind, pure, Except.pure, Vector.toList]

variable (node peer : HandshakeNode ed) (timestamp : Nat) (nonce : Vector UInt8 12)

private theorem length_handshakeMsg (genesisHash : Hash) :
    (handshakeMsg genesisHash timestamp nonce).length = 64 := by
  simp [handshakeMsg]

private theorem length_sentHandshake : (sentHandshake ed peer timestamp nonce).length = 160 := by
  simp [sentHandshake, length_handshakeMsg]

private theorem arrayAt_sentHandshake :
    arrayAt 32 "Invalid pub" (sentHandshake ed peer timestamp nonce) 64 =
      .ok (ed.publicKey peer.secret) := by
  rw [sentHandshake, List.append_assoc]
  exact arrayAt_middle _ _ _ _ (length_handshakeMsg timestamp nonce peer.genesisHash)

private theorem verifyReply_sentHandshake (same : node.genesisHash = peer.genesisHash) :
    verifyReply ed node (ed.publicKey peer.secret) 64 (sentHandshake ed peer timestamp nonce) =
      .ok protocolVersion := by
  have length := length_handshakeMsg timestamp nonce peer.genesisHash
  have message : (sentHandshake ed peer timestamp nonce).take 64 =
      handshakeMsg peer.genesisHash timestamp nonce := by
    rw [sentHandshake, List.append_assoc, List.take_left' length]
  have signature : arrayAt 64 "Invalid signature" (sentHandshake ed peer timestamp nonce)
      (64 + 32) = .ok (ed.sign peer.secret (handshakeMsg peer.genesisHash timestamp nonce ++
        (ed.publicKey peer.secret).toList)) := by
    have start : (handshakeMsg peer.genesisHash timestamp nonce ++
        (ed.publicKey peer.secret).toList).length = 64 + 32 := by simp [length]
    rw [sentHandshake, ← List.append_nil (Vector.toList (ed.sign _ _))]
    exact arrayAt_middle _ _ _ _ start
  have first : ofLeBytes ((sentHandshake ed peer timestamp nonce).take 4) = protocolVersion := by
    rw [sentHandshake, handshakeMsg, List.append_assoc, List.append_assoc, List.append_assoc,
      List.append_assoc, List.take_left' (length_leBytes 4 _)]
    exact ofLeBytes_leBytes 4 _ (by decide)
  have genesis : sliceOf (sentHandshake ed peer timestamp nonce) 4 36 =
      .ok peer.genesisHash.toList := by
    rw [sentHandshake, handshakeMsg, List.append_assoc, List.append_assoc, List.append_assoc,
      List.append_assoc]
    exact sliceOf_eq_ok.mpr ⟨_, _, rfl, length_leBytes 4 _, by simp⟩
  simp only [verifyReply, bind_eq_ok, fail_bind, guard_eq_ok, pure_eq_ok]
  refine ⟨_, signature, ?_, ?_, ?_, _, genesis, ?_, ?_⟩
  · simp [ed.isSignature_sign]
  · simp [message, ed.verify_sign]
  · rw [first]
    decide
  · rw [same]
    exact fun h => h rfl
  · exact first

private theorem checkFreshness_fails (buf : Bytes) (long : 56 ≤ buf.length) :
    checkFreshness timestamp buf = fail .invalidHandshake := by
  have stamp : sliceOf buf 36 44 = .ok ((buf.take 44).drop 36) := if_pos ⟨by omega, by omega⟩
  have nonce : sliceOf buf 44 56 = .ok ((buf.take 56).drop 44) := if_pos ⟨by omega, by omega⟩
  have zeroed : ((buf.take 56).drop 44).map (fun _ => (0 : UInt8)) = List.replicate 12 0 := by
    rw [List.map_const', List.length_drop, List.length_take]
    congr 1
    omega
  rw [checkFreshness, stamp, nonce]
  exact if_pos zeroed

end Layout

section Outcome

variable (node peer : HandshakeNode ed) (outside : HandshakeOutside)

private theorem handshake_error (incoming : Bytes) :
    ∃ fault, handshake ed node outside incoming = .error fault := by
  cases result : handshake ed node outside incoming with
  | error fault => exact ⟨fault, rfl⟩
  | ok done =>
      simp only [handshake, bind_eq_ok, fail_bind, guard_eq_ok, orFail_eq_ok, readExact] at result
      obtain ⟨now, _, nonce, _, _, buf, read, sized, _⟩ := result
      split at read
      case isTrue enough =>
        obtain rfl := Except.ok.inj read
        rw [List.length_take, length_handshakeMsg, not_not] at sized
        rw [length_handshakeMsg] at enough
        omega
      case isFalse => cases read

private theorem handshake_times_out {now : Nat} {nonce : Vector UInt8 12}
    (clock : outside.nowMs 0 = some now) (random : outside.nonce = some nonce)
    (channel : outside.channelOpen = true) (incoming : Bytes) (short : incoming.length ≤ 160) :
    handshake ed node outside incoming = fail (.anyhow "Handshake timeout") := by
  have few : readExact
      (0 + (handshakeMsg node.genesisHash (now / 1000) nonce).length + 32 + 64 + 4) incoming =
      fail (.anyhow "Handshake timeout") := by
    rw [readExact, length_handshakeMsg, if_neg (by omega)]
  rw [handshake, clock, random, channel]
  change (readExact _ incoming >>= _) = _
  rw [few, fail_bind]

end Outcome

/-- No handshake succeeds, whatever arrives. The bytes of an honest peer are waited for in vain, and
although they carry the key, the signature, the version and the genesis hash where these are looked
up, their nonce would be refused. -/
theorem handshake_never_succeeds (ed : Ed25519) (node peer : HandshakeNode ed)
    (outside : HandshakeOutside) (now later : Nat) (nonce nonceOfPeer : Vector UInt8 12)
    (same : node.genesisHash = peer.genesisHash) (clock : outside.nowMs 0 = some now)
    (random : outside.nonce = some nonce) (channel : outside.channelOpen = true) :
    (∀ incoming, ∃ fault, handshake ed node outside incoming = .error fault) ∧
      handshake ed node outside (sentHandshake ed peer (later / 1000) nonceOfPeer) =
        fail (.anyhow "Handshake timeout") ∧
      arrayAt 32 "Invalid pub" (sentHandshake ed peer (later / 1000) nonceOfPeer) 64 =
        .ok (ed.publicKey peer.secret) ∧
      verifyReply ed node (ed.publicKey peer.secret) 64
        (sentHandshake ed peer (later / 1000) nonceOfPeer) = .ok protocolVersion ∧
      checkFreshness (now / 1000) (sentHandshake ed peer (later / 1000) nonceOfPeer) =
        fail .invalidHandshake := by
  have length := length_sentHandshake ed peer (later / 1000) nonceOfPeer
  exact ⟨handshake_error ed node outside,
    handshake_times_out ed node outside clock random channel _ length.le,
    arrayAt_sentHandshake ed peer _ _, verifyReply_sentHandshake ed node peer _ _ same,
    checkFreshness_fails _ _ (by omega)⟩

def sampleEd25519 : Ed25519 where
  Secret := UInt8
  publicKey secret := Vector.replicate 32 secret
  sign secret _ := Vector.replicate 64 secret
  isPublicKey _ := true
  isSignature _ := true
  verify key _ signature := key.toList ++ key.toList = signature.toList
  peerId key := some key.toList
  isPublicKey_publicKey _ := rfl
  isSignature_sign _ _ := rfl
  verify_sign _ _ := by
    simp

def sampleNode (secret : UInt8) : HandshakeNode sampleEd25519 := ⟨zeroHash, secret, ∅⟩

def sampleOutside (fill : UInt8) : HandshakeOutside where
  nowMs _ := some 1732060800000
  nonce := some (Vector.replicate 12 fill)
  channelOpen := true

/-- Two nodes with one genesis hash, one clock and nonzero nonces: each receives what the other
sends, and both fail. -/
theorem honest_pair_fails :
    handshake sampleEd25519 (sampleNode 1) (sampleOutside 7)
        (sentHandshake sampleEd25519 (sampleNode 2) 1732060800 (Vector.replicate 12 9)) =
      fail (.anyhow "Handshake timeout") ∧
    handshake sampleEd25519 (sampleNode 2) (sampleOutside 9)
        (sentHandshake sampleEd25519 (sampleNode 1) 1732060800 (Vector.replicate 12 7)) =
      fail (.anyhow "Handshake timeout") :=
  ⟨handshake_times_out sampleEd25519 (sampleNode 1) (sampleOutside 7) rfl rfl rfl _
      (length_sentHandshake _ _ _ _).le,
    handshake_times_out sampleEd25519 (sampleNode 2) (sampleOutside 9) rfl rfl rfl _
      (length_sentHandshake _ _ _ _).le⟩

theorem honest_reply_unaccepted :
    verifyReply sampleEd25519 (sampleNode 1) (Vector.replicate 32 2) 64
        (sentHandshake sampleEd25519 (sampleNode 2) 1732060800 (Vector.replicate 12 9)) =
      .ok protocolVersion ∧
    ∃ fault, handshake sampleEd25519 (sampleNode 1) (sampleOutside 7)
      (sentHandshake sampleEd25519 (sampleNode 2) 1732060800 (Vector.replicate 12 9)) =
        .error fault := by
  obtain ⟨refused, _, _, verified, _⟩ := handshake_never_succeeds sampleEd25519 (sampleNode 1)
    (sampleNode 2) (sampleOutside 7) 1732060800000 1732060800000 (Vector.replicate 12 7)
    (Vector.replicate 12 9) rfl rfl rfl rfl
  exact ⟨verified, refused _⟩

end Lyrion.Net
