/- GID: Lyrion/Miner
   digest: The block template, the nonce search with its interruptions, and the block it yields. -/

import Lyrion.Library.Runs
import Lyrion.Mempool
import Lyrion.Node.Chain

set_option autoImplicit false
set_option relaxedAutoImplicit false

namespace Lyrion.Miner

open Library.ByteCodec Library.KeyValue Library.Runs Data Utils Tx Node

structure HeaderWithoutNonce where
  version : UInt32
  prevHash : Hash
  merkleRoot : Hash
  timestamp : UInt32
  bits : UInt32

def headerWithoutNonceCodec : Codec HeaderWithoutNonce :=
  (Codec.u32.pair (hashCodec.pair (hashCodec.pair (Codec.u32.pair Codec.u32)))).iso
    (fun p => ⟨p.1, p.2.1, p.2.2.1, p.2.2.2.1, p.2.2.2.2⟩)
    (fun h => (h.version, h.prevHash, h.merkleRoot, h.timestamp, h.bits)) (fun _ => rfl)

/-- What a round has fixed before it starts to search. -/
structure Template where
  prevHash : Hash
  height : Nat
  bits : UInt32
  coinbase : Transaction
  selected : List Transaction
  merkleRoot : Hash
  target : Nat

def Template.txs (template : Template) : List Transaction := template.coinbase :: template.selected

section Templates

variable (env : Env)

/-- `create_coinbase`; the height is written as a 64-bit word. -/
def createCoinbase (height : Nat) (extra : Vector UInt8 8) (pubkey : Bytes) : Transaction where
  version := 1
  isAnonymous := false
  inputs := [⟨zeroHash, maxU32, leBytes 8 height ++ extra.toList, maxU32⟩]
  outputs := [⟨0, p2pkhScript env pubkey, none⟩]
  lockTime := 0
  rangeProofs := []

/-- The coinbase of a template: the value is set, and the script where the configuration names
another key. -/
def templateCoinbase (height : Nat) (extra : Vector UInt8 8) (pubkey : Bytes)
    (customDest : Option Bytes) (value : UInt64) : Transaction :=
  let coinbase := createCoinbase env height extra pubkey
  { coinbase with
    outputs := coinbase.outputs.modifyHead fun out =>
      { out with
        value := value
        scriptPubkey := (customDest.map (p2pkhScript env)).getD out.scriptPubkey } }

/-- The fees that the miner counts: each transaction over an empty map of outputs. -/
def minerFees (selected : List Transaction) : Option UInt64 :=
  checkedSum (selected.map fun tx => fee tx ∅)

/-- The first half of a round of `miner_task`. -/
def assemble (choices : Choices) (c : Chain) (m : Mempool) (extra : Vector UInt8 8)
    (pubkey : Bytes) (customDest : Option Bytes) : Result Template := do
  let height := c.bestHeight + 1
  let bits ← calculateNextBits c.db height
  let selected ← m.selectTxs choices (maxBlockSize - 1000)
  let fees ← orPanic "Fee overflow" (minerFees selected)
  let value ← orFail (.anyhow "Subsidy overflow") (checkedAdd (subsidy height) fees)
  let coinbase := templateCoinbase env height extra pubkey customDest value
  let target ← compactToTarget bits
  pure
    { prevHash := c.bestTip
      height := height
      bits := bits
      coinbase := coinbase
      selected := selected
      merkleRoot := computeMerkleRoot env (coinbase :: selected)
      target := target }

end Templates

def headerTime (nowMs : Nat) : UInt32 := UInt32.ofNat (nowMs / 1000)

def headerBase (template : Template) (nowMs : Nat) : Bytes :=
  headerWithoutNonceCodec.encode
    ⟨1, template.prevHash, template.merkleRoot, headerTime nowMs, template.bits⟩

def searchInput (base : Bytes) (nonce : UInt64) : Bytes := base ++ leBytes 8 nonce.toNat

/-- What happens during a search, in the order in which it happens: a worker tests a nonce, and the
hash engine may fail on it; or the tip changes. -/
inductive SearchEvent
  | test (nonce : UInt64) (fails : Bool)
  | interrupt
  deriving DecidableEq

structure Search where
  interrupted : Bool
  found : Bool
  foundNonce : UInt64

section Searching

variable (env : Env) (base : Bytes) (target : Nat)

def testedHash (nonce : UInt64) (fails : Bool) : Hash :=
  (if fails then none else env.powHash (searchInput base nonce)).getD zeroHash

def searchStep (s : Search) : SearchEvent → Search
  | .interrupt => { s with interrupted := true }
  | .test nonce fails =>
      if s.interrupted then s
      else if u256FromBe (testedHash env base nonce fails) ≤ target then
        { s with found := true, foundNonce := nonce }
      else s

/-- The search: workers take the nonces of a chunk in any order, and a find does not stop the
others. -/
def search (events : List SearchEvent) : Search :=
  run (searchStep env base target) ⟨false, false, 0⟩ events

end Searching

/-- The header of a block found with a template, with its own reading of the clock. -/
def foundHeader (template : Template) (nowMs : Nat) (nonce : UInt64) : BlockHeader :=
  ⟨1, template.prevHash, template.merkleRoot, headerTime nowMs, template.bits, nonce⟩

/-- A round of `miner_task` up to the block it passes to `add_block`, `none` where there is none:
the two readings of the clock are before and after the search, and `currentTip` is the tip read in
between. -/
def minerRound (env : Env) (choices : Choices) (c : Chain) (m : Mempool) (extra : Vector UInt8 8)
    (pubkey : Bytes) (customDest : Option Bytes) (before after : Option Nat) (currentTip : Hash)
    (events : List SearchEvent) : Result (Option Block) :=
  if c.readOnlyMode then .ok none
  else do
    let template ← assemble env choices c m extra pubkey customDest
    let base := headerBase template (← orFail .invalidTimestamp before)
    let s := search env base template.target events
    if s.found then do
      let header := foundHeader template (← orFail .invalidTimestamp after) s.foundNonce
      pure (if header.prevHash = currentTip then some ⟨header, template.txs⟩ else none)
    else pure none

end Lyrion.Miner
