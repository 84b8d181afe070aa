/- GID: Lyrion/Miner/Search
   digest: When a block found by the search carries the proof of work that was found. -/

import Lyrion.Miner.Template

set_option autoImplicit false
set_option relaxedAutoImplicit false

namespace Lyrion.Miner

open Library.ByteCodec Library.Runs Data Utils Tx Node

variable {env : Env} {base : Bytes} {target : Nat} {events : List SearchEvent}

private theorem search_found (found : (search env base target events).found = true) :
    ∃ fails, .test (search env base target events).foundNonce fails ∈ events ∧
      u256FromBe (testedHash env base (search env base target events).foundNonce fails) ≤
        target := by
  have kept : ∀ before after, events = before ++ after →
      (run (searchStep env base target) ⟨false, false, 0⟩ before).found = true →
        ∃ fails, SearchEvent.test
            (run (searchStep env base target) ⟨false, false, 0⟩ before).foundNonce fails ∈ events ∧
          u256FromBe (testedHash env base
            (run (searchStep env base target) ⟨false, false, 0⟩ before).foundNonce fails) ≤
              target := by
    refine run_invariant (searchStep env base target) (fun s => s.found = true →
      ∃ fails, SearchEvent.test s.foundNonce fails ∈ events ∧
        u256FromBe (testedHash env base s.foundNonce fails) ≤ target) (by simp) ?_
    intro before event after split held
    have listed : event ∈ events := by
      rw [split]
      simp
    cases event with
    | interrupt => exact held
    | test nonce fails =>
        simp only [searchStep]
        split
        case isTrue => exact held
        case isFalse =>
          split
          case isTrue passed => exact fun _ => ⟨fails, listed, passed⟩
          case isFalse => exact held
  exact kept events [] (List.append_nil _).symm found

private theorem searchInput_eq (template : Template) (nowMs : Nat) (nonce : UInt64) :
    searchInput (headerBase template nowMs) nonce =
      headerCodec.encode (foundHeader template nowMs nonce) := by
  simp only [searchInput, headerBase, headerWithoutNonceCodec, headerCodec, foundHeader,
    Codec.encode_iso, Codec.encode_pair, List.append_assoc]
  rfl

private theorem encode_foundHeader_inj (template : Template) (nowMs nowMs' : Nat) (nonce : UInt64) :
    headerCodec.encode (foundHeader template nowMs nonce) =
        headerCodec.encode (foundHeader template nowMs' nonce) ↔
      headerTime nowMs = headerTime nowMs' := by
  constructor
  · intro same
    have short (header : BlockHeader) : (headerCodec.encode header).length < 2 ^ 64 := by
      rw [length_encode_header]
      decide
    have read := headerCodec.read_encode (foundHeader template nowMs nonce) (short _)
    rw [same, headerCodec.read_encode _ (short _)] at read
    exact (congrArg BlockHeader.timestamp (Option.some.inj read)).symm
  · intro same
    rw [foundHeader, foundHeader, same]

def HashMeets (env : Env) (target : Nat) (input : Bytes) : Prop :=
  ∃ hash, env.powHash input = some hash ∧ u256FromBe hash ≤ target

private theorem hashMeets_of_answered (found : (search env base target events).found = true)
    (answered : ∀ nonce fails, .test nonce fails ∈ events →
      fails = false ∧ (env.powHash (searchInput base nonce)).isSome) :
    HashMeets env target (searchInput base (search env base target events).foundNonce) := by
  obtain ⟨fails, listed, passed⟩ := search_found found
  obtain ⟨rfl, hashes⟩ := answered _ _ listed
  obtain ⟨hash, hashed⟩ := Option.isSome_iff_exists.mp hashes
  refine ⟨hash, hashed, ?_⟩
  simpa [testedHash, hashed] using passed

theorem minerRound_eq_some {choices : Choices} {c : Chain} {m : Mempool} {extra : Vector UInt8 8}
    {pubkey : Bytes} {customDest : Option Bytes} {before after : Nat} {currentTip : Hash}
    {template : Template} {block : Block}
    (built : assemble env choices c m extra pubkey customDest = .ok template)
    (mined : minerRound env choices c m extra pubkey customDest (some before) (some after)
      currentTip events = .ok (some block)) :
    (search env (headerBase template before) template.target events).found = true ∧
      block = ⟨foundHeader template after
        (search env (headerBase template before) template.target events).foundNonce,
          template.txs⟩ := by
  unfold minerRound at mined
  split at mined
  case isTrue => exact absurd mined (by simp)
  case isFalse =>
    simp only [built, orFail, bind_eq_ok, Except.ok.injEq, exists_eq_left'] at mined
    split at mined
    case isTrue found =>
      simp only [bind_eq_ok, Except.ok.injEq, exists_eq_left', pure_eq_ok] at mined
      refine ⟨found, ?_⟩
      split at mined
      case isTrue => exact (Option.some.inj mined).symm
      case isFalse => exact absurd mined (by simp)
    case isFalse => exact absurd (pure_eq_ok.mp mined) (by simp)

/-- The block that a round passes on carries the searched bytes and their work exactly when both
clock readings fall in one second and the engine's hash of the searched bytes meets the target. The
latter is so whenever no call of the engine fails. -/
theorem mined_block_iff (env : Env) (choices : Choices) (c : Chain) (m : Mempool)
    (extra : Vector UInt8 8) (pubkey : Bytes) (customDest : Option Bytes) (before after : Nat)
    (currentTip : Hash) (events : List SearchEvent) (template : Template) (block : Block)
    (built : assemble env choices c m extra pubkey customDest = .ok template)
    (mined : minerRound env choices c m extra pubkey customDest (some before) (some after)
      currentTip events = .ok (some block)) :
    compactToTarget block.header.bits = .ok template.target ∧
      (headerCodec.encode block.header =
          searchInput (headerBase template before) block.header.nonce ∧
        HashMeets env template.target (headerCodec.encode block.header) ↔
          headerTime after = headerTime before ∧
            HashMeets env template.target
              (searchInput (headerBase template before) block.header.nonce)) ∧
      ((∀ nonce fails, .test nonce fails ∈ events → fails = false ∧
          (env.powHash (searchInput (headerBase template before) nonce)).isSome) →
        HashMeets env template.target
          (searchInput (headerBase template before) block.header.nonce)) := by
  obtain ⟨found, rfl⟩ := minerRound_eq_some built mined
  obtain ⟨-, -, -, compact, -⟩ := assemble_eq_ok built
  refine ⟨compact, ?_, fun answered => hashMeets_of_answered found answered⟩
  generalize (search env (headerBase template before) template.target events).foundNonce = nonce
  have carried : headerCodec.encode (foundHeader template after nonce) =
      searchInput (headerBase template before) nonce ↔ headerTime after = headerTime before := by
    rw [searchInput_eq, encode_foundHeader_inj]
  constructor
  · rintro ⟨same, meets⟩
    exact ⟨carried.mp same, same ▸ meets⟩
  · rintro ⟨second, meets⟩
    have same := carried.mpr second
    exact ⟨same, same.symm ▸ meets⟩

def sampleAssembled (env : Env) : Result Template :=
  assemble env Mempool.sampleChoices Mempool.sampleFunded (Mempool.new 1000) (Vector.replicate 8 0)
    [7] none

def sampleRound (env : Env) (before after : Nat) : Result (Option Block) :=
  minerRound env Mempool.sampleChoices Mempool.sampleFunded (Mempool.new 1000)
    (Vector.replicate 8 0) [7] none (some before) (some after) Mempool.sampleFunded.bestTip
    [.test 0 false]

private theorem sampleRound_found {env : Env} {before after : Nat}
    (succeeds : (sampleRound env before after).toOption.join.isSome = true) :
    ∃ block, sampleRound env before after = .ok (some block) := by
  obtain ⟨block, found⟩ := Option.isSome_iff_exists.mp succeeds
  exact ⟨block, toOption_eq_some.mp (Option.join_eq_some_iff.mp found)⟩

def sampleBroken : Env := { sampleEnv with powHash := fun _ => none }

/-- The second turns between the two readings, and the header is not the searched one; or the engine
fails, and the header has no hash. -/
theorem found_block_loses_work :
    (∃ template block, sampleAssembled sampleEnv = .ok template ∧
      sampleRound sampleEnv 2000000000999 2000000001000 = .ok (some block) ∧
      headerCodec.encode block.header ≠
        searchInput (headerBase template 2000000000999) block.header.nonce) ∧
      ∃ template block, sampleAssembled sampleBroken = .ok template ∧
        sampleRound sampleBroken 2000000000000 2000000000000 = .ok (some block) ∧
        ¬ HashMeets sampleBroken template.target (headerCodec.encode block.header) := by
  constructor
  · obtain ⟨template, built⟩ := exists_of_isOk (by decide +kernel :
      (sampleAssembled sampleEnv).isOk = true)
    obtain ⟨block, mined⟩ : ∃ block, sampleRound sampleEnv 2000000000999 2000000001000 =
        .ok (some block) := sampleRound_found (by decide +kernel)
    obtain ⟨-, shape⟩ := minerRound_eq_some built mined
    have other (nonce : UInt64) : headerCodec.encode (foundHeader template 2000000001000 nonce) ≠
        searchInput (headerBase template 2000000000999) nonce := by
      rw [searchInput_eq, Ne, encode_foundHeader_inj]
      decide
    refine ⟨template, block, built, mined, ?_⟩
    -- the nonce is kept opaque: comparing the two sides would run the search
    generalize (search sampleEnv (headerBase template 2000000000999) template.target
      [.test 0 false]).foundNonce = nonce at shape
    rw [shape]
    exact other nonce
  · obtain ⟨template, built⟩ := exists_of_isOk (by decide +kernel :
      (sampleAssembled sampleBroken).isOk = true)
    obtain ⟨block, mined⟩ : ∃ block, sampleRound sampleBroken 2000000000000 2000000000000 =
        .ok (some block) := sampleRound_found (by decide +kernel)
    refine ⟨template, block, built, mined, ?_⟩
    rintro ⟨hash, hashed, -⟩
    exact absurd hashed (by simp [sampleBroken])

theorem found_block_keeps_work :
    ∃ template block, sampleAssembled sampleEnv = .ok template ∧
      sampleRound sampleEnv 2000000000100 2000000000900 = .ok (some block) ∧
      headerCodec.encode block.header =
        searchInput (headerBase template 2000000000100) block.header.nonce ∧
      HashMeets sampleEnv template.target (headerCodec.encode block.header) := by
  obtain ⟨template, built⟩ := exists_of_isOk (by decide +kernel :
    (sampleAssembled sampleEnv).isOk = true)
  obtain ⟨block, mined⟩ : ∃ block, sampleRound sampleEnv 2000000000100 2000000000900 =
      .ok (some block) := sampleRound_found (by decide +kernel)
  obtain ⟨-, carries, answered⟩ := mined_block_iff sampleEnv Mempool.sampleChoices
    Mempool.sampleFunded (Mempool.new 1000) (Vector.replicate 8 0) [7] none 2000000000100
    2000000000900 Mempool.sampleFunded.bestTip [.test 0 false] template block built mined
  refine ⟨template, block, built, mined, carries.mpr ⟨by decide, answered ?_⟩⟩
  intro nonce fails listed
  obtain ⟨-, rfl⟩ := SearchEvent.test.inj (List.mem_singleton.mp listed)
  exact ⟨rfl, rfl⟩

end Lyrion.Miner
