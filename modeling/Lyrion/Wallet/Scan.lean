/- GID: Lyrion/Wallet/Scan
   digest: The search for the active addresses of a seed, and which addresses the next search
     meets. -/

import Lyrion.Library.GapScan
import Lyrion.Wallet.AddressIndex

set_option autoImplicit false
set_option relaxedAutoImplicit false

namespace Lyrion.Wallet

open Library.ByteCodec Library.GapScan Library.KeyValue Data Utils Tx Node

/-- The seed, with what the crates make of it: whether it gives a master key, and which, the parse
of `m/44'/1987'/0'/`, which may object to the last slash, and the text of an address. -/
structure Seed (env : Env) where
  newMaster : Result Unit
  master : Master env
  basePath : Result Unit
  toBase58check : Bytes → String

def hardenedFrom : Nat := 2 ^ 31

def fromHardenedIdx (index : UInt32) : Result Nat :=
  if hardenedFrom ≤ index.toNat then fail (.anyhow "InvalidChildNumber")
  else pure (hardenedFrom + index.toNat)

section Search

variable (db : Db)

def heightFromTxid (txid : Hash) : Result Nat := do
  let height ← indexedHeight db txid
  orFail (.anyhow "Tx not found in index") height

structure ScanState where
  utxos : List FoundUtxo
  addresses : List String
  index : Nat
  gap : Nat

def scanCoin (currentHeight : Nat) (path : DerivationPath) (utxos : List FoundUtxo)
    (coin : IndexedCoin) : Result (List FoundUtxo) :=
  match get db .utxo (coinKey false coin.txid coin.vout) with
  | none => pure utxos
  | some raw => do
      let out ← orFail (.anyhow "bincode") (txOutputCodec.read raw)
      let height ← heightFromTxid db coin.txid
      pure (utxos ++ [⟨⟨coin.txid, coin.vout, coin.value, out.scriptPubkey, path⟩,
        currentHeight - height + 1, height, true⟩])

variable {env : Env} (seed : Seed env) (chain currentHeight : Nat)

def pubkeyToAddress (pkh : Hash160) : String := seed.toBase58check (0 :: pkh.toList)

def scanRound (s : ScanState) : Result ScanState := do
  let path : DerivationPath := ⟨chain, s.index⟩
  let pkh ← pkhOf seed.master path
  let entries ← queryAddrIndex db pkh
  let utxos ← entries.foldlM (scanCoin db currentHeight path) s.utxos
  match entries with
  | [] => pure ⟨utxos, s.addresses, s.index + 1, s.gap + 1⟩
  | _ :: _ => pure ⟨utxos, s.addresses ++ [pubkeyToAddress seed pkh], s.index + 1, 0⟩

/-- The loop, with the number of child numbers that are left. `from_normal_idx` fails when there is
none. -/
def scanLoop (gapLimit : Nat) : Nat → ScanState → Result ScanState
  | 0, s => if s.gap < gapLimit then fail (.anyhow "InvalidChildNumber") else pure s
  | left + 1, s =>
      if s.gap < gapLimit then do
        let s ← scanRound db seed chain currentHeight s
        scanLoop gapLimit left s
      else pure s

def scanChain (chainNum : UInt32) (gapLimit : Nat) :
    Result (List FoundUtxo × UInt64 × List String × Nat) := do
  seed.newMaster
  seed.basePath
  let chain ← fromHardenedIdx chainNum
  let s ← scanLoop db seed chain currentHeight gapLimit hardenedFrom ⟨[], [], 0, 0⟩
  pure (s.utxos, inputSum (s.utxos.map FoundUtxo.toUtxo), s.addresses, s.index)

def isActive (i : Nat) : Bool :=
  match pkhOf seed.master ⟨chain, i⟩ >>= queryAddrIndex db with
  | .ok (_ :: _) => true
  | _ => false

def addressOf (i : Nat) : Result String := do
  let pkh ← pkhOf seed.master ⟨chain, i⟩
  pure (pubkeyToAddress seed pkh)

def activeAddresses (n : Nat) : Result (List String) :=
  ((List.range n).filter (isActive db seed chain)).mapM (addressOf seed chain)

end Search

section Rounds

variable {db : Db} {env : Env} {seed : Seed env} {chain currentHeight gapLimit left : Nat}
  {s t : ScanState}

private theorem scanRound_cases (ran : scanRound db seed chain currentHeight s = .ok t) :
    t.index = s.index + 1 ∧
      ((isActive db seed chain s.index = false ∧ t.gap = s.gap + 1 ∧
          t.addresses = s.addresses) ∨
        (isActive db seed chain s.index = true ∧ t.gap = 0 ∧
          ∃ address, addressOf seed chain s.index = .ok address ∧
            t.addresses = s.addresses ++ [address])) := by
  rw [scanRound, bind_eq_ok] at ran
  obtain ⟨pkh, derived, ran⟩ := ran
  rw [bind_eq_ok] at ran
  obtain ⟨entries, listed, ran⟩ := ran
  rw [bind_eq_ok] at ran
  obtain ⟨utxos, -, ran⟩ := ran
  have address : addressOf seed chain s.index = .ok (pubkeyToAddress seed pkh) := by
    rw [addressOf, derived]
    rfl
  have activity : pkhOf seed.master ⟨chain, s.index⟩ >>= queryAddrIndex db = .ok entries := by
    rw [derived, ok_bind, listed]
  cases entries with
  | nil =>
      have quiet : isActive db seed chain s.index = false := by rw [isActive, activity]
      cases ran
      exact ⟨rfl, Or.inl ⟨quiet, rfl, rfl⟩⟩
  | cons coin coins =>
      have here : isActive db seed chain s.index = true := by rw [isActive, activity]
      cases ran
      exact ⟨rfl, Or.inr ⟨here, rfl, _, address, rfl⟩⟩

private theorem activeAddresses_succ_idle {n : Nat} (quiet : isActive db seed chain n = false) :
    activeAddresses db seed chain (n + 1) = activeAddresses db seed chain n := by
  rw [activeAddresses, List.range_succ, List.filter_append,
    List.filter_cons_of_neg (by simp [quiet]), List.filter_nil, List.append_nil, activeAddresses]

private theorem activeAddresses_succ_active {n : Nat} {addresses : List String} {address : String}
    (before : activeAddresses db seed chain n = .ok addresses)
    (here : isActive db seed chain n = true)
    (encoded : addressOf seed chain n = .ok address) :
    activeAddresses db seed chain (n + 1) = .ok (addresses ++ [address]) := by
  rw [activeAddresses] at before
  rw [activeAddresses, List.range_succ, List.filter_append, List.filter_cons_of_pos here,
    List.filter_nil, List.mapM_append, before, ok_bind, List.mapM_cons, encoded]
  rfl

variable (db seed chain gapLimit s) in
/-- The loop on its way: a walk over the activity, with the active addresses collected. -/
structure Searching : Prop where
  walking : Walking (fun i => isActive db seed chain i = true) gapLimit s.index s.gap
  collected : activeAddresses db seed chain s.index = .ok s.addresses

private theorem Searching.round (searching : Searching db seed chain gapLimit s)
    (more : s.gap < gapLimit)
    (ran : scanRound db seed chain currentHeight s = .ok t) :
    Searching db seed chain gapLimit t := by
  obtain ⟨index, ⟨quiet, gap, addresses⟩ | ⟨here, gap, address, encoded, addresses⟩⟩ :=
    scanRound_cases ran
  · refine ⟨?_, ?_⟩
    · rw [index, gap]
      exact searching.walking.idle_step more (by simp [quiet])
    · rw [index, addresses, activeAddresses_succ_idle quiet]
      exact searching.collected
  · refine ⟨?_, ?_⟩
    · rw [index, gap]
      exact searching.walking.active_step more here
    · rw [index, addresses]
      exact activeAddresses_succ_active searching.collected here encoded

private theorem Searching.loop (searching : Searching db seed chain gapLimit s)
    (ran : scanLoop db seed chain currentHeight gapLimit left s = .ok t) :
    Searching db seed chain gapLimit t ∧ ¬ t.gap < gapLimit := by
  induction left generalizing s with
  | zero =>
      rw [scanLoop, guard_eq_ok] at ran
      obtain ⟨done, returned⟩ := ran
      cases returned
      exact ⟨searching, done⟩
  | succ left ih =>
      rw [scanLoop] at ran
      by_cases more : s.gap < gapLimit
      · rw [if_pos more, bind_eq_ok] at ran
        obtain ⟨next, round, rest⟩ := ran
        exact ih (searching.round more round) rest
      · rw [if_neg more] at ran
        cases ran
        exact ⟨searching, more⟩

end Rounds

section Found

variable {env : Env} {seed : Seed env} {db : Db} {currentHeight gapLimit n : Nat}
  {chainNum : UInt32} {utxos : List FoundUtxo} {balance : UInt64} {addresses : List String}

private theorem scanChain_spec
    (ran : scanChain db seed currentHeight chainNum gapLimit =
      .ok (utxos, balance, addresses, n)) :
    IsLeast (stops (fun i => isActive db seed (hardenedFrom + chainNum.toNat) i = true) gapLimit)
        n ∧
      activeAddresses db seed (hardenedFrom + chainNum.toNat) n = .ok addresses := by
  rw [scanChain, bind_eq_ok] at ran
  obtain ⟨-, -, ran⟩ := ran
  rw [bind_eq_ok] at ran
  obtain ⟨-, -, ran⟩ := ran
  rw [bind_eq_ok] at ran
  obtain ⟨chain, hardened, ran⟩ := ran
  rw [bind_eq_ok] at ran
  obtain ⟨s, looped, returned⟩ := ran
  rw [fromHardenedIdx, guard_eq_ok] at hardened
  obtain ⟨-, numbered⟩ := hardened
  cases numbered
  cases returned
  obtain ⟨searching, done⟩ := Searching.loop ⟨walking_zero, rfl⟩ looped
  exact ⟨searching.walking.isLeast done, searching.collected⟩

end Found

/-- Where one more address has become active, the next search meets it exactly if the last search
went past it. The number that the last search has returned, which the wallet hands out next, is not
among those. What is reported is what is met and active. -/
theorem next_scan_meets_iff {env : Env} (seed : Seed env) (chainNum : UInt32) (gapLimit m : Nat)
    (before after : Db) (height height' : Nat) (utxos utxos' : List FoundUtxo)
    (balance balance' : UInt64) (addresses addresses' : List String) (n n' : Nat)
    (first : scanChain before seed height chainNum gapLimit =
      .ok (utxos, balance, addresses, n))
    (second : scanChain after seed height' chainNum gapLimit =
      .ok (utxos', balance', addresses', n'))
    (grown : ∀ i, isActive after seed (hardenedFrom + chainNum.toNat) i = true ↔
      isActive before seed (hardenedFrom + chainNum.toNat) i = true ∨ i = m) :
    (m < n' ↔ m < n) ∧
      activeAddresses after seed (hardenedFrom + chainNum.toNat) n' = .ok addresses' := by
  obtain ⟨stopped, -⟩ := scanChain_spec first
  obtain ⟨stopped', reported⟩ := scanChain_spec second
  exact ⟨lt_isLeast_stops_iff stopped stopped' grown, reported⟩

section Samples

def sampleSeed : Seed sampleCurve where
  newMaster := .ok ()
  master := { sampleMaster with
    derivePriv := fun path =>
      if path.index < 64 then sampleMaster.derivePriv path
      else fail (.anyhow "InvalidChildNumber") }
  basePath := .ok ()
  toBase58check bytes := String.ofList (bytes.map fun byte => Char.ofNat byte.toNat)

def samplePkhAt (i : Nat) : Hash160 :=
  sampleCurve.hash160 (0x02 :: List.replicate 32 (UInt8.ofNat (i + 1)))

def samplePaidAt (i : Nat) : Db :=
  write emptyDb [putCf .addrIndex (addrKey (samplePkhAt i) zeroHash 0) (beBytes 8 5000)]

/-- What a search for receive addresses says of them, and the number it returns. -/
def sampleScan (db : Db) : Option (List String × Nat) :=
  (scanChain db sampleSeed 0 0 20).toOption.map fun found => found.2.2

private theorem exists_of_sampleScan {db : Db} {addresses : List String} {n : Nat}
    (scanned : sampleScan db = some (addresses, n)) :
    ∃ utxos balance, scanChain db sampleSeed 0 0 20 = .ok (utxos, balance, addresses, n) := by
  obtain ⟨⟨utxos, balance, rest⟩, ran, rfl⟩ := Option.map_eq_some_iff.mp scanned
  exact ⟨utxos, balance, toOption_eq_some.mp ran⟩

private theorem sample_pattern {db : Db} {p : Nat → Prop} (beyond : ∀ i, 64 ≤ i → ¬ p i)
    (below : ∀ i < 64, isActive db sampleSeed hardenedFrom i = true ↔ p i) (i : Nat) :
    isActive db sampleSeed hardenedFrom i = true ↔ p i := by
  by_cases near : i < 64
  · exact below i near
  · have underived : pkhOf sampleSeed.master ⟨hardenedFrom, i⟩ =
        fail (.anyhow "InvalidChildNumber") := by
      simp only [pkhOf, sampleSeed, if_neg near, fail_bind]
    have quiet : isActive db sampleSeed hardenedFrom i = false := by
      rw [isActive, underived]
      rfl
    simp [quiet, beyond i (by omega)]

private theorem sample_paid_third (i : Nat) :
    isActive (samplePaidAt 3) sampleSeed hardenedFrom i = true ↔ i = 3 :=
  sample_pattern (p := (· = 3)) (by omega) (by decide +kernel) i

private theorem sample_paid_handed_out (i : Nat) :
    isActive (samplePaidAt 20) sampleSeed hardenedFrom i = true ↔ i = 20 :=
  sample_pattern (p := (· = 20)) (by omega) (by decide +kernel) i

private theorem sample_unpaid (i : Nat) :
    isActive emptyDb sampleSeed hardenedFrom i = true ↔ False :=
  sample_pattern (fun _ _ => not_false) (by decide +kernel) i

private theorem sample_scan_unpaid : sampleScan emptyDb = some ([], 20) := by decide +kernel

theorem earlier_address_met :
    ∃ utxos balance n, scanChain (samplePaidAt 3) sampleSeed 0 0 20 =
      .ok (utxos, balance, [pubkeyToAddress sampleSeed (samplePkhAt 3)], n) ∧
        (3 < n ↔ 3 < 20) := by
  have paid : sampleScan (samplePaidAt 3) =
      some ([pubkeyToAddress sampleSeed (samplePkhAt 3)], 24) := by decide +kernel
  obtain ⟨utxos, balance, first⟩ := exists_of_sampleScan sample_scan_unpaid
  obtain ⟨utxos', balance', second⟩ := exists_of_sampleScan paid
  refine ⟨utxos', balance', 24, second, ?_⟩
  refine (next_scan_meets_iff sampleSeed 0 20 3 _ _ 0 0 _ _ _ _ _ _ _ _ first second ?_).1
  intro i
  exact (sample_paid_third i).trans (or_iff_right (sample_unpaid i).mp).symm

/-- The first search returns 20. After a payment to that address alone, the next search returns 20
again and reports no address. -/
theorem handed_out_address_missed :
    (∃ utxos balance, scanChain emptyDb sampleSeed 0 0 20 = .ok (utxos, balance, [], 20)) ∧
      (∀ i, isActive (samplePaidAt 20) sampleSeed hardenedFrom i = true ↔ i = 20) ∧
      ∃ utxos balance,
        scanChain (samplePaidAt 20) sampleSeed 0 0 20 = .ok (utxos, balance, [], 20) := by
  refine ⟨exists_of_sampleScan sample_scan_unpaid, sample_paid_handed_out, ?_⟩
  exact exists_of_sampleScan (by decide +kernel)

end Samples

end Lyrion.Wallet
