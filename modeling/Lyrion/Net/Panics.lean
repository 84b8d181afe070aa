/- GID: Lyrion/Net/Panics
   digest: Which bytes from a peer bring the handler down, and which never let it return. -/

import Lyrion.Net.HeaderSync
import Lyrion.Net.Messages

set_option autoImplicit false
set_option relaxedAutoImplicit false

namespace Lyrion.Net

open Library.ByteCodec Library.KeyValue Data Utils Tx Node

variable {header : BlockHeader} {c : Chain}

def isIndexing : Fault → Bool
  | .panic place =>
      place ∈ ["slice index out of range", "index out of bounds", "tx_copy.inputs[input_idx]",
        "no entry found for key"]
  | _ => false

private theorem quiet_isIndexing : Quiet isIndexing :=
  ⟨⟨fun _ => rfl, by decide, by decide, by decide⟩, rfl⟩

private theorem isCrash_of_isIndexing {fault : Fault} (indexing : isIndexing fault = true) :
    fault.isCrash = true := by
  cases fault with
  | panic place => rfl
  | error e => exact absurd indexing Bool.false_ne_true
  | outOfFuel => rfl

/-- How many bytes the arm for a message type slices without a look at the length. -/
def needed : Nat → Nat
  | 1 => 36
  | 2 => 36
  | 3 => 40
  | 11 => 12
  | _ => 0

def Flooded (peer : Peer) (data : Bytes) (s : PeerManager) : Prop :=
  (ofLeBytes (data.take 4) = 1 ∨ ofLeBytes (data.take 4) = 2) ∧
    (s.pendingInv.lookup peer.peerId).getD 0 + 1 > 1000

section Reading

variable {bad : Fault → Bool} (errors : ∀ e, bad (.error e) = false)
  (slices : bad (.panic "slice index out of range") = true)
include errors slices

omit errors in
private theorem raises_sliceOf (bs : Bytes) (lo hi : Nat) :
    Raises bad (sliceOf bs lo hi) ↔ ¬ (lo ≤ hi ∧ hi ≤ bs.length) := by
  simp [sliceOf, raises_ite, slices]

private theorem raises_hashAt (data : Bytes) (lo : Nat) :
    Raises bad (hashAt data lo) ↔ data.length < lo + 32 := by
  simp [hashAt, raises_bind, raises_sliceOf slices, errors]

private theorem raises_parseMessage (data : Bytes) :
    Raises bad (parseMessage data) ↔ data.length < needed (ofLeBytes (data.take 4)) := by
  have hashes := raises_hashAt errors slices data
  have pieces := raises_sliceOf slices data
  unfold parseMessage
  split <;> rename_i tag
  -- the two inventories and the request for data
  · simp [tag, needed, hashes]
  · simp [tag, needed, hashes]
  · simp only [tag, needed, raises_bind, hashes, pieces, not_raises_pure, and_false, exists_false,
      or_false]
    constructor
    · rintro (short | ⟨_, -, short⟩) <;> omega
    · intro short
      by_cases kind : data.length < 8
      · exact Or.inl (by omega)
      · exact Or.inr ⟨_, if_pos ⟨by omega, by omega⟩, short⟩
  -- the request for headers looks at the length first
  · simp only [tag, needed, Nat.not_lt_zero, iff_false, raises_guard, errors, Bool.false_eq_true,
      and_false, false_or, not_and]
    intro long
    refine not_raises_bind (by rw [hashes]; omega) fun locator => ?_
    split
    · exact not_raises_bind (by rw [hashes]; omega) fun stop => not_raises_pure _
    · exact not_raises_pure _
  · simp [tag, needed, deserialize, errors]
  · simp [tag, needed, deserialize, errors]
  · simp [tag, needed, deserialize, errors]
  · simp [tag, needed]
  · simp [tag, needed, deserialize, errors]
  · simp [tag, needed, raises_bind, pieces, errors]
  · simp [tag, needed]
  · have nothing : needed (ofLeBytes (data.take 4)) = 0 := by
      unfold needed
      split <;> simp_all
    simp [nothing, errors]

end Reading

section Serving

variable {env : Env} {bad : Fault → Bool} (errors : ∀ e, bad (.error e) = false)
include errors

variable (env) in
private theorem not_raises_getHeaders (c : Chain) (locator stop : Hash) :
    ¬ Raises bad (getHeaders env c locator stop) := by
  have walk (count height : Nat) (headers : List BlockHeader) :
      ¬ Raises bad (headersFrom env c.db stop count height headers) := by
    induction count generalizing height headers with
    | zero => exact not_raises_ok headers
    | succ count ih =>
        unfold headersFrom
        split
        · exact not_raises_ok headers
        · refine not_raises_bind (not_raises_loadHeader errors _ _) fun header => ?_
          refine not_raises_bind (not_raises_headerHash errors _) fun hash => ?_
          split
          · exact not_raises_pure _
          · exact ih _ _
  unfold getHeaders
  split
  · exact not_raises_ok []
  · exact walk _ _ _

private theorem not_raises_checkInsert (choices : Choices) (m : Mempool) (db : Db)
    (tx : Transaction) :
    ¬ Raises bad (m.checkInsert env choices db tx) := by
  have walk (fuel : Nat) (stack : List Hash) (dependsOn : Finset Hash) :
      ¬ Raises bad (m.ancestors choices fuel stack dependsOn) := by
    induction fuel generalizing stack dependsOn with
    | zero => simp [Mempool.ancestors, errors]
    | succ fuel ih =>
        cases stack with
        | nil => exact not_raises_ok dependsOn
        | cons parent stack =>
            unfold Mempool.ancestors
            split
            · simp [errors]
            · split
              · exact ih _ _
              · exact ih _ _
  have package (size : Nat) (dependsOn : List Hash) :
      ¬ Raises bad (m.packageSize size dependsOn) :=
    not_raises_foldlM (fun total dep => by simp [raises_ite, errors]) size dependsOn
  have gather (isAnonymous : Bool) (inputs : List TXInput) (sum : UInt64)
      (dependsOn : Finset Hash) :
      ¬ Raises bad (m.gatherInputs db isAnonymous inputs sum dependsOn) := by
    induction inputs generalizing sum dependsOn with
    | nil => exact not_raises_ok _
    | cons vin rest ih =>
        unfold Mempool.gatherInputs
        split
        · simp [raises_bind, errors, ih]
        · split
          · exact ih _ _
          · simp [errors]
  have replacement (size : Nat) (fee : UInt64) :
      ¬ Raises bad (m.checkReplacement (txHash env tx) size fee) := by
    unfold Mempool.checkReplacement
    split
    · exact not_raises_pure ()
    · simp [raises_ite, errors]
  have image (vin : TXInput) : ¬ Raises bad (m.checkKeyImage vin) := by
    simp [Mempool.checkKeyImage, raises_ite, errors]
  simp [-List.forM_eq_forM, Mempool.checkInsert, raises_bind, raises_ite, errors, walk, package,
    gather, replacement, not_raises_forM image]

end Serving

def Ends {σ : Type} (bad : Fault → Bool) (answer : Option (Result Unit × σ)) : Prop :=
  ∃ r s, answer = some (r, s) ∧ Raises bad r

@[simp] theorem ends_some {σ : Type} {bad : Fault → Bool} {x : Result Unit × σ} :
    Ends bad (some x) ↔ Raises bad x.1 := by
  constructor
  · rintro ⟨r, s, same, raised⟩
    rwa [Option.some.inj same]
  · exact fun raised => ⟨x.1, x.2, rfl, raised⟩

@[simp] theorem not_ends_none {σ : Type} {bad : Fault → Bool} :
    ¬ Ends bad (none : Option (Result Unit × σ)) := by
  rintro ⟨r, s, same, -⟩
  exact absurd same (by simp)

private theorem returns_iff {σ : Type} {answer : Option (Result Unit × σ)} :
    Returns answer ↔ answer ≠ none ∧ ¬ Ends Fault.isCrash answer := by
  rcases answer with _ | ⟨(e | place) | done, s⟩ <;>
    simp [Returns, Ends, Raises, Fault.isCrash]

/-- The check of a header, called for a new one with a known parent, ends in one of the faults. -/
def HeaderBreaks (env : Env) (bad : Fault → Bool) (header : BlockHeader) (c : Chain) : Prop :=
  ∃ hash prevHeight, headerHash env header = .ok hash ∧ hash ∉ c.state.hashToHeight ∧
    c.state.hashToHeight.lookup header.prevHash = some prevHeight ∧
    Raises bad (checkHeader env c.db ⟨header, []⟩ (prevHeight + 1))

def HeadersBreak (env : Env) (bad : Fault → Bool) (prevHash : Hash) (headers : List BlockHeader)
    (c : Chain) : Prop :=
  ∃ before header after, headers = before ++ header :: after ∧
    Continuous env prevHash (before ++ [header]) ∧ HeaderBreaks env bad header c

def Upsets (bad : Fault → Bool) (around : Surroundings) (s : PeerManager) : Message → Prop
  | .getData kind hash => kind = 2 ∧ hash ∉ s.chain.state.hashToHeight
  | .block block => Breaks around.env bad around.world block s.chain
  | .headers headers =>
      ∃ first ∈ headers.head?, HeadersBreak around.env bad first.prevHash headers s.chain
  | _ => False

/-- A transaction that the pool admits, and for which it would have to make room. -/
def Overfills (env : Env) (choices : Choices) (db : Db) (tx : Transaction) (m : Mempool) : Prop :=
  ∃ entry, txHash env tx ∉ m.pooled ∧ m.checkInsert env choices db tx = .ok entry ∧
    ((m.store choices (txHash env tx) entry).OverLimits ∨
      ∃ txid, (m.store choices (txHash env tx) entry).isOrphaned txid = true)

/-- The acting half never returns: the pool has to evict under its own guard, or `add_block` waits
for its own lock, or, with the block saved, for the pool that the handler holds. -/
def Hangs (around : Surroundings) (choices : Choices) (s : PeerManager) : Message → Prop
  | .tx tx => Overfills around.env choices s.chain.db tx s.mempool
  | .block block =>
      GoesAside around.env around.world block s.chain ∨ Saves around.env around.world block s.chain
  | _ => False

section Headers

variable {env : Env} {bad : Fault → Bool} (errors : ∀ e, bad (.error e) = false)
include errors

variable (env) in
private theorem breaks_light_iff (world : World) (header : BlockHeader) (c : Chain) :
    Breaks env bad world ⟨header, []⟩ c ↔ HeaderBreaks env bad header c := by
  have light (height : Nat) : Raises bad (validateBlock env c.db c.bestHeight
      (world.outside c.tick).nowMs ⟨header, []⟩ height) ↔
        Raises bad (checkHeader env c.db ⟨header, []⟩ height) := by
    simp [validateBlock, raises_bind, errors]
  simp only [Breaks, HeaderBreaks, light]

omit errors in
private theorem headerBreaks_congr {c' : Chain} (db : c'.db = c.db) (state : c'.state = c.state) :
    HeaderBreaks env bad header c' ↔ HeaderBreaks env bad header c := by
  simp only [HeaderBreaks, db, state]

omit errors in
private theorem headersBreak_cons {prevHash hash : Hash} {rest : List BlockHeader}
    (link : header.prevHash = prevHash) (hashed : headerHash env header = .ok hash) :
    HeadersBreak env bad prevHash (header :: rest) c ↔
      HeaderBreaks env bad header c ∨ HeadersBreak env bad hash rest c := by
  constructor
  · rintro ⟨before, broken, after, split, continuous, breaks⟩
    cases before with
    | nil =>
        obtain ⟨rfl, rfl⟩ := List.cons.inj split
        exact Or.inl breaks
    | cons first before =>
        obtain ⟨rfl, rfl⟩ := List.cons.inj split
        obtain ⟨-, other, same, later⟩ := continuous
        obtain rfl := Except.ok.inj (hashed.symm.trans same)
        exact Or.inr ⟨before, broken, after, rfl, later, breaks⟩
  · rintro (breaks | ⟨before, broken, after, rfl, continuous, breaks⟩)
    · exact ⟨[], header, rest, rfl, ⟨link, hash, hashed, trivial⟩, breaks⟩
    · exact ⟨header :: before, broken, after, rfl, ⟨link, hash, hashed, continuous⟩, breaks⟩

omit errors in
private theorem not_headersBreak_of_stopped {prevHash : Hash} {rest : List BlockHeader}
    (stopped : header.prevHash = prevHash → ∀ hash, headerHash env header ≠ .ok hash) :
    ¬ HeadersBreak env bad prevHash (header :: rest) c := by
  rintro ⟨before, broken, after, split, continuous, -⟩
  cases before with
  | nil =>
      obtain ⟨rfl, rfl⟩ := List.cons.inj split
      obtain ⟨link, hash, hashed, -⟩ := continuous
      exact stopped link hash hashed
  | cons first before =>
      obtain ⟨rfl, rfl⟩ := List.cons.inj split
      obtain ⟨link, hash, hashed, -⟩ := continuous
      exact stopped link hash hashed

private theorem raises_addBlock_light_iff (world : World) (header : BlockHeader) (c : Chain) :
    Raises bad (addBlock env world ⟨header, []⟩ c).1 ↔ HeaderBreaks env bad header c := by
  rw [addBlock_light, raises_map, raises_submit_iff errors, breaks_light_iff env errors]

end Headers

private theorem addHeaders_ne_none (around : Surroundings) (headers : List BlockHeader)
    (prevHash : Hash) (s : PeerManager) : addHeaders around headers prevHash s ≠ none := by
  induction headers generalizing prevHash s with
  | nil => simp [addHeaders]
  | cons header rest ih =>
      rw [addHeaders_cons]
      split
      · simp
      · split
        · simp
        · simp only
          split
          · simp
          · exact ih _ _

private theorem ends_addHeaders_iff (around : Surroundings) (headers : List BlockHeader)
    (prevHash : Hash) (s : PeerManager) :
    Ends Fault.isCrash (addHeaders around headers prevHash s) ↔
      HeadersBreak around.env Fault.isCrash prevHash headers s.chain := by
  -- What the loop has added before leaves the database and the index as they were.
  induction headers generalizing prevHash s with
  | nil =>
      refine iff_of_false (by simp [addHeaders]) ?_
      rintro ⟨before, header, after, split, -⟩
      simp at split
  | cons header rest ih =>
      rw [addHeaders_cons]
      cases hashed : headerHash around.env header with
      | error e =>
          have safe : ¬ Raises Fault.isCrash (.error e : Result Unit) :=
            not_raises_passed (not_raises_headerHash (fun _ => rfl) header) hashed
          refine iff_of_false (by simpa using safe) (not_headersBreak_of_stopped ?_)
          simp [hashed]
      | ok hash =>
          by_cases link : header.prevHash = prevHash
          · rw [headersBreak_cons link hashed]
            simp only [link, ne_eq, not_true_eq_false, if_false]
            have raised : Raises Fault.isCrash
                (addBlock around.env around.world ⟨header, []⟩ s.chain).1 ↔ _ :=
              raises_addBlock_light_iff (fun _ => rfl) around.world header s.chain
            obtain ⟨-, db, state⟩ := submit_light around.env around.world header s.chain
            have chain := congrArg Prod.snd (addBlock_light around.env around.world header s.chain)
            split
            · rename_i fault ignored
              obtain ⟨failed, crash⟩ := ignoreError_eq_error.mp ignored
              refine iff_of_true (by simpa using crash) (Or.inl (raised.mp ⟨fault, crash, failed⟩))
            · rename_i ignored
              have calm : ¬ HeaderBreaks around.env Fault.isCrash header s.chain := by
                rw [← raised]
                rintro ⟨fault, crash, failed⟩
                rw [ignoreError_eq_error.mpr ⟨failed, crash⟩] at ignored
                exact absurd ignored (by simp)
              have same : HeadersBreak around.env Fault.isCrash hash rest
                  (addBlock around.env around.world ⟨header, []⟩ s.chain).2 ↔
                    HeadersBreak around.env Fault.isCrash hash rest s.chain := by
                simp only [HeadersBreak, headerBreaks_congr (chain ▸ db) (chain ▸ state)]
              rw [ih, same]
              simp only [calm, false_or]
          · simp only [ne_eq, link, not_false_eq_true, if_true]
            exact iff_of_false (by simp [Fault.isCrash])
              (not_headersBreak_of_stopped fun same => absurd same link)

section Acting

variable {bad : Fault → Bool} (around : Surroundings) (choices : Choices) (peer : Peer)
  (s : PeerManager)

private theorem raises_ignoreError {α : Type} {r : Result α} (raised : Raises bad (ignoreError r)) :
    Raises bad r := by
  obtain ⟨fault, worst, ignored⟩ := raised
  exact ⟨fault, worst, (ignoreError_eq_error.mp ignored).1⟩

private theorem not_raises_insertGuarded {env : Env} {db : Db} {tx : Transaction} {m m' : Mempool}
    {r : Result Bool} (errors : ∀ e, bad (.error e) = false)
    (inserted : m.insertGuarded env choices db tx = some (r, m')) : ¬ Raises bad r := by
  unfold Mempool.insertGuarded at inserted
  split at inserted
  · obtain ⟨rfl, -⟩ := Prod.mk.inj (Option.some.inj inserted)
    exact not_raises_ok false
  · split at inserted
    · rename_i fault raised
      obtain ⟨rfl, -⟩ := Prod.mk.inj (Option.some.inj inserted)
      exact not_raises_passed (not_raises_checkInsert errors choices m db tx) raised
    · simp only at inserted
      split at inserted
      · exact absurd inserted (by simp)
      · split at inserted
        · exact absurd inserted (by simp)
        · obtain ⟨rfl, -⟩ := Prod.mk.inj (Option.some.inj inserted)
          exact not_raises_ok true

theorem insertGuarded_eq_none_iff {env : Env} {db : Db} {tx : Transaction} {m : Mempool} :
    m.insertGuarded env choices db tx = none ↔ Overfills env choices db tx m := by
  rw [← Option.not_isSome_iff_eq_none, Mempool.insertGuarded_isSome_iff]
  simp only [Overfills, not_forall, not_and_or, not_not, Bool.not_eq_false]
  constructor
  · rintro ⟨entry, fresh, passed, full⟩
    exact ⟨entry, fresh, passed, full⟩
  · rintro ⟨entry, fresh, passed, full⟩
    exact ⟨entry, fresh, passed, full⟩

theorem serve_eq_none_iff (msg : Message) :
    serve around choices peer s msg = none ↔ Hangs around choices s msg := by
  cases msg with
  | inv kind hash => simp [serve, Hangs]
  | getAddr => simp [serve, Hangs]
  | addr addrs => simp [serve, Hangs]
  | pong => simp [serve, Hangs]
  | getData kind hash =>
      simp only [serve, Hangs, iff_false]
      split
      · split <;> simp
      · split
        · split
          · simp
          · split <;> simp
        · simp
  | getHeaders locator stop =>
      simp only [serve, Hangs, iff_false]
      split <;> simp
  | tx tx =>
      simp only [serve, Hangs, ← insertGuarded_eq_none_iff]
      split <;> simp_all
  | block block =>
      simp only [Hangs, ← submit_waits_iff, ← locked_submit_accepted_iff, serve,
        addBlockHoldingPool]
      generalize Locked.submit around.env around.world true block s.chain = submitted
      rcases submitted with _ | ⟨fault | known | orphan | ⟨height, reorg⟩, c⟩ <;> simp
  | headers headers =>
      cases headers with
      | nil => simp [serve, Hangs]
      | cons first rest => simp [serve, Hangs, addHeaders_ne_none]

private theorem ends_serve_iff (errors : ∀ e, bad (.error e) = false)
    (keys : bad (.panic "no entry found for key") = true)
    (loop : ∀ headers prevHash, Ends bad (addHeaders around headers prevHash s) ↔
      HeadersBreak around.env bad prevHash headers s.chain) (msg : Message) :
    Ends bad (serve around choices peer s msg) ↔ Upsets bad around s msg := by
  cases msg with
  | inv kind hash => simp [serve, Upsets]
  | getAddr => simp [serve, Upsets]
  | addr addrs => simp [serve, Upsets]
  | pong => simp [serve, Upsets]
  | getData kind hash =>
      simp only [serve, Upsets]
      by_cases transaction : kind = 1
      · subst transaction
        cases s.mempool.txs.lookup hash <;> simp
      · rw [if_neg transaction]
        by_cases whole : kind = 2
        · rw [if_pos whole]
          cases known : s.chain.state.hashToHeight.lookup hash with
          | none => simp [whole, keys, Finmap.lookup_eq_none.mp known]
          | some height =>
              have member : hash ∈ s.chain.state.hashToHeight := Finmap.mem_of_lookup_eq_some known
              cases loaded : loadBlockFromDb s.chain.db height with
              | error fault =>
                  have safe : ¬ Raises bad (.error fault : Result Unit) :=
                    not_raises_passed (not_raises_loadBlockFromDb errors _ _) loaded
                  simpa [member, loaded] using safe
              | ok block => simp [member, loaded]
        · simp [whole]
  | getHeaders locator stop =>
      have safe := not_raises_getHeaders around.env errors s.chain locator stop
      simp only [serve, Upsets, iff_false]
      split
      · rename_i fault raised
        exact fun ended => not_raises_passed safe raised (ends_some.mp ended)
      · simp
  | tx tx =>
      simp only [serve, Upsets, iff_false]
      split
      · exact not_ends_none
      · simp
      · rename_i result m' inserted
        intro ended
        exact not_raises_insertGuarded choices errors inserted
          (raises_ignoreError (ends_some.mp ended))
  | block block =>
      simp only [Upsets, ← raises_submit_iff errors, serve, addBlockHoldingPool]
      rcases submit_follows around.env around.world true block s.chain with waits | same
      · -- a block that waits for the lock has been validated
        have safe : ¬ Raises bad (submit around.env around.world block s.chain).1 := by
          obtain ⟨hash, prevHeight, _, hashed, fresh, parent, valid, -⟩ :=
            (submit_waits_iff block s.chain).mp waits
          rw [raises_submit_iff errors]
          rintro ⟨_, other, -, -, parent', raised⟩
          obtain rfl := Option.some.inj (parent.symm.trans parent')
          rw [valid] at raised
          exact not_raises_ok () raised
        simp [waits, safe]
      · rw [same]
        generalize submit around.env around.world block s.chain = submitted
        rcases submitted with ⟨fault | known | orphan | ⟨height, reorg⟩, c⟩ <;> simp
  | headers headers =>
      cases headers with
      | nil => simp [serve, Upsets]
      | cons first rest => simpa [serve, Upsets] using loop (first :: rest) first.prevHash

end Acting

def Reaches (peer : Peer) (data : Bytes) (s : PeerManager) : Prop :=
  4 ≤ data.length ∧ ¬ Flooded peer data s

def counted (peer : Peer) (data : Bytes) (s : PeerManager) : PeerManager :=
  { s with
    pendingInv :=
      if ofLeBytes (data.take 4) = 1 ∨ ofLeBytes (data.take 4) = 2 then
        s.pendingInv.insert peer.peerId (pendingCount peer s + 1)
      else s.pendingInv }

def entered (peer : Peer) (data : Bytes) (s : PeerManager) : PeerManager :=
  { counted peer data s with tick := s.tick + 1 }

section Handling

variable {bad : Fault → Bool} (around : Surroundings) (peer : Peer) (data : Bytes)
  (s : PeerManager)

theorem handleMessage_cases :
    (data.length < 4 ∧ handleMessage around peer data s =
        some (fail (.invalidBlock "Message too short"), s)) ∨
      (4 ≤ data.length ∧ Flooded peer data s ∧ handleMessage around peer data s =
        some (.ok (), decreaseReputation around peer (counted peer data s))) ∨
      Reaches peer data s ∧
        ((∃ fault, parseMessage data = .error fault ∧
            handleMessage around peer data s = some (.error fault, counted peer data s)) ∨
          ∃ msg, parseMessage data = .ok msg ∧
            handleMessage around peer data s =
              serve around (around.choices s.tick) peer (entered peer data s) msg) := by
  rcases Nat.lt_or_ge data.length 4 with short | long
  · refine Or.inl ⟨short, ?_⟩
    simp only [handleMessage, recognise, if_pos short]
    rfl
  · right
    by_cases flooded : Flooded peer data s
    · refine Or.inl ⟨long, flooded, ?_⟩
      simp only [handleMessage, recognise, not_lt.mpr long, if_false, if_pos flooded.1,
        if_pos flooded.2, counted, pendingCount]
    · refine Or.inr ⟨⟨long, flooded⟩, ?_⟩
      have recognised : recognise around peer data s =
          ((parseMessage data).map some, counted peer data s) := by
        by_cases inventory : ofLeBytes (data.take 4) = 1 ∨ ofLeBytes (data.take 4) = 2
        · have few : ¬ (s.pendingInv.lookup peer.peerId).getD 0 + 1 > 1000 :=
            fun many => flooded ⟨inventory, many⟩
          simp only [recognise, not_lt.mpr long, if_false, if_pos inventory, if_neg few, counted,
            pendingCount]
        · simp only [recognise, not_lt.mpr long, if_false, if_neg inventory, counted]
      cases parsed : parseMessage data with
      | error fault =>
          rw [parsed] at recognised
          exact Or.inl ⟨fault, rfl, by simp only [handleMessage, recognised, Except.map]⟩
      | ok msg =>
          rw [parsed] at recognised
          exact Or.inr ⟨msg, rfl, by simp only [handleMessage, recognised, Except.map]; rfl⟩

private theorem handleMessage_of_reaches (reaches : Reaches peer data s) :
    (∃ fault, parseMessage data = .error fault ∧
        handleMessage around peer data s = some (.error fault, counted peer data s)) ∨
      ∃ msg, parseMessage data = .ok msg ∧
        handleMessage around peer data s =
          serve around (around.choices s.tick) peer (entered peer data s) msg := by
  rcases handleMessage_cases around peer data s with ⟨short, -⟩ | ⟨-, flooded, -⟩ | ⟨-, handled⟩
  · exact absurd reaches.1 (not_le.mpr short)
  · exact absurd flooded reaches.2
  · exact handled

private theorem handleMessage_of_stopped (stopped : ¬ Reaches peer data s) :
    Returns (handleMessage around peer data s) := by
  rcases handleMessage_cases around peer data s with ⟨-, handled⟩ | ⟨-, -, handled⟩ | ⟨reaches, -⟩
  · exact ⟨_, Or.inr ⟨_, handled⟩⟩
  · exact ⟨_, Or.inl handled⟩
  · exact absurd reaches stopped

private theorem ends_handleMessage_iff (errors : ∀ e, bad (.error e) = false)
    (slices : bad (.panic "slice index out of range") = true)
    (keys : bad (.panic "no entry found for key") = true)
    (loop : ∀ s headers prevHash, Ends bad (addHeaders around headers prevHash s) ↔
      HeadersBreak around.env bad prevHash headers s.chain) (reaches : Reaches peer data s) :
    Ends bad (handleMessage around peer data s) ↔
      data.length < needed (ofLeBytes (data.take 4)) ∨
        ∃ msg, parseMessage data = .ok msg ∧ Upsets bad around (entered peer data s) msg := by
  rw [← raises_parseMessage errors slices]
  rcases handleMessage_of_reaches around peer data s reaches with
    ⟨fault, parsed, handled⟩ | ⟨msg, parsed, handled⟩
  · simp [parsed, handled]
  · simp [parsed, handled, ends_serve_iff _ _ _ _ errors keys (loop _)]

private theorem handleMessage_eq_none_iff (reaches : Reaches peer data s) :
    handleMessage around peer data s = none ↔
      ∃ msg, parseMessage data = .ok msg ∧
        Hangs around (around.choices s.tick) (entered peer data s) msg := by
  rcases handleMessage_of_reaches around peer data s reaches with
    ⟨fault, parsed, handled⟩ | ⟨msg, parsed, handled⟩
  · simp [parsed, handled]
  · simp [parsed, handled, serve_eq_none_iff]

end Handling

def Survives {σ : Type} (r : Reader σ) : Prop :=
  r.status ≠ .stuck ∧ ∀ fault, r.status = .failed fault → fault.isCrash = false

section Step

variable {σ : Type} {snappy : Snappy} {handle : Bytes → σ → Option (Result Unit × σ)}
  {penalise close : σ → σ}

private theorem survives_answered_iff (log : List Bytes) (s : σ)
    (answer : Option (Result Unit × σ)) :
    Survives (Reader.answered penalise ⟨.reading, log, s⟩ answer) ↔ Returns answer := by
  rcases answer with _ | ⟨(e | place) | done, s'⟩ <;>
    simp [Survives, Reader.answered, Returns, Fault.isCrash]

private theorem answered_failed_iff (log : List Bytes) (s : σ) (answer : Option (Result Unit × σ))
    (fault : Fault) :
    (Reader.answered penalise ⟨.reading, log, s⟩ answer).status = .failed fault ↔
      fault.isCrash = true ∧ ∃ s', answer = some (.error fault, s') := by
  rcases answer with _ | ⟨(e | place) | done, s'⟩ <;> cases fault <;>
    simp [Reader.answered, Fault.isCrash]

private theorem read_cases (log : List Bytes) (s : σ) (buf : Bytes) :
    (∃ data, (buf.length ≤ maxMessageSize ∧ unpack snappy buf = some data) ∧
        readerStep snappy handle penalise close ⟨.reading, log, s⟩ (.read buf) =
          Reader.answered penalise ⟨.reading, log ++ [data], s⟩ (handle data s)) ∨
      (∀ data, ¬ (buf.length ≤ maxMessageSize ∧ unpack snappy buf = some data)) ∧
        Survives (readerStep snappy handle penalise close ⟨.reading, log, s⟩ (.read buf)) := by
  rcases readerStep_cases snappy handle penalise close log s (.read buf) with
    ⟨leaves, status, after, ended, -, step⟩ | ⟨read, same, big, step⟩ |
      ⟨read, data, same, sized, unpacked, step⟩
  · refine Or.inr ⟨fun data both => ?_, ?_⟩
    · exact absurd (leaves.2.symm.trans both.2) (by simp)
    · rw [step]
      rcases ended with rfl | ⟨e, rfl⟩
      · simp [Survives]
      · simp [Survives, Fault.isCrash]
  · obtain rfl := Arrival.read.inj same
    refine Or.inr ⟨fun data both => absurd both.1 (not_le.mpr big), ?_⟩
    rw [step]
    simp [Survives]
  · obtain rfl := Arrival.read.inj same
    exact Or.inl ⟨data, ⟨sized, unpacked⟩, step⟩

end Step

section Quietness

variable {bad : Fault → Bool} (quiet : Quiet bad) (around : Surroundings)
include quiet

private theorem not_headersBreak (prevHash : Hash) (headers : List BlockHeader) (c : Chain) :
    ¬ HeadersBreak around.env bad prevHash headers c := by
  rintro ⟨before, header, after, -, -, breaks⟩
  rw [← raises_addBlock_light_iff quiet.errors around.world] at breaks
  exact not_raises_addBlock quiet _ _ breaks

private theorem not_ends_addHeaders (headers : List BlockHeader) (prevHash : Hash)
    (s : PeerManager) :
    ¬ Ends bad (addHeaders around headers prevHash s) := by
  induction headers generalizing prevHash s with
  | nil => simp [addHeaders]
  | cons header rest ih =>
      rw [addHeaders_cons]
      split
      · rename_i fault raised
        rw [ends_some]
        exact not_raises_passed (not_raises_headerHash quiet.errors _) raised
      · split
        · simp [quiet.errors]
        · simp only
          split
          · rename_i fault raised
            rw [ends_some]
            refine not_raises_passed ?_ raised
            exact fun raised => not_raises_addBlock quiet _ _ (raises_ignoreError raised)
          · exact ih _ _

private theorem upsets_iff_of_quiet (s : PeerManager) (msg : Message) :
    Upsets bad around s msg ↔
      ∃ hash, msg = .getData 2 hash ∧ hash ∉ s.chain.state.hashToHeight := by
  cases msg with
  | getData kind hash => simp [Upsets]
  | block block =>
      simp [Upsets, ← raises_submit_iff quiet.errors,
        not_raises_submit around.env around.world quiet.toTame]
  | headers headers => simp [Upsets, not_headersBreak quiet]
  | _ => simp [Upsets]

end Quietness

theorem handleMessage_returns_iff (around : Surroundings) (peer : Peer) (data : Bytes)
    (s : PeerManager) :
    Returns (handleMessage around peer data s) ↔
      (Reaches peer data s → needed (ofLeBytes (data.take 4)) ≤ data.length ∧
        ∀ msg, parseMessage data = .ok msg →
          ¬ Upsets Fault.isCrash around (entered peer data s) msg ∧
          ¬ Hangs around (around.choices s.tick) (entered peer data s) msg) := by
  by_cases reaches : Reaches peer data s
  · rw [returns_iff, ne_eq, handleMessage_eq_none_iff around peer data s reaches,
      ends_handleMessage_iff around peer data s (fun _ => rfl) rfl rfl
        (fun s headers prevHash => ends_addHeaders_iff around headers prevHash s) reaches]
    simp only [reaches, forall_const, not_or, not_lt, not_exists, not_and]
    constructor
    · rintro ⟨kept, long, upset⟩
      exact ⟨long, fun msg parsed => ⟨upset msg parsed, kept msg parsed⟩⟩
    · rintro ⟨long, fine⟩
      exact ⟨fun msg parsed => (fine msg parsed).2, long, fun msg parsed => (fine msg parsed).1⟩
  · exact ⟨fun _ reached => absurd reached reaches,
      fun _ => handleMessage_of_stopped around peer data s reaches⟩

private theorem handleMessage_indexing_iff (around : Surroundings) (peer : Peer) (data : Bytes)
    (s : PeerManager) :
    Ends isIndexing (handleMessage around peer data s) ↔
      Reaches peer data s ∧ (data.length < needed (ofLeBytes (data.take 4)) ∨
        ∃ hash, parseMessage data = .ok (.getData 2 hash) ∧
          hash ∉ s.chain.state.hashToHeight) := by
  by_cases reaches : Reaches peer data s
  · have loop (s : PeerManager) (headers : List BlockHeader) (prevHash : Hash) :
        Ends isIndexing (addHeaders around headers prevHash s) ↔
          HeadersBreak around.env isIndexing prevHash headers s.chain :=
      iff_of_false (not_ends_addHeaders quiet_isIndexing around headers prevHash s)
        (not_headersBreak quiet_isIndexing around prevHash headers s.chain)
    rw [ends_handleMessage_iff around peer data s (fun _ => rfl) (by decide) (by decide) loop
      reaches]
    simp only [upsets_iff_of_quiet quiet_isIndexing, reaches, true_and]
    refine or_congr_right ⟨?_, ?_⟩
    · rintro ⟨msg, parsed, hash, rfl, unknown⟩
      exact ⟨hash, parsed, unknown⟩
    · rintro ⟨hash, parsed, unknown⟩
      exact ⟨_, parsed, hash, rfl, unknown⟩
  · simp only [reaches, false_and, iff_false]
    have returned := returns_iff.mp (handleMessage_of_stopped around peer data s reaches)
    rintro ⟨r, s', answered, fault, indexing, raised⟩
    exact returned.2 ⟨r, s', answered, fault, isCrash_of_isIndexing indexing, raised⟩

def Dispatched (snappy : Snappy) (peer : Peer) (s : PeerManager) (buf data : Bytes) : Prop :=
  (buf.length ≤ maxMessageSize ∧ unpack snappy buf = some data) ∧ Reaches peer data s

private theorem dispatched_iff {snappy : Snappy} {peer : Peer} {s : PeerManager} {buf data : Bytes}
    (unpacked : buf.length ≤ maxMessageSize ∧ unpack snappy buf = some data) (other : Bytes) :
    Dispatched snappy peer s buf other ↔ other = data ∧ Reaches peer data s := by
  constructor
  · rintro ⟨⟨-, again⟩, reaches⟩
    obtain rfl := Option.some.inj (unpacked.2.symm.trans again)
    exact ⟨rfl, reaches⟩
  · rintro ⟨rfl, reaches⟩
    exact ⟨unpacked, reaches⟩

private theorem answered_indexing_iff {σ : Type} (penalise : σ → σ) (log : List Bytes) (s : σ)
    (answer : Option (Result Unit × σ)) :
    (∃ fault, isIndexing fault = true ∧
        (Reader.answered penalise ⟨.reading, log, s⟩ answer).status = .failed fault) ↔
      Ends isIndexing answer := by
  simp only [answered_failed_iff]
  constructor
  · rintro ⟨fault, indexing, -, s', answered⟩
    exact ⟨_, s', answered, fault, indexing, rfl⟩
  · rintro ⟨_, s', answered, fault, indexing, rfl⟩
    exact ⟨fault, indexing, isCrash_of_isIndexing indexing, s', answered⟩

def afterRead (around : Surroundings) (snappy : Snappy) (peer : Peer) (s : PeerManager)
    (log : List Bytes) (buf : Bytes) : Reader PeerManager :=
  readerStep snappy (handleMessage around peer) (decreaseReputation around peer) (removePeer peer)
    ⟨.reading, log, s⟩ (.read buf)

end Lyrion.Net
