/- GID: Lyrion/RunNode/Rpc
   digest: The RPC server of a process, its clients, and what a client can rely on. -/

import Lyrion.Library.Hex
import Lyrion.RunNode.Pool
import Lyrion.Wallet.App

set_option autoImplicit false
set_option relaxedAutoImplicit false

namespace Lyrion.RunNode

open Library.ByteCodec Library.KeyValue Library.Runs Data Utils Tx Node Net Mempool
open Lyrion.Wallet.App (parseU64 mempoolTxs)

namespace Rpc

inductive Status
  | ok
  | badRequest
  | unauthorized
  | notFound
  deriving DecidableEq

structure Response where
  status : Status
  body : Bytes
  deriving DecidableEq

def Response.text (status : Status) (text : String) : Response := ⟨status, text.toUTF8.toList⟩

inductive Query
  | height
  | balance (address : String)
  | block
  | mempool

/-- The routes, with the field `tx` of the body for the last one. -/
inductive Route
  | query (query : Query)
  | sendTx (field : Option String)

/-- A request, with the header `Authorization` if it has one that is text. -/
structure Request where
  authorization : Option String
  route : Route

/-- What the server takes from its crates and its configuration: the claims of a token that is valid
under the secret at a time, and the reading of an address. -/
structure Server where
  decode : Option Nat → String → String → Option (String → Option String)
  addressToPubkeyHash : String → Result Hash160
  jwtSecret : String

/-- `trim_start_matches`, with a bound on the number of matches. -/
def trimStartWith (pattern : List Char) : Nat → List Char → List Char
  | 0, text => text
  | fuel + 1, text =>
      if pattern.isPrefixOf text then trimStartWith pattern fuel (text.drop pattern.length)
      else text

def trimStartMatches (pattern text : String) : String :=
  String.ofList (trimStartWith pattern.toList text.toList.length text.toList)

section Tokens

variable (server : Server) (nowSecs : Option Nat)

def validateJwt (token secret : String) : Result Bool := do
  let claims ← orFail (.anyhow "Invalid JWT") (server.decode nowSecs token secret)
  let now ← orPanic "duration_since" nowSecs
  let exp := ((claims "exp").bind parseU64).getD 0
  pure (decide (now < exp.toNat))

/-- The test that every handler begins with: `validate_jwt(..).is_ok()`. -/
def authorised (authorization : Option String) : Result Bool :=
  match authorization with
  | none => pure false
  | some auth =>
      match validateJwt server nowSecs (trimStartMatches "Bearer " auth) server.jwtSecret with
      | .ok _ => pure true
      | .error (.panic place) => .error (.panic place)
      | .error _ => pure false

end Tokens

/-- The transaction in the body of `send_tx`, or the text of the refusal. -/
def readTx (field : Option String) : Except String Transaction :=
  match Library.Hex.decode (field.getD "") with
  | none => .error "Invalid hex"
  | some raw =>
      match transactionCodec.read raw with
      | none => .error "Invalid TX"
      | some tx => .ok tx

/-- The number in front of the bodies of `get_block` and `get_mempool`. -/
def versionBytes : Bytes := beBytes 4 1

section Handlers

variable (settings : Settings) (server : Server) (nowSecs : Option Nat)

def pooledTxs (choices : Choices) (m : Mempool) : List Transaction :=
  (choices.enumerate m.txs.keys).filterMap fun txid => (m.txs.lookup txid).map MempoolEntry.tx

/-- The answer of a handler that only reads: from the chain, or from the pool if it can be read. -/
def answer (c : Chain) (pool : Option (List Transaction)) : Query → Option Response
  | .height => some (.text .ok (toString c.bestHeight))
  | .balance address =>
      match server.addressToPubkeyHash address with
      | .ok pkh => some (.text .ok (toString (getBalance c.db pkh).toNat))
      | .error _ => some (.text .badRequest "Invalid address")
  | .block =>
      match c.state.blocks.lookup c.bestHeight with
      | some block => some ⟨.ok, versionBytes ++ blockCodec.encode block⟩
      | none => some (.text .notFound "No block at tip")
  | .mempool =>
      pool.map fun txs => ⟨.ok, versionBytes ++ transactionCodec.list.encode txs⟩

def early : Query → Option Response
  | .balance address =>
      match server.addressToPubkeyHash address with
      | .ok _ => none
      | .error _ => some (.text .badRequest "Invalid address")
  | _ => none

/-- `send_tx` with the transaction read: no answer where the insertion never returns. -/
def sendRead (session : Session) (s : PeerManager) (held : Bool) (tx : Transaction) :
    Option Response × Process :=
  let node := step settings (.up session s held) (.sendTx tx)
  match Mempool.insertGuarded settings.env (session.choices s.tick) s.chain.db tx s.mempool with
  | none => (none, node)
  | some (.ok true, _) => (some (.text .ok "TX sent"), node)
  | some _ => (some (.text .badRequest "Invalid TX"), node)

/-- A handler behind the test of the token. In a process that hangs it waits for ever, unless the
chain can still be read and is all that it asks for, or the request itself cannot be read. -/
def handle (node : Process) (route : Route) : Option Response × Process :=
  match route with
  | .query query =>
      match node with
      | .up session s _ =>
          (answer server s.chain (some (pooledTxs (session.choices s.tick) s.mempool)) query, node)
      | .hung _ c true => (answer server c none query, node)
      | _ => (early server query, node)
  | .sendTx field =>
      match readTx field with
      | .error text => (some (.text .badRequest text), node)
      | .ok tx =>
          match node with
          | .up session s held => sendRead settings session s held tx
          | _ => (none, node)

def refusal : Response := .text .unauthorized "Invalid or missing JWT"

/-- One request to a node: its answer, if one comes, and the node after it. -/
def serve (node : Process) (request : Request) : Option Response × Process :=
  match node with
  | .down _ => (none, node)
  | _ =>
      match authorised server nowSecs request.authorization with
      | .error _ => (none, node)
      | .ok false => (some refusal, node)
      | .ok true => handle settings server node request.route

end Handlers

/-! The clients of the repository give the secret itself as their token. -/

def bearer (secret : String) : Option String := some ("Bearer " ++ secret)

/-- A request to send a transaction, as `WalletSubcommand::Send` makes it. -/
def sendRequest (authorization : Option String) (tx : Transaction) : Request :=
  ⟨authorization, .sendTx (some (Library.Hex.encode (transactionCodec.encode tx)))⟩

def poolRequest (authorization : Option String) : Request := ⟨authorization, .query .mempool⟩

def poolSeen (settings : Settings) (server : Server) (nowSecs : Option Nat) (node : Process)
    (authorization : Option String) : Result (List Transaction) :=
  mempoolTxs ((serve settings server nowSecs node (poolRequest authorization)).1.map Response.body)

section Clients

variable {settings : Settings} {server : Server} {nowSecs : Option Nat} {node : Process}
  {session : Session} {s : PeerManager} {held : Bool}

theorem readTx_encode {tx : Transaction} (small : tx.size < 2 ^ 64) :
    readTx (some (Library.Hex.encode (transactionCodec.encode tx))) = .ok tx := by
  simp only [readTx, Option.getD_some, Library.Hex.decode_encode,
    transactionCodec.read_encode tx small]

private theorem mempoolTxs_encode {txs : List Transaction}
    (small : (transactionCodec.list.encode txs).length < 2 ^ 64) :
    mempoolTxs (some (versionBytes ++ transactionCodec.list.encode txs)) = .ok txs := by
  have version : versionBytes.length = 4 := by decide
  have enough : ¬ (versionBytes ++ transactionCodec.list.encode txs).length < 4 := by
    rw [List.length_append, version]
    omega
  simp only [mempoolTxs, if_neg enough, List.drop_left' version,
    transactionCodec.list.read_encode txs small, Option.getD_some]
  rfl

private theorem serve_of_authorised {request : Request}
    (passed : authorised server nowSecs request.authorization = .ok true) :
    serve settings server nowSecs (.up session s held) request =
      handle settings server (.up session s held) request.route := by
  simp only [serve, passed]

private theorem authorised_of_serve {request : Request} {response : Response}
    (answered : (serve settings server nowSecs (.up session s held) request).1 = some response)
    (other : response ≠ refusal) : authorised server nowSecs request.authorization = .ok true := by
  simp only [serve] at answered
  split at answered
  · simp at answered
  · exact absurd (Option.some.inj answered).symm other
  · assumption

private theorem sendRead_sent {tx : Transaction}
    (sound : SoundPool settings.maxMempoolSize s.mempool)
    (sent : sendRead settings session s held tx = (some (.text .ok "TX sent"), node)) :
    ∃ s' entry, node = .up session s' held ∧
      SoundPool settings.maxMempoolSize s'.mempool ∧
      s'.mempool.txs.lookup (txHash settings.env tx) = some entry ∧ entry.tx = tx := by
  have refused : (some (Response.text .badRequest "Invalid TX") : Option Response) ≠
      some (.text .ok "TX sent") := by decide +kernel
  simp only [sendRead, step, onSendTx] at sent
  split at sent
  · exact absurd (Prod.mk.inj sent).1 (by simp)
  · rename_i m inserted
    simp only [inserted] at sent
    obtain ⟨-, rfl⟩ := Prod.mk.inj sent
    rcases sound.insert inserted with ⟨-, other⟩ | ⟨entry, passed, -, rfl, sound'⟩
    · exact absurd rfl other
    · obtain ⟨walked, inputSum, admitted⟩ := checkInsert_eq_ok passed
      refine ⟨_, entry, rfl, sound', ?_, admitted.own⟩
      exact (lookup_store_txs _ _ _ _ _).trans (if_pos rfl)
  · exact absurd (Prod.mk.inj sent).1 refused

private theorem sum_size_le (txids : List Hash) (txs : Map Hash MempoolEntry)
    (nodup : txids.Nodup) :
    ((txids.filterMap fun txid => (txs.lookup txid).map MempoolEntry.tx).map
      Transaction.size).sum ≤ total entrySize txs := by
  induction txids generalizing txs with
  | nil => exact Nat.zero_le _
  | cons txid txids ih =>
      obtain ⟨fresh, nodup⟩ := List.nodup_cons.mp nodup
      -- the others are still there without the first
      have others : (txids.filterMap fun other => (txs.lookup other).map MempoolEntry.tx) =
          txids.filterMap fun other => ((txs.erase txid).lookup other).map MempoolEntry.tx := by
        refine List.filterMap_congr fun other member => ?_
        have different : other ≠ txid := by
          rintro rfl
          exact fresh member
        rw [Finmap.lookup_erase_ne different]
      have rest := ih (txs.erase txid) nodup
      have whole := total_erase entrySize txs txid
      rw [List.filterMap_cons, others]
      cases found : txs.lookup txid with
      | none =>
          simp only [Option.map_none]
          omega
      | some entry =>
          have here : valueAt entrySize txs txid = entry.tx.size := by
            rw [valueAt, found]
            rfl
          simp only [Option.map_some, List.map_cons, List.sum_cons]
          omega

private theorem length_encode_pooledTxs (choices : Choices) {maxSize : Nat} {m : Mempool}
    (sound : SoundPool maxSize m) :
    (transactionCodec.list.encode (pooledTxs choices m)).length ≤ 8 + maxSize := by
  have sizes := sum_size_le _ m.txs (choices.nodup_enumerate m.txs.keys)
  rw [Codec.length_encode_list, List.length_flatMap]
  exact Nat.add_le_add_left (sizes.trans sound.bytes) 8

private theorem poolSeen_eq (roomy : settings.maxMempoolSize + 8 < 2 ^ 64)
    (sound : SoundPool settings.maxMempoolSize s.mempool) {authorization : Option String}
    (passed : authorised server nowSecs authorization = .ok true) :
    poolSeen settings server nowSecs (.up session s held) authorization =
      .ok (pooledTxs (session.choices s.tick) s.mempool) := by
  have short := length_encode_pooledTxs (session.choices s.tick) sound
  have served : serve settings server nowSecs (.up session s held) (poolRequest authorization) =
      handle settings server (.up session s held) (.query .mempool) := serve_of_authorised passed
  rw [poolSeen, served]
  exact mempoolTxs_encode (by omega)

private theorem mem_pooledTxs (choices : Choices) {m : Mempool} {txid : Hash} {entry : MempoolEntry}
    (found : m.txs.lookup txid = some entry) : entry.tx ∈ pooledTxs choices m := by
  have filed : txid ∈ choices.enumerate m.txs.keys :=
    (choices.mem_enumerate _ _).mpr (Finmap.mem_keys.mpr (Finmap.mem_of_lookup_eq_some found))
  exact List.mem_filterMap.mpr ⟨txid, filed, by rw [found, Option.map_some]⟩

end Clients

/-- A transaction that a process has answered to have sent is in its pool, and every client that is
let through later reads it there, whatever work the process has done in between, as long as it
answers and its clean-up has not run. -/
theorem sent_payment_stays_listed (settings : Settings) (server : Server)
    (roomy : settings.maxMempoolSize + 8 < 2 ^ 64) (db : Db) (events : List Event)
    (session : Session) (s : PeerManager) (held : Bool)
    (reached : life settings db events = .up session s held) (tx : Transaction)
    (small : tx.size < 2 ^ 64) (nowSecs : Option Nat) (authorization : Option String)
    (node : Process)
    (sent : serve settings server nowSecs (.up session s held) (sendRequest authorization tx) =
      (some (.text .ok "TX sent"), node)) :
    ∀ more, (∀ event ∈ more, event.isWork = true) → ∀ session' s' held',
      run (step settings) node more = .up session' s' held' →
      ∀ nowSecs' authorization', authorised server nowSecs' authorization' = .ok true →
        ∃ txs, poolSeen settings server nowSecs' (.up session' s' held') authorization' = .ok txs ∧
          tx ∈ txs := by
  intro more work session' s' held' ends nowSecs' authorization' passed'
  have other : Response.text .ok "TX sent" ≠ refusal := by decide +kernel
  have passed : authorised server nowSecs authorization = .ok true :=
    authorised_of_serve (congrArg Prod.fst sent) other
  have handled : sendRead settings session s held tx = (some (.text .ok "TX sent"), node) := by
    rw [serve_of_authorised passed] at sent
    simpa only [handle, sendRequest, readTx_encode small] using sent
  obtain ⟨s₁, entry, rfl, sound, found, own⟩ := sendRead_sent (soundPool_of_reached reached) handled
  obtain ⟨sound', kept⟩ := sound.run work ends
  refine ⟨_, poolSeen_eq roomy sound' passed', ?_⟩
  exact own ▸ mem_pooledTxs _ (kept _ _ found)

def sampleServer : Server where
  decode _ _ _ := some fun _ => none
  addressToPubkeyHash _ := fail (.anyhow "base58")
  jwtSecret := "secret"

/-- The first process on a database with one coin answers to have sent a spend of it, and goes on
listing it. -/
theorem sampleSpend_stays_listed :
    ∃ node, serve sampleSettings sampleServer (some 0)
        (.up sampleSession (sampleFirstOn sampleCoinDb) false)
        (sendRequest (bearer "secret") (sampleSpend [])) = (some (.text .ok "TX sent"), node) ∧
      ∀ more, (∀ event ∈ more, event.isWork = true) → ∀ session' s' held',
        run (step sampleSettings) node more = .up session' s' held' →
        ∀ nowSecs' authorization', authorised sampleServer nowSecs' authorization' = .ok true →
          ∃ txs, poolSeen sampleSettings sampleServer nowSecs' (.up session' s' held')
            authorization' = .ok txs ∧ sampleSpend [] ∈ txs := by
  have small : (sampleSpend []).size < 2 ^ 64 := by decide
  have evaluated : ((sampleFirstOn sampleCoinDb).mempool.insertGuarded sampleEnv
      Mempool.sampleChoices (sampleFirstOn sampleCoinDb).chain.db (sampleSpend [])).map Prod.fst =
        some (.ok true) := by decide +kernel
  obtain ⟨⟨_, m⟩, inserted, rfl⟩ := Option.map_eq_some_iff.mp evaluated
  have sent : serve sampleSettings sampleServer (some 0)
      (.up sampleSession (sampleFirstOn sampleCoinDb) false)
      (sendRequest (bearer "secret") (sampleSpend [])) = (some (.text .ok "TX sent"),
        step sampleSettings (.up sampleSession (sampleFirstOn sampleCoinDb) false)
          (.sendTx (sampleSpend []))) := by
    rw [serve_of_authorised rfl]
    simp only [handle, sendRequest, readTx_encode small]
    simp only [sendRead, sampleSettings, sampleSession, inserted]
  exact ⟨_, sent, sent_payment_stays_listed sampleSettings sampleServer (by decide) sampleCoinDb _
    sampleSession _ false sampleCoinDb_started (sampleSpend []) small (some 0) _ _ sent⟩

end Rpc

end Lyrion.RunNode
