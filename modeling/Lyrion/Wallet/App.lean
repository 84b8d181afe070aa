/- GID: Lyrion/Wallet/App
   digest: The wallet with the user interface: its frames, its file, and what one frame can do to
     the state, the seed and the password. -/

import Lyrion.Utils.Secrets
import Lyrion.Wallet.History

set_option autoImplicit false
set_option relaxedAutoImplicit false

namespace Lyrion.Wallet.App

open Library.ByteCodec Library.Files Data Utils Tx
open Lyrion.Utils.Secrets (Mark Disk)
open Node

abbrev SeedBytes := Vector UInt8 64

inductive AppState where
  | setupPassword
  | createWallet
  | restoreWallet
  | main
  deriving DecidableEq

inductive Tab where
  | receive
  | send
  | history
  deriving DecidableEq

structure Scanned where
  utxos : List FoundUtxo
  balance : UInt64
  history : List TxHistoryEntry
  receiveAddrs : List String
  changeAddrs : List String
  recvIdx : UInt32
  chgIdx : UInt32

/-- A task that has been spawned: what it comes to, and whether it has. -/
structure Promise (α : Type) where
  result : Result α
  ready : Bool

/-- What the app takes from other crates, from the system and from the two functions that the
repository does not have. The cipher is authenticated and works without chance: a text decrypts to
what encrypts to it, and is 16 bytes longer. -/
structure Crates (env : Env) where
  hashPasswordInto : String → Bytes → Option Bytes
  encrypt : Bytes → Bytes → Bytes → Option Bytes
  decrypt : Bytes → Bytes → Bytes → Option Bytes
  decrypt_eq_some : ∀ key nonce ciphertext plaintext,
    decrypt key nonce ciphertext = some plaintext ↔ encrypt key nonce plaintext = some ciphertext
  length_encrypt : ∀ key nonce plaintext ciphertext,
    encrypt key nonce plaintext = some ciphertext → ciphertext.length = plaintext.length + 16
  /-- `Mnemonic::parse_in` and `Seed::new`. -/
  seedOfPhrase : String → Option SeedBytes
  readSeed : SeedBytes → Seed env
  addressToPubkeyHash : String → Result Hash160
  order : MapOrder
  scanMempool : List Transaction → List String → List FoundUtxo
  sendTransactionTask : SeedBytes → List FoundUtxo → String → UInt64 → UInt64 → UInt32 →
    Result (String × Bool)
  /-- `AnonPrivateKey::from_bytes`, and the address of the key. -/
  anonAddress : Bytes → Option String
  walletFile : String
  anonFile : String
  mark : Mark

/-- An error that is shown: a text, or that of a task. -/
inductive Notice where
  | text (text : String)
  | fault (fault : Fault)

structure LyrionWalletApp where
  tempPasswordInput : String
  tempPasswordConfirm : String
  password : String
  mnemonic : Option String
  seed : Option SeedBytes
  utxos : List FoundUtxo
  balance : UInt64
  pendingBalance : UInt64
  receiveAddresses : List String
  changeAddresses : List String
  currentReceiveIndex : UInt32
  currentChangeIndex : UInt32
  db : Db
  currentHeight : Nat
  error : Option Notice
  toAddress : String
  amountStr : String
  feeRateStr : String
  history : List TxHistoryEntry
  anonSpendKey : Option Bytes
  anonAddress : String
  scanPromise : Option (Promise Scanned)
  sendPromise : Option (Promise (String × Bool))
  state : AppState
  selectedTab : Option Tab

/-- What happens to the app in one frame: the buttons that are clicked, the texts that are typed
(nothing where a text stays), the phrase that the generator gives, the answer of the node to a
request for its pool, the database that a reconnection opens, and which tasks have ended. -/
structure Frame where
  menuNewAddress : Bool
  lock : Bool
  passwordInput : Option String
  passwordConfirm : Option String
  unlock : Bool
  phrase : Option String
  mnemonicInput : Option String
  confirm : Bool
  tab : Option Tab
  refresh : Bool
  reconnect : Option (Option Db)
  newAddress : Bool
  toInput : Option String
  amountInput : Option String
  feeInput : Option String
  send : Bool
  mempoolBody : Option Bytes
  scanDone : Bool
  sendDone : Bool

section Parts

def parseU64 (text : String) : Option UInt64 :=
  let digits : List Char := match text.toList with
    | '+' :: rest => rest
    | chars => chars
  let value : Nat := digits.foldl (fun n c => 10 * n + (c.toNat - '0'.toNat)) 0
  if digits.isEmpty || !digits.all Char.isDigit || 2 ^ 64 ≤ value then none
  else some (UInt64.ofNat value)

/-- `load_current_height`: the first four bytes of the stored height, if there is one. -/
def loadCurrentHeight (app : LyrionWalletApp) : Result LyrionWalletApp :=
  match get app.db .default bestHeightKey with
  | none => pure app
  | some bytes =>
      if bytes.length < 4 then .error (.panic "height")
      else pure { app with currentHeight := ofBeBytes (bytes.take 4) }

/-- The transactions in the answer of the node: an answer that cannot be read is none, one that is
too short for its length ends the process. -/
def mempoolTxs (body : Option Bytes) : Result (List Transaction) :=
  match body with
  | none => pure []
  | some body =>
      if body.length < 4 then .error (.panic "body[4..]")
      else pure ((transactionCodec.list.read (body.drop 4)).getD [])

variable {env : Env} (crates : Crates env)

def scanWalletTask (db : Db) (seed : SeedBytes) (currentHeight : Nat)
    (mempoolTxs : List Transaction) : Result Scanned := do
  let (receiveUtxos, receiveBal, receiveAddrs, recvIdx) ←
    scanChain db (crates.readSeed seed) currentHeight 0 20
  let (changeUtxos, changeBal, changeAddrs, chgIdx) ←
    scanChain db (crates.readSeed seed) currentHeight 1 20
  let memUtxos := crates.scanMempool mempoolTxs (receiveAddrs ++ changeAddrs)
  let history ← buildHistoryTask db crates.order crates.addressToPubkeyHash receiveAddrs changeAddrs
    currentHeight
  pure ⟨receiveUtxos ++ changeUtxos ++ memUtxos, receiveBal + changeBal, history, receiveAddrs,
    changeAddrs, UInt32.ofNat recvIdx, UInt32.ofNat chgIdx⟩

/-- The block that asks the node for its pool and spawns a scan, which the source has six times. -/
def startScan (frame : Frame) (app : LyrionWalletApp) : Result LyrionWalletApp := do
  let seed ← orPanic "seed" app.seed
  let txs ← mempoolTxs frame.mempoolBody
  pure { app with
    scanPromise := some ⟨scanWalletTask crates app.db seed app.currentHeight txs, false⟩ }

def encryptWallet (salt : Vector UInt8 32) (nonce : Vector UInt8 12) (password : String)
    (seed : Option SeedBytes) : Result Bytes := do
  let key ← orFail (.anyhow "argon2") (crates.hashPasswordInto password salt.toList)
  let seed ← orPanic "seed" seed
  let ciphertext ← orFail (.anyhow "chacha20poly1305")
    (crates.encrypt key nonce.toList seed.toList)
  pure (salt.toList ++ nonce.toList ++ ciphertext)

def copySeed (plaintext : Bytes) : Option SeedBytes :=
  if whole : plaintext.length = 64 then some ⟨plaintext.toArray, by simpa using whole⟩ else none

def decryptWallet (password : String) (data : Bytes) : Result SeedBytes := do
  if data.length < 44 then fail (.anyhow "Corrupted wallet file")
  let key ← orFail (.anyhow "argon2") (crates.hashPasswordInto password (data.take 32))
  let plaintext ← orFail (.anyhow "chacha20poly1305")
    (crates.decrypt key ((data.drop 32).take 12) (data.drop 44))
  orPanic "copy_from_slice" (copySeed plaintext)

end Parts

section Panels

variable {env : Env} (crates : Crates env) (disk : Disk) (frame : Frame)

def topPanel (app : LyrionWalletApp) : LyrionWalletApp :=
  let app := if frame.menuNewAddress then
    { app with currentReceiveIndex := app.currentReceiveIndex + 1 } else app
  if frame.lock then { app with state := .setupPassword, password := "" } else app

def openWallet (seed : SeedBytes) (password : String) (app : LyrionWalletApp) :
    Result LyrionWalletApp := do
  let app ← loadCurrentHeight { app with seed := some seed, password := password }
  let app ← startScan crates frame app
  pure { app with state := .main }

def unlockButton (secretPw : String) (app : LyrionWalletApp) : Result LyrionWalletApp :=
  match disk crates.walletFile with
  | none => pure app
  | some file =>
      match decryptWallet crates secretPw file.bytes with
      | .ok seed => openWallet crates frame seed secretPw app
      | .error (.panic place) => .error (.panic place)
      | .error _ => pure { app with error := some (.text "Incorrect password") }

def passwordPanel (app : LyrionWalletApp) : Result LyrionWalletApp :=
  let typed := frame.passwordInput.getD app.tempPasswordInput
  if frame.unlock then unlockButton crates disk frame typed { app with tempPasswordInput := "" }
  else pure { app with tempPasswordInput := typed }

def confirmButton (secretPw : String) (app : LyrionWalletApp) : Result LyrionWalletApp :=
  match app.mnemonic.bind crates.seedOfPhrase with
  | none => pure { app with password := secretPw }
  | some seed => openWallet crates frame seed secretPw app

def confirmPanel (app : LyrionWalletApp) : Result LyrionWalletApp :=
  let typed := frame.passwordInput.getD app.tempPasswordInput
  let again := frame.passwordConfirm.getD app.tempPasswordConfirm
  if frame.confirm ∧ typed = again ∧ typed ≠ "" then
    confirmButton crates frame typed { app with tempPasswordInput := "", tempPasswordConfirm := "" }
  else pure { app with tempPasswordInput := typed, tempPasswordConfirm := again }

/-- The panel of `AppState::CreateWallet` and `AppState::RestoreWallet`. The former takes a new
phrase in every frame, the latter the one that is typed. -/
def creationPanel (app : LyrionWalletApp) : Result LyrionWalletApp :=
  if app.state = .createWallet then
    match frame.phrase with
    | none => pure app
    | some phrase => confirmPanel crates frame { app with mnemonic := some phrase }
  else
    confirmPanel crates frame
      { app with mnemonic := some (frame.mnemonicInput.getD (app.mnemonic.getD "")) }

/-- The sum of some values, as `sum` makes it. -/
def total (utxos : List FoundUtxo) : UInt64 := inputSum (utxos.map FoundUtxo.toUtxo)

def takeScan (app : LyrionWalletApp) : LyrionWalletApp :=
  match app.scanPromise with
  | none => app
  | some promise =>
      if promise.ready || frame.scanDone then
        let app := { app with scanPromise := some { promise with ready := true } }
        match promise.result with
        | .ok scanned => { app with
            utxos := scanned.utxos
            balance := total (scanned.utxos.filter FoundUtxo.isConfirmed)
            pendingBalance := total (scanned.utxos.filter fun u => !u.isConfirmed)
            history := scanned.history
            receiveAddresses := scanned.receiveAddrs
            changeAddresses := scanned.changeAddrs
            currentReceiveIndex := scanned.recvIdx
            currentChangeIndex := scanned.chgIdx }
        | .error fault => { app with error := some (.fault fault) }
      else app

/-- What follows from a payment that has ended, in every frame in which it is looked at. -/
def takeSend (app : LyrionWalletApp) : Result LyrionWalletApp :=
  match app.sendPromise with
  | none => pure app
  | some promise =>
      if promise.ready || frame.sendDone then
        let app := { app with sendPromise := some { promise with ready := true } }
        match promise.result with
        | .ok (_, used) => startScan crates frame { app with
            currentChangeIndex := if used then app.currentChangeIndex + 1
              else app.currentChangeIndex
            toAddress := ""
            amountStr := "" }
        | .error _ => pure app
      else pure app

def sendButton (app : LyrionWalletApp) : Result LyrionWalletApp :=
  match frame.send, parseU64 app.amountStr, parseU64 app.feeRateStr with
  | true, some amount, some fee => do
      let seed ← orPanic "Wallet locked" app.seed
      pure { app with sendPromise := some ⟨crates.sendTransactionTask seed app.utxos app.toAddress
        amount fee app.currentChangeIndex, false⟩ }
  | _, _, _ => pure { app with error := some (.text "Invalid amount or fees") }

def sendForm (app : LyrionWalletApp) : Result LyrionWalletApp :=
  sendButton crates frame { app with
    toAddress := frame.toInput.getD app.toAddress
    amountStr := frame.amountInput.getD app.amountStr
    feeRateStr := frame.feeInput.getD app.feeRateStr }

def tabPanel (app : LyrionWalletApp) : Result LyrionWalletApp :=
  match app.selectedTab with
  | none | some .receive =>
      pure (if frame.newAddress then
        { app with currentReceiveIndex := app.currentReceiveIndex + 1 } else app)
  | some .send => do
      let app ← sendForm crates frame app
      takeSend crates frame app
  | some .history => pure app

def refreshPanel (app : LyrionWalletApp) : Result LyrionWalletApp := do
  let app := { app with selectedTab := frame.tab.orElse fun _ => app.selectedTab }
  if frame.refresh then
    let app ← loadCurrentHeight app
    startScan crates frame app
  else pure app

def reconnectPanel (app : LyrionWalletApp) : Result LyrionWalletApp :=
  match frame.reconnect with
  | none => pure app
  | some none => .error (.panic "open_as_secondary")
  | some (some db) => do
      let app ← loadCurrentHeight { app with db := db }
      startScan crates frame app

def mainPanel (app : LyrionWalletApp) : Result LyrionWalletApp := do
  let app ← refreshPanel crates frame app
  let app ← reconnectPanel crates frame app
  tabPanel crates frame (takeScan frame app)

def centralPanel (app : LyrionWalletApp) : Result LyrionWalletApp :=
  match app.state with
  | .setupPassword => passwordPanel crates disk frame app
  | .createWallet | .restoreWallet => creationPanel crates frame app
  | .main => mainPanel crates frame app

def update (app : LyrionWalletApp) : Result LyrionWalletApp :=
  centralPanel crates disk frame (topPanel frame app)

end Panels

section Beginnings

variable {env : Env} (crates : Crates env)

def initial (db : Db) (disk : Disk) : LyrionWalletApp where
  tempPasswordInput := ""
  tempPasswordConfirm := ""
  password := ""
  mnemonic := none
  seed := none
  utxos := []
  balance := 0
  pendingBalance := 0
  receiveAddresses := []
  changeAddresses := []
  currentReceiveIndex := 0
  currentChangeIndex := 0
  db := db
  currentHeight := 0
  error := none
  toAddress := ""
  amountStr := ""
  feeRateStr := "10"
  history := []
  anonSpendKey := none
  anonAddress := ""
  scanPromise := none
  sendPromise := none
  state := if (disk crates.walletFile).isSome then .setupPassword else .createWallet
  selectedTab := none

def loadAnonKey (disk : Disk) (app : LyrionWalletApp) : Result LyrionWalletApp :=
  match disk crates.anonFile with
  | none => pure app
  | some file =>
      if file.bytes.length = 32 then do
        let address ← orPanic "AnonPrivateKey" (crates.anonAddress file.bytes)
        pure { app with anonSpendKey := some file.bytes, anonAddress := address }
      else pure app

def new (db : Db) (disk : Disk) : Result LyrionWalletApp := do
  let app ← loadAnonKey crates disk (initial crates db disk)
  loadCurrentHeight app

/-- `save`: what it writes into the file of the wallet, and its panic if there is no seed. -/
def save (salt : Vector UInt8 32) (nonce : Vector UInt8 12) (app : LyrionWalletApp) :
    Result (List Secrets.Effect) :=
  match encryptWallet crates salt nonce app.password app.seed with
  | .ok data => pure (writing crates.walletFile crates.mark data)
  | .error (.panic place) => .error (.panic place)
  | .error _ => pure []

end Beginnings

/-! What a frame can do to the state, the seed and the password. -/

structure Keeps (app after : LyrionWalletApp) : Prop where
  state : after.state = app.state
  seed : after.seed = app.seed
  password : after.password = app.password

/-- And the text in the field for the password neither. -/
structure Rests (app after : LyrionWalletApp) : Prop extends Keeps app after where
  entry : after.tempPasswordInput = app.tempPasswordInput

namespace Rests

variable {app middle after : LyrionWalletApp}

private theorem refl (app : LyrionWalletApp) : Rests app app := ⟨⟨rfl, rfl, rfl⟩, rfl⟩

theorem trans (first : Rests app middle) (second : Rests middle after) : Rests app after :=
  ⟨⟨second.state.trans first.state, second.seed.trans first.seed,
    second.password.trans first.password⟩, second.entry.trans first.entry⟩

end Rests

/-- What is in that field is what was there, nothing, or what has been typed. -/
def Enters (frame : Frame) (app after : LyrionWalletApp) : Prop :=
  after.tempPasswordInput = app.tempPasswordInput ∨ after.tempPasswordInput = "" ∨
    frame.passwordInput = some after.tempPasswordInput

section Steps

variable {env : Env} {crates : Crates env} {disk : Disk} {frame : Frame}
  {app after : LyrionWalletApp}

theorem rests_loadCurrentHeight (done : loadCurrentHeight app = .ok after) : Rests app after := by
  unfold loadCurrentHeight at done
  split at done
  case h_1 =>
    obtain rfl := pure_eq_ok.mp done
    exact .refl app
  case h_2 =>
    split at done
    case isTrue => cases done
    case isFalse =>
      obtain rfl := pure_eq_ok.mp done
      exact ⟨⟨rfl, rfl, rfl⟩, rfl⟩

private theorem rests_loadAnonKey (done : loadAnonKey crates disk app = .ok after) : Rests app
    after := by
  unfold loadAnonKey at done
  split at done
  case h_1 =>
    obtain rfl := pure_eq_ok.mp done
    exact .refl app
  case h_2 =>
    split at done
    case isTrue =>
      simp only [bind_eq_ok, pure_eq_ok] at done
      obtain ⟨-, -, rfl⟩ := done
      exact ⟨⟨rfl, rfl, rfl⟩, rfl⟩
    case isFalse =>
      obtain rfl := pure_eq_ok.mp done
      exact .refl app

theorem rests_new {db : Db} (started : new crates db disk = .ok after) :
    Rests (initial crates db disk) after := by
  obtain ⟨middle, key, height⟩ := bind_eq_ok.mp started
  exact (rests_loadAnonKey key).trans (rests_loadCurrentHeight height)

private theorem rests_startScan (done : startScan crates frame app = .ok after) : Rests app after :=
    by
  simp only [startScan, bind_eq_ok, pure_eq_ok] at done
  obtain ⟨-, -, -, -, rfl⟩ := done
  exact ⟨⟨rfl, rfl, rfl⟩, rfl⟩

private theorem rests_rescan (done : (do
      let app ← loadCurrentHeight app
      startScan crates frame app) = .ok after) : Rests app after := by
  obtain ⟨middle, height, scan⟩ := bind_eq_ok.mp done
  exact (rests_loadCurrentHeight height).trans (rests_startScan scan)

theorem rests_takeScan : Rests app (takeScan frame app) := by
  unfold takeScan
  split
  case h_1 => exact .refl app
  case h_2 promise _ =>
    split
    case isTrue =>
      cases promise.result with
      | ok scanned => exact ⟨⟨rfl, rfl, rfl⟩, rfl⟩
      | error fault => exact ⟨⟨rfl, rfl, rfl⟩, rfl⟩
    case isFalse => exact .refl app

private theorem rests_takeSend (done : takeSend crates frame app = .ok after) : Rests app after :=
    by
  unfold takeSend at done
  split at done
  case h_1 =>
    obtain rfl := pure_eq_ok.mp done
    exact .refl app
  case h_2 promise _ =>
    split at done
    case isTrue =>
      cases result : promise.result with
      | ok sent =>
          simp only [result] at done
          obtain ⟨⟨state, seed, password⟩, entry⟩ := rests_startScan done
          exact ⟨⟨state, seed, password⟩, entry⟩
      | error fault =>
          simp only [result] at done
          obtain rfl := pure_eq_ok.mp done
          exact ⟨⟨rfl, rfl, rfl⟩, rfl⟩
    case isFalse =>
      obtain rfl := pure_eq_ok.mp done
      exact .refl app

private theorem rests_sendButton (done : sendButton crates frame app = .ok after) : Rests app
    after := by
  unfold sendButton at done
  split at done
  case h_1 =>
    simp only [bind_eq_ok, pure_eq_ok] at done
    obtain ⟨-, -, rfl⟩ := done
    exact ⟨⟨rfl, rfl, rfl⟩, rfl⟩
  case h_2 =>
    obtain rfl := pure_eq_ok.mp done
    exact ⟨⟨rfl, rfl, rfl⟩, rfl⟩

theorem rests_sendForm (done : sendForm crates frame app = .ok after) : Rests app after := by
  obtain ⟨⟨state, seed, password⟩, entry⟩ := rests_sendButton done
  exact ⟨⟨state, seed, password⟩, entry⟩

private theorem rests_tabPanel (done : tabPanel crates frame app = .ok after) : Rests app after :=
    by
  have receive (done : (pure (if frame.newAddress then
      { app with currentReceiveIndex := app.currentReceiveIndex + 1 } else app) :
        Result LyrionWalletApp) = .ok after) : Rests app after := by
    obtain rfl := pure_eq_ok.mp done
    split
    case isTrue => exact ⟨⟨rfl, rfl, rfl⟩, rfl⟩
    case isFalse => exact .refl app
  unfold tabPanel at done
  split at done
  case h_1 => exact receive done
  case h_2 => exact receive done
  case h_3 =>
    obtain ⟨middle, form, taken⟩ := bind_eq_ok.mp done
    exact (rests_sendForm form).trans (rests_takeSend taken)
  case h_4 =>
    obtain rfl := pure_eq_ok.mp done
    exact .refl app

theorem rests_refreshPanel (done : refreshPanel crates frame app = .ok after) :
    Rests app after := by
  unfold refreshPanel at done
  split at done
  case isTrue =>
    obtain ⟨⟨state, seed, password⟩, entry⟩ := rests_rescan done
    exact ⟨⟨state, seed, password⟩, entry⟩
  case isFalse =>
    obtain rfl := pure_eq_ok.mp done
    exact ⟨⟨rfl, rfl, rfl⟩, rfl⟩

theorem rests_reconnectPanel (done : reconnectPanel crates frame app = .ok after) :
    Rests app after := by
  unfold reconnectPanel at done
  split at done
  case h_1 =>
    obtain rfl := pure_eq_ok.mp done
    exact .refl app
  case h_2 => cases done
  case h_3 =>
    obtain ⟨⟨state, seed, password⟩, entry⟩ := rests_rescan done
    exact ⟨⟨state, seed, password⟩, entry⟩

private theorem rests_mainPanel (done : mainPanel crates frame app = .ok after) : Rests app after :=
    by
  simp only [mainPanel, bind_eq_ok] at done
  obtain ⟨refreshed, refresh, reconnected, reconnect, tab⟩ := done
  have before := (rests_refreshPanel refresh).trans (rests_reconnectPanel reconnect)
  exact before.trans (rests_takeScan.trans (rests_tabPanel tab))

/-- The seed and the password of an app that opens. -/
structure Opens (seed : SeedBytes) (password : String) (after : LyrionWalletApp) : Prop where
  state : after.state = .main
  seed : after.seed = some seed
  password : after.password = password
  entry : after.tempPasswordInput = ""

theorem opens_openWallet {seed : SeedBytes} {password : String}
    (cleared : app.tempPasswordInput = "")
    (done : openWallet crates frame seed password app = .ok after) : Opens seed password after := by
  simp only [openWallet, bind_eq_ok, pure_eq_ok] at done
  obtain ⟨middle, height, scanned, scan, rfl⟩ := done
  obtain ⟨⟨-, seed, password⟩, entry⟩ :=
    (rests_loadCurrentHeight height).trans (rests_startScan scan)
  exact ⟨rfl, seed, password, entry.trans cleared⟩

private theorem unlockButton_cases {secretPw : String} (cleared : app.tempPasswordInput = "")
    (done : unlockButton crates disk frame secretPw app = .ok after) :
    Rests app after ∨ ∃ file seed, disk crates.walletFile = some file ∧
      decryptWallet crates secretPw file.bytes = .ok seed ∧ Opens seed secretPw after := by
  unfold unlockButton at done
  split at done
  case h_1 =>
    obtain rfl := pure_eq_ok.mp done
    exact Or.inl (.refl app)
  case h_2 file found =>
    split at done
    case h_1 seed decrypted =>
      exact Or.inr ⟨file, seed, found, decrypted, opens_openWallet cleared done⟩
    case h_2 => cases done
    case h_3 =>
      obtain rfl := pure_eq_ok.mp done
      exact Or.inl ⟨⟨rfl, rfl, rfl⟩, rfl⟩

private theorem passwordPanel_cases (done : passwordPanel crates disk frame app = .ok after) :
    Keeps app after ∧ Enters frame app after ∨
      ∃ file seed, disk crates.walletFile = some file ∧
        decryptWallet crates (frame.passwordInput.getD app.tempPasswordInput) file.bytes =
          .ok seed ∧
        Opens seed (frame.passwordInput.getD app.tempPasswordInput) after := by
  unfold passwordPanel at done
  split at done
  case isTrue =>
    rcases unlockButton_cases rfl done with ⟨⟨state, seed, password⟩, entry⟩ | opened
    · exact Or.inl ⟨⟨state, seed, password⟩, Or.inr (Or.inl entry)⟩
    · exact Or.inr opened
  case isFalse =>
    obtain rfl := pure_eq_ok.mp done
    refine Or.inl ⟨⟨rfl, rfl, rfl⟩, ?_⟩
    unfold Enters
    cases frame.passwordInput with
    | none => exact Or.inl rfl
    | some typed => exact Or.inr (Or.inr rfl)

private theorem confirmPanel_cases (done : confirmPanel crates frame app = .ok after) :
    after.state = app.state ∧ after.seed = app.seed ∨
      ∃ phrase seed password, app.mnemonic = some phrase ∧
        crates.seedOfPhrase phrase = some seed ∧ password ≠ "" ∧ Opens seed password after := by
  simp only [confirmPanel] at done
  split at done
  case isTrue asked =>
    generalize frame.passwordInput.getD app.tempPasswordInput = typed at asked done
    unfold confirmButton at done
    split at done
    case h_1 =>
      obtain rfl := pure_eq_ok.mp done
      exact Or.inl ⟨rfl, rfl⟩
    case h_2 seed read =>
      obtain ⟨phrase, held, parsed⟩ := Option.bind_eq_some_iff.mp read
      exact Or.inr ⟨phrase, seed, typed, held, parsed, asked.2.2, opens_openWallet rfl done⟩
  case isFalse =>
    obtain rfl := pure_eq_ok.mp done
    exact Or.inl ⟨rfl, rfl⟩

/-- What a frame can do, from the app after the top panel: change nothing of the three; set the
password on the way to a new wallet; open the wallet that the file holds for the password in the
field; or open the one of a phrase, which on the screen for a new wallet is that of this very
frame. -/
inductive Outcome (crates : Crates env) (disk : Disk) (frame : Frame)
    (app after : LyrionWalletApp) : Prop where
  | kept (keeps : Keeps app after) (entry : Enters frame app after)
  | named (screen : app.state = .createWallet ∨ app.state = .restoreWallet)
      (state : after.state = app.state) (seed : after.seed = app.seed)
  | unlocked (screen : app.state = .setupPassword) (file : File UInt8 Mark) (seed : SeedBytes)
      (found : disk crates.walletFile = some file)
      (decrypted : decryptWallet crates (frame.passwordInput.getD app.tempPasswordInput)
        file.bytes = .ok seed)
      (opens : Opens seed (frame.passwordInput.getD app.tempPasswordInput) after)
  | confirmed (screen : app.state = .createWallet ∨ app.state = .restoreWallet) (phrase : String)
      (seed : SeedBytes) (password : String)
      (shown : app.state = .createWallet → frame.phrase = some phrase)
      (parsed : crates.seedOfPhrase phrase = some seed) (typed : password ≠ "")
      (opens : Opens seed password after)

theorem update_cases (done : update crates disk frame app = .ok after) :
    Outcome crates disk frame (topPanel frame app) after := by
  unfold update at done
  generalize topPanel frame app = app at done
  unfold centralPanel at done
  have creation (screen : app.state = .createWallet ∨ app.state = .restoreWallet)
      (done : creationPanel crates frame app = .ok after) :
      Outcome crates disk frame app after := by
    unfold creationPanel at done
    split at done
    case isTrue =>
      split at done
      case h_1 =>
        obtain rfl := pure_eq_ok.mp done
        exact .kept (Rests.refl app).toKeeps (Or.inl rfl)
      case h_2 phrase given =>
        rcases confirmPanel_cases done with ⟨state, seed⟩ | ⟨_, seed, password, held, parsed, typed,
          opens⟩
        · exact .named screen state seed
        · obtain rfl := Option.some.inj held
          exact .confirmed screen phrase seed password (fun _ => given) parsed typed opens
    case isFalse other =>
      rcases confirmPanel_cases done with ⟨state, seed⟩ | ⟨phrase, seed, password, -, parsed, typed,
        opens⟩
      · exact .named screen state seed
      · exact .confirmed screen phrase seed password (fun here => absurd here other) parsed typed
          opens
  split at done
  case h_1 screen =>
    rcases passwordPanel_cases done with ⟨keeps, entry⟩ | ⟨file, seed, found, decrypted, opens⟩
    · exact .kept keeps entry
    · exact .unlocked screen file seed found decrypted opens
  case h_2 screen => exact creation (Or.inl screen) done
  case h_3 screen => exact creation (Or.inr screen) done
  case h_4 => exact .kept (rests_mainPanel done).toKeeps (Or.inl (rests_mainPanel done).entry)

end Steps

end Lyrion.Wallet.App
