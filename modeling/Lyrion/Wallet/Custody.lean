/- GID: Lyrion/Wallet/Custody
   digest: What becomes of the seed over the life of the wallet: in memory, and in its file after
     saves, locks and kills. -/

import Lyrion.Wallet.App

set_option autoImplicit false
set_option relaxedAutoImplicit false

namespace Lyrion.Wallet.App

open Library.ByteCodec Library.Files Library.Runs Data Utils Tx
open Lyrion.Utils.Secrets (Mark Disk)
open Node

variable {db : Db} {plaintext key ciphertext : Bytes}

/-! The life of the wallet. -/

/-- A save: what the generator gives, the number of effects after which it stops, if it does, and
whether the process ends there. -/
structure Saving where
  salt : Vector UInt8 32
  nonce : Vector UInt8 12
  reach : Option Nat
  dies : Bool

inductive Event where
  | start (db : Db)
  | frame (frame : Frame)
  | save (saving : Saving)
  | exit

inductive Machine where
  | down (disk : Disk)
  | up (app : LyrionWalletApp) (disk : Disk)

def Machine.disk : Machine → Disk
  | .down disk => disk
  | .up _ disk => disk

def Saving.left (saving : Saving) (effects : List Secrets.Effect) (disk : Disk) : Disk :=
  run apply disk (performed saving.reach effects)

section Life

variable {env : Env} (crates : Crates env)

def step (machine : Machine) (event : Event) : Machine :=
  match machine, event with
  | .down disk, .start db =>
      match new crates db disk with
      | .ok app => .up app disk
      | .error _ => .down disk
  | .down disk, _ => .down disk
  | .up app disk, .start _ => .up app disk
  | .up app disk, .frame frame =>
      match update crates disk frame app with
      | .ok after => .up after disk
      | .error _ => .down disk
  | .up app disk, .save saving =>
      match save crates saving.salt saving.nonce app with
      | .ok effects =>
          if saving.dies then .down (saving.left effects disk)
          else .up app (saving.left effects disk)
      | .error _ => .down disk
  | .up _ disk, .exit => .down disk

def life (disk : Disk) (events : List Event) : Machine := run (step crates) (.down disk) events

/-- What holds of a wallet that is down over some disk, and of every app that runs over one, if
starts, frames and saves keep it that are allowed. -/
structure Lasting (Allowed : Event → Prop) (Down : Disk → Prop)
    (Up : LyrionWalletApp → Disk → Prop) : Prop where
  down : ∀ app disk, Up app disk → Down disk
  started : ∀ db disk app, Down disk → new crates db disk = .ok app → Up app disk
  framed : ∀ frame disk app after, Allowed (.frame frame) → Up app disk →
    update crates disk frame app = .ok after → Up after disk
  saved : ∀ (saving : Saving) disk app effects, Allowed (.save saving) → Up app disk →
    save crates saving.salt saving.nonce app = .ok effects → Up app (saving.left effects disk)

def Machine.Satisfies (Down : Disk → Prop) (Up : LyrionWalletApp → Disk → Prop) : Machine → Prop
  | .down disk => Down disk
  | .up app disk => Up app disk

variable {crates} {Allowed : Event → Prop} {Down : Disk → Prop}
  {Up : LyrionWalletApp → Disk → Prop}

private theorem Lasting.step (lasting : Lasting crates Allowed Down Up) {machine : Machine}
    (holds : machine.Satisfies Down Up) {event : Event} (allowed : Allowed event) :
    (step crates machine event).Satisfies Down Up := by
  cases machine with
  | down disk =>
      cases event with
      | start db =>
          simp only [App.step]
          split
          case h_1 app started => exact lasting.started db disk app holds started
          case h_2 => exact holds
      | frame frame => exact holds
      | save saving => exact holds
      | exit => exact holds
  | up app disk =>
      cases event with
      | start db => exact holds
      | frame frame =>
          simp only [App.step]
          split
          case h_1 after updated => exact lasting.framed frame disk app after allowed holds updated
          case h_2 => exact lasting.down app disk holds
      | save saving =>
          simp only [App.step]
          split
          case h_1 effects written =>
            have kept := lasting.saved saving disk app effects allowed holds written
            split
            case isTrue => exact lasting.down app _ kept
            case isFalse => exact kept
          case h_2 => exact lasting.down app disk holds
      | exit => exact lasting.down app disk holds

private theorem Lasting.run (lasting : Lasting crates Allowed Down Up) {machine : Machine}
    (holds : machine.Satisfies Down Up) {events : List Event}
    (allowed : ∀ event ∈ events, Allowed event) :
    (run (App.step crates) machine events).Satisfies Down Up := by
  induction events generalizing machine with
  | nil => exact holds
  | cons event events ih =>
      obtain ⟨first, others⟩ := List.forall_mem_cons.mp allowed
      rw [run_cons]
      exact ih (lasting.step holds first) others

private theorem Lasting.life (lasting : Lasting crates Allowed Down Up) {disk : Disk}
    (start : Down disk) {events : List Event} (allowed : ∀ event ∈ events, Allowed event) :
    (life crates disk events).Satisfies Down Up := by
  have begun : (Machine.down disk).Satisfies Down Up := start
  exact lasting.run begun allowed

end Life

section Screens

variable {env : Env} {crates : Crates env} {disk : Disk} {frame : Frame}
  {app after : LyrionWalletApp}

/-- What holds of every app that runs: it is never restored, it is open only with a seed, a new one
has none yet, and on the password screen the password is the empty one. -/
structure Sound (app : LyrionWalletApp) : Prop where
  never_restored : app.state ≠ .restoreWallet
  open_seed : app.state = .main → app.seed.isSome = true
  new_seed : app.state = .createWallet → app.seed = none
  locked_password : app.state = .setupPassword → app.password = ""

private theorem new_cases (started : new crates db disk = .ok app) :
    app.seed = none ∧ app.password = "" ∧
      ((disk crates.walletFile).isSome = true ∧ app.state = .setupPassword ∨
        disk crates.walletFile = none ∧ app.state = .createWallet) := by
  obtain ⟨⟨state, seed, password⟩, -⟩ := rests_new started
  refine ⟨seed, password, ?_⟩
  rw [state]
  unfold initial
  cases disk crates.walletFile with
  | none => exact Or.inr ⟨rfl, rfl⟩
  | some file => exact Or.inl ⟨rfl, rfl⟩

private theorem sound_new (started : new crates db disk = .ok app) : Sound app := by
  obtain ⟨seed, password, ⟨-, state⟩ | ⟨-, state⟩⟩ := new_cases started
  · exact ⟨by simp [state], by simp [state], by simp [state], fun _ => password⟩
  · exact ⟨by simp [state], by simp [state], fun _ => seed, fun _ => password⟩

private theorem topPanel_seed : (topPanel frame app).seed = app.seed := by
  unfold topPanel
  cases frame.lock <;> cases frame.menuNewAddress <;> rfl

private theorem topPanel_entry : (topPanel frame app).tempPasswordInput = app.tempPasswordInput :=
    by
  unfold topPanel
  cases frame.lock <;> cases frame.menuNewAddress <;> rfl

private theorem topPanel_cases (frame : Frame) (app : LyrionWalletApp) :
    (topPanel frame app).state = .setupPassword ∧ (topPanel frame app).password = "" ∨
      (topPanel frame app).state = app.state ∧ (topPanel frame app).password = app.password := by
  unfold topPanel
  cases frame.lock with
  | true => exact Or.inl ⟨rfl, rfl⟩
  | false => cases frame.menuNewAddress <;> exact Or.inr ⟨rfl, rfl⟩

private theorem sound_topPanel (sound : Sound app) : Sound (topPanel frame app) := by
  rcases topPanel_cases frame app with ⟨state, password⟩ | ⟨state, password⟩
  · exact ⟨by simp [state], by simp [state], by simp [state], fun _ => password⟩
  · exact ⟨by rw [state]; exact sound.never_restored,
      by rw [state, topPanel_seed]; exact sound.open_seed,
      by rw [state, topPanel_seed]; exact sound.new_seed,
      by rw [state, password]; exact sound.locked_password⟩

private theorem Opens.sound {seed : SeedBytes} {password : String}
    (opens : Opens seed password after) :
    Sound after := by
  obtain ⟨state, seed, -, -⟩ := opens
  exact ⟨by simp [state], by simp [seed], by simp [state], by simp [state]⟩

private theorem sound_outcome (sound : Sound app) (outcome : Outcome crates disk frame app after) :
    Sound after := by
  cases outcome with
  | kept keeps _ =>
      obtain ⟨state, seed, password⟩ := keeps
      exact ⟨by rw [state]; exact sound.never_restored, by rw [state, seed]; exact sound.open_seed,
        by rw [state, seed]; exact sound.new_seed,
        by rw [state, password]; exact sound.locked_password⟩
  | named screen state seed =>
      have creating : app.state = .createWallet := screen.resolve_right sound.never_restored
      rw [creating] at state
      exact ⟨by simp [state], by simp [state], fun _ => seed.trans (sound.new_seed creating),
        by simp [state]⟩
  | unlocked screen file seed found decrypted opens => exact opens.sound
  | confirmed screen phrase seed password shown parsed typed opens => exact opens.sound

private theorem sound_update (sound : Sound app)
    (updated : update crates disk frame app = .ok after) :
    Sound after :=
  sound_outcome (sound_topPanel sound) (update_cases updated)

private theorem lasting_sound : Lasting crates (fun _ => True) (fun _ => True) fun app _ => Sound
    app where
  down _ _ _ := trivial
  started _ _ _ _ started := sound_new started
  framed _ _ _ _ _ sound updated := sound_update sound updated
  saved _ _ _ _ _ sound _ := sound

private theorem sound_of_running {left : Disk} {events : List Event}
    (running : life crates disk events = .up app left) : Sound app := by
  have sound : (life crates disk events).Satisfies (fun _ => True) fun app _ => Sound app :=
    lasting_sound.life trivial fun _ _ => trivial
  rw [running] at sound
  exact sound

end Screens

/-! The file of the wallet. -/

section Files

variable {env : Env} {crates : Crates env} {salt : Vector UInt8 32} {nonce : Vector UInt8 12}
  {password : String} {data : Bytes} {seed other : SeedBytes}

private theorem copySeed_eq_some : copySeed plaintext = some seed ↔ plaintext = seed.toList := by
  unfold copySeed
  constructor
  · intro copied
    split at copied
    case isTrue whole =>
      obtain rfl := Option.some.inj copied
      simp [Vector.toList]
    case isFalse => cases copied
  · rintro rfl
    simp [Vector.toList]

private theorem encryptWallet_eq_ok {held : Option SeedBytes} :
    encryptWallet crates salt nonce password held = .ok data ↔
      ∃ key seed ciphertext, crates.hashPasswordInto password salt.toList = some key ∧
        held = some seed ∧ crates.encrypt key nonce.toList seed.toList = some ciphertext ∧
        data = salt.toList ++ nonce.toList ++ ciphertext := by
  simp only [encryptWallet, bind_eq_ok, orFail_eq_ok, orPanic_eq_ok, pure_eq_ok]
  constructor
  · rintro ⟨key, hashed, seed, held, ciphertext, encrypted, rfl⟩
    exact ⟨key, seed, ciphertext, hashed, held, encrypted, rfl⟩
  · rintro ⟨key, seed, ciphertext, hashed, held, encrypted, rfl⟩
    exact ⟨key, hashed, seed, held, ciphertext, encrypted, rfl⟩

private theorem decryptWallet_eq_ok :
    decryptWallet crates password data = .ok seed ↔
      44 ≤ data.length ∧ ∃ key, crates.hashPasswordInto password (data.take 32) = some key ∧
        crates.encrypt key ((data.drop 32).take 12) seed.toList = some (data.drop 44) := by
  simp only [decryptWallet, fail_bind, guard_eq_ok, Nat.not_lt, bind_eq_ok, orFail_eq_ok,
    orPanic_eq_ok, copySeed_eq_some, crates.decrypt_eq_some]
  constructor
  · rintro ⟨enough, key, hashed, plaintext, encrypted, rfl⟩
    exact ⟨enough, key, hashed, encrypted⟩
  · rintro ⟨enough, key, hashed, encrypted⟩
    exact ⟨enough, key, hashed, _, encrypted, rfl⟩

private theorem length_of_decryptWallet
    (decrypted : decryptWallet crates password data = .ok seed) :
    data.length = 124 := by
  obtain ⟨enough, key, -, encrypted⟩ := decryptWallet_eq_ok.mp decrypted
  have length := crates.length_encrypt _ _ _ _ encrypted
  rw [List.length_drop, Vector.length_toList] at length
  omega

private theorem length_of_encryptWallet {held : Option SeedBytes}
    (encrypted : encryptWallet crates salt nonce password held = .ok data) : data.length = 124 := by
  obtain ⟨key, seed, ciphertext, -, -, sealed, rfl⟩ := encryptWallet_eq_ok.mp encrypted
  have length := crates.length_encrypt _ _ _ _ sealed
  simp only [List.length_append, Vector.length_toList, length]

private theorem decryptWallet_encrypted
    (encrypted : encryptWallet crates salt nonce password (some seed) = .ok data) :
    decryptWallet crates password data = .ok seed := by
  obtain ⟨key, held, ciphertext, hashed, same, sealed, rfl⟩ := encryptWallet_eq_ok.mp encrypted
  obtain rfl := Option.some.inj same
  have front : (salt.toList ++ nonce.toList ++ ciphertext).take 32 = salt.toList := by
    rw [List.append_assoc, List.take_left' Vector.length_toList]
  have middle : ((salt.toList ++ nonce.toList ++ ciphertext).drop 32).take 12 = nonce.toList := by
    rw [List.append_assoc, List.drop_left' Vector.length_toList,
      List.take_left' Vector.length_toList]
  have back : (salt.toList ++ nonce.toList ++ ciphertext).drop 44 = ciphertext := by
    rw [List.drop_left' (by simp)]
  refine decryptWallet_eq_ok.mpr ⟨?_, key, by rwa [front], by rwa [middle, back]⟩
  simp only [List.length_append, Vector.length_toList]
  omega

private theorem save_cases {app : LyrionWalletApp} {effects : List Secrets.Effect}
    (saved : save crates salt nonce app = .ok effects) :
    effects = [] ∨ ∃ data, encryptWallet crates salt nonce app.password app.seed = .ok data ∧
      effects = writing crates.walletFile crates.mark data := by
  unfold save at saved
  split at saved
  case h_1 data encrypted => exact Or.inr ⟨data, encrypted, (pure_eq_ok.mp saved).symm⟩
  case h_2 => cases saved
  case h_3 => exact Or.inl (pure_eq_ok.mp saved).symm

private theorem Saving.left_cases {saving : Saving} {disk : Disk} {app : LyrionWalletApp}
    {effects : List Secrets.Effect}
    (saved : save crates saving.salt saving.nonce app = .ok effects) :
    saving.left effects disk crates.walletFile = disk crates.walletFile ∨
      ∃ data front mark,
        encryptWallet crates saving.salt saving.nonce app.password app.seed = .ok data ∧
        front <+: data ∧ saving.left effects disk crates.walletFile = some ⟨front, mark⟩ := by
  unfold Saving.left
  rcases save_cases saved with rfl | ⟨data, encrypted, rfl⟩
  · rw [performed_nil]
    exact Or.inl rfl
  · rcases performed_writing saving.reach data with nothing | ⟨front, shorter, written⟩
    · rw [nothing]
      exact Or.inl rfl
    · rw [written, run_writing]
      exact Or.inr ⟨data, front, _, encrypted, shorter, rfl⟩

end Files

/-! How a frame can fail. -/

section Faults

def Fails {α : Type} (P : Fault → Prop) (x : Result α) : Prop := ∀ e, x = .error e → P e

namespace Fails

variable {α β : Type} {P : Fault → Prop}

private theorem pure (a : α) : Fails P (pure a : Result α) := fun _ failed => by cases failed

private theorem bind {x : Result α} {f : α → Result β} (first : Fails P x)
    (second : ∀ a, x = .ok a → Fails P (f a)) : Fails P (x >>= f) := by
  intro e failed
  cases x with
  | error e' =>
      obtain rfl := Except.error.inj failed
      exact first e' rfl
  | ok a => exact second a rfl e failed

private theorem error {e : Fault} (allowed : P e) : Fails P (.error e : Result α) := by
  intro e' failed
  obtain rfl := Except.error.inj failed
  exact allowed

private theorem orFail {c : ChainError} {o : Option α} (allowed : P (.error c)) :
    Fails P (orFail c o) := by
  cases o with
  | none => exact error allowed
  | some a => exact pure a

private theorem orPanic {place : String} {o : Option α} (allowed : o = none → P (.panic place)) :
    Fails P (orPanic place o) := by
  cases o with
  | none => exact error (allowed rfl)
  | some a => exact pure a

end Fails

variable {env : Env} {crates : Crates env} {disk : Disk} {frame : Frame} {app : LyrionWalletApp}
  {seed : SeedBytes}

/-- The panics of a frame that come from outside: a stored height or an answer of the node that is
too short, a database that does not open, a decrypted text of the wrong length. -/
def OuterPanic (fault : Fault) : Prop :=
  fault ∈ [.panic "height", .panic "body[4..]", .panic "open_as_secondary",
    .panic "copy_from_slice"]

private theorem fails_loadCurrentHeight : Fails OuterPanic (loadCurrentHeight app) := by
  unfold loadCurrentHeight
  split
  case h_1 => exact .pure app
  case h_2 =>
    split
    case isTrue => exact .error (by simp [OuterPanic])
    case isFalse => exact .pure _

private theorem fails_mempoolTxs {body : Option Bytes} : Fails OuterPanic (mempoolTxs body) := by
  unfold mempoolTxs
  split
  case h_1 => exact .pure []
  case h_2 =>
    split
    case isTrue => exact .error (by simp [OuterPanic])
    case isFalse => exact .pure _

private theorem fails_startScan (held : app.seed = some seed) :
    Fails OuterPanic (startScan crates frame app) :=
  .bind (.orPanic fun missing => absurd (held.symm.trans missing) (by simp)) fun _ _ =>
    .bind fails_mempoolTxs fun _ _ => .pure _

private theorem fails_rescan (held : app.seed = some seed) :
    Fails OuterPanic (do
      let app ← loadCurrentHeight app
      startScan crates frame app) :=
  .bind fails_loadCurrentHeight fun _ height =>
    fails_startScan ((rests_loadCurrentHeight height).seed.trans held)

private theorem fails_openWallet {password : String} :
    Fails OuterPanic (openWallet crates frame seed password app) :=
  .bind fails_loadCurrentHeight fun _ height =>
    .bind (fails_startScan (rests_loadCurrentHeight height).seed) fun _ _ => .pure _

private theorem fails_decryptWallet {password : String} {data : Bytes} :
    Fails (fun e => ∀ place, e = .panic place → OuterPanic e)
      (decryptWallet crates password data) := by
  unfold decryptWallet
  split
  case isTrue => exact .error (by simp)
  case isFalse =>
    refine .bind (.orFail (by simp)) fun key _ => .bind (.orFail (by simp)) fun plaintext _ => ?_
    exact .orPanic fun _ place _ => by simp [OuterPanic]

private theorem fails_unlockButton {secretPw : String} :
    Fails OuterPanic (unlockButton crates disk frame secretPw app) := by
  unfold unlockButton
  split
  case h_1 => exact .pure app
  case h_2 =>
    split
    case h_1 => exact fails_openWallet
    case h_2 place failed => exact .error (fails_decryptWallet _ failed place rfl)
    case h_3 => exact .pure _

private theorem fails_confirmPanel : Fails OuterPanic (confirmPanel crates frame app) := by
  simp only [confirmPanel]
  split
  case isTrue =>
    unfold confirmButton
    split
    case h_1 => exact .pure _
    case h_2 => exact fails_openWallet
  case isFalse => exact .pure _

private theorem fails_tabPanel (held : app.seed = some seed) :
    Fails OuterPanic (tabPanel crates frame app) := by
  unfold tabPanel
  split
  case h_1 => exact .pure _
  case h_2 => exact .pure _
  case h_3 =>
    refine .bind ?_ fun form sent => ?_
    · unfold sendForm sendButton
      split
      case h_1 =>
        refine .bind (.orPanic fun missing => ?_) fun _ _ => .pure _
        exact absurd (held.symm.trans missing) (by simp)
      case h_2 => exact .pure _
    · unfold takeSend
      split
      case h_1 => exact .pure _
      case h_2 promise _ =>
        split
        case isTrue =>
          cases promise.result with
          | ok sending => exact fails_startScan ((rests_sendForm sent).seed.trans held)
          | error fault => exact .pure _
        case isFalse => exact .pure _
  case h_4 => exact .pure app

private theorem fails_mainPanel (held : app.seed = some seed) :
    Fails OuterPanic (mainPanel crates frame app) := by
  refine .bind ?_ fun refreshed refresh => .bind ?_ fun reconnected reconnect => ?_
  · unfold refreshPanel
    split
    case isTrue => exact fails_rescan held
    case isFalse => exact .pure _
  · unfold reconnectPanel
    split
    case h_1 => exact .pure _
    case h_2 => exact .error (by simp [OuterPanic])
    case h_3 => exact fails_rescan ((rests_refreshPanel refresh).seed.trans held)
  · have before := (rests_refreshPanel refresh).trans (rests_reconnectPanel reconnect)
    exact fails_tabPanel ((before.trans rests_takeScan).seed.trans held)

private theorem fails_update (sound : Sound app) : Fails OuterPanic
    (update crates disk frame app) := by
  have panel : Sound (topPanel frame app) := sound_topPanel sound
  unfold update centralPanel
  generalize topPanel frame app = app at panel
  split
  case h_1 =>
    unfold passwordPanel
    split
    case isTrue => exact fails_unlockButton
    case isFalse => exact .pure _
  case h_2 screen =>
    rw [creationPanel, if_pos screen]
    cases frame.phrase with
    | none => exact .pure _
    | some phrase => exact fails_confirmPanel
  case h_3 screen => exact absurd screen panel.never_restored
  case h_4 screen =>
    obtain ⟨seed, held⟩ := Option.isSome_iff_exists.mp (panel.open_seed screen)
    exact fails_mainPanel held

private theorem phrase_of_seed {after : LyrionWalletApp} (sound : Sound app)
    (creating : app.state = .createWallet) (staying : frame.lock = false)
    (updated : update crates disk frame app = .ok after) (held : after.seed = some seed) :
    ∃ phrase, frame.phrase = some phrase ∧ crates.seedOfPhrase phrase = some seed := by
  have unseeded : (topPanel frame app).seed = none := topPanel_seed.trans (sound.new_seed creating)
  have screen : (topPanel frame app).state = .createWallet := by
    unfold topPanel
    rw [staying]
    cases frame.menuNewAddress <;> exact creating
  cases update_cases updated with
  | kept keeps _ => exact absurd (held.symm.trans (keeps.seed.trans unseeded)) (by simp)
  | named _ state same => exact absurd (held.symm.trans (same.trans unseeded)) (by simp)
  | unlocked locked => exact absurd (screen.symm.trans locked) (by simp)
  | confirmed _ phrase other password shown parsed typed opens =>
      obtain rfl := Option.some.inj (held.symm.trans opens.seed)
      exact ⟨phrase, shown screen, parsed⟩

private theorem save_panics_iff {salt : Vector UInt8 32} {nonce : Vector UInt8 12} {fault : Fault} :
    save crates salt nonce app = .error fault ↔
      fault = .panic "seed" ∧ app.seed = none ∧
        (crates.hashPasswordInto app.password salt.toList).isSome = true := by
  unfold save encryptWallet
  cases crates.hashPasswordInto app.password salt.toList with
  | none => simp [orFail, fail, Bind.bind, Except.bind, Pure.pure, Except.pure]
  | some key =>
      cases app.seed with
      | none => simp [orFail, orPanic, Bind.bind, Except.bind, eq_comm]
      | some seed =>
          simp only [orFail, orPanic, ok_bind]
          cases crates.encrypt key nonce.toList seed.toList with
          | none => simp [fail, Bind.bind, Except.bind, Pure.pure, Except.pure]
          | some ciphertext => simp [Bind.bind, Except.bind, Pure.pure, Except.pure]

end Faults

/-! A wallet to try the results on, with a cipher that appends its key. -/

def sampleEncrypt (key plaintext : Bytes) : Option Bytes :=
  match key with
  | [k] => some (plaintext ++ k :: List.replicate 15 0)
  | _ => none

def sampleDecrypt (key ciphertext : Bytes) : Option Bytes :=
  if sampleEncrypt key (ciphertext.take (ciphertext.length - 16)) = some ciphertext then
    some (ciphertext.take (ciphertext.length - 16))
  else none

private theorem sampleEncrypt_eq_some :
    sampleEncrypt key plaintext = some ciphertext ↔
      ∃ k, key = [k] ∧ ciphertext = plaintext ++ k :: List.replicate 15 0 := by
  unfold sampleEncrypt
  split
  case h_1 k => simp [eq_comm]
  case h_2 other => simpa using fun k same => absurd same (other k)

private theorem sampleEncrypt_length (sealed : sampleEncrypt key plaintext = some ciphertext) :
    ciphertext.length = plaintext.length + 16 := by
  obtain ⟨k, -, rfl⟩ := sampleEncrypt_eq_some.mp sealed
  simp

private theorem sampleDecrypt_eq_some :
    sampleDecrypt key ciphertext = some plaintext ↔
      sampleEncrypt key plaintext = some ciphertext := by
  unfold sampleDecrypt
  constructor
  · intro opened
    split at opened
    case isTrue sealed =>
      obtain rfl := Option.some.inj opened
      exact sealed
    case isFalse => cases opened
  · intro sealed
    have length := sampleEncrypt_length sealed
    obtain ⟨k, rfl, rfl⟩ := sampleEncrypt_eq_some.mp sealed
    have front : (plaintext ++ k :: List.replicate 15 0).take
        ((plaintext ++ k :: List.replicate 15 0).length - 16) = plaintext := by
      rw [length, Nat.add_sub_cancel, List.take_left]
    rw [front, if_pos sealed]

def sampleVault : Crates sampleCurve where
  hashPasswordInto password _ :=
    if password = "" then some [0] else if password = "secret" then some [1] else none
  encrypt key _ plaintext := sampleEncrypt key plaintext
  decrypt key _ ciphertext := sampleDecrypt key ciphertext
  decrypt_eq_some _ _ _ _ := sampleDecrypt_eq_some
  length_encrypt _ _ _ _ := sampleEncrypt_length
  seedOfPhrase phrase := some (Vector.replicate 64 (UInt8.ofNat phrase.length))
  readSeed _ := sampleSeed
  addressToPubkeyHash := sampleAddress
  order := sampleOrder
  scanMempool _ _ := []
  sendTransactionTask _ _ _ _ _ _ := .ok ("", true)
  anonAddress _ := none
  walletFile := "wallet"
  anonFile := "anon"
  mark := ⟨0, 0o600⟩

private theorem sampleVault_unique {password again : String} {data : Bytes} {seed other : SeedBytes}
    (decrypted : decryptWallet sampleVault password data = .ok seed)
    (twice : decryptWallet sampleVault again data = .ok other) : again = password := by
  obtain ⟨-, key, hashed, sealed⟩ := decryptWallet_eq_ok.mp decrypted
  obtain ⟨-, key', hashed', sealed'⟩ := decryptWallet_eq_ok.mp twice
  obtain ⟨k, rfl, same⟩ := sampleEncrypt_eq_some.mp sealed
  obtain ⟨k', rfl, same'⟩ := sampleEncrypt_eq_some.mp sealed'
  obtain ⟨-, tail⟩ := List.append_inj' (same.symm.trans same') (by simp)
  obtain rfl : k = k' := (List.cons.inj tail).1
  simp only [sampleVault] at hashed hashed'
  split at hashed
  all_goals split at hashed'
  all_goals grind

def sampleIdle : Frame where
  menuNewAddress := false
  lock := false
  passwordInput := none
  passwordConfirm := none
  unlock := false
  phrase := some "abandon"
  mnemonicInput := none
  confirm := false
  tab := none
  refresh := false
  reconnect := none
  newAddress := false
  toInput := none
  amountInput := none
  feeInput := none
  send := false
  mempoolBody := none
  scanDone := false
  sendDone := false

def sampleLocked : List Event :=
  [.start emptyDb,
    .frame { sampleIdle with
      passwordInput := some "secret", passwordConfirm := some "secret", confirm := true },
    .frame { sampleIdle with lock := true }]

def sampleSaving (reach : Option Nat) (dies : Bool) : Saving :=
  ⟨Vector.replicate 32 1, Vector.replicate 12 2, reach, dies⟩

/-- The state and the seed of an app that runs, and whether it can save. -/
def Machine.summary (machine : Machine) : Option (AppState × Option SeedBytes × Bool) :=
  match machine with
  | .down _ => none
  | .up app _ => some (app.state, app.seed,
      (encryptWallet sampleVault (Vector.replicate 32 1) (Vector.replicate 12 2) app.password
        app.seed).isOk)

private theorem sampleLocked_running :
    ∃ app left, life sampleVault (fun _ => none) sampleLocked = .up app left ∧
      app.state = .setupPassword ∧ app.seed = some (Vector.replicate 64 7) ∧
      (encryptWallet sampleVault (Vector.replicate 32 1) (Vector.replicate 12 2) app.password
        app.seed).isOk = true := by
  have evaluated : (life sampleVault (fun _ => none) sampleLocked).summary =
      some (.setupPassword, some (Vector.replicate 64 7), true) := by decide +kernel
  cases running : life sampleVault (fun _ => none) sampleLocked with
  | down left =>
      rw [running] at evaluated
      cases evaluated
  | up app left =>
      rw [running] at evaluated
      obtain ⟨state, rest⟩ := Prod.mk.inj (Option.some.inj evaluated)
      obtain ⟨seed, works⟩ := Prod.mk.inj rest
      exact ⟨app, left, rfl, state, seed, works⟩

section Results

variable {env : Env} (crates : Crates env)

/-- Over every life of a wallet, on any disk: an app that runs is open only with a seed, no `unwrap`
of the seed in a frame fails, and a save ends the process exactly when there is no seed yet. -/
theorem running_wallet_is_sound (disk : Disk) (events : List Event) :
    (life crates disk events).Satisfies (fun _ => True) fun app left =>
      Sound app ∧ (∀ frame, Fails OuterPanic (update crates left frame app)) ∧
      (∀ frame after seed, app.state = .createWallet → frame.lock = false →
        update crates left frame app = .ok after → after.seed = some seed →
          ∃ phrase, frame.phrase = some phrase ∧ crates.seedOfPhrase phrase = some seed) ∧
      ∀ salt nonce fault, save crates salt nonce app = .error fault ↔
        fault = .panic "seed" ∧ app.seed = none ∧
          (crates.hashPasswordInto app.password salt.toList).isSome = true := by
  cases running : life crates disk events with
  | down left => trivial
  | up app left =>
      have sound := sound_of_running running
      refine ⟨sound, fun frame => fails_update sound, ?_, fun _ _ _ => save_panics_iff⟩
      intro frame after seed creating staying updated held
      exact phrase_of_seed sound creating staying updated held

/-- The passwords of a run: the right one, the empty one, and those that are typed. -/
def passwords (password : String) (events : List Event) : List String :=
  password :: "" :: events.filterMap fun event =>
    match event with
    | .frame frame => frame.passwordInput
    | _ => none

/-- A wrong password is refused: none of the run but the right one opens the file that the wallet
was found with, or what a save of the run writes. -/
structure Authentic (seed : SeedBytes) (password : String) (file : Bytes) (events : List Event) :
    Prop where
  found : ∀ wrong ∈ passwords password events, wrong ≠ password →
    ∀ other, decryptWallet crates wrong file ≠ .ok other
  saved : ∀ saving, Event.save saving ∈ events → ∀ right ∈ passwords password events, ∀ data,
    encryptWallet crates saving.salt saving.nonce right (some seed) = .ok data →
      ∀ wrong ∈ passwords password events, wrong ≠ right →
        ∀ other, decryptWallet crates wrong data ≠ .ok other

/-- The file of a wallet is there. It opens for this seed with one of some passwords, unless a save
has not come to its end; and it opens with none of them for another seed. -/
def Holds (seed : SeedBytes) (known : List String) (disk : Disk) : Prop :=
  ∃ file, disk crates.walletFile = some file ∧
    (file.bytes.length < 124 ∨
      ∃ password ∈ known, decryptWallet crates password file.bytes = .ok seed) ∧
    ∀ password ∈ known, ∀ other, decryptWallet crates password file.bytes = .ok other → other = seed

/-- An event that brings no password but the known ones, and no salt and nonce under which a wrong
one of them would do. -/
def Careful (seed : SeedBytes) (known : List String) : Event → Prop
  | .frame frame => ∀ typed, frame.passwordInput = some typed → typed ∈ known
  | .save saving => ∀ right ∈ known, ∀ data,
      encryptWallet crates saving.salt saving.nonce right (some seed) = .ok data →
        ∀ wrong ∈ known, wrong ≠ right → ∀ other, decryptWallet crates wrong data ≠ .ok other
  | _ => True

structure Loyal (seed : SeedBytes) (known : List String) (app : LyrionWalletApp) : Prop where
  seed : app.seed = none ∨ app.seed = some seed
  password : app.password ∈ known
  entry : app.tempPasswordInput ∈ known
  created : app.state ≠ .createWallet
  restored : app.state ≠ .restoreWallet

variable {crates} {seed : SeedBytes} {known : List String}

private theorem holds_of_written {saving : Saving}
    (careful : Careful crates seed known (.save saving)) {password : String}
    (used : password ∈ known) {data front : Bytes} {mark : Mark} {disk : Disk}
    (encrypted : encryptWallet crates saving.salt saving.nonce password (some seed) = .ok data)
    (shorter : front <+: data) (written : disk crates.walletFile = some ⟨front, mark⟩) :
    Holds crates seed known disk := by
  have right := decryptWallet_encrypted encrypted
  have length := length_of_encryptWallet encrypted
  refine ⟨_, written, ?_, fun password' member other decrypted => ?_⟩
  · rcases Nat.lt_or_ge front.length 124 with torn | whole
    · exact Or.inl torn
    · obtain rfl := shorter.eq_of_length (le_antisymm shorter.length_le (length ▸ whole))
      exact Or.inr ⟨password, used, right⟩
  · have lengths : front.length = data.length :=
      (length_of_decryptWallet decrypted).trans length.symm
    obtain rfl := shorter.eq_of_length lengths
    by_cases same : password' = password
    · subst same
      exact Except.ok.inj (decrypted.symm.trans right)
    · exact absurd decrypted (careful password used front encrypted password' member same other)

private theorem loyal_started {disk : Disk} {app : LyrionWalletApp} (empty : "" ∈ known)
    (there : (disk crates.walletFile).isSome = true) (started : new crates db disk = .ok app) :
    Loyal seed known app := by
  have entry : app.tempPasswordInput = "" := (rests_new started).entry
  obtain ⟨unseeded, password, ⟨-, state⟩ | ⟨missing, -⟩⟩ := new_cases started
  · exact ⟨Or.inl unseeded, password ▸ empty, entry ▸ empty, by simp [state], by simp [state]⟩
  · simp [missing] at there

private theorem loyal_topPanel (frame : Frame) {app : LyrionWalletApp} (empty : "" ∈ known)
    (loyal : Loyal seed known app) : Loyal seed known (topPanel frame app) := by
  have kept : (topPanel frame app).seed = none ∨ (topPanel frame app).seed = some seed := by
    rw [topPanel_seed]
    exact loyal.seed
  have entry : (topPanel frame app).tempPasswordInput ∈ known := by
    rw [topPanel_entry]
    exact loyal.entry
  rcases topPanel_cases frame app with ⟨state, password⟩ | ⟨state, password⟩
  · exact ⟨kept, password ▸ empty, entry, by simp [state], by simp [state]⟩
  · exact ⟨kept, password ▸ loyal.password, entry, state ▸ loyal.created, state ▸ loyal.restored⟩

private theorem loyal_update {frame : Frame} {app after : LyrionWalletApp} {disk : Disk}
    (empty : "" ∈ known) (careful : Careful crates seed known (.frame frame))
    (holds : Holds crates seed known disk) (loyal : Loyal seed known app)
    (updated : update crates disk frame app = .ok after) : Loyal seed known after := by
  have screen := loyal_topPanel frame empty loyal
  cases update_cases updated with
  | kept keeps entry =>
      refine ⟨keeps.seed ▸ screen.seed, keeps.password ▸ screen.password, ?_,
        keeps.state ▸ screen.created, keeps.state ▸ screen.restored⟩
      rcases entry with same | cleared | typed
      · exact same ▸ screen.entry
      · exact cleared ▸ empty
      · exact careful _ typed
  | named here => exact absurd here (not_or.mpr ⟨screen.created, screen.restored⟩)
  | confirmed here => exact absurd here (not_or.mpr ⟨screen.created, screen.restored⟩)
  | unlocked _ file other found decrypted opens =>
      have asked : frame.passwordInput.getD (topPanel frame app).tempPasswordInput ∈ known := by
        cases typed : frame.passwordInput with
        | none => exact screen.entry
        | some text => exact careful text typed
      obtain ⟨file', found', -, unique⟩ := holds
      obtain rfl := Option.some.inj (found.symm.trans found')
      obtain rfl := unique _ asked other decrypted
      exact ⟨Or.inr opens.seed, opens.password ▸ asked, opens.entry ▸ empty, by simp [opens.state],
        by simp [opens.state]⟩

private theorem lasting_holds (empty : "" ∈ known) :
    Lasting crates (Careful crates seed known) (Holds crates seed known) fun app disk =>
      Holds crates seed known disk ∧ Loyal seed known app where
  down _ _ holds := holds.1
  started db disk app holds started := by
    have ⟨file, found, _⟩ := holds
    exact ⟨holds, loyal_started empty (by rw [found]; rfl) started⟩
  framed frame disk app after careful holds updated :=
    ⟨holds.1, loyal_update empty careful holds.1 holds.2 updated⟩
  saved saving disk app effects careful holds saved := by
    obtain ⟨⟨file, found, rest⟩, loyal⟩ := holds
    refine ⟨?_, loyal⟩
    rcases Saving.left_cases saved with same | ⟨data, front, mark, encrypted, shorter, written⟩
    · exact ⟨file, same.trans found, rest⟩
    · rcases loyal.seed with unseeded | seeded
      · rw [unseeded] at encrypted
        obtain ⟨_, _, _, -, missing, -⟩ := encryptWallet_eq_ok.mp encrypted
        cases missing
      · rw [seeded] at encrypted
        exact holds_of_written careful loyal.password encrypted shorter written

private theorem Authentic.careful {password : String} {file : Bytes} {events : List Event}
    (authentic : Authentic crates seed password file events) {event : Event}
    (member : event ∈ events) : Careful crates seed (passwords password events) event := by
  cases event with
  | start db => trivial
  | exit => trivial
  | save saving => exact authentic.saved saving member
  | frame frame =>
      intro typed given
      refine List.mem_cons_of_mem _ (List.mem_cons_of_mem _ (List.mem_filterMap.mpr ?_))
      exact ⟨.frame frame, member, given⟩

private theorem sampleVault_authentic {password : String} {file : Bytes} (events : List Event)
    (decrypted : decryptWallet sampleVault password file = .ok seed) :
    Authentic sampleVault seed password file events where
  found _ _ different _ opened := different (sampleVault_unique decrypted opened)
  saved _ _ _ _ _ encrypted _ _ different _ opened :=
    different (sampleVault_unique (decryptWallet_encrypted encrypted) opened)

/-- A wallet is unlocked with its password, locked and saved, and asked again with that password,
which is no longer the right one. -/
def sampleReopened : List Event :=
  [.start emptyDb, .frame { sampleIdle with passwordInput := some "secret", unlock := true },
    .frame { sampleIdle with lock := true }, .save (sampleSaving none true), .start emptyDb,
    .frame { sampleIdle with passwordInput := some "secret", unlock := true }]

private theorem left_of_saved {disk left : Disk} {events : List Event} {app : LyrionWalletApp}
    (running : life crates disk events = .up app left) {saving : Saving} {data : Bytes}
    (encrypted : encryptWallet crates saving.salt saving.nonce app.password app.seed = .ok data) :
    life crates disk (events ++ [.save saving]) =
      if saving.dies then
        .down (saving.left (writing crates.walletFile crates.mark data) left)
      else .up app (saving.left (writing crates.walletFile crates.mark data) left) := by
  have saved : save crates saving.salt saving.nonce app =
      .ok (writing crates.walletFile crates.mark data) := by
    unfold save
    rw [encrypted]
    rfl
  unfold life at running ⊢
  rw [run_concat, running]
  simp only [App.step, saved]

private theorem unlocks_untyped {disk : Disk} {file : File UInt8 Mark} {app after : LyrionWalletApp}
    {frame : Frame} (found : disk crates.walletFile = some file)
    (opens : decryptWallet crates "" file.bytes = .ok seed) (started : new crates db disk = .ok app)
    (untyped : frame.passwordInput = none) (asked : frame.unlock = true)
    (updated : update crates disk frame app = .ok after) :
    after.state = .main ∧ after.seed = some seed := by
  have entry : app.tempPasswordInput = "" := (rests_new started).entry
  have state : app.state = .setupPassword := by
    obtain ⟨-, -, ⟨-, state⟩ | ⟨missing, -⟩⟩ := new_cases started
    · exact state
    · exact absurd (found.symm.trans missing) (by simp)
  have screen : (topPanel frame app).state = .setupPassword := by
    rcases topPanel_cases frame app with ⟨locked, -⟩ | ⟨same, -⟩
    · exact locked
    · exact same.trans state
  unfold update centralPanel at updated
  rw [screen] at updated
  simp only [passwordPanel, asked, untyped, Option.getD_none, topPanel_entry, entry, if_true,
    unlockButton, found, opens] at updated
  have opened := opens_openWallet rfl updated
  exact ⟨opened.state, opened.seed⟩

/-- Locking gives the wallet away. An app on the password screen that still has the seed writes it
with the empty password, and every app that is started over the file then opens without a word. -/
theorem locked_wallet_opens_without_password (disk left : Disk) (events : List Event)
    (app : LyrionWalletApp) (running : life crates disk events = .up app left)
    (locked : app.state = .setupPassword) (held : app.seed = some seed) (saving : Saving)
    (whole : saving.reach = none)
    (works : (encryptWallet crates saving.salt saving.nonce app.password app.seed).isOk = true) :
    (∃ file, (life crates disk (events ++ [.save saving])).disk crates.walletFile = some file ∧
      decryptWallet crates "" file.bytes = .ok seed) ∧
    ∀ db next frame after, new crates db (life crates disk (events ++ [.save saving])).disk =
        .ok next → frame.passwordInput = none → frame.unlock = true →
      update crates (life crates disk (events ++ [.save saving])).disk frame next = .ok after →
        after.state = .main ∧ after.seed = some seed := by
  have sound := sound_of_running running
  obtain ⟨data, encrypted⟩ := exists_of_isOk works
  have written : (life crates disk (events ++ [.save saving])).disk crates.walletFile =
      some ⟨data, ((left crates.walletFile).map File.mark).getD crates.mark⟩ := by
    rw [left_of_saved running encrypted, Saving.left, whole]
    cases saving.dies <;> exact run_writing data
  rw [sound.locked_password locked, held] at encrypted
  have opens := decryptWallet_encrypted encrypted
  refine ⟨⟨_, written, opens⟩, ?_⟩
  intro db next frame after started untyped asked updated
  exact unlocks_untyped written opens started untyped asked updated

theorem sampleLocked_opens :
    ∃ file, (life sampleVault (fun _ => none)
        (sampleLocked ++ [.save (sampleSaving none false)])).disk "wallet" = some file ∧
      decryptWallet sampleVault "" file.bytes = .ok (Vector.replicate 64 7) := by
  obtain ⟨app, left, running, locked, held, works⟩ := sampleLocked_running
  exact (locked_wallet_opens_without_password _ left sampleLocked app running locked held
    (sampleSaving none false) rfl works).1

private theorem lasting_torn {file : File UInt8 Mark} (torn : file.bytes.length ≠ 124) :
    Lasting crates (fun _ => True) (fun disk => disk crates.walletFile = some file) fun app disk =>
      disk crates.walletFile = some file ∧ app.seed = none ∧ app.state = .setupPassword where
  down _ _ holds := holds.1
  started db disk app found started := by
  -- No password opens a file of the wrong length, so there is never a seed that could be saved.
    obtain ⟨unseeded, -, ⟨-, state⟩ | ⟨missing, -⟩⟩ := new_cases started
    · exact ⟨found, unseeded, state⟩
    · exact absurd (found.symm.trans missing) (by simp)
  framed frame disk app after _ holds updated := by
    obtain ⟨found, unseeded, locked⟩ := holds
    have screen : (topPanel frame app).state = .setupPassword := by
      rcases topPanel_cases frame app with ⟨state, -⟩ | ⟨state, -⟩
      · exact state
      · exact state.trans locked
    cases update_cases updated with
    | kept keeps _ =>
        exact ⟨found, (keeps.seed.trans topPanel_seed).trans unseeded, keeps.state.trans screen⟩
    | named here => exact absurd here (by simp [screen])
    | confirmed here => exact absurd here (by simp [screen])
    | unlocked _ file' other found' decrypted opens =>
        obtain rfl := Option.some.inj (found.symm.trans found')
        exact absurd (length_of_decryptWallet decrypted) torn
  saved saving disk app effects _ holds saved := by
    obtain ⟨found, unseeded, locked⟩ := holds
    refine ⟨?_, unseeded, locked⟩
    rcases Saving.left_cases saved with same | ⟨data, front, mark, encrypted, -⟩
    · exact same.trans found
    · rw [unseeded] at encrypted
      obtain ⟨_, _, _, -, missing, -⟩ := encryptWallet_eq_ok.mp encrypted
      cases missing

end Results

end Lyrion.Wallet.App
