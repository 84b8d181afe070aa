/- GID: Lyrion/Utils/Secrets
   digest: The files that keep secrets: what saves leave on the disk when any of them fails or is
     cut off, and what can be loaded again. -/

import Lyrion.Data
import Lyrion.Library.Files

set_option autoImplicit false
set_option relaxedAutoImplicit false

namespace Lyrion.Utils.Secrets

open Library.ByteCodec Library.Files Library.Runs

structure Mark where
  uid : Nat
  mode : Nat
  deriving DecidableEq

/-- The errors of the two functions; `io` is one that is passed on as it is. -/
inductive SecretError where
  | context (text : String)
  | io
  | filePermissionError (text : String)
  | invalidEncryptionKey
  deriving DecidableEq

abbrev Disk := Library.Files.Disk String UInt8 Mark

abbrev Effect := Library.Files.Effect String UInt8 Mark

section Saving

/-- What the system answers to the calls of one save, apart from what the disk says: whether they
succeed, the number of bytes after which `write_all` fails, and, if the path has a parent, whether
it can be opened and synchronised. -/
structure SaveAnswers where
  openTmp : Bool
  writeAll : Option Nat
  syncAll : Bool
  fchown : Bool
  rename : Bool
  parent : Option (Bool × Bool)

variable (uid : Nat) (path : String)

def tmpPath : String := path ++ ".tmp"

def secretMark : Mark := ⟨uid, 0o600⟩

def syncParent (parent : Option (Bool × Bool)) : Except SecretError Unit :=
  match parent with
  | none => .ok ()
  | some (false, _) => .error (.context "Unable to open parent directory for fsync")
  | some (true, false) => .error (.context "Failed to fsync parent directory")
  | some (true, true) => .ok ()

/-- The result of a save, and what it does to the disk one effect after the other. `create_new`
refuses a temporary file that is there already. -/
def secureSaveSecret (os : SaveAnswers) (data : Bytes) (disk : Disk) :
    Except SecretError Unit × List Effect :=
  if !os.openTmp || (disk (tmpPath path)).isSome then
    (.error (.context "Failed to create temporary key file"), [])
  else
    match os.writeAll with
    | some n => (.error .io, writing (tmpPath path) (secretMark uid) (data.take n))
    | none =>
        if !os.syncAll || !os.fchown then
          (.error .io, writing (tmpPath path) (secretMark uid) data)
        else if !os.rename then
          (.error (.context "Atomic rename failed"), writing (tmpPath path) (secretMark uid) data)
        else (syncParent os.parent, replacing (tmpPath path) path (secretMark uid) data)

end Saving

section Loading

/-- What the system answers to the calls of one load on a file that is there. -/
structure LoadAnswers where
  openFile : Bool
  fstat : Bool
  readExact : Bool

variable (uid : Nat)

def secureLoadFile (os : LoadAnswers) (path : String) (disk : Disk) : Except SecretError Bytes := do
  match disk path with
  | none => .error (.context "Unable to open the secret file")
  | some file =>
      if !os.openFile then .error (.context "Unable to open the secret file")
      if !os.fstat then .error (.context "Unable to get fstat on FD")
      if file.mark.uid ≠ uid then .error (.filePermissionError "Wrong owner")
      if file.mark.mode &&& 0o077 ≠ 0 then .error (.filePermissionError "Permissions too broad")
      if 4096 < file.bytes.length then .error (.filePermissionError "Key file too large")
      if !os.readExact then .error (.context "Reading secret file")
      pure file.bytes

/-- `load_keypair`; `fromBytes` is the reading of the crate. -/
def loadKeypair {κ : Type} (fromBytes : Bytes → Option κ) (os : LoadAnswers) (path : String)
    (disk : Disk) : Except SecretError κ := do
  let bytes ← match secureLoadFile uid os path disk with
    | .ok bytes => .ok bytes
    | .error _ => .error (.context "Load file failed")
  if bytes.length ≠ 32 then .error .invalidEncryptionKey
  match fromBytes bytes with
  | some key => pure key
  | none => .error (.context "Invalid secret key bytes")

end Loading

/-! Saves one after the other, each of which can be cut off. -/

/-- One attempt: the answers of the system, the secret, and the number of effects after which the
process ends, if it does. -/
structure Save where
  os : SaveAnswers
  data : Bytes
  cut : Option Nat

section Attempts

variable (uid : Nat) (path : String)

def Save.effects (disk : Disk) (save : Save) : List Effect :=
  performed save.cut (secureSaveSecret uid path save.os save.data disk).2

def saveStep (disk : Disk) (save : Save) : Disk := run apply disk (save.effects uid path disk)

variable {uid path} {disk : Disk} {save : Save}

private theorem path_ne_tmpPath : path ≠ tmpPath path := by
  intro same
  have lengths := congrArg String.length same
  simp [tmpPath] at lengths

private theorem Save.effects_cases :
    save.effects uid path disk = [] ∨
      disk (tmpPath path) = none ∧
        ((∃ front, front <+: save.data ∧
            save.effects uid path disk = writing (tmpPath path) (secretMark uid) front) ∨
          save.effects uid path disk =
            replacing (tmpPath path) path (secretMark uid) save.data) := by
  have whole : (secureSaveSecret uid path save.os save.data disk).2 = [] ∨
      disk (tmpPath path) = none ∧
        ((∃ front, front <+: save.data ∧ (secureSaveSecret uid path save.os save.data disk).2 =
            writing (tmpPath path) (secretMark uid) front) ∨
          (secureSaveSecret uid path save.os save.data disk).2 =
            replacing (tmpPath path) path (secretMark uid) save.data) := by
    unfold secureSaveSecret
    split
    case isTrue => exact Or.inl rfl
    case isFalse free =>
      simp only [Bool.not_eq_true, Bool.or_eq_false_iff, Option.isSome_eq_false_iff,
        Option.isNone_iff_eq_none] at free
      refine Or.inr ⟨free.2, ?_⟩
      split
      case h_1 n _ => exact Or.inl ⟨_, List.take_prefix n _, rfl⟩
      case h_2 =>
        split
        case isTrue => exact Or.inl ⟨_, List.prefix_rfl, rfl⟩
        case isFalse =>
          split
          case isTrue => exact Or.inl ⟨_, List.prefix_rfl, rfl⟩
          case isFalse => exact Or.inr rfl
  unfold Save.effects
  rcases whole with nothing | ⟨free, ⟨front, shorter, written⟩ | replaced⟩
  · rw [nothing]
    exact Or.inl (performed_nil save.cut)
  · rw [written]
    rcases performed_writing save.cut front with nothing | ⟨less, shortest, taken⟩
    · exact Or.inl nothing
    · exact Or.inr ⟨free, Or.inl ⟨less, shortest.trans shorter, taken⟩⟩
  · rw [replaced]
    rcases performed_replacing save.cut save.data with nothing | written | all
    · exact Or.inl nothing
    · exact Or.inr ⟨free, Or.inl written⟩
    · exact Or.inr ⟨free, Or.inr all⟩

private theorem saveStep_cases :
    saveStep uid path disk save = disk ∨
      disk (tmpPath path) = none ∧
        ((saveStep uid path disk save path = disk path ∧
            (saveStep uid path disk save (tmpPath path)).isSome = true) ∨
          saveStep uid path disk save path = some ⟨save.data, secretMark uid⟩ ∧
            saveStep uid path disk save (tmpPath path) = none) := by
  rcases Save.effects_cases with nothing | ⟨free, ⟨front, -, written⟩ | replaced⟩
  · exact Or.inl (by rw [saveStep, nothing]; rfl)
  · refine Or.inr ⟨free, Or.inl ?_⟩
    rw [saveStep, written]
    exact ⟨run_of_not_mem (writing_apart path_ne_tmpPath front), by simp [run_writing]⟩
  · refine Or.inr ⟨free, Or.inr ?_⟩
    rw [saveStep, replaced, (run_replacing path_ne_tmpPath save.data).1, free]
    exact ⟨rfl, (run_replacing path_ne_tmpPath save.data).2⟩

private theorem secureSaveSecret_refused (left : (disk (tmpPath path)).isSome = true)
    (os : SaveAnswers) (data : Bytes) :
    secureSaveSecret uid path os data disk =
      (.error (.context "Failed to create temporary key file"), []) := by
  rw [secureSaveSecret, left, Bool.or_true, if_pos rfl]

private theorem saveStep_of_left (left : (disk (tmpPath path)).isSome = true) :
    saveStep uid path disk save = disk := by
  rcases saveStep_cases with same | ⟨free, -⟩
  · exact same
  · rw [free] at left
    exact absurd left (by simp)

private theorem run_of_left (left : (disk (tmpPath path)).isSome = true) (saves : List Save) :
    run (saveStep uid path) disk saves = disk := by
  induction saves with
  | nil => rfl
  | cons save saves ih => rw [run_cons, saveStep_of_left left, ih]

private theorem run_saved (saves : List Save) :
    run (saveStep uid path) disk saves path = disk path ∨
      ∃ save ∈ saves, run (saveStep uid path) disk saves path =
        some ⟨save.data, secretMark uid⟩ := by
  induction saves using List.reverseRecOn with
  | nil => exact Or.inl rfl
  | append_singleton saves save ih =>
      rw [run_concat]
      have earlier : run (saveStep uid path) disk saves path = disk path ∨
          ∃ s ∈ saves ++ [save], run (saveStep uid path) disk saves path =
            some ⟨s.data, secretMark uid⟩ :=
        ih.imp_right fun ⟨s, member, content⟩ => ⟨s, List.mem_append_left _ member, content⟩
      rcases saveStep_cases with same | ⟨-, ⟨same, -⟩ | ⟨content, -⟩⟩
      · rwa [same]
      · rwa [same]
      · exact Or.inr ⟨save, by simp, content⟩

private theorem saveStep_of_ok (whole : save.cut = none)
    (saved : (secureSaveSecret uid path save.os save.data disk).1 = .ok ()) :
    saveStep uid path disk save path = some ⟨save.data, secretMark uid⟩ := by
  unfold secureSaveSecret at saved
  split at saved
  case isTrue => cases saved
  case isFalse free =>
    split at saved
    case h_1 => cases saved
    case h_2 complete =>
      split at saved
      case isTrue => cases saved
      case isFalse synced =>
        split at saved
        case isTrue => cases saved
        case isFalse renamed =>
          have effects : save.effects uid path disk =
              replacing (tmpPath path) path (secretMark uid) save.data := by
            simp only [Save.effects, whole, performed, secureSaveSecret, if_neg free, complete,
              if_neg synced, if_neg renamed]
          simp only [Bool.not_eq_true, Bool.or_eq_false_iff, Option.isSome_eq_false_iff,
            Option.isNone_iff_eq_none] at free
          rw [saveStep, effects, (run_replacing path_ne_tmpPath save.data).1, free.2]
          rfl

private theorem secureLoadFile_secret {os : LoadAnswers} {data : Bytes}
    (content : disk path = some ⟨data, secretMark uid⟩)
    (answered : os = ⟨true, true, true⟩) :
    secureLoadFile uid os path disk =
      if data.length ≤ 4096 then .ok data
      else .error (.filePermissionError "Key file too large") := by
  subst answered
  have closed : (0o600 : Nat) &&& 0o077 = 0 := by decide
  simp only [secureLoadFile, content, secretMark, closed]
  by_cases short : data.length ≤ 4096
  · simp [short, Nat.not_lt.mpr short, Pure.pure, Except.pure]
  · simp [short, Nat.lt_of_not_le short, Bind.bind, Except.bind]

end Attempts

/-- Over any saves, however they fail and wherever the process ends: the file is never torn, a save
that succeeds can be loaded if the secret has at most 4096 bytes and else cannot, and once a save
has stopped between its first effect and the renaming, all later ones are refused and the file
keeps its content. -/
theorem secret_file_whole_or_stuck (uid : Nat) (path : String) (disk : Disk) (saves : List Save) :
    (run (saveStep uid path) disk saves path = disk path ∨
      ∃ save ∈ saves, run (saveStep uid path) disk saves path =
        some ⟨save.data, secretMark uid⟩) ∧
    (∀ save : Save, save.cut = none →
      (secureSaveSecret uid path save.os save.data
        (run (saveStep uid path) disk saves)).1 = .ok () →
      secureLoadFile uid ⟨true, true, true⟩ path
          (run (saveStep uid path) disk (saves ++ [save])) =
        if save.data.length ≤ 4096 then .ok save.data
        else .error (.filePermissionError "Key file too large")) ∧
    ∀ (save : Save) (later : List Save),
      (run (saveStep uid path) disk (saves ++ [save]) (tmpPath path)).isSome = true →
      run (saveStep uid path) disk (saves ++ save :: later) path =
          run (saveStep uid path) disk saves path ∧
        ∀ os data, (secureSaveSecret uid path os data
          (run (saveStep uid path) disk (saves ++ save :: later))).1 =
            .error (.context "Failed to create temporary key file") := by
  refine ⟨run_saved saves, ?_, ?_⟩
  · intro save whole saved
    rw [run_concat]
    exact secureLoadFile_secret (saveStep_of_ok whole saved) rfl
  · intro save later left
    rw [run_concat] at left
    have same : saveStep uid path (run (saveStep uid path) disk saves) save path =
        run (saveStep uid path) disk saves path := by
      rcases saveStep_cases with same | ⟨-, ⟨same, -⟩ | ⟨-, gone⟩⟩
      · rw [same]
      · exact same
      · rw [gone] at left
        exact absurd left (by simp)
    have stuck : run (saveStep uid path) disk (saves ++ save :: later) =
        saveStep uid path (run (saveStep uid path) disk saves) save := by
      rw [run, List.foldl_append, List.foldl_cons]
      exact run_of_left left later
    rw [stuck]
    refine ⟨same, fun os data => ?_⟩
    rw [secureSaveSecret_refused left]

end Lyrion.Utils.Secrets
