/- GID: Lyrion/Library/Files
   digest: Files of a disk, what system calls do to them one effect after the other, and what is
     there when a process ends between two effects. -/

import Lyrion.Library.Runs

set_option autoImplicit false
set_option relaxedAutoImplicit false

namespace Lyrion.Library.Files

open Library.Runs

/-- A file, with what the system keeps beside its bytes. -/
structure File (β μ : Type) where
  bytes : List β
  mark : μ
  deriving DecidableEq

abbrev Disk (ι β μ : Type) := ι → Option (File β μ)

/-- What a call does to the disk at one moment. An opened file that is there already loses its bytes
and keeps its mark. -/
inductive Effect (ι β μ : Type) where
  | create (path : ι) (mark : μ)
  | append (path : ι) (byte : β)
  | rename (source target : ι)
  | remove (path : ι)
  deriving DecidableEq

def Effect.paths {ι β μ : Type} : Effect ι β μ → List ι
  | .create path _ => [path]
  | .append path _ => [path]
  | .rename source target => [source, target]
  | .remove path => [path]

section Programs

variable {ι β μ : Type} {path temporary : ι} {mark : μ}

def writing (path : ι) (mark : μ) (bytes : List β) : List (Effect ι β μ) :=
  .create path mark :: bytes.map (.append path)

def replacing (temporary path : ι) (mark : μ) (bytes : List β) : List (Effect ι β μ) :=
  writing temporary mark bytes ++ [.rename temporary path]

/-- What is done of some effects by a process that ends after a number of them, if it does. -/
def performed (cut : Option Nat) (effects : List (Effect ι β μ)) : List (Effect ι β μ) :=
  match cut with
  | none => effects
  | some n => effects.take n

theorem performed_nil (cut : Option Nat) : performed cut ([] : List (Effect ι β μ)) = [] := by
  cases cut with
  | none => rfl
  | some n => exact List.take_nil

theorem performed_writing_succ (n : Nat) (bytes : List β) :
    performed (some (n + 1)) (writing path mark bytes) = writing path mark (bytes.take n) := by
  rw [performed, writing, writing, List.take_succ_cons, List.map_take]

theorem performed_writing (cut : Option Nat) (bytes : List β) :
    performed cut (writing path mark bytes) = [] ∨
      ∃ front, front <+: bytes ∧
        performed cut (writing path mark bytes) = writing path mark front := by
  match cut with
  | none => exact Or.inr ⟨bytes, List.prefix_rfl, rfl⟩
  | some 0 => exact Or.inl rfl
  | some (n + 1) =>
      exact Or.inr ⟨bytes.take n, List.take_prefix n bytes, performed_writing_succ n bytes⟩

theorem performed_replacing (cut : Option Nat) (bytes : List β) :
    performed cut (replacing temporary path mark bytes) = [] ∨
      (∃ front, front <+: bytes ∧
        performed cut (replacing temporary path mark bytes) = writing temporary mark front) ∨
      performed cut (replacing temporary path mark bytes) =
        replacing temporary path mark bytes := by
  cases cut with
  | none => exact Or.inr (Or.inr rfl)
  | some n =>
      rcases Nat.lt_or_ge (writing temporary mark bytes).length n with late | early
      · refine Or.inr (Or.inr (List.take_of_length_le ?_))
        rw [replacing, List.length_append]
        exact late
      · have taken : performed (some n) (replacing temporary path mark bytes) =
            performed (some n) (writing temporary mark bytes) :=
          List.take_append_of_le_length early
        rw [taken]
        exact (performed_writing (some n) bytes).imp_right Or.inl

theorem writing_apart {other : ι} (apart : other ≠ path) (bytes : List β) :
    ∀ effect ∈ writing path mark bytes, other ∉ effect.paths := by
  intro effect member
  rcases List.mem_cons.mp member with rfl | member
  · simpa [Effect.paths] using apart
  · obtain ⟨byte, -, rfl⟩ := List.mem_map.mp member
    simpa [Effect.paths] using apart

end Programs

section Disks

variable {ι β μ : Type} [DecidableEq ι]

def apply (disk : Disk ι β μ) : Effect ι β μ → Disk ι β μ
  | .create path mark =>
      Function.update disk path (some ⟨[], ((disk path).map File.mark).getD mark⟩)
  | .append path byte =>
      Function.update disk path ((disk path).map fun file =>
        { file with bytes := file.bytes ++ [byte] })
  | .rename source target =>
      if source = target then disk
      else Function.update (Function.update disk target (disk source)) source none
  | .remove path => Function.update disk path none

variable {disk : Disk ι β μ} {effects : List (Effect ι β μ)} {path : ι} {mark : μ}

theorem apply_of_not_mem {effect : Effect ι β μ} (apart : path ∉ effect.paths) :
    apply disk effect path = disk path := by
  cases effect with
  | create at_ mark => exact Function.update_of_ne (by simpa [Effect.paths] using apart) _ _
  | append at_ byte => exact Function.update_of_ne (by simpa [Effect.paths] using apart) _ _
  | remove at_ => exact Function.update_of_ne (by simpa [Effect.paths] using apart) _ _
  | rename source target =>
      simp only [Effect.paths, List.mem_cons, List.not_mem_nil, or_false, not_or] at apart
      simp only [apply]
      split
      case isTrue => rfl
      case isFalse => rw [Function.update_of_ne apart.1, Function.update_of_ne apart.2]

theorem run_of_not_mem (apart : ∀ effect ∈ effects, path ∉ effect.paths) :
    run apply disk effects path = disk path := by
  induction effects generalizing disk with
  | nil => rfl
  | cons effect effects ih =>
      rw [run_cons, ih fun e member => apart e (List.mem_cons_of_mem _ member)]
      exact apply_of_not_mem (apart effect List.mem_cons_self)

theorem run_appends (bytes : List β) :
    run apply disk (bytes.map (.append path)) path =
      (disk path).map fun file => { file with bytes := file.bytes ++ bytes } := by
  induction bytes generalizing disk with
  | nil => cases found : disk path <;> simp [run, found]
  | cons byte bytes ih =>
      rw [List.map_cons, run_cons, ih, apply, Function.update_self]
      cases disk path <;> simp

theorem run_writing (bytes : List β) :
    run apply disk (writing path mark bytes) path =
      some ⟨bytes, ((disk path).map File.mark).getD mark⟩ := by
  rw [writing, run_cons, run_appends, apply, Function.update_self]
  simp

theorem run_replacing {temporary : ι} (apart : path ≠ temporary) (bytes : List β) :
    run apply disk (replacing temporary path mark bytes) path =
        some ⟨bytes, ((disk temporary).map File.mark).getD mark⟩ ∧
      run apply disk (replacing temporary path mark bytes) temporary = none := by
  rw [replacing, run_concat, apply, if_neg apart.symm]
  constructor
  · rw [Function.update_of_ne apart, Function.update_self, run_writing]
  · exact Function.update_self _ _ _

end Disks

end Lyrion.Library.Files
