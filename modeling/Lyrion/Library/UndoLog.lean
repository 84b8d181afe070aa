/- GID: Lyrion/Library/UndoLog
   digest: Logs of earlier contents, played backwards onto a store. -/

import Lyrion.Library.KeyValue

set_option autoImplicit false
set_option relaxedAutoImplicit false

namespace Lyrion.Library.UndoLog

open Library.KeyValue

abbrev Entry (γ κ ν : Type) := γ × κ × Option ν

variable {γ κ ν : Type} [DecidableEq γ] [DecidableEq κ]

def restore (entry : Entry γ κ ν) : γ × Write κ ν :=
  match entry.2.2 with
  | some v => (entry.1, .put entry.2.1 v)
  | none => (entry.1, .delete entry.2.1)

def undo (log : List (Entry γ κ ν)) : Batch γ κ ν := log.reverse.map restore

def first (log : List (Entry γ κ ν)) (f : γ) (k : κ) : Option (Option ν) :=
  (log.find? fun entry => entry.1 = f ∧ entry.2.1 = k).map fun entry => entry.2.2

theorem first_cons (entry : Entry γ κ ν) (log : List (Entry γ κ ν)) (f : γ) (k : κ) :
    first (entry :: log) f k =
      if entry.1 = f ∧ entry.2.1 = k then some entry.2.2 else first log f k := by
  by_cases here : entry.1 = f ∧ entry.2.1 = k <;> simp [first, here]

theorem mem_of_first {log : List (Entry γ κ ν)} {f : γ} {k : κ} {o : Option ν}
    (found : first log f k = some o) : (f, k, o) ∈ log := by
  obtain ⟨entry, hit, rfl⟩ := Option.map_eq_some_iff.mp found
  have same := List.find?_some hit
  simp only [decide_eq_true_eq] at same
  obtain ⟨rfl, rfl⟩ := same
  exact List.mem_of_find?_eq_some hit

theorem exists_first {log : List (Entry γ κ ν)} {entry : Entry γ κ ν} (member : entry ∈ log) :
    ∃ o, first log entry.1 entry.2.1 = some o := by
  have found : (log.find? fun e => e.1 = entry.1 ∧ e.2.1 = entry.2.1).isSome :=
    List.find?_isSome.mpr ⟨entry, member, by simp⟩
  obtain ⟨hit, here⟩ := Option.isSome_iff_exists.mp found
  exact ⟨hit.2.2, by rw [first, here, Option.map_some]⟩

theorem first_eq_none_iff {log : List (Entry γ κ ν)} {f : γ} {k : κ} :
    first log f k = none ↔ ∀ o, (f, k, o) ∉ log := by
  constructor
  · intro absent o member
    obtain ⟨o, found⟩ := exists_first member
    exact absurd (absent.symm.trans found) (by simp)
  · intro out
    cases found : first log f k with
    | none => rfl
    | some o => exact absurd (mem_of_first found) (out o)

theorem first_append (log later : List (Entry γ κ ν)) (f : γ) (k : κ) :
    first (log ++ later) f k = (first log f k).or (first later f k) := by
  induction log with
  | nil => rfl
  | cons entry log ih =>
      rw [List.cons_append, first_cons, first_cons, ih]
      split
      · rfl
      · rfl

theorem exists_of_first_flatMap {ι : Type} {log : ι → List (Entry γ κ ν)} {items : List ι} {f : γ}
    {k : κ} {o : Option ν} (found : first (items.flatMap log) f k = some o) :
    ∃ pre i post, items = pre ++ i :: post ∧ first (pre.flatMap log) f k = none ∧
      first (log i) f k = some o := by
  induction items with
  | nil => exact absurd found (by simp [first])
  | cons i items ih =>
      rw [List.flatMap_cons, first_append] at found
      cases here : first (log i) f k with
      | some o' =>
          rw [here, Option.some_or] at found
          exact ⟨[], i, items, rfl, rfl, here.trans found⟩
      | none =>
          rw [here, Option.none_or] at found
          obtain ⟨pre, j, post, rfl, before, hit⟩ := ih found
          refine ⟨i :: pre, j, post, rfl, ?_, hit⟩
          rw [List.flatMap_cons, first_append, here, before]
          rfl

theorem first_append_eq_absent {log : List (Entry γ κ ν)} {f : γ} {k : κ} {o : Option ν}
    (member : (f, k, o) ∈ log) (absent : ∀ v, (f, k, some v) ∉ log)
    (later : List (Entry γ κ ν)) : first (log ++ later) f k = some none := by
  obtain ⟨o', found⟩ := exists_first member
  rw [first_append, found, Option.some_or]
  cases o' with
  | none => rfl
  | some v => exact absurd (mem_of_first found) (absent v)

theorem lookup_restore (s : Store γ κ ν) (entry : Entry γ κ ν) (f : γ) (k : κ) :
    (write s [restore entry] f).lookup k =
      if entry.1 = f ∧ entry.2.1 = k then entry.2.2 else (s f).lookup k := by
  obtain ⟨g, j, o⟩ := entry
  by_cases family : g = f
  · subst family
    have only : writesTo g [restore (g, j, o)] = [(restore (g, j, o)).2] := by
      cases o <;> simp [restore]
    have here : k = (restore (g, j, o)).2.key ↔ g = g ∧ j = k := by
      cases o <;> simp [restore, Write.key, eq_comm]
    rw [write, only, applyWrites_cons, applyWrites_nil, lookup_applyWrite, if_congr here rfl rfl]
    cases o <;> rfl
  · have other : writesTo f [restore (g, j, o)] = [] := by
      cases o <;> simp [restore, family]
    simp [write, other, family]

theorem lookup_undo (s : Store γ κ ν) (log : List (Entry γ κ ν)) (f : γ) (k : κ) :
    (write s (undo log) f).lookup k = (first log f k).getD ((s f).lookup k) := by
  induction log with
  | nil => rfl
  | cons entry log ih =>
      have split : undo (entry :: log) = undo log ++ [restore entry] := by simp [undo]
      rw [split, write_append, lookup_restore, first_cons, ih]
      split
      · rfl
      · rfl

theorem write_undo_eq_self_iff (s : Store γ κ ν) (log : List (Entry γ κ ν)) (f : γ) :
    write s (undo log) f = s f ↔ ∀ k o, first log f k = some o → (s f).lookup k = o := by
  constructor
  · intro same k o found
    rw [← same, lookup_undo, found]
    rfl
  · intro agrees
    apply Finmap.ext_lookup
    intro k
    rw [lookup_undo]
    cases found : first log f k with
    | none => rfl
    | some o => exact (agrees k o found).symm

end Lyrion.Library.UndoLog
