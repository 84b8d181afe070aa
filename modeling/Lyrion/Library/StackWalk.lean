/- GID: Lyrion/Library/StackWalk
   digest: A walk over a stack that gives up at an element it has met before or at a depth limit. -/

import Mathlib

set_option autoImplicit false
set_option relaxedAutoImplicit false

namespace Lyrion.Library.StackWalk

inductive Outcome (κ : Type)
  | finished (seen : Finset κ)
  | repeated
  | cutOff

variable {κ : Type} [DecidableEq κ] (next : κ → List κ)

/-- The walk: the successors of the element on top go on top of the stack. -/
def walk : Nat → List κ → Finset κ → Outcome κ
  | 0, _, _ => .cutOff
  | _ + 1, [], seen => .finished seen
  | fuel + 1, x :: stack, seen =>
      if x ∈ seen then .repeated else walk fuel (next x ++ stack) (insert x seen)

variable {next} {fuel : Nat} {stack : List κ} {seen final within : Finset κ}

theorem walk_cons {x : κ} :
    walk next (fuel + 1) (x :: stack) seen = .finished final ↔
      x ∉ seen ∧ walk next fuel (next x ++ stack) (insert x seen) = .finished final := by
  rw [walk]
  by_cases met : x ∈ seen
  · simp [met]
  · simp [met]

theorem walk_subset (closed : ∀ x ∈ within, ∀ y ∈ next x, y ∈ within)
    (inside : ∀ x ∈ stack, x ∈ within) (before : seen ⊆ within)
    (done : walk next fuel stack seen = .finished final) : final ⊆ within := by
  induction fuel generalizing stack seen with
  | zero => exact absurd done (by simp [walk])
  | succ fuel ih =>
      cases stack with
      | nil => exact Outcome.finished.inj done ▸ before
      | cons x stack =>
          obtain ⟨here, others⟩ := List.forall_mem_cons.mp inside
          refine ih ?_ (Finset.insert_subset here before) (walk_cons.mp done).2
          exact List.forall_mem_append.mpr ⟨closed x here, others⟩

theorem walk_closed (done : walk next fuel stack seen = .finished final) :
    seen ⊆ final ∧ (∀ x ∈ stack, x ∈ final) ∧
      ∀ x ∈ final, x ∈ seen ∨ ∀ y ∈ next x, y ∈ final := by
  induction fuel generalizing stack seen with
  | zero => exact absurd done (by simp [walk])
  | succ fuel ih =>
      cases stack with
      | nil =>
          obtain rfl := Outcome.finished.inj done
          exact ⟨subset_rfl, by simp, fun x member => Or.inl member⟩
      | cons x stack =>
          obtain ⟨kept, taken, complete⟩ := ih (walk_cons.mp done).2
          obtain ⟨here, earlier⟩ := Finset.insert_subset_iff.mp kept
          obtain ⟨above, below⟩ := List.forall_mem_append.mp taken
          refine ⟨earlier, List.forall_mem_cons.mpr ⟨here, below⟩, fun z member => ?_⟩
          rcases complete z member with added | whole
          · rcases Finset.mem_insert.mp added with rfl | before
            · exact Or.inr above
            · exact Or.inl before
          · exact Or.inr whole

/-- All that the walk has met, has on its stack, or would put there from what it has not met. -/
def load (next : κ → List κ) (within : Finset κ) (stack : List κ) (seen : Finset κ) :
    Multiset κ :=
  stack + seen.val + (within \ seen).val.bind fun x => (next x : Multiset κ)

theorem load_step {x : κ} (member : x ∈ within) (fresh : x ∉ seen) :
    load next within (next x ++ stack) (insert x seen) = load next within (x :: stack) seen := by
  have rest : (within \ seen).val = x ::ₘ (within \ insert x seen).val := by
    rw [Finset.sdiff_insert, Finset.erase_val]
    exact (Multiset.cons_erase (Finset.mem_sdiff.mpr ⟨member, fresh⟩)).symm
  unfold load
  rw [rest, Multiset.cons_bind, Finset.insert_val_of_notMem fresh, ← Multiset.coe_add,
    ← Multiset.cons_coe, ← Multiset.singleton_add x seen.val, ← Multiset.singleton_add x stack]
  abel

theorem walk_cases (closed : ∀ x ∈ within, ∀ y ∈ next x, y ∈ within)
    (inside : ∀ x ∈ stack, x ∈ within) (enough : (within \ seen).card < fuel) :
    (∃ final, walk next fuel stack seen = .finished final ∧
        load next within stack seen = load next within [] final) ∨
      (walk next fuel stack seen = .repeated ∧ ¬ (load next within stack seen).Nodup) := by
  induction fuel generalizing stack seen with
  | zero => exact absurd enough (Nat.not_lt_zero _)
  | succ fuel ih =>
      cases stack with
      | nil => exact Or.inl ⟨seen, rfl, rfl⟩
      | cons x stack =>
          obtain ⟨here, others⟩ := List.forall_mem_cons.mp inside
          rw [walk]
          by_cases met : x ∈ seen
          · refine Or.inr ⟨if_pos met, fun distinct => ?_⟩
            have both := (Multiset.nodup_add.mp (Multiset.nodup_add.mp distinct).1).2.2
            exact Multiset.disjoint_left.mp both (Multiset.mem_coe.mpr List.mem_cons_self) met
          · have fewer : (within \ insert x seen).card < fuel := by
              rw [Finset.sdiff_insert, Finset.card_erase_of_mem (Finset.mem_sdiff.mpr ⟨here, met⟩)]
              have := Finset.card_pos.mpr ⟨x, Finset.mem_sdiff.mpr ⟨here, met⟩⟩
              omega
            rw [if_neg met, ← load_step here met]
            exact ih (List.forall_mem_append.mpr ⟨closed x here, others⟩) fewer

theorem walk_finished_iff (closed : ∀ x ∈ within, ∀ y ∈ next x, y ∈ within)
    (inside : ∀ x ∈ stack, x ∈ within)
    (least : ∀ s : Finset κ, (∀ x ∈ stack, x ∈ s) → (∀ x ∈ s, ∀ y ∈ next x, y ∈ s) → within ⊆ s)
    (enough : within.card < fuel) :
    (∃ final, walk next fuel stack ∅ = .finished final) ↔
      ((stack : Multiset κ) + within.val.bind fun x => (next x : Multiset κ)).Nodup := by
  have start : load next within stack ∅ =
      (stack : Multiset κ) + within.val.bind fun x => (next x : Multiset κ) := by
    rw [load, Finset.empty_val, Multiset.add_zero, Finset.sdiff_empty]
  rw [← start]
  rcases walk_cases closed inside (by rwa [Finset.sdiff_empty]) with
    ⟨final, done, same⟩ | ⟨gaveUp, twice⟩
  · refine iff_of_true ⟨final, done⟩ ?_
    obtain ⟨-, taken, complete⟩ := walk_closed done
    have all : within \ final = ∅ := by
      rw [Finset.sdiff_eq_empty_iff_subset]
      refine least final taken fun x member => ?_
      exact (complete x member).resolve_left (Finset.notMem_empty x)
    rw [same, load, all]
    simpa using final.nodup
  · refine iff_of_false ?_ twice
    rintro ⟨final, done⟩
    exact absurd (gaveUp.symm.trans done) (by simp)

end Lyrion.Library.StackWalk
