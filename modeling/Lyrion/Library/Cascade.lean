/- GID: Lyrion/Library/Cascade
   digest: Deleting a node of a finite graph together with everything that hangs on it. -/

import Mathlib

set_option autoImplicit false
set_option relaxedAutoImplicit false

namespace Lyrion.Library.Cascade

variable {α : Type}

/-- A path along the edges through nodes that are alive. -/
inductive Reaches (edges : α → List α) (alive : Finset α) : α → α → Prop
  | self {a : α} (here : a ∈ alive) : Reaches edges alive a a
  | next {a b c : α} (here : a ∈ alive) (edge : b ∈ edges a) (rest : Reaches edges alive b c) :
      Reaches edges alive a c

namespace Reaches

variable {edges : α → List α} {alive rest : Finset α} {a b c : α}

theorem source_mem (path : Reaches edges alive a b) : a ∈ alive := by
  cases path with
  | self here => exact here
  | next here _ _ => exact here

theorem trans (first : Reaches edges alive a b) (second : Reaches edges alive b c) :
    Reaches edges alive a c := by
  induction first with
  | self _ => exact second
  | next here edge _ ih => exact .next here edge (ih second)

theorem mono (inside : rest ⊆ alive) (path : Reaches edges rest a b) : Reaches edges alive a b := by
  induction path with
  | self here => exact .self (inside here)
  | next here edge _ ih => exact .next (inside here) edge ih

theorem avoid {root : α} (path : Reaches edges alive a b) (apart : ¬ Reaches edges alive root b)
    (left : ∀ x, x ∈ rest ↔ x ∈ alive ∧ ¬ Reaches edges alive root x) : Reaches edges rest a b := by
  induction path with
  | self here => exact .self ((left _).mpr ⟨here, apart⟩)
  | next here edge tail ih =>
      refine .next ((left _).mpr ⟨here, ?_⟩) edge (ih apart)
      intro reached
      exact apart (reached.trans (.next here edge tail))

variable [DecidableEq α]

theorem cut {root : α} (path : Reaches edges alive a b) (other : b ≠ root) :
    Reaches edges (alive.erase root) a b ∨
      ∃ child ∈ edges root, Reaches edges (alive.erase root) child b := by
  induction path with
  | self here => exact Or.inl (.self (Finset.mem_erase.mpr ⟨other, here⟩))
  | @next a child b here edge tail ih =>
      rcases ih other with direct | around
      · by_cases same : a = root
        · subst same
          exact Or.inr ⟨child, edge, direct⟩
        · exact Or.inl (.next (Finset.mem_erase.mpr ⟨same, here⟩) edge direct)
      · exact Or.inr around

end Reaches

section Cascade

theorem mem_foldlM {edges : α → List α} {delete : Finset α → α → Option (Finset α)}
    (spec : ∀ {root : α} {alive rest : Finset α}, delete alive root = some rest →
      ∀ x, x ∈ rest ↔ x ∈ alive ∧ ¬ Reaches edges alive root x)
    {roots : List α} {alive rest : Finset α} (done : roots.foldlM delete alive = some rest)
    (x : α) :
    x ∈ rest ↔ x ∈ alive ∧ ∀ root ∈ roots, ¬ Reaches edges alive root x := by
  induction roots generalizing alive with
  | nil =>
      obtain rfl := Option.some.inj done
      simp
  | cons first roots ih =>
      obtain ⟨middle, one, others⟩ := Option.bind_eq_some_iff.mp done
      have left := spec one
      rw [ih others, left, List.forall_mem_cons, and_assoc]
      refine and_congr_right fun here => and_congr_right fun apart => forall₂_congr fun root _ => ?_
      have inside : middle ⊆ alive := fun y member => ((left y).mp member).1
      exact not_congr ⟨fun path => path.mono inside, fun path => path.avoid apart left⟩

variable [DecidableEq α] (edges : α → List α)

def cascade : Nat → α → Finset α → Option (Finset α)
  | 0, _, _ => none
  | fuel + 1, root, alive =>
      if root ∈ alive then
        (edges root).foldlM (fun alive child => cascade fuel child alive) (alive.erase root)
      else some alive

variable {edges}

theorem mem_cascade {fuel : Nat} {root : α} {alive rest : Finset α}
    (done : cascade edges fuel root alive = some rest) (x : α) :
    x ∈ rest ↔ x ∈ alive ∧ ¬ Reaches edges alive root x := by
  induction fuel generalizing root alive rest x with
  | zero => exact absurd done (by simp [cascade])
  | succ fuel ih =>
      rw [cascade] at done
      split at done
      case isTrue here =>
        rw [mem_foldlM (fun one x => ih one x) done, Finset.mem_erase]
        constructor
        · rintro ⟨⟨other, member⟩, apart⟩
          refine ⟨member, fun path => ?_⟩
          rcases path.cut other with direct | ⟨child, edge, around⟩
          · exact Finset.notMem_erase root alive direct.source_mem
          · exact apart child edge around
        · rintro ⟨member, apart⟩
          refine ⟨⟨?_, member⟩, fun child edge path => ?_⟩
          · rintro rfl
            exact apart (.self here)
          · exact apart (.next here edge (path.mono (Finset.erase_subset root alive)))
      case isFalse gone =>
        obtain rfl := Option.some.inj done
        refine ⟨fun member => ⟨member, fun path => gone path.source_mem⟩, And.left⟩

theorem exists_cascade {fuel : Nat} (root : α) {alive : Finset α} (enough : alive.card < fuel) :
    ∃ rest, cascade edges fuel root alive = some rest ∧ rest ⊆ alive := by
  induction fuel generalizing root alive with
  | zero => exact absurd enough (Nat.not_lt_zero _)
  | succ fuel ih =>
      rw [cascade]
      split
      case isTrue here =>
        have smaller : (alive.erase root).card < fuel := by
          have := Finset.card_erase_lt_of_mem here
          omega
        have loop (children : List α) (start : Finset α) (few : start.card < fuel) :
            ∃ rest, children.foldlM (fun alive child => cascade edges fuel child alive) start =
              some rest ∧ rest ⊆ start := by
          induction children generalizing start with
          | nil => exact ⟨start, rfl, subset_rfl⟩
          | cons child children more =>
              obtain ⟨middle, one, inside⟩ := ih child few
              obtain ⟨rest, others, within⟩ :=
                more middle ((Finset.card_le_card inside).trans_lt few)
              exact ⟨rest, by rw [List.foldlM_cons, one]; exact others, within.trans inside⟩
        obtain ⟨rest, done, inside⟩ := loop (edges root) _ smaller
        exact ⟨rest, done, inside.trans (Finset.erase_subset root alive)⟩
      case isFalse gone => exact ⟨alive, rfl, subset_rfl⟩

end Cascade

end Lyrion.Library.Cascade
