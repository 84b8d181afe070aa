/- GID: Lyrion/Library/Merkle
   digest: Trees over lists by combining neighbours, an odd level repeating its last element, and
     what equal roots say about the lists. -/

import Mathlib

set_option autoImplicit false
set_option relaxedAutoImplicit false

namespace Lyrion.Library.Merkle

variable {height depth : Nat}

variable {α : Type}

def neighbours : List α → List (α × α)
  | a :: b :: rest => (a, b) :: neighbours rest
  | _ => []

def pad (l : List α) : List α := if l.length % 2 = 1 then l ++ l.getLast?.toList else l

theorem prefix_pad (l : List α) : l <+: pad l := by
  unfold pad
  split
  · exact List.prefix_append _ _
  · exact List.prefix_rfl

theorem length_pad (l : List α) : (pad l).length = l.length + l.length % 2 := by
  unfold pad
  split
  case isTrue odd =>
    have nonempty : l ≠ [] := by
      rintro rfl
      simp at odd
    simp [List.getLast?_eq_some_getLast nonempty, odd]
  case isFalse even => omega

theorem length_neighbours (l : List α) : (neighbours l).length = l.length / 2 := by
  fun_induction neighbours l with
  | case1 a b rest ih =>
      simp only [List.length_cons, ih]
      omega
  | case2 l short =>
      match l with
      | [] => simp
      | [a] => simp
      | a :: b :: rest => exact absurd rfl (short a b rest)

theorem prefix_of_neighbours {l m : List α} (even : l.length % 2 = 0)
    (front : neighbours l <+: neighbours m) : l <+: m := by
  fun_induction neighbours l generalizing m with
  | case1 a b rest ih =>
      match m with
      | [] => exact absurd (List.prefix_nil.mp front) (by simp)
      | [x] => exact absurd (List.prefix_nil.mp front) (by simp)
      | x :: y :: others =>
          obtain ⟨same, tail⟩ := List.cons_prefix_cons.mp front
          obtain ⟨rfl, rfl⟩ := Prod.mk.inj same
          have shorter : rest.length % 2 = 0 := by
            simp only [List.length_cons] at even
            omega
          exact List.cons_prefix_cons.mpr ⟨rfl, List.cons_prefix_cons.mpr ⟨rfl, ih shorter tail⟩⟩
  | case2 l short =>
      match l with
      | [] => exact List.nil_prefix
      | [a] => simp at even
      | a :: b :: rest => exact absurd rfl (short a b rest)

theorem prefix_of_map {β : Type} {f : α → β} {l m : List α}
    (injective : ∀ a ∈ l, ∀ b ∈ m, f a = f b → a = b) (front : l.map f <+: m.map f) : l <+: m := by
  induction l generalizing m with
  | nil => exact List.nil_prefix
  | cons a l ih =>
      cases m with
      | nil => exact absurd (List.prefix_nil.mp front) (by simp)
      | cons b m =>
          obtain ⟨same, tail⟩ := List.cons_prefix_cons.mp front
          obtain rfl := injective a List.mem_cons_self b List.mem_cons_self same
          refine List.cons_prefix_cons.mpr ⟨rfl, ih ?_ tail⟩
          intro x left y right
          exact injective x (List.mem_cons_of_mem _ left) y (List.mem_cons_of_mem _ right)

section Tree

variable (node : α → α → α)

def combine (p : α × α) : α := node p.1 p.2

def level (l : List α) : List α := (neighbours (pad l)).map (combine node)

theorem length_level (l : List α) : (level node l).length = (l.length + l.length % 2) / 2 := by
  rw [level, List.length_map, length_neighbours, length_pad]

/-- A list with its root, the number of levels above it and the pairs that are combined there. -/
inductive Reduces : Nat → List α → List (α × α) → α → Prop
  | root (r : α) : Reduces 0 [r] [] r
  | above {height : Nat} {l : List α} {pairs : List (α × α)} {r : α} (long : 1 < l.length)
      (rest : Reduces height (level node l) pairs r) :
      Reduces (height + 1) l (neighbours (pad l) ++ pairs) r

def reduce : Nat → List α → List α
  | 0, l => l
  | fuel + 1, l => if 1 < l.length then reduce fuel (level node l) else l

def combined : Nat → List α → List (α × α)
  | 0, _ => []
  | fuel + 1, l =>
      if 1 < l.length then neighbours (pad l) ++ combined fuel (level node l) else []

theorem exists_reduces {fuel : Nat} {l : List α} (nonempty : l ≠ [])
    (enough : l.length ≤ fuel) :
    ∃ height r, reduce node fuel l = [r] ∧ Reduces node height l (combined node fuel l) r := by
  induction fuel generalizing l with
  | zero => exact absurd (List.length_eq_zero_iff.mp (Nat.le_zero.mp enough)) nonempty
  | succ fuel ih =>
      have positive := List.length_pos_of_ne_nil nonempty
      by_cases long : 1 < l.length
      · have shorter := length_level node l
        have some_left : level node l ≠ [] := List.ne_nil_of_length_pos (by omega)
        obtain ⟨height, r, reduced, levels⟩ := ih some_left (by omega)
        refine ⟨height + 1, r, ?_, ?_⟩
        · rw [reduce, if_pos long, reduced]
        · rw [combined, if_pos long]
          exact .above long levels
      · obtain ⟨r, rfl⟩ := List.length_eq_one_iff.mp (Nat.le_antisymm (Nat.not_lt.mp long) positive)
        exact ⟨0, r, rfl, .root r⟩

variable {node}

theorem Reduces.nonempty {l : List α} {pairs : List (α × α)} {r : α}
    (levels : Reduces node height l pairs r) : l ≠ [] := by
  cases levels with
  | root => simp
  | above long rest => exact List.ne_nil_of_length_pos (by omega)

theorem Reduces.prefix_of_height {l m : List α} {pairs others : List (α × α)} {r : α}
    (left : Reduces node height l pairs r) (right : Reduces node height m others r)
    (injective : ∀ p ∈ pairs, ∀ q ∈ others, combine node p = combine node q → p = q) :
    l <+: m ∨ m <+: l := by
  induction left generalizing m others with
  | root r =>
      cases right
      exact Or.inl List.prefix_rfl
  | @above height l pairs r long rest ih =>
      cases right with
      | @above _ _ others _ wide tail =>
          have apart := ih tail fun p left q right =>
            injective p (List.mem_append_right _ left) q (List.mem_append_right _ right)
          have even (k : List α) : (pad k).length % 2 = 0 := by
            rw [length_pad]
            omega
          rcases apart with front | front
          · have pads : pad l <+: pad m := by
              refine prefix_of_neighbours (even l) (prefix_of_map ?_ front)
              intro p left q right
              exact injective p (List.mem_append_left _ left) q (List.mem_append_left _ right)
            exact List.prefix_or_prefix_of_prefix ((prefix_pad l).trans pads) (prefix_pad m)
          · have pads : pad m <+: pad l := by
              refine prefix_of_neighbours (even m) (prefix_of_map ?_ front)
              intro q right p left same
              exact (injective p (List.mem_append_left _ left) q (List.mem_append_left _ right)
                same.symm).symm
            exact List.prefix_or_prefix_of_prefix (prefix_pad l) ((prefix_pad m).trans pads)

theorem Reduces.height_of_length {l m : List α} {pairs others : List (α × α)} {r q : α}
    (left : Reduces node height l pairs r) (right : Reduces node depth m others q)
    (lengths : l.length = m.length) : height = depth := by
  induction left generalizing depth m others with
  | root r =>
      cases right with
      | root => rfl
      | above wide => exact absurd wide (by simp [← lengths])
  | @above height l pairs r long rest ih =>
      cases right with
      | root => exact absurd long (by simp [lengths])
      | above wide tail =>
          have levels : (level node l).length = (level node m).length := by
            rw [length_level, length_level, lengths]
          rw [ih tail levels]

theorem Reduces.eq_of_length {l m : List α} {pairs others : List (α × α)} {r : α}
    (left : Reduces node height l pairs r) (right : Reduces node depth m others r)
    (lengths : l.length = m.length)
    (injective : ∀ p ∈ pairs, ∀ q ∈ others, combine node p = combine node q → p = q) : l = m := by
  obtain rfl := left.height_of_length right lengths
  rcases left.prefix_of_height right injective with front | front
  · exact front.eq_of_length lengths
  · exact (front.eq_of_length lengths.symm).symm

theorem Reduces.descend {lower : Nat} {l : List α} {pairs : List (α × α)} {r : α}
    (levels : Reduces node height l pairs r) (below : lower < height) :
    ∃ k inner p, Reduces node lower k inner r ∧ inner ⊆ pairs ∧ p ∈ pairs ∧
      k.head? = some (combine node p) := by
  induction levels with
  | root r => exact absurd below (Nat.not_lt_zero lower)
  | @above height l pairs r long rest ih =>
      rcases Nat.lt_or_eq_of_le (Nat.le_of_lt_succ below) with deeper | rfl
      · obtain ⟨k, inner, p, levels, inside, member, first⟩ := ih deeper
        exact ⟨k, inner, p, levels, fun q here => List.mem_append_right _ (inside here),
          List.mem_append_right _ member, first⟩
      · have some_pair : neighbours (pad l) ≠ [] := by
          apply List.ne_nil_of_length_pos
          rw [length_neighbours, length_pad]
          omega
        refine ⟨_, pairs, (neighbours (pad l)).head some_pair, rest, fun q here =>
          List.mem_append_right _ here, List.mem_append_left _ (List.head_mem some_pair), ?_⟩
        rw [level, List.head?_map, List.head?_eq_some_head some_pair]
        rfl

theorem head_of_front {l m : List α} (nonempty : l ≠ []) (other : m ≠ [])
    (apart : l <+: m ∨ m <+: l) : l.head? = m.head? := by
  rcases apart with ⟨rest, rfl⟩ | ⟨rest, rfl⟩
  · exact (List.head?_append_of_ne_nil l nonempty).symm
  · exact List.head?_append_of_ne_nil m other

/-- Lists with the same root are continuations of each other, unless two pairs collide or an
element is the value of a pair. -/
theorem Reduces.prefix_of_root {l m : List α} {pairs others : List (α × α)} {r : α}
    (left : Reduces node height l pairs r) (right : Reduces node depth m others r)
    (injective : ∀ p ∈ pairs, ∀ q ∈ others, combine node p = combine node q → p = q)
    (leaves : ∀ a ∈ l, ∀ q ∈ others, a ≠ combine node q)
    (fruits : ∀ b ∈ m, ∀ p ∈ pairs, b ≠ combine node p) : l <+: m ∨ m <+: l := by
  rcases Nat.lt_trichotomy height depth with lower | rfl | higher
  · obtain ⟨k, inner, q, levels, inside, member, first⟩ := right.descend lower
    have apart := left.prefix_of_height levels fun p here q there =>
      injective p here q (inside there)
    have same := head_of_front left.nonempty levels.nonempty apart
    rw [first] at same
    exact absurd rfl (leaves _ (List.mem_of_mem_head? same) q member)
  · exact left.prefix_of_height right injective
  · obtain ⟨k, inner, p, levels, inside, member, first⟩ := left.descend higher
    have apart := right.prefix_of_height levels fun q there p here same =>
      (injective p (inside here) q there same.symm).symm
    have same := head_of_front right.nonempty levels.nonempty apart
    rw [first] at same
    exact absurd rfl (fruits _ (List.mem_of_mem_head? same) p member)

end Tree

end Lyrion.Library.Merkle
