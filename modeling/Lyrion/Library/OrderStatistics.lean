/- GID: Lyrion/Library/OrderStatistics
   digest: The middle entry of a list by order, compared with a bound by counting, and what it does
     when the list grows or slides. -/

import Mathlib

set_option autoImplicit false
set_option relaxedAutoImplicit false

namespace Lyrion.Library.OrderStatistics

variable {α : Type} [LinearOrder α]

def nth (k : Nat) (xs : List α) (default : α) : α := (xs.insertionSort (· ≤ ·)).getD k default

def middle (xs : List α) (default : α) : α := nth (xs.length / 2) xs default

theorem le_getD_iff_countP {xs : List α} (sorted : xs.Pairwise (· ≤ ·)) {k : Nat}
    (inside : k < xs.length) (bound default : α) :
    bound ≤ xs.getD k default ↔ xs.countP (· < bound) ≤ k := by
  induction xs generalizing k with
  | nil => simp at inside
  | cons x xs ih =>
      obtain ⟨least, rest⟩ := List.pairwise_cons.mp sorted
      rcases lt_or_ge x bound with below | above
      · rw [List.countP_cons_of_pos (by simpa using below)]
        cases k with
        | zero => simpa using below
        | succ k =>
            rw [List.getD_cons_succ, ih rest (by simpa using inside)]
            omega
      · -- nothing that follows is below the bound either
        have none_below : (x :: xs).countP (· < bound) = 0 := by
          rw [List.countP_eq_zero]
          intro y member
          rcases List.mem_cons.mp member with rfl | later
          · simpa using above
          · simpa using above.trans (least y later)
        have all_above : bound ≤ (x :: xs).getD k default := by
          rw [List.getD_eq_getElem _ _ inside]
          rcases List.mem_cons.mp (List.getElem_mem inside) with same | later
          · exact above.trans_eq same.symm
          · exact above.trans (least _ later)
        rw [none_below]
        exact iff_of_true all_above (Nat.zero_le k)

theorem le_nth_iff {xs : List α} {k : Nat} (inside : k < xs.length) (bound default : α) :
    bound ≤ nth k xs default ↔ xs.countP (· < bound) ≤ k := by
  have perm := xs.perm_insertionSort (· ≤ ·)
  rw [nth, le_getD_iff_countP (xs.pairwise_insertionSort (· ≤ ·))
    (by simpa using inside), perm.countP_eq]

variable {xs : List α} {default : α}

theorem le_middle_iff (nonempty : xs ≠ []) (bound : α) :
    bound ≤ middle xs default ↔ xs.countP (· < bound) ≤ xs.length / 2 :=
  le_nth_iff (Nat.div_lt_self (List.length_pos_iff.mpr nonempty) one_lt_two) bound default

theorem middle_lt_iff (nonempty : xs ≠ []) (bound : α) :
    middle xs default < bound ↔ xs.length / 2 < xs.countP (· < bound) := by
  rw [← not_le, le_middle_iff nonempty, not_le]

theorem countP_lt_middle (nonempty : xs ≠ []) (default : α) :
    xs.countP (· < middle xs default) ≤ xs.length / 2 :=
  (le_middle_iff nonempty _).mp le_rfl

theorem middle_le_cons (nonempty : xs ≠ []) {x : α} (above : middle xs default ≤ x) :
    middle xs default ≤ middle (x :: xs) default := by
  have few := countP_lt_middle nonempty default
  rw [le_middle_iff (List.cons_ne_nil x xs), List.countP_cons_of_neg (by simpa using above),
    List.length_cons]
  omega

theorem middle_le_slide {x old : α} (above : middle (xs ++ [old]) default ≤ x) :
    middle (xs ++ [old]) default ≤ middle (x :: xs) default := by
  -- Whichever entry leaves, no more are below the old middle than before.
  have nonempty : xs ++ [old] ≠ [] := by simp
  have few := countP_lt_middle nonempty default
  rw [le_middle_iff (List.cons_ne_nil x xs), List.countP_cons_of_neg (by simpa using above)]
  rw [List.countP_append, List.length_append] at few
  simp only [List.length_cons, List.length_nil] at few ⊢
  omega

end Lyrion.Library.OrderStatistics
