/- GID: Lyrion/Library/PrefixScan
   digest: Walking sorted keys from a given beginning up to the first key without it. -/

import Mathlib

set_option autoImplicit false
set_option relaxedAutoImplicit false

namespace Lyrion.Library.PrefixScan

variable {α : Type} [LinearOrder α] {p k m : List α} {keys : List (List α)}

/-- What an iterator goes over that starts at `p` and stops at the first key that does not begin
with it. -/
def scan (p : List α) (keys : List (List α)) : List (List α) :=
  (keys.dropWhile fun k => k < p).takeWhile fun k => p.isPrefixOf k

theorem cons_le_cons_iff {a b : α} : a :: p ≤ b :: m ↔ a < b ∨ a = b ∧ p ≤ m := by
  rw [le_iff_lt_or_eq, le_iff_lt_or_eq, List.cons_lt_cons_iff, List.cons.injEq]
  tauto

theorem le_of_isPrefix (start : p <+: k) : p ≤ k := by
  obtain ⟨rest, rfl⟩ := start
  induction p with
  | nil => exact not_lt.mp (List.not_lt_nil _)
  | cons a p ih => exact List.cons_le_cons a ih

theorem isPrefix_of_between (above : p ≤ m) (below : m ≤ k) (start : p <+: k) : p <+: m := by
  induction p generalizing m k with
  | nil => exact List.nil_prefix
  | cons a p ih =>
      obtain ⟨rest, rfl⟩ := start
      cases m with
      | nil => exact absurd above (by simp)
      | cons b m =>
          rw [List.cons_append] at below
          rcases cons_le_cons_iff.mp above with less | ⟨rfl, tail⟩
          · rcases cons_le_cons_iff.mp below with more | ⟨same, -⟩
            · exact absurd more less.asymm
            · exact absurd same less.ne'
          · rcases cons_le_cons_iff.mp below with more | ⟨-, within⟩
            · exact absurd more (lt_irrefl _)
            · exact List.cons_prefix_cons.mpr ⟨rfl, ih tail within ⟨rest, rfl⟩⟩

theorem takeWhile_eq_filter (sorted : keys.Pairwise (· ≤ ·)) (above : ∀ k ∈ keys, p ≤ k) :
    (keys.takeWhile fun k => p.isPrefixOf k) = keys.filter fun k => p.isPrefixOf k := by
  induction keys with
  | nil => rfl
  | cons k keys ih =>
      obtain ⟨first, later⟩ := List.pairwise_cons.mp sorted
      cases start : p.isPrefixOf k with
      | true =>
          rw [List.takeWhile_cons_of_pos start, List.filter_cons_of_pos start,
            ih later fun m member => above m (List.mem_cons_of_mem k member)]
      | false =>
          have none_later : ∀ m ∈ k :: keys, ¬ p.isPrefixOf m = true := by
            intro m member found
            have between : k ≤ m := by
              rcases List.mem_cons.mp member with rfl | member
              · exact le_rfl
              · exact first m member
            have here := isPrefix_of_between (above k List.mem_cons_self) between
              (List.isPrefixOf_iff_prefix.mp found)
            rw [List.isPrefixOf_iff_prefix.mpr here] at start
            exact Bool.noConfusion start
          rw [List.takeWhile_cons_of_neg (by simp [start]), List.filter_eq_nil_iff.mpr none_later]

theorem scan_eq_filter (sorted : keys.Pairwise (· ≤ ·)) :
    scan p keys = keys.filter fun k => p.isPrefixOf k := by
  induction keys with
  | nil => rfl
  | cons k keys ih =>
      obtain ⟨first, later⟩ := List.pairwise_cons.mp sorted
      by_cases less : k < p
      · have absent : ¬ p.isPrefixOf k = true := fun found =>
          less.not_ge (le_of_isPrefix (List.isPrefixOf_iff_prefix.mp found))
        rw [scan, List.dropWhile_cons_of_pos (by simpa using less), List.filter_cons_of_neg absent]
        exact ih later
      · have reached : p ≤ k := not_lt.mp less
        rw [scan, List.dropWhile_cons_of_neg (by simpa using less)]
        refine takeWhile_eq_filter sorted ?_
        intro m member
        rcases List.mem_cons.mp member with rfl | member
        · exact reached
        · exact reached.trans (first m member)

end Lyrion.Library.PrefixScan
