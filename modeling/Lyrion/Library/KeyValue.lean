/- GID: Lyrion/Library/KeyValue
   digest: Families of finite maps, ordered write batches, totals over a map, sorted keys. -/

import Mathlib

set_option autoImplicit false
set_option relaxedAutoImplicit false

namespace Lyrion.Library.KeyValue

abbrev Map (κ ν : Type) := Finmap fun _ : κ => ν

inductive Write (κ ν : Type) where
  | put (key : κ) (value : ν)
  | delete (key : κ)
  deriving DecidableEq

namespace Write

variable {κ ν : Type}

def key : Write κ ν → κ
  | put k _ => k
  | delete k => k

def left : Write κ ν → Option ν
  | put _ v => some v
  | delete _ => none

end Write

section Effects

variable {κ ν : Type}

def deletedKeys : List (Write κ ν) → List κ
  | [] => []
  | .put _ _ :: ws => deletedKeys ws
  | .delete k :: ws => k :: deletedKeys ws

def putTotal (val : ν → Nat) : List (Write κ ν) → Nat
  | [] => 0
  | .put _ v :: ws => val v + putTotal val ws
  | .delete _ :: ws => putTotal val ws

theorem deletedKeys_append (us ws : List (Write κ ν)) :
    deletedKeys (us ++ ws) = deletedKeys us ++ deletedKeys ws := by
  induction us with
  | nil => rfl
  | cons u us ih => cases u <;> simp [deletedKeys, ih]

@[simp] theorem deletedKeys_map_delete {α : Type} (key : α → κ) (as : List α) :
    deletedKeys (as.map fun a => (.delete (key a) : Write κ ν)) = as.map key := by
  induction as with
  | nil => rfl
  | cons a as ih => simp [deletedKeys, ih]

@[simp] theorem deletedKeys_map_put {α : Type} (key : α → κ) (value : α → ν) (as : List α) :
    deletedKeys (as.map fun a => .put (key a) (value a)) = [] := by
  induction as with
  | nil => rfl
  | cons a as ih => simp [deletedKeys, ih]

theorem deletedKeys_flatMap {α : Type} (writes : α → List (Write κ ν)) (as : List α) :
    deletedKeys (as.flatMap writes) = as.flatMap fun a => deletedKeys (writes a) := by
  induction as with
  | nil => rfl
  | cons a as ih => simp [List.flatMap_cons, deletedKeys_append, ih]

theorem putTotal_append (val : ν → Nat) (us ws : List (Write κ ν)) :
    putTotal val (us ++ ws) = putTotal val us + putTotal val ws := by
  induction us with
  | nil => simp [putTotal]
  | cons u us ih => cases u <;> simp [putTotal, ih, Nat.add_assoc]

def total (val : ν → Nat) (m : Map κ ν) : Nat := (m.entries.map fun e => val e.2).sum

section Tallies

variable {μ : Type} [AddCommMonoid μ] (f : κ → ν → μ)

def tally (m : Map κ ν) : μ := (m.entries.map fun e => f e.1 e.2).sum

def putTally : List (Write κ ν) → μ
  | [] => 0
  | .put k v :: ws => f k v + putTally ws
  | .delete _ :: ws => putTally ws

theorem putTally_append (us ws : List (Write κ ν)) :
    putTally f (us ++ ws) = putTally f us + putTally f ws := by
  induction us with
  | nil => simp [putTally]
  | cons u us ih => cases u <;> simp [putTally, ih, add_assoc]

end Tallies

end Effects

section Maps

variable {κ ν : Type} [DecidableEq κ]

def applyWrite (m : Map κ ν) : Write κ ν → Map κ ν
  | .put k v => m.insert k v
  | .delete k => m.erase k

def applyWrites (m : Map κ ν) (ws : List (Write κ ν)) : Map κ ν := ws.foldl applyWrite m

@[simp] theorem applyWrites_nil (m : Map κ ν) : applyWrites m [] = m := rfl

@[simp] theorem applyWrites_cons (m : Map κ ν) (w : Write κ ν) (ws : List (Write κ ν)) :
    applyWrites m (w :: ws) = applyWrites (applyWrite m w) ws := rfl

theorem applyWrites_append (m : Map κ ν) (us ws : List (Write κ ν)) :
    applyWrites m (us ++ ws) = applyWrites (applyWrites m us) ws := by
  simp only [applyWrites, List.foldl_append]

theorem lookup_applyWrite (m : Map κ ν) (w : Write κ ν) (k : κ) :
    (applyWrite m w).lookup k = if k = w.key then w.left else m.lookup k := by
  cases w with
  | put k' v =>
      by_cases same : k = k'
      · subst same
        simp [applyWrite, Write.key, Write.left]
      · simp [applyWrite, Write.key, same]
  | delete k' =>
      by_cases same : k = k'
      · subst same
        simp [applyWrite, Write.key, Write.left]
      · simp [applyWrite, Write.key, same]

theorem lookup_applyWrites_of_untouched (m : Map κ ν) (ws : List (Write κ ν)) (k : κ)
    (untouched : ∀ w ∈ ws, w.key ≠ k) : (applyWrites m ws).lookup k = m.lookup k := by
  induction ws generalizing m with
  | nil => rfl
  | cons w ws ih =>
      rw [applyWrites_cons, ih _ (fun u hu => untouched u (List.mem_cons_of_mem _ hu)),
        lookup_applyWrite, if_neg]
      exact fun same => untouched w List.mem_cons_self same.symm

theorem lookup_applyWrites_of_touched (m : Map κ ν) (ws : List (Write κ ν)) (k : κ)
    (touched : ∃ w ∈ ws, w.key = k) :
    ∃ w ∈ ws, w.key = k ∧ (applyWrites m ws).lookup k = w.left := by
  induction ws generalizing m with
  | nil => simp at touched
  | cons w ws ih =>
      rw [applyWrites_cons]
      by_cases later : ∃ u ∈ ws, u.key = k
      · obtain ⟨u, member, hits, content⟩ := ih (applyWrite m w) later
        exact ⟨u, List.mem_cons_of_mem _ member, hits, content⟩
      · push Not at later
        obtain ⟨u, member, hits⟩ := touched
        rcases List.mem_cons.mp member with same | member
        · subst same
          refine ⟨u, List.mem_cons_self, hits, ?_⟩
          rw [lookup_applyWrites_of_untouched _ _ _ later, lookup_applyWrite, if_pos hits.symm]
        · exact absurd hits (later u member)

theorem lookup_applyWrites_of_agree (m : Map κ ν) (ws : List (Write κ ν)) (k : κ) (o : Option ν)
    (agree : ∀ w ∈ ws, w.key = k → w.left = o) (touched : ∃ w ∈ ws, w.key = k) :
    (applyWrites m ws).lookup k = o := by
  obtain ⟨w, member, hits, content⟩ := lookup_applyWrites_of_touched m ws k touched
  exact content.trans (agree w member hits)

theorem lookup_of_erased {m : Map κ ν} {ws : List (Write κ ν)} {k : κ} {v : ν}
    (erased : ∀ w ∈ ws, w.key = k → w.left = none)
    (found : (applyWrites m ws).lookup k = some v) : m.lookup k = some v := by
  by_cases touched : ∃ w ∈ ws, w.key = k
  · rw [lookup_applyWrites_of_agree m ws k none erased touched] at found
    exact absurd found (by simp)
  · rwa [lookup_applyWrites_of_untouched m ws k fun w member same =>
      touched ⟨w, member, same⟩] at found

theorem lookup_applyWrites_congr (m n : Map κ ν) (ws : List (Write κ ν)) (k : κ)
    (same : (∃ w ∈ ws, w.key = k) ∨ m.lookup k = n.lookup k) :
    (applyWrites m ws).lookup k = (applyWrites n ws).lookup k := by
  induction ws generalizing m n with
  | nil => simpa using same
  | cons w ws ih =>
      rw [applyWrites_cons, applyWrites_cons]
      apply ih
      by_cases hits : k = w.key
      · refine Or.inr ?_
        rw [lookup_applyWrite, lookup_applyWrite, if_pos hits, if_pos hits]
      · rcases same with ⟨u, member, touched⟩ | same
        · rcases List.mem_cons.mp member with rfl | member
          · exact absurd touched.symm hits
          · exact Or.inl ⟨u, member, touched⟩
        · refine Or.inr ?_
          rw [lookup_applyWrite, lookup_applyWrite, if_neg hits, if_neg hits, same]

/-- Putting fresh keys and then deleting some keys gives the map back exactly when every key put
is deleted and no key deleted was there at the start. -/
theorem applyWrites_undo_iff (m : Map κ ν) (puts deletes : List (Write κ ν))
    (stored : ∀ w ∈ puts, w.left ≠ none) (fresh : ∀ w ∈ puts, m.lookup w.key = none)
    (removing : ∀ w ∈ deletes, w.left = none) :
    applyWrites (applyWrites m puts) deletes = m ↔
      (∀ w ∈ puts, ∃ u ∈ deletes, u.key = w.key) ∧ ∀ u ∈ deletes, m.lookup u.key = none := by
  have deleted (k : κ) (touched : ∃ u ∈ deletes, u.key = k) :
      (applyWrites (applyWrites m puts) deletes).lookup k = none :=
    lookup_applyWrites_of_agree _ _ _ _ (fun u member _ => removing u member) touched
  constructor
  · intro same
    refine ⟨?_, ?_⟩
    · intro w member
      by_contra missed
      push Not at missed
      have kept := lookup_applyWrites_of_untouched (applyWrites m puts) deletes w.key missed
      rw [same, fresh w member] at kept
      obtain ⟨u, inside, -, content⟩ := lookup_applyWrites_of_touched m puts w.key ⟨w, member, rfl⟩
      exact stored u inside (content.symm.trans kept.symm)
    · intro u member
      rw [← same]
      exact deleted _ ⟨u, member, rfl⟩
  · rintro ⟨covered, absent⟩
    apply Finmap.ext_lookup
    intro k
    by_cases touched : ∃ u ∈ deletes, u.key = k
    · obtain ⟨u, member, rfl⟩ := touched
      rw [deleted _ ⟨u, member, rfl⟩, absent u member]
    · push Not at touched
      rw [lookup_applyWrites_of_untouched _ _ _ touched]
      apply lookup_applyWrites_of_untouched
      intro w member same
      obtain ⟨u, inside, hits⟩ := covered w member
      exact touched u inside (hits.trans same)

theorem applyWrites_deletes_eq_iff (m n : Map κ ν) (deletes ws : List (Write κ ν))
    (removing : ∀ u ∈ deletes, u.left = none)
    (same : ∀ k, (∀ u ∈ deletes, u.key ≠ k) → m.lookup k = n.lookup k) :
    applyWrites (applyWrites m deletes) ws = applyWrites n ws ↔
      ∀ u ∈ deletes, (∃ w ∈ ws, w.key = u.key) ∨ n.lookup u.key = none := by
  have deleted (k : κ) (touched : ∃ u ∈ deletes, u.key = k) :
      (applyWrites m deletes).lookup k = none :=
    lookup_applyWrites_of_agree _ _ _ _ (fun u member _ => removing u member) touched
  constructor
  · intro equal u member
    by_cases again : ∃ w ∈ ws, w.key = u.key
    · exact Or.inl again
    · push Not at again
      have kept := lookup_applyWrites_of_untouched (applyWrites m deletes) ws u.key again
      rw [equal, lookup_applyWrites_of_untouched n ws u.key again,
        deleted _ ⟨u, member, rfl⟩] at kept
      exact Or.inr kept
  · intro covered
    apply Finmap.ext_lookup
    intro k
    apply lookup_applyWrites_congr
    by_cases touched : ∃ u ∈ deletes, u.key = k
    · rw [deleted k touched]
      obtain ⟨u, member, rfl⟩ := touched
      exact (covered u member).imp_right Eq.symm
    · push Not at touched
      refine Or.inr ?_
      rw [lookup_applyWrites_of_untouched _ _ _ touched]
      exact same k touched

def valueAt (val : ν → Nat) (m : Map κ ν) (k : κ) : Nat := ((m.lookup k).map val).getD 0

private theorem insert_erase_self (m : Map κ ν) (k : κ) (v : ν) :
    (m.erase k).insert k v = m.insert k v := by
  apply Finmap.ext_lookup
  intro x
  by_cases hx : x = k
  · subst hx
    rw [Finmap.lookup_insert, Finmap.lookup_insert]
  · rw [Finmap.lookup_insert_of_ne _ hx, Finmap.lookup_insert_of_ne _ hx,
      Finmap.lookup_erase_ne hx]

private theorem insert_of_lookup {m : Map κ ν} {k : κ} {v : ν} (found : m.lookup k = some v) :
    m.insert k v = m := by
  apply Finmap.ext_lookup
  intro x
  by_cases hx : x = k
  · subst hx
    rw [Finmap.lookup_insert, found]
  · rw [Finmap.lookup_insert_of_ne _ hx]

section Tallies

variable {μ : Type} [AddCommMonoid μ] (f : κ → ν → μ)

def measureAt (m : Map κ ν) (k : κ) : μ := ((m.lookup k).map (f k)).getD 0

theorem measureAt_insert_of_ne (m : Map κ ν) {k x : κ} (v : ν) (other : x ≠ k) :
    measureAt f (m.insert k v) x = measureAt f m x := by
  rw [measureAt, measureAt, Finmap.lookup_insert_of_ne _ other]

theorem measureAt_erase_of_ne (m : Map κ ν) {k x : κ} (other : x ≠ k) :
    measureAt f (m.erase k) x = measureAt f m x := by
  rw [measureAt, measureAt, Finmap.lookup_erase_ne other]

theorem tally_eq_sum_keys (m : Map κ ν) : tally f m = ∑ k ∈ m.keys, measureAt f m k := by
  have each : ∀ e ∈ m.entries, f e.1 e.2 = measureAt f m e.1 := by
    intro e member
    rw [measureAt, Finmap.mem_lookup_iff.mpr member]
    rfl
  rw [tally, Multiset.map_congr rfl each]
  simp [Finset.sum, Finmap.keys, Multiset.keys]

theorem tally_insert_of_notMem {m : Map κ ν} {k : κ} (v : ν) (fresh : k ∉ m) :
    tally f (m.insert k v) = f k v + tally f m := by
  simp [tally, Finmap.entries_insert_of_notMem fresh]

theorem tally_erase (m : Map κ ν) (k : κ) :
    tally f (m.erase k) + measureAt f m k = tally f m := by
  cases found : m.lookup k with
  | none =>
      have same : m.erase k = m := by
        apply Finmap.ext_lookup
        intro x
        by_cases hx : x = k
        · subst hx
          rw [Finmap.lookup_erase, found]
        · rw [Finmap.lookup_erase_ne hx]
      simp [same, measureAt, found]
  | some v =>
      have sum := tally_insert_of_notMem f v (@Finmap.notMem_erase_self κ (fun _ => ν) _ k m)
      rw [insert_erase_self, insert_of_lookup found] at sum
      simp only [measureAt, found, Option.map_some, Option.getD_some]
      rw [sum, add_comm]

theorem tally_insert (m : Map κ ν) (k : κ) (v : ν) :
    tally f (m.insert k v) + measureAt f m k = f k v + tally f m := by
  rw [← insert_erase_self, tally_insert_of_notMem f v Finmap.notMem_erase_self, add_assoc,
    tally_erase]

def PutsFresh (m : Map κ ν) : List (Write κ ν) → Prop
  | [] => True
  | .put k v :: ws => k ∉ m ∧ PutsFresh (m.insert k v) ws
  | .delete k :: ws => PutsFresh (m.erase k) ws

instance decidablePutsFresh (m : Map κ ν) : (ws : List (Write κ ν)) → Decidable (PutsFresh m ws)
  | [] => instDecidableTrue
  | .put k v :: ws =>
      have := decidablePutsFresh (m.insert k v) ws
      inferInstanceAs (Decidable (k ∉ m ∧ PutsFresh (m.insert k v) ws))
  | .delete k :: ws => decidablePutsFresh (m.erase k) ws

theorem tally_applyWrites (m : Map κ ν) (ws : List (Write κ ν)) (nodup : (deletedKeys ws).Nodup)
    (present : ∀ k ∈ deletedKeys ws, k ∈ m) (fresh : PutsFresh m ws) :
    tally f (applyWrites m ws) + ((deletedKeys ws).map (measureAt f m)).sum =
      tally f m + putTally f ws := by
  induction ws generalizing m with
  | nil => simp [deletedKeys, putTally]
  | cons w ws ih =>
      cases w with
      | put k v =>
          obtain ⟨absent, later⟩ := fresh
          have kept : (deletedKeys ws).map (measureAt f (m.insert k v)) =
              (deletedKeys ws).map (measureAt f m) := by
            apply List.map_congr_left
            intro x member
            apply measureAt_insert_of_ne
            rintro rfl
            exact absent (present x member)
          have step := ih (m.insert k v) nodup
            (fun x member => Finmap.mem_insert.mpr (Or.inr (present x member))) later
          rw [kept, tally_insert_of_notMem f v absent] at step
          simp only [applyWrites_cons, applyWrite, deletedKeys, putTally]
          rw [step, add_comm (f k v), add_assoc]
      | delete k =>
          obtain ⟨once, rest⟩ := List.nodup_cons.mp nodup
          have other (x : κ) (member : x ∈ deletedKeys ws) : x ≠ k := by
            rintro rfl
            exact once member
          have kept : (deletedKeys ws).map (measureAt f (m.erase k)) =
              (deletedKeys ws).map (measureAt f m) :=
            List.map_congr_left fun x member => measureAt_erase_of_ne f m (other x member)
          have step := ih (m.erase k) rest (fun x member => Finmap.mem_erase.mpr
            ⟨other x member, present x (List.mem_cons_of_mem _ member)⟩) fresh
          rw [kept] at step
          simp only [applyWrites_cons, applyWrite, deletedKeys, putTally, List.map_cons,
            List.sum_cons]
          rw [← tally_erase f m k, add_left_comm, step, ← add_assoc, add_comm (measureAt f m k)]

end Tallies

theorem total_erase (val : ν → Nat) (m : Map κ ν) (k : κ) :
    total val (m.erase k) + valueAt val m k = total val m :=
  tally_erase (fun _ => val) m k

theorem total_insert (val : ν → Nat) (m : Map κ ν) (k : κ) (v : ν) :
    total val (m.insert k v) + valueAt val m k = val v + total val m :=
  tally_insert (fun _ => val) m k v

theorem total_mono (val : ν → Nat) {part m : Map κ ν}
    (inside : ∀ k v, part.lookup k = some v → m.lookup k = some v) :
    total val part ≤ total val m := by
  have keys : part.keys ⊆ m.keys := by
    intro k member
    obtain ⟨v, found⟩ := Finmap.mem_iff.mp (Finmap.mem_keys.mp member)
    exact Finmap.mem_keys.mpr (Finmap.mem_iff.mpr ⟨v, inside k v found⟩)
  have same : ∀ k ∈ part.keys, measureAt (fun _ => val) part k = measureAt (fun _ => val) m k := by
    intro k member
    obtain ⟨v, found⟩ := Finmap.mem_iff.mp (Finmap.mem_keys.mp member)
    rw [measureAt, measureAt, found, inside k v found]
  calc total val part = ∑ k ∈ part.keys, measureAt (fun _ => val) part k :=
        tally_eq_sum_keys (fun _ => val) part
    _ = ∑ k ∈ part.keys, measureAt (fun _ => val) m k := Finset.sum_congr rfl same
    _ ≤ ∑ k ∈ m.keys, measureAt (fun _ => val) m k := Finset.sum_le_sum_of_subset keys
    _ = total val m := (tally_eq_sum_keys (fun _ => val) m).symm

theorem total_le (val : ν → Nat) (m : Map κ ν) (bound : Nat)
    (bounded : ∀ k v, m.lookup k = some v → val v ≤ bound) :
    total val m ≤ m.keys.card * bound := by
  have each : ∀ x ∈ m.entries.map (fun e => val e.2), x ≤ bound := by
    intro x member
    obtain ⟨e, listed, rfl⟩ := Multiset.mem_map.mp member
    exact bounded e.1 e.2 (Finmap.lookup_eq_some_iff.mpr listed)
  have sum := Multiset.sum_le_card_nsmul _ bound each
  have count : (m.entries.map fun e => val e.2).card = m.keys.card := by
    rw [Multiset.card_map]
    exact (Multiset.card_map Sigma.fst m.entries).symm
  rwa [count, smul_eq_mul] at sum

private theorem sum_valueAt_insert (val : ν → Nat) (m : Map κ ν) (k : κ) (v : ν) (ks : List κ)
    (nodup : ks.Nodup) :
    (k ∈ ks → (ks.map (valueAt val m)).sum + val v =
      (ks.map (valueAt val (m.insert k v))).sum + valueAt val m k) ∧
    (k ∉ ks → (ks.map (valueAt val m)).sum = (ks.map (valueAt val (m.insert k v))).sum) := by
  induction ks with
  | nil => simp
  | cons x ks ih =>
      obtain ⟨fresh, rest⟩ := List.nodup_cons.mp nodup
      obtain ⟨inside, outside⟩ := ih rest
      by_cases hx : x = k
      · subst hx
        have new : valueAt val (m.insert x v) x = val v := by simp [valueAt]
        have tail := outside fresh
        simp only [List.map_cons, List.sum_cons, new, List.mem_cons, true_or, not_true,
          forall_const, false_implies, and_true]
        omega
      · have kept : valueAt val (m.insert k v) x = valueAt val m x := by
          simp [valueAt, Finmap.lookup_insert_of_ne _ hx]
        have other : k ≠ x := fun h => hx h.symm
        simp only [List.map_cons, List.sum_cons, kept, List.mem_cons, other, false_or]
        refine ⟨fun h => ?_, fun h => ?_⟩
        · have := inside h
          omega
        · have := outside h
          omega

theorem total_applyWrites_le (val : ν → Nat) (m : Map κ ν) (ws : List (Write κ ν))
    (nodup : (deletedKeys ws).Nodup) :
    total val (applyWrites m ws) + ((deletedKeys ws).map (valueAt val m)).sum ≤
      total val m + putTotal val ws := by
  induction ws generalizing m with
  | nil => simp [deletedKeys, putTotal]
  | cons w ws ih =>
      cases w with
      | put k v =>
          have step := ih (m.insert k v) nodup
          have grown := total_insert val m k v
          obtain ⟨inside, outside⟩ := sum_valueAt_insert val m k v (deletedKeys ws) nodup
          simp only [applyWrites_cons, applyWrite, deletedKeys, putTotal]
          by_cases hk : k ∈ deletedKeys ws
          · have := inside hk
            omega
          · have := outside hk
            omega
      | delete k =>
          obtain ⟨fresh, rest⟩ := List.nodup_cons.mp nodup
          have step := ih (m.erase k) rest
          have shrunk := total_erase val m k
          have kept : (deletedKeys ws).map (valueAt val (m.erase k)) =
              (deletedKeys ws).map (valueAt val m) := by
            apply List.map_congr_left
            intro x hx
            have other : x ≠ k := fun h => fresh (h ▸ hx)
            simp [valueAt, Finmap.lookup_erase_ne other]
          simp only [applyWrites_cons, applyWrite, deletedKeys, putTotal, List.map_cons,
            List.sum_cons]
          rw [kept] at step
          omega

end Maps

section Stores

variable {γ κ ν : Type} [DecidableEq γ]

abbrev Store (γ κ ν : Type) := γ → Map κ ν

abbrev Batch (γ κ ν : Type) := List (γ × Write κ ν)

def writesTo (f : γ) (batch : Batch γ κ ν) : List (Write κ ν) :=
  batch.filterMap fun op => if op.1 = f then some op.2 else none

@[simp] theorem writesTo_nil (f : γ) : writesTo f ([] : Batch γ κ ν) = [] := rfl

@[simp] theorem writesTo_cons (f : γ) (op : γ × Write κ ν) (batch : Batch γ κ ν) :
    writesTo f (op :: batch) =
      if op.1 = f then op.2 :: writesTo f batch else writesTo f batch := by
  by_cases same : op.1 = f <;> simp [writesTo, same]

@[simp] theorem writesTo_append (f : γ) (a b : Batch γ κ ν) :
    writesTo f (a ++ b) = writesTo f a ++ writesTo f b := by
  simp [writesTo]

theorem writesTo_flatMap {α : Type} (f : γ) (g : α → Batch γ κ ν) (l : List α) :
    writesTo f (l.flatMap g) = l.flatMap fun a => writesTo f (g a) := by
  induction l with
  | nil => rfl
  | cons a l ih => simp [List.flatMap_cons, ih]

theorem mem_writesTo {f : γ} {w : Write κ ν} {batch : Batch γ κ ν} :
    w ∈ writesTo f batch ↔ (f, w) ∈ batch := by
  simp only [writesTo, List.mem_filterMap]
  constructor
  · rintro ⟨⟨g, u⟩, member, hit⟩
    by_cases same : g = f
    · subst same
      simp only [if_true, Option.some.injEq] at hit
      exact hit ▸ member
    · simp [same] at hit
  · intro member
    exact ⟨(f, w), member, by simp⟩

variable [DecidableEq κ]

def write (s : Store γ κ ν) (batch : Batch γ κ ν) : Store γ κ ν :=
  fun f => applyWrites (s f) (writesTo f batch)

theorem write_append (s : Store γ κ ν) (a b : Batch γ κ ν) :
    write s (a ++ b) = write (write s a) b := by
  funext f
  simp only [write, writesTo_append, applyWrites_append]

theorem write_of_no_writes (s : Store γ κ ν) (batch : Batch γ κ ν) (f : γ)
    (none_there : ∀ op ∈ batch, op.1 ≠ f) : write s batch f = s f := by
  have empty : writesTo f batch = [] := by
    apply List.eq_nil_iff_forall_not_mem.mpr
    intro w member
    exact none_there _ (mem_writesTo.mp member) rfl
  simp [write, empty]

end Stores

section Entries

variable {κ ν : Type} [DecidableEq κ]

def modify (m : Map κ ν) (k : κ) (change : ν → ν) : Map κ ν :=
  match m.lookup k with
  | none => m
  | some v => m.insert k (change v)

/-- Change the value under a key, starting from a default where it is absent. -/
def upsert (m : Map κ ν) (k : κ) (default : ν) (change : ν → ν) : Map κ ν :=
  m.insert k (change ((m.lookup k).getD default))

def retain (keep : ν → Bool) (m : Map κ ν) : Map κ ν where
  entries := m.entries.filter fun e => keep e.2
  nodupKeys := by
    rw [← Multiset.nodup_keys]
    have fewer : (m.entries.filter fun e => keep e.2 = true).keys ≤ m.entries.keys :=
      Multiset.map_le_map (Multiset.filter_le _ _)
    exact Multiset.nodup_of_le fewer m.nodupKeys.nodup_keys

theorem lookup_modify (m : Map κ ν) (k x : κ) (change : ν → ν) :
    (modify m k change).lookup x = if x = k then (m.lookup x).map change else m.lookup x := by
  unfold modify
  by_cases same : x = k
  · subst same
    rw [if_pos rfl]
    cases found : m.lookup x with
    | none => exact found
    | some v => simp
  · rw [if_neg same]
    cases m.lookup k with
    | none => rfl
    | some v => exact Finmap.lookup_insert_of_ne m same

theorem lookup_upsert (m : Map κ ν) (k x : κ) (default : ν) (change : ν → ν) :
    (upsert m k default change).lookup x =
      if x = k then some (change ((m.lookup k).getD default)) else m.lookup x := by
  unfold upsert
  by_cases same : x = k
  · subst same
    simp
  · rw [if_neg same, Finmap.lookup_insert_of_ne m same]

theorem lookup_applyWrites_map (m : Map κ ν) (writeTo : κ → Write κ ν)
    (own : ∀ k, (writeTo k).key = k) (keys : List κ) (k : κ) [Decidable (k ∈ keys)] :
    (applyWrites m (keys.map writeTo)).lookup k =
      if k ∈ keys then (writeTo k).left else m.lookup k := by
  split
  case isTrue listed =>
    refine lookup_applyWrites_of_agree m _ k _ ?_ ⟨writeTo k, List.mem_map_of_mem listed, own k⟩
    intro w member hits
    obtain ⟨x, -, rfl⟩ := List.mem_map.mp member
    rw [← (own x).symm.trans hits]
  case isFalse other =>
    refine lookup_applyWrites_of_untouched m _ k ?_
    intro w member hits
    obtain ⟨x, listed, rfl⟩ := List.mem_map.mp member
    exact other ((own x).symm.trans hits ▸ listed)

end Entries

section Sorted

variable {α : Type} (r : α → α → Prop) [DecidableRel r] [IsTrans α r] [Std.Antisymm r] [Std.Total r]

/-- `Finset.sort` by insertion, which evaluates in the kernel. -/
def sorted (s : Finset α) : List α :=
  Quot.liftOn s.val (List.insertionSort r) fun l l' same =>
    ((List.perm_insertionSort r l).trans
      (same.trans (List.perm_insertionSort r l').symm)).eq_of_pairwise
      (fun _ _ _ _ => antisymm) (List.pairwise_insertionSort r l)
      (List.pairwise_insertionSort r l')

theorem sorted_eq_insertionSort (s : Finset α) :
    ∃ l : List α, s.val = l ∧ sorted r s = l.insertionSort r := by
  obtain ⟨l, listed⟩ := Quot.exists_rep s.val
  refine ⟨l, listed.symm, ?_⟩
  simp only [sorted, ← listed]

theorem sorted_perm (s : Finset α) : (sorted r s : Multiset α) = s.val := by
  obtain ⟨l, listed, unfolded⟩ := sorted_eq_insertionSort r s
  rw [unfolded, listed]
  exact Quot.sound (List.perm_insertionSort r l)

theorem pairwise_sorted (s : Finset α) : (sorted r s).Pairwise r := by
  obtain ⟨l, -, unfolded⟩ := sorted_eq_insertionSort r s
  rw [unfolded]
  exact List.pairwise_insertionSort r l

@[simp] theorem mem_sorted {s : Finset α} {a : α} : a ∈ sorted r s ↔ a ∈ s := by
  rw [← Multiset.mem_coe, sorted_perm, Finset.mem_val]

theorem nodup_sorted (s : Finset α) : (sorted r s).Nodup := by
  rw [← Multiset.coe_nodup, sorted_perm]
  exact s.nodup

end Sorted

end Lyrion.Library.KeyValue
