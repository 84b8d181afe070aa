/- GID: Lyrion/Node/Orphans
   digest: Which waiting blocks the orphan loop keeps, and which it loses. -/

import Lyrion.Node.OrphanRounds

set_option autoImplicit false
set_option relaxedAutoImplicit false

namespace Lyrion.Node

open Library.KeyValue Data Utils Tx

section Loss

variable {env : Env} {world : World} {fuel : Nat} {c c' d d' : Chain} {x x' : Orphan}
  {pre pre' post post' pending : List Orphan}

def freshOrphans (world : World) (c : Chain) : List Orphan :=
  c.orphanBlocks.filter fun x => (world.outside c.tick).instant - x.time < orphanTtl

def emptied (c : Chain) : Chain :=
  { c with tick := c.tick + 1, orphanBlocks := [] }

section

variable (env world fuel c)

/-- The state in which `process_orphans` is when `add_block` has answered for the blocks `pre`. -/
inductive Before : List Orphan → Chain → Prop
  | first : Before [] (emptied c)
  | next {pre : List Orphan} {d : Chain} (before : Before pre d) (x : Orphan) (answer : Bool)
      (d' : Chain) (called : attempt env world fuel x.block d = some (.ok answer, d')) :
      Before (pre ++ [x]) d'

def Stops (x : Orphan) (d : Chain) : Prop :=
  ∃ e d', attempt env world fuel x.block d = some (.error e, d')

/-- The block was rejected by its own call, and not because a clock or a write failed. -/
def Judged (x : Orphan) : Prop :=
  ∃ pre post d, drained world c = pre ++ x :: post ∧ Before env world fuel c pre d ∧
    Stops env world fuel x d ∧ ¬ Deserves env world x.block d

/-- Each fresh block is connected, was rejected by its own call or is in the pool. -/
def NoneLost (c' : Chain) : Prop :=
  ∀ x ∈ freshOrphans world c, Connected x c' ∨ Judged env world fuel c x ∨ InPool x c'

end

private theorem before_append (before : Before env world fuel c pre d) {added more : Bool}
    {next left : List Orphan}
    (tried : Locking.orphanRound (attempt env world fuel) pending added next d =
      some (.ok (more, left), d')) : Before env world fuel c (pre ++ pending) d' := by
  induction pending generalizing pre d added next with
  | nil =>
      obtain ⟨-, rfl⟩ := Prod.mk.inj (Option.some.inj tried)
      rwa [List.append_nil]
  | cons x rest ih =>
      rw [Locking.orphanRound] at tried
      rw [List.append_cons]
      rcases called : attempt env world fuel x.block d with _ | ⟨e | (_ | _), d''⟩
      · simp [called] at tried
      · simp [called] at tried
      · simp only [called, bind, Option.bind_some] at tried
        exact ih (.next before x false d'' called) tried
      · simp only [called, bind, Option.bind_some] at tried
        exact ih (.next before x true d'' called) tried

private theorem before_iff :
    Before env world fuel c pre d ↔ ∃ added next,
      Locking.orphanRound (attempt env world fuel) pre false [] (emptied c) =
        some (.ok (added, next), d) := by
  constructor
  · intro before
    induction before with
    | first => exact ⟨false, [], rfl⟩
    | next before x answer d' called ih =>
        obtain ⟨added, next, tried⟩ := ih
        rw [orphanRound_append tried, Locking.orphanRound, called]
        cases answer with
        | false => exact ⟨added, next ++ [x], rfl⟩
        | true => exact ⟨true, next, rfl⟩
  · rintro ⟨added, next, tried⟩
    exact before_append .first tried

private theorem Before.inj (before : Before env world fuel c pre d)
    (before' : Before env world fuel c pre d') : d = d' := by
  obtain ⟨added, next, tried⟩ := before_iff.mp before
  obtain ⟨added', next', tried'⟩ := before_iff.mp before'
  exact (Prod.mk.inj (Option.some.inj (tried.symm.trans tried'))).2

private theorem Stops.not_before (before : Before env world fuel c pre d)
    (stops : Stops env world fuel x d) :
    ¬ Before env world fuel c (pre ++ x :: post) d' := by
  intro past
  obtain ⟨added, next, tried⟩ := before_iff.mp before
  obtain ⟨added', next', tried'⟩ := before_iff.mp past
  obtain ⟨e, after, failed⟩ := stops
  rw [orphanRound_append tried, Locking.orphanRound, failed] at tried'
  exact absurd tried' (by simp)

private theorem Stops.unique (before : Before env world fuel c pre d)
    (stops : Stops env world fuel x d) (before' : Before env world fuel c pre' d')
    (stops' : Stops env world fuel x' d') (same : pre ++ x :: post = pre' ++ x' :: post') :
    pre = pre' ∧ x = x' ∧ post = post' ∧ d = d' := by
  rcases List.append_eq_append_iff.mp same with ⟨between, rfl, rest⟩ | ⟨between, rfl, rest⟩
  · cases between with
    | nil =>
        rw [List.append_nil] at before'
        obtain ⟨rfl, rfl⟩ := List.cons.inj rest
        exact ⟨(List.append_nil _).symm, rfl, rfl, before.inj before'⟩
    | cons y between =>
        obtain ⟨rfl, -⟩ := List.cons.inj rest
        exact absurd before' (stops.not_before before)
  · cases between with
    | nil =>
        rw [List.append_nil] at before
        obtain ⟨rfl, rfl⟩ := List.cons.inj rest
        exact ⟨List.append_nil _, rfl, rfl, before.inj before'⟩
    | cons y between =>
        obtain ⟨rfl, -⟩ := List.cons.inj rest
        exact absurd before (stops'.not_before before')

private theorem progress_start : Progress c [] [] (emptied c) where
  state := rfl
  grown _ saved := saved
  own _ saved := Or.inl saved
  pool _ member := absurd member (by simp [emptied])
  part := .refl _
  kept _ member := absurd member (by simp)
  idle _ member := absurd member (by simp)

private theorem Before.progress (keyed : Keyed env pre)
    (before : Before env world (fuel + 1) c pre d) :
    ∃ next, Progress c pre next d := by
  obtain ⟨added, next, tried⟩ := before_iff.mp before
  exact ⟨next, progress_start.round keyed tried⟩

private theorem Touched.untouched {tried : List Orphan} (touched : Touched c tried d)
    (apart : ∀ y ∈ tried, y.block ≠ x.block) : Connected x d ∨ InPool x d ↔ Connected x c := by
  constructor
  · rintro ((known | saved) | ⟨z, member, -, same⟩)
    · exact Or.inl (touched.state ▸ known)
    · rcases touched.own x.block saved with before | ⟨y, member, same⟩
      · exact Or.inr before
      · exact absurd same (apart y member)
    · obtain ⟨y, inside, same'⟩ := touched.pool z member
      exact absurd (same'.trans same) (apart y inside)
  · rintro (known | saved)
    · exact Or.inl (Or.inl (touched.state ▸ known))
    · exact Or.inl (Or.inr (touched.grown x.block saved))

private theorem orphanRounds_ended {depth : Nat} {r : Result (List Orphan)}
    (keyed : Keyed env pending)
    (returned : Locking.orphanRounds (attempt env world (fuel + 1)) (depth + 2) pending
      (emptied c) = some (r, c')) :
    (∃ e, r = .error e ∧
      Locking.orphanRound (attempt env world (fuel + 1)) pending false [] (emptied c) =
        some (.error e, c')) ∨
    ∃ next d tried, Before env world (fuel + 1) c pending d ∧ Progress c pending next d ∧
      r = .ok next ∧ c'.saved = d.saved ∧ Touched c tried c' ∧ tried ⊆ pending := by
  rw [Locking.orphanRounds] at returned
  split at returned
  · rename_i nothing
    obtain rfl := List.isEmpty_iff.mp nothing
    obtain ⟨rfl, rfl⟩ := Prod.mk.inj (Option.some.inj returned)
    exact Or.inr ⟨[], _, [], .first, progress_start, rfl, rfl, progress_start.toTouched,
      List.Subset.refl _⟩
  · rcases tried : Locking.orphanRound (attempt env world (fuel + 1)) pending false [] (emptied c)
      with _ | ⟨e | ⟨added, next⟩, d⟩
    · simp [tried] at returned
    · simp only [tried, bind, Option.bind_some] at returned
      obtain ⟨rfl, rfl⟩ := Prod.mk.inj (Option.some.inj returned)
      exact Or.inl ⟨e, rfl, rfl⟩
    · have before := before_iff.mpr ⟨added, next, tried⟩
      have progress : Progress c pending next d := progress_start.round keyed tried
      simp only [tried, bind, Option.bind_some] at returned
      refine Or.inr ⟨next, d, ?_⟩
      cases added with
      | false =>
          obtain ⟨rfl, rfl⟩ := Prod.mk.inj (Option.some.inj returned)
          exact ⟨pending, before, progress, rfl, rfl, progress.toTouched, List.Subset.refl _⟩
      | true =>
          have again : Keyed env next := fun y member => keyed y (progress.part.subset member)
          have inside : pending ++ next ⊆ pending :=
            List.append_subset.mpr ⟨List.Subset.refl _, progress.part.subset⟩
          have idle (y : Orphan) (member : y ∈ next) : IsIdle y d :=
            progress.idle_iff.mpr (progress.idle y member)
          obtain ⟨pool, second, -⟩ := orphanRound_idle world (fuel + 1) false [] again idle
          refine ⟨pending ++ next, before, progress, ?_⟩
          change Locking.orphanRounds (attempt env world (fuel + 1)) (depth + 1) next d = _
            at returned
          rw [Locking.orphanRounds] at returned
          split at returned
          · obtain ⟨rfl, rfl⟩ := Prod.mk.inj (Option.some.inj returned)
            exact ⟨rfl, rfl, progress.toTouched.wider (List.subset_append_left _ _), inside⟩
          · have late := progress.toTouched.round again second
            simp only [second, bind, Option.bind_some] at returned
            obtain ⟨rfl, rfl⟩ := Prod.mk.inj (Option.some.inj returned)
            exact ⟨rfl, rfl, late, inside⟩

private theorem mem_refiled_of_notMem {time : Nat} {left pool : List Orphan} {x : Orphan}
    (member : x ∈ pool) (other : x.hash ∉ left.map Orphan.hash) :
    x ∈ refiled time left pool := by
  induction left generalizing pool with
  | nil => exact member
  | cons y left ih =>
      simp only [List.map_cons, List.mem_cons, not_or] at other
      rw [refiled_cons]
      refine ih ?_ other.2
      simp [insertOrphan, member, other.1]

private theorem exists_mem_refiled {time : Nat} {left pool : List Orphan}
    (distinct : (left.map Orphan.hash).Nodup) {x : Orphan} (member : x ∈ left) :
    ∃ y ∈ refiled time left pool, y.hash = x.hash ∧ y.block = x.block := by
  induction left generalizing pool with
  | nil => exact absurd member (by simp)
  | cons y left ih =>
      rw [List.map_cons, List.nodup_cons] at distinct
      rw [refiled_cons]
      rcases List.mem_cons.mp member with rfl | inside
      · refine ⟨{ x with time := time }, mem_refiled_of_notMem ?_ distinct.1, rfl, rfl⟩
        simp [insertOrphan]
      · exact ih distinct.2 inside

private theorem drained_perm (few : (freshOrphans world c).length ≤ 500) :
    (drained world c).Perm (freshOrphans world c) := by
  unfold drained
  rw [freshOrphans] at few
  rw [trimOrphans, if_neg (Nat.not_lt.mpr few)]
  exact world.drain_perm _ _

private theorem drained_subset_fresh : drained world c ⊆ freshOrphans world c :=
  fun _ member => mem_trimOrphans ((world.drain_perm _ _).mem_iff.mp member)

private theorem nodup_drained (world : World) (distinct : (c.orphanBlocks.map Orphan.hash).Nodup) :
    ((drained world c).map Orphan.hash).Nodup := by
  refine ((world.drain_perm _ _).map Orphan.hash).nodup_iff.mpr (distinct.sublist ?_)
  exact ((trimOrphans_sublist _ _ _).trans List.filter_sublist).map Orphan.hash

variable (env world) in
/-- What has to hold when the call for `x` fails in the state `d`, for no block to get lost. -/
structure Spares (c : Chain) (pre : List Orphan) (x : Orphan) (post : List Orphan) (d : Chain) :
    Prop where
  own : Deserves env world x.block d → Saves env world x.block d ∨ Connected x c
  earlier : ∀ y ∈ pre, Connected y d ∨ InPool y d ∧ ¬ Saves env world x.block d
  later : ∀ y ∈ post, Connected y c

section Stop

variable (keyed : Keyed env (pre ++ x :: post))
  (apart : (pre ++ x :: post).Pairwise fun y z => y.block ≠ z.block)
  (split : drained world c = pre ++ x :: post) (before : Before env world (fuel + 1) c pre d)
  {e : Fault} (failed : attempt env world (fuel + 1) x.block d = some (.error e, c'))

include split before failed in
private theorem judged_iff {z : Orphan} :
    Judged env world (fuel + 1) c z ↔ z = x ∧ ¬ Deserves env world x.block d := by
  have stops : Stops env world (fuel + 1) x d := ⟨e, c', failed⟩
  constructor
  · rintro ⟨pre', post', d', split', before', stops', undeserving⟩
    obtain ⟨rfl, rfl, rfl, rfl⟩ := stops.unique before before' stops' (split.symm.trans split')
    exact ⟨rfl, undeserving⟩
  · rintro ⟨rfl, undeserving⟩
    exact ⟨pre, post, d, split, before, stops, undeserving⟩

include keyed apart failed in
private theorem earlier_iff {y : Orphan} (member : y ∈ pre) :
    Connected y c' ∨ InPool y c' ↔
      Connected y d ∨ InPool y d ∧ ¬ Saves env world x.block d := by
  have other : x.block ≠ y.block :=
    ((List.pairwise_append.mp apart).2.2 y member x List.mem_cons_self).symm
  have called := attempted (keyed x (by simp)) failed
  generalize outcome : ((.error e, c') : Result Bool × Chain) = r at called
  cases called with
  | idle idle pool filed => simp at outcome
  | refused ready unsaved e' d' state saved pool =>
      obtain ⟨-, rfl⟩ := Prod.mk.inj outcome
      simp only [Connected, InPool, Saved, state, saved, pool, unsaved, not_false_eq_true, and_true]
  | saved saves r answer height d' state saved pool =>
      obtain ⟨-, rfl⟩ := Prod.mk.inj outcome
      simp only [Connected, InPool, state, saved_cons saved, other, or_false, pool,
        List.not_mem_nil, false_and, exists_false, saves, not_true_eq_false, and_false]

include keyed apart before failed in
private theorem own_iff :
    Connected x c' ∨ ¬ Deserves env world x.block d ∨ InPool x c' ↔
      (Deserves env world x.block d → Saves env world x.block d ∨ Connected x c) := by
  have first : Keyed env pre := fun y member => keyed y (List.mem_append_left _ member)
  obtain ⟨next, progress⟩ := before.progress first
  have other (y : Orphan) (member : y ∈ pre) : y.block ≠ x.block :=
    (List.pairwise_append.mp apart).2.2 y member x List.mem_cons_self
  have same := progress.toTouched.untouched other
  have called := attempted (keyed x (by simp)) failed
  generalize outcome : ((.error e, c') : Result Bool × Chain) = r at called
  cases called with
  | idle idle pool filed => simp at outcome
  | refused ready unsaved e' d' state saved pool =>
      obtain ⟨-, rfl⟩ := Prod.mk.inj outcome
      have kept : Connected x c' ∨ InPool x c' ↔ Connected x c := by
        rw [← same]
        simp only [Connected, InPool, Saved, state, saved, pool]
      rw [← kept]
      tauto
  | saved saves r answer height d' state saved pool =>
      obtain ⟨-, rfl⟩ := Prod.mk.inj outcome
      have connected : Connected x c' := Or.inr ((saved_cons saved).mpr (Or.inr rfl))
      simp only [connected, true_or, saves, implies_true]

include keyed apart before failed in
private theorem later_iff {y : Orphan} (member : y ∈ post) :
    Connected y c' ∨ InPool y c' ↔ Connected y c := by
  have first : Keyed env pre := fun z inside => keyed z (List.mem_append_left _ inside)
  obtain ⟨next, progress⟩ := before.progress first
  refine (progress.toTouched.call (attempted (keyed x (by simp)) failed)).untouched ?_
  rw [List.append_cons] at apart
  exact fun z inside => (List.pairwise_append.mp apart).2.2 z inside y member

include keyed apart split before failed in
private theorem accounted_iff :
    (∀ z ∈ drained world c, Connected z c' ∨ Judged env world (fuel + 1) c z ∨ InPool z c') ↔
      Spares env world c pre x post d := by
  have unequal {y : Orphan} (other : y.block ≠ x.block) :
      Connected y c' ∨ Judged env world (fuel + 1) c y ∨ InPool y c' ↔
        Connected y c' ∨ InPool y c' := by
    have unlike : y ≠ x := fun same => other (congrArg Orphan.block same)
    simp only [judged_iff split before failed, unlike, false_and, false_or]
  have first (y : Orphan) (member : y ∈ pre) : y.block ≠ x.block :=
    (List.pairwise_append.mp apart).2.2 y member x List.mem_cons_self
  have last (y : Orphan) (member : y ∈ post) : y.block ≠ x.block :=
    ((List.pairwise_cons.mp (List.pairwise_append.mp apart).2.1).1 y member).symm
  rw [split, List.forall_mem_append, List.forall_mem_cons, judged_iff split before failed]
  simp only [true_and, own_iff keyed apart before failed]
  constructor
  · rintro ⟨earlier, own, later⟩
    refine ⟨own, fun y member => ?_, fun y member => ?_⟩
    · exact (earlier_iff keyed apart failed member).mp
        ((unequal (first y member)).mp (earlier y member))
    · exact (later_iff keyed apart before failed member).mp
        ((unequal (last y member)).mp (later y member))
  · rintro ⟨own, earlier, later⟩
    refine ⟨fun y member => ?_, own, fun y member => ?_⟩
    · exact (unequal (first y member)).mpr
        ((earlier_iff keyed apart failed member).mpr (earlier y member))
    · exact (unequal (last y member)).mpr
        ((later_iff keyed apart before failed member).mpr (later y member))

end Stop

section Pool

variable (distinct : (c.orphanBlocks.map Orphan.hash).Nodup) (keyed : Keyed env c.orphanBlocks)

include distinct in
private theorem freshOrphans_eq_nil (nothing : drained world c = []) : freshOrphans world c = [] :=
    by
  have trimmed : trimOrphans world (c.tick + 1) (freshOrphans world c) = [] := by
    have drawn : (drained world c).Perm (trimOrphans world (c.tick + 1) (freshOrphans world c)) :=
      world.drain_perm _ _
    rw [nothing] at drawn
    exact drawn.nil_eq.symm
  rw [trimOrphans] at trimmed
  split at trimmed
  · rename_i many
    split at trimmed
    · rename_i victim _
      have same (hash : Hash) (member : hash ∈ (freshOrphans world c).map Orphan.hash) :
          hash = victim.hash := by
        obtain ⟨x, inside, rfl⟩ := List.mem_map.mp member
        have out := List.filter_eq_nil_iff.mp trimmed x inside
        simpa using out
      have keys : ((freshOrphans world c).map Orphan.hash).Nodup :=
        distinct.sublist (List.filter_sublist.map Orphan.hash)
      rw [List.eq_replicate_of_mem same, List.nodup_replicate, List.length_map] at keys
      omega
    · exact trimmed
  · exact trimmed

include keyed in
private theorem keyed_drained : Keyed env (drained world c) :=
  fun x member => keyed x (mem_of_mem_drained member)

include distinct keyed in
private theorem eq_of_block_eq {y : Orphan} (here : x ∈ c.orphanBlocks) (there : y ∈ c.orphanBlocks)
    (same : x.block = y.block) : x = y := by
  have hashes : x.hash = y.hash :=
    Except.ok.inj ((keyed x here).symm.trans (same ▸ keyed y there))
  exact List.inj_on_of_nodup_map distinct here there hashes

include distinct keyed in
private theorem pairwise_drained (world : World) :
    (drained world c).Pairwise fun y z => y.block ≠ z.block := by
  have keys := List.pairwise_map.mp (nodup_drained world distinct)
  refine keys.imp_of_mem fun {y z} here there unlike same => unlike ?_
  rw [eq_of_block_eq distinct keyed (mem_of_mem_drained here) (mem_of_mem_drained there) same]

include distinct keyed in
private theorem noneLost_iff_drained {tried : List Orphan} (touched : Touched c tried c')
    (inside : tried ⊆ drained world c) :
    NoneLost env world fuel c c' ↔
      (∀ x ∈ freshOrphans world c, x ∉ drained world c → Connected x c) ∧
        ∀ x ∈ drained world c, Connected x c' ∨ Judged env world fuel c x ∨ InPool x c' := by
  have untried (x : Orphan) (fresh : x ∈ freshOrphans world c) (out : x ∉ drained world c) :
      Connected x c' ∨ Judged env world fuel c x ∨ InPool x c' ↔ Connected x c := by
    have unjudged : ¬ Judged env world fuel c x := by
      rintro ⟨pre, post, d, split, -⟩
      exact out (by simp [split])
    rw [or_iff_right unjudged]
    refine touched.untouched fun y member same => out ?_
    obtain rfl := eq_of_block_eq distinct keyed (mem_of_mem_drained (inside member))
      (List.mem_filter.mp fresh).1 same
    exact inside member
  constructor
  · intro kept
    refine ⟨fun x fresh out => (untried x fresh out).mp (kept x fresh), fun x member => ?_⟩
    exact kept x (drained_subset_fresh member)
  · rintro ⟨first, second⟩ x fresh
    by_cases member : x ∈ drained world c
    · exact second x member
    · exact (untried x fresh member).mpr (first x fresh member)

include distinct keyed in
private theorem free_noneLost_iff {r : Result Unit}
    (returned : Locked.processOrphans env world (fuel + 2) false c = some (r, c')) :
    NoneLost env world (fuel + 1) c c' ↔
      (∀ x ∈ freshOrphans world c, x ∉ drained world c → Connected x c) ∧
        ∀ pre x post d, drained world c = pre ++ x :: post →
          Before env world (fuel + 1) c pre d → Stops env world (fuel + 1) x d →
            Spares env world c pre x post d := by
  have named : Keyed env (drained world c) := keyed_drained keyed
  rw [Locked.processOrphans_succ] at returned
  obtain ⟨⟨result, d⟩, looped, ended⟩ := Option.bind_eq_some_iff.mp returned
  change Locking.orphanRounds (attempt env world (fuel + 1)) 500 (drained world c) (emptied c) = _
    at looped
  rcases orphanRounds_ended named looped with ⟨e, rfl, failed⟩ |
    ⟨next, d', tried, before, progress, rfl, saved, touched, inside⟩
  · obtain ⟨-, rfl⟩ := Prod.mk.inj (Option.some.inj ended)
    obtain ⟨pre, x, post, d', more, left, split, tried, failed⟩ := orphanRound_eq_error failed
    have before := before_iff.mpr ⟨more, left, tried⟩
    have apart := pairwise_drained distinct keyed world
    rw [split] at named apart
    have first : Keyed env pre := fun y member => named y (List.mem_append_left _ member)
    obtain ⟨next, progress⟩ := before.progress first
    have touched := progress.toTouched.call (attempted (named x (by simp)) failed)
    rw [noneLost_iff_drained distinct keyed touched (by simp [split]),
      accounted_iff named apart split before failed]
    refine and_congr_right fun _ => ⟨?_, fun all => all pre x post d' split before ⟨e, d, failed⟩⟩
    intro spares pre' x' post' d'' split' before' stops'
    have stops : Stops env world (fuel + 1) x d' := ⟨e, d, failed⟩
    obtain ⟨rfl, rfl, rfl, rfl⟩ := stops.unique before before' stops' (split.symm.trans split')
    exact spares
  · obtain ⟨-, rfl⟩ := Prod.mk.inj (Option.some.inj ended)
    have part := progress.part
    have refilled : Touched c (tried ++ next) { d with
        tick := d.tick + 1
        orphanBlocks := refiled (world.outside d.tick).instant next d.orphanBlocks } := by
      refine ⟨touched.state, touched.grown,
        (touched.wider (List.subset_append_left _ _)).own, fun z member => ?_⟩
      rcases mem_refiled member with ⟨y, here, same⟩ | old
      · exact ⟨y, List.mem_append_right _ here, same.symm⟩
      · exact (touched.wider (List.subset_append_left _ _)).pool z old
    rw [noneLost_iff_drained distinct keyed refilled
      (List.append_subset.mpr ⟨inside, part.subset⟩)]
    refine and_congr_right fun _ => iff_of_true (fun y member => ?_) ?_
    · rcases progress.kept y member with kept | waiting
      · refine Or.inl (Or.inr ?_)
        rw [Saved] at kept ⊢
        rwa [saved]
      · exact Or.inr (Or.inr (exists_mem_refiled
          ((nodup_drained world distinct).sublist (part.map Orphan.hash)) waiting))
    · intro pre x post d'' split before' stops
      exact absurd (split ▸ before) (stops.not_before before')

private theorem exists_attempt {r : Result Unit × Chain}
    (returned : Locked.processOrphans env world (fuel + 1) false c = some r)
    (split : drained world c = pre ++ x :: post) (before : Before env world fuel c pre d) :
    ∃ r, attempt env world fuel x.block d = some r := by
  rw [Locked.processOrphans_succ] at returned
  obtain ⟨result, looped, -⟩ := Option.bind_eq_some_iff.mp returned
  change Locking.orphanRounds (attempt env world fuel) 500 (drained world c) (emptied c) = _
    at looped
  obtain ⟨added, next, tried⟩ := before_iff.mp before
  rw [Locking.orphanRounds, split, if_neg (by simp), orphanRound_append tried,
    Locking.orphanRound] at looped
  obtain ⟨inner, rounded, -⟩ := Option.bind_eq_some_iff.mp looped
  obtain ⟨r, called, -⟩ := Option.bind_eq_some_iff.mp rounded
  exact ⟨r, called⟩

private theorem before_of_idle (world : World) (fuel : Nat) (keyed : Keyed env pre)
    (idle : ∀ y ∈ pre, IsIdle y c) :
    ∃ pool, Before env world fuel c pre { c with
        tick := c.tick + 1 + pre.length
        orphanBlocks := pool } ∧
      (pre.length ≤ 500 → (pre.map Orphan.hash).Nodup →
        ∀ y ∈ pre, y.hash ∈ c.state.hashToHeight ∨
          ∃ z ∈ pool, z.hash = y.hash ∧ z.block = y.block) := by
  obtain ⟨pool, tried, room⟩ := orphanRound_idle (c := emptied c) world fuel false [] keyed idle
  refine ⟨pool, before_iff.mpr ⟨false, _, tried⟩, fun few keys => ?_⟩
  exact (room (by simpa [emptied] using few) keys).2

include distinct keyed in
private theorem exists_before_first (fuel : Nat) (few : (freshOrphans world c).length ≤ 500)
    (split : drained world c = pre ++ x :: post) (idle : ∀ y ∈ pre, IsIdle y c)
    (unsaved : ¬ Saves env world x.block { c with tick := c.tick + 1 + pre.length }) :
    ∃ d, Before env world fuel c pre d ∧
      (Deserves env world x.block d ↔
        Deserves env world x.block { c with tick := c.tick + 1 + pre.length }) ∧
      ¬ Saves env world x.block d ∧ d.state = c.state ∧
      ∀ y ∈ pre, Connected y d ∨ InPool y d := by
  have within : pre.Sublist (drained world c) := split ▸ List.sublist_append_left _ _
  have named : Keyed env pre := fun y member => keyed y (mem_of_mem_drained (within.subset member))
  obtain ⟨pool, before, room⟩ := before_of_idle world fuel named idle
  refine ⟨_, before, Iff.rfl, unsaved, rfl, fun y member => ?_⟩
  refine (room ?_ ((nodup_drained world distinct).sublist (within.map Orphan.hash)) y member).imp
    Or.inl id
  have size := within.length_le
  rw [(drained_perm few).length_eq] at size
  omega

include distinct keyed in
private theorem free_noneLost_of_few {r : Result Unit}
    (returned : Locked.processOrphans env world (fuel + 2) false c = some (r, c'))
    (few : (freshOrphans world c).length ≤ 500) :
    ((∀ x ∈ drained world c, IsIdle x c) → NoneLost env world (fuel + 1) c c') ∧
      ∀ pre x post, drained world c = pre ++ x :: post → (∀ y ∈ pre, IsIdle y c) → ¬ IsIdle x c →
        ¬ Saves env world x.block { c with tick := c.tick + 1 + pre.length } →
          (NoneLost env world (fuel + 1) c c' ↔
            (Deserves env world x.block { c with tick := c.tick + 1 + pre.length } →
              Connected x c) ∧ ∀ y ∈ post, Connected y c) := by
  have all (x : Orphan) (fresh : x ∈ freshOrphans world c) : x ∈ drained world c :=
    (drained_perm few).mem_iff.mpr fresh
  have exact_ := free_noneLost_iff distinct keyed returned
  have named : Keyed env (drained world c) := keyed_drained keyed
  refine ⟨fun idle => exact_.mpr ⟨fun x fresh out => absurd (all x fresh) out, ?_⟩, ?_⟩
  · rintro pre x post d split before ⟨e, d', failed⟩
    rw [split] at named idle
    obtain ⟨next, progress⟩ := before.progress fun y member =>
      named y (List.mem_append_left _ member)
    have still : IsIdle x d := progress.idle_iff.mpr (idle x (by simp))
    rw [attempt_of_idle (named x (by simp)) still] at failed
    exact absurd failed (by simp)
  · intro pre x post split idle ready unsaved
    obtain ⟨d, before, deserving, unsaved', state, earlier⟩ :=
      exists_before_first distinct keyed (fuel + 1) few split idle unsaved
    obtain ⟨⟨r, d'⟩, called⟩ := exists_attempt returned split before
    obtain ⟨e, rfl⟩ : ∃ e, r = .error e := by
      have outcome := attempted (named x (by simp [split])) called
      generalize same : (r, d') = result at outcome
      cases outcome with
      | idle idle => exact absurd (by rwa [IsIdle, state] at idle) ready
      | refused _ _ e => exact ⟨e, (Prod.mk.inj same).1⟩
      | saved saves => exact absurd saves unsaved'
    rw [exact_, ← deserving]
    constructor
    · rintro ⟨-, spared⟩
      have spares := spared pre x post d split before ⟨e, d', called⟩
      exact ⟨fun deserves => (spares.own deserves).resolve_left unsaved', spares.later⟩
    · rintro ⟨own, later⟩
      refine ⟨fun x fresh out => absurd (all x fresh) out, ?_⟩
      intro pre' x' post' d'' split' before' stops'
      obtain ⟨rfl, rfl, rfl, rfl⟩ :=
        Stops.unique before ⟨e, d', called⟩ before' stops' (split.symm.trans split')
      exact ⟨fun deserves => Or.inr (own deserves),
        fun y member => (earlier y member).imp id fun waiting => ⟨waiting, unsaved'⟩, later⟩

end Pool

end Loss

def sampleStray : Block := sampleChild (sampleHash (sampleRival 2)) 10000000000 3

def sampleWaiting (pool : List Block) : Chain :=
  { sampleFork false with orphanBlocks := pool.map fun block => ⟨sampleHash block, block, 0⟩ }

def sampleHollow : Block := { sampleRival 2 with txs := [] }

private theorem sampleWaiting_keyed {pool : List Block}
    (hashed : ∀ block ∈ pool, headerHash sampleEnv block.header = .ok (sampleHash block)) :
    Keyed sampleEnv (sampleWaiting pool).orphanBlocks := by
  intro x member
  obtain ⟨block, inside, rfl⟩ := List.mem_map.mp member
  exact hashed block inside

private theorem freshOrphans_sampleWaiting (pool : List Block) :
    freshOrphans sampleWorld (sampleWaiting pool) = (sampleWaiting pool).orphanBlocks := by
  refine List.filter_eq_self.mpr fun x member => ?_
  obtain ⟨block, -, rfl⟩ := List.mem_map.mp member
  exact decide_eq_true (by decide : 0 - 0 < orphanTtl)

private theorem locked_processOrphans_of_isSome {env : Env} {world : World} {fuel : Nat}
    {held : Bool} {c : Chain} {r : Result Unit}
    (returns : (Locked.processOrphans env world fuel held c).isSome = true)
    (answer : (processOrphans env world fuel c).1 = r) :
    Locked.processOrphans env world fuel held c =
      some (r, (processOrphans env world fuel c).2) := by
  subst answer
  rcases processOrphans_follows env world fuel held c with waits | same
  · simp [waits] at returns
  · exact same

end Lyrion.Node
