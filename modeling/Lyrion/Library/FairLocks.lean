/- GID: Lyrion/Library/FairLocks
   digest: Read-write locks whose requests are served in their order: groups of tasks that wait for
     ever, and programs that never do. -/

import Mathlib

set_option autoImplicit false
set_option relaxedAutoImplicit false

namespace Lyrion.Library.FairLocks

inductive Mode
  | read
  | write
  deriving DecidableEq

def Mode.shares : Mode → Mode → Bool
  | .read, .read => true
  | _, _ => false

/-- The guards on a lock, and the requests that wait for it, the first one first. -/
structure Lock (T : Type) where
  held : List (T × Mode)
  queue : List (T × Mode)

variable {T L : Type}

def admits (held : List (T × Mode)) (mode : Mode) : Bool :=
  held.all fun guard => guard.2.shares mode

/-- Requests are served in their order, each as soon as it goes with the guards there are. -/
def serve : List (T × Mode) → List (T × Mode) → Lock T
  | held, [] => ⟨held, []⟩
  | held, request :: queue =>
      if admits held request.2 then serve (held ++ [request]) queue
      else ⟨held, request :: queue⟩

def Lock.request (lock : Lock T) (r : T × Mode) : Lock T := serve lock.held (lock.queue ++ [r])

def Lock.release [DecidableEq T] (lock : Lock T) (guard : T × Mode) : Lock T :=
  serve (lock.held.erase guard) lock.queue

abbrev Locks (L T : Type) := L → Lock T

inductive Act (L : Type)
  | take (lock : L) (mode : Mode)
  | give (lock : L) (mode : Mode)

def act [DecidableEq T] [DecidableEq L] (t : T) (locks : Locks L T) : Act L → Locks L T
  | .take l mode => Function.update locks l ((locks l).request (t, mode))
  | .give l mode => Function.update locks l ((locks l).release (t, mode))

def Waiting (locks : Locks L T) (t : T) : Prop := ∃ l mode, (t, mode) ∈ (locks l).queue

section Serving

theorem serve_settled (held queue : List (T × Mode)) {r : T × Mode} {rest : List (T × Mode)}
    (front : (serve held queue).queue = r :: rest) :
    admits (serve held queue).held r.2 = false := by
  induction queue generalizing held with
  | nil => simp [serve] at front
  | cons next queue ih =>
      rw [serve] at front ⊢
      split at front
      · rename_i admitted
        rw [if_pos admitted]
        exact ih _ front
      · rename_i refused
        rw [if_neg refused]
        obtain ⟨rfl, -⟩ := List.cons.inj front
        simpa using refused

end Serving

section Groups

variable (group : Set T)

/-- The first request of the group, if there is one, is kept out by a guard of the group. -/
def Barred (lock : Lock T) : Prop :=
  ∀ before r after, lock.queue = before ++ r :: after → r.1 ∈ group →
    (∀ q ∈ before, q.1 ∉ group) → ∃ guard ∈ lock.held, guard.1 ∈ group ∧ guard.2.shares r.2 = false

/-- Every task of the group waits, and the group keeps itself waiting. -/
structure Deadlocked (locks : Locks L T) : Prop where
  waits : ∀ t ∈ group, Waiting locks t
  barred : ∀ l, Barred group (locks l)

variable {group}

theorem Barred.granted {held queue : List (T × Mode)} (barred : Barred group ⟨held, queue⟩) :
    ∃ granted rest, queue = granted ++ rest ∧ serve held queue = ⟨held ++ granted, rest⟩ ∧
      ∀ r ∈ granted, r.1 ∉ group := by
  induction queue generalizing held with
  | nil => exact ⟨[], [], rfl, by simp [serve], by simp⟩
  | cons r queue ih =>
      rw [serve]
      split
      · rename_i admitted
        have outside : r.1 ∉ group := by
          intro member
          obtain ⟨guard, owned, -, apart⟩ := barred [] r queue rfl member (by simp)
          rw [admits, List.all_eq_true] at admitted
          exact absurd ((admitted guard owned).symm.trans apart) (by simp)
        have later : Barred group ⟨held ++ [r], queue⟩ := by
          rintro before q after split member first
          obtain ⟨guard, owned, inside, apart⟩ := barred (r :: before) q after
            (congrArg (r :: ·) split) member (List.forall_mem_cons.mpr ⟨outside, first⟩)
          exact ⟨guard, List.mem_append_left _ owned, inside, apart⟩
        obtain ⟨granted, rest, split, served, others⟩ := ih later
        exact ⟨r :: granted, rest, by rw [split, List.cons_append], by simp [served],
          List.forall_mem_cons.mpr ⟨outside, others⟩⟩
      · exact ⟨[], r :: queue, rfl, by simp, by simp⟩

theorem Barred.serve {held queue : List (T × Mode)} (barred : Barred group ⟨held, queue⟩) :
    Barred group (serve held queue) ∧
      ∀ r ∈ queue, r.1 ∈ group → r ∈ (serve held queue).queue := by
  obtain ⟨granted, rest, rfl, served, others⟩ := barred.granted
  rw [served]
  constructor
  · rintro before r after split member first
    change rest = _ at split
    obtain ⟨guard, owned, inside, apart⟩ := barred (granted ++ before) r after
      (by rw [split, List.append_assoc]) member
      (fun q there => (List.mem_append.mp there).elim (others q) (first q))
    exact ⟨guard, List.mem_append_left _ owned, inside, apart⟩
  · intro r there member
    exact (List.mem_append.mp there).resolve_left fun granted => others r granted member

theorem Barred.request {lock : Lock T} (barred : Barred group lock) {r : T × Mode}
    (outside : r.1 ∉ group) : Barred group ⟨lock.held, lock.queue ++ [r]⟩ := by
  rintro before q after split member first
  rcases List.append_eq_append_iff.mp split with ⟨more, rfl, last⟩ | ⟨more, queued, same⟩
  · rcases more with _ | ⟨_, more⟩
    · obtain ⟨rfl, -⟩ := List.cons.inj last
      exact absurd member outside
    · simp at last
  · rcases more with _ | ⟨_, more⟩
    · obtain ⟨rfl, -⟩ := List.cons.inj same
      exact absurd member outside
    · obtain ⟨rfl, -⟩ := List.cons.inj same
      exact barred before _ more queued member first

theorem Barred.release [DecidableEq T] {lock : Lock T} (barred : Barred group lock)
    {guard : T × Mode} (outside : guard.1 ∉ group) :
    Barred group ⟨lock.held.erase guard, lock.queue⟩ := by
  rintro before q after split member first
  obtain ⟨other, owned, inside, apart⟩ := barred before q after split member first
  refine ⟨other, (List.mem_erase_of_ne ?_).mpr owned, inside, apart⟩
  rintro rfl
  exact outside inside

variable [DecidableEq L]

theorem Deadlocked.update {locks : Locks L T} (dead : Deadlocked group locks) {l : L}
    {lock : Lock T} (barred : Barred group lock)
    (kept : ∀ r ∈ (locks l).queue, r.1 ∈ group → r ∈ lock.queue) :
    Deadlocked group (Function.update locks l lock) ∧
      ∀ l', ∀ r ∈ (locks l').queue, r.1 ∈ group → r ∈ (Function.update locks l lock l').queue := by
  have stays (l' : L) (r : T × Mode) (queued : r ∈ (locks l').queue) (member : r.1 ∈ group) :
      r ∈ (Function.update locks l lock l').queue := by
    by_cases same : l' = l
    · subst same
      rw [Function.update_self]
      exact kept r queued member
    · rwa [Function.update_of_ne same]
  refine ⟨⟨fun t member => ?_, fun l' => ?_⟩, stays⟩
  · obtain ⟨l', mode, queued⟩ := dead.waits t member
    exact ⟨l', mode, stays l' _ queued member⟩
  · by_cases same : l' = l
    · subst same
      rwa [Function.update_self]
    · rw [Function.update_of_ne same]
      exact dead.barred l'

variable [DecidableEq T]

theorem Deadlocked.other {locks : Locks L T} (dead : Deadlocked group locks) {t : T}
    (outside : t ∉ group) (a : Act L) :
    Deadlocked group (act t locks a) ∧
      ∀ l, ∀ r ∈ (locks l).queue, r.1 ∈ group → r ∈ (act t locks a l).queue := by
  cases a with
  | take l mode =>
      obtain ⟨barred, kept⟩ := ((dead.barred l).request (r := (t, mode)) outside).serve
      exact dead.update barred fun r queued => kept r (List.mem_append_left _ queued)
  | give l mode =>
      have released : Barred group ⟨(locks l).held.erase (t, mode), (locks l).queue⟩ :=
        (dead.barred l).release outside
      obtain ⟨barred, kept⟩ := released.serve
      exact dead.update barred kept

theorem Deadlocked.join {locks : Locks L T} (dead : Deadlocked group locks) {t : T} {l : L}
    {mode : Mode} (free : ¬ Waiting locks t)
    (behind : (∃ r ∈ (locks l).queue, r.1 ∈ group) ∨
      ∃ guard ∈ (locks l).held, guard.1 ∈ insert t group ∧ guard.2.shares mode = false) :
    Deadlocked (insert t group) (act t locks (.take l mode)) := by
  have idle {other : L} {r : T × Mode} (queued : r ∈ (locks other).queue) : r.1 ≠ t := by
    rintro rfl
    exact free ⟨other, r.2, queued⟩
  have asked : Barred (insert t group) ⟨(locks l).held, (locks l).queue ++ [(t, mode)]⟩ := by
    rintro before r after split member first
    have ahead {q : T × Mode} (there : q ∈ before) : q.1 ∉ group :=
      fun inside => first q there (Set.mem_insert_of_mem _ inside)
    have inGroup (inside : r.1 ∈ group) {rest : List (T × Mode)}
        (queued : (locks l).queue = before ++ r :: rest) :
        ∃ guard ∈ (locks l).held, guard.1 ∈ insert t group ∧ guard.2.shares r.2 = false := by
      obtain ⟨guard, owned, own, apart⟩ :=
        dead.barred l before r rest queued inside fun q there => ahead there
      exact ⟨guard, owned, Set.mem_insert_of_mem _ own, apart⟩
    change (locks l).queue ++ [(t, mode)] = _ at split
    rcases List.append_eq_append_iff.mp split with ⟨more, rfl, last⟩ | ⟨more, queued, same⟩
    · rcases more with _ | ⟨_, more⟩
      · obtain ⟨rfl, -⟩ := List.cons.inj last
        rw [List.append_nil] at ahead
        rcases behind with ⟨q, there, inside⟩ | ⟨guard, owned, inside, apart⟩
        · exact absurd inside (ahead there)
        · exact ⟨guard, owned, inside, apart⟩
      · simp at last
    · rcases more with _ | ⟨_, more⟩
      · obtain ⟨rfl, -⟩ := List.cons.inj same
        rw [List.append_nil] at queued
        rcases behind with ⟨q, there, inside⟩ | ⟨guard, owned, inside, apart⟩
        · exact absurd inside (ahead (queued ▸ there))
        · exact ⟨guard, owned, inside, apart⟩
      · obtain ⟨rfl, -⟩ := List.cons.inj same
        have there : r ∈ (locks l).queue := by simp [queued]
        exact inGroup ((Set.mem_insert_iff.mp member).resolve_left (idle there)) queued
  obtain ⟨barred, kept⟩ := asked.serve
  constructor
  · intro u member
    rcases Set.mem_insert_iff.mp member with rfl | member
    · refine ⟨l, mode, ?_⟩
      rw [act, Function.update_self]
      exact kept _ (List.mem_append_right _ List.mem_cons_self) (Set.mem_insert _ _)
    · obtain ⟨other, mode', queued⟩ := dead.waits u member
      refine ⟨other, mode', ?_⟩
      by_cases same : other = l
      · subst same
        rw [act, Function.update_self]
        exact kept _ (List.mem_append_left _ queued) (Set.mem_insert_of_mem _ member)
      · rwa [act, Function.update_of_ne same]
  · intro other
    by_cases same : other = l
    · subst same
      rw [act, Function.update_self]
      exact barred
    · rw [act, Function.update_of_ne same]
      rintro before r after split member first
      have there : r ∈ (locks other).queue := by simp [split]
      obtain ⟨guard, owned, own, apart⟩ := dead.barred other before r after split
        ((Set.mem_insert_iff.mp member).resolve_left (idle there))
        fun q ahead inside => first q ahead (Set.mem_insert_of_mem _ inside)
      exact ⟨guard, owned, Set.mem_insert_of_mem _ own, apart⟩

end Groups

section Systems

/-- The locks, and what each task has still to do once it has what it asks for. -/
structure System (L T : Type) where
  locks : Locks L T
  code : T → List (Act L)

def System.idle : System L T := ⟨fun _ => ⟨[], []⟩, fun _ => []⟩

variable [DecidableEq T] [DecidableEq L]

/-- A task with nothing to do starts one of its programs, and a task that does not wait takes the
next action of the one it runs. -/
inductive System.Step (programs : T → Set (List (Act L))) (s : System L T) : System L T → Prop
  | start (t : T) (program : List (Act L)) (ours : program ∈ programs t) (done : s.code t = [])
      (free : ¬ Waiting s.locks t) :
      System.Step programs s ⟨s.locks, Function.update s.code t program⟩
  | act (t : T) (next : Act L) (rest : List (Act L)) (code : s.code t = next :: rest)
      (free : ¬ Waiting s.locks t) :
      System.Step programs s ⟨act t s.locks next, Function.update s.code t rest⟩

variable {programs : T → Set (List (Act L))} {s after : System L T}

theorem Deadlocked.step {group : Set T} (dead : Deadlocked group s.locks)
    (step : System.Step programs s after) :
    Deadlocked group after.locks ∧
      ∀ l, ∀ r ∈ (s.locks l).queue, r.1 ∈ group → r ∈ (after.locks l).queue := by
  cases step with
  | start t program ours done free => exact ⟨dead, fun _ _ queued _ => queued⟩
  | act t next rest code free => exact dead.other (fun member => free (dead.waits t member)) next

theorem Deadlocked.run {group : Set T} (dead : Deadlocked group s.locks)
    (run : Relation.ReflTransGen (System.Step programs) s after) :
    Deadlocked group after.locks ∧
      ∀ l, ∀ r ∈ (s.locks l).queue, r.1 ∈ group → r ∈ (after.locks l).queue := by
  induction run with
  | refl => exact ⟨dead, fun _ _ queued _ => queued⟩
  | tail _ step ih =>
      obtain ⟨dead, kept⟩ := ih
      obtain ⟨dead, kept'⟩ := dead.step step
      exact ⟨dead, fun l r queued member => kept' l r (kept l r queued member) member⟩

/-- What a program has still to do, `good` of the guards it has, stays so along the program. -/
structure Course (programs : Set (List (Act L))) (good : List (L × Mode) → List (Act L) → Prop) :
    Prop where
  take : ∀ {own l mode rest}, good own (.take l mode :: rest) →
    (∀ guard ∈ own, guard.1 = l → guard.2.shares mode = true) → good ((l, mode) :: own) rest
  give : ∀ {own l mode rest}, good own (.give l mode :: rest) →
    (l, mode) ∈ own ∧ good (own.erase (l, mode)) rest
  start : ∀ {own}, good own [] → ∀ program ∈ programs, good own program

/-- The guards `own` and the request `asked` are all a task has, and what it has still to do is
good. -/
structure Follows (good : List (L × Mode) → List (Act L) → Prop) (s : System L T) (t : T)
    (own : List (L × Mode)) (asked : Option (L × Mode)) : Prop where
  guards : ∀ l mode, (s.locks l).held.count (t, mode) = own.count (l, mode)
  requests : ∀ l mode, (s.locks l).queue.count (t, mode) = asked.toList.count (l, mode)
  course : good own (asked.toList.map (fun r => .take r.1 r.2) ++ s.code t)

variable {good : List (L × Mode) → List (Act L) → Prop} {t : T} {own : List (L × Mode)}
  {asked : Option (L × Mode)}

theorem Follows.not_waiting (follows : Follows good s t own none) : ¬ Waiting s.locks t := by
  rintro ⟨l, mode, queued⟩
  have positive := List.count_pos_iff.mpr queued
  rw [follows.requests l mode] at positive
  simp at positive

theorem Follows.queued {l : L} {mode : Mode} (follows : Follows good s t own (some (l, mode))) :
    (t, mode) ∈ (s.locks l).queue := by
  apply List.count_pos_iff.mp
  rw [follows.requests l mode]
  simp

theorem Follows.asked_eq {l : L} {mode : Mode} (follows : Follows good s t own asked)
    (queued : (t, mode) ∈ (s.locks l).queue) : asked = some (l, mode) := by
  have here := List.count_pos_iff.mpr queued
  rw [follows.requests l mode] at here
  rcases asked with _ | made
  · simp at here
  · have same : (l, mode) ∈ [made] := List.count_pos_iff.mp here
    rw [List.mem_singleton.mp same]

theorem Follows.held_iff (follows : Follows good s t own asked) {l : L} {mode : Mode} :
    (t, mode) ∈ (s.locks l).held ↔ (l, mode) ∈ own := by
  rw [← List.count_pos_iff, ← List.count_pos_iff, follows.guards]

theorem Follows.asked_none (follows : Follows good s t own asked) (free : ¬ Waiting s.locks t) :
    asked = none := by
  rcases asked with _ | ⟨l, mode⟩
  · rfl
  · exact absurd ⟨l, mode, follows.queued⟩ free

def System.at (s : System L T) (l : L) (lock : Lock T) : System L T :=
  ⟨Function.update s.locks l lock, s.code⟩

omit [DecidableEq T] in
theorem System.at_locks_self (l : L) (lock : Lock T) : (s.at l lock).locks l = lock :=
  Function.update_self ..

omit [DecidableEq T] in
theorem System.at_locks_of_ne {l other : L} (lock : Lock T) (apart : other ≠ l) :
    (s.at l lock).locks other = s.locks other :=
  Function.update_of_ne apart ..

omit [DecidableEq T] in
theorem System.at_self (l : L) : s.at l (s.locks l) = s := by
  rw [System.at, Function.update_eq_self]

theorem Follows.replace {l : L} {lock lock' : Lock T} {own' : List (L × Mode)}
    {asked' : Option (L × Mode)} (follows : Follows good (s.at l lock) t own asked)
    (guards : ∀ mode, lock'.held.count (t, mode) + own.count (l, mode) =
      lock.held.count (t, mode) + own'.count (l, mode))
    (requests : ∀ mode, lock'.queue.count (t, mode) + asked.toList.count (l, mode) =
      lock.queue.count (t, mode) + asked'.toList.count (l, mode))
    (others : ∀ other ≠ l, ∀ mode, own'.count (other, mode) = own.count (other, mode) ∧
      asked'.toList.count (other, mode) = asked.toList.count (other, mode))
    {code : T → List (Act L)}
    (course : good own' (asked'.toList.map (fun r => .take r.1 r.2) ++ code t)) :
    Follows good (System.at ⟨s.locks, code⟩ l lock') t own' asked' := by
  refine ⟨fun other mode => ?_, fun other mode => ?_, course⟩
  · by_cases same : other = l
    · subst same
      have before := follows.guards other mode
      have change := guards mode
      rw [System.at_locks_self] at before ⊢
      omega
    · rw [System.at_locks_of_ne _ same, (others other same mode).1, ← follows.guards other mode,
        System.at_locks_of_ne _ same]
  · by_cases same : other = l
    · subst same
      have before := follows.requests other mode
      have change := requests mode
      rw [System.at_locks_self] at before ⊢
      omega
    · rw [System.at_locks_of_ne _ same, (others other same mode).2, ← follows.requests other mode,
        System.at_locks_of_ne _ same]

theorem Follows.grant {ours : Set (List (Act L))} (keeps : Course ours good) {l : L}
    {held queue : List (T × Mode)} {r : T × Mode}
    (follows : Follows good (s.at l ⟨held, r :: queue⟩) t own asked)
    (admitted : admits held r.2 = true) :
    ∃ own asked, Follows good (s.at l ⟨held ++ [r], queue⟩) t own asked := by
  obtain ⟨u, mode⟩ := r
  by_cases same : u = t
  · -- The request is the one the task has made: it has the guard now, and asks for nothing.
    subst same
    obtain rfl : asked = some (l, mode) := by
      apply follows.asked_eq
      rw [System.at_locks_self]
      exact List.mem_cons_self
    have shares (guard : L × Mode) (owned : guard ∈ own) (here : guard.1 = l) :
        guard.2.shares mode = true := by
      obtain ⟨_, kind⟩ := guard
      subst here
      have there := follows.held_iff.mpr owned
      rw [System.at_locks_self] at there
      exact List.all_eq_true.mp admitted _ there
    refine ⟨(l, mode) :: own, none, follows.replace (fun kind => ?_) (fun kind => ?_)
      (fun other apart kind => ?_) (keeps.take follows.course shares)⟩
    · simp [List.count_append, List.count_cons]
      omega
    · simp [List.count_cons]
    · simp [apart.symm]
  · refine ⟨own, asked, follows.replace (fun kind => ?_) (fun kind => ?_)
      (fun other apart kind => ⟨rfl, rfl⟩) follows.course⟩
    · simp [List.count_append, same]
    · simp [same]

theorem Follows.serve {ours : Set (List (Act L))} (keeps : Course ours good) {l : L}
    {held queue : List (T × Mode)}
    (follows : ∃ own asked, Follows good (s.at l ⟨held, queue⟩) t own asked) :
    ∃ own asked, Follows good (s.at l (serve held queue)) t own asked := by
  induction queue generalizing held with
  | nil => simpa [FairLocks.serve] using follows
  | cons r queue ih =>
      rw [FairLocks.serve]
      split
      · rename_i admitted
        obtain ⟨own, asked, follows⟩ := follows
        exact ih (follows.grant keeps admitted)
      · exact follows

theorem Follows.step (keeps : Course (programs t) good) (follows : Follows good s t own asked)
    (step : System.Step programs s after) :
    ∃ own asked, Follows good after t own asked := by
  cases step with
  | start u program ours done free =>
      obtain ⟨guards, requests, course⟩ := follows
      by_cases same : t = u
      · subst same
        obtain rfl := Follows.asked_none ⟨guards, requests, course⟩ free
        rw [done] at course
        refine ⟨own, none, guards, requests, ?_⟩
        have begun := keeps.start course program ours
        simpa using begun
      · exact ⟨own, asked, guards, requests, by simpa [same] using course⟩
  | act u next rest code free =>
      by_cases same : t = u
      · subst same
        obtain rfl := follows.asked_none free
        have course := follows.course
        rw [code] at course
        cases next with
        | take l mode =>
            rw [← s.at_self l] at follows
            refine Follows.serve (s := ⟨s.locks, Function.update s.code t rest⟩) keeps
              ⟨own, some (l, mode), ?_⟩
            apply follows.replace
            · exact fun kind => rfl
            · intro kind
              simp [List.count_append, List.count_cons]
            · intro other apart kind
              simp [apart.symm]
            · simpa using course
        | give l mode =>
            obtain ⟨owned, course⟩ := keeps.give course
            have counted := follows.guards l
            rw [← s.at_self l] at follows
            refine Follows.serve (s := ⟨s.locks, Function.update s.code t rest⟩) keeps
              ⟨own.erase (l, mode), none, ?_⟩
            apply follows.replace
            · intro kind
              have here := counted kind
              rw [List.count_erase, List.count_erase, here]
              simp
              omega
            · exact fun kind => rfl
            · intro other apart kind
              refine ⟨List.count_erase_of_ne ?_, rfl⟩
              exact fun equal => apart (congrArg Prod.fst equal)
            · simpa using course
      · have course : good own (asked.toList.map (fun r => .take r.1 r.2) ++
            Function.update s.code u rest t) := by
          rw [Function.update_of_ne same]
          exact follows.course
        have others (kind kind' : Mode) : (t, kind) ≠ (u, kind') :=
          fun equal => same (congrArg Prod.fst equal)
        cases next with
        | take l mode =>
            rw [← s.at_self l] at follows
            refine Follows.serve (s := ⟨s.locks, Function.update s.code u rest⟩) keeps
              ⟨own, asked, ?_⟩
            apply follows.replace
            · exact fun kind => rfl
            · intro kind
              simp [List.count_append, Ne.symm same]
            · exact fun other apart kind => ⟨rfl, rfl⟩
            · exact course
        | give l mode =>
            rw [← s.at_self l] at follows
            refine Follows.serve (s := ⟨s.locks, Function.update s.code u rest⟩) keeps
              ⟨own, asked, ?_⟩
            apply follows.replace
            · intro kind
              rw [List.count_erase_of_ne (others kind mode)]
            · exact fun kind => rfl
            · exact fun other apart kind => ⟨rfl, rfl⟩
            · exact course

theorem Follows.run (keeps : Course (programs t) good) (follows : Follows good s t own asked)
    (run : Relation.ReflTransGen (System.Step programs) s after) :
    ∃ own asked, Follows good after t own asked := by
  induction run with
  | refl => exact ⟨own, asked, follows⟩
  | tail _ step ih =>
      obtain ⟨own, asked, follows⟩ := ih
      exact follows.step keeps step

theorem follows_idle (nothing : good [] []) : Follows good System.idle t [] none :=
  ⟨fun _ _ => rfl, fun _ _ => rfl, nothing⟩

def Settled (s : System L T) : Prop :=
  ∀ l r rest, (s.locks l).queue = r :: rest → admits (s.locks l).held r.2 = false

theorem Settled.step (settled : Settled s) (step : System.Step programs s after) :
    Settled after := by
  cases step with
  | start t program ours done free => exact settled
  | act t next rest code free =>
      have served (l : L) (held queue : List (T × Mode)) :
          Settled
            ⟨Function.update s.locks l (serve held queue), Function.update s.code t rest⟩ := by
        intro other r rest front
        change (Function.update s.locks l (serve held queue) other).queue = _ at front
        change admits (Function.update s.locks l (serve held queue) other).held _ = _
        by_cases same : other = l
        · subst same
          rw [Function.update_self] at front ⊢
          exact serve_settled held queue front
        · rw [Function.update_of_ne same] at front ⊢
          exact settled other r rest front
      cases next with
      | take l mode => exact served l _ _
      | give l mode => exact served l _ _

theorem settled_run (run : Relation.ReflTransGen (System.Step programs) System.idle s) :
    Settled s := by
  induction run with
  | refl => exact fun _ _ _ front => by simp [System.idle] at front
  | tail _ step ih => exact ih.step step

end Systems

section Ordered

variable [DecidableEq L] (rank : L → Nat)

/-- A program that takes locks in the order of their ranks, one guard of each at a time, drops only
guards it has, and ends without any. -/
def Ordered : List (L × Mode) → List (Act L) → Prop
  | own, [] => own = []
  | own, .take l mode :: rest =>
      (∀ guard ∈ own, rank guard.1 < rank l) ∧ Ordered ((l, mode) :: own) rest
  | own, .give l mode :: rest => (l, mode) ∈ own ∧ Ordered (own.erase (l, mode)) rest

variable {rank}

theorem ordered_course {programs : Set (List (Act L))}
    (ordered : ∀ program ∈ programs, Ordered rank [] program) : Course programs (Ordered rank) where
  take course _ := course.2
  give course := course
  start course program ours := by
    rw [show _ = [] from course]
    exact ordered program ours

variable [DecidableEq T] {programs : T → Set (List (Act L))} {s : System L T}

theorem Settled.holder (settled : Settled s)
    (follows : ∀ t, ∃ own asked, Follows (Ordered rank) s t own asked) {l : L}
    (waits : (s.locks l).queue ≠ []) :
    (∃ t, ¬ Waiting s.locks t ∧ s.code t ≠ []) ∨
      ∃ next, rank l < rank next ∧ (s.locks next).queue ≠ [] := by
  obtain ⟨r, rest, front⟩ := List.exists_cons_of_ne_nil waits
  have refused := settled l r rest front
  rw [admits, List.all_eq_false] at refused
  obtain ⟨⟨t, mode⟩, held, -⟩ := refused
  obtain ⟨own, asked, follows⟩ := follows t
  have owned := follows.held_iff.mp held
  rcases asked with _ | ⟨next, mode'⟩
  · refine .inl ⟨t, follows.not_waiting, fun done => ?_⟩
    have course := follows.course
    rw [done] at course
    rw [show own = [] from course] at owned
    simp at owned
  · exact .inr ⟨next, follows.course.1 _ owned, List.ne_nil_of_mem follows.queued⟩

theorem ordered_progress {bound : Nat} (bounded : ∀ l, rank l ≤ bound)
    (ordered : ∀ t, ∀ program ∈ programs t, Ordered rank [] program)
    (run : Relation.ReflTransGen (System.Step programs) System.idle s) {t : T}
    (busy : Waiting s.locks t ∨ s.code t ≠ []) :
    ∃ u, ¬ Waiting s.locks u ∧ s.code u ≠ [] := by
  have follows (t : T) : ∃ own asked, Follows (Ordered rank) s t own asked :=
    (follows_idle rfl).run (ordered_course (ordered t)) run
  have settled := settled_run run
  have queued : ∀ k l, bound - rank l ≤ k → (s.locks l).queue ≠ [] →
      ∃ u, ¬ Waiting s.locks u ∧ s.code u ≠ [] := by
    -- The induction goes up in rank: a holder that waits, waits for a lock of a higher one.
    intro k
    induction k with
    | zero =>
        intro l near waits
        rcases settled.holder follows waits with free | ⟨next, above, -⟩
        · exact free
        · have := bounded next
          omega
    | succ k ih =>
        intro l near waits
        rcases settled.holder follows waits with free | ⟨next, above, queued⟩
        · exact free
        · have := bounded next
          exact ih next (by omega) queued
  by_cases waits : Waiting s.locks t
  · obtain ⟨l, mode, there⟩ := waits
    exact queued _ l le_rfl (List.ne_nil_of_mem there)
  · exact ⟨t, waits, busy.resolve_left waits⟩

theorem ordered_completes [Fintype T] {bound : Nat} (bounded : ∀ l, rank l ≤ bound)
    (ordered : ∀ t, ∀ program ∈ programs t, Ordered rank [] program)
    (run : Relation.ReflTransGen (System.Step programs) System.idle s) :
    ∃ after, Relation.ReflTransGen (System.Step programs) s after ∧
      ∀ t, after.code t = [] ∧ ¬ Waiting after.locks t := by
  -- By the number of actions that are left, which each action makes smaller.
  induction left : ∑ t, (s.code t).length generalizing s with
  | zero =>
      have done (t : T) : s.code t = [] := by
        have each := Finset.sum_eq_zero_iff.mp left t (Finset.mem_univ t)
        exact List.length_eq_zero_iff.mp each
      refine ⟨s, .refl, fun t => ⟨done t, fun waits => ?_⟩⟩
      obtain ⟨u, -, busy⟩ := ordered_progress bounded ordered run (.inl waits)
      exact busy (done u)
  | succ n ih =>
      obtain ⟨t, busy⟩ : ∃ t, s.code t ≠ [] := by
        by_contra! done
        simp [done] at left
      obtain ⟨u, free, busy⟩ := ordered_progress bounded ordered run (.inr busy)
      obtain ⟨next, rest, code⟩ := List.exists_cons_of_ne_nil busy
      have step : System.Step programs s _ := .act u next rest code free
      have fewer : ∑ t, (Function.update s.code u rest t).length = n := by
        have split := Finset.sum_update_of_mem (Finset.mem_univ u)
          (fun t => (s.code t).length) rest.length
        have same : (fun t => (Function.update s.code u rest t).length) =
            Function.update (fun t => (s.code t).length) u rest.length := by
          funext t
          by_cases here : t = u
          · subst here
            simp
          · simp [here]
        have whole := Finset.add_sum_erase Finset.univ (fun t => (s.code t).length)
          (Finset.mem_univ u)
        rw [same, split, Finset.sdiff_singleton_eq_erase]
        simp only [code, List.length_cons] at whole
        omega
      obtain ⟨after, runs, ends⟩ := ih (run.tail step) fewer
      exact ⟨after, .head step runs, ends⟩

def Nested (rank : L → Nat) (own : List (L × Mode)) (body : List (Act L)) : Prop :=
  ∀ rest, Ordered rank own rest → Ordered rank own (body ++ rest)

def holding (l : L) (mode : Mode) (body : List (Act L)) : List (Act L) :=
  .take l mode :: (body ++ [.give l mode])

omit [DecidableEq T] in
theorem nested_nil (own : List (L × Mode)) : Nested rank own [] := fun _ ordered => ordered

omit [DecidableEq T] in
theorem Nested.append {own : List (L × Mode)} {body body' : List (Act L)}
    (first : Nested rank own body) (second : Nested rank own body') :
    Nested rank own (body ++ body') := by
  intro rest ordered
  rw [List.append_assoc]
  exact first _ (second rest ordered)

omit [DecidableEq T] in
theorem Nested.flatten {own : List (L × Mode)} {bodies : List (List (Act L))}
    (each : ∀ body ∈ bodies, Nested rank own body) : Nested rank own bodies.flatten := by
  induction bodies with
  | nil => exact nested_nil own
  | cons body bodies ih =>
      exact (each body List.mem_cons_self).append
        (ih fun other there => each other (List.mem_cons_of_mem _ there))

omit [DecidableEq T] in
theorem Nested.holding {own : List (L × Mode)} {l : L} {mode : Mode} {body : List (Act L)}
    (above : ∀ guard ∈ own, rank guard.1 < rank l) (inner : Nested rank ((l, mode) :: own) body) :
    Nested rank own (holding l mode body) := by
  intro rest ordered
  refine ⟨above, ?_⟩
  change Ordered rank _ ((body ++ [.give l mode]) ++ rest)
  rw [List.append_assoc]
  refine inner _ ⟨List.mem_cons_self, ?_⟩
  rwa [List.erase_cons_head]

omit [DecidableEq T] in
theorem Nested.ordered {body : List (Act L)} (nested : Nested rank [] body) :
    Ordered rank [] body := by
  have whole := nested [] rfl
  rwa [List.append_nil] at whole

end Ordered

section Blocked

variable [DecidableEq L]

/-- A program that comes to ask for a guard which does not go with one it has. -/
def Blocked : List (L × Mode) → List (Act L) → Prop
  | _, [] => False
  | own, .take l mode :: rest =>
      (∃ guard ∈ own, guard.1 = l ∧ guard.2.shares mode = false) ∨ Blocked ((l, mode) :: own) rest
  | own, .give l mode :: rest => (l, mode) ∈ own ∧ Blocked (own.erase (l, mode)) rest

/-- A program that drops only guards it has, and ends without any unless it is blocked. -/
def Proper : List (L × Mode) → List (Act L) → Prop
  | own, [] => own = []
  | own, .take l mode :: rest =>
      (∃ guard ∈ own, guard.1 = l ∧ guard.2.shares mode = false) ∨ Proper ((l, mode) :: own) rest
  | own, .give l mode :: rest => (l, mode) ∈ own ∧ Proper (own.erase (l, mode)) rest

omit [DecidableEq L] in
private theorem unclashed {own : List (L × Mode)} {l : L} {mode : Mode}
    (shares : ∀ guard ∈ own, guard.1 = l → guard.2.shares mode = true) :
    ¬ ∃ guard ∈ own, guard.1 = l ∧ guard.2.shares mode = false := by
  rintro ⟨guard, owned, here, apart⟩
  exact absurd ((shares guard owned here).symm.trans apart) (by simp)

theorem blocked_course (programs : Set (List (Act L))) : Course programs Blocked where
  take course shares := course.resolve_left (unclashed shares)
  give course := course
  start course := course.elim

theorem proper_course {programs : Set (List (Act L))}
    (proper : ∀ program ∈ programs, Proper [] program) : Course programs Proper where
  take course shares := course.resolve_left (unclashed shares)
  give course := course
  start course program ours := by
    rw [show _ = [] from course]
    exact proper program ours

/-- A program made of guards that are dropped in the place where they were taken. -/
inductive Balanced : List (Act L) → Prop
  | nil : Balanced []
  | holding (l : L) (mode : Mode) {body : List (Act L)} (inner : Balanced body) :
      Balanced (holding l mode body)
  | append {body body' : List (Act L)} (first : Balanced body) (second : Balanced body') :
      Balanced (body ++ body')

omit [DecidableEq L] in
theorem Balanced.flatten {bodies : List (List (Act L))}
    (each : ∀ body ∈ bodies, Balanced body) : Balanced bodies.flatten := by
  induction bodies with
  | nil => exact .nil
  | cons body bodies ih =>
      exact .append (each body List.mem_cons_self)
        (ih fun other there => each other (List.mem_cons_of_mem _ there))

theorem Balanced.proper {body : List (Act L)} (balanced : Balanced body) {own : List (L × Mode)}
    {rest : List (Act L)} (proper : Proper own rest) : Proper own (body ++ rest) := by
  induction balanced generalizing own rest with
  | nil => exact proper
  | @holding l mode body inner ih =>
      refine .inr ?_
      change Proper _ ((body ++ [.give l mode]) ++ rest)
      rw [List.append_assoc]
      refine ih ⟨List.mem_cons_self, ?_⟩
      rwa [List.erase_cons_head]
  | append first second ih ih' =>
      rw [List.append_assoc]
      exact ih (ih' proper)

theorem Balanced.blocked {body : List (Act L)} (balanced : Balanced body) {own : List (L × Mode)}
    {rest : List (Act L)} (blocked : Blocked own rest) : Blocked own (body ++ rest) := by
  induction balanced generalizing own rest with
  | nil => exact blocked
  | @holding l mode body inner ih =>
      refine .inr ?_
      change Blocked _ ((body ++ [.give l mode]) ++ rest)
      rw [List.append_assoc]
      refine ih ⟨List.mem_cons_self, ?_⟩
      rwa [List.erase_cons_head]
  | append first second ih ih' =>
      rw [List.append_assoc]
      exact ih (ih' blocked)

/-- A part of a program that comes to no end with the guards there are. -/
def Blocks (own : List (L × Mode)) (body : List (Act L)) : Prop :=
  ∀ rest, Blocked own (body ++ rest)

theorem Blocks.append {own : List (L × Mode)} {body : List (Act L)} (blocks : Blocks own body)
    (body' : List (Act L)) : Blocks own (body ++ body') := by
  intro rest
  rw [List.append_assoc]
  exact blocks _

theorem Blocks.behind {own : List (L × Mode)} {first body : List (Act L)}
    (balanced : Balanced first) (blocks : Blocks own body) : Blocks own (first ++ body) := by
  intro rest
  rw [List.append_assoc]
  exact balanced.blocked (blocks rest)

theorem Blocks.holding {own : List (L × Mode)} {l : L} {mode : Mode} {body : List (Act L)}
    (inner : Blocks ((l, mode) :: own) body) : Blocks own (holding l mode body) := by
  intro rest
  refine .inr ?_
  change Blocked _ ((body ++ [.give l mode]) ++ rest)
  rw [List.append_assoc]
  exact inner _

theorem blocks_again {own : List (L × Mode)} {l : L} (mode : Mode) {mode' : Mode}
    (owned : (l, mode) ∈ own) (apart : mode.shares mode' = false) (body : List (Act L)) :
    Blocks own (holding l mode' body) :=
  fun _ => .inl ⟨(l, mode), owned, rfl, apart⟩

theorem Blocks.blocked {body : List (Act L)} (blocks : Blocks [] body) : Blocked [] body := by
  have whole := blocks []
  rwa [List.append_nil] at whole

variable [DecidableEq T] {programs : T → Set (List (Act L))} {s after : System L T}
  {good : List (L × Mode) → List (Act L) → Prop}

theorem deadlocked_of_clashes {group : Set T}
    (clash : ∀ t ∈ group, ∃ own l mode, Follows good s t own (some (l, mode)) ∧
      ((∃ guard ∈ (s.locks l).held, guard.1 ∈ group ∧ guard.2.shares mode = false) ∨
        ∃ before r rest, (s.locks l).queue = before ++ r :: rest ∧ r.1 ∈ group ∧
          (t, mode) ∈ rest)) :
    Deadlocked group s.locks where
  waits t member := by
    obtain ⟨own, l, mode, follows, -⟩ := clash t member
    exact ⟨l, mode, follows.queued⟩
  barred l before r rest split member first := by
    obtain ⟨own, l', mode, follows, behind⟩ := clash r.1 member
    have count := follows.requests l r.2
    have queued : (r.1, r.2) ∈ (s.locks l).queue := by
      rw [split]
      exact List.mem_append_right _ List.mem_cons_self
    obtain ⟨rfl, rfl⟩ := Prod.mk.inj (Option.some.inj (follows.asked_eq queued).symm)
    rcases behind with guard | ⟨before', r', rest', split', member', later⟩
    · exact guard
    · -- The task has one request, so that the one before it is before the first of the group.
      have once : (s.locks l).queue.count r = 1 := by simpa using count
      exfalso
      rw [split] at once split'
      rcases List.append_eq_append_iff.mp split' with ⟨more, rfl, same⟩ | ⟨more, rfl, same⟩
      · rcases more with _ | ⟨_, more⟩
        · obtain ⟨-, rfl⟩ := List.cons.inj same
          have positive : 0 < List.count r _ := List.count_pos_iff.mpr later
          simp only [List.count_append, List.count_cons_self] at once
          omega
        · rw [List.cons_append] at same
          obtain ⟨-, rfl⟩ := List.cons.inj same
          have positive : 0 < List.count r _ := List.count_pos_iff.mpr later
          simp only [List.count_append, List.count_cons_self, List.count_cons] at once
          omega
      · rcases more with _ | ⟨_, more⟩
        · obtain ⟨-, rfl⟩ := List.cons.inj same
          have positive : 0 < List.count r _ := List.count_pos_iff.mpr later
          simp only [List.count_append, List.count_cons_self] at once
          omega
        · obtain ⟨rfl, -⟩ := List.cons.inj same
          exact first _ (List.mem_append_right _ List.mem_cons_self) member'

theorem blocked_never_done
    (proper : ∀ t, ∀ program ∈ programs t, Proper [] program)
    (reached : Relation.ReflTransGen (System.Step programs) System.idle s) {t : T}
    {program : List (Act L)} (blocked : Blocked [] program) (done : s.code t = [])
    (free : ¬ Waiting s.locks t)
    (run : Relation.ReflTransGen (System.Step programs)
      ⟨s.locks, Function.update s.code t program⟩ after) :
    Waiting after.locks t ∨ after.code t ≠ [] := by
  obtain ⟨own, asked, follows⟩ := (follows_idle rfl).run (proper_course (proper t)) reached
  obtain rfl := follows.asked_none free
  have course := follows.course
  rw [done] at course
  obtain rfl : own = [] := course
  have begun : Follows Blocked ⟨s.locks, Function.update s.code t program⟩ t [] none :=
    ⟨follows.guards, follows.requests, by simpa using blocked⟩
  obtain ⟨own, asked, follows⟩ := begun.run (blocked_course _) run
  by_cases waits : Waiting after.locks t
  · exact .inl waits
  · obtain rfl := follows.asked_none waits
    refine .inr fun ended => ?_
    have course := follows.course
    rw [ended] at course
    exact course

theorem Deadlocked.lost {group : Set T} (dead : Deadlocked group s.locks) {l : L} {r : T × Mode}
    (queued : r ∈ (s.locks l).queue) (member : r.1 ∈ group) {later : System L T}
    (run : Relation.ReflTransGen (System.Step programs) s later) {u : T} {mode : Mode}
    (free : ¬ Waiting later.locks u) {code : T → List (Act L)}
    (rest : Relation.ReflTransGen (System.Step programs)
      ⟨act u later.locks (.take l mode), code⟩ after) :
    Waiting after.locks u := by
  obtain ⟨dead, kept⟩ := dead.run run
  have joined : Deadlocked (insert u group) (act u later.locks (.take l mode)) :=
    dead.join free (.inl ⟨r, kept l r queued member, member⟩)
  exact (joined.run (s := ⟨_, code⟩) rest).1.waits u (Set.mem_insert _ _)

end Blocked

end Lyrion.Library.FairLocks
