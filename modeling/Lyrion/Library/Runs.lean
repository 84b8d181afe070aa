/- GID: Lyrion/Library/Runs
   digest: Runs of a step function over a list of events, and the invariant rule for them. -/

import Mathlib

set_option autoImplicit false
set_option relaxedAutoImplicit false

namespace Lyrion.Library.Runs

variable {σ ε : Type} (next : σ → ε → σ)

def run (s : σ) (events : List ε) : σ := events.foldl next s

theorem run_cons (s : σ) (event : ε) (events : List ε) :
    run next s (event :: events) = run next (next s event) events :=
  rfl

@[simp] theorem run_concat (s : σ) (events : List ε) (event : ε) :
    run next s (events ++ [event]) = next (run next s events) event := by
  simp [run]

/-- What holds at the start and is kept by each event of a run, taken in the state in which the run
meets it, holds in every state of the run. -/
theorem run_invariant (Inv : σ → Prop) {s : σ} {events : List ε} (start : Inv s)
    (kept : ∀ before event after, events = before ++ event :: after →
      Inv (run next s before) → Inv (next (run next s before) event)) :
    ∀ before after, events = before ++ after → Inv (run next s before) := by
  intro before
  induction before using List.reverseRecOn with
  | nil =>
      intro after _
      exact start
  | append_singleton before event ih =>
      intro after split
      rw [List.append_assoc, List.singleton_append] at split
      rw [run_concat]
      exact kept before event after split (ih _ split)

section Occurrences

variable (marked : σ → ε → Bool)

/-- How many events of a run are marked, each in the state in which the run meets it. -/
def occurrences (s : σ) : List ε → Nat
  | [] => 0
  | event :: events => (if marked s event then 1 else 0) + occurrences (next s event) events

theorem occurrences_append (s : σ) (before after : List ε) :
    occurrences next marked s (before ++ after) =
      occurrences next marked s before + occurrences next marked (run next s before) after := by
  induction before generalizing s with
  | nil => simp [occurrences, run]
  | cons event before ih =>
      rw [List.cons_append, occurrences, occurrences, ih, run_cons, Nat.add_assoc]

theorem occurrences_concat (s : σ) (events : List ε) (event : ε) :
    occurrences next marked s (events ++ [event]) =
      occurrences next marked s events + if marked (run next s events) event then 1 else 0 := by
  rw [occurrences_append, occurrences, occurrences, Nat.add_zero]

theorem exists_of_lt_occurrences {s : σ} {events : List ε} {k : Nat}
    (less : k < occurrences next marked s events) :
    ∃ before event after, events = before ++ event :: after ∧ occurrences next marked s before = k ∧
      marked (run next s before) event = true := by
  induction events using List.reverseRecOn with
  | nil => exact absurd less (Nat.not_lt_zero k)
  | append_singleton events event ih =>
      rcases Nat.lt_or_ge k (occurrences next marked s events) with earlier | reached
      · obtain ⟨before, other, after, split, counted, mark⟩ := ih earlier
        exact ⟨before, other, after ++ [event], by rw [split]; simp, counted, mark⟩
      · rw [occurrences_concat] at less
        cases mark : marked (run next s events) event with
        | false =>
            rw [mark] at less
            simp only [Bool.false_eq_true, if_false] at less
            omega
        | true =>
            rw [mark, if_pos rfl] at less
            exact ⟨events, event, [], rfl, by omega, mark⟩

end Occurrences

/-- What holds before a loop that can fail and is kept by each of its rounds holds at its end. -/
theorem foldlM_invariant {ι φ : Type} {step : σ → ι → Except φ σ} (Inv : σ → Prop) {items : List ι}
    {s result : σ} (start : Inv s)
    (kept : ∀ s item s', item ∈ items → Inv s → step s item = .ok s' → Inv s')
    (finished : items.foldlM step s = .ok result) : Inv result := by
  induction items generalizing s with
  | nil =>
      obtain rfl := Except.ok.inj finished
      exact start
  | cons item items ih =>
      rw [List.foldlM_cons] at finished
      cases round : step s item with
      | error e =>
          rw [round] at finished
          exact absurd finished (by simp [bind, Except.bind])
      | ok s' =>
          rw [round] at finished
          refine ih (kept s item s' List.mem_cons_self start round) ?_ finished
          intro t other t' member
          exact kept t other t' (List.mem_cons_of_mem _ member)

section Partial

variable {σ τ ι : Type}

/-- The rule for loops that may not return. Each round is taken in the state in which the loop meets
it. -/
theorem foldlM_some_invariant {step : σ → ι → Option σ} (Inv : σ → Prop) {items : List ι}
    {s result : σ} (start : Inv s)
    (kept : ∀ before item after t t', items = before ++ item :: after →
      before.foldlM step s = some t → Inv t → step t item = some t' → Inv t')
    (finished : items.foldlM step s = some result) : Inv result := by
  induction items using List.reverseRecOn generalizing result with
  | nil =>
      obtain rfl := Option.some.inj finished
      exact start
  | append_singleton items item ih =>
      rw [List.foldlM_append] at finished
      obtain ⟨t, earlier, last⟩ := Option.bind_eq_some_iff.mp finished
      have held : Inv t := by
        refine ih ?_ earlier
        intro before other after u u' split
        exact kept before other (after ++ [item]) u u' (by rw [split]; simp)
      refine kept items item [] t result rfl earlier held ?_
      simpa using last

theorem foldlM_some_mono {f g : σ → ι → Option σ} (more : ∀ s i t, f s i = some t → g s i = some t)
    {items : List ι} {s result : σ} (finished : items.foldlM f s = some result) :
    items.foldlM g s = some result := by
  induction items generalizing s with
  | nil => exact finished
  | cons item items ih =>
      rw [List.foldlM_cons] at finished ⊢
      obtain ⟨s', round, others⟩ := Option.bind_eq_some_iff.mp finished
      exact Option.bind_eq_some_iff.mpr ⟨s', more s item s' round, ih others⟩

theorem foldlM_rel {R : σ → τ → Prop} {f : σ → ι → Option σ} {g : τ → ι → Option τ}
    (round : ∀ s t i, R s t → Option.Rel R (f s i) (g t i)) (items : List ι) {s : σ} {t : τ}
    (start : R s t) : Option.Rel R (items.foldlM f s) (items.foldlM g t) := by
  induction items generalizing s t with
  | nil => exact .some start
  | cons item items ih =>
      rw [List.foldlM_cons, List.foldlM_cons]
      have first := round s t item start
      generalize f s item = a at first
      generalize g t item = b at first
      cases first with
      | none => exact .none
      | some related => exact ih related

end Partial

section Views

variable {σ τ ι φ : Type} {f : σ → ι → Except φ σ} {items : List ι} {s result : σ}

theorem foldlM_view {g : τ → ι → Option τ} (view : σ → τ)
    (round : ∀ s i s', f s i = .ok s' → g (view s) i = some (view s'))
    (finished : items.foldlM f s = .ok result) :
    items.foldlM g (view s) = some (view result) := by
  induction items generalizing s with
  | nil =>
      obtain rfl := Except.ok.inj finished
      rfl
  | cons item items ih =>
      rw [List.foldlM_cons] at finished ⊢
      cases first : f s item with
      | error e =>
          rw [first] at finished
          exact absurd finished (by simp [bind, Except.bind])
      | ok s' =>
          rw [first] at finished
          rw [round s item s' first]
          exact ih finished

theorem foldlM_eq_error_iff {e : φ} :
    items.foldlM f s = .error e ↔
      ∃ before item after t, items = before ++ item :: after ∧ before.foldlM f s = .ok t ∧
        f t item = .error e := by
  induction items generalizing s with
  | nil => simp [pure, Except.pure]
  | cons item items ih =>
      rw [List.foldlM_cons]
      constructor
      · intro failed
        cases first : f s item with
        | error e' =>
            rw [first] at failed
            obtain rfl : e' = e := Except.error.inj failed
            exact ⟨[], item, items, s, rfl, rfl, first⟩
        | ok s' =>
            rw [first] at failed
            obtain ⟨before, other, after, t, rfl, reached, last⟩ := ih.mp failed
            refine ⟨item :: before, other, after, t, rfl, ?_, last⟩
            rw [List.foldlM_cons, first]
            exact reached
      · rintro ⟨before, other, after, t, split, reached, last⟩
        cases before with
        | nil =>
            obtain ⟨rfl, -⟩ := List.cons.inj split
            obtain rfl : s = t := Except.ok.inj reached
            rw [last]
            rfl
        | cons head before =>
            obtain ⟨rfl, tail⟩ := List.cons.inj split
            rw [List.foldlM_cons] at reached
            cases first : f s item with
            | error e' =>
                rw [first] at reached
                exact absurd reached (by simp [bind, Except.bind])
            | ok s' =>
                rw [first] at reached
                exact ih.mpr ⟨before, other, after, t, tail, reached, last⟩

end Views

section Outcomes

variable {σ φ α : Type} {done done' : α → σ → Prop} {failed failed' : φ → σ → Prop}
variable {r : Except φ α × σ}

/-- What a computation on a state leaves: one condition on its result and the state, another on its
fault and the state. -/
def Post (done : α → σ → Prop) (failed : φ → σ → Prop) : Except φ α × σ → Prop
  | (.ok a, s) => done a s
  | (.error e, s) => failed e s

theorem Post.imp (post : Post done failed r) (returned : ∀ a s, done a s → done' a s)
    (stopped : ∀ e s, failed e s → failed' e s) : Post done' failed' r := by
  obtain ⟨e | a, s⟩ := r
  · exact stopped e s post
  · exact returned a s post

theorem Post.of_ok (post : Post done failed r) {a : α} (returned : r.1 = .ok a) : done a r.2 := by
  obtain ⟨e | b, s⟩ := r
  · exact absurd returned (by simp)
  · obtain rfl := Except.ok.inj returned
    exact post

theorem Post.of_error (post : Post done failed r) {e : φ} (stopped : r.1 = .error e) :
    failed e r.2 := by
  obtain ⟨e' | b, s⟩ := r
  · obtain rfl := Except.error.inj stopped
    exact post
  · exact absurd stopped (by simp)

theorem post_state {P : σ → Prop} : Post (fun _ s => P s) (fun _ s => P s) r ↔ P r.2 := by
  obtain ⟨e | a, s⟩ := r
  · exact Iff.rfl
  · exact Iff.rfl

end Outcomes

end Lyrion.Library.Runs
