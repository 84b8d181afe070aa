/- GID: Lyrion/Library/Framing
   digest: Messages framed onto a stream without boundaries, and a reader that takes each read for a
   frame. -/

import Mathlib

set_option autoImplicit false
set_option relaxedAutoImplicit false

namespace Lyrion.Library.Framing

variable {α μ σ : Type}

/-- The frames a writer puts on the stream, up to the first message it cannot frame. -/
def framesOf (frame : μ → Option (List α)) : List μ → List (List α)
  | [] => []
  | m :: ms =>
      match frame m with
      | none => []
      | some f => f :: framesOf frame ms

/-- The messages a reader gets that unpacks each read by itself and goes on from each with `next`,
up to the first read it cannot unpack or message it cannot go on from. -/
def consumed (unpack : List α → Option μ) (next : μ → σ → Option σ) : List (List α) → σ → List μ
  | [], _ => []
  | r :: rs, s =>
      match unpack r with
      | none => []
      | some m =>
          m :: match next m s with
            | none => []
            | some s => consumed unpack next rs s

def GoesOn (next : μ → σ → Option σ) : List μ → σ → Prop
  | [], _ => True
  | m :: ms, s => ms = [] ∨ ∃ s', next m s = some s' ∧ GoesOn next ms s'

/-- No read that stops short of a frame, or goes on behind it, unpacks to the message of the
frame. -/
def Exact (frame : μ → Option (List α)) (unpack : List α → Option μ) : Prop :=
  ∀ m f r, frame m = some f → unpack r = some m → r <+: f ∨ f <+: r → r = f

variable {frame : μ → Option (List α)} {unpack : List α → Option μ} {next : μ → σ → Option σ}
  {messages : List μ} {reads : List (List α)}

theorem consumed_of_frames
    (framed : List.Forall₂ (fun m r => frame m = some r ∧ unpack r = some m) messages reads)
    (s : σ) : consumed unpack next reads s = messages ↔ GoesOn next messages s := by
  induction framed generalizing s with
  | nil => exact iff_of_true rfl trivial
  | @cons m r ms rs first _ ih =>
      simp only [consumed, first.2, GoesOn]
      cases taken : next m s with
      | none => simp [eq_comm]
      | some s' =>
          simp only [List.cons.injEq, true_and, Option.some.injEq, exists_eq_left', ih]
          refine (or_iff_right_of_imp ?_).symm
          rintro rfl
          trivial

theorem frames_of_consumed (exact : Exact frame unpack) (nonempty : ∀ r ∈ reads, r ≠ [])
    (cut : reads.flatten = (framesOf frame messages).flatten) {s : σ}
    (received : consumed unpack next reads s = messages) :
    List.Forall₂ (fun m r => frame m = some r ∧ unpack r = some m) messages reads := by
  induction reads generalizing messages s with
  | nil =>
      obtain rfl := received
      exact .nil
  | cons r rs ih =>
      obtain ⟨here, later⟩ := List.forall_mem_cons.mp nonempty
      have stray (empty : (r :: rs).flatten = []) : False :=
        here (List.flatten_eq_nil_iff.mp empty r List.mem_cons_self)
      rw [consumed] at received
      cases unpacked : unpack r with
      | none =>
          rw [unpacked] at received
          obtain rfl := received
          exact (stray cut).elim
      | some m =>
          rw [unpacked] at received
          simp only at received
          obtain ⟨ms, rfl⟩ : ∃ ms, messages = m :: ms := ⟨_, received.symm⟩
          rw [framesOf] at cut
          cases framed : frame m with
          | none =>
              rw [framed] at cut
              exact (stray cut).elim
          | some f =>
              rw [framed] at cut
              simp only [List.flatten_cons] at cut
              -- both the read and the frame begin the same stream
              have start : r <+: f ++ (framesOf frame ms).flatten :=
                cut ▸ List.prefix_append r rs.flatten
              have comparable : r <+: f ∨ f <+: r :=
                List.prefix_or_prefix_of_prefix start (List.prefix_append _ _)
              obtain rfl := exact m f r framed unpacked comparable
              have rest := List.append_cancel_left cut
              refine .cons ⟨framed, unpacked⟩ ?_
              cases taken : next m s with
              | some s' =>
                  rw [taken] at received
                  exact ih later rest (List.cons.inj received).2
              | none =>
                  rw [taken] at received
                  obtain rfl := (List.cons.inj received).2
                  have none : rs = [] := by
                    refine List.eq_nil_iff_forall_not_mem.mpr fun other member => ?_
                    exact later other member (List.flatten_eq_nil_iff.mp rest other member)
                  rw [none]
                  exact .nil

theorem consumed_iff (exact : Exact frame unpack) (nonempty : ∀ r ∈ reads, r ≠ [])
    (cut : reads.flatten = (framesOf frame messages).flatten) (s : σ) :
    consumed unpack next reads s = messages ↔
      List.Forall₂ (fun m r => frame m = some r ∧ unpack r = some m) messages reads ∧
        GoesOn next messages s := by
  constructor
  · intro received
    have framed := frames_of_consumed exact nonempty cut received
    exact ⟨framed, (consumed_of_frames framed s).mp received⟩
  · rintro ⟨framed, goesOn⟩
    exact (consumed_of_frames framed s).mpr goesOn

end Lyrion.Library.Framing
