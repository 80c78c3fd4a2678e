import Trampoline.Interpretation

/-!
The meeting point of an async node. The thread that reaches the node submits its registration and
then parks the stack; whoever has an exit for the node delivers it. An exit that the submitting
thread itself delivers before it parks is picked up inline. Any other thread that comes that early
waits for the stack, so that what follows the node always runs on the thread that delivered.
-/

namespace Trampoline

variable {D F : Type}

/-- How far an async node has come. -/
inductive Phase (D F : Type) where
  /-- The submitting thread has not parked the stack yet. -/
  | submitting
  /-- The submitting thread itself has delivered this exit before parking. -/
  | early (exit : Exit (Outcome D F))
  /-- The stack and the finisher wait for an exit. -/
  | parked (frames : List (Frame D F)) (finish : Finish F)
  /-- The stack has left: the node got its exit. -/
  | resumed

structure Handoff (D F : Type) where
  submitter : ThreadId
  phase : Phase D F

/-- What comes of offering an exit. -/
inductive Offer (D F : Type) where
  /-- The offering thread sleeps until the stack is parked. -/
  | waiting
  /-- The exit is kept for the submitting thread to pick up. -/
  | kept
  /-- The exit is accepted, and this stack goes on with it. -/
  | accepted (frames : List (Frame D F)) (finish : Finish F)
  /-- The node got another exit before. -/
  | rejected

namespace Handoff

def fresh (submitter : ThreadId) : Handoff D F := ⟨submitter, .submitting⟩

/-- An exit is offered by `thread`. -/
def offer (h : Handoff D F) (thread : ThreadId) (exit : Exit (Outcome D F)) :
    Handoff D F × Offer D F :=
  match h.phase with
  | .submitting =>
      if thread = h.submitter then ({ h with phase := .early exit }, .kept) else (h, .waiting)
  | .parked frames finish => ({ h with phase := .resumed }, .accepted frames finish)
  | .early _ => (h, .rejected)
  | .resumed => (h, .rejected)

/-- The submitting thread comes back from `submit`: it picks up an early exit, or parks the
stack. -/
def leave (h : Handoff D F) (frames : List (Frame D F)) (finish : Finish F) :
    Handoff D F × Option (Exit (Outcome D F)) :=
  match h.phase with
  | .early exit => ({ h with phase := .resumed }, some exit)
  | _ => ({ h with phase := .parked frames finish }, none)

@[simp] theorem offer_submitter (h : Handoff D F) (thread : ThreadId)
    (exit : Exit (Outcome D F)) : (h.offer thread exit).1.submitter = h.submitter := by
  unfold offer
  split <;> (try split) <;> rfl

@[simp] theorem leave_submitter (h : Handoff D F) (frames : List (Frame D F))
    (finish : Finish F) : (h.leave frames finish).1.submitter = h.submitter := by
  unfold leave
  split <;> rfl

/-- A rejected offer changes nothing. -/
theorem offer_eq_of_rejected {h : Handoff D F} {thread : ThreadId} {exit : Exit (Outcome D F)}
    (hr : (h.offer thread exit).2 = .rejected) : (h.offer thread exit).1 = h := by
  unfold offer at hr ⊢
  split <;> simp_all
  split at hr <;> simp_all

end Handoff

end Trampoline
