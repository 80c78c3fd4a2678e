import Trampoline.Plan

/-!
The interpreter. An interpretation is a node or an exit in focus above a stack of pending
continuations. One step descends into the source of the node, applies the top continuation to the
exit, or shows what the interpretation needs from its surroundings: the reply to a question, the
exit of an async node, or someone to take its own exit.

An interpretation holds no state of its surroundings, so the same one can go on inline, on another
thread or not at all.
-/

namespace Trampoline

variable {D F : Type}

/-- A pending continuation. -/
inductive Frame (D F : Type) where
  | bind (b : Bind D F)
  | resume (r : Resume D F)
  | reify (r : Reify)

/-- What an interpretation looks at next. -/
inductive Focus (D F : Type) where
  | node (node : Node D F)
  | exit (exit : Exit (Outcome D F))

/-- A focus above the stack of pending continuations, the innermost first. -/
structure Interpretation (D F : Type) where
  focus : Focus D F
  frames : List (Frame D F)

/-- What a step of an interpretation comes to. -/
inductive Progress (D F : Type) where
  /-- The interpretation goes on by itself. -/
  | next (i : Interpretation D F)
  /-- It waits for the reply to a question. -/
  | ask (question : Ask D F) (post : Post D F) (frames : List (Frame D F))
  /-- It waits for the exit of an async node. -/
  | suspend (register : Register F) (scheduler : SchedulerId) (frames : List (Frame D F))
  /-- It has ended. -/
  | finish (exit : Exit (Outcome D F))

/-- What a continuation makes of an outcome. A failure passes every continuation but a reifier. -/
def Frame.plan : Frame D F → Outcome D F → Plan D F
  | .bind b, .ok v => b.plan v
  | .resume r, .ok v => r.plan v
  | .reify r, o => r.plan o
  | .bind _, .error e => .settled (.error e)
  | .resume _, .error e => .settled (.error e)

namespace Interpretation

def start (node : Node D F) : Interpretation D F := ⟨.node node, []⟩

def settle (exit : Exit (Outcome D F)) (frames : List (Frame D F)) : Interpretation D F :=
  ⟨.exit exit, frames⟩

def continueWith (frames : List (Frame D F)) : Next D F → Interpretation D F
  | .run node => ⟨.node node, frames⟩
  | .andThen node resume => ⟨.node node, .resume resume :: frames⟩
  | .done outcome => settle (.settled outcome) frames

def follow (frames : List (Frame D F)) : Plan D F → Progress D F
  | .answer next => .next (continueWith frames next)
  | .raise payload => .next (settle (.panicked payload) frames)
  | .ask question post => .ask question post frames

/-- Goes on with the reply to a question. A panic that came instead of a reply is the exit. -/
def reply (post : Post D F) (frames : List (Frame D F)) :
    Except Payload (Value D F) → Interpretation D F
  | .ok v =>
      match post.answer v with
      | .ok next => continueWith frames next
      | .error payload => settle (.panicked payload) frames
  | .error payload => settle (.panicked payload) frames

/-- One step. A panic ends the interpretation whatever continuations are pending. -/
def step : Interpretation D F → Progress D F
  | ⟨.node (.thunk t), frames⟩ => follow frames t.plan
  | ⟨.node (.async register scheduler), frames⟩ => .suspend register scheduler frames
  | ⟨.node (.flatMap source bind), frames⟩ => .next ⟨.node source, .bind bind :: frames⟩
  | ⟨.node (.attempt source reify), frames⟩ => .next ⟨.node source, .reify reify :: frames⟩
  | ⟨.exit (.panicked payload), _⟩ => .finish (.panicked payload)
  | ⟨.exit (.settled outcome), []⟩ => .finish (.settled outcome)
  | ⟨.exit (.settled outcome), frame :: frames⟩ => follow frames (frame.plan outcome)

@[simp] theorem step_panicked (payload : Payload) (frames : List (Frame D F)) :
    step (settle (.panicked payload) frames) = .finish (.panicked payload) := rfl

@[simp] theorem step_settled_nil (outcome : Outcome D F) :
    step (settle (.settled outcome) []) = .finish (.settled outcome) := rfl

@[simp] theorem step_settled_cons (outcome : Outcome D F) (frame : Frame D F)
    (frames : List (Frame D F)) :
    step (settle (.settled outcome) (frame :: frames)) = follow frames (frame.plan outcome) := rfl

end Interpretation

end Trampoline
