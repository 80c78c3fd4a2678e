/-!
Panics. A panic is not a failure of an effect: it carries a payload of its own, bypasses every
pending continuation and ends the interpretation in which it was raised.
-/

namespace Trampoline

/-- What a panic carries: a text, or a number raised without one. -/
inductive Payload where
  | text (message : String)
  | number (value : Int)
  deriving DecidableEq, Repr, Inhabited

namespace Payload

/-- The text under which a panic is reported; a payload that is no text has a fixed one. -/
def message : Payload → String
  | text message => message
  | number _ => "non-string panic payload"

@[simp] theorem message_text (message : String) : (text message).message = message := rfl

@[simp] theorem message_number (value : Int) :
    (number value).message = "non-string panic payload" := rfl

end Payload

/-- The report of a panic that escaped a piece of work: the scheduler (or kind of work) it belongs
to, and the text of the panic. -/
structure WorkFailure where
  scheduler : String
  message : String
  deriving DecidableEq, Repr, Inhabited

namespace WorkFailure

def ofPanic (scheduler : String) (payload : Payload) : WorkFailure :=
  ⟨scheduler, payload.message⟩

/-- The failure of work for which a scheduler could not start a thread. -/
def unspawned (scheduler reason : String) : WorkFailure :=
  ⟨scheduler, "could not spawn worker thread: " ++ reason⟩

def display (failure : WorkFailure) : String :=
  "work submitted to " ++ failure.scheduler ++ " failed: " ++ failure.message

@[simp] theorem ofPanic_scheduler (scheduler : String) (payload : Payload) :
    (ofPanic scheduler payload).scheduler = scheduler := rfl

@[simp] theorem ofPanic_message (scheduler : String) (payload : Payload) :
    (ofPanic scheduler payload).message = payload.message := rfl

end WorkFailure

/-- How an interpretation ends: with the outcome of the effect, or with a panic. -/
inductive Exit (α : Type) where
  | settled (outcome : α)
  | panicked (payload : Payload)
  deriving Repr

end Trampoline
