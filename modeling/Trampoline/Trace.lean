import Trampoline.Panic

/-!
Trace events. An event has a level, fields in the order in which they were recorded, and the labels
of the spans that its thread has entered.
-/

namespace Trampoline

/-- The levels of events, the most detailed first. -/
inductive Level where
  | trace
  | debug
  | info
  | warn
  | error
  deriving DecidableEq, Repr, Inhabited

namespace Level

def rank : Level → Nat
  | .trace => 0
  | .debug => 1
  | .info => 2
  | .warn => 3
  | .error => 4

/-- Whether an event of level `level` is kept by a reader interested from `least` on. -/
def keeps (least level : Level) : Bool := least.rank ≤ level.rank

end Level

/-- The value of a field. A duration that was measured is not shown: two runs differ in it. -/
inductive Field where
  | text (s : String)
  | count (n : Nat)
  | elapsed
  deriving DecidableEq, Repr

/-- One event. -/
structure Event where
  level : Level
  fields : List (String × Field)
  spans : List String
  deriving DecidableEq, Repr

namespace Event

/-- An event outside every span, with its message first. -/
def plain (level : Level) (message : String) (more : List (String × Field)) : Event :=
  ⟨level, ("message", .text message) :: more, []⟩

/-- An effect was suspended at an async node with `frames` continuations pending. -/
def parking (frames : Nat) : Event :=
  plain .trace "parking effect at async boundary" [("frames", .count frames)]

/-- A suspended effect continues with `frames` continuations pending. -/
def resuming (frames : Nat) : Event :=
  plain .trace "resuming parked effect" [("frames", .count frames)]

/-- The callback of an async node fired after the node had got its exit. -/
def ignoredCompletion : Event :=
  plain .trace "ignoring completion of an already settled async node" []

/-- A forked effect panicked with the text `message`. -/
def forkPanicked (message : String) : Event :=
  plain .debug "forked effect panicked" [("message", .text message)]

/-- A function that was notified of a promise's value panicked. -/
def subscriberPanicked : Event :=
  plain .debug "promise subscriber panicked" []

/-- The failure of work whose scheduler has no better use for it. -/
def workPanicked (failure : WorkFailure) : Event :=
  plain .error "scheduled work panicked"
    [("scheduler", .text failure.scheduler), ("message", .text failure.message)]

def retryingOnce : Event :=
  plain .debug "effect failed, retrying once" []

/-- A failed effect is tried again after a delay, whose text is `delay`. -/
def retrying (delay : String) : Event :=
  plain .debug "effect failed, retrying" [("delay", .text delay)]

/-- A blocked caller waits for an effect that nobody can complete. -/
def blockedForever : Event :=
  plain .warn "effect dropped its callback without completing; blocking forever" []

/-- A future waits for an effect that nobody can complete. -/
def pendingForever : Event :=
  plain .warn "effect dropped its callback without completing; pending forever" []

def started (span : String) : Event :=
  ⟨.debug, [("message", .text "effect started")], [span]⟩

/-- An instrumented effect has settled, inside its span. -/
def ended (span : String) (succeeded : Bool) : Event :=
  ⟨.debug, [("message", .text (if succeeded then "effect succeeded" else "effect failed")),
    ("elapsed_ms", .elapsed)], [span]⟩

end Event

end Trampoline
