import Trampoline.Handoff
import Trampoline.Promise
import Trampoline.Scheduler

/-!
What threads share: the meeting points of async nodes, promises, channels, futures and schedulers,
the clock, and what has been printed and traced so far.
-/

namespace Trampoline

/-- A channel for one exit. -/
inductive Channel (D F : Type) where
  | empty
  | full (exit : Exit (Outcome D F))
  /-- The receiver is gone; what is sent is lost. -/
  | closed

/-- An effect that is interpreted when it is first polled. -/
inductive Future (D F : Type) where
  | fresh (node : Node D F)
  | running (channel : ChannelId)
  /-- Nobody can complete the effect any more. -/
  | hung
  | finished

/-- The objects that threads share. -/
structure Heap (D F : Type) where
  handoffs : Array (Handoff D F)
  promises : Array (Promise D F)
  channels : Array (Channel D F)
  futures : Array (Future D F)
  schedulers : Array (Scheduler F)
  /-- Nanoseconds since the start. -/
  clock : Nat
  /-- The events so far, the oldest first. -/
  trace : Array Event
  /-- The lines printed so far, the oldest first. -/
  output : Array String

variable {D F : Type}

namespace Channel

def send (exit : Exit (Outcome D F)) : Channel D F → Channel D F
  | .empty => .full exit
  | c => c

end Channel

namespace Heap

/-- The heap at the start, with the schedulers that always exist and some more. -/
def initial (more : List (Scheduler F)) : Heap D F :=
  ⟨#[], #[], #[], #[], (Scheduler.immediate :: Scheduler.sleeper :: more).toArray, 0, #[], #[]⟩

def emit (heap : Heap D F) (event : Event) : Heap D F :=
  { heap with trace := heap.trace.push event }

def print (heap : Heap D F) (line : String) : Heap D F :=
  { heap with output := heap.output.push line }

/-- Makes the meeting point of an async node that `thread` is about to submit. -/
def newHandoff (heap : Heap D F) (thread : ThreadId) : Heap D F × HandoffId :=
  let id := heap.handoffs.size
  ({ heap with handoffs := heap.handoffs.push (.fresh thread) }, id)

def newPromise (heap : Heap D F) (ty : Ty) : Heap D F × PromiseId :=
  let id := heap.promises.size
  ({ heap with promises := heap.promises.push (.empty ty) }, id)

def newChannel (heap : Heap D F) : Heap D F × ChannelId :=
  let id := heap.channels.size
  ({ heap with channels := heap.channels.push .empty }, id)

def newFuture (heap : Heap D F) (node : Node D F) : Heap D F × FutureId :=
  let id := heap.futures.size
  ({ heap with futures := heap.futures.push (.fresh node) }, id)

def setHandoff (heap : Heap D F) (id : HandoffId) (h : Handoff D F) : Heap D F :=
  { heap with handoffs := heap.handoffs.setIfInBounds id h }

def setPromise (heap : Heap D F) (id : PromiseId) (p : Promise D F) : Heap D F :=
  { heap with promises := heap.promises.setIfInBounds id p }

def setFuture (heap : Heap D F) (id : FutureId) (future : Future D F) : Heap D F :=
  { heap with futures := heap.futures.setIfInBounds id future }

def setChannel (heap : Heap D F) (id : ChannelId) (channel : Channel D F) : Heap D F :=
  { heap with channels := heap.channels.setIfInBounds id channel }

def modifyScheduler (heap : Heap D F) (id : SchedulerId) (change : Scheduler F → Scheduler F) :
    Heap D F :=
  { heap with schedulers := heap.schedulers.modify id change }

/-- The number of nanoseconds that instants can tell apart. Their seconds are counted in 63 bits. -/
def instants : Nat := 9223372036854775808 * 1000000000

/-- The instant that is so many nanoseconds ahead, if there is one. -/
def deadline? (heap : Heap D F) (nanoseconds : Nat) : Option Nat :=
  if heap.clock + nanoseconds < instants then some (heap.clock + nanoseconds) else none

theorem deadline?_eq_some {heap : Heap D F} {nanoseconds : Nat}
    (h : heap.clock + nanoseconds < instants) :
    heap.deadline? nanoseconds = some (heap.clock + nanoseconds) :=
  if_pos h

def send (heap : Heap D F) (id : ChannelId) (exit : Exit (Outcome D F)) : Heap D F :=
  { heap with channels := heap.channels.modify id (Channel.send exit) }

def received? (heap : Heap D F) (id : ChannelId) : Option (Exit (Outcome D F)) :=
  match heap.channels[id]? with
  | some (.full exit) => some exit
  | _ => none

def promised? (heap : Heap D F) (id : PromiseId) : Option (Value D F) :=
  match heap.promises[id]? with
  | some p => p.value
  | none => none

def slot? (heap : Heap D F) (id : PromiseId) : Option (Slot D F) :=
  match heap.promises[id]? with
  | some p => p.slot?
  | none => none

end Heap

end Trampoline
