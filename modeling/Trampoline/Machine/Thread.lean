import Trampoline.Machine.References

/-!
Threads. A thread has a control, which is the task it is about to do or the reply it has just got,
and a stack of returns: what it goes back to with that reply. A panic travels down the stack until a
return catches it.
-/

namespace Trampoline

/-- What threads sleep at until they are notified. -/
inductive Gate where
  | handoff (id : HandoffId)
  | promise (id : PromiseId)
  deriving DecidableEq, Repr

/-- What a sleeping thread waits for. -/
inductive Wait (H : Host) where
  /-- A notification, until a deadline if there is one. -/
  | gate (gate : Gate) (deadline : Option Nat)
  /-- The content of a channel, or the end of its senders. -/
  | channel (id : ChannelId)
  /-- Nothing: it is told at once whether a channel has a sender. -/
  | sender (id : ChannelId)
  | clock (time : Nat)
  /-- A condition of the host, until a deadline if there is one. -/
  | host (condition : H.Condition) (deadline : Option Nat)
  /-- What never happens. -/
  | forever

/-- Who delivers an exit to an async node. -/
inductive Origin where
  /-- The node's callback. -/
  | completion
  /-- The guard around the node's registration, after a panic. -/
  | registration
  deriving DecidableEq, Repr

/-- What a thread does next. -/
inductive Task (H : Host) where
  | give (v : Value H.Data H.Fn)
  | user (code : H.Code) (reply : Reply H.Data H.Fn)
  | call (f : Owned H.Fn) (args : List (Value H.Data H.Fn))
  | request (request : Request H.Data H.Fn)
  /-- Goes on with an interpretation, which has hold of `last`. -/
  | drive (i : Interpretation H.Data H.Fn) (last : Kept) (finish : Finish H.Fn)
  | answer (question : Ask H.Data H.Fn)
  /-- Leaves an async node whose registration has been submitted; `last` is what the node keeps. -/
  | park (handoff : HandoffId) (frames : List (Frame H.Data H.Fn)) (last : Kept)
      (finish : Finish H.Fn)
  | deliver (handoff : HandoffId) (exit : Exit (Outcome H.Data H.Fn)) (origin : Origin)
  /-- Goes on with a stack taken from an async node. -/
  | resume (exit : Exit (Outcome H.Data H.Fn)) (frames : List (Frame H.Data H.Fn))
      (finish : Finish H.Fn)
  /-- Takes the exit of an interpretation where it belongs. -/
  | conclude (exit : Exit (Outcome H.Data H.Fn)) (finish : Finish H.Fn)
  | submit (scheduler : SchedulerId) (work : Work H.Data H.Fn)
  | perform (work : Work H.Data H.Fn)
  | report (scheduler : SchedulerId) (failure : WorkFailure)
  | register (register : Register H.Fn) (target : Callback H.Fn)
  | invoke (target : Callback H.Fn) (outcome : Outcome H.Data H.Fn)
  /-- Completes a promise: writes its value. -/
  | fill (promise : PromiseId) (v : Value H.Data H.Fn)
  /-- Completes a promise: takes its subscribers. -/
  | take (promise : PromiseId) (v : Value H.Data H.Fn)
  /-- Completes a promise: wakes those who wait for it. -/
  | wake (promise : PromiseId) (v : Value H.Data H.Fn) (subscribers : List (Subscriber H.Fn))
  /-- Completes a promise: tells the subscribers, and keeps the first panic among them. -/
  | notify (promise : PromiseId) (v : Value H.Data H.Fn) (subscribers : List (Subscriber H.Fn))
      (first : Option Payload)
  | tell (subscriber : Subscriber H.Fn) (v : Value H.Data H.Fn)
  | subscribe (promise : PromiseId) (subscriber : Subscriber H.Fn)
  | await (promise : PromiseId)
  | awaitUntil (promise : PromiseId) (time : Nat)
  /-- Looks at a promise for the last time. -/
  | peek (promise : PromiseId)
  /-- Waits for the exit of an interpretation; `warning` tells that it cannot come any more. -/
  | receive (value error : Ty) (channel : ChannelId) (warning : Event)
  /-- Announces that an exit cannot come any more, and blocks forever. -/
  | lost (warning : Event)
  /-- Takes the exit of a polled future, if it is there. -/
  | collect (value error : Ty) (future : FutureId) (channel : ChannelId)
  /-- Announces that a polled future cannot end any more, unless it has ended by now. -/
  | hang (value error : Ty) (future : FutureId) (channel : ChannelId)

/-- What a thread goes back to. -/
inductive Return (H : Host) where
  /-- Host code that gets the reply, or the panic. -/
  | user (code : H.Code)
  /-- An interpretation that has asked a question. It has hold of `last`, and of the continuation
  that asks, which keeps `applied`. -/
  | answering (post : Post H.Data H.Fn) (frames : List (Frame H.Data H.Fn)) (last applied : Kept)
      (finish : Finish H.Fn)
  /-- The boundary of a scheduler: a panic is reported to it. -/
  | guarded (scheduler : SchedulerId)
  /-- The boundary of a registration, which is kept until it has ended: a panic is offered to the
  async node. -/
  | guarding (handoff : HandoffId) (register : Register H.Fn)
  /-- Nothing is done; the references are kept until then. -/
  | holding (refs : List Ref)
  | driving
  /-- Another task, whatever the reply. -/
  | after (task : Task H)
  /-- The first poll of a future, which looks for the exit then. A panic leaves the future useless.
  -/
  | polling (value error : Ty) (future : FutureId) (channel : ChannelId)
  /-- The completion of a promise, in the middle of its subscribers. A panic is kept. -/
  | notifying (promise : PromiseId) (v : Value H.Data H.Fn)
      (subscribers : List (Subscriber H.Fn)) (first : Option Payload)
  | reading
  /-- A completer of a fiber, to whom a rejected slot is given back as an outcome. -/
  | givingBack

/-- What a thread is about to do. -/
inductive Control (H : Host) where
  | run (task : Task H)
  | ret (v : Value H.Data H.Fn)
  | raise (payload : Payload)
  /-- Sleeps, then does `woken`; or `missed` when what it waits for cannot come any more. -/
  | asleep (wait : Wait H) (woken missed : Task H)

/-- A thread. It has ended when there is nothing to go back to with a reply or a panic. -/
structure Thread (H : Host) where
  name : Option String
  control : Control H
  stack : List (Return H)

variable {H : Host}

/-- Whether the thread drives a future until it comes back here. -/
def Return.isDriving : Return H → Bool
  | .driving => true
  | _ => false

namespace Thread

def starting (name : Option String) (task : Task H) (stack : List (Return H)) : Thread H :=
  ⟨name, .run task, stack⟩

def idle : Thread H := ⟨none, .ret .unit, []⟩

def ended : Thread H → Bool
  | ⟨_, .ret _, []⟩ => true
  | ⟨_, .raise _, []⟩ => true
  | _ => false

end Thread

end Trampoline
