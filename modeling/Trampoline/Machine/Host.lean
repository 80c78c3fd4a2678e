import Trampoline.Machine.Heap

/-!
The program that uses the library. Its functions run in small steps of their own; between steps they
ask the library to interpret effects, to complete callbacks, to block and so on. Everything that the
library does is defined for an arbitrary host program.
-/

namespace Trampoline

/-- What the running code may ask of the library. -/
inductive Request (D F : Type) where
  | runBlocking (value error : Ty) (node : Node D F)
  | runWith (value error : Ty) (node : Node D F) (target : Callback F)
  /-- Interpret an effect on a scheduler; the reply is its fiber. -/
  | runFiber (value error : Ty) (node : Node D F) (scheduler : SchedulerId)
  | runAsync (value error : Ty) (node : Node D F)
  /-- Poll a future; the reply is the result, if there is one by now. -/
  | poll (value error : Ty) (future : FutureId)
  | dropFuture (future : FutureId)
  /-- Drive the future of an effect to its end. -/
  | blockOn (value error : Ty) (node : Node D F)
  | complete (target : Callback F) (outcome : Outcome D F)
  | newPromise (ty : Ty)
  /-- Complete a promise; the reply is a result, its error the rejected value. -/
  | fill (promise : PromiseId) (v : Value D F)
  | await (promise : PromiseId)
  /-- Block until a promise is completed, or so many nanoseconds have passed. -/
  | awaitFor (promise : PromiseId) (nanoseconds : Nat)
  /-- Run a function with the value of a promise. -/
  | subscribe (promise : PromiseId) (f : Owned F)
  | newFiber (value error : Ty)
  /-- Make a fiber that has its outcome. -/
  | completedFiber (value error : Ty) (outcome : Outcome D F)
  /-- Record the outcome of a fiber; the reply is a result, its error the rejected outcome. -/
  | fillFiber (value error : Ty) (fiber : PromiseId) (outcome : Outcome D F)
  | awaitFiber (fiber : PromiseId)
  /-- Block until a fiber has its outcome, or so many nanoseconds have passed. -/
  | awaitFiberFor (fiber : PromiseId) (nanoseconds : Nat)
  /-- Complete a callback with the outcome of a fiber. -/
  | observe (value error : Ty) (fiber : PromiseId) (target : Callback F)
  | submit (scheduler : SchedulerId) (work : Work D F)
  | report (scheduler : SchedulerId) (failure : WorkFailure)
  | perform (work : Work D F)
  | spawn (name : Option String) (f : Owned F)

/-- What running code is told when it goes on. -/
inductive Reply (D F : Type) where
  | start
  | value (v : Value D F)
  | raised (payload : Payload)
  | held
  | timedOut

/-- What a step of running code comes to. -/
inductive Move (D F Code Condition : Type) where
  | run (code : Code)
  | ret (v : Value D F)
  | raise (payload : Payload)
  | ask (request : Request D F) (code : Code)
  /-- Blocks until a condition of the host's state holds or the deadline passes. -/
  | wait (condition : Condition) (deadline : Option Nat) (code : Code)

/-- Where code runs. -/
structure Here where
  thread : ThreadId
  name : Option String

/-- A host program. -/
structure Host where
  Data : Type
  Fn : Type
  /-- A running or suspended piece of it. -/
  Code : Type
  /-- The state its threads share. -/
  State : Type
  /-- What its threads can block for. -/
  Condition : Type
  enter : Fn → List (Value Data Fn) → Code
  /-- One step. The library's objects can be looked at, and changed by requests only. -/
  advance : Here → Heap Data Fn → State → Code → Reply Data Fn →
    State × Move Data Fn Code Condition
  holds : Heap Data Fn → State → Condition → Bool
  /-- The references in code, in front of others. -/
  codeRefs : Code → List Ref → List Ref
  /-- The references in the state, in front of others. -/
  stateRefs : State → List Ref → List Ref
  /-- Why no thread can be started with a stack of so many bytes, if that is so. -/
  spawnError : Nat → Option String := fun _ => none

end Trampoline
