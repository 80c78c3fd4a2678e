import Std.Data.TreeMap
import Trampoline.Machine.Heap
import Trampoline.Session.Datum

/-!
What the threads of a session share: its log, its named things, and the threads it has started.
-/

namespace Trampoline.Session

/-- Things by name. -/
abbrev Table (α : Type) := Std.TreeMap String α

/-- What a scheduler of a session is for its operations. -/
inductive Kind where
  | immediate
  | recording
  | threads
  | pool
  | manual
  | discard
  deriving DecidableEq, Repr

/-- A scheduler of a session: what it is, and what the session itself keeps for it. -/
structure Desk where
  id : SchedulerId
  kind : Kind
  /-- Submitted work that waits to be run by hand, the oldest first. -/
  queue : Array (Work Datum Closure)
  /-- Reports that the session has received for it, the oldest first. -/
  failures : Array WorkFailure

/-- A named effect form with parameters. -/
structure Definition where
  params : List String
  body : Form

/-- A place where a number of threads wait for each other. -/
structure Barrier where
  size : Nat
  waiting : Nat
  round : Nat

/-- What a thread that the session has started has come to. -/
inductive Stage where
  | running
  /-- It has ended, and its result or panic is there to be taken. -/
  | ended (result : Datum)
  /-- Its result has been taken, or nobody waits for it any more. -/
  | gone

namespace Stage

def finish (result : Datum) : Stage → Stage
  | .running => .ended result
  | stage => stage

/-- The result that is there to be taken. -/
def result? : Stage → Option Datum
  | .ended result => some result
  | _ => none

/-- Whether the thread is still running, as far as anybody waits for it. -/
def isRunning : Stage → Bool
  | .running => true
  | _ => false

end Stage

/-- A thread that the session has started. -/
structure Started where
  name : Datum
  stage : Stage

/-- The state of a session. -/
structure State where
  /-- What has been logged since the last step, the oldest first. -/
  log : Array Datum
  cells : Table Datum
  promises : Table PromiseId
  fibers : Table PromiseId
  callbacks : Table (Callback Closure)
  futures : Table FutureId
  effects : Table Fx
  desks : Table Desk
  barriers : Table Barrier
  definitions : Table Definition
  /-- All threads started so far. -/
  started : Array Started
  /-- The numbers of the threads that nobody has joined yet, the latest first. -/
  unjoined : List Nat

namespace State

def initial (desks : Table Desk) (definitions : Table Definition) : State :=
  ⟨#[], ∅, ∅, ∅, ∅, ∅, ∅, desks, ∅, definitions, #[], []⟩

def modifyDesk (state : State) (name : String) (change : Desk → Desk) : State :=
  { state with desks := state.desks.modify name change }

/-- Keeps the result of a thread, unless nobody waits for it any more. -/
def finishThread (state : State) (number : Nat) (result : Datum) : State :=
  { state with
    started := state.started.modify number fun thread =>
      { thread with stage := thread.stage.finish result } }

/-- Takes the result of a thread. A thread that has none by now is no longer waited for. -/
def takeResult (state : State) (number : Nat) : State × Option Datum :=
  ({ state with
      started := state.started.modify number fun thread => { thread with stage := .gone } },
    state.started[number]?.bind fun thread => thread.stage.result?)

def isRunning (state : State) (number : Nat) : Bool :=
  match state.started[number]? with
  | some thread => thread.stage.isRunning
  | none => false

end State

/-- What threads of a session wait for. -/
inductive Condition where
  | cell (name : String)
  /-- A round of a barrier is over. -/
  | barrier (name : String) (round : Nat)
  | ended (number : Nat)
  /-- A scheduler has so many failures. -/
  | failures (scheduler : String) (count : Nat)

/-- The failures of a scheduler that keeps them. Where several threads report, they are given in
order of scheduler and message. -/
def failuresOf? (heap : Heap Datum Closure) (desk : Desk) : Option (List WorkFailure) :=
  match desk.kind with
  | .immediate => none
  | .discard => none
  | .recording => heap.schedulers[desk.id]?.map Scheduler.failures
  | .manual => some desk.failures.toList
  | .threads => some (sorted desk.failures)
  | .pool => some (sorted desk.failures)
where
  /-- Failures in order of scheduler and message. -/
  sorted (failures : Array WorkFailure) : List WorkFailure :=
    failures.toList.mergeSort fun a b =>
      if a.scheduler = b.scheduler then decide (a.message ≤ b.message)
      else decide (a.scheduler ≤ b.scheduler)

def Condition.holds (heap : Heap Datum Closure) (state : State) : Condition → Bool
  | .cell name => state.cells[name]?.isSome
  | .barrier name round =>
      match state.barriers[name]? with
      | some place => place.round ≠ round
      | none => true
  | .ended number => !state.isRunning number
  | .failures scheduler count =>
      match state.desks[scheduler]?.bind (failuresOf? heap) with
      | some reports => count ≤ reports.length
      | none => true

end Trampoline.Session
