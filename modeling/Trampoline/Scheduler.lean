import Trampoline.Value

/-!
Schedulers: where submitted work runs. A panic that escapes work is caught at the boundary of the
scheduler that runs it and becomes a report; what a report leads to is the scheduler's business.
-/

namespace Trampoline

variable {F : Type}

/-- Who receives the reports of a scheduler. -/
inductive Hook (F : Type) where
  /-- The report becomes an event. -/
  | log
  | user (f : Owned F)

/-- A scheduler and what it keeps. -/
inductive Scheduler (F : Type) where
  /-- Runs work on the spot. -/
  | immediate
  /-- Runs work on the spot, counts it and keeps the reports, the oldest first. -/
  | recording (submitted : Nat) (failures : Array WorkFailure)
  /-- Runs every unit of work on a thread of its own, named after the scheduler and numbered. -/
  | threads (name : String) (stackSize : Option Nat) (spawned : Nat) (hook : Hook F)
  /-- Runs work on the threads of a pool. -/
  | pool (hook : Hook F)
  /-- Hands work to a function of the host program. -/
  | custom (submit : Owned F) (hook : Hook F)

namespace Scheduler

/-- The name under which threads are numbered unless another one is chosen. -/
def defaultName : String := "undertow-worker"

def ofThreads (name : String) (stackSize : Option Nat) (hook : Hook F) : Scheduler F :=
  .threads name stackSize 0 hook

/-- The thread scheduler on which sleeping effects wait. -/
def sleeper : Scheduler F := ofThreads "undertow-sleep" none .log

def freshRecording : Scheduler F := .recording 0 #[]

/-- The name of the threads of a pool. -/
def poolThread : String := "tokio-rt-worker"

/-- The name that a report of work run by the scheduler carries. A custom scheduler runs its work
without a boundary of its own, so no report carries this name for it. -/
def reportName : Scheduler F → String
  | .immediate => "immediate"
  | .recording _ _ => "recording"
  | .threads name _ _ _ => name
  | .pool _ => "tokio"
  | .custom _ _ => ""

/-- The name of the thread for the next unit of work of a thread scheduler called `name`. -/
def threadName (name : String) (number : Nat) : String := name ++ "-" ++ toString number

/-- The panic of starting a thread of a name in which there is a NUL character. It tells the place
of the first one and the bytes of the name. -/
def refusal? (name : String) : Option Payload :=
  let bytes := name.toUTF8.toList
  (bytes.findIdx? (· = 0)).map fun place =>
    .text ("thread name may not contain interior null bytes: NulError(" ++ toString place ++
      ", [" ++ ", ".intercalate (bytes.map fun byte => toString byte.toNat) ++ "])")

def count : Scheduler F → Nat
  | .recording submitted _ => submitted
  | .threads _ _ spawned _ => spawned
  | _ => 0

def failures : Scheduler F → List WorkFailure
  | .recording _ failures => failures.toList
  | _ => []

/-- Whether a scheduler runs work on the thread that submits it, before `submit` returns. -/
def isInline : Scheduler F → Bool
  | .immediate => true
  | .recording _ _ => true
  | _ => false

/-- The hook that receives a report, unless the scheduler keeps the report itself. -/
def hook? : Scheduler F → Option (Hook F)
  | .immediate => some .log
  | .recording _ _ => none
  | .threads _ _ _ hook => some hook
  | .pool hook => some hook
  | .custom _ hook => some hook

/-- One more unit of work was submitted. -/
def counted : Scheduler F → Scheduler F
  | .recording submitted failures => .recording (submitted + 1) failures
  | .threads name stackSize spawned hook => .threads name stackSize (spawned + 1) hook
  | s => s

/-- A report was received; a scheduler that keeps reports adds it. -/
def reported (failure : WorkFailure) : Scheduler F → Scheduler F
  | .recording submitted failures => .recording submitted (failures.push failure)
  | s => s

@[simp] theorem failures_counted (s : Scheduler F) : s.counted.failures = s.failures := by
  cases s <;> rfl

@[simp] theorem count_reported (s : Scheduler F) (failure : WorkFailure) :
    (s.reported failure).count = s.count := by
  cases s <;> rfl

@[simp] theorem failures_reported_recording (submitted : Nat) (failures : Array WorkFailure)
    (failure : WorkFailure) :
    ((Scheduler.recording submitted failures : Scheduler F).reported failure).failures =
      failures.toList ++ [failure] := by
  simp [reported, Scheduler.failures]

end Scheduler

end Trampoline
