import Trampoline.Machine.Heap
import Trampoline.Session.Datum
import Trampoline.Text.Layout
import Trampoline.Text.Quoted

/-!
How data and the objects of the library look to a reader who debugs.
-/

namespace Trampoline.Session

def quoted (s : String) : Layout := .atom (Quoted.quote s)

/-- An effect shows the kind of its outermost node. -/
def layoutKind (kind : String) : Layout := .fields "Effect" [("step", quoted kind)] false

mutual

def Datum.layout : Datum → Layout
  | .unit => .atom "()"
  | .bool b => .atom (if b then "true" else "false")
  | .int n => .atom (toString n.toInt)
  | .str s => quoted s
  | .list items => .list (items.layouts [])
  | .ok d => .tuple "Ok" [d.layout]
  | .err d => .tuple "Err" [d.layout]
  | .some d => .tuple "Some" [d.layout]
  | .none => .atom "None"
  | .panic d => .tuple "Panic" [d.layout]
  | .fx node => layoutKind node.kind

/-- The layouts of data, after those made already, which come last first. -/
def Data.layouts : Data → List Layout → List Layout
  | .nil, done => done.reverse
  | .cons d rest, done => rest.layouts (d.layout :: done)

end

def Datum.debug (d : Datum) : String := d.layout.compact

/-- The text of data in a longer text: a string as it is, anything else as it is debugged. -/
def Datum.text : Datum → String
  | .str s => s
  | d => d.debug

def layoutOption : Option Layout → Layout
  | some layout => .tuple "Some" [layout]
  | none => .atom "None"

def layoutFailure (failure : WorkFailure) : Layout :=
  .fields "WorkFailure"
    [("scheduler", quoted failure.scheduler), ("message", quoted failure.message)] false

def layoutPromise (value : Option Datum) : Layout :=
  .fields "Promise" [("value", layoutOption (value.map Datum.layout))] true

def layoutFiber (slot : Option (Slot Datum Closure)) : Layout :=
  match slot with
  | some (.panicked report) => .fields "Fiber" [("panicked", quoted report.message)] false
  | some (.ok v) =>
      .fields "Fiber" [("outcome", layoutOption (some (Datum.ok (.ofValue v)).layout))] false
  | some (.err v) =>
      .fields "Fiber" [("outcome", layoutOption (some (Datum.err (.ofValue v)).layout))] false
  | none => .fields "Fiber" [("outcome", layoutOption none)] false

def layoutCallback : Layout := .fields "Callback" [("sink", quoted "<function>")] false

def layoutNat (n : Nat) : Layout := .atom (toString n)

def layoutScheduler? : Scheduler Closure → Option Layout
  | .immediate => none
  | .recording submitted failures =>
      some (.fields "RecordingScheduler"
        [("submitted", layoutNat submitted),
          ("failures", .fields "Mutex"
            [("data", .list (failures.toList.map layoutFailure))] false)] false)
  | .threads name stackSize spawned _ =>
      some (.fields "ThreadScheduler"
        [("name", quoted name), ("stack_size", layoutOption (stackSize.map layoutNat)),
          ("spawned", layoutNat spawned), ("on_failure", quoted "<hook>")] false)
  | .pool _ => none
  | .custom _ _ => none

/-- The layout of a thread scheduler that is not built yet. -/
def layoutBuilder (name : String) (stackSize : Option Nat) : Layout :=
  .fields "ThreadSchedulerBuilder"
    [("name", quoted name), ("stack_size", layoutOption (stackSize.map layoutNat))] true

/-- The layout of a value that came too late for a promise. -/
def layoutAlreadyCompleted (d : Datum) : Layout := .tuple "AlreadyCompleted" [d.layout]

/-- The line that tells of a value that came too late. -/
def alreadyCompleted : String := "promise already completed"

end Trampoline.Session
