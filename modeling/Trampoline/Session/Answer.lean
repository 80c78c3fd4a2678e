import Trampoline.Machine.Run
import Trampoline.Session.Program

/-!
The answer to a session: its steps run one after the other on one thread, and each step's answer
tells what it yielded and what has been logged, printed and traced meanwhile.
-/

namespace Trampoline.Session

mutual

def Datum.form : Datum → Form
  | .unit => .null
  | .bool b => .bool b
  | .int n => .int n
  | .str s => .str s
  | .list items => .arr (items.forms [])
  | .ok d => .obj [("ok", d.form)]
  | .err d => .obj [("err", d.form)]
  | .some d => .obj [("some", d.form)]
  | .none => .obj [("none", .null)]
  | .panic d => .obj [("panic", d.form)]
  | .fx node => .obj [("effect", .str (layoutKind node.kind).compact)]

/-- The forms of data, after those made already, which come last first. -/
def Data.forms : Data → List Form → List Form
  | .nil, done => done.reverse
  | .cons d rest, done => rest.forms (d.form :: done)

end

def levelName : Level → String
  | .trace => "trace"
  | .debug => "debug"
  | .info => "info"
  | .warn => "warn"
  | .error => "error"

def fieldForm : Field → Form
  | .text s => .str s
  | .count n => .int (.ofNat n)
  | .elapsed => .str "_"

def eventForm (event : Event) : Form :=
  .arr [.str (levelName event.level),
    .arr (event.fields.map fun field => .arr [.str field.1, fieldForm field.2]),
    .arr (event.spans.map .str)]

/-- A field that is left out when there is nothing in it. -/
def someField (name : String) (items : List Form) : List (String × Form) :=
  if items.isEmpty then [] else [(name, .arr items)]

abbrev SessionWorld := World host

/-- The thread that runs the steps. -/
def mainThread : ThreadId := 0

def initialWorld (desks : Table Desk) (schedulers : List (Scheduler Closure))
    (definitions : Table Definition) : SessionWorld :=
  ⟨.initial schedulers, .initial desks definitions, ∅, mainThread + 1⟩

/-- More turns than a step takes. -/
def anyTurns : Nat := 1000000000000000000

/-- Lets the main thread start with an expression. -/
def beginStep (w : SessionWorld) (form : Form) : SessionWorld :=
  { w with
    threads := w.threads.insert mainThread
      (.starting (some "main") (.user (.run (.eval form (.ofScope .empty)) []) .start) []) }

def yielded (w : SessionWorld) : Form :=
  match w.threads[mainThread]? with
  | some ⟨_, .ret (.data _ d), _⟩ => d.val.form
  | some ⟨_, .raise payload, _⟩ => .obj [("panic", (Datum.ofPayload payload).form)]
  | _ => .null

/-- The answer to a step that has ended, with the events of the levels from `least` on. -/
def stepAnswer (w : SessionWorld) (least : Option Level) : Form :=
  let log := w.state.log.toList.map Datum.form
  let out := w.heap.output.toList.map (· ++ "\n")
  let events :=
    match least with
    | some least => (w.heap.trace.toList.filter fun event => least.keeps event.level).map eventForm
    | none => []
  .obj (someField "log" log ++
    (if out.isEmpty then [] else [("out", .str (String.join out))]) ++
    [("r", yielded w)] ++ someField "trace" events)

/-- Forgets what has been logged, printed and traced. -/
def drained (w : SessionWorld) : SessionWorld :=
  match w with
  | ⟨heap, state, threads, next⟩ =>
      ⟨{ heap with trace := #[], output := #[] }, { state with log := #[] }, threads, next⟩

/-- The answers to steps, after those given already, which come last first. -/
def answers (least : Option Level) (done : List Form) : SessionWorld → List Form → List Form
  | _, [] => done.reverse
  | w, form :: rest =>
      let w := (beginStep w form).run mainThread anyTurns .initial mainThread
      let answer := stepAnswer w least
      answers least (answer :: done) (drained w) rest

/-- The levels that a session wants to see. -/
def leastLevel (line : Form) : Option Level :=
  match line.field? "trace" with
  | some (.str "debug") => some .debug
  | some (.str "trace") => some .trace
  | _ => none

def badInput : Form := .obj [("error", .str "bad input"), ("message", .str "bad input")]

/-- The answer to a line. -/
def answer (line : Form) : Form :=
  let specs :=
    match line.field? "scheds" with
    | none => some []
    | some (.obj fields) => some fields
    | some _ => none
  let named :=
    match line.field? "defs" with
    | some (.obj fields) => definitions fields
    | _ => ∅
  match (line.field? "steps").bind Form.items?, specs.bind (desks? 2) with
  | some steps, some (desks, schedulers) =>
      let world := initialWorld desks schedulers named
      .obj [("steps", .arr (answers (leastLevel line) [] world steps))]
  | _, _ => badInput

end Trampoline.Session
