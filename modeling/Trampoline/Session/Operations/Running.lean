import Trampoline.Session.Debug
import Trampoline.Session.Operations.Cells

/-!
Operations that run effects and work, and those that show how things look.
-/

namespace Trampoline.Session

/-- An element of a scheduler's queue, and its position. -/
def State.queued? (state : State) (scheduler : String) (i : Int) :
    Option (Nat × Work Datum Closure) := do
  let desk ← state.desks[scheduler]?
  let position ← position? desk.queue.size i
  let work ← desk.queue[position]?
  return (position, work)

/-- Takes the element at a position out of a scheduler's queue. -/
def State.dequeue (state : State) (scheduler : String) (position : Nat) : State :=
  state.modifyDesk scheduler fun desk =>
    { desk with queue := desk.queue.eraseIdxIfInBounds position }

/-- Runs an element of a scheduler's queue, and then others as long as there are any, if `again`
tells so. -/
def runQueued (state : State) (scheduler : String) (i : Int) (again : Option Nat) :
    State × Action :=
  match state.queued? scheduler i with
  | some (position, work) =>
      (state.dequeue scheduler position,
        .ask (.perform work) (.ran scheduler (again.map fun count => (i, count))))
  | none =>
      match again with
      | some count => (state, .value (.int (.ofNat count)))
      | none => (state, .value (.bool false))

/-- An operation on a queue that is run by hand. -/
def onQueue (f : State → String → Int → State × Action) : Operation :=
  ⟨inOrder [.scheduler, .int], fun _ _ state items =>
    match items with
    | [.scheduler s desk, .int i] =>
        if desk.kind = .manual then f state s i.toInt else (state, .bad)
    | _ => (state, .bad)⟩

/-- Gives the failures of a scheduler that keeps them. -/
def givingFailures (heap : Heap Datum Closure) (desk : Desk) : Action :=
  match failuresOf? heap desk with
  | some failures => .value (.ofList (failures.map .ofFailure))
  | none => .bad

/-- How many units of work a scheduler counts. -/
def countOf? (heap : Heap Datum Closure) (desk : Desk) : Option Nat :=
  match desk.kind with
  | .manual => some desk.queue.size
  | .recording => heap.schedulers[desk.id]?.map Scheduler.count
  | .threads => heap.schedulers[desk.id]?.map Scheduler.count
  | _ => none

def schedulerOperations : List (String × Operation) := [
  ("s_submit", .pure (inOrder [.scheduler, .form]) fun
    | env, [.scheduler _ desk, .form body] =>
        .ask (.submit desk.id (.user (Closure.code [] body env.scope .nothing).owned)) .nothing
    | _, _ => .bad),
  ("s_report", .onValues (inOrder [.scheduler, .text, .text]) fun
    | [.scheduler _ desk, .text name, .text message] =>
        .ask (.report desk.id ⟨name, message⟩) .nothing
    | _ => .bad),
  ("s_count", .looking (inOrder [.scheduler]) fun heap _ items =>
    match items with
    | [.scheduler _ desk] =>
        match countOf? heap desk with
        | some n => .value (.int (.ofNat n))
        | none => .bad
    | _ => .bad),
  ("s_failures", .looking [.arg 0 .scheduler, .optional 1 .int] fun heap _ items =>
    match items with
    | [.scheduler _ desk] => givingFailures heap desk
    | [.scheduler s _, .int n] => .wait (.failures s n.toInt.toNat) none (.failures s)
    | _ => .bad),
  ("s_name", .looking (inOrder [.scheduler]) fun heap _ items =>
    match items with
    | [.scheduler _ desk] =>
        match heap.schedulers[desk.id]? with
        | some (.threads name _ _ _) => .value (.str name)
        | _ => .bad
    | _ => .bad),
  ("s_step", onQueue fun state s i => runQueued state s i none),
  ("s_all", onQueue fun state s i => runQueued state s i (some 0)),
  ("s_drop", onQueue fun state s i =>
    match state.queued? s i with
    | some (position, _) => (state.dequeue s position, .value (.bool true))
    | none => (state, .value (.bool false)))]

def effectOperations : List (String × Operation) := [
  ("fx", .onValues (inOrder [.effect]) fun
    | [.effect b] => .value (.ofFx b.fx)
    | _ => .bad),
  ("def", ⟨inOrder [.name, .effect], fun _ _ state items =>
    match items with
    | [.name n, .effect b] => ({ state with effects := state.effects.insert n b.fx }, .value .unit)
    | _ => (state, .bad)⟩),
  ("undef", ⟨inOrder [.name], fun _ _ state items =>
    match items with
    | [.name n] =>
        match state.effects[n]? with
        | some _ => ({ state with effects := state.effects.erase n }, .value .unit)
        | none => (state, .bad)
    | _ => (state, .bad)⟩),
  ("blocking", .onValues (inOrder [.effect]) fun
    | [.effect b] => .ask (.runBlocking datumTy datumTy b.fx.node) .convert
    | _ => .bad),
  ("with", .pure [.arg 0 .name, .arg 1 .form, .arg 2 .effect] fun
    | env, [.name x, .form body, .effect b] =>
        .ask (.runWith datumTy datumTy b.fx.node (callbackOf x body env)) .nothing
    | _, _ => .bad),
  ("fork", .onValues (inOrder [.name, .effect, .scheduler]) fun
    | [.name n, .effect b, .scheduler _ desk] =>
        .ask (.runFiber datumTy datumTy b.fx.node desk.id) (.fiber n)
    | _ => .bad),
  ("future", .onValues (inOrder [.name, .effect]) fun
    | [.name n, .effect b] => .ask (.runAsync datumTy datumTy b.fx.node) (.future n)
    | _ => .bad),
  ("poll", ⟨inOrder [.name], fun _ _ state items =>
    match items with
    | [.name n] =>
        match state.futures[n]? with
        | some id =>
            ({ state with futures := state.futures.erase n },
              .ask (.poll datumTy datumTy id) (.polled n id))
        | none => (state, .bad)
    | _ => (state, .bad)⟩),
  ("future_drop", ⟨inOrder [.name], fun _ _ state items =>
    match items with
    | [.name n] =>
        match state.futures[n]? with
        | some id =>
            ({ state with futures := state.futures.erase n }, .ask (.dropFuture id) .nothing)
        | none => (state, .bad)
    | _ => (state, .bad)⟩),
  ("block_on", .onValues (inOrder [.effect]) fun
    | [.effect b] => .ask (.blockOn datumTy datumTy b.fx.node) .convert
    | _ => .bad),
  ("assert_ok", .onValues [.arg 0 .effect, .optional 1 .value] fun
    | [.effect b] => .ask (.runBlocking datumTy datumTy b.fx.node) (.expect true none)
    | [.effect b, .value d] => .ask (.runBlocking datumTy datumTy b.fx.node) (.expect true (some d))
    | _ => .bad),
  ("assert_err", .onValues [.arg 0 .effect, .optional 1 .value] fun
    | [.effect b] => .ask (.runBlocking datumTy datumTy b.fx.node) (.expect false none)
    | [.effect b, .value d] =>
        .ask (.runBlocking datumTy datumTy b.fx.node) (.expect false (some d))
    | _ => .bad)]

/-- A layout on one line and over several. -/
def bothForms (layout : Layout) : Datum := .ofList [.str layout.compact, .str layout.pretty]

def showing (layout : Layout) : Action := .value (bothForms layout)

def formatOperations : List (String × Operation) := [
  ("value", .onValues (inOrder [.value]) fun
    | [.value d] => showing d.layout
    | _ => .bad),
  ("effect", .onValues (inOrder [.effect]) fun
    | [.effect b] => showing (layoutKind b.shown)
    | _ => .bad),
  ("promise", onPromise fun heap id =>
    showing (layoutPromise ((heap.promised? id).map .ofValue))),
  ("fiber", onFiber fun heap id => showing (layoutFiber (heap.slot? id))),
  ("callback", .reading (inOrder [.name]) fun state items =>
    match items with
    | [.name n] => if state.callbacks[n]?.isSome then showing layoutCallback else .bad
    | _ => .bad),
  ("immediate", .onValues [] fun _ => showing (.atom "Immediate")),
  ("sched", .looking (inOrder [.scheduler]) fun heap _ items =>
    match items with
    | [.scheduler _ desk] =>
        match heap.schedulers[desk.id]?.bind layoutScheduler? with
        | some layout => showing layout
        | none => .bad
    | _ => .bad),
  ("builder", .onValues (inOrder [.setting, .setting]) fun
    | [name, size] =>
        let name :=
          match name with
          | .text s => s
          | _ => Scheduler.defaultName
        let stackSize :=
          match size with
          | .int n => some (sizeOf n)
          | _ => none
        showing (layoutBuilder name stackSize)
    | _ => .bad),
  ("failure", .onValues (inOrder [.text, .text]) fun
    | [.text name, .text message] =>
        let failure : WorkFailure := ⟨name, message⟩
        .value (.ofList [bothForms (layoutFailure failure), .ofFailure failure, .bool true])
    | _ => .bad),
  ("already", .onValues (inOrder [.value]) fun
    | [.value d] =>
        .value (.ofList [bothForms (layoutAlreadyCompleted d), .str alreadyCompleted, d])
    | _ => .bad)]

end Trampoline.Session
