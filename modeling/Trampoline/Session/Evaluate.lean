import Std.Data.HashMap
import Trampoline.Session.Operations.Building
import Trampoline.Session.Operations.Cells
import Trampoline.Session.Operations.Pure
import Trampoline.Session.Operations.Running
import Trampoline.Session.Operations.Shared

/-!
The evaluator of the session language. Each step looks at what is evaluated next and at the top of
the stack; a step that needs the library ends the run until the library replies.
-/

namespace Trampoline.Session

/-- The operations that yield data, by name. -/
def expressions : Std.HashMap String Operation :=
  .ofList (pureOperations ++ sharedOperations ++ promiseOperations ++ fiberOperations ++
    callbackOperations ++ schedulerOperations ++ effectOperations)

/-- The operations that show how something looks, by kind. -/
def formats : Std.HashMap String Operation := .ofList formatOperations

/-- The operations that build effects, by name. A constructor can also be written with a dot. -/
def builders : Std.HashMap String Operation :=
  .ofList (combinatorOperations ++ constructorOperations ++
    constructorOperations.map fun (name, operation) => ("." ++ name, operation))

/-- The operation of a name. -/
def Family.find? (family : Family) (name : String) : Option Operation :=
  match family with
  | .expression => expressions[name]?
  | .format => formats[name]?
  | .effect => builders[name]?

abbrev SessionMove := Move Datum Closure Code Condition

inductive Step where
  /-- Something else is evaluated. -/
  | go (focus : Focus) (stack : List Pending)
  | stop (move : SessionMove)

namespace Step

/-- Gives an item to the stack. -/
def give (item : Item) (stack : List Pending) : Step := .go (.give item) stack

def bad (stack : List Pending) : Step := .go (.raise badProgram) stack

def act (action : Action) (stack : List Pending) : Step :=
  .go action.focus (action.pushed ++ stack)

end Step

/-- Gets the arguments of an operation until one has to be evaluated, or there are no more. A branch
that is not there makes no sense only once it is taken. -/
def gather (scene : Scene) (state : State) (family : Family) (name : String)
    (operation : Operation) (env : Env) (stack : List Pending) :
    List Item → List (Piece × Option Form) → State × Step
  | done, [] =>
      let (state, action) := operation.run scene env state done.reverse
      (state, .act action stack)
  | done, (.branch, f) :: todo =>
      gather scene state family name operation env stack (.form (f.getD .number) :: done) todo
  | _, (_, none) :: _ => (state, .bad stack)
  | done, (.form, some f) :: todo =>
      gather scene state family name operation env stack (.form f :: done) todo
  | done, (.effect, some f) :: todo =>
      (state, .go (.build f env) (.operation family name env done .effect todo :: stack))
  | done, (.effects, some f) :: todo =>
      match f with
      | .arr fs =>
          (state, .give (.effects [])
            (.effects env [] fs :: .operation family name env done .effects todo :: stack))
      | _ => (state, .bad stack)
  | done, (piece, some f) :: todo =>
      if piece.isLiteral then
        match f.text?.bind fun s => piece.resolve? state s with
        | some item => gather scene state family name operation env stack (item :: done) todo
        | none => (state, .bad stack)
      else (state, .go (.eval f env) (.operation family name env done piece todo :: stack))

def begin (scene : Scene) (state : State) (family : Family) (name : String) (args : List Form)
    (env : Env) (stack : List Pending) : State × Step :=
  match family.find? name with
  | some operation =>
      gather scene state family name operation env stack []
        (operation.parts.flatMap (Part.select args))
  | none => (state, .bad stack)

def evaluate (scene : Scene) (state : State) (env : Env) (stack : List Pending) :
    Form → State × Step
  | .null => (state, .give (.value .unit) stack)
  | .bool b => (state, .give (.value (.bool b)) stack)
  | .int n => (state, .give (.value (.int n)) stack)
  | .str s => (state, .give (.value (.str s)) stack)
  | .arr (.str "fmt" :: .str kind :: args) => begin scene state .format kind args env stack
  | .arr (.str name :: args) => begin scene state .expression name args env stack
  | _ => (state, .bad stack)

def build (scene : Scene) (state : State) (env : Env) (stack : List Pending) :
    Form → State × Step
  | .arr (.str name :: args) => begin scene state .effect name args env stack
  | _ => (state, .bad stack)

/-- What the body of a function yields, as a value of the library. -/
def Shape.reply? : Shape → Item → Option Val
  | .value, .value d => some d.toValue
  | .result, .value d => d.outcome?.map (.ofOutcome datumTy datumTy)
  | .effect, .effect b => some b.fx.toValue
  | .nothing, _ => some .unit
  | _, _ => none

/-- Gives an item to what goes on with it. -/
def resume (scene : Scene) (state : State) (item : Item) (stack : List Pending) :
    Pending → State × Step
  | .operation family name env done piece todo =>
      match family.find? name, piece.accept? item with
      | some operation, some item =>
          gather scene state family name operation env stack (item :: done) todo
      | _, _ => (state, .bad stack)
  | .effects env done todo =>
      let done :=
        match item with
        | .effect b => b :: done
        | _ => done
      match todo with
      | [] => (state, .give (.effects done.reverse) stack)
      | f :: todo => (state, .go (.build f env) (.effects env done todo :: stack))
  | .sequence env _ todo =>
      match item, todo with
      | .value d, f :: rest => (state, .go (.eval f env) (.sequence env d rest :: stack))
      | _, _ => (state, .give item stack)
  | .caught =>
      match item with
      | .value d => (state, .give (.value (.ok d)) stack)
      | _ => (state, .bad stack)
  | .iterate env x body round left =>
      match item, left with
      | .effect b, 0 => (state, .give (.effect (.plain b.fx)) stack)
      | .effect b, left + 1 =>
          let inner := { env.bind x (.int (.ofNat round)) with sofar := some (.plain b.fx) }
          (state, .go (.build body inner)
            (.within inner :: .iterate env x body (round + 1) left :: stack))
      | _, _ => (state, .bad stack)
  | .items env x body todo done =>
      let done :=
        match item with
        | .effect b => b :: done
        | _ => done
      match todo with
      | .nil => (state, .give (.effects done.reverse) stack)
      | .cons d todo =>
          let inner := { env.bind x d with sofar := none }
          (state, .go (.build body inner) (.within inner :: .items env x body todo done :: stack))
  | .traversed scheduler =>
      match item, scheduler with
      | .effects bs, none =>
          (state, .give (.effect (.converted (Effect.traverse bs Built.fx))) stack)
      | .effects bs, some id =>
          (state, .give (.effect (.converted (Effect.concurrentTraverse bs id Built.fx))) stack)
      | _, _ => (state, .bad stack)
  | .bounding number deadline =>
      (state, .go (.wait (.ended number) (some deadline) (.bounded number)) stack)
  | .registering target body env =>
      match item with
      | .value (.str name) =>
          ({ state with callbacks := state.callbacks.insert name target },
            .go (.eval body env) stack)
      | _ => (state, .bad stack)
  | .within _ => (state, .give item stack)
  | .leaving shape _ =>
      match shape.reply? item with
      | some v => (state, .stop (.ret v))
      | none => (state, .stop (.raise badProgram))
  | .ending number _ =>
      match item with
      | .value d => (state.finishThread number (.ok d), .stop (.ret .unit))
      | _ => (state, .stop (.ret .unit))

/-- Hands a panic to what goes on: a `catch` makes it data, a thread keeps it. -/
def unwind (state : State) (payload : Payload) (stack : List Pending) : Pending → State × Step
  | .caught => (state, .give (.value (.panic (.ofPayload payload))) stack)
  | .leaving _ _ => (state, .stop (.raise payload))
  | .ending number _ =>
      (state.finishThread number (.panic (.ofPayload payload)), .stop (.ret .unit))
  | _ => (state, .go (.raise payload) stack)

def step (scene : Scene) (state : State) (stack : List Pending) : Focus → State × Step
  | .eval form env => evaluate scene state env stack form
  | .build form env => build scene state env stack form
  | .give item =>
      match stack with
      | [] => (state, .stop (.ret ((Shape.reply? .value item).getD .unit)))
      | pending :: stack => resume scene state item stack pending
  | .raise payload =>
      match stack with
      | [] => (state, .stop (.raise payload))
      | pending :: stack => unwind state payload stack pending
  | .ask request after => (state, .stop (.ask request (.suspended after stack)))
  | .wait condition deadline after =>
      (state, .stop (.wait condition deadline (.suspended after stack)))

/-- At most so many steps in one turn of the thread. -/
def steps (scene : Scene) : Nat → State → Focus → List Pending → State × SessionMove
  | 0, state, focus, stack => (state, .run (.run focus stack))
  | n + 1, state, focus, stack =>
      match step scene state stack focus with
      | (state, .go focus stack) => steps scene n state focus stack
      | (state, .stop move) => (state, move)

/-- The text of the failure of work that was run by hand. -/
def payloadText : Payload → String
  | .text s => s
  | .number n => toString n

/-- What an effect that had to settle in a certain way comes to. -/
def checkExpected (success : Bool) (expected : Option Datum) (d : Datum) : Action :=
  let wanted := if success then "success" else "failure"
  let got := if success then "failure" else "success"
  let settled :=
    match success, d with
    | true, .ok a => Except.ok a
    | false, .err a => .ok a
    | _, .ok a => .error a
    | _, .err a => .error a
    | _, a => .error a
  match settled, expected with
  | .ok a, none => .value a
  | .ok a, some b =>
      if a.same b then .value .unit
      else
        .raise (.text ("assertion `left == right` failed\n  left: " ++ a.debug ++ "\n right: " ++
          b.debug))
  | .error a, none =>
      .raise (.text ("Expected " ++ wanted ++ ", got " ++ got ++ ": " ++ a.debug))
  | .error a, some b =>
      .raise (.text ("Expected " ++ wanted ++ " " ++ b.debug ++ ", got " ++ got ++ ": " ++ a.debug))

/-- What is done with the library's reply. -/
def After.reply (state : State) (v : Val) : After → State × Action
  | .convert => (state, .value (.ofValue v))
  | .promise name =>
      match v with
      | .promise _ id => ({ state with promises := state.promises.insert name id }, .value .unit)
      | _ => (state, .bad)
  | .fiber name =>
      match v with
      | .fiber _ _ id => ({ state with fibers := state.fibers.insert name id }, .value .unit)
      | _ => (state, .bad)
  | .future name =>
      match v with
      | .future _ _ id => ({ state with futures := state.futures.insert name id }, .value .unit)
      | _ => (state, .bad)
  | .polled name id =>
      match v with
      | .absent _ =>
          ({ state with futures := state.futures.insert name id }, .value (.ofValue v))
      | _ => (state, .value (.ofValue v))
  | .expect success expected => (state, checkExpected success expected (.ofValue v))
  | .spawned number =>
      ({ state with unjoined := number :: state.unjoined }, .value .unit)
  | .ran _ none => (state, .value (.bool true))
  | .ran scheduler (some (i, count)) => runQueued state scheduler i (some (count + 1))
  | _ => (state, .value .unit)

/-- What is done with a panic that comes instead of a reply. -/
def After.raised (state : State) (payload : Payload) : After → State × Action
  | .ran scheduler again =>
      match state.desks[scheduler]? with
      | some desk =>
          (state, .ask (.report desk.id ⟨"manual", payloadText payload⟩) (.ran scheduler again))
      | none => (state, .raise payload)
  | _ => (state, .raise payload)

/-- What is done after a wait. -/
def After.woken (heap : Heap Datum Closure) (state : State) : After → State × Action
  | .cell name => (state, .value (state.cell name))
  | .bounded number =>
      match state.takeResult number with
      | (state, some d) => (state, .value (.some d))
      | (state, none) => (state, .value .none)
  | .joined number rest done =>
      let (state, d) := state.joined number
      (state, joinAll (done ++ [d]) rest)
  | .failures scheduler =>
      match state.desks[scheduler]? with
      | some desk => (state, givingFailures heap desk)
      | none => (state, .bad)
  | _ => (state, .value .unit)

/-- How many steps code makes in one turn. -/
def stepsPerTurn : Nat := 4

/-- One turn of session code. -/
def advance (here : Here) (heap : Heap Datum Closure) (state : State) (code : Code)
    (reply : Reply Datum Closure) : State × SessionMove :=
  let scene : Scene := ⟨here, heap⟩
  match code, reply with
  | .run focus stack, _ => steps scene stepsPerTurn state focus stack
  | .suspended after stack, .value v =>
      let (state, action) := after.reply state v
      steps scene stepsPerTurn state action.focus (action.pushed ++ stack)
  | .suspended after stack, .raised payload =>
      let (state, action) := after.raised state payload
      steps scene stepsPerTurn state action.focus (action.pushed ++ stack)
  | .suspended after stack, _ =>
      let (state, action) := after.woken heap state
      steps scene stepsPerTurn state action.focus (action.pushed ++ stack)
  | .enqueue scheduler work, _ =>
      (state.modifyDesk scheduler fun desk => { desk with queue := desk.queue.push work },
        .ret .unit)
  | .keepReport scheduler failure, _ =>
      (state.modifyDesk scheduler fun desk =>
        { desk with failures := desk.failures.push failure }, .ret .unit)

end Trampoline.Session
