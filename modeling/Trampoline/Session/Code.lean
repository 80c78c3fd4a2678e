import Trampoline.Machine.Host
import Trampoline.Session.Debug
import Trampoline.Session.State

/-!
Running code of a session: what is evaluated next above a stack of what goes on afterwards. The
stack is explicit, so programs can nest as deeply as they like.
-/

namespace Trampoline.Session

/-- The panic of a program that makes no sense. -/
def badProgram : Payload := .text "bad program"

/-- A built effect, with the kind of node that it is shown as. -/
structure Built where
  fx : Fx
  shown : String

namespace Built

def plain (x : Fx) : Built := ⟨x, x.kind⟩

/-- An effect whose values are turned into data; it is shown without that. -/
def converted {a : Ty} (x : Effect Datum Closure a datumTy) : Built :=
  ⟨x.map Closure.convert.owned, x.kind⟩

end Built

/-- The variables in scope, and the effect that an iteration has come to. -/
structure Env where
  scope : Scope
  sofar : Option Built

def Env.ofScope (scope : Scope) : Env := ⟨scope, none⟩

def Env.bind (env : Env) (x : String) (d : Datum) : Env :=
  { env with scope := .bind x d env.scope }

/-- Binds parameters to arguments, as far as there are both. -/
def bindAll (scope : Scope) : List String → List Datum → Scope
  | x :: params, d :: args => bindAll (.bind x d scope) params args
  | _, _ => scope

/-- What an argument of an operation is. -/
inductive Piece where
  | value
  | int
  | text
  /-- An expression whose text is all that counts. -/
  | shown
  /-- An expression that counts only if it yields a string or an integer. -/
  | setting
  | list
  | result
  | name
  | promise
  | fiber
  | scheduler
  | effect
  | effects
  /-- A form for later. -/
  | form
  /-- A form for later that is looked for only if it is needed. -/
  | branch
  deriving DecidableEq, Repr

/-- An argument that is ready. -/
inductive Item where
  | value (d : Datum)
  | int (n : Int64)
  | text (s : String)
  | list (items : Data)
  | result (outcome : Outcome Datum Closure)
  | name (s : String)
  | promise (id : PromiseId)
  | fiber (id : PromiseId)
  | scheduler (name : String) (desk : Desk)
  | effect (b : Built)
  | effects (bs : List Built)
  | form (f : Form)

namespace Piece

/-- Whether the argument is written as a literal name. -/
def isLiteral : Piece → Bool
  | .name => true
  | .promise => true
  | .fiber => true
  | .scheduler => true
  | _ => false

/-- What has been evaluated or built, as the argument that it was meant to be. -/
def accept? : Piece → Item → Option Item
  | .value, .value d => some (.value d)
  | .int, .value (.int n) => some (.int n)
  | .text, .value (.str s) => some (.text s)
  | .shown, .value d => some (.text d.text)
  | .setting, .value (.str s) => some (.text s)
  | .setting, .value (.int n) => some (.int n)
  | .setting, .value _ => some (.value .unit)
  | .list, .value (.list items) => some (.list items)
  | .result, .value d => d.outcome?.map .result
  | .effect, .effect b => some (.effect b)
  | .effects, .effects bs => some (.effects bs)
  | _, _ => none

/-- The thing that a literal name stands for. -/
def resolve? (state : State) (s : String) : Piece → Option Item
  | .name => some (.name s)
  | .promise => state.promises[s]?.map .promise
  | .fiber => state.fibers[s]?.map .fiber
  | .scheduler => state.desks[s]?.map (.scheduler s)
  | _ => none

end Piece

/-- What is done with the library's reply to a request, or after a wait. -/
inductive After where
  | convert
  | nothing
  | promise (name : String)
  | fiber (name : String)
  | future (name : String)
  /-- It is what polling a future came to, which gets its name back unless it has ended. -/
  | polled (name : String) (future : FutureId)
  /-- It is the result of an effect that has to succeed, or to fail, perhaps in one way only. -/
  | expect (success : Bool) (expected : Option Datum)
  /-- Work from the queue of a scheduler has run; `again` tells which one is run next and how many
  have been run before. -/
  | ran (scheduler : String) (again : Option (Int × Nat))
  /-- A thread has started, which will have to be joined. -/
  | spawned (number : Nat)
  /-- The wait for a cell is over. -/
  | cell (name : String)
  /-- The wait for a thread is over, whether it has ended or not. -/
  | bounded (number : Nat)
  /-- A thread has ended; others are still to be joined. -/
  | joined (number : Nat) (rest : List Nat) (done : List Datum)
  /-- The wait for the failures of a scheduler is over. -/
  | failures (scheduler : String)

/-- What an operation is for. -/
inductive Family where
  | expression
  /-- It shows how something looks; its name is the kind of thing. -/
  | format
  | effect
  deriving DecidableEq, Repr

/-- What goes on afterwards. -/
inductive Pending where
  /-- An operation gets an argument, and then more; those it has got are given last first. -/
  | operation (family : Family) (name : String) (env : Env) (done : List Item) (piece : Piece)
      (todo : List (Piece × Option Form))
  /-- A list of effects goes on; those that are built are given last first. -/
  | effects (env : Env) (done : List Built) (todo : List Form)
  /-- A sequence of expressions goes on. The data that the one before has yielded are kept until the
  next one has been evaluated. -/
  | sequence (env : Env) (before : Datum) (rest : List Form)
  | caught
  | iterate (env : Env) (x : String) (body : Form) (round : Nat) (left : Nat)
  | items (env : Env) (x : String) (body : Form) (todo : Data) (done : List Built)
  | traversed (scheduler : Option SchedulerId)
  /-- A thread has been started, which is waited for until a time. -/
  | bounding (number : Nat) (deadline : Nat)
  /-- The name of a callback is ready. -/
  | registering (target : Callback Closure) (body : Form) (env : Env)
  /-- Something is evaluated or built with variables of its own, which are kept until then. -/
  | within (env : Env)
  /-- The body of a function ends, and with it its variables. -/
  | leaving (shape : Shape) (env : Env)
  /-- The body of a thread ends, and with it its variables. -/
  | ending (number : Nat) (env : Env)

/-- What is evaluated next. -/
inductive Focus where
  | eval (form : Form) (env : Env)
  | build (form : Form) (env : Env)
  | give (item : Item)
  | raise (payload : Payload)
  | ask (request : Request Datum Closure) (after : After)
  | wait (condition : Condition) (deadline : Option Nat) (after : After)

/-- A running or suspended piece of a session. -/
inductive Code where
  | run (focus : Focus) (stack : List Pending)
  | suspended (after : After) (stack : List Pending)
  | enqueue (scheduler : String) (work : Work Datum Closure)
  | keepReport (scheduler : String) (failure : WorkFailure)

/-- Evaluates a body, or builds it where an effect is wanted. -/
def Shape.focus (body : Form) (env : Env) : Shape → Focus
  | .effect => .build body env
  | _ => .eval body env

/-- The call of a function. -/
def Closure.enter : Closure → List Val → Code
  | .code params body scope shape, args =>
      let env := Env.ofScope (bindAll scope params (args.map Datum.ofValue))
      .run (shape.focus body env) [.leaving shape env]
  | .register key body scope, [.callback _ _ target] =>
      let env := Env.ofScope scope
      .run (.eval key env) [.registering target body env, .leaving .nothing env]
  | .convert, [v] => .run (.give (.value (.ofValue v))) []
  | .enqueue scheduler, [.work work] => .enqueue scheduler work
  | .keepReport scheduler, [.failure failure] => .keepReport scheduler failure
  | .discard, _ => .run (.give (.value .unit)) []
  | .thread number body scope, _ =>
      let env := Env.ofScope scope
      .run (.eval body env) [.ending number env]
  | _, _ => .run (.raise badProgram) []

end Trampoline.Session
