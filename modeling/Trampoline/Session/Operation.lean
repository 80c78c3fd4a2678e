import Trampoline.Session.Code

/-!
Operations of the session language. An operation names the pieces it wants, in the order in which
they are evaluated, and says what it does once it has them.
-/

namespace Trampoline.Session

/-- One or more arguments of an operation. -/
inductive Part where
  /-- The argument at a position. -/
  | arg (position : Nat) (piece : Piece)
  /-- The argument at a position, if there is one. -/
  | optional (position : Nat) (piece : Piece)
  /-- All arguments from a position on. -/
  | rest (position : Nat) (piece : Piece)

/-- The arguments of a part. -/
def Part.select (args : List Form) : Part → List (Piece × Option Form)
  | .arg position piece => [(piece, args[position]?)]
  | .optional position piece =>
      match args[position]? with
      | some f => [(piece, some f)]
      | none => []
  | .rest position piece => (args.drop position).map fun f => (piece, some f)

/-- Arguments of the given kinds from the first position on. -/
def inOrder (pieces : List Piece) : List Part :=
  pieces.mapIdx fun position piece => .arg position piece

/-- Where an operation runs. -/
structure Scene where
  here : Here
  heap : Heap Datum Closure

/-- What an operation comes to: what is evaluated next, and what goes on after that. -/
structure Action where
  focus : Focus
  pushed : List Pending

structure Operation where
  parts : List Part
  run : Scene → Env → State → List Item → State × Action

namespace Action

def value (d : Datum) : Action := ⟨.give (.value d), []⟩

def built (b : Built) : Action := ⟨.give (.effect b), []⟩

def raise (payload : Payload) : Action := ⟨.raise payload, []⟩

/-- Panics because the program makes no sense. -/
def bad : Action := raise badProgram

def eval (form : Form) (env : Env) : Action := ⟨.eval form env, []⟩

def build (form : Form) (env : Env) : Action := ⟨.build form env, []⟩

/-- Evaluates an expression with variables of its own. -/
def evalWithin (form : Form) (env : Env) : Action := ⟨.eval form env, [.within env]⟩

/-- Builds an effect form with variables of its own. -/
def buildWithin (form : Form) (env : Env) : Action := ⟨.build form env, [.within env]⟩

def ask (request : Request Datum Closure) (after : After) : Action := ⟨.ask request after, []⟩

def wait (condition : Condition) (deadline : Option Nat) (after : After) : Action :=
  ⟨.wait condition deadline after, []⟩

end Action

namespace Operation

/-- An operation that neither looks at the state nor changes it. -/
def pure (parts : List Part) (run : Env → List Item → Action) : Operation :=
  ⟨parts, fun _ env state items => (state, run env items)⟩

/-- An operation on data alone. -/
def onValues (parts : List Part) (run : List Item → Action) : Operation :=
  .pure parts fun _ items => run items

/-- An operation that looks at the state. -/
def reading (parts : List Part) (run : State → List Item → Action) : Operation :=
  ⟨parts, fun _ _ state items => (state, run state items)⟩

/-- An operation that looks at the state and at the objects of the library. -/
def looking (parts : List Part) (run : Heap Datum Closure → State → List Item → Action) :
    Operation :=
  ⟨parts, fun scene _ state items => (state, run scene.heap state items)⟩

end Operation

def values : List Item → List Datum
  | [] => []
  | .value d :: rest => d :: values rest
  | _ :: rest => values rest

def forms : List Item → List Form
  | [] => []
  | .form f :: rest => f :: forms rest
  | _ :: rest => forms rest

def texts : List Item → List String
  | [] => []
  | .text s :: rest => s :: texts rest
  | _ :: rest => texts rest

/-- The size that an integer stands for: its bits, read without a sign. -/
def sizeOf (n : Int64) : Nat := n.toUInt64.toNat

/-- The number of nanoseconds in so many milliseconds. -/
def milliseconds (n : Int64) : Nat := sizeOf n * Duration.millisecond

/-- The position that an index means among so many; a negative index counts from the end. -/
def position? (size : Nat) (i : Int) : Option Nat :=
  let j := if 0 ≤ i then i else i + size
  if 0 ≤ j ∧ j < size then some j.toNat else none

end Trampoline.Session
