import Trampoline.Plan

/-!
Effects: immutable descriptions of computations that succeed with a value or fail with an error.
Nothing runs while an effect is built, and an effect can be interpreted any number of times.
-/

namespace Trampoline

/-- A description of a computation whose successes have the tag `value` and whose failures have the
tag `error`. -/
structure Effect (D F : Type) (value error : Ty) where
  node : Node D F

namespace Effect

variable {D F : Type} {value error : Ty}

def succeed (v : Value D F) : Effect D F value error := ⟨.thunk (.succeed v)⟩

def fail (e : Value D F) : Effect D F value error := ⟨.thunk (.fail e)⟩

/-- Settles with a result. -/
def ofResult : Outcome D F → Effect D F value error
  | .ok v => succeed v
  | .error e => fail e

/-- Settles with the result that a function returns. -/
def ofFn (f : Owned F) : Effect D F value error := ⟨.thunk (.result f)⟩

/-- Succeeds with the value that a function returns. -/
def delay (f : Owned F) : Effect D F value error := ⟨.thunk (.delay f)⟩

def unit : Effect D F .unit error := ⟨.thunk (.succeed .unit)⟩

/-- Settles when the callback that `register` receives on the scheduler is completed. -/
def asyncOn (scheduler : SchedulerId) (register : Owned F) : Effect D F value error :=
  ⟨.async (.user value error register) scheduler⟩

def never : Effect D F value error := ⟨.async .never immediateId⟩

def sleep (nanoseconds : Nat) : Effect D F .unit error :=
  ⟨.async (.sleep nanoseconds) sleeperId⟩

/-- Settles as a fiber does. -/
def join (fiber : PromiseId) : Effect D F value error := ⟨.join value error fiber⟩

def printLine (line : String) : Effect D F .unit error := ⟨.thunk (.print line)⟩

/-- Succeeds with the name of the thread that runs it. -/
def threadName : Effect D F .text error := ⟨.thunk .threadName⟩

def kind (x : Effect D F value error) : String := x.node.kind

def toValue (x : Effect D F value error) : Value D F := .effect value error x.node

end Effect

end Trampoline
