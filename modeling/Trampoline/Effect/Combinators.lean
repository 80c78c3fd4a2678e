import Trampoline.Effect.Basic

/-!
Ways to make effects of effects: transformation of the value or the error, sequencing, recovery and
observation.
-/

namespace Trampoline.Effect

variable {D F : Type} {a b c e d : Ty}

/-- Runs `x`, then the continuation on its value. -/
def bind (x : Effect D F a e) (k : Bind D F) : Effect D F b e := ⟨.flatMap x.node k⟩

/-- Turns how `x` settles into a success, at any type of errors. -/
def reify (x : Effect D F a e) : Effect D F (.result a e) d := ⟨.attempt x.node ⟨a, e⟩⟩

def map (x : Effect D F a e) (f : Owned F) : Effect D F b e := x.bind (.map a f)

def flatMap (x : Effect D F a e) (f : Owned F) : Effect D F b e := x.bind (.flatMap a f)

/-- Succeeds with the result of `x`. -/
def attempt (x : Effect D F a e) : Effect D F (.result a e) e := x.reify

/-- Replaces a failure by the effect that a function makes of the error. -/
def handleErrorWith (x : Effect D F a e) (f : Owned F) : Effect D F a e :=
  (x.reify : Effect D F (.result a e) e).bind (.recover a e (.user f))

/-- Replaces a failure by the value that a function makes of the error. -/
def handleError (x : Effect D F a e) (f : Owned F) : Effect D F a e :=
  (x.reify : Effect D F (.result a e) e).bind (.handle a e f)

/-- Applies a function to the error. -/
def mapError (x : Effect D F a e) (f : Owned F) : Effect D F a d :=
  (x.reify : Effect D F (.result a e) d).bind (.mapError a e f)

/-- Runs `x`, then `y`, and combines their values. -/
def combine (x : Effect D F a e) (y : Effect D F b e) (how : Combine F) : Effect D F c e :=
  x.bind (.andThen a b y.node how)

/-- Runs `x`, then `y`, and applies a function to their values. -/
def map2 (x : Effect D F a e) (y : Effect D F b e) (f : Owned F) : Effect D F c e :=
  x.combine y (.user f)

/-- Runs `x`, then `y`, and succeeds with both values. -/
def tuple2 (x : Effect D F a e) (y : Effect D F b e) : Effect D F (.pair a b) e :=
  x.combine y .pair

/-- Runs `x`, then `y`, and keeps the first value. -/
def productL (x : Effect D F a e) (y : Effect D F b e) : Effect D F a e := x.combine y .first

/-- Runs `x`, then `y`, and keeps the second value. -/
def productR (x : Effect D F a e) (y : Effect D F b e) : Effect D F b e := x.bind (.next a y.node)

def asValue (x : Effect D F a e) (v : Value D F) : Effect D F b e := x.bind (.replace a v)

def void (x : Effect D F a e) : Effect D F .unit e := x.bind (.replace a .unit)

def tap (x : Effect D F a e) (f : Owned F) : Effect D F a e := x.bind (.tap a f)

/-- Runs the effect that the value is. -/
def flatten (x : Effect D F (.effect a e) e) : Effect D F a e := x.bind (.flatten a e)

end Trampoline.Effect
