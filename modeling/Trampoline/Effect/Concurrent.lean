import Trampoline.Effect.Combinators

/-!
Effects in sequence and side by side. The concurrent forms fork every effect on a scheduler before
they join any of them.
-/

namespace Trampoline.Effect

variable {D F : Type} {a b c e : Ty} {α : Type}

/-- Runs effects in order and succeeds with the list of their values. -/
def sequence (xs : List (Effect D F a e)) : Effect D F (.list a) e :=
  ⟨.sequence a (xs.map Effect.node)⟩

/-- Runs the effects of items in order and succeeds with the list of their values. -/
def traverse (items : List α) (f : α → Effect D F a e) : Effect D F (.list a) e :=
  sequence (items.map f)

/-- Forks `x` on a scheduler and succeeds with the effect that joins the fork. -/
def start (x : Effect D F a e) (scheduler : SchedulerId) : Effect D F (.effect a e) e :=
  ⟨.thunk (.fork a e x.node scheduler)⟩

/-- Runs `x` on a scheduler. -/
def evalOn (x : Effect D F a e) (scheduler : SchedulerId) : Effect D F a e :=
  (x.start scheduler).flatten

/-- Forks two effects, then joins both and combines their values. -/
def concurrentCombine (x : Effect D F a e) (y : Effect D F b e) (scheduler : SchedulerId)
    (how : Combine F) : Effect D F c e :=
  ((x.start scheduler).combine (y.start scheduler) (.joins a b c e how) :
    Effect D F (.effect c e) e).flatten

/-- Forks two effects, then joins both and applies a function to their values. -/
def concurrentMap2 (x : Effect D F a e) (y : Effect D F b e) (scheduler : SchedulerId)
    (f : Owned F) : Effect D F c e :=
  x.concurrentCombine y scheduler (.user f)

/-- Forks two effects, then joins both and succeeds with the two values. -/
def concurrentTuple (x : Effect D F a e) (y : Effect D F b e) (scheduler : SchedulerId) :
    Effect D F (.pair a b) e :=
  x.concurrentCombine y scheduler .pair

/-- Forks the effects of all items, then joins them in order and succeeds with the list of their
values. -/
def concurrentTraverse (items : List α) (scheduler : SchedulerId) (f : α → Effect D F a e) :
    Effect D F (.list a) e :=
  (sequence (items.map fun item => (f item).start scheduler)).bind (.sequence a e)

/-- Forks all effects, then joins them in order and succeeds with the list of their values. -/
def concurrentSequence (xs : List (Effect D F a e)) (scheduler : SchedulerId) :
    Effect D F (.list a) e :=
  concurrentTraverse xs scheduler id

end Trampoline.Effect
