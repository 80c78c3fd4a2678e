import Trampoline.Effect.Combinators

/-!
Retries and instrumentation. Both run the effect as it is and look at how it settles.
-/

namespace Trampoline.Effect

variable {D F : Type} {a e : Ty}

/-- Runs `x` once more if it fails. -/
def retryOnce (x : Effect D F a e) : Effect D F a e :=
  (x.reify : Effect D F (.result a e) e).bind (.recover a e (.once x.node))

/-- Runs `x` again after a delay as long as it fails. -/
def retryUntilSuccess (x : Effect D F a e) (nanoseconds : Nat) : Effect D F a e :=
  ⟨.retryAfter a e nanoseconds x.node⟩

/-- Announces in a span that `x` starts and how it settles. -/
def instrument (x : Effect D F a e) (span : String) : Effect D F a e :=
  ⟨.flatMap (.thunk (.opened span))
    (.timed a e span (x.reify : Effect D F (.result a e) e).node)⟩

end Trampoline.Effect
