import Trampoline.Session.Operation

/-!
Operations on promises, fibers and callbacks.
-/

namespace Trampoline.Session

def onPromise (f : Heap Datum Closure → PromiseId → Action) : Operation :=
  .looking (inOrder [.promise]) fun heap _ items =>
    match items with
    | [.promise id] => f heap id
    | _ => .bad

def onFiber (f : Heap Datum Closure → PromiseId → Action) : Operation :=
  .looking (inOrder [.fiber]) fun heap _ items =>
    match items with
    | [.fiber id] => f heap id
    | _ => .bad

/-- The outcome of a fiber, if it has one; the panic of its effect otherwise. -/
def readFiber (heap : Heap Datum Closure) (id : PromiseId) : Action :=
  match heap.slot? id with
  | none => .value .none
  | some slot =>
      match slot.read with
      | .ok outcome => .value (.some (.ofOutcome outcome))
      | .error payload => .raise payload

/-- The callback of the session that evaluates a body with the result bound. -/
def callbackOf (x : String) (body : Form) (env : Env) : Callback Closure :=
  .user datumTy datumTy (Closure.code [x] body env.scope .nothing).owned

/-- Completes a callback that is kept under a name, which it loses. -/
def completeNamed (state : State) (name : String) (outcome : Outcome Datum Closure) :
    State × Action :=
  match state.callbacks[name]? with
  | some target =>
      ({ state with callbacks := state.callbacks.erase name },
        .ask (.complete target outcome) .nothing)
  | none => (state, .bad)

/-- An operation that completes a named callback. What it is completed with is evaluated first. -/
def completing (piece : Piece) (outcome? : Item → Option (Outcome Datum Closure)) : Operation :=
  ⟨[.arg 1 piece, .arg 0 .text], fun _ _ state items =>
    match items with
    | [item, .text name] =>
        match outcome? item with
        | some outcome => completeNamed state name outcome
        | none => (state, .bad)
    | _ => (state, .bad)⟩

def promiseOperations : List (String × Operation) := [
  ("p_new", .onValues (inOrder [.name]) fun
    | [.name n] => .ask (.newPromise datumTy) (.promise n)
    | _ => .bad),
  ("p_complete", .onValues (inOrder [.promise, .value]) fun
    | [.promise id, .value d] => .ask (.fill id d.toValue) .convert
    | _ => .bad),
  ("p_get", onPromise fun heap id =>
    match heap.promised? id with
    | some v => .value (.some (.ofValue v))
    | none => .value .none),
  ("p_done", onPromise fun heap id => .value (.bool (heap.promised? id).isSome)),
  ("p_wait", onPromise fun _ id => .ask (.await id) .convert),
  ("p_wait_timeout", .onValues (inOrder [.promise, .int]) fun
    | [.promise id, .int ms] => .ask (.awaitFor id (milliseconds ms)) .convert
    | _ => .bad),
  ("p_sub", .pure (inOrder [.promise, .name, .form]) fun
    | env, [.promise id, .name x, .form body] =>
        .ask (.subscribe id (Closure.code [x] body env.scope .nothing).owned) .nothing
    | _, _ => .bad)]

def fiberOperations : List (String × Operation) := [
  ("f_new", .onValues (inOrder [.name]) fun
    | [.name n] => .ask (.newFiber datumTy datumTy) (.fiber n)
    | _ => .bad),
  ("f_completed", .onValues (inOrder [.name, .result]) fun
    | [.name n, .result outcome] => .ask (.completedFiber datumTy datumTy outcome) (.fiber n)
    | _ => .bad),
  ("f_alias", ⟨inOrder [.name, .fiber], fun _ _ state items =>
    match items with
    | [.name n, .fiber id] => ({ state with fibers := state.fibers.insert n id }, .value .unit)
    | _ => (state, .bad)⟩),
  ("f_complete", .onValues (inOrder [.fiber, .result]) fun
    | [.fiber id, .result outcome] => .ask (.fillFiber datumTy datumTy id outcome) .convert
    | _ => .bad),
  ("f_done", onFiber fun heap id => .value (.bool (heap.slot? id).isSome)),
  ("f_panicked", onFiber fun heap id =>
    match (heap.slot? id).bind Slot.panicked? with
    | some failure => .value (.some (.ofFailure failure))
    | none => .value .none),
  ("f_outcome", onFiber readFiber),
  ("f_try", onFiber readFiber),
  ("f_wait", onFiber fun _ id => .ask (.awaitFiber id) .convert),
  ("f_wait_timeout", .onValues (inOrder [.fiber, .int]) fun
    | [.fiber id, .int ms] => .ask (.awaitFiberFor id (milliseconds ms)) .convert
    | _ => .bad),
  ("f_sub", .pure (inOrder [.fiber, .name, .form]) fun
    | env, [.fiber id, .name x, .form body] =>
        .ask (.observe datumTy datumTy id (callbackOf x body env)) .nothing
    | _, _ => .bad)]

def callbackOperations : List (String × Operation) := [
  ("cb_new", ⟨inOrder [.name, .name, .form], fun _ env state items =>
    match items with
    | [.name n, .name x, .form body] =>
        ({ state with callbacks := state.callbacks.insert n (callbackOf x body env) }, .value .unit)
    | _ => (state, .bad)⟩),
  ("cb_complete", completing .result fun
    | .result outcome => some outcome
    | _ => none),
  ("cb_succeed", completing .value fun
    | .value d => some (.ok d.toValue)
    | _ => none),
  ("cb_fail", completing .value fun
    | .value d => some (.error d.toValue)
    | _ => none),
  ("cb_drop", ⟨inOrder [.text], fun _ _ state items =>
    match items with
    | [.text n] =>
        match state.callbacks[n]? with
        | some _ => ({ state with callbacks := state.callbacks.erase n }, .value .unit)
        | none => (state, .bad)
    | _ => (state, .bad)⟩),
  ("cb_has", .reading (inOrder [.text]) fun state items =>
    match items with
    | [.text n] => .value (.bool state.callbacks[n]?.isSome)
    | _ => .bad)]

end Trampoline.Session
