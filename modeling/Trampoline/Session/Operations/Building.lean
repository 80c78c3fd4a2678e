import Trampoline.Effect.Concurrent
import Trampoline.Effect.Retry
import Trampoline.Session.Operation

/-!
Operations that build effects. Arguments are evaluated when the effect is built; bodies and
continuations are kept with the variables in scope and evaluated each time the library calls them.
-/

namespace Trampoline.Session

/-- An effect with an argument that is evaluated at once. -/
def effectOfValue (f : Datum → Action) : Operation :=
  .onValues (inOrder [.value]) fun
    | [.value d] => f d
    | _ => .bad

/-- An effect with a body that is evaluated later. -/
def effectOfBody (shape : Shape) (f : Fn → Built) : Operation :=
  .pure (inOrder [.form]) fun
    | env, [.form body] => .built (f (Closure.code [] body env.scope shape).owned)
    | _, _ => .bad

def effectOfEffect (f : Fx → Built) : Operation :=
  .onValues (inOrder [.effect]) fun
    | [.effect b] => .built (f b.fx)
    | _ => .bad

/-- An effect made of another one and a function. -/
def effectWithBody (shape : Shape) (f : Fx → Fn → Fx) : Operation :=
  .pure (inOrder [.effect, .name, .form]) fun
    | env, [.effect b, .name x, .form body] =>
        .built (.plain (f b.fx (Closure.code [x] body env.scope shape).owned))
    | _, _ => .bad

def effectOfTwo (f : Fx → Fx → Built) : Operation :=
  .onValues (inOrder [.effect, .effect]) fun
    | [.effect a, .effect b] => .built (f a.fx b.fx)
    | _ => .bad

/-- An effect made of another one on a scheduler. -/
def effectOnScheduler (f : Fx → SchedulerId → Built) : Operation :=
  .onValues (inOrder [.effect, .scheduler]) fun
    | [.effect b, .scheduler _ desk] => .built (f b.fx desk.id)
    | _ => .bad

/-- The effect that joins a named fiber. -/
def joining : Operation :=
  .onValues (inOrder [.fiber]) fun
    | [.fiber id] => .built (.plain (.join id))
    | _ => .bad

/-- The constructors that can be written in two ways. -/
def constructorOperations : List (String × Operation) := [
  ("succeed", effectOfValue fun d => .built (.plain (.succeed d.toValue))),
  ("fail", effectOfValue fun d => .built (.plain (.fail d.toValue))),
  ("result", .onValues (inOrder [.result]) fun
    | [.result outcome] => .built (.plain (.ofResult outcome))
    | _ => .bad),
  ("fn", effectOfBody .result fun f => .plain (.ofFn f)),
  ("delay", effectOfBody .value fun f => .plain (.delay f)),
  ("unit", .onValues [] fun _ => .built (.converted .unit)),
  ("never", .onValues [] fun _ => .built (.plain .never)),
  ("sleep", .onValues (inOrder [.int]) fun
    | [.int ns] => .built (.converted (.sleep (sizeOf ns)))
    | _ => .bad),
  ("fiber", joining)]

/-- The other operations that build effects. -/
def combinatorOperations : List (String × Operation) := [
  ("join", joining),
  ("print", .onValues (inOrder [.text]) fun
    | [.text s] => .built (.converted (.printLine s))
    | _ => .bad),
  ("thread_name", .onValues [] fun _ => .built (.converted .threadName)),
  ("async", .pure (inOrder [.scheduler, .form, .form]) fun
    | env, [.scheduler _ desk, .form key, .form body] =>
        .built (.plain (.asyncOn desk.id (Closure.register key body env.scope).owned))
    | _, _ => .bad),
  ("map", effectWithBody .value .map),
  ("flat_map", effectWithBody .effect .flatMap),
  ("attempt", effectOfEffect fun x => .converted x.attempt),
  ("handle_with", effectWithBody .effect .handleErrorWith),
  ("handle", effectWithBody .value .handleError),
  ("map_err", effectWithBody .value .mapError),
  ("map2", .pure (inOrder [.effect, .effect, .name, .name, .form]) fun
    | env, [.effect a, .effect b, .name x, .name y, .form body] =>
        .built (.plain (a.fx.map2 b.fx (Closure.code [x, y] body env.scope .value).owned))
    | _, _ => .bad),
  ("tuple2", effectOfTwo fun x y => .converted (x.tuple2 y)),
  ("product_l", effectOfTwo fun x y => .plain (x.productL y)),
  ("product_r", effectOfTwo fun x y => .plain (x.productR y)),
  ("as_value", .onValues (inOrder [.effect, .value]) fun
    | [.effect b, .value d] => .built (.plain (b.fx.asValue d.toValue))
    | _ => .bad),
  ("void", effectOfEffect fun x => .converted x.void),
  ("tap", effectWithBody .nothing .tap),
  ("retry_once", effectOfEffect fun x => .plain x.retryOnce),
  ("retry_until", .onValues (inOrder [.effect, .int]) fun
    | [.effect b, .int ns] => .built (.plain (b.fx.retryUntilSuccess (sizeOf ns)))
    | _ => .bad),
  ("instrument", .onValues (inOrder [.effect, .name]) fun
    | [.effect b, .name label] => .built (.plain (b.fx.instrument label))
    | _ => .bad),
  ("start", effectOnScheduler fun x id => .converted (x.start id)),
  ("eval_on", effectOnScheduler fun x id => .plain (x.evalOn id)),
  ("cmap2", .pure (inOrder [.effect, .effect, .scheduler, .name, .name, .form]) fun
    | env, [.effect a, .effect b, .scheduler _ desk, .name x, .name y, .form body] =>
        let f := (Closure.code [x, y] body env.scope .value).owned
        .built (.plain (a.fx.concurrentMap2 b.fx desk.id f))
    | _, _ => .bad),
  ("ctuple", .onValues (inOrder [.effect, .effect, .scheduler]) fun
    | [.effect a, .effect b, .scheduler _ desk] =>
        .built (.converted (a.fx.concurrentTuple b.fx desk.id))
    | _ => .bad),
  ("sequence", .onValues (inOrder [.effects]) fun
    | [.effects bs] => .built (.converted (.sequence (bs.map Built.fx)))
    | _ => .bad),
  ("csequence", .onValues (inOrder [.effects, .scheduler]) fun
    | [.effects bs, .scheduler _ desk] =>
        .built (.converted (.concurrentSequence (bs.map Built.fx) desk.id))
    | _ => .bad),
  ("traverse", .pure (inOrder [.list, .name, .form]) fun
    | env, [.list ds, .name x, .form body] =>
        ⟨.give (.effects []), [.items env x body ds [], .traversed none]⟩
    | _, _ => .bad),
  ("ctraverse", .pure (inOrder [.list, .name, .form, .scheduler]) fun
    | env, [.list ds, .name x, .form body, .scheduler _ desk] =>
        ⟨.give (.effects []), [.items env x body ds [], .traversed (some desk.id)]⟩
    | _, _ => .bad),
  ("if", .pure (inOrder [.value, .branch, .branch]) fun
    | env, [.value (.bool b), .form yes, .form no] => .build (if b then yes else no) env
    | _, _ => .bad),
  ("let", .pure (inOrder [.name, .value, .form]) fun
    | env, [.name x, .value d, .form body] => .buildWithin body (env.bind x d)
    | _, _ => .bad),
  ("call", .reading [.arg 0 .name, .rest 1 .value] fun state items =>
    match items with
    | .name n :: args =>
        match state.definitions[n]? with
        | some definition =>
            if definition.params.length ≤ args.length then
              .buildWithin definition.body
                (.ofScope (bindAll .empty definition.params (values args)))
            else .bad
        | none => .bad
    | _ => .bad),
  ("ref", .reading (inOrder [.name]) fun state items =>
    match items with
    | [.name n] =>
        match state.effects[n]? with
        | some x => .built (.plain x)
        | none => .bad
    | _ => .bad),
  ("val", effectOfValue fun
    | .fx node => .built (.plain ⟨node⟩)
    | _ => .bad),
  ("iterate", .pure (inOrder [.int, .name, .branch, .branch]) fun
    | env, [.int n, .name x, .form base, .form body] =>
        ⟨.build base env, [.iterate env x body 0 n.toInt.toNat]⟩
    | _, _ => .bad),
  ("acc", .pure [] fun env _ =>
    match env.sofar with
    | some b => .built b
    | none => .bad)]

end Trampoline.Session
