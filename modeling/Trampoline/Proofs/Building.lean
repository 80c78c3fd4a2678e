import Trampoline.Proofs.Erasure

/-!
Effects that are built from the constructors and the combinators of the library. If the functions
and the values that go in are of the types that the constructor takes, the node that comes out is of
the types of the effect, however deep it is.
-/

namespace Trampoline

variable {D F : Type} (T : Signature D F) (L : Types)

namespace Effect

/-- An effect that is built with values and functions of its types. -/
inductive IsMade : {a e : Ty} → Effect D F a e → Prop where
  | succeed {a e : Ty} {v : Value D F} :
      v.HasType T L a → IsMade (succeed v : Effect D F a e)
  | fail {a e : Ty} {v : Value D F} : v.HasType T L e → IsMade (fail v : Effect D F a e)
  | ofResult {a e : Ty} {o : Outcome D F} :
      Outcome.HasTypes T L o a e → IsMade (ofResult o : Effect D F a e)
  | ofFn {a e : Ty} {f : Owned F} :
      T.function L f.val [] (.result a e) → IsMade (ofFn f : Effect D F a e)
  | delay {a e : Ty} {f : Owned F} : T.function L f.val [] a → IsMade (delay f : Effect D F a e)
  | unit {e : Ty} : IsMade (unit : Effect D F .unit e)
  | asyncOn {a e reply : Ty} {s : SchedulerId} {f : Owned F} :
      T.function L f.val [.callback a e] reply → IsMade (asyncOn s f : Effect D F a e)
  | never {a e : Ty} : IsMade (never : Effect D F a e)
  | sleep {e : Ty} {nanoseconds : Nat} : IsMade (sleep nanoseconds : Effect D F .unit e)
  | join {a e : Ty} {fiber : PromiseId} :
      L.promises[fiber]? = some (.slot a e) → IsMade (join fiber : Effect D F a e)
  | printLine {e : Ty} {line : String} : IsMade (printLine line : Effect D F .unit e)
  | threadName {e : Ty} : IsMade (threadName : Effect D F .text e)
  | map {a b e : Ty} {x : Effect D F a e} {f : Owned F} :
      IsMade x → T.function L f.val [a] b → IsMade (x.map f : Effect D F b e)
  | flatMap {a b e : Ty} {x : Effect D F a e} {f : Owned F} :
      IsMade x → T.function L f.val [a] (.effect b e) → IsMade (x.flatMap f : Effect D F b e)
  | attempt {a e : Ty} {x : Effect D F a e} : IsMade x → IsMade x.attempt
  | handleErrorWith {a e : Ty} {x : Effect D F a e} {f : Owned F} :
      IsMade x → T.function L f.val [e] (.effect a e) → IsMade (x.handleErrorWith f)
  | handleError {a e : Ty} {x : Effect D F a e} {f : Owned F} :
      IsMade x → T.function L f.val [e] a → IsMade (x.handleError f)
  | mapError {a e d : Ty} {x : Effect D F a e} {f : Owned F} :
      IsMade x → T.function L f.val [e] d → IsMade (x.mapError f : Effect D F a d)
  | map2 {a b c e : Ty} {x : Effect D F a e} {y : Effect D F b e} {f : Owned F} :
      IsMade x → IsMade y → T.function L f.val [a, b] c → IsMade (x.map2 y f : Effect D F c e)
  | tuple2 {a b e : Ty} {x : Effect D F a e} {y : Effect D F b e} :
      IsMade x → IsMade y → IsMade (x.tuple2 y)
  | productL {a b e : Ty} {x : Effect D F a e} {y : Effect D F b e} :
      IsMade x → IsMade y → IsMade (x.productL y)
  | productR {a b e : Ty} {x : Effect D F a e} {y : Effect D F b e} :
      IsMade x → IsMade y → IsMade (x.productR y)
  | asValue {a b e : Ty} {x : Effect D F a e} {v : Value D F} :
      IsMade x → v.HasType T L b → IsMade (x.asValue v : Effect D F b e)
  | void {a e : Ty} {x : Effect D F a e} : IsMade x → IsMade x.void
  | tap {a e reply : Ty} {x : Effect D F a e} {f : Owned F} :
      IsMade x → T.function L f.val [a] reply → IsMade (x.tap f)
  | flatten {a e : Ty} {x : Effect D F (.effect a e) e} : IsMade x → IsMade x.flatten
  | sequence {a e : Ty} {xs : List (Effect D F a e)} :
      (∀ x ∈ xs, IsMade x) → IsMade (sequence xs)
  | traverse {α : Type} {a e : Ty} {items : List α} {f : α → Effect D F a e} :
      (∀ item ∈ items, IsMade (f item)) → IsMade (traverse items f)
  | start {a e : Ty} {x : Effect D F a e} {s : SchedulerId} : IsMade x → IsMade (x.start s)
  | evalOn {a e : Ty} {x : Effect D F a e} {s : SchedulerId} : IsMade x → IsMade (x.evalOn s)
  | concurrentMap2 {a b c e : Ty} {x : Effect D F a e} {y : Effect D F b e} {s : SchedulerId}
      {f : Owned F} :
      IsMade x → IsMade y → T.function L f.val [a, b] c →
        IsMade (x.concurrentMap2 y s f : Effect D F c e)
  | concurrentTuple {a b e : Ty} {x : Effect D F a e} {y : Effect D F b e} {s : SchedulerId} :
      IsMade x → IsMade y → IsMade (x.concurrentTuple y s)
  | concurrentTraverse {α : Type} {a e : Ty} {items : List α} {s : SchedulerId}
      {f : α → Effect D F a e} :
      (∀ item ∈ items, IsMade (f item)) → IsMade (concurrentTraverse items s f)
  | concurrentSequence {a e : Ty} {xs : List (Effect D F a e)} {s : SchedulerId} :
      (∀ x ∈ xs, IsMade x) → IsMade (concurrentSequence xs s)
  | retryOnce {a e : Ty} {x : Effect D F a e} : IsMade x → IsMade x.retryOnce
  | retryUntilSuccess {a e : Ty} {x : Effect D F a e} {nanoseconds : Nat} :
      IsMade x → IsMade (x.retryUntilSuccess nanoseconds)
  | instrument {a e : Ty} {x : Effect D F a e} {span : String} :
      IsMade x → IsMade (x.instrument span)

section Nodes

variable {T L} {a b c e d : Ty} {x : Effect D F a e} {y : Effect D F b e} {how : Combine F}
  {s : SchedulerId}

theorem hasTypes_start (hx : x.node.HasTypes T L a e) :
    (x.start s).node.HasTypes T L (.effect a e) e :=
  .thunk (.fork hx)

theorem hasTypes_combine (hx : x.node.HasTypes T L a e) (hy : y.node.HasTypes T L b e)
    (hhow : how.HasTypes T L a b c) :
    (x.combine y how : Effect D F c e).node.HasTypes T L c e :=
  .flatMap hx (.andThen hy hhow)

/-- The effects that join two forks are combined to an effect. -/
theorem hasTypes_concurrentCombine (hx : x.node.HasTypes T L a e) (hy : y.node.HasTypes T L b e)
    (hhow : how.HasTypes T L a b c) :
    (x.concurrentCombine y s how : Effect D F c e).node.HasTypes T L c e :=
  .flatMap (hasTypes_combine (hasTypes_start hx) (hasTypes_start hy) (.joins hhow)) .flatten

theorem hasTypes_sequence {xs : List (Effect D F a e)} (hxs : ∀ x ∈ xs, x.node.HasTypes T L a e) :
    (sequence xs).node.HasTypes T L (.list a) e :=
  .sequence fun node hmem => by
    obtain ⟨x, hx, rfl⟩ := List.mem_map.1 hmem
    exact hxs x hx

theorem hasTypes_traverse {α : Type} {items : List α} {f : α → Effect D F a e}
    (hitems : ∀ item ∈ items, (f item).node.HasTypes T L a e) :
    (traverse items f).node.HasTypes T L (.list a) e :=
  hasTypes_sequence fun x hmem => by
    obtain ⟨item, hitem, rfl⟩ := List.mem_map.1 hmem
    exact hitems item hitem

theorem hasTypes_concurrentTraverse {α : Type} {items : List α} {f : α → Effect D F a e}
    (hitems : ∀ item ∈ items, (f item).node.HasTypes T L a e) :
    (concurrentTraverse items s f).node.HasTypes T L (.list a) e :=
  .flatMap (hasTypes_traverse fun item hitem => hasTypes_start (hitems item hitem)) .sequence

end Nodes

variable {T L} in
/-- The node of an effect that is built at its types has these types. -/
theorem IsMade.hasTypes {a e : Ty} {x : Effect D F a e} (h : x.IsMade T L) :
    x.node.HasTypes T L a e := by
  induction h with
  | succeed hv => exact .thunk (.succeed hv)
  | fail hv => exact .thunk (.fail hv)
  | ofResult ho =>
      cases ho with
      | ok hv => exact .thunk (.succeed hv)
      | error hv => exact .thunk (.fail hv)
  | ofFn hf => exact .thunk (.result hf)
  | delay hf => exact .thunk (.delay hf)
  | unit => exact .thunk (.succeed .unit)
  | asyncOn hf => exact .async (.user hf)
  | never => exact .async .never
  | sleep => exact .async .sleep
  | join hid => exact .join hid
  | printLine => exact .thunk .print
  | threadName => exact .thunk .threadName
  | map _ hf ih => exact .flatMap ih (.map hf)
  | flatMap _ hf ih => exact .flatMap ih (.flatMap hf)
  | attempt _ ih => exact .attempt ih
  | handleErrorWith _ hf ih => exact .flatMap (.attempt ih) (.recover (.user hf))
  | handleError _ hf ih => exact .flatMap (.attempt ih) (.handle hf)
  | mapError _ hf ih => exact .flatMap (.attempt ih) (.mapError hf)
  | map2 _ _ hf ihx ihy => exact hasTypes_combine ihx ihy (.user hf)
  | tuple2 _ _ ihx ihy => exact hasTypes_combine ihx ihy .pair
  | productL _ _ ihx ihy => exact hasTypes_combine ihx ihy .first
  | productR _ _ ihx ihy => exact .flatMap ihx (.next ihy)
  | asValue _ hv ih => exact .flatMap ih (.replace hv)
  | void _ ih => exact .flatMap ih (.replace .unit)
  | tap _ hf ih => exact .flatMap ih (.tap hf)
  | flatten _ ih => exact .flatMap ih .flatten
  | sequence _ ih => exact hasTypes_sequence ih
  | traverse _ ih => exact hasTypes_traverse ih
  | start _ ih => exact hasTypes_start ih
  | evalOn _ ih => exact .flatMap (hasTypes_start ih) .flatten
  | concurrentMap2 _ _ hf ihx ihy => exact hasTypes_concurrentCombine ihx ihy (.user hf)
  | concurrentTuple _ _ ihx ihy => exact hasTypes_concurrentCombine ihx ihy .pair
  | concurrentTraverse _ ih => exact hasTypes_concurrentTraverse ih
  | concurrentSequence _ ih => exact hasTypes_concurrentTraverse ih
  | retryOnce _ ih => exact .flatMap (.attempt ih) (.recover (.once ih))
  | retryUntilSuccess _ ih => exact ih.retryAfter _
  | instrument _ ih => exact .flatMap (.thunk .opened) (.timed (.attempt ih))

end Effect

end Trampoline
