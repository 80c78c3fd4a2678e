import Trampoline.Text.Duration
import Trampoline.Trace
import Trampoline.Value

/-!
What the functions in a node do. Applying a function gives a plan: an answer at once, a panic, or a
question to the surroundings together with the way its reply becomes the answer. Everything that a
user of the library can observe of an interpretation is in the questions it asks.
-/

namespace Trampoline

variable {D F : Type}

/-- A continuation's answer: run a node in its place, run a node and then go on with a one-shot
continuation, or settle. -/
inductive Next (D F : Type) where
  | run (node : Node D F)
  | andThen (node : Node D F) (resume : Resume D F)
  | done (outcome : Outcome D F)

/-- A question of the interpreter to its surroundings. -/
inductive Ask (D F : Type) where
  | call (f : Owned F) (args : List (Value D F))
  /-- Fork a node on a scheduler; the reply is the effect that joins it. -/
  | fork (value error : Ty) (source : Node D F) (scheduler : SchedulerId)
  | print (line : String)
  | threadName
  | emit (event : Event)
  /-- Record an event and tell the time. -/
  | clock (event : Event)

/-- How a reply becomes an answer. -/
inductive Post (D F : Type) where
  | succeed
  | fail
  /-- The reply is a result. -/
  | outcome
  /-- The reply is an effect, to be run. -/
  | run
  /-- The reply is dropped; the answer is fixed. -/
  | fixed (next : Next D F)

/-- What applying a function comes to. -/
inductive Plan (D F : Type) where
  | answer (next : Next D F)
  | raise (payload : Payload)
  | ask (question : Ask D F) (post : Post D F)

/-- The panic of a continuation that was handed a value of another type than its own. -/
def mismatch : Payload := .text "type mismatch between effect node and continuation"

/-- The value, if its tag is the expected one. -/
def Value.expect (ty : Ty) (v : Value D F) (plan : Value D F → Plan D F) : Plan D F :=
  if v.ty = ty then plan v else .raise mismatch

@[simp] theorem Value.expect_of_ty {ty : Ty} {v : Value D F} {plan : Value D F → Plan D F}
    (h : v.ty = ty) : v.expect ty plan = plan v := by
  simp [Value.expect, h]

/-- The answer that a reply gives. A reply of an unexpected kind is a mismatch. -/
def Post.answer : Post D F → Value D F → Except Payload (Next D F)
  | .succeed, v => .ok (.done (.ok v))
  | .fail, v => .ok (.done (.error v))
  | .outcome, v =>
      match v.outcome? with
      | some o => .ok (.done o)
      | none => .error mismatch
  | .run, .effect _ _ node => .ok (.run node)
  | .run, _ => .error mismatch
  | .fixed next, _ => .ok next

/-- An effect that settles with `v`. -/
def Plan.settled (o : Outcome D F) : Plan D F := .answer (.done o)

def Thunk.plan : Thunk D F → Plan D F
  | .succeed v => .settled (.ok v)
  | .fail v => .settled (.error v)
  | .result f => .ask (.call f []) .outcome
  | .delay f => .ask (.call f []) .succeed
  | .fork value error source scheduler => .ask (.fork value error source scheduler) .succeed
  | .opened span => .ask (.clock (.started span)) .succeed
  | .print line => .ask (.print line) .succeed
  | .threadName => .ask .threadName .succeed

/-- The effect `source`, and on failure `source` again after a delay, without end. -/
def Node.retryAfter (value error : Ty) (nanoseconds : Nat) (source : Node D F) : Node D F :=
  .flatMap (.attempt source ⟨value, error⟩) (.recover value error (.after nanoseconds source))

/-- A sleep, then the node. -/
def Node.afterSleep (nanoseconds : Nat) (node : Node D F) : Node D F :=
  .flatMap (.async (.sleep nanoseconds) sleeperId) (.next .unit node)

/-- The node that collects the values of `nodes` in order, after those of `collected`. -/
def Node.collectAll (item : Ty) (collected : Node D F) (nodes : List (Node D F)) : Node D F :=
  nodes.foldl (fun collected node => .flatMap collected (.collect item node)) collected

/-- The node that runs `nodes` in order and succeeds with the list of their values. The empty list
it starts from is made anew by every interpretation. -/
def Node.sequence (item : Ty) (nodes : List (Node D F)) : Node D F :=
  .collectAll item (.thunk (.succeed (.list item .empty))) nodes

/-- The node that joins a fiber: it waits for the fiber's slot and settles as the slot says. -/
def Node.join (value error : Ty) (fiber : PromiseId) : Node D F :=
  .flatMap (.async (.join value error fiber) immediateId) (.unslot value error)

/-- The nodes of items that are effects, in front of `nodes`. -/
def Items.nodesOnto? (nodes : List (Node D F)) : Items D F → Option (List (Node D F))
  | .empty => some nodes
  | .snoc init (.effect _ _ node) => init.nodesOnto? (node :: nodes)
  | .snoc _ _ => none

/-- The replacement of an effect that failed with the error `e`. -/
def Recovery.plan (value error : Ty) (e : Value D F) : Recovery D F → Plan D F
  | .user f => .ask (.call f [e]) .run
  | .once again => .ask (.emit .retryingOnce) (.fixed (.run again))
  | .after nanoseconds again =>
      .ask (.emit (.retrying (Duration.text nanoseconds)))
        (.fixed (.run (.afterSleep nanoseconds (.retryAfter value error nanoseconds again))))

def Combine.plan (first second : Value D F) : Combine F → Plan D F
  | .user f => .ask (.call f [first, second]) .succeed
  | .pair => .settled (.ok (.pair first second))
  | .first => .settled (.ok first)
  | .joins a b result error inner =>
      match first, second with
      | .effect _ _ left, .effect _ _ right =>
          .settled (.ok (.effect result error (.flatMap left (.andThen a b right inner))))
      | _, _ => .raise mismatch

/-- The continuation of a `flatMap` node, applied to the value of its source. -/
def Bind.plan (v : Value D F) : Bind D F → Plan D F
  | .map value f => v.expect value fun v => .ask (.call f [v]) .succeed
  | .flatMap value f => v.expect value fun v => .ask (.call f [v]) .run
  | .replace value w => v.expect value fun _ => .settled (.ok w)
  | .tap value f => v.expect value fun v => .ask (.call f [v]) (.fixed (.done (.ok v)))
  | .recover value error r => v.expect (.result value error) fun
      | .ok _ _ a => .settled (.ok a)
      | .err _ _ e => r.plan value error e
      | _ => .raise mismatch
  | .handle value error f => v.expect (.result value error) fun
      | .ok _ _ a => .settled (.ok a)
      | .err _ _ e => .ask (.call f [e]) .succeed
      | _ => .raise mismatch
  | .mapError value error f => v.expect (.result value error) fun
      | .ok _ _ a => .settled (.ok a)
      | .err _ _ e => .ask (.call f [e]) .fail
      | _ => .raise mismatch
  | .andThen value second that combine =>
      v.expect value fun v => .answer (.andThen that (.combine second v combine))
  | .next value that => v.expect value fun _ => .answer (.run that)
  | .flatten value error => v.expect (.effect value error) fun
      | .effect _ _ node => .answer (.run node)
      | _ => .raise mismatch
  | .sequence value error => v.expect (.list (.effect value error)) fun
      | .list _ items =>
          match items.nodesOnto? [] with
          | some nodes => .answer (.run (.sequence value nodes))
          | none => .raise mismatch
      | _ => .raise mismatch
  | .collect item that => v.expect (.list item) fun
      | .list _ items => .answer (.andThen that (.append item items))
      | _ => .raise mismatch
  | .timed value error span source =>
      v.expect .instant fun _ => .answer (.andThen source (.close value error span))
  | .unslot value error => v.expect (.slot value error) fun
      | .slot _ _ s =>
          match s.read with
          | .ok o => .settled o
          | .error payload => .raise payload
      | _ => .raise mismatch

def Resume.plan (v : Value D F) : Resume D F → Plan D F
  | .combine second first how => v.expect second fun v => how.plan first v
  | .append item items => v.expect item fun v => .settled (.ok (.list item (items.snoc v)))
  | .close value error span => v.expect (.result value error) fun v =>
      match v.outcome? with
      | some o => .ask (.emit (.ended span o.isOk)) (.fixed (.done o))
      | none => .raise mismatch

def Reify.plan (reify : Reify) : Outcome D F → Plan D F
  | .ok v => v.expect reify.value fun v => .settled (.ok (.ok reify.value reify.error v))
  | .error v => v.expect reify.error fun v => .settled (.ok (.err reify.value reify.error v))

end Trampoline
