import Trampoline.Machine.Turn

/-!
Who keeps what. An object is kept by the stacks of threads, by the host's state, by the schedulers
and by other objects that are kept; an object that nobody keeps is dropped, and what only it kept is
dropped with it. Objects that keep each other in a circle stay. The one thing that depends on this
is whether the exit of an interpretation can still come: it can as long as the sending end of its
channel is kept.

What can be reached from threads, the host and the schedulers is kept. The rest needs a census,
which counts the holders of every object. It starts with all objects there are; those without a
holder are dropped one after the other, and what they kept loses a holder.
-/

namespace Trampoline

variable {H : Host}

namespace Task

def refs : Task H → List Ref → List Ref
  | .give v, refs => v.kept.onto refs
  | .user code reply, refs => H.codeRefs code (reply.refs refs)
  | .call f args, refs => f.kept.onto (Value.refsAll args refs)
  | .request r, refs => r.refs refs
  | .drive i last finish, refs => i.refs last (finish.kept.onto refs)
  | .answer question, refs => question.refs refs
  | .park handoff frames last finish, refs =>
      .handoff handoff :: Frame.refsAll frames (last.onto (finish.kept.onto refs))
  | .deliver handoff exit _, refs => .handoff handoff :: exit.refs refs
  | .resume exit frames finish, refs => exit.refs (Frame.refsAll frames (finish.kept.onto refs))
  | .conclude exit finish, refs => exit.refs (finish.kept.onto refs)
  | .submit _ work, refs => work.kept.onto refs
  | .perform work, refs => work.kept.onto refs
  | .report _ _, refs => refs
  | .register r target, refs => r.kept.onto (target.kept.onto refs)
  | .invoke target outcome, refs => target.kept.onto (Outcome.refs outcome refs)
  | .fill promise v, refs => .promise promise :: (v.kept.onto refs)
  | .take promise v, refs => .promise promise :: (v.kept.onto refs)
  | .wake promise v subscribers, refs =>
      .promise promise :: (v.kept.onto (Subscriber.refsAll subscribers refs))
  | .notify promise v subscribers _, refs =>
      .promise promise :: (v.kept.onto (Subscriber.refsAll subscribers refs))
  | .tell subscriber v, refs => subscriber.refs (v.kept.onto refs)
  | .subscribe promise subscriber, refs => .promise promise :: subscriber.refs refs
  | .await promise, refs => .promise promise :: refs
  | .awaitUntil promise _, refs => .promise promise :: refs
  | .peek promise, refs => .promise promise :: refs
  | .receive _ _ channel _, refs => .receiver channel :: refs
  | .lost _, refs => refs
  | .collect _ _ future channel, refs => .future future :: .receiver channel :: refs
  | .hang _ _ future channel, refs => .future future :: .receiver channel :: refs

end Task

namespace Return

def refs : Return H → List Ref → List Ref
  | .user code, refs => H.codeRefs code refs
  | .answering post frames last applied finish, refs =>
      post.refs (Frame.refsAll frames (last.onto (applied.onto (finish.kept.onto refs))))
  | .guarded _, refs => refs
  | .guarding handoff r, refs => .handoff handoff :: (r.kept.onto refs)
  | .holding held, refs => held ++ refs
  | .driving, refs => refs
  | .after task, refs => task.refs refs
  | .polling _ _ future channel, refs => .future future :: .receiver channel :: refs
  | .notifying promise v subscribers _, refs =>
      .promise promise :: (v.kept.onto (Subscriber.refsAll subscribers refs))
  | .reading, refs => refs
  | .givingBack, refs => refs

end Return

namespace Thread

def refs (thread : Thread H) (refs : List Ref) : List Ref :=
  let refs := thread.stack.foldl (fun refs back => back.refs refs) refs
  match thread.control with
  | .run task => task.refs refs
  | .ret v => v.kept.onto refs
  | .raise _ => refs
  | .asleep _ woken missed => woken.refs (missed.refs refs)

end Thread

/-- The objects that have been met, each at its rank among all objects there are. -/
structure Met where
  marks : Array Bool

namespace Met

/-- None of so many objects of each kind. -/
def none (size : Nat) : Met := ⟨.replicate (5 * size) false⟩

def contains (met : Met) (object : Ref) : Bool := met.marks[object.rank]?.getD true

def insert (met : Met) (object : Ref) : Met := ⟨met.marks.setIfInBounds object.rank true⟩

end Met

/-- The number of holders of every object. -/
structure Census where
  handoffs : Array Nat
  promises : Array Nat
  senders : Array Nat
  receivers : Array Nat
  futures : Array Nat

namespace Census

def count (census : Census) : Ref → Nat
  | .handoff id => census.handoffs[id]?.getD 0
  | .promise id => census.promises[id]?.getD 0
  | .sender id => census.senders[id]?.getD 0
  | .receiver id => census.receivers[id]?.getD 0
  | .future id => census.futures[id]?.getD 0

def modify (census : Census) (change : Nat → Nat) : Ref → Census
  | .handoff id => { census with handoffs := census.handoffs.modify id change }
  | .promise id => { census with promises := census.promises.modify id change }
  | .sender id => { census with senders := census.senders.modify id change }
  | .receiver id => { census with receivers := census.receivers.modify id change }
  | .future id => { census with futures := census.futures.modify id change }

def gain (census : Census) (object : Ref) : Census := census.modify (· + 1) object

/-- An object loses a holder; without any it joins those that are to be dropped. -/
def lose (state : Census × List Ref) (object : Ref) : Census × List Ref :=
  match state with
  | (census, todo) =>
      let census := census.modify (· - 1) object
      if census.count object = 0 then (census, object :: todo) else (census, todo)

end Census

namespace Heap

variable {D F : Type}

/-- What an object keeps. -/
def kept (heap : Heap D F) : Ref → List Ref
  | .handoff id =>
      match heap.handoffs[id]? with
      | some ⟨_, .early exit⟩ => exit.refs []
      | some ⟨_, .parked frames finish⟩ => Frame.refsAll frames (finish.kept.onto [])
      | _ => []
  | .promise id =>
      match heap.promises[id]? with
      | some ⟨_, none, subscribers⟩ => Subscriber.refsAll subscribers []
      | some ⟨_, some v, subscribers⟩ => Subscriber.refsAll subscribers (v.kept.onto [])
      | none => []
  | .sender _ => []
  | .receiver id =>
      match heap.channels[id]? with
      | some (.full exit) => exit.refs []
      | _ => []
  | .future id =>
      match heap.futures[id]? with
      | some (.fresh node) => node.kept.onto []
      | some (.running channel) => [.receiver channel]
      | _ => []

/-- The number of objects, where the two ends of a channel count as two. -/
def population (heap : Heap D F) : Nat :=
  heap.handoffs.size + heap.promises.size + 2 * heap.channels.size + heap.futures.size

/-- An object is met: if that is for the first time, it joins those that are to be searched. -/
def meet (state : Met × List Ref) (object : Ref) : Met × List Ref :=
  match state with
  | (met, todo) => if met.contains object then (met, todo) else (met.insert object, object :: todo)

/-- Searches objects, at most `n` of them, and those that they keep. -/
def explore (heap : Heap D F) : Nat → Met × List Ref → Met
  | 0, (met, _) => met
  | _ + 1, (met, []) => met
  | n + 1, (met, object :: todo) => explore heap n ((heap.kept object).foldl meet (met, todo))

/-- The objects that can be reached from some. Every object is searched at most once, when it is met
for the first time. -/
def reach (heap : Heap D F) (roots : List Ref) : Met :=
  heap.explore heap.population (roots.foldl meet (.none heap.population, []))

/-- Goes through the objects of a heap. -/
def foldObjects {α : Type} (heap : Heap D F) (f : α → Ref → α) (start : α) : α :=
  let a := heap.handoffs.size.fold (fun id _ a => f a (.handoff id)) start
  let a := heap.promises.size.fold (fun id _ a => f a (.promise id)) a
  let a := heap.channels.size.fold (fun id _ a => f a (.receiver id)) a
  heap.futures.size.fold (fun id _ a => f a (.future id)) a

/-- The census of all objects there are, given what is kept from outside. -/
def fullCensus (heap : Heap D F) (roots : List Ref) : Census :=
  let start : Census :=
    ⟨.replicate heap.handoffs.size 0, .replicate heap.promises.size 0,
      .replicate heap.channels.size 0, .replicate heap.channels.size 0,
      .replicate heap.futures.size 0⟩
  heap.foldObjects (fun census object => (heap.kept object).foldl Census.gain census)
    (roots.foldl Census.gain start)

/-- Drops objects without a holder, at most `n` of them. -/
def release (heap : Heap D F) : Nat → Census × List Ref → Census
  | 0, (census, _) => census
  | _ + 1, (census, []) => census
  | n + 1, (census, object :: todo) =>
      release heap n ((heap.kept object).foldl Census.lose (census, todo))

/-- The census once all objects without a holder have been dropped. Every object is dropped at most
once, when it has lost its last holder or if it never had one. -/
def census (heap : Heap D F) (roots : List Ref) : Census :=
  let census := heap.fullCensus roots
  let unheld := heap.foldObjects
    (fun todo object => if census.count object = 0 then object :: todo else todo) []
  heap.release heap.population (census, unheld)

end Heap

end Trampoline
