import Trampoline.Kept
import Trampoline.Panic
import Trampoline.Ty

/-!
The data of the library: values, effect nodes, and the codes of the functions that nodes hold.

Functions are first-order. A function of the host program is a code in `F`, a function of the
library is a constructor that says what it was built from, so that a stored continuation, a parked
stack or a queued unit of work can be inspected, compared with another and asked which objects it
keeps. `D` is the type of the host program's own data. What data keep is a field that is computed
when they are made: the field is a function of the data, and asking for it takes one step.
-/

namespace Trampoline

/-- The scheduler that runs work on the spot. -/
def immediateId : SchedulerId := 0

/-- The thread scheduler on which sleeping effects wait. -/
def sleeperId : SchedulerId := 1

/-- A one-shot sink for the result of a computation: the meeting point of an async node, or a
function of the host program. -/
inductive Callback (F : Type) where
  | node (handoff : HandoffId)
  | user (value error : Ty) (f : Owned F)

/-- Where the exit of an interpretation goes: to a callback, into a channel that a blocked caller
or a future reads, or into the fiber of a fork, whose panic is reported to `reporter`. -/
inductive Finish (F : Type) where
  | callback (value error : Ty) (target : Callback F)
  | channel (value error : Ty) (target : ChannelId)
  | fiber (value error : Ty) (target : PromiseId) (reporter : SchedulerId)

/-- The registration of an async node: what is done with the node's callback when the node's
scheduler runs it. -/
inductive Register (F : Type) where
  /-- A function of the host program receives the callback. -/
  | user (value error : Ty) (f : Owned F)
  /-- The callback is subscribed to a fiber and receives its slot. -/
  | join (value error : Ty) (fiber : PromiseId)
  /-- The thread sleeps, then the callback succeeds. -/
  | sleep (nanoseconds : Nat)
  /-- The callback is dropped. -/
  | never

/-- How the values of two effects are combined. -/
inductive Combine (F : Type) where
  | user (f : Owned F)
  | pair
  | first
  /-- The values are effects: the effect that runs both and combines their values in turn, to a
  value of type `result`. -/
  | joins (first second result error : Ty) (inner : Combine F)

/-- The reification of an outcome as a value that a success carries. -/
structure Reify where
  value : Ty
  error : Ty

section

variable {F : Type}

def Callback.kept : Callback F → Kept
  | .node handoff => {.handoff handoff}
  | .user _ _ f => f.kept

def Finish.kept : Finish F → Kept
  | .callback _ _ target => target.kept
  | .channel _ _ id => {.sender id}
  | .fiber _ _ id _ => {.promise id}

def Register.kept : Register F → Kept
  | .user _ _ f => f.kept
  | .join _ _ fiber => {.promise fiber}
  | .sleep _ => ∅
  | .never => ∅

def Combine.kept : Combine F → Kept
  | .user f => f.kept
  | .pair => ∅
  | .first => ∅
  | .joins _ _ _ _ inner => inner.kept

end

section

variable (D F : Type)

mutual

/-- A value with its tag. -/
inductive Value where
  | data (index : Nat) (d : Owned D)
  | unit
  | text (s : String)
  | instant (nanoseconds : Nat)
  | list (item : Ty) (items : Items)
  | pair (first second : Value)
  | absent (item : Ty)
  | present (item : Ty) (v : Value)
  | ok (value error : Ty) (v : Value)
  | err (value error : Ty) (v : Value)
  | slot (value error : Ty) (s : Slot)
  | effect (value error : Ty) (node : Node)
  | callback (value error : Ty) (target : Callback F)
  | promise (value : Ty) (id : PromiseId)
  | fiber (value error : Ty) (id : PromiseId)
  | future (value error : Ty) (id : FutureId)
  | work (w : Work)
  | failure (report : WorkFailure)
  | thread (id : ThreadId)
with
  @[computed_field] kept : Value D F → Kept
  | .data _ d => d.kept
  | .unit => ∅
  | .text _ => ∅
  | .instant _ => ∅
  | .list _ items => items.kept
  | .pair first second => first.kept.union second.kept
  | .absent _ => ∅
  | .present _ v => v.kept
  | .ok _ _ v => v.kept
  | .err _ _ v => v.kept
  | .slot _ _ s => s.kept
  | .effect _ _ node => node.kept
  | .callback _ _ target => target.kept
  | .promise _ id => {.promise id}
  | .fiber _ _ id => {.promise id}
  | .future _ _ id => {.future id}
  | .work w => w.kept
  | .failure _ => ∅
  | .thread _ => ∅

/-- The items of a list, the last one outermost, so that adding one at the end takes one step
however long the list is. -/
inductive Items where
  | empty
  | snoc (init : Items) (last : Value)
with
  @[computed_field] kept : Items D F → Kept
  | .empty => ∅
  | .snoc init last => init.kept.union last.kept

/-- What a fiber records: the result of its effect, or the report of its panic. -/
inductive Slot where
  | ok (v : Value)
  | err (v : Value)
  | panicked (report : WorkFailure)
with
  @[computed_field] kept : Slot D F → Kept
  | .ok v => v.kept
  | .err v => v.kept
  | .panicked _ => ∅

/-- An effect without its types. -/
inductive Node where
  | thunk (t : Thunk)
  | async (register : Register F) (scheduler : SchedulerId)
  | flatMap (source : Node) (bind : Bind)
  | attempt (source : Node) (reify : Reify)
with
  @[computed_field] kept : Node D F → Kept
  | .thunk t => t.kept
  | .async register _ => register.kept
  | .flatMap source bind => source.kept.union bind.kept
  | .attempt source _ => source.kept

/-- The computation of a thunk. -/
inductive Thunk where
  | succeed (v : Value)
  | fail (v : Value)
  | result (f : Owned F)
  | delay (f : Owned F)
  /-- Forks the source and succeeds with the effect that joins it. -/
  | fork (value error : Ty) (source : Node) (scheduler : SchedulerId)
  /-- Announces the start of an instrumented effect and reads the clock. -/
  | opened (span : String)
  | print (line : String)
  | threadName
with
  @[computed_field] kept : Thunk D F → Kept
  | .succeed v => v.kept
  | .fail v => v.kept
  | .result f => f.kept
  | .delay f => f.kept
  | .fork _ _ source _ => source.kept
  | .opened _ => ∅
  | .print _ => ∅
  | .threadName => ∅

/-- The continuation of a `flatMap` node. The tags name the type of the value it expects. -/
inductive Bind where
  | map (value : Ty) (f : Owned F)
  | flatMap (value : Ty) (f : Owned F)
  | replace (value : Ty) (v : Value)
  | tap (value : Ty) (f : Owned F)
  /-- Keeps a success and recovers from a failure by an effect. -/
  | recover (value error : Ty) (r : Recovery)
  | handle (value error : Ty) (f : Owned F)
  | mapError (value error : Ty) (f : Owned F)
  /-- Runs a second effect, then combines the two values. -/
  | andThen (value second : Ty) (that : Node) (combine : Combine F)
  /-- Runs a second effect and forgets the value. -/
  | next (value : Ty) (that : Node)
  | flatten (value error : Ty)
  /-- Runs the effects of a list in order and collects their values. -/
  | sequence (value error : Ty)
  /-- Runs a further effect and adds its value to the list. -/
  | collect (item : Ty) (that : Node)
  /-- Runs the reified source of an instrumented effect. -/
  | timed (value error : Ty) (span : String) (source : Node)
  /-- Settles with the result in a fiber's slot, or panics with the text recorded there. -/
  | unslot (value error : Ty)
with
  @[computed_field] kept : Bind D F → Kept
  | .map _ f => f.kept
  | .flatMap _ f => f.kept
  | .replace _ v => v.kept
  | .tap _ f => f.kept
  | .recover _ _ r => r.kept
  | .handle _ _ f => f.kept
  | .mapError _ _ f => f.kept
  | .andThen _ _ that combine => that.kept.union combine.kept
  | .next _ that => that.kept
  | .flatten _ _ => ∅
  | .sequence _ _ => ∅
  | .collect _ that => that.kept
  | .timed _ _ _ source => source.kept
  | .unslot _ _ => ∅

/-- The effect that replaces a failed one. -/
inductive Recovery where
  | user (f : Owned F)
  /-- The effect itself, once more. -/
  | once (again : Node)
  /-- The effect itself after a delay, and so on until it succeeds. -/
  | after (nanoseconds : Nat) (again : Node)
with
  @[computed_field] kept : Recovery D F → Kept
  | .user f => f.kept
  | .once again => again.kept
  | .after _ again => again.kept

/-- A unit of work handed to a scheduler. -/
inductive Work where
  | register (r : Register F) (handoff : HandoffId)
  | interpret (node : Node) (finish : Finish F)
  | user (f : Owned F)
with
  @[computed_field] kept : Work D F → Kept
  | .register r handoff => r.kept.union {.handoff handoff}
  | .interpret node finish => node.kept.union finish.kept
  | .user f => f.kept

end

end

/-- The one-shot continuation of a second effect, with what the first one left. -/
inductive Resume (D F : Type) where
  /-- Combines the first value with the second. -/
  | combine (second : Ty) (first : Value D F) (how : Combine F)
  | append (item : Ty) (items : Items D F)
  /-- Announces the end of an instrumented effect and settles as it did. -/
  | close (value error : Ty) (span : String)

/-- How an effect settles: a failure or a success. -/
abbrev Outcome (D F : Type) := Except (Value D F) (Value D F)

variable {D F : Type}

def Value.ty : Value D F → Ty
  | .data index _ => .base index
  | .unit => .unit
  | .text _ => .text
  | .instant _ => .instant
  | .list item _ => .list item
  | .pair first second => .pair first.ty second.ty
  | .absent item => .option item
  | .present item _ => .option item
  | .ok value error _ => .result value error
  | .err value error _ => .result value error
  | .slot value error _ => .slot value error
  | .effect value error _ => .effect value error
  | .callback value error _ => .callback value error
  | .promise value _ => .promise value
  | .fiber value error _ => .fiber value error
  | .future value error _ => .future value error
  | .work _ => .work
  | .failure _ => .failure
  | .thread _ => .thread

def Value.ofOutcome (value error : Ty) : Outcome D F → Value D F
  | .ok v => .ok value error v
  | .error v => .err value error v

def Value.outcome? : Value D F → Option (Outcome D F)
  | .ok _ _ v => some (.ok v)
  | .err _ _ v => some (.error v)
  | _ => none

@[simp] theorem Value.outcome?_ofOutcome (value error : Ty) (o : Outcome D F) :
    (Value.ofOutcome value error o).outcome? = some o := by
  cases o <;> rfl

@[simp] theorem Value.ty_ofOutcome (value error : Ty) (o : Outcome D F) :
    (Value.ofOutcome value error o).ty = .result value error := by
  cases o <;> rfl

def Slot.ofOutcome : Outcome D F → Slot D F
  | .ok v => .ok v
  | .error v => .err v

/-- What a reader of a slot gets: the recorded outcome, or a panic with the recorded text. -/
def Slot.read : Slot D F → Except Payload (Outcome D F)
  | .ok v => .ok (.ok v)
  | .err v => .ok (.error v)
  | .panicked report => .error (.text report.message)

@[simp] theorem Slot.read_ofOutcome (o : Outcome D F) : (Slot.ofOutcome o).read = .ok o := by
  cases o <;> rfl

/-- The name of a node's kind, as its debug form shows it. -/
def Node.kind : Node D F → String
  | .thunk _ => "thunk"
  | .async _ _ => "async"
  | .flatMap _ _ => "flat_map"
  | .attempt _ _ => "attempt"

end Trampoline
