import Trampoline.Machine.Thread

/-!
One step of a thread. A turn says what a task comes to: the changed heap, the returns pushed onto
the stack, the thread's next control, the gate whose sleepers are notified and the threads that
start. Each turn is one atomic action; other threads may act between any two turns.
-/

namespace Trampoline

/-- What one step of a thread comes to. -/
structure Turn (H : Host) where
  heap : Heap H.Data H.Fn
  pushed : List (Return H)
  control : Control H
  notified : Option Gate
  born : Option (Thread H)

variable {H : Host}

namespace Turn

def ret (heap : Heap H.Data H.Fn) (v : Value H.Data H.Fn) : Turn H :=
  ⟨heap, [], .ret v, none, none⟩

def raise (heap : Heap H.Data H.Fn) (payload : Payload) : Turn H :=
  ⟨heap, [], .raise payload, none, none⟩

/-- Goes on with a task. -/
def run (heap : Heap H.Data H.Fn) (task : Task H) : Turn H :=
  ⟨heap, [], .run task, none, none⟩

/-- Does a task and comes back to `back`. -/
def call (heap : Heap H.Data H.Fn) (task : Task H) (back : Return H) : Turn H :=
  ⟨heap, [back], .run task, none, none⟩

/-- Does a task and then another one, whatever the reply. -/
def seq (heap : Heap H.Data H.Fn) (task next : Task H) : Turn H :=
  call heap task (.after next)

/-- Does a task for its effect. -/
def discard (heap : Heap H.Data H.Fn) (task : Task H) : Turn H :=
  seq heap task (.give .unit)

def sleep (heap : Heap H.Data H.Fn) (wait : Wait H) (woken missed : Task H) : Turn H :=
  ⟨heap, [], .asleep wait woken missed, none, none⟩

end Turn

/-- The outcome at the types at which an effect was built; anything else is a mismatch. -/
def Exit.restore {D F : Type} (value error : Ty) :
    Exit (Outcome D F) → Except Payload (Outcome D F)
  | .settled (.ok v) => if v.ty = value then .ok (.ok v) else .error mismatch
  | .settled (.error v) => if v.ty = error then .ok (.error v) else .error mismatch
  | .panicked payload => .error payload

/-- The panic of driving a future on a thread that drives one already. -/
def drivenWithin : Payload :=
  .text "cannot execute `LocalPool` executor from within another executor: EnterError"

/-- The panic of polling a future that has already ended, or whose first poll has panicked. -/
def polledAgain : Payload := .text "future polled after its end"

/-- The panic of a wait whose deadline is no instant. -/
def beyondInstants : Payload := .text "overflow when adding duration to instant"

namespace Ask

def turn (here : Here) (heap : Heap H.Data H.Fn) : Ask H.Data H.Fn → Turn H
  | .call f args => .run heap (.call f args)
  | .fork value error source scheduler =>
      let (heap, fiber) := heap.newPromise (.slot value error)
      .seq heap (.submit scheduler (.interpret source (.fiber value error fiber scheduler)))
        (.give (.effect value error (.join value error fiber)))
  | .print line => .ret (heap.print line) .unit
  | .threadName => .ret heap (.text (here.name.getD "<unnamed>"))
  | .emit event => .ret (heap.emit event) .unit
  | .clock event =>
      let heap := heap.emit event
      .ret heap (.instant heap.clock)

end Ask

namespace Request

/-- What a request of the host comes to on a thread with a stack. A thread drives one future at a
time. -/
def turn (stack : List (Return H)) (heap : Heap H.Data H.Fn) : Request H.Data H.Fn → Turn H
  | .runBlocking value error node =>
      let (heap, channel) := heap.newChannel
      .seq heap (.drive (.start node) ∅ (.channel value error channel))
        (.receive value error channel .blockedForever)
  | .runWith value error node target =>
      .discard heap (.drive (.start node) ∅ (.callback value error target))
  | .runFiber value error node scheduler =>
      let (heap, fiber) := heap.newPromise (.slot value error)
      .seq heap (.submit scheduler (.interpret node (.fiber value error fiber scheduler)))
        (.give (.fiber value error fiber))
  | .runAsync value error node =>
      let (heap, future) := heap.newFuture node
      .ret heap (.future value error future)
  | .poll value error future =>
      match heap.futures[future]? with
      | some (.fresh node) =>
          let (heap, channel) := heap.newChannel
          .call (heap.setFuture future (.running channel))
            (.drive (.start node) ∅ (.channel value error channel))
            (.polling value error future channel)
      | some (.running channel) => .run heap (.collect value error future channel)
      | some .hung => .ret heap (.absent (.result value error))
      | some .finished => .raise heap polledAgain
      | none => .ret heap (.absent (.result value error))
  | .dropFuture future =>
      match heap.futures[future]? with
      | some (.running channel) =>
          .ret ((heap.setChannel channel .closed).setFuture future .finished) .unit
      | _ => .ret (heap.setFuture future .finished) .unit
  | .blockOn value error node =>
      if stack.any Return.isDriving then .raise heap drivenWithin
      else
        let (heap, channel) := heap.newChannel
        let receive := .receive value error channel .pendingForever
        ⟨heap, [.after receive, .driving],
          .run (.drive (.start node) ∅ (.channel value error channel)), none, none⟩
  | .complete target outcome => .discard heap (.invoke target outcome)
  | .newPromise ty =>
      let (heap, promise) := heap.newPromise ty
      .ret heap (.promise ty promise)
  | .fill promise v => .run heap (.fill promise v)
  | .await promise => .run heap (.await promise)
  | .awaitFor promise nanoseconds =>
      match heap.deadline? nanoseconds with
      | some time => .run heap (.awaitUntil promise time)
      | none => .raise heap beyondInstants
  | .subscribe promise f => .run heap (.subscribe promise (.user f))
  | .newFiber value error =>
      let (heap, fiber) := heap.newPromise (.slot value error)
      .ret heap (.fiber value error fiber)
  | .completedFiber value error outcome =>
      let (heap, fiber) := heap.newPromise (.slot value error)
      .seq heap (.fill fiber (.slot value error (.ofOutcome outcome)))
        (.give (.fiber value error fiber))
  | .fillFiber value error fiber outcome =>
      .call heap (.fill fiber (.slot value error (.ofOutcome outcome))) .givingBack
  | .awaitFiber fiber => .call heap (.await fiber) .reading
  | .awaitFiberFor fiber nanoseconds =>
      match heap.deadline? nanoseconds with
      | some time => .call heap (.awaitUntil fiber time) .reading
      | none => .raise heap beyondInstants
  | .observe value error fiber target =>
      .run heap (.subscribe fiber (.observe value error target))
  | .submit scheduler work => .run heap (.submit scheduler work)
  | .report scheduler failure => .run heap (.report scheduler failure)
  | .perform work => .run heap (.perform work)
  | .spawn name f =>
      match name.bind Scheduler.refusal? with
      | some payload => .raise heap payload
      | none => ⟨heap, [], .ret .unit, none, some (.starting name (.call f []) [])⟩

end Request

namespace Task

/-- Submits work: an inline scheduler runs it within its own boundary before the reply, the others
start a thread or leave the work to the host. A thread that cannot have its name is no report, but
a panic of the one who submits; one that cannot have its stack is reported, and the work is lost. -/
def submitTurn (heap : Heap H.Data H.Fn) (id : SchedulerId) (work : Work H.Data H.Fn) : Turn H :=
  match heap.schedulers[id]? with
  | some .immediate => .call heap (.perform work) (.guarded id)
  | some (.recording _ _) =>
      .call (heap.modifyScheduler id .counted) (.perform work) (.guarded id)
  | some (.threads name stackSize spawned _) =>
      let thread := Scheduler.threadName name spawned
      let heap := heap.modifyScheduler id .counted
      match Scheduler.refusal? thread with
      | some payload => .raise heap payload
      | none =>
          match stackSize.bind H.spawnError with
          | some reason => .run heap (.report id (.unspawned name reason))
          | none =>
              ⟨heap, [], .ret .unit, none,
                some (.starting (some thread) (.perform work) [.guarded id])⟩
  | some (.pool _) =>
      ⟨heap, [], .ret .unit, none,
        some (.starting (some Scheduler.poolThread) (.perform work) [.guarded id])⟩
  | some (.custom f _) => .discard heap (.call f [.work work])
  | none => .ret heap .unit

/-- Reports a failure to a scheduler. -/
def reportTurn (heap : Heap H.Data H.Fn) (id : SchedulerId) (failure : WorkFailure) : Turn H :=
  match heap.schedulers[id]? with
  | some scheduler =>
      match scheduler.hook? with
      | some .log => .ret (heap.emit (.workPanicked failure)) .unit
      | some (.user f) => .discard heap (.call f [.failure failure])
      | none => .ret (heap.modifyScheduler id (.reported failure)) .unit
  | none => .ret heap .unit

/-- Takes the exit of an interpretation where it belongs. The report of a forked effect's panic
comes before the fiber is marked. -/
def concludeTurn (heap : Heap H.Data H.Fn) (exit : Exit (Outcome H.Data H.Fn)) :
    Finish H.Fn → Turn H
  | .callback value error target =>
      match exit.restore value error with
      | .ok outcome => .run heap (.invoke target outcome)
      | .error payload => .raise heap payload
  | .channel value error channel =>
      match exit with
      | .panicked payload => .ret (heap.send channel (.panicked payload)) .unit
      | .settled _ =>
          match exit.restore value error with
          | .ok outcome => .ret (heap.send channel (.settled outcome)) .unit
          | .error payload => .raise heap payload
  | .fiber value error fiber reporter =>
      match exit with
      | .panicked payload =>
          let failure := WorkFailure.ofPanic "fiber" payload
          let mark : Task H := .fill fiber (.slot value error (.panicked failure))
          ⟨heap.emit (.forkPanicked failure.message), [.after mark, .after (.give .unit)],
            .run (.report reporter failure), none, none⟩
      | .settled _ =>
          match exit.restore value error with
          | .ok outcome => .discard heap (.fill fiber (.slot value error (.ofOutcome outcome)))
          | .error payload => .raise heap payload

def deliverTurn (here : Here) (heap : Heap H.Data H.Fn) (id : HandoffId)
    (exit : Exit (Outcome H.Data H.Fn)) (origin : Origin) : Turn H :=
  match heap.handoffs[id]? with
  | none => .ret heap .unit
  | some handoff =>
      match handoff.offer here.thread exit with
      | (_, .waiting) =>
          .sleep heap (.gate (.handoff id) none) (.deliver id exit origin)
            (.deliver id exit origin)
      | (handoff, .kept) => .ret (heap.setHandoff id handoff) .unit
      | (handoff, .accepted frames finish) =>
          .run (heap.setHandoff id handoff) (.resume exit frames finish)
      | (_, .rejected) =>
          match origin, exit with
          | .registration, .panicked payload => .raise heap payload
          | _, _ => .ret (heap.emit .ignoredCompletion) .unit

/-- Leaves an async node: goes on with an early exit, or parks the stack and wakes those who came
before it was parked. -/
def parkTurn (heap : Heap H.Data H.Fn) (id : HandoffId) (frames : List (Frame H.Data H.Fn))
    (last : Kept) (finish : Finish H.Fn) : Turn H :=
  match heap.handoffs[id]? with
  | none => .ret heap .unit
  | some handoff =>
      match handoff.leave frames finish with
      | (handoff, some exit) =>
          .run (heap.setHandoff id handoff) (.drive (.settle exit frames) last finish)
      | (handoff, none) =>
          ⟨(heap.emit (.parking frames.length)).setHandoff id handoff, [], .ret .unit,
            some (.handoff id), none⟩

/-- Goes on with an interpretation. The node that was run last and the continuations that a panic
has passed are kept until the exit has been taken where it belongs. -/
def driveTurn (here : Here) (heap : Heap H.Data H.Fn) (i : Interpretation H.Data H.Fn)
    (last : Kept) (finish : Finish H.Fn) : Turn H :=
  let last := i.latest last
  match i.step with
  | .next i => .run heap (.drive i last finish)
  | .ask question post frames =>
      .call heap (.answer question) (.answering post frames last i.applied finish)
  | .suspend r scheduler frames =>
      let (heap, handoff) := heap.newHandoff here.thread
      .seq heap (.submit scheduler (.register r handoff)) (.park handoff frames last finish)
  | .finish exit =>
      .call heap (.conclude exit finish) (.holding (Frame.refsAll i.frames (last.onto [])))

def registerTurn (heap : Heap H.Data H.Fn) (target : Callback H.Fn) : Register H.Fn → Turn H
  | .user value error f => .discard heap (.call f [.callback value error target])
  | .join value error fiber => .run heap (.subscribe fiber (.join value error target))
  | .sleep nanoseconds =>
      let time := heap.clock + nanoseconds
      .sleep heap (.clock time) (.invoke target (.ok .unit)) (.invoke target (.ok .unit))
  | .never => .ret heap .unit

def tellTurn (heap : Heap H.Data H.Fn) (v : Value H.Data H.Fn) : Subscriber H.Fn → Turn H
  | .user f => .discard heap (.call f [v])
  | .join _ _ target => .run heap (.invoke target (.ok v))
  | .observe _ _ target =>
      match v with
      | .slot _ _ s =>
          match s.read with
          | .ok outcome => .run heap (.invoke target outcome)
          | .error payload => .raise heap payload
      | _ => .raise heap mismatch

/-- One step of a task that is not host code, above a stack. -/
def turn (here : Here) (stack : List (Return H)) (heap : Heap H.Data H.Fn) : Task H → Turn H
  | .give v => .ret heap v
  | .user code reply => .run heap (.user code reply)
  | .call f args => .run heap (.user (H.enter f.val args) .start)
  | .request r => r.turn stack heap
  | .drive i last finish => driveTurn here heap i last finish
  | .answer question => question.turn here heap
  | .park handoff frames last finish => parkTurn heap handoff frames last finish
  | .deliver handoff exit origin => deliverTurn here heap handoff exit origin
  | .resume exit frames finish =>
      .run (heap.emit (.resuming frames.length)) (.drive (.settle exit frames) ∅ finish)
  | .conclude exit finish => concludeTurn heap exit finish
  | .submit scheduler work => submitTurn heap scheduler work
  | .perform (.register r handoff) =>
      .call heap (.register r (.node handoff)) (.guarding handoff r)
  | .perform (.interpret node finish) => .run heap (.drive (.start node) ∅ finish)
  | .perform (.user f) => .discard heap (.call f [])
  | .report scheduler failure => reportTurn heap scheduler failure
  | .register r target => registerTurn heap target r
  | .invoke (.node handoff) outcome =>
      .run heap (.deliver handoff (.settled outcome) .completion)
  | .invoke (.user value error f) outcome =>
      .discard heap (.call f [.ofOutcome value error outcome])
  | .fill id v =>
      match heap.promises[id]? with
      | none => .ret heap .unit
      | some promise =>
          match promise.write v with
          | (promise, true) => .run (heap.setPromise id promise) (.take id v)
          | (promise, false) => .ret heap (.err .unit promise.ty v)
  | .take id v =>
      match heap.promises[id]? with
      | none => .ret heap .unit
      | some promise =>
          let (promise, subscribers) := promise.take
          .run (heap.setPromise id promise) (.wake id v subscribers)
  | .wake id v subscribers =>
      ⟨heap, [], .run (.notify id v subscribers none), some (.promise id), none⟩
  | .notify _ v [] none => .ret heap (.ok .unit v.ty .unit)
  | .notify _ _ [] (some payload) => .raise (heap.emit .subscriberPanicked) payload
  | .notify id v (subscriber :: rest) first =>
      .call heap (.tell subscriber v) (.notifying id v rest first)
  | .tell subscriber v => tellTurn heap v subscriber
  | .subscribe id subscriber =>
      match heap.promises[id]? with
      | none => .ret heap .unit
      | some promise =>
          match promise.subscribe subscriber with
          | (promise, none) => .ret (heap.setPromise id promise) .unit
          | (_, some v) => .call heap (.tell subscriber v) (.holding [.promise id])
  | .await id =>
      match heap.promised? id with
      | some v => .ret heap v
      | none => .sleep heap (.gate (.promise id) none) (.await id) (.await id)
  | .awaitUntil id time =>
      match heap.promised? id with
      | some v => .ret heap (.present v.ty v)
      | none => .sleep heap (.gate (.promise id) (some time)) (.awaitUntil id time) (.peek id)
  | .peek id =>
      match heap.promises[id]? with
      | none => .ret heap (.absent .unit)
      | some promise =>
          match promise.value with
          | some v => .ret heap (.present promise.ty v)
          | none => .ret heap (.absent promise.ty)
  | .receive value error channel warning =>
      match heap.received? channel with
      | some (.settled outcome) => .ret heap (.ofOutcome value error outcome)
      | some (.panicked payload) => .raise heap payload
      | none =>
          .sleep heap (.channel channel) (.receive value error channel warning) (.lost warning)
  | .lost warning => .sleep (heap.emit warning) .forever (.give .unit) (.give .unit)
  | .collect value error future channel =>
      match heap.received? channel with
      | some (.settled outcome) =>
          .ret (heap.setFuture future .finished)
            (.present (.result value error) (.ofOutcome value error outcome))
      | some (.panicked payload) => .raise (heap.setFuture future .finished) payload
      | none =>
          .sleep heap (.sender channel) (.give (.absent (.result value error)))
            (.hang value error future channel)
  | .hang value error future channel =>
      if (heap.received? channel).isSome then .run heap (.collect value error future channel)
      else
        .ret ((heap.emit .pendingForever).setFuture future .hung)
          (.absent (.result value error))

end Task

namespace Return

/-- The reader's view of a fiber's slot. -/
def readTurn (heap : Heap H.Data H.Fn) : Value H.Data H.Fn → Turn H
  | .slot value error s =>
      match s.read with
      | .ok outcome => .ret heap (.ofOutcome value error outcome)
      | .error payload => .raise heap payload
  | .present _ (.slot value error s) =>
      match s.read with
      | .ok outcome =>
          .ret heap (.present (.result value error) (.ofOutcome value error outcome))
      | .error payload => .raise heap payload
  | .absent (.slot value error) => .ret heap (.absent (.result value error))
  | v => .ret heap v

/-- A rejected slot as the outcome that was offered. -/
def giveBack {D F : Type} : Value D F → Value D F
  | .err _ _ (.slot value error (.ok v)) =>
      .err .unit (.result value error) (.ok value error v)
  | .err _ _ (.slot value error (.err v)) =>
      .err .unit (.result value error) (.err value error v)
  | v => v

/-- Goes back with a reply. -/
def resume (heap : Heap H.Data H.Fn) (v : Value H.Data H.Fn) : Return H → Turn H
  | .user code => .run heap (.user code (.value v))
  | .answering post frames last _ finish =>
      .run heap (.drive (Interpretation.reply post frames (.ok v)) last finish)
  | .guarded _ => .ret heap .unit
  | .guarding _ _ => .ret heap .unit
  | .holding _ => .ret heap v
  | .driving => .ret heap v
  | .after task => .run heap task
  | .polling value error future channel => .run heap (.collect value error future channel)
  | .notifying id w subscribers first => .run heap (.notify id w subscribers first)
  | .reading => readTurn heap v
  | .givingBack => .ret heap (giveBack v)

/-- Goes back with a panic. Host code, an interpretation, a boundary and the completion of a promise
catch it. -/
def unwind (heap : Heap H.Data H.Fn) (payload : Payload) : Return H → Turn H
  | .user code => .run heap (.user code (.raised payload))
  | .answering post frames last _ finish =>
      .run heap (.drive (Interpretation.reply post frames (.error payload)) last finish)
  | .guarded scheduler =>
      let name := (heap.schedulers[scheduler]?.map Scheduler.reportName).getD ""
      .run heap (.report scheduler (.ofPanic name payload))
  | .guarding handoff r =>
      .call heap (.deliver handoff (.panicked payload) .registration) (.holding (r.kept.onto []))
  | .holding _ => .raise heap payload
  | .driving => .raise heap payload
  | .after _ => .raise heap payload
  | .polling _ _ future _ => .raise (heap.setFuture future .finished) payload
  | .notifying id w subscribers first =>
      .run heap (.notify id w subscribers (some (first.getD payload)))
  | .reading => .raise heap payload
  | .givingBack => .raise heap payload

end Return

end Trampoline
