import Trampoline.Proofs.Handovers

/-!
Where things come from. A task that goes on with an interpretation, completes a promise or a
callback, or has a unit of work in hand, is handed on by another such task; and promises and
channels change in a few turns only. What threads have in hand is traced back by these cases.
-/

namespace Trampoline

variable {H : Host}

/-- Whether a task has neither an interpretation nor a promise, a callback or work in hand. -/
def Task.IsMinor : Task H → Prop
  | .give _ => True
  | .user _ _ => True
  | .call _ _ => True
  | .request _ => True
  | .answer _ => True
  | .report _ _ => True
  | .await _ => True
  | .awaitUntil _ _ => True
  | .peek _ => True
  | .receive _ _ _ _ => True
  | .lost _ => True
  | .collect _ _ _ _ => True
  | .hang _ _ _ _ => True
  | _ => False

/-- The tasks with which a return goes on. -/
def Return.held : Return H → List (Task H)
  | .after task => [task]
  | .polling value error future channel => [.collect value error future channel]
  | .notifying id v subscribers first => [.notify id v subscribers first]
  | _ => []

def Control.held : Control H → List (Task H)
  | .run task => [task]
  | .asleep _ woken missed => [woken, missed]
  | .ret _ => []
  | .raise _ => []

/-- The tasks that a thread has in hand. -/
def Thread.held (thread : Thread H) : List (Task H) :=
  thread.control.held ++ thread.stack.flatMap Return.held

def Turn.held (turn : Turn H) : List (Task H) :=
  turn.control.held ++ turn.pushed.flatMap Return.held ++ (turn.born.map Thread.held).getD []

/-- The tasks that a request of the host leads to. -/
inductive Request.Hands (heap : Heap H.Data H.Fn) : Request H.Data H.Fn → Task H → Prop where
  | runBlocking {value error : Ty} {node : Node H.Data H.Fn} :
      Hands heap (.runBlocking value error node)
        (.drive (.start node) ∅ (.channel value error heap.channels.size))
  | runWith {value error : Ty} {node : Node H.Data H.Fn} {target : Callback H.Fn} :
      Hands heap (.runWith value error node target)
        (.drive (.start node) ∅ (.callback value error target))
  | runFiber {value error : Ty} {node : Node H.Data H.Fn} {scheduler : SchedulerId} :
      Hands heap (.runFiber value error node scheduler)
        (.submit scheduler
          (.interpret node (.fiber value error heap.promises.size scheduler)))
  | poll {value error : Ty} {future : FutureId} {node : Node H.Data H.Fn} :
      heap.futures[future]? = some (.fresh node) →
        Hands heap (.poll value error future)
          (.drive (.start node) ∅ (.channel value error heap.channels.size))
  | blockOn {value error : Ty} {node : Node H.Data H.Fn} :
      Hands heap (.blockOn value error node)
        (.drive (.start node) ∅ (.channel value error heap.channels.size))
  | complete {target : Callback H.Fn} {outcome : Outcome H.Data H.Fn} :
      Hands heap (.complete target outcome) (.invoke target outcome)
  | fill {promise : PromiseId} {v : Value H.Data H.Fn} :
      Hands heap (.fill promise v) (.fill promise v)
  | subscribe {promise : PromiseId} {f : Owned H.Fn} :
      Hands heap (.subscribe promise f) (.subscribe promise (.user f))
  | completedFiber {value error : Ty} {outcome : Outcome H.Data H.Fn} :
      Hands heap (.completedFiber value error outcome)
        (.fill heap.promises.size (.slot value error (.ofOutcome outcome)))
  | fillFiber {value error : Ty} {fiber : PromiseId} {outcome : Outcome H.Data H.Fn} :
      Hands heap (.fillFiber value error fiber outcome)
        (.fill fiber (.slot value error (.ofOutcome outcome)))
  | observe {value error : Ty} {fiber : PromiseId} {target : Callback H.Fn} :
      Hands heap (.observe value error fiber target)
        (.subscribe fiber (.observe value error target))
  | submit {scheduler : SchedulerId} {work : Work H.Data H.Fn} :
      Hands heap (.submit scheduler work) (.submit scheduler work)
  | perform {work : Work H.Data H.Fn} : Hands heap (.perform work) (.perform work)

/-- The tasks that a task leads to in one turn. -/
inductive Task.Hands (heap : Heap H.Data H.Fn) : Task H → Task H → Prop where
  | minor {task task' : Task H} : task'.IsMinor → Hands heap task task'
  | request {q : Request H.Data H.Fn} {task' : Task H} :
      q.Hands heap task' → Hands heap (.request q) task'
  | next {i j : Interpretation H.Data H.Fn} {last : Kept} {finish : Finish H.Fn} :
      i.step = .next j → Hands heap (.drive i last finish) (.drive j (i.latest last) finish)
  | suspend {i : Interpretation H.Data H.Fn} {last : Kept} {finish : Finish H.Fn}
      {r : Register H.Fn} {scheduler : SchedulerId} {frames : List (Frame H.Data H.Fn)} :
      i.step = .suspend r scheduler frames →
        Hands heap (.drive i last finish) (.submit scheduler (.register r heap.handoffs.size))
  | leave {i : Interpretation H.Data H.Fn} {last : Kept} {finish : Finish H.Fn}
      {r : Register H.Fn} {scheduler : SchedulerId} {frames : List (Frame H.Data H.Fn)} :
      i.step = .suspend r scheduler frames →
        Hands heap (.drive i last finish)
          (.park heap.handoffs.size frames (i.latest last) finish)
  | finish {i : Interpretation H.Data H.Fn} {last : Kept} {finish : Finish H.Fn}
      {exit : Exit (Outcome H.Data H.Fn)} :
      i.step = .finish exit → Hands heap (.drive i last finish) (.conclude exit finish)
  | fork {value error : Ty} {source : Node H.Data H.Fn} {scheduler : SchedulerId} :
      Hands heap (.answer (.fork value error source scheduler))
        (.submit scheduler
          (.interpret source (.fiber value error heap.promises.size scheduler)))
  | inline {id : HandoffId} {s : ThreadId} {exit : Exit (Outcome H.Data H.Fn)}
      {frames : List (Frame H.Data H.Fn)} {last : Kept} {finish : Finish H.Fn} :
      heap.handoffs[id]? = some ⟨s, .early exit⟩ →
        Hands heap (.park id frames last finish) (.drive (.settle exit frames) last finish)
  | resume {exit : Exit (Outcome H.Data H.Fn)} {frames : List (Frame H.Data H.Fn)}
      {finish : Finish H.Fn} :
      Hands heap (.resume exit frames finish) (.drive (.settle exit frames) ∅ finish)
  /-- A thread that sleeps at a node offers its exit again. -/
  | deliver {id : HandoffId} {exit : Exit (Outcome H.Data H.Fn)} {origin : Origin} :
      Hands heap (.deliver id exit origin) (.deliver id exit origin)
  | accept {id : HandoffId} {s : ThreadId} {exit : Exit (Outcome H.Data H.Fn)} {origin : Origin}
      {frames : List (Frame H.Data H.Fn)} {finish : Finish H.Fn} :
      heap.handoffs[id]? = some ⟨s, .parked frames finish⟩ →
        Hands heap (.deliver id exit origin) (.resume exit frames finish)
  | callback {exit : Exit (Outcome H.Data H.Fn)} {value error : Ty} {target : Callback H.Fn}
      {outcome : Outcome H.Data H.Fn} :
      exit.restore value error = .ok outcome →
        Hands heap (.conclude exit (.callback value error target)) (.invoke target outcome)
  | mark {payload : Payload} {value error : Ty} {fiber : PromiseId} {reporter : SchedulerId} :
      Hands heap (.conclude (.panicked payload) (.fiber value error fiber reporter))
        (.fill fiber (.slot value error (.panicked (.ofPanic "fiber" payload))))
  | record {outcome outcome' : Outcome H.Data H.Fn} {value error : Ty} {fiber : PromiseId}
      {reporter : SchedulerId} :
      (Exit.settled outcome).restore value error = .ok outcome' →
        Hands heap (.conclude (.settled outcome) (.fiber value error fiber reporter))
          (.fill fiber (.slot value error (.ofOutcome outcome')))
  | submit {scheduler : SchedulerId} {work : Work H.Data H.Fn} :
      Hands heap (.submit scheduler work) (.perform work)
  | register {r : Register H.Fn} {id : HandoffId} :
      Hands heap (.perform (.register r id)) (.register r (.node id))
  | interpret {node : Node H.Data H.Fn} {finish : Finish H.Fn} :
      Hands heap (.perform (.interpret node finish)) (.drive (.start node) ∅ finish)
  | join {value error : Ty} {fiber : PromiseId} {target : Callback H.Fn} :
      Hands heap (.register (.join value error fiber) target)
        (.subscribe fiber (.join value error target))
  | sleep {nanoseconds : Nat} {target : Callback H.Fn} :
      Hands heap (.register (.sleep nanoseconds) target) (.invoke target (.ok .unit))
  | invoke {id : HandoffId} {outcome : Outcome H.Data H.Fn} :
      Hands heap (.invoke (.node id) outcome) (.deliver id (.settled outcome) .completion)
  | fill {id : PromiseId} {v : Value H.Data H.Fn} {promise : Promise H.Data H.Fn} :
      heap.promises[id]? = some promise → promise.value = none →
        Hands heap (.fill id v) (.take id v)
  | take {id : PromiseId} {v : Value H.Data H.Fn} {promise : Promise H.Data H.Fn} :
      heap.promises[id]? = some promise →
        Hands heap (.take id v) (.wake id v promise.subscribers.reverse)
  | wake {id : PromiseId} {v : Value H.Data H.Fn} {subscribers : List (Subscriber H.Fn)} :
      Hands heap (.wake id v subscribers) (.notify id v subscribers none)
  | tell {id : PromiseId} {v : Value H.Data H.Fn} {subscriber : Subscriber H.Fn}
      {rest : List (Subscriber H.Fn)} {first : Option Payload} :
      Hands heap (.notify id v (subscriber :: rest) first) (.tell subscriber v)
  | rest {id : PromiseId} {v : Value H.Data H.Fn} {subscriber : Subscriber H.Fn}
      {rest : List (Subscriber H.Fn)} {first : Option Payload} :
      Hands heap (.notify id v (subscriber :: rest) first) (.notify id v rest first)
  | joined {value error : Ty} {target : Callback H.Fn} {v : Value H.Data H.Fn} :
      Hands heap (.tell (.join value error target) v) (.invoke target (.ok v))
  | observed {value error value' error' : Ty} {target : Callback H.Fn} {s : Slot H.Data H.Fn}
      {outcome : Outcome H.Data H.Fn} :
      s.read = .ok outcome →
        Hands heap (.tell (.observe value error target) (.slot value' error' s))
          (.invoke target outcome)
  | subscribe {id : PromiseId} {subscriber : Subscriber H.Fn} {v : Value H.Data H.Fn} :
      heap.promised? id = some v → Hands heap (.subscribe id subscriber) (.tell subscriber v)

/-- Whether everything that a turn has in hand comes from a task. -/
def Turn.Hands (heap : Heap H.Data H.Fn) (task : Task H) (turn : Turn H) : Prop :=
  ∀ task' ∈ turn.held, task.Hands heap task'

namespace Turn

variable {heap heap' : Heap H.Data H.Fn} {task : Task H}

theorem hands_ret {v : Value H.Data H.Fn} : (Turn.ret (H := H) heap' v).Hands heap task := by
  simp [Hands, held, ret, Control.held]

theorem hands_raise {payload : Payload} : (Turn.raise (H := H) heap' payload).Hands heap task := by
  simp [Hands, held, raise, Control.held]

theorem hands_run {next : Task H} (h : task.Hands heap next) :
    (Turn.run heap' next).Hands heap task := by
  simpa [Hands, held, run, Control.held] using h

theorem hands_call {next : Task H} {back : Return H} (h : task.Hands heap next)
    (hback : ∀ task' ∈ back.held, task.Hands heap task') :
    (Turn.call heap' next back).Hands heap task := by
  intro task' hmem
  rcases List.mem_cons.1 (by simpa [held, call, Control.held] using hmem) with rfl | hmem
  · exact h
  · exact hback task' hmem

theorem hands_seq {next after : Task H} (h : task.Hands heap next) (h' : task.Hands heap after) :
    (Turn.seq heap' next after).Hands heap task :=
  hands_call h (by simpa [Return.held] using h')

theorem hands_discard {next : Task H} (h : task.Hands heap next) :
    (Turn.discard heap' next).Hands heap task :=
  hands_seq h (.minor trivial)

theorem hands_sleep {wait : Wait H} {woken missed : Task H} (h : task.Hands heap woken)
    (h' : task.Hands heap missed) : (Turn.sleep heap' wait woken missed).Hands heap task := by
  simpa [Hands, held, sleep, Control.held] using ⟨h, h'⟩

theorem hands_born {v : Value H.Data H.Fn} {name : Option String} {first : Task H}
    {stack : List (Return H)} (h : task.Hands heap first)
    (hstack : stack.flatMap Return.held = []) :
    (⟨heap', [], .ret v, none, some (.starting name first stack)⟩ : Turn H).Hands heap task := by
  simpa [Hands, held, Control.held, Thread.held, Thread.starting, hstack] using h

end Turn

open Turn

variable {heap : Heap H.Data H.Fn} {here : Here} {stack : List (Return H)}

theorem Ask.turn_hands (question : Ask H.Data H.Fn) :
    (question.turn here heap).Hands heap (.answer question) := by
  cases question with
  | call f args => exact hands_run (.minor trivial)
  | fork value error source scheduler => exact hands_seq .fork (.minor trivial)
  | print line => exact hands_ret
  | threadName => exact hands_ret
  | emit event => exact hands_ret
  | clock event => exact hands_ret

theorem Request.turn_hands (q : Request H.Data H.Fn) :
    (q.turn stack heap).Hands heap (.request q) := by
  cases q with
  | runBlocking value error node => exact hands_seq (.request .runBlocking) (.minor trivial)
  | runWith value error node target => exact hands_discard (.request .runWith)
  | runFiber value error node scheduler => exact hands_seq (.request .runFiber) (.minor trivial)
  | runAsync value error node => exact hands_ret
  | poll value error future =>
      simp only [turn]
      split
      · rename_i hfresh
        refine hands_call (.request (.poll hfresh)) fun task hmem => ?_
        obtain rfl := List.mem_singleton.1 hmem
        exact .minor trivial
      · exact hands_run (.minor trivial)
      · exact hands_ret
      · exact hands_raise
      · exact hands_ret
  | dropFuture future =>
      simp only [turn]
      split
      · exact hands_ret
      · exact hands_ret
  | blockOn value error node =>
      simp only [turn]
      split
      · exact hands_raise
      · intro task hmem
        rcases (by simpa [Turn.held, Control.held, Return.held] using hmem) with rfl | rfl
        · exact .request .blockOn
        · exact .minor trivial
  | complete target outcome => exact hands_discard (.request .complete)
  | newPromise ty => exact hands_ret
  | fill promise v => exact hands_run (.request .fill)
  | await promise => exact hands_run (.minor trivial)
  | awaitFor promise nanoseconds =>
      simp only [turn]
      split
      · exact hands_run (.minor trivial)
      · exact hands_raise
  | subscribe promise f => exact hands_run (.request .subscribe)
  | newFiber value error => exact hands_ret
  | completedFiber value error outcome =>
      exact hands_seq (.request .completedFiber) (.minor trivial)
  | fillFiber value error fiber outcome =>
      exact hands_call (.request .fillFiber) (by simp [Return.held])
  | awaitFiber fiber => exact hands_call (.minor trivial) (by simp [Return.held])
  | awaitFiberFor fiber nanoseconds =>
      simp only [turn]
      split
      · exact hands_call (.minor trivial) (by simp [Return.held])
      · exact hands_raise
  | observe value error fiber target => exact hands_run (.request .observe)
  | submit scheduler work => exact hands_run (.request .submit)
  | report scheduler failure => exact hands_run (.minor trivial)
  | perform work => exact hands_run (.request .perform)
  | spawn name f =>
      simp only [turn]
      split
      · exact hands_raise
      · exact hands_born (.minor trivial) rfl

namespace Task

theorem submitTurn_hands (id : SchedulerId) (work : Work H.Data H.Fn) :
    (submitTurn (H := H) heap id work).Hands heap (.submit id work) := by
  simp only [submitTurn]
  split
  · exact hands_call .submit (by simp [Return.held])
  · exact hands_call .submit (by simp [Return.held])
  · split
    · exact hands_raise
    · split
      · exact hands_run (.minor trivial)
      · exact hands_born .submit rfl
  · exact hands_born .submit rfl
  · exact hands_discard (.minor trivial)
  · exact hands_ret

theorem reportTurn_hands (id : SchedulerId) (failure : WorkFailure) :
    (reportTurn (H := H) heap id failure).Hands heap (.report id failure) := by
  simp only [reportTurn]
  split
  · split
    · exact hands_ret
    · exact hands_discard (.minor trivial)
    · exact hands_ret
  · exact hands_ret

theorem concludeTurn_hands (exit : Exit (Outcome H.Data H.Fn)) (finish : Finish H.Fn) :
    (concludeTurn (H := H) heap exit finish).Hands heap (.conclude exit finish) := by
  cases finish with
  | callback value error target =>
      simp only [concludeTurn]
      split
      · rename_i hrestore
        exact hands_run (.callback hrestore)
      · exact hands_raise
  | channel value error channel =>
      simp only [concludeTurn]
      split
      · exact hands_ret
      · split
        · exact hands_ret
        · exact hands_raise
  | fiber value error fiber reporter =>
      simp only [concludeTurn]
      split
      · intro task hmem
        rcases (by simpa [Turn.held, Control.held, Return.held] using hmem) with rfl | rfl | rfl
        · exact .minor trivial
        · exact .mark
        · exact .minor trivial
      · split
        · rename_i hrestore
          exact hands_discard (.record hrestore)
        · exact hands_raise

theorem deliverTurn_hands (id : HandoffId) (exit : Exit (Outcome H.Data H.Fn)) (origin : Origin) :
    (deliverTurn (H := H) here heap id exit origin).Hands heap (.deliver id exit origin) := by
  simp only [deliverTurn]
  cases hhandoff : heap.handoffs[id]? with
  | none => exact hands_ret
  | some handoff =>
      obtain ⟨s, phase⟩ := handoff
      cases phase with
      | submitting =>
          by_cases hs : here.thread = s
          · simp only [Handoff.offer, hs, if_true]
            exact hands_ret
          · simp only [Handoff.offer, hs, if_false]
            exact hands_sleep .deliver .deliver
      | parked frames finish => exact hands_run (.accept hhandoff)
      | early exit' =>
          simp only [Handoff.offer]
          split
          · exact hands_raise
          · exact hands_ret
      | resumed =>
          simp only [Handoff.offer]
          split
          · exact hands_raise
          · exact hands_ret

theorem parkTurn_hands (id : HandoffId) (frames : List (Frame H.Data H.Fn)) (last : Kept)
    (finish : Finish H.Fn) :
    (parkTurn (H := H) heap id frames last finish).Hands heap (.park id frames last finish) := by
  simp only [parkTurn]
  cases hhandoff : heap.handoffs[id]? with
  | none => exact hands_ret
  | some handoff =>
      obtain ⟨s, phase⟩ := handoff
      cases phase with
      | early exit => exact hands_run (.inline hhandoff)
      | _ => simp [Handoff.leave, Turn.Hands, Turn.held, Control.held]

theorem driveTurn_hands (i : Interpretation H.Data H.Fn) (last : Kept) (finish : Finish H.Fn) :
    (driveTurn (H := H) here heap i last finish).Hands heap (.drive i last finish) := by
  simp only [driveTurn]
  cases hstep : i.step with
  | next j => exact hands_run (.next hstep)
  | ask question post frames => exact hands_call (.minor trivial) (by simp [Return.held])
  | suspend r scheduler frames => exact hands_seq (.suspend hstep) (.leave hstep)
  | finish exit => exact hands_call (.finish hstep) (by simp [Return.held])

theorem registerTurn_hands (target : Callback H.Fn) (r : Register H.Fn) :
    (registerTurn (H := H) heap target r).Hands heap (.register r target) := by
  cases r with
  | user value error f => exact hands_discard (.minor trivial)
  | join value error fiber => exact hands_run .join
  | sleep nanoseconds => exact hands_sleep .sleep .sleep
  | never => exact hands_ret

theorem tellTurn_hands (v : Value H.Data H.Fn) (subscriber : Subscriber H.Fn) :
    (tellTurn (H := H) heap v subscriber).Hands heap (.tell subscriber v) := by
  cases subscriber with
  | user f => exact hands_discard (.minor trivial)
  | join value error target => exact hands_run .joined
  | observe value error target =>
      simp only [tellTurn]
      split
      · split
        · rename_i hread
          exact hands_run (.observed hread)
        · exact hands_raise
      · exact hands_raise

theorem turn_hands (task : Task H) : (task.turn here stack heap).Hands heap task := by
  cases task with
  | give v => exact hands_ret
  | user code reply => exact hands_run (.minor trivial)
  | call f args => exact hands_run (.minor trivial)
  | request q => exact q.turn_hands
  | drive i last finish => exact driveTurn_hands i last finish
  | answer question => exact question.turn_hands
  | park id frames last finish => exact parkTurn_hands id frames last finish
  | deliver id exit origin => exact deliverTurn_hands id exit origin
  | resume exit frames finish => exact hands_run .resume
  | conclude exit finish => exact concludeTurn_hands exit finish
  | submit scheduler work => exact submitTurn_hands scheduler work
  | perform work =>
      cases work with
      | register r id => exact hands_call .register (by simp [Return.held])
      | interpret node finish => exact hands_run .interpret
      | user f => exact hands_discard (.minor trivial)
  | report scheduler failure => exact reportTurn_hands scheduler failure
  | register r target => exact registerTurn_hands target r
  | invoke target outcome =>
      cases target with
      | node id => exact hands_run .invoke
      | user value error f => exact hands_discard (.minor trivial)
  | fill id v =>
      simp only [turn]
      cases hpromise : heap.promises[id]? with
      | none => exact hands_ret
      | some promise =>
          obtain ⟨ty, value, subscribers⟩ := promise
          cases value with
          | none => exact hands_run (.fill hpromise rfl)
          | some v' => exact hands_ret
  | take id v =>
      simp only [turn]
      cases hpromise : heap.promises[id]? with
      | none => exact hands_ret
      | some promise => exact hands_run (.take hpromise)
  | wake id v subscribers =>
      intro task hmem
      obtain rfl := by simpa [turn, Turn.held, Control.held] using hmem
      exact .wake
  | notify id v subscribers first =>
      cases subscribers with
      | nil =>
          cases first with
          | none => exact hands_ret
          | some payload => exact hands_raise
      | cons subscriber rest => exact hands_call .tell (by simpa [Return.held] using .rest)
  | tell subscriber v => exact tellTurn_hands v subscriber
  | subscribe id subscriber =>
      simp only [turn]
      cases hpromise : heap.promises[id]? with
      | none => exact hands_ret
      | some promise =>
          obtain ⟨ty, value, subscribers⟩ := promise
          cases value with
          | none => exact hands_ret
          | some v =>
              exact hands_call (.subscribe (by simp [Heap.promised?, hpromise]))
                (by simp [Return.held])
  | await id =>
      simp only [turn]
      split
      · exact hands_ret
      · exact hands_sleep (.minor trivial) (.minor trivial)
  | awaitUntil id time =>
      simp only [turn]
      split
      · exact hands_ret
      · exact hands_sleep (.minor trivial) (.minor trivial)
  | peek id =>
      simp only [turn]
      split
      · exact hands_ret
      · split
        · exact hands_ret
        · exact hands_ret
  | receive value error channel warning =>
      simp only [turn]
      split
      · exact hands_ret
      · exact hands_raise
      · exact hands_sleep (.minor trivial) (.minor trivial)
  | lost warning => exact hands_sleep (.minor trivial) (.minor trivial)
  | collect value error future channel =>
      simp only [turn]
      split
      · exact hands_ret
      · exact hands_raise
      · exact hands_sleep (.minor trivial) (.minor trivial)
  | hang value error future channel =>
      simp only [turn]
      split
      · exact hands_run (.minor trivial)
      · exact hands_ret

end Task

/-- The tasks that a return leads to in one turn, with a reply or a panic. -/
inductive Return.Hands : Except Payload (Value H.Data H.Fn) → Return H → Task H → Prop where
  | minor {r : Except Payload (Value H.Data H.Fn)} {back : Return H} {task : Task H} :
      task.IsMinor → Hands r back task
  | answering {r : Except Payload (Value H.Data H.Fn)} {post : Post H.Data H.Fn}
      {frames : List (Frame H.Data H.Fn)} {last applied : Kept} {finish : Finish H.Fn} :
      Hands r (.answering post frames last applied finish)
        (.drive (Interpretation.reply post frames r) last finish)
  | after {v : Value H.Data H.Fn} {task : Task H} : Hands (.ok v) (.after task) task
  | notifying {r : Except Payload (Value H.Data H.Fn)} {id : PromiseId} {v : Value H.Data H.Fn}
      {subscribers : List (Subscriber H.Fn)} {first first' : Option Payload} :
      Hands r (.notifying id v subscribers first) (.notify id v subscribers first')
  /-- The panic of a registration is offered to its node. -/
  | guarding {payload : Payload} {id : HandoffId} {r : Register H.Fn} :
      Hands (.error payload) (.guarding id r) (.deliver id (.panicked payload) .registration)

theorem Return.resume_hands (back : Return H) (v : Value H.Data H.Fn) {task : Task H}
    (h : task ∈ (back.resume heap v).held) : back.Hands (.ok v) task := by
  have hrun {task' : Task H} (hmem : task ∈ (Turn.run heap task').held)
      (hback : back.Hands (.ok v) task') : back.Hands (.ok v) task := by
    obtain rfl := by simpa [Turn.run, Turn.held, Control.held] using hmem
    exact hback
  cases back with
  | user code => exact hrun h (.minor trivial)
  | answering post frames last applied finish => exact hrun h .answering
  | after task => exact hrun h .after
  | polling value error future channel => exact hrun h (.minor trivial)
  | notifying id w subscribers first => exact hrun h .notifying
  | reading =>
      simp only [resume, readTurn] at h
      split at h
      · split at h <;> simp [Turn.ret, Turn.raise, Turn.held, Control.held] at h
      · split at h <;> simp [Turn.ret, Turn.raise, Turn.held, Control.held] at h
      · simp [Turn.ret, Turn.held, Control.held] at h
      · simp [Turn.ret, Turn.held, Control.held] at h
  | _ => simp [resume, Turn.ret, Turn.held, Control.held] at h

theorem Return.unwind_hands (back : Return H) (payload : Payload) {task : Task H}
    (h : task ∈ (back.unwind heap payload).held) : back.Hands (.error payload) task := by
  have hrun {task' : Task H} (hmem : task ∈ (Turn.run heap task').held)
      (hback : back.Hands (.error payload) task') : back.Hands (.error payload) task := by
    obtain rfl := by simpa [Turn.run, Turn.held, Control.held] using hmem
    exact hback
  cases back with
  | user code => exact hrun h (.minor trivial)
  | answering post frames last applied finish => exact hrun h .answering
  | guarded scheduler => exact hrun h (.minor trivial)
  | guarding id r =>
      obtain rfl := by simpa [unwind, Turn.call, Turn.held, Control.held, Return.held] using h
      exact .guarding
  | notifying id w subscribers first => exact hrun h .notifying
  | _ => simp [unwind, Turn.raise, Turn.held, Control.held] at h

theorem Move.turn_hands (move : Move H.Data H.Fn H.Code H.Condition) {task : Task H}
    (h : task ∈ (move.turn heap).held) : task.IsMinor := by
  cases move with
  | run code =>
      obtain rfl := by simpa [turn, Turn.run, Turn.held, Control.held] using h
      trivial
  | ret v => simp [turn, Turn.ret, Turn.held, Control.held] at h
  | raise payload => simp [turn, Turn.raise, Turn.held, Control.held] at h
  | ask q code =>
      obtain rfl := by simpa [turn, Turn.call, Turn.held, Control.held, Return.held] using h
      trivial
  | wait condition deadline code =>
      rcases (by simpa [turn, Turn.sleep, Turn.held, Control.held] using h) with rfl | rfl
      · trivial
      · trivial

/-- What a task's turn makes of promises and channels. -/
inductive Task.Alters (heap : Heap H.Data H.Fn) : Task H → Heap H.Data H.Fn → Prop where
  | nothing {task : Task H} {heap' : Heap H.Data H.Fn} :
      heap'.promises = heap.promises → heap'.channels = heap.channels → Alters heap task heap'
  | newPromise {task : Task H} {heap' : Heap H.Data H.Fn} {ty : Ty} :
      heap'.promises = heap.promises.push (.empty ty) → heap'.channels = heap.channels →
        Alters heap task heap'
  | newChannel {task : Task H} {heap' : Heap H.Data H.Fn} :
      heap'.promises = heap.promises → heap'.channels = heap.channels.push .empty →
        Alters heap task heap'
  | write {id : PromiseId} {v : Value H.Data H.Fn} {ty : Ty}
      {subscribers : List (Subscriber H.Fn)} {heap' : Heap H.Data H.Fn} :
      heap.promises[id]? = some ⟨ty, none, subscribers⟩ →
        heap'.promises = heap.promises.setIfInBounds id ⟨ty, some v, subscribers⟩ →
          heap'.channels = heap.channels → Alters heap (.fill id v) heap'
  | take {id : PromiseId} {v : Value H.Data H.Fn} {ty : Ty} {value : Option (Value H.Data H.Fn)}
      {subscribers : List (Subscriber H.Fn)} {heap' : Heap H.Data H.Fn} :
      heap.promises[id]? = some ⟨ty, value, subscribers⟩ →
        heap'.promises = heap.promises.setIfInBounds id ⟨ty, value, []⟩ →
          heap'.channels = heap.channels → Alters heap (.take id v) heap'
  | keep {id : PromiseId} {subscriber : Subscriber H.Fn} {ty : Ty}
      {subscribers : List (Subscriber H.Fn)} {heap' : Heap H.Data H.Fn} :
      heap.promises[id]? = some ⟨ty, none, subscribers⟩ →
        heap'.promises = heap.promises.setIfInBounds id ⟨ty, none, subscriber :: subscribers⟩ →
          heap'.channels = heap.channels → Alters heap (.subscribe id subscriber) heap'
  | send {value error : Ty} {channel : ChannelId} {exit exit' : Exit (Outcome H.Data H.Fn)}
      {heap' : Heap H.Data H.Fn} :
      (∃ payload, exit = .panicked payload ∧ exit' = .panicked payload) ∨
          (∃ outcome, exit.restore value error = .ok outcome ∧ exit' = .settled outcome) →
        heap'.promises = heap.promises →
          heap'.channels = heap.channels.modify channel (Channel.send exit') →
            Alters heap (.conclude exit (.channel value error channel)) heap'
  | close {future : FutureId} {channel : ChannelId} {heap' : Heap H.Data H.Fn} :
      heap.futures[future]? = some (.running channel) → heap'.promises = heap.promises →
        heap'.channels = heap.channels.setIfInBounds channel .closed →
          Alters heap (.request (.dropFuture future)) heap'

theorem Ask.turn_alters (question : Ask H.Data H.Fn) :
    (Task.answer question).Alters heap (question.turn (H := H) here heap).heap := by
  cases question with
  | fork value error source scheduler => exact .newPromise rfl rfl
  | _ => exact .nothing rfl rfl

theorem Request.turn_alters (q : Request H.Data H.Fn) :
    (Task.request q).Alters heap (q.turn (H := H) stack heap).heap := by
  cases q with
  | runBlocking value error node => exact .newChannel rfl rfl
  | runFiber value error node scheduler => exact .newPromise rfl rfl
  | poll value error future =>
      simp only [turn]
      split
      · exact .newChannel rfl rfl
      · exact .nothing rfl rfl
      · exact .nothing rfl rfl
      · exact .nothing rfl rfl
      · exact .nothing rfl rfl
  | dropFuture future =>
      simp only [turn]
      split
      · rename_i hrunning
        exact .close hrunning rfl rfl
      · exact .nothing rfl rfl
  | blockOn value error node =>
      simp only [turn]
      split
      · exact .nothing rfl rfl
      · exact .newChannel rfl rfl
  | newPromise ty => exact .newPromise rfl rfl
  | newFiber value error => exact .newPromise rfl rfl
  | completedFiber value error outcome => exact .newPromise rfl rfl
  | awaitFor promise nanoseconds =>
      simp only [turn]
      split
      · exact .nothing rfl rfl
      · exact .nothing rfl rfl
  | awaitFiberFor fiber nanoseconds =>
      simp only [turn]
      split
      · exact .nothing rfl rfl
      · exact .nothing rfl rfl
  | spawn name f =>
      simp only [turn]
      split
      · exact .nothing rfl rfl
      · exact .nothing rfl rfl
  | _ => exact .nothing rfl rfl

namespace Task

theorem submitTurn_alters (id : SchedulerId) (work : Work H.Data H.Fn) :
    (Task.submit id work).Alters heap (submitTurn (H := H) heap id work).heap := by
  simp only [submitTurn]
  split
  · exact .nothing rfl rfl
  · exact .nothing rfl rfl
  · split
    · exact .nothing rfl rfl
    · split
      · exact .nothing rfl rfl
      · exact .nothing rfl rfl
  · exact .nothing rfl rfl
  · exact .nothing rfl rfl
  · exact .nothing rfl rfl

theorem reportTurn_alters (id : SchedulerId) (failure : WorkFailure) :
    (Task.report id failure).Alters heap (reportTurn (H := H) heap id failure).heap := by
  simp only [reportTurn]
  split
  · split
    · exact .nothing rfl rfl
    · exact .nothing rfl rfl
    · exact .nothing rfl rfl
  · exact .nothing rfl rfl

theorem concludeTurn_alters (exit : Exit (Outcome H.Data H.Fn)) (finish : Finish H.Fn) :
    (Task.conclude exit finish).Alters heap (concludeTurn (H := H) heap exit finish).heap := by
  cases finish with
  | callback value error target =>
      simp only [concludeTurn]
      split
      · exact .nothing rfl rfl
      · exact .nothing rfl rfl
  | channel value error channel =>
      simp only [concludeTurn]
      split
      · exact .send (.inl ⟨_, rfl, rfl⟩) rfl rfl
      · split
        · rename_i hrestore
          exact .send (.inr ⟨_, hrestore, rfl⟩) rfl rfl
        · exact .nothing rfl rfl
  | fiber value error fiber reporter =>
      simp only [concludeTurn]
      split
      · exact .nothing rfl rfl
      · split
        · exact .nothing rfl rfl
        · exact .nothing rfl rfl

theorem deliverTurn_alters (id : HandoffId) (exit : Exit (Outcome H.Data H.Fn))
    (origin : Origin) :
    (Task.deliver id exit origin).Alters heap
      (deliverTurn (H := H) here heap id exit origin).heap := by
  simp only [deliverTurn]
  split
  · exact .nothing rfl rfl
  · split
    · exact .nothing rfl rfl
    · exact .nothing rfl rfl
    · exact .nothing rfl rfl
    · split
      · exact .nothing rfl rfl
      · exact .nothing rfl rfl

theorem parkTurn_alters (id : HandoffId) (frames : List (Frame H.Data H.Fn)) (last : Kept)
    (finish : Finish H.Fn) :
    (Task.park id frames last finish).Alters heap
      (parkTurn (H := H) heap id frames last finish).heap := by
  simp only [parkTurn]
  split
  · exact .nothing rfl rfl
  · split
    · exact .nothing rfl rfl
    · exact .nothing rfl rfl

theorem driveTurn_alters (i : Interpretation H.Data H.Fn) (last : Kept) (finish : Finish H.Fn) :
    (Task.drive i last finish).Alters heap
      (driveTurn (H := H) here heap i last finish).heap := by
  simp only [driveTurn]
  split
  · exact .nothing rfl rfl
  · exact .nothing rfl rfl
  · exact .nothing rfl rfl
  · exact .nothing rfl rfl

theorem tellTurn_alters (v : Value H.Data H.Fn) (subscriber : Subscriber H.Fn) :
    (Task.tell subscriber v).Alters heap (tellTurn (H := H) heap v subscriber).heap := by
  cases subscriber with
  | observe value error target =>
      simp only [tellTurn]
      split
      · split
        · exact .nothing rfl rfl
        · exact .nothing rfl rfl
      · exact .nothing rfl rfl
  | _ => exact .nothing rfl rfl

theorem turn_alters (task : Task H) : task.Alters heap (task.turn here stack heap).heap := by
  cases task with
  | request q => exact q.turn_alters
  | drive i last finish => exact driveTurn_alters i last finish
  | answer question => exact question.turn_alters
  | park id frames last finish => exact parkTurn_alters id frames last finish
  | deliver id exit origin => exact deliverTurn_alters id exit origin
  | conclude exit finish => exact concludeTurn_alters exit finish
  | submit scheduler work => exact submitTurn_alters scheduler work
  | perform work => cases work <;> exact .nothing rfl rfl
  | report scheduler failure => exact reportTurn_alters scheduler failure
  | register r target => cases r <;> exact .nothing rfl rfl
  | invoke target outcome => cases target <;> exact .nothing rfl rfl
  | fill id v =>
      simp only [turn]
      cases hpromise : heap.promises[id]? with
      | none => exact .nothing rfl rfl
      | some promise =>
          obtain ⟨ty, value, subscribers⟩ := promise
          cases value with
          | none => exact .write hpromise rfl rfl
          | some v' => exact .nothing rfl rfl
  | take id v =>
      simp only [turn]
      cases hpromise : heap.promises[id]? with
      | none => exact .nothing rfl rfl
      | some promise => exact .take hpromise rfl rfl
  | notify id v subscribers first =>
      cases subscribers with
      | nil => cases first <;> exact .nothing rfl rfl
      | cons subscriber rest => exact .nothing rfl rfl
  | tell subscriber v => exact tellTurn_alters v subscriber
  | subscribe id subscriber =>
      simp only [turn]
      cases hpromise : heap.promises[id]? with
      | none => exact .nothing rfl rfl
      | some promise =>
          obtain ⟨ty, value, subscribers⟩ := promise
          cases value with
          | none => exact .keep hpromise rfl rfl
          | some v => exact .nothing rfl rfl
  | await id =>
      simp only [turn]
      split
      · exact .nothing rfl rfl
      · exact .nothing rfl rfl
  | awaitUntil id time =>
      simp only [turn]
      split
      · exact .nothing rfl rfl
      · exact .nothing rfl rfl
  | peek id =>
      simp only [turn]
      split
      · exact .nothing rfl rfl
      · split
        · exact .nothing rfl rfl
        · exact .nothing rfl rfl
  | receive value error channel warning =>
      simp only [turn]
      split
      · exact .nothing rfl rfl
      · exact .nothing rfl rfl
      · exact .nothing rfl rfl
  | collect value error future channel =>
      simp only [turn]
      split
      · exact .nothing rfl rfl
      · exact .nothing rfl rfl
      · exact .nothing rfl rfl
  | hang value error future channel =>
      simp only [turn]
      split
      · exact .nothing rfl rfl
      · exact .nothing rfl rfl
  | _ => exact .nothing rfl rfl

/-- Whether a task has nothing to do with futures or schedulers. -/
def IsLocal : Task H → Prop
  | .request _ => False
  | .submit _ _ => False
  | .report _ _ => False
  | .collect _ _ _ _ => False
  | .hang _ _ _ _ => False
  | _ => True

end Task

/-- Two heaps that differ neither in their futures nor in their schedulers nor in their time. -/
structure Heap.IsLike {D F : Type} (heap heap' : Heap D F) : Prop where
  futures : heap'.futures = heap.futures
  schedulers : heap'.schedulers = heap.schedulers
  clock : heap'.clock = heap.clock

theorem Task.IsLocal.isLike {task : Task H} (h : task.IsLocal) :
    heap.IsLike (task.turn here stack heap).heap := by
  cases task with
  | request q => exact h.elim
  | submit scheduler work => exact h.elim
  | report scheduler failure => exact h.elim
  | collect value error future channel => exact h.elim
  | hang value error future channel => exact h.elim
  | answer question => cases question <;> exact ⟨rfl, rfl, rfl⟩
  | drive i last finish => simp only [turn, driveTurn]; split <;> exact ⟨rfl, rfl, rfl⟩
  | park id frames last finish =>
      simp only [turn, parkTurn]; (repeat' split) <;> exact ⟨rfl, rfl, rfl⟩
  | deliver id exit origin =>
      simp only [turn, deliverTurn]; (repeat' split) <;> exact ⟨rfl, rfl, rfl⟩
  | conclude exit finish =>
      simp only [turn, concludeTurn]; (repeat' split) <;> exact ⟨rfl, rfl, rfl⟩
  | tell subscriber v => simp only [turn, tellTurn]; (repeat' split) <;> exact ⟨rfl, rfl, rfl⟩
  | perform work => cases work <;> exact ⟨rfl, rfl, rfl⟩
  | register register target => cases register <;> exact ⟨rfl, rfl, rfl⟩
  | invoke target outcome => cases target <;> exact ⟨rfl, rfl, rfl⟩
  | notify id v subscribers first =>
      cases subscribers <;> cases first <;> exact ⟨rfl, rfl, rfl⟩
  | _ => simp only [turn]; (repeat' split) <;> exact ⟨rfl, rfl, rfl⟩

theorem Return.resume_heap (back : Return H) (v : Value H.Data H.Fn) :
    (back.resume heap v).heap = heap := by
  cases back with
  | reading =>
      simp only [resume, readTurn]
      split
      · split <;> rfl
      · split <;> rfl
      · rfl
      · rfl
  | _ => rfl

/-- A panic changes shared objects only where it passes the first poll of a future. -/
theorem Return.unwind_heap (back : Return H) (payload : Payload) :
    (back.unwind heap payload).heap = heap ∨ ∃ value error future channel,
      back = .polling value error future channel ∧
        (back.unwind heap payload).heap = heap.setFuture future .finished := by
  cases back with
  | polling value error future channel => exact .inr ⟨value, error, future, channel, rfl, rfl⟩
  | _ => exact .inl rfl

theorem Move.turn_heap (move : Move H.Data H.Fn H.Code H.Condition) :
    (move.turn heap).heap = heap := by
  cases move <;> rfl

/-- The tasks that a thread comes to have in hand by taking a turn. -/
inductive Thread.Hands (heap : Heap H.Data H.Fn) : Thread H → Task H → Prop where
  | minor {thread : Thread H} {task : Task H} : task.IsMinor → Hands heap thread task
  | task {name : Option String} {task task' : Task H} {stack : List (Return H)} :
      task.Hands heap task' → Hands heap ⟨name, .run task, stack⟩ task'
  | ret {name : Option String} {v : Value H.Data H.Fn} {back : Return H}
      {rest : List (Return H)} {task : Task H} :
      back.Hands (.ok v) task → Hands heap ⟨name, .ret v, back :: rest⟩ task
  | raise {name : Option String} {payload : Payload} {back : Return H}
      {rest : List (Return H)} {task : Task H} :
      back.Hands (.error payload) task → Hands heap ⟨name, .raise payload, back :: rest⟩ task

theorem Thread.mem_held_of_heard {thread : Thread H} {notified : Option Gate} {task : Task H}
    (h : task ∈ (thread.heard notified).held) : task ∈ thread.held := by
  cases notified with
  | none => exact h
  | some gate =>
      obtain ⟨name, control, stack⟩ := thread
      simp only [heard] at h
      unfold Thread.notified at h
      split at h
      · rename_i heq
        obtain ⟨rfl, rfl, rfl⟩ := Thread.mk.inj heq
        split at h
        · simp only [held, Control.held, List.mem_append, List.mem_cons, List.not_mem_nil,
            or_false] at h ⊢
          exact h.imp_left .inl
        · exact h
      · exact h

namespace World

variable {w w' : World H} {t : ThreadId} {name : Option String} {control : Control H}
  {stack rest : List (Return H)} {turn : Turn H} {state : H.State}

/-- What a thread has in hand after a turn it had before, or the turn has brought it. -/
theorem Ordered.held_of_apply (hw : w.Ordered) {thread : Thread H}
    (ht : w.threads[t]? = some thread) (hrest : ∀ back ∈ rest, back ∈ thread.stack)
    {t' : ThreadId} {thread' : Thread H}
    (ht' : (World.apply state w.threads w.next t name rest turn).threads[t']? = some thread')
    {task : Task H} (hmem : task ∈ thread'.held) :
    (∃ thread, w.threads[t']? = some thread ∧ task ∈ thread.held) ∨ task ∈ turn.held := by
  rw [hw.threads_apply ht] at ht'
  split at ht'
  · rename_i heq
    subst heq
    obtain rfl := Option.some.inj ht'
    have hmem := Thread.mem_held_of_heard hmem
    simp only [Thread.held, List.flatMap_append, List.mem_append] at hmem
    rcases hmem with hcontrol | hpushed | hrest'
    · exact .inr (by simp [Turn.held, hcontrol])
    · exact .inr (by simp only [Turn.held, List.mem_append, hpushed, or_true, true_or])
    · obtain ⟨back, hback, hheld⟩ := List.mem_flatMap.1 hrest'
      refine .inl ⟨thread, ht, ?_⟩
      exact List.mem_append_right _ (List.mem_flatMap.2 ⟨back, hrest back hback, hheld⟩)
  · split at ht'
    · refine .inr ?_
      simp only [Turn.held, ht', Option.map_some, Option.getD_some, List.mem_append, hmem, or_true]
    · obtain ⟨other, hother, rfl⟩ := Option.map_eq_some_iff.1 ht'
      exact .inl ⟨other, hother, Thread.mem_held_of_heard hmem⟩

/-- What a thread has in hand after an action it had before, or a thread that has taken a turn has
brought it. -/
theorem Ordered.held_of_does {a : Action} (hw : w.Ordered) (h : w.does a = some w')
    {t' : ThreadId} {thread' : Thread H} (ht' : w'.threads[t']? = some thread') {task : Task H}
    (hmem : task ∈ thread'.held) :
    (∃ thread, w.threads[t']? = some thread ∧ task ∈ thread.held) ∨
      ∃ t thread, a = .thread t ∧ w.threads[t]? = some thread ∧ thread.Hands w.heap task := by
  cases a with
  | time n =>
      obtain rfl := Option.some.inj h
      exact .inl ⟨thread', ht', hmem⟩
  | forget keep =>
      obtain rfl := Option.some.inj h
      exact .inl ⟨thread', thread_of_forget ht', hmem⟩
  | thread t =>
      rcases step_cases h with
        ⟨name, wait, woken, missed, stack, arrived, ht, rfl⟩ | ⟨thread, ht, hawake, hallows, rfl⟩
      · rw [threads_rouse arrived ht] at ht'
        split at ht'
        · rename_i heq
          subst heq
          obtain rfl := Option.some.inj ht'
          refine .inl ⟨_, ht, ?_⟩
          simp only [Thread.held, Control.held, List.mem_append, List.mem_singleton] at hmem ⊢
          cases arrived with
          | true => exact hmem.imp_left fun heq => by simp [heq]
          | false => exact hmem.imp_left fun heq => by simp [heq]
        · exact .inl ⟨thread', ht', hmem⟩
      · -- The thread has taken a turn.
        have hbrings {state : H.State} {rest : List (Return H)} {turn : Turn H}
            (happly : w.act t thread = World.apply state w.threads w.next t thread.name rest turn)
            (hrest : ∀ back ∈ rest, back ∈ thread.stack)
            (hturn : ∀ task ∈ turn.held, thread.Hands w.heap task) :
            (∃ thread, w.threads[t']? = some thread ∧ task ∈ thread.held) ∨
              ∃ t' thread, Action.thread t = .thread t' ∧ w.threads[t']? = some thread ∧
                thread.Hands w.heap task := by
          rw [happly] at ht'
          rcases hw.held_of_apply ht hrest ht' hmem with hold | hnew
          · exact .inl hold
          · exact .inr ⟨t, thread, rfl, ht, hturn task hnew⟩
        obtain ⟨name, control, stack⟩ := thread
        cases control with
        | asleep wait woken missed => exact absurd rfl (hawake wait woken missed)
        | ret v =>
            cases stack with
            | nil => exact absurd hallows (by simp [allows])
            | cons back rest =>
                exact hbrings rfl (fun _ => List.mem_cons_of_mem _) fun task hmem =>
                  .ret (back.resume_hands v hmem)
        | raise payload =>
            cases stack with
            | nil => exact absurd hallows (by simp [allows])
            | cons back rest =>
                exact hbrings rfl (fun _ => List.mem_cons_of_mem _) fun task hmem =>
                  .raise (back.unwind_hands payload hmem)
        | run task =>
            by_cases huser : ∃ code reply, task = .user code reply
            · obtain ⟨code, reply, rfl⟩ := huser
              exact hbrings rfl (fun _ => id) fun task hmem => .minor (Move.turn_hands _ hmem)
            · exact hbrings (act_run fun code reply heq => huser ⟨code, reply, heq⟩)
                (fun _ => id) fun task hmem => .task (Task.turn_hands _ task hmem)

/-- Only a thread that takes its turn of a task makes anything of shared objects, except for a
future whose first poll a panic passes. -/
theorem heap_of_does {a : Action} (h : w.does a = some w') :
    (∃ clock, w.heap.clock ≤ clock ∧ w'.heap = { w.heap with clock := clock }) ∨
      (∃ t name payload value error future channel rest, a = .thread t ∧
        w.threads[t]? =
          some ⟨name, .raise payload, .polling value error future channel :: rest⟩ ∧
        w'.heap = w.heap.setFuture future .finished) ∨
      ∃ t name task stack, a = .thread t ∧ w.threads[t]? = some ⟨name, .run task, stack⟩ ∧
        w'.heap = (task.turn ⟨t, name⟩ stack w.heap).heap := by
  have hsame {w' : World H} (hheap : w'.heap = w.heap) :
      ∃ clock, w.heap.clock ≤ clock ∧ w'.heap = { w.heap with clock := clock } :=
    ⟨w.heap.clock, Nat.le_refl _, hheap⟩
  cases a with
  | time n =>
      obtain rfl := Option.some.inj h
      exact .inl ⟨_, Nat.le_max_left _ _, rfl⟩
  | forget keep =>
      obtain rfl := Option.some.inj h
      exact .inl (hsame rfl)
  | thread t =>
      rcases step_cases h with
        ⟨name, wait, woken, missed, stack, arrived, ht, rfl⟩ | ⟨thread, ht, hawake, hallows, rfl⟩
      · exact .inl (hsame rfl)
      · obtain ⟨name, control, stack⟩ := thread
        cases control with
        | asleep wait woken missed => exact absurd rfl (hawake wait woken missed)
        | ret v =>
            cases stack with
            | nil => exact absurd hallows (by simp [allows])
            | cons back rest => exact .inl (hsame (heap_apply.trans (back.resume_heap v)))
        | raise payload =>
            cases stack with
            | nil => exact absurd hallows (by simp [allows])
            | cons back rest =>
                rcases back.unwind_heap  payload with
                  hheap | ⟨value, error, future, channel, rfl, hheap⟩
                · exact .inl (hsame (heap_apply.trans hheap))
                · exact .inr (.inl ⟨t, name, payload, value, error, future, channel, rest, rfl, ht,
                    heap_apply.trans hheap⟩)
        | run task =>
            by_cases huser : ∃ code reply, task = .user code reply
            · obtain ⟨code, reply, rfl⟩ := huser
              exact .inl (hsame (heap_apply.trans (Move.turn_heap _)))
            · refine .inr (.inr ⟨t, name, task, stack, rfl, ht, ?_⟩)
              rw [act_run fun code reply heq => huser ⟨code, reply, heq⟩, heap_apply]

theorem alters_of_does {a : Action} (h : w.does a = some w') :
    w'.heap.promises = w.heap.promises ∧ w'.heap.channels = w.heap.channels ∨
      ∃ t name task stack, a = .thread t ∧ w.threads[t]? = some ⟨name, .run task, stack⟩ ∧
        task.Alters w.heap w'.heap := by
  rcases heap_of_does h with ⟨clock, -, hheap⟩ |
    ⟨t, name, payload, value, error, future, channel, rest, ha, ht, hheap⟩ |
    ⟨t, name, task, stack, ha, ht, hheap⟩
  · exact .inl ⟨by rw [hheap], by rw [hheap]⟩
  · exact .inl ⟨by rw [hheap]; rfl, by rw [hheap]; rfl⟩
  · exact .inr ⟨t, name, task, stack, ha, ht, hheap ▸ task.turn_alters⟩

/-- The task of which an action does a step. -/
def task? (w : World H) : Action → Option (Task H)
  | .thread t =>
      match w.threads[t]? with
      | some ⟨_, .run task, _⟩ => some task
      | _ => none
  | _ => none

theorem task?_eq_some {a : Action} {task : Task H} (h : w.task? a = some task) :
    ∃ t name stack, a = .thread t ∧ w.threads[t]? = some ⟨name, .run task, stack⟩ := by
  cases a with
  | thread t =>
      simp only [task?] at h
      split at h
      · rename_i name task' stack ht
        obtain rfl := Option.some.inj h
        exact ⟨t, name, stack, rfl, ht⟩
      · contradiction
  | _ => contradiction

theorem task?_of_run {task : Task H} (ht : w.threads[t]? = some ⟨name, .run task, stack⟩) :
    w.task? (.thread t) = some task := by
  simp [task?, ht]

end World

namespace Run

variable {r : Run H} {n : Nat} {t t' : ThreadId} {task task' : Task H}

/-- Thread `t` takes its turn of a task in the action at time `n`. -/
def Does (r : Run H) (n : Nat) (t : ThreadId) (task : Task H) : Prop :=
  r.action n = .thread t ∧ ∃ name stack,
    (r.world n).threads[t]? = some ⟨name, .run task, stack⟩

theorem Does.unique (h : r.Does n t task) (h' : r.Does n t' task') : t = t' ∧ task = task' := by
  obtain ⟨haction, name, stack, ht⟩ := h
  obtain ⟨haction', name', stack', ht'⟩ := h'
  obtain rfl := Action.thread.inj (haction.symm.trans haction')
  obtain ⟨-, hcontrol, -⟩ := Thread.mk.inj (Option.some.inj (ht.symm.trans ht'))
  exact ⟨rfl, Control.run.inj hcontrol⟩

theorem Does.task? (h : r.Does n t task) : (r.world n).task? (r.action n) = some task := by
  obtain ⟨haction, name, stack, ht⟩ := h
  rw [haction]
  exact World.task?_of_run ht

/-- After the last action of a list nothing is done. -/
theorem not_does_ofList {w : World H} {hw : w.Initial} {actions : List Action}
    (hn : actions.length ≤ n) : ¬(ofList w hw actions).Does n t task := by
  rintro ⟨haction, -⟩
  rw [action_ofList w hw actions hn] at haction
  contradiction

/-- What the tasks of all actions of a list pass, every task passes that is done. -/
theorem check_of_does {w : World H} {hw : w.Initial} {actions : List Action}
    {c : Nat → Task H → Bool}
    (hcheck : ∀ n < actions.length, (((ofList w hw actions).world n).task?
      ((ofList w hw actions).action n)).all (c n)) (h : (ofList w hw actions).Does n t task) :
    c n task := by
  by_cases hn : n < actions.length
  · have htask := hcheck n hn
    rwa [h.task?] at htask
  · exact absurd h (not_does_ofList (Nat.le_of_not_lt hn))

/-- What comes of a turn of a task: the heap, and the thread's control and stack. -/
theorem Does.turn (h : r.Does n t task) (huser : ∀ code reply, task ≠ .user code reply) :
    ∃ name stack, (r.world n).threads[t]? = some ⟨name, .run task, stack⟩ ∧
      r.world (n + 1) = World.apply (r.world n).state (r.world n).threads (r.world n).next t name
        stack (task.turn ⟨t, name⟩ stack (r.world n).heap) := by
  obtain ⟨haction, name, stack, ht⟩ := h
  have hstep := r.step n
  rw [haction] at hstep
  refine ⟨name, stack, ht, ?_⟩
  rw [← World.act_run huser]
  exact (Option.some.inj ((World.step_run ht).symm.trans hstep)).symm

theorem Does.changes {control : Control H} {heap : Heap H.Data H.Fn} (h : r.Does n t task)
    (huser : ∀ code reply, task ≠ .user code reply)
    (hturn : ∀ here stack,
      task.turn here stack (r.world n).heap = ⟨heap, [], control, none, none⟩) :
    (r.world n).Changes (r.world (n + 1)) t (.run task) control heap := by
  obtain ⟨name, stack, ht, happly⟩ := h.turn huser
  rw [happly, hturn]
  exact (r.ordered n).changes_apply ht control heap

/-- The control and the stack of a thread after its turn of a task that notifies nobody. -/
theorem Does.next (h : r.Does n t task) (huser : ∀ code reply, task ≠ .user code reply)
    (hnotified : ∀ here stack, (task.turn here stack (r.world n).heap).notified = none) :
    ∃ name stack, (r.world (n + 1)).threads[t]? =
      some ⟨name, (task.turn ⟨t, name⟩ stack (r.world n).heap).control,
        (task.turn ⟨t, name⟩ stack (r.world n).heap).pushed ++ stack⟩ := by
  obtain ⟨name, stack, ht, happly⟩ := h.turn huser
  refine ⟨name, stack, ?_⟩
  rw [happly, (r.ordered n).threads_apply ht, if_pos rfl, hnotified]
  rfl

end Run

end Trampoline
