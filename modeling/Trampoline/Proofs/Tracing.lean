import Trampoline.Proofs.Bracketing

/-!
The trace over a run. An action adds to it what the task has to record that is done, and nothing is
ever taken away. What a task records is fixed but for a few tasks that are handed an event: the
answer to an effect that announces something, and the wait for an exit, with its warning. If host
code is all that threads start with, these events are announcements and warnings, and nothing else.
-/

namespace Trampoline

variable {H : Host}

namespace Task

/-- The events that are added to the trace when thread `t` takes its turn of a task. -/
def traces (t : ThreadId) (heap : Heap H.Data H.Fn) : Task H → List Event
  | .answer question => question.event?.toList
  | .park id frames _ _ =>
      match heap.handoffs[id]? with
      | some ⟨_, .early _⟩ => []
      | some _ => [.parking frames.length]
      | none => []
  | .resume _ frames _ => [.resuming frames.length]
  | .deliver id exit origin =>
      match heap.handoffs[id]? with
      | some handoff =>
          match (handoff.offer t exit).2, origin, exit with
          | .rejected, .registration, .panicked _ => []
          | .rejected, _, _ => [.ignoredCompletion]
          | _, _, _ => []
      | none => []
  | .conclude (.panicked payload) (.fiber _ _ _ _) => [.forkPanicked payload.message]
  | .report s failure =>
      match heap.schedulers[s]?.bind Scheduler.hook? with
      | some .log => [.workPanicked failure]
      | _ => []
  | .notify _ _ [] (some _) => [.subscriberPanicked]
  | .lost warning => [warning]
  | .hang _ _ _ channel => if (heap.received? channel).isSome then [] else [.pendingForever]
  | _ => []

end Task

/-- An event that an effect announces: the effect is tried again, or is instrumented. -/
inductive Event.IsOfEffect : Event → Prop where
  | retryingOnce : IsOfEffect .retryingOnce
  | retrying (delay : String) : IsOfEffect (.retrying delay)
  | started (span : String) : IsOfEffect (.started span)
  | ended (span : String) (succeeded : Bool) : IsOfEffect (.ended span succeeded)

/-- A warning that the exit of an effect cannot come any more. -/
inductive Event.IsWarning : Event → Prop where
  | blockedForever : IsWarning .blockedForever
  | pendingForever : IsWarning .pendingForever

/-- Whether the event that a question has recorded, if there is one, is announced by an effect. -/
def Ask.IsCandid {D F : Type} (question : Ask D F) : Prop :=
  ∀ event, question.event? = some event → event.IsOfEffect

/-- Whether the events that a task is to record, now or later, are of the kinds that the library
announces. -/
def Task.IsCandid : Task H → Prop
  | .answer question => question.IsCandid
  | .receive _ _ _ warning => warning.IsWarning
  | .lost warning => warning.IsWarning
  | _ => True

@[simp] theorem Heap.toList_trace_emit {D F : Type} (heap : Heap D F) (event : Event) :
    (heap.emit event).trace.toList = heap.trace.toList ++ [event] :=
  Array.toList_push

section Turns

attribute [local simp] Task.traces

variable {heap : Heap H.Data H.Fn} {here : Here} {stack : List (Return H)}

theorem Ask.turn_trace (question : Ask H.Data H.Fn) :
    (question.turn (H := H) here heap).heap.trace.toList =
      heap.trace.toList ++ question.event?.toList := by
  cases question with
  | emit event => exact heap.toList_trace_emit event
  | clock event => exact heap.toList_trace_emit event
  | _ => exact (List.append_nil _).symm

theorem Request.turn_trace (q : Request H.Data H.Fn) :
    (q.turn (H := H) stack heap).heap.trace = heap.trace := by
  cases q <;> simp only [turn] <;> (repeat' split) <;> rfl

namespace Task

theorem reportTurn_trace (s : SchedulerId) (failure : WorkFailure) :
    (reportTurn (H := H) heap s failure).heap.trace.toList =
      heap.trace.toList ++ (Task.report (H := H) s failure).traces here.thread heap := by
  dsimp [reportTurn]
  cases heap.schedulers[s]? with
  | none => exact (List.append_nil _).symm
  | some scheduler =>
      simp only [Option.bind_some]
      rcases scheduler.hook? with _ | _ | f
      · exact (List.append_nil _).symm
      · exact heap.toList_trace_emit _
      · exact (List.append_nil _).symm

theorem concludeTurn_trace (exit : Exit (Outcome H.Data H.Fn)) (finish : Finish H.Fn) :
    (concludeTurn (H := H) heap exit finish).heap.trace.toList =
      heap.trace.toList ++ (Task.conclude (H := H) exit finish).traces here.thread heap := by
  cases finish with
  | fiber value error fiber s =>
      cases exit with
      | panicked payload => exact heap.toList_trace_emit _
      | settled outcome =>
          simp only [concludeTurn]
          split
          · exact (List.append_nil _).symm
          · exact (List.append_nil _).symm
  | _ =>
      simp only [concludeTurn, traces]
      repeat' split
      all_goals exact (List.append_nil _).symm

theorem deliverTurn_trace (id : HandoffId) (exit : Exit (Outcome H.Data H.Fn)) (origin : Origin) :
    (deliverTurn (H := H) here heap id exit origin).heap.trace.toList =
      heap.trace.toList ++ (Task.deliver (H := H) id exit origin).traces here.thread heap := by
  dsimp [deliverTurn]
  cases heap.handoffs[id]? with
  | none => exact (List.append_nil _).symm
  | some handoff =>
      simp only
      generalize handoff.offer here.thread exit = offered
      obtain ⟨handoff', offer⟩ := offered
      cases offer with
      | rejected =>
          cases origin with
          | completion => exact heap.toList_trace_emit _
          | registration =>
              cases exit with
              | settled outcome => exact heap.toList_trace_emit _
              | panicked payload => exact (List.append_nil _).symm
      | _ => exact (List.append_nil _).symm

theorem parkTurn_trace (id : HandoffId) (frames : List (Frame H.Data H.Fn)) (last : Kept)
    (finish : Finish H.Fn) :
    (parkTurn (H := H) heap id frames last finish).heap.trace.toList =
      heap.trace.toList ++ (Task.park (H := H) id frames last finish).traces here.thread heap := by
  dsimp [parkTurn]
  cases heap.handoffs[id]? with
  | none => exact (List.append_nil _).symm
  | some handoff =>
      obtain ⟨s, phase⟩ := handoff
      cases phase with
      | early exit => exact (List.append_nil _).symm
      | _ => exact heap.toList_trace_emit _

/-- A turn of a task adds to the trace what the task has to record. -/
theorem turn_trace (task : Task H) :
    (task.turn here stack heap).heap.trace.toList =
      heap.trace.toList ++ task.traces here.thread heap := by
  cases task with
  | request q => exact (congrArg Array.toList q.turn_trace).trans (List.append_nil _).symm
  | answer question => exact question.turn_trace
  | report s failure => exact reportTurn_trace s failure
  | conclude exit finish => exact concludeTurn_trace exit finish
  | deliver id exit origin => exact deliverTurn_trace id exit origin
  | park id frames last finish => exact parkTurn_trace id frames last finish
  | resume exit frames finish => exact heap.toList_trace_emit _
  | lost warning => exact heap.toList_trace_emit _
  | notify id v subscribers first =>
      cases subscribers with
      | nil =>
          cases first with
          | none => exact (List.append_nil _).symm
          | some payload => exact heap.toList_trace_emit _
      | cons subscriber rest => cases first <;> exact (List.append_nil _).symm
  | hang value error future channel =>
      dsimp [turn]
      split
      · exact (List.append_nil _).symm
      · exact heap.toList_trace_emit _
  | perform work => cases work <;> exact (List.append_nil _).symm
  | invoke target outcome => cases target <;> exact (List.append_nil _).symm
  | _ =>
      simp only [turn, submitTurn, driveTurn, registerTurn, tellTurn, traces]
      repeat' split
      all_goals exact (List.append_nil _).symm

end Task

end Turns

namespace Run

variable (r : Run H)

/-- The events that the action at time `n` adds to the trace. -/
def traced (n : Nat) : List Event :=
  (r.world (n + 1)).heap.trace.toList.drop (r.world n).heap.trace.size

variable {r} {n : Nat} {t : ThreadId} {task : Task H}

theorem traced_of_append {events : List Event}
    (h : (r.world (n + 1)).heap.trace.toList = (r.world n).heap.trace.toList ++ events) :
    r.traced n = events := by
  rw [traced, h, List.drop_append_of_le_length (by simp)]
  simp

theorem Does.trace_succ (h : r.Does n t task) :
    (r.world (n + 1)).heap.trace.toList =
      (r.world n).heap.trace.toList ++ task.traces t (r.world n).heap := by
  obtain ⟨name, stack, hheap⟩ := h.heap_eq
  rw [hheap]
  exact task.turn_trace

/-- What an action adds to the trace is what the task has to record that is done. -/
theorem Does.traced (h : r.Does n t task) : r.traced n = task.traces t (r.world n).heap :=
  traced_of_append h.trace_succ

theorem trace_succ_of_not_does (h : ∀ t task, ¬r.Does n t task) :
    (r.world (n + 1)).heap.trace = (r.world n).heap.trace := by
  rcases World.heap_of_does (r.step n) with ⟨clock, -, hheap⟩ |
    ⟨t, name, payload, value, error, future, channel, rest, -, -, hheap⟩ |
    ⟨t, name, task, stack, ha, ht, -⟩
  · rw [hheap]
  · rw [hheap]
    rfl
  · exact absurd ⟨ha, name, stack, ht⟩ (h t task)

theorem traced_of_not_does (h : ∀ t task, ¬r.Does n t task) : r.traced n = [] :=
  traced_of_append ((congrArg Array.toList (trace_succ_of_not_does h)).trans
    (List.append_nil _).symm)

/-- The trace after an action is what it was before, followed by what the action adds. -/
theorem trace_succ (r : Run H) (n : Nat) :
    (r.world (n + 1)).heap.trace.toList = (r.world n).heap.trace.toList ++ r.traced n := by
  by_cases h : ∃ t task, r.Does n t task
  · obtain ⟨t, task, hdoes⟩ := h
    rw [hdoes.traced]
    exact hdoes.trace_succ
  · have hnone : ∀ t task, ¬r.Does n t task := fun t task hdoes => h ⟨t, task, hdoes⟩
    rw [traced_of_not_does hnone, trace_succ_of_not_does hnone, List.append_nil]

end Run

section Candid

variable {D F : Type}

def Plan.IsCandid : Plan D F → Prop
  | .ask question _ => question.IsCandid
  | _ => True

theorem Ask.isCandid_of_event?_eq_none {question : Ask D F} (h : question.event? = none) :
    question.IsCandid := by
  simp [IsCandid, h]

theorem Ask.isCandid_emit {event : Event} (h : event.IsOfEffect) :
    (Ask.emit event : Ask D F).IsCandid := by
  rintro _ ⟨⟩
  exact h

theorem Ask.isCandid_clock {event : Event} (h : event.IsOfEffect) :
    (Ask.clock event : Ask D F).IsCandid := by
  rintro _ ⟨⟩
  exact h

theorem Plan.isCandid_call (f : Owned F) (args : List (Value D F)) (post : Post D F) :
    (Plan.ask (.call f args) post).IsCandid :=
  Ask.isCandid_of_event?_eq_none rfl

theorem Plan.isCandid_expect {ty : Ty} {v : Value D F} {plan : Value D F → Plan D F}
    (h : (plan v).IsCandid) : (v.expect ty plan).IsCandid := by
  unfold Value.expect
  split
  · exact h
  · trivial

theorem Thunk.plan_isCandid (t : Thunk D F) : t.plan.IsCandid := by
  cases t with
  | opened span => exact Ask.isCandid_clock (.started span)
  | succeed v => trivial
  | fail v => trivial
  | _ => exact Ask.isCandid_of_event?_eq_none rfl

theorem Recovery.plan_isCandid (r : Recovery D F) (value error : Ty) (e : Value D F) :
    (r.plan value error e).IsCandid := by
  cases r with
  | user f => exact Plan.isCandid_call _ _ _
  | once again => exact Ask.isCandid_emit .retryingOnce
  | after nanoseconds again => exact Ask.isCandid_emit (.retrying _)

theorem Combine.plan_isCandid (how : Combine F) (first second : Value D F) :
    (how.plan first second).IsCandid := by
  cases how with
  | user f => exact Plan.isCandid_call _ _ _
  | joins a b result error inner =>
      simp only [plan]
      split <;> trivial
  | _ => trivial

theorem Bind.plan_isCandid (b : Bind D F) (v : Value D F) : (b.plan v).IsCandid := by
  cases b with
  | recover value error r =>
      simp only [plan]
      refine Plan.isCandid_expect ?_
      split
      · trivial
      · exact r.plan_isCandid _ _ _
      · trivial
  | _ =>
      simp only [plan]
      refine Plan.isCandid_expect ?_
      repeat' split
      all_goals first
        | trivial
        | exact Plan.isCandid_call _ _ _

theorem Resume.plan_isCandid (r : Resume D F) (v : Value D F) : (r.plan v).IsCandid := by
  cases r with
  | combine second first how =>
      simp only [plan]
      exact Plan.isCandid_expect (how.plan_isCandid first v)
  | append item items =>
      simp only [plan]
      exact Plan.isCandid_expect (by trivial)
  | close value error span =>
      simp only [plan]
      refine Plan.isCandid_expect ?_
      split
      · exact Ask.isCandid_emit (.ended span _)
      · trivial

theorem Reify.plan_isCandid (r : Reify) (outcome : Outcome D F) : (r.plan outcome).IsCandid := by
  cases outcome <;> simp only [plan] <;> exact Plan.isCandid_expect (by trivial)

theorem Frame.plan_isCandid (frame : Frame D F) (outcome : Outcome D F) :
    (frame.plan outcome).IsCandid := by
  cases frame with
  | reify r => exact r.plan_isCandid outcome
  | bind b =>
      cases outcome with
      | ok v => exact b.plan_isCandid v
      | error v => trivial
  | resume r =>
      cases outcome with
      | ok v => exact r.plan_isCandid v
      | error v => trivial

/-- An interpretation has events recorded that effects announce, and no others. -/
theorem Interpretation.isCandid_of_ask {i : Interpretation D F} {question : Ask D F}
    {post : Post D F} {frames : List (Frame D F)} (h : i.step = .ask question post frames) :
    question.IsCandid := by
  have hplan {plan : Plan D F} {rest : List (Frame D F)} (hcandid : plan.IsCandid)
      (h : follow rest plan = .ask question post frames) : question.IsCandid := by
    cases plan with
    | ask question' post' =>
        obtain ⟨rfl, rfl, -⟩ := Progress.ask.inj h
        exact hcandid
    | _ => contradiction
  obtain ⟨focus, rest⟩ := i
  cases focus with
  | node node =>
      cases node with
      | thunk t => exact hplan t.plan_isCandid h
      | _ => contradiction
  | exit exit =>
      cases exit with
      | panicked payload => contradiction
      | settled outcome =>
          cases rest with
          | nil => contradiction
          | cons frame rest => exact hplan (frame.plan_isCandid outcome) h

variable {heap : Heap H.Data H.Fn} {here : Here} {stack : List (Return H)}

/-- A turn whose tasks announce what they are to record. -/
def Turn.IsCandid (turn : Turn H) : Prop := ∀ task ∈ turn.held, task.IsCandid

namespace Turn

variable {heap' : Heap H.Data H.Fn}

theorem isCandid_ret (v : Value H.Data H.Fn) : (Turn.ret (H := H) heap' v).IsCandid := by
  simp [IsCandid, held, ret, Control.held]

theorem isCandid_raise (payload : Payload) : (Turn.raise (H := H) heap' payload).IsCandid := by
  simp [IsCandid, held, raise, Control.held]

end Turn

theorem Ask.turn_isCandid (question : Ask H.Data H.Fn) :
    (question.turn (H := H) here heap).IsCandid := by
  cases question <;>
    simp [Turn.IsCandid, turn, Turn.run, Turn.ret, Turn.seq, Turn.call, Turn.held, Control.held,
      Return.held, Task.IsCandid]

theorem Request.turn_isCandid (q : Request H.Data H.Fn) :
    (q.turn (H := H) stack heap).IsCandid := by
  cases q with
  | runBlocking value error node =>
      simp [Turn.IsCandid, turn, Turn.seq, Turn.call, Turn.held, Control.held, Return.held,
        Task.IsCandid, Event.IsWarning.blockedForever]
  | blockOn value error node =>
      simp only [turn]
      split
      · exact Turn.isCandid_raise _
      · simp [Turn.IsCandid, Turn.held, Control.held, Return.held, Task.IsCandid,
          Event.IsWarning.pendingForever]
  | _ =>
      simp only [turn]
      repeat' split
      all_goals simp [Turn.IsCandid, Turn.run, Turn.ret, Turn.raise, Turn.seq, Turn.discard,
        Turn.call, Turn.held, Thread.held, Thread.starting, Control.held, Return.held,
        Task.IsCandid]

theorem Task.driveTurn_isCandid (i : Interpretation H.Data H.Fn) (last : Kept)
    (finish : Finish H.Fn) : (driveTurn (H := H) here heap i last finish).IsCandid := by
  simp only [driveTurn]
  split
  · simp [Turn.IsCandid, Turn.run, Turn.held, Control.held, IsCandid]
  · rename_i question post frames hstep
    intro task hmem
    obtain rfl : task = .answer question := by
      simpa [Turn.call, Turn.held, Control.held, Return.held] using hmem
    exact Interpretation.isCandid_of_ask hstep
  · simp [Turn.IsCandid, Turn.seq, Turn.call, Turn.held, Control.held, Return.held, IsCandid]
  · simp [Turn.IsCandid, Turn.call, Turn.held, Control.held, Return.held, IsCandid]

/-- What a candid task leads to is candid. -/
theorem Task.turn_isCandid {task : Task H} (h : task.IsCandid) :
    (task.turn here stack heap).IsCandid := by
  cases task with
  | request q => exact q.turn_isCandid
  | answer question => exact question.turn_isCandid
  | drive i last finish => exact driveTurn_isCandid i last finish
  | receive value error channel warning =>
      have hwarning : warning.IsWarning := h
      simp only [turn]
      split
      · exact Turn.isCandid_ret _
      · exact Turn.isCandid_raise _
      · simp [Turn.IsCandid, Turn.sleep, Turn.held, Control.held, IsCandid, hwarning]
  | perform work =>
      cases work <;> simp [Turn.IsCandid, turn, Turn.run, Turn.seq, Turn.discard, Turn.call,
        Turn.held, Control.held, Return.held, IsCandid]
  | invoke target outcome =>
      cases target <;> simp [Turn.IsCandid, turn, Turn.run, Turn.seq, Turn.discard, Turn.call,
        Turn.held, Control.held, Return.held, IsCandid]
  | notify id v subscribers first =>
      cases subscribers <;> cases first <;> simp [Turn.IsCandid, turn, Turn.ret, Turn.raise,
        Turn.call, Turn.held, Control.held, Return.held, IsCandid]
  | _ =>
      simp only [turn, submitTurn, reportTurn, concludeTurn, deliverTurn, parkTurn, registerTurn,
        tellTurn]
      repeat' split
      all_goals simp [Turn.IsCandid, Turn.run, Turn.ret, Turn.raise, Turn.seq, Turn.discard,
        Turn.call, Turn.sleep, Turn.held, Thread.held, Thread.starting, Control.held, Return.held,
        IsCandid]

theorem Thread.Turning.isCandid {thread : Thread H} {t : ThreadId} {state state' : H.State}
    {rest : List (Return H)} {turn : Turn H} (h : thread.Turning t heap state state' rest turn)
    (hthread : ∀ task ∈ thread.held, task.IsCandid) : turn.IsCandid := by
  cases h with
  | @move _ _ _ _ _ move =>
      cases move <;> simp [Turn.IsCandid, Move.turn, Turn.run, Turn.ret, Turn.raise, Turn.call,
        Turn.sleep, Turn.held, Control.held, Return.held, Task.IsCandid]
  | task => exact Task.turn_isCandid (hthread _ (by simp [held, Control.held]))
  | @ret _ v back rest =>
      cases back with
      | after task =>
          have htask : task.IsCandid := hthread task (by simp [held, Control.held, Return.held])
          simpa [Turn.IsCandid, Return.resume, Turn.run, Turn.held, Control.held] using htask
      | reading =>
          simp only [Return.resume, Return.readTurn]
          repeat' split
          all_goals first
            | exact Turn.isCandid_ret _
            | exact Turn.isCandid_raise _
      | _ => simp [Turn.IsCandid, Return.resume, Turn.run, Turn.ret, Turn.held, Control.held,
          Task.IsCandid]
  | @raise _ payload back rest =>
      cases back <;> simp [Turn.IsCandid, Return.unwind, Turn.run, Turn.raise, Turn.call,
        Turn.held, Control.held, Return.held, Task.IsCandid]

end Candid

namespace Run

variable {r : Run H} {n : Nat} {t : ThreadId} {thread : Thread H}

/-- What a thread has in hand has a property if this is so at the start and every turn leads from
tasks with the property to such tasks. -/
theorem forall_held {P : Task H → Prop}
    (hstart : ∀ (t : ThreadId) (thread : Thread H), (r.world 0).threads[t]? = some thread →
      ∀ task ∈ thread.held, P task)
    (hturn : ∀ n t (thread : Thread H) state rest turn,
      thread.Turning t (r.world n).heap (r.world n).state state rest turn →
        (∀ task ∈ thread.held, P task) → ∀ task ∈ turn.held, P task)
    (n : Nat) {t : ThreadId} {thread : Thread H} (ht : (r.world n).threads[t]? = some thread) :
    ∀ task ∈ thread.held, P task := by
  induction n generalizing t thread with
  | zero => exact hstart t thread ht
  | succ n ih =>
      cases (r.ordered n).becomes (r.step n) ht with
      | waits hbefore hstack hcontrol =>
          intro task hmem
          refine ih hbefore task ?_
          rw [Thread.held, hstack] at hmem
          exact List.mem_append.2 ((List.mem_append.1 hmem).imp_left (hcontrol task))
      | acts haction hbefore hnow hthread =>
          have hturning := Thread.turning hnow
          have hheld := hturn n _ _ _ _ _ hturning (ih hbefore)
          intro task hmem
          subst hthread
          have hmem := Thread.mem_held_of_heard hmem
          simp only [Thread.held, List.flatMap_append, List.mem_append] at hmem
          rcases hmem with hcontrol | hpushed | hrest
          · exact hheld task (by simp [Turn.held, hcontrol])
          · exact hheld task (by simp only [Turn.held, List.mem_append, hpushed, or_true, true_or])
          · obtain ⟨back, hback, hin⟩ := List.mem_flatMap.1 hrest
            exact ih hbefore task (List.mem_append_right _
              (List.mem_flatMap.2 ⟨back, hturning.suffix.subset hback, hin⟩))
      | starts haction hbefore hnow hborn =>
          intro task hmem
          exact hturn n _ _ _ _ _ (Thread.turning hnow) (ih hbefore) task
            (by simp [Turn.held, hborn, hmem])

/-- Everything that threads have in hand is candid, if host code is all that they start with. -/
theorem isCandid_of_mem_held (hstart : (r.world 0).Starting)
    (ht : (r.world n).threads[t]? = some thread) : ∀ task ∈ thread.held, task.IsCandid := by
  refine forall_held (fun t thread ht => ?_) (fun n t thread state rest turn h => h.isCandid) n ht
  obtain ⟨name, code, rfl⟩ := hstart.threads t thread ht
  simp [Thread.held, Thread.starting, Control.held, Task.IsCandid]

theorem Does.isCandid {task : Task H} (hstart : (r.world 0).Starting) (h : r.Does n t task) :
    task.IsCandid := by
  obtain ⟨-, name, stack, ht⟩ := h
  exact isCandid_of_mem_held hstart ht task (by simp [Thread.held, Control.held])

end Run

end Trampoline
