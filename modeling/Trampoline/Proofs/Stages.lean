import Trampoline.Machine.World
import Trampoline.Proofs.Course

/-!
Where interpretations are kept while they are under way: in the control of a thread, in a return on
its stack, or at the meeting point of an async node. Most turns keep every interpretation where it
is and at most start a new one; the few that do not are described one by one.
-/

namespace Trampoline

/-- An interpretation under way, with its finisher. -/
abbrev Pending (D F : Type) := Stage D F × Finish F

variable {H : Host}

/-- The interpretation that a task goes on with. -/
def Task.pending? : Task H → Option (Pending H.Data H.Fn)
  | .drive i _ finish => some (.driving i, finish)
  | .park id frames _ finish => some (.leaving id frames, finish)
  | .resume exit frames finish => some (.resuming exit frames, finish)
  | .conclude exit finish => some (.concluding exit, finish)
  | _ => none

/-- The interpretation that waits in a return. -/
def Return.pending? : Return H → Option (Pending H.Data H.Fn)
  | .answering post frames _ _ finish => some (.asking post frames, finish)
  | .after (.park id frames _ finish) => some (.submitting id frames, finish)
  | _ => none

/-- The interpretation that a thread is about to go on with. -/
def Control.pending? : Control H → Option (Pending H.Data H.Fn)
  | .run task => task.pending?
  | _ => none

/-- No interpretation waits in a return for anything but a reply or a submission. -/
def Return.Sound : Return H → Prop
  | .after (.park _ _ _ _) => True
  | .after task => task.pending? = none
  | _ => True

/-- A sleeping thread holds no interpretation, and at the gate of an async node it sleeps without a
deadline and to offer its exit again. -/
def Control.Sound : Control H → Prop
  | .asleep wait woken missed =>
      woken.pending? = none ∧ missed.pending? = none ∧
        ∀ id deadline, wait = .gate (.handoff id) deadline →
          deadline = none ∧ ∃ exit origin, woken = .deliver id exit origin
  | _ => True

structure Thread.Sound (thread : Thread H) : Prop where
  control : thread.control.Sound
  stack : ∀ back ∈ thread.stack, back.Sound

def Control.SleepsAt (id : HandoffId) : Control H → Prop
  | .asleep (.gate (.handoff id') _) _ _ => id' = id
  | _ => False

instance (id : HandoffId) (control : Control H) : Decidable (control.SleepsAt id) :=
  match control with
  | .asleep (.gate (.handoff id') _) _ _ => inferInstanceAs (Decidable (id' = id))
  | .asleep (.gate (.promise _) _) _ _ => .isFalse not_false
  | .asleep (.channel _) _ _ => .isFalse not_false
  | .asleep (.sender _) _ _ => .isFalse not_false
  | .asleep (.clock _) _ _ => .isFalse not_false
  | .asleep (.host _ _) _ _ => .isFalse not_false
  | .asleep .forever _ _ => .isFalse not_false
  | .run _ => .isFalse not_false
  | .ret _ => .isFalse not_false
  | .raise _ => .isFalse not_false

/-- A thread that holds no interpretation and waits for none. -/
structure Thread.Idle (thread : Thread H) : Prop extends thread.Sound where
  control_pending : thread.control.pending? = none
  stack_pending : ∀ back ∈ thread.stack, back.pending? = none
  awake : ∀ id, ¬thread.control.SleepsAt id

/-- A control that goes on with no interpretation, or starts one. -/
def Control.Starts (control : Control H) : Prop :=
  control.pending? = none ∨ ∃ node last finish, control = .run (.drive (.start node) last finish)

/-- A turn that leaves its thread sound. The threads it starts hold no interpretation. -/
structure Turn.Tidy (turn : Turn H) : Prop where
  sound : turn.control.Sound
  pushed_sound : ∀ back ∈ turn.pushed, back.Sound
  born : ∀ thread, turn.born = some thread → thread.Idle

/-- A turn that keeps the meeting points and their sleepers as they are. -/
structure Turn.Calm (heap : Heap H.Data H.Fn) (turn : Turn H) : Prop extends turn.Tidy where
  handoffs : turn.heap.handoffs = heap.handoffs
  awake : ∀ id, ¬turn.control.SleepsAt id
  notified : ∀ id, turn.notified ≠ some (.handoff id)

/-- A calm turn that keeps the interpretations as they are, except that it may start one. -/
structure Turn.Plain (heap : Heap H.Data H.Fn) (turn : Turn H) : Prop extends
    turn.Calm heap where
  starts : turn.control.Starts
  pushed_pending : ∀ back ∈ turn.pushed, back.pending? = none

namespace Turn

variable {heap heap' : Heap H.Data H.Fn}

theorem plain_ret {v : Value H.Data H.Fn} (h : heap'.handoffs = heap.handoffs) :
    (Turn.ret (H := H) heap' v).Plain heap where
  handoffs := h
  starts := .inl rfl
  sound := trivial
  awake _ := not_false
  pushed_pending := by simp [ret]
  pushed_sound := by simp [ret]
  born := by simp [ret]
  notified := by simp [ret]

theorem plain_raise {payload : Payload} (h : heap'.handoffs = heap.handoffs) :
    (Turn.raise (H := H) heap' payload).Plain heap where
  handoffs := h
  starts := .inl rfl
  sound := trivial
  awake _ := not_false
  pushed_pending := by simp [raise]
  pushed_sound := by simp [raise]
  born := by simp [raise]
  notified := by simp [raise]

theorem calm_run {task : Task H} (h : heap'.handoffs = heap.handoffs) :
    (Turn.run heap' task).Calm heap where
  handoffs := h
  sound := trivial
  awake _ := not_false
  pushed_sound := by simp [run]
  born := by simp [run]
  notified := by simp [run]

theorem plain_run {task : Task H} (h : heap'.handoffs = heap.handoffs)
    (htask : (Control.run task).Starts) : (Turn.run heap' task).Plain heap where
  toCalm := calm_run h
  starts := htask
  pushed_pending := by simp [run]

theorem calm_call {task : Task H} {back : Return H} (h : heap'.handoffs = heap.handoffs)
    (hsound : back.Sound) : (Turn.call heap' task back).Calm heap where
  handoffs := h
  sound := trivial
  awake _ := not_false
  pushed_sound := by simp [call, hsound]
  born := by simp [call]
  notified := by simp [call]

theorem tidy_run {task : Task H} : (Turn.run heap' task).Tidy :=
  (calm_run rfl).toTidy

theorem tidy_call {task : Task H} {back : Return H} (hsound : back.Sound) :
    (Turn.call heap' task back).Tidy :=
  (calm_call rfl hsound).toTidy

theorem tidy_gate {id : HandoffId} {exit : Exit (Outcome H.Data H.Fn)} {origin : Origin} :
    (Turn.sleep heap' (.gate (.handoff id) none) (.deliver id exit origin)
      (.deliver id exit origin)).Tidy where
  sound := by
    refine ⟨rfl, rfl, ?_⟩
    rintro id' deadline heq
    cases heq
    exact ⟨rfl, exit, origin, rfl⟩
  pushed_sound := by simp [sleep]
  born := by simp [sleep]

theorem plain_call {task : Task H} {back : Return H} (h : heap'.handoffs = heap.handoffs)
    (htask : (Control.run task).Starts) (hback : back.pending? = none) (hsound : back.Sound) :
    (Turn.call heap' task back).Plain heap where
  toCalm := calm_call h hsound
  starts := htask
  pushed_pending := by simp [call, hback]

theorem plain_push {task : Task H} {pushed : List (Return H)}
    (h : heap'.handoffs = heap.handoffs) (htask : (Control.run task).Starts)
    (hpushed : ∀ back ∈ pushed, back.pending? = none ∧ back.Sound) :
    (⟨heap', pushed, .run task, none, none⟩ : Turn H).Plain heap where
  handoffs := h
  starts := htask
  sound := trivial
  awake _ := not_false
  pushed_pending back hback := (hpushed back hback).1
  pushed_sound back hback := (hpushed back hback).2
  born := by simp
  notified := by simp

theorem plain_born {thread : Thread H} {v : Value H.Data H.Fn}
    (h : heap'.handoffs = heap.handoffs) (hthread : thread.Idle) :
    (⟨heap', [], .ret v, none, some thread⟩ : Turn H).Plain heap where
  handoffs := h
  starts := .inl rfl
  sound := trivial
  awake _ := not_false
  pushed_pending := by simp
  pushed_sound := by simp
  born := by
    rintro _ ⟨⟩
    exact hthread
  notified := by simp

theorem plain_seq {task next : Task H} (h : heap'.handoffs = heap.handoffs)
    (htask : (Control.run task).Starts) (hnext : next.pending? = none) :
    (Turn.seq heap' task next).Plain heap := by
  apply plain_call h htask
  · cases next with
    | park id frames last finish => exact absurd hnext (by simp [Task.pending?])
    | _ => rfl
  · cases next with
    | park id frames last finish => trivial
    | _ => exact hnext

theorem plain_discard {task : Task H} (h : heap'.handoffs = heap.handoffs)
    (htask : (Control.run task).Starts) : (Turn.discard heap' task).Plain heap :=
  plain_seq h htask rfl

theorem plain_sleep {wait : Wait H} {woken missed : Task H} (h : heap'.handoffs = heap.handoffs)
    (hwait : ∀ id deadline, wait ≠ .gate (.handoff id) deadline) (hwoken : woken.pending? = none)
    (hmissed : missed.pending? = none) : (Turn.sleep heap' wait woken missed).Plain heap where
  handoffs := h
  starts := .inl rfl
  sound := ⟨hwoken, hmissed, fun id deadline hgate => absurd hgate (hwait id deadline)⟩
  awake id := by
    intro hsleeps
    cases wait with
    | gate gate deadline =>
        cases gate with
        | handoff id' => exact hwait id' deadline rfl
        | promise id' => exact hsleeps
    | _ => exact hsleeps
  pushed_pending := by simp [sleep]
  pushed_sound := by simp [sleep]
  born := by simp [sleep]
  notified := by simp [sleep]

end Turn

open Turn

/-- Whether a task neither goes on with an interpretation nor offers an exit to an async node. -/
def Task.IsPlain : Task H → Prop
  | .deliver _ _ _ => False
  | task => task.pending? = none

variable {heap : Heap H.Data H.Fn} {here : Here} {stack : List (Return H)}

theorem Thread.idle_starting (name : Option String) {task : Task H} {stack : List (Return H)}
    (htask : task.pending? = none)
    (hstack : ∀ back ∈ stack, back.pending? = none ∧ back.Sound) :
    (Thread.starting name task stack).Idle where
  control := trivial
  stack back hback := (hstack back hback).2
  control_pending := htask
  stack_pending back hback := (hstack back hback).1
  awake _ := not_false

theorem Ask.turn_plain (question : Ask H.Data H.Fn) : (question.turn here heap).Plain heap := by
  cases question with
  | call f args => exact plain_run rfl (.inl rfl)
  | fork value error source scheduler =>
      simp only [turn, Heap.newPromise]
      exact plain_seq rfl (.inl rfl) rfl
  | print line => exact plain_ret rfl
  | threadName => exact plain_ret rfl
  | emit event => exact plain_ret rfl
  | clock event => exact plain_ret rfl

theorem Request.turn_plain (request : Request H.Data H.Fn) :
    (request.turn stack heap).Plain heap := by
  cases request with
  | runBlocking value error node =>
      simp only [turn, Heap.newChannel]
      exact plain_seq rfl (.inr ⟨_, _, _, rfl⟩) rfl
  | runWith value error node target => exact plain_discard rfl (.inr ⟨_, _, _, rfl⟩)
  | runFiber value error node scheduler =>
      simp only [turn, Heap.newPromise]
      exact plain_seq rfl (.inl rfl) rfl
  | runAsync value error node => exact plain_ret rfl
  | poll value error future =>
      simp only [turn, Heap.newChannel]
      split
      · exact plain_call rfl (.inr ⟨_, _, _, rfl⟩) rfl trivial
      · exact plain_run rfl (.inl rfl)
      · exact plain_ret rfl
      · exact plain_raise rfl
      · exact plain_ret rfl
  | dropFuture future =>
      simp only [turn]
      split
      · exact plain_ret rfl
      · exact plain_ret rfl
  | blockOn value error node =>
      simp only [turn]
      split
      · exact plain_raise rfl
      · exact plain_push rfl (.inr ⟨_, _, _, rfl⟩) (by simp [Return.pending?, Return.Sound,
          Task.pending?])
  | complete target outcome => exact plain_discard rfl (.inl rfl)
  | newPromise ty => exact plain_ret rfl
  | fill promise v => exact plain_run rfl (.inl rfl)
  | await promise => exact plain_run rfl (.inl rfl)
  | awaitFor promise nanoseconds =>
      simp only [turn]
      split
      · exact plain_run rfl (.inl rfl)
      · exact plain_raise rfl
  | subscribe promise f => exact plain_run rfl (.inl rfl)
  | newFiber value error => exact plain_ret rfl
  | completedFiber value error outcome =>
      simp only [turn, Heap.newPromise]
      exact plain_seq rfl (.inl rfl) rfl
  | fillFiber value error fiber outcome => exact plain_call rfl (.inl rfl) rfl trivial
  | awaitFiber fiber => exact plain_call rfl (.inl rfl) rfl trivial
  | awaitFiberFor fiber nanoseconds =>
      simp only [turn]
      split
      · exact plain_call rfl (.inl rfl) rfl trivial
      · exact plain_raise rfl
  | observe value error fiber target => exact plain_run rfl (.inl rfl)
  | submit scheduler work => exact plain_run rfl (.inl rfl)
  | report scheduler failure => exact plain_run rfl (.inl rfl)
  | perform work => exact plain_run rfl (.inl rfl)
  | spawn name f =>
      simp only [turn]
      split
      · exact plain_raise rfl
      · exact plain_born rfl (Thread.idle_starting _ rfl (by simp))

namespace Task

theorem submitTurn_plain (id : SchedulerId) (work : Work H.Data H.Fn) :
    (submitTurn (H := H) heap id work).Plain heap := by
  have born (name : Option String) :
      (Thread.starting name (.perform work) [.guarded id] : Thread H).Idle :=
    Thread.idle_starting name rfl (by simp [Return.pending?, Return.Sound])
  simp only [submitTurn]
  split
  · exact plain_call rfl (.inl rfl) rfl trivial
  · exact plain_call rfl (.inl rfl) rfl trivial
  · split
    · exact plain_raise rfl
    · split
      · exact plain_run rfl (.inl rfl)
      · exact plain_born rfl (born _)
  · exact plain_born rfl (born _)
  · exact plain_discard rfl (.inl rfl)
  · exact plain_ret rfl

theorem reportTurn_plain (id : SchedulerId) (failure : WorkFailure) :
    (reportTurn (H := H) heap id failure).Plain heap := by
  simp only [reportTurn]
  split
  · split
    · exact plain_ret rfl
    · exact plain_discard rfl (.inl rfl)
    · exact plain_ret rfl
  · exact plain_ret rfl

theorem concludeTurn_plain (exit : Exit (Outcome H.Data H.Fn)) (finish : Finish H.Fn) :
    (concludeTurn (H := H) heap exit finish).Plain heap := by
  cases finish with
  | callback value error target =>
      simp only [concludeTurn]
      split
      · exact plain_run rfl (.inl rfl)
      · exact plain_raise rfl
  | channel value error channel =>
      simp only [concludeTurn]
      split
      · exact plain_ret rfl
      · split
        · exact plain_ret rfl
        · exact plain_raise rfl
  | fiber value error fiber reporter =>
      simp only [concludeTurn]
      split
      · exact plain_push rfl (.inl rfl) (by simp [Return.pending?, Return.Sound, Task.pending?])
      · split
        · exact plain_discard rfl (.inl rfl)
        · exact plain_raise rfl

theorem concludeTurn_pending (exit : Exit (Outcome H.Data H.Fn)) (finish : Finish H.Fn) :
    (concludeTurn (H := H) heap exit finish).control.pending? = none := by
  cases finish with
  | callback value error target =>
      simp only [concludeTurn]
      split <;> rfl
  | channel value error channel =>
      simp only [concludeTurn]
      split
      · rfl
      · split <;> rfl
  | fiber value error fiber reporter =>
      simp only [concludeTurn]
      split
      · rfl
      · split <;> rfl

theorem concludeTurn_silent (heap : Heap H.Data H.Fn) (exit : Exit (Outcome H.Data H.Fn))
    (finish : Finish H.Fn) :
    (concludeTurn (H := H) heap exit finish).notified = none ∧
      (concludeTurn (H := H) heap exit finish).born = none := by
  cases finish with
  | callback value error target =>
      simp only [concludeTurn]
      split <;> exact ⟨rfl, rfl⟩
  | channel value error channel =>
      simp only [concludeTurn]
      split
      · exact ⟨rfl, rfl⟩
      · split <;> exact ⟨rfl, rfl⟩
  | fiber value error fiber reporter =>
      simp only [concludeTurn]
      split
      · exact ⟨rfl, rfl⟩
      · split <;> exact ⟨rfl, rfl⟩

theorem registerTurn_plain (target : Callback H.Fn) (r : Register H.Fn) :
    (registerTurn (H := H) heap target r).Plain heap := by
  cases r with
  | user value error f => exact plain_discard rfl (.inl rfl)
  | join value error fiber => exact plain_run rfl (.inl rfl)
  | sleep nanoseconds => exact plain_sleep rfl (by simp) rfl rfl
  | never => exact plain_ret rfl

theorem registerTurn_pending (target : Callback H.Fn) (r : Register H.Fn) :
    (registerTurn (H := H) heap target r).control.pending? = none := by
  cases r <;> rfl

theorem tellTurn_plain (v : Value H.Data H.Fn) (subscriber : Subscriber H.Fn) :
    (tellTurn (H := H) heap v subscriber).Plain heap := by
  cases subscriber with
  | user f => exact plain_discard rfl (.inl rfl)
  | join value error target => exact plain_run rfl (.inl rfl)
  | observe value error target =>
      simp only [tellTurn]
      split
      · split
        · exact plain_run rfl (.inl rfl)
        · exact plain_raise rfl
      · exact plain_raise rfl

/-- Only the tasks that go on with an interpretation and the delivery of an exit touch meeting
points or interpretations. -/
theorem turn_plain {task : Task H} (h : task.IsPlain) :
    (task.turn here stack heap).Plain heap := by
  cases task with
  | give v => exact plain_ret rfl
  | user code reply => exact plain_run rfl (.inl rfl)
  | call f args => exact plain_run rfl (.inl rfl)
  | request r => exact r.turn_plain
  | drive i last finish => exact absurd h (by simp [IsPlain, pending?])
  | answer question => exact question.turn_plain
  | park id frames last finish => exact absurd h (by simp [IsPlain, pending?])
  | deliver id exit origin => exact h.elim
  | resume exit frames finish => exact absurd h (by simp [IsPlain, pending?])
  | conclude exit finish => exact absurd h (by simp [IsPlain, pending?])
  | submit scheduler work => exact submitTurn_plain scheduler work
  | perform work =>
      cases work with
      | register r id => exact plain_call rfl (.inl rfl) rfl trivial
      | interpret node finish => exact plain_run rfl (.inr ⟨_, _, _, rfl⟩)
      | user f => exact plain_discard rfl (.inl rfl)
  | report scheduler failure => exact reportTurn_plain scheduler failure
  | register r target => exact registerTurn_plain target r
  | invoke target outcome =>
      cases target with
      | node id => exact plain_run rfl (.inl rfl)
      | user value error f => exact plain_discard rfl (.inl rfl)
  | fill id v =>
      simp only [turn]
      split
      · exact plain_ret rfl
      · split
        · exact plain_run rfl (.inl rfl)
        · exact plain_ret rfl
  | take id v =>
      simp only [turn]
      split
      · exact plain_ret rfl
      · exact plain_run rfl (.inl rfl)
  | wake id v subscribers =>
      exact
        { handoffs := rfl
          starts := .inl rfl
          sound := trivial
          awake := fun _ => not_false
          pushed_pending := by simp [turn]
          pushed_sound := by simp [turn]
          born := by simp [turn]
          notified := by simp [turn] }
  | notify id v subscribers first =>
      cases subscribers with
      | nil =>
          cases first with
          | none => exact plain_ret rfl
          | some payload => exact plain_raise rfl
      | cons subscriber rest => exact plain_call rfl (.inl rfl) rfl trivial
  | tell subscriber v => exact tellTurn_plain v subscriber
  | subscribe id subscriber =>
      simp only [turn]
      split
      · exact plain_ret rfl
      · split
        · exact plain_ret rfl
        · exact plain_call rfl (.inl rfl) rfl trivial
  | await id =>
      simp only [turn]
      split
      · exact plain_ret rfl
      · exact plain_sleep rfl (by simp) rfl rfl
  | awaitUntil id time =>
      simp only [turn]
      split
      · exact plain_ret rfl
      · exact plain_sleep rfl (by simp) rfl rfl
  | peek id =>
      simp only [turn]
      split
      · exact plain_ret rfl
      · split
        · exact plain_ret rfl
        · exact plain_ret rfl
  | receive value error channel warning =>
      simp only [turn]
      split
      · exact plain_ret rfl
      · exact plain_raise rfl
      · exact plain_sleep rfl (by simp) rfl rfl
  | lost warning => exact plain_sleep rfl (by simp) rfl rfl
  | collect value error future channel =>
      simp only [turn]
      split
      · exact plain_ret rfl
      · exact plain_raise rfl
      · exact plain_sleep rfl (by simp) rfl rfl
  | hang value error future channel =>
      simp only [turn]
      split
      · exact plain_run rfl (.inl rfl)
      · exact plain_ret rfl

end Task

namespace Task

theorem driveTurn_tidy (i : Interpretation H.Data H.Fn) (last : Kept) (finish : Finish H.Fn) :
    (driveTurn (H := H) here heap i last finish).Tidy := by
  simp only [driveTurn]
  split
  · exact tidy_run
  · exact tidy_call trivial
  · exact tidy_call trivial
  · exact tidy_call trivial

theorem parkTurn_tidy (id : HandoffId) (frames : List (Frame H.Data H.Fn)) (last : Kept)
    (finish : Finish H.Fn) : (parkTurn (H := H) heap id frames last finish).Tidy := by
  simp only [parkTurn]
  split
  · exact (plain_ret rfl).toTidy
  · split
    · exact tidy_run
    · exact ⟨trivial, by simp, by simp⟩

theorem deliverTurn_tidy (id : HandoffId) (exit : Exit (Outcome H.Data H.Fn)) (origin : Origin) :
    (deliverTurn (H := H) here heap id exit origin).Tidy := by
  simp only [deliverTurn]
  split
  · exact (plain_ret rfl).toTidy
  · split
    · exact tidy_gate
    · exact (plain_ret rfl).toTidy
    · exact tidy_run
    · split
      · exact (plain_raise rfl).toTidy
      · exact (plain_ret rfl).toTidy

theorem turn_tidy_of_plain {task : Task H} (h : task.IsPlain) :
    (task.turn here stack heap).Tidy :=
  (turn_plain h).toTidy

theorem turn_tidy (task : Task H) : (task.turn here stack heap).Tidy := by
  cases task with
  | drive i last finish => exact driveTurn_tidy i last finish
  | park id frames last finish => exact parkTurn_tidy id frames last finish
  | deliver id exit origin => exact deliverTurn_tidy id exit origin
  | resume exit frames finish => exact tidy_run
  | conclude exit finish => exact (concludeTurn_plain exit finish).toTidy
  | _ => exact turn_tidy_of_plain rfl

end Task

theorem Return.readTurn_plain (v : Value H.Data H.Fn) :
    (readTurn (H := H) heap v).Plain heap := by
  simp only [readTurn]
  split
  · split
    · exact plain_ret rfl
    · exact plain_raise rfl
  · split
    · exact plain_ret rfl
    · exact plain_raise rfl
  · exact plain_ret rfl
  · exact plain_ret rfl

theorem Return.resume_plain {back : Return H} (hsound : back.Sound) (h : back.pending? = none)
    (v : Value H.Data H.Fn) : (back.resume heap v).Plain heap := by
  cases back with
  | user code => exact plain_run rfl (.inl rfl)
  | answering post frames last applied finish => exact absurd h (by simp [Return.pending?])
  | guarded scheduler => exact plain_ret rfl
  | guarding id r => exact plain_ret rfl
  | holding refs => exact plain_ret rfl
  | driving => exact plain_ret rfl
  | after task =>
      cases task with
      | park id frames last finish => exact absurd h (by simp [Return.pending?])
      | _ => exact plain_run rfl (.inl hsound)
  | polling value error future channel => exact plain_run rfl (.inl rfl)
  | notifying id w subscribers first => exact plain_run rfl (.inl rfl)
  | reading => exact readTurn_plain v
  | givingBack => exact plain_ret rfl

/-- A panic lets an interpretation go that waits for the end of a submission. -/
theorem Return.unwind_plain {back : Return H}
    (h : ∀ post frames last applied finish, back ≠ .answering post frames last applied finish)
    (payload : Payload) : (back.unwind heap payload).Plain heap := by
  cases back with
  | user code => exact plain_run rfl (.inl rfl)
  | answering post frames last applied finish =>
      exact absurd rfl (h post frames last applied finish)
  | guarded scheduler => exact plain_run rfl (.inl rfl)
  | guarding id r => exact plain_call rfl (.inl rfl) rfl trivial
  | holding refs => exact plain_raise rfl
  | driving => exact plain_raise rfl
  | after task => exact plain_raise rfl
  | polling value error future channel => exact plain_raise rfl
  | notifying id w subscribers first => exact plain_run rfl (.inl rfl)
  | reading => exact plain_raise rfl
  | givingBack => exact plain_raise rfl

theorem Return.resume_tidy {back : Return H} (hsound : back.Sound) (v : Value H.Data H.Fn) :
    (back.resume heap v).Tidy := by
  cases h : back.pending? with
  | none => exact (resume_plain hsound h v).toTidy
  | some x =>
      cases back with
      | answering post frames last applied finish => exact tidy_run
      | after task => exact tidy_run
      | _ => contradiction

theorem Return.unwind_tidy (back : Return H) (payload : Payload) :
    (back.unwind heap payload).Tidy := by
  cases back with
  | answering post frames last applied finish => exact tidy_run
  | _ => exact (unwind_plain (by simp) payload).toTidy

theorem Move.turn_plain (move : Move H.Data H.Fn H.Code H.Condition) :
    (move.turn heap).Plain heap := by
  cases move with
  | run code => exact plain_run rfl (.inl rfl)
  | ret v => exact plain_ret rfl
  | raise payload => exact plain_raise rfl
  | ask r code => exact plain_call rfl (.inl rfl) rfl trivial
  | wait condition deadline code => exact plain_sleep rfl (by simp) rfl rfl

end Trampoline
