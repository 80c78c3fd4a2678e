import Mathlib.Data.Nat.Find
import Trampoline.Proofs.Threads

/-!
What threads do at once. A request of the host, a unit of work and a report are dealt with in the
turn that follows the one that leads to them, so each of them comes of one turn: a unit of work is
performed within the boundary of a scheduler or for the host, and what is reported is a panic that
has come to a boundary, the panic of a forked effect, work for which no thread could be started, or
what the host asks for.
-/

namespace Trampoline

variable {H : Host}

/-- The name under which a scheduler reports what escapes its work. -/
def Heap.reportName {D F : Type} (heap : Heap D F) (s : SchedulerId) : String :=
  (heap.schedulers[s]?.map Scheduler.reportName).getD ""

/-- What completes a fiber whose effect has panicked. -/
def Task.marking (value error : Ty) (fiber : PromiseId) (payload : Payload) : Task H :=
  .fill fiber (.slot value error (.panicked (.ofPanic "fiber" payload)))

/-- Whether a task is done in the turn after the one that leads to it. -/
def Task.IsUrgent : Task H → Prop
  | .request _ => True
  | .perform _ => True
  | .report _ _ => True
  | _ => False

/-- What leads to an urgent task, above a stack. -/
inductive Thread.Urges (heap : Heap H.Data H.Fn) : Thread H → Task H → List (Return H) → Prop where
  | host {name : Option String} {code code' : H.Code} {reply : Reply H.Data H.Fn}
      {q : Request H.Data H.Fn} {stack : List (Return H)} :
      Urges heap ⟨name, .run (.user code reply), stack⟩ (.request q) (.user code' :: stack)
  | perform {name : Option String} {work : Work H.Data H.Fn} {stack : List (Return H)} :
      Urges heap ⟨name, .run (.request (.perform work)), stack⟩ (.perform work) stack
  | submit {name : Option String} {s : SchedulerId} {work : Work H.Data H.Fn}
      {stack : List (Return H)} :
      Urges heap ⟨name, .run (.submit s work), stack⟩ (.perform work) (.guarded s :: stack)
  | report {name : Option String} {s : SchedulerId} {failure : WorkFailure}
      {stack : List (Return H)} :
      Urges heap ⟨name, .run (.request (.report s failure)), stack⟩ (.report s failure) stack
  | unspawned {name : Option String} {s : SchedulerId} {work : Work H.Data H.Fn}
      {scheduler : String} {stackSize : Option Nat} {spawned : Nat} {hook : Hook H.Fn}
      {reason : String} {stack : List (Return H)} :
      heap.schedulers[s]? = some (.threads scheduler stackSize spawned hook) →
        stackSize.bind H.spawnError = some reason →
          Urges heap ⟨name, .run (.submit s work), stack⟩
            (.report s (.unspawned scheduler reason)) stack
  | escaped {name : Option String} {payload : Payload} {s : SchedulerId}
      {stack : List (Return H)} :
      Urges heap ⟨name, .raise payload, .guarded s :: stack⟩
        (.report s (.ofPanic (heap.reportName s) payload)) stack
  | forked {name : Option String} {payload : Payload} {value error : Ty} {fiber : PromiseId}
      {s : SchedulerId} {stack : List (Return H)} :
      Urges heap
        ⟨name, .run (.conclude (.panicked payload) (.fiber value error fiber s)), stack⟩
        (.report s (.ofPanic "fiber" payload))
        (.after (.marking value error fiber payload) :: .after (.give .unit) :: stack)

/-- A return that does not go on with an urgent task. -/
def Return.IsMute (back : Return H) : Prop := ∀ task ∈ back.held, ¬task.IsUrgent

/-- A control that has an urgent task in hand does it at once. -/
def Control.IsPunctual (control : Control H) : Prop :=
  ∀ task ∈ control.held, task.IsUrgent → control = .run task

structure Thread.IsPunctual (thread : Thread H) : Prop where
  control : thread.control.IsPunctual
  stack : ∀ back ∈ thread.stack, back.IsMute

/-- A turn that leads to no urgent task. -/
def Turn.IsMute (turn : Turn H) : Prop := ∀ task ∈ turn.held, ¬task.IsUrgent

/-- What a turn leads to: no urgent task, or one that its thread does next, or the work of a thread
that it starts. -/
inductive Turn.Urges (heap : Heap H.Data H.Fn) (thread : Thread H) (rest : List (Return H))
    (turn : Turn H) : Prop where
  | mute : turn.IsMute → Urges heap thread rest turn
  | next {task : Task H} :
      turn.control = .run task → (∀ back ∈ turn.pushed, back.IsMute) → turn.born = none →
        thread.Urges heap task (turn.pushed ++ rest) → Urges heap thread rest turn
  | spawn {s : SchedulerId} {work : Work H.Data H.Fn} {name : Option String} :
      thread.control = .run (.submit s work) → turn.control = .ret .unit → turn.pushed = [] →
        turn.born = some ⟨name, .run (.perform work), [.guarded s]⟩ → Urges heap thread rest turn

theorem Control.isPunctual_run (task : Task H) : (Control.run task).IsPunctual := fun _ hmem _ =>
  congrArg Control.run (List.mem_singleton.1 hmem).symm

section Turns

variable {heap : Heap H.Data H.Fn} {here : Here} {stack : List (Return H)}

theorem Ask.turn_isMute (question : Ask H.Data H.Fn) :
    (question.turn (H := H) here heap).IsMute := by
  cases question <;>
    simp [Turn.IsMute, turn, Turn.run, Turn.ret, Turn.seq, Turn.call, Turn.held, Control.held,
      Return.held, Task.IsUrgent]

theorem Request.turn_isMute {q : Request H.Data H.Fn} (hperform : ∀ work, q ≠ .perform work)
    (hreport : ∀ s failure, q ≠ .report s failure) : (q.turn (H := H) stack heap).IsMute := by
  cases q with
  | perform work => exact absurd rfl (hperform work)
  | report s failure => exact absurd rfl (hreport s failure)
  | _ =>
      simp only [turn]
      repeat' split
      all_goals simp [Turn.IsMute, Turn.run, Turn.ret, Turn.raise, Turn.seq, Turn.discard,
        Turn.call,
        Turn.held, Thread.held, Thread.starting, Control.held, Return.held, Task.IsUrgent]

theorem Task.submitTurn_urges (id : SchedulerId) (work : Work H.Data H.Fn) {name : Option String} :
    (submitTurn (H := H) heap id work).Urges heap ⟨name, .run (.submit id work), stack⟩ stack := by
  simp only [submitTurn]
  split
  · exact .next rfl (by simp [Turn.call, Return.IsMute, Return.held]) rfl .submit
  · exact .next rfl (by simp [Turn.call, Return.IsMute, Return.held]) rfl .submit
  · rename_i hthreads
    split
    · exact .mute (by simp [Turn.IsMute, Turn.raise, Turn.held, Control.held])
    · split
      · rename_i hreason
        exact .next rfl (by simp [Turn.run]) rfl (.unspawned hthreads hreason)
      · exact .spawn rfl rfl rfl rfl
  · exact .spawn rfl rfl rfl rfl
  · exact .mute (by simp [Turn.IsMute, Turn.seq, Turn.discard, Turn.call, Turn.held,
      Control.held, Return.held, Task.IsUrgent])
  · exact .mute (by simp [Turn.IsMute, Turn.ret, Turn.held, Control.held])

theorem Task.concludeTurn_urges (exit : Exit (Outcome H.Data H.Fn)) (finish : Finish H.Fn)
    {name : Option String} :
    (concludeTurn (H := H) heap exit finish).Urges heap
      ⟨name, .run (.conclude exit finish), stack⟩ stack := by
  cases finish with
  | fiber value error fiber s =>
      cases exit with
      | panicked payload =>
          exact .next rfl (by simp [concludeTurn, Return.IsMute, Return.held, Task.IsUrgent]) rfl
            .forked
      | settled outcome =>
          simp only [concludeTurn]
          split <;> exact .mute (by simp [Turn.IsMute, Turn.raise, Turn.seq,
            Turn.discard, Turn.call, Turn.held, Control.held, Return.held, Task.IsUrgent])
  | _ =>
      simp only [concludeTurn]
      repeat' split
      all_goals exact .mute (by simp [Turn.IsMute, Turn.run, Turn.ret, Turn.raise,
        Turn.held, Control.held, Task.IsUrgent])

theorem Task.turn_urges (task : Task H) {name : Option String} :
    (task.turn here stack heap).Urges heap ⟨name, .run task, stack⟩ stack := by
  cases task with
  | request q =>
      by_cases hperform : ∃ work, q = .perform work
      · obtain ⟨work, rfl⟩ := hperform
        exact .next rfl (by simp [turn, Request.turn, Turn.run]) rfl .perform
      · by_cases hreport : ∃ s failure, q = .report s failure
        · obtain ⟨s, failure, rfl⟩ := hreport
          exact .next rfl (by simp [turn, Request.turn, Turn.run]) rfl .report
        · exact .mute (Request.turn_isMute (fun work h => hperform ⟨work, h⟩)
            fun s failure h => hreport ⟨s, failure, h⟩)
  | submit id work => exact submitTurn_urges id work
  | conclude exit finish => exact concludeTurn_urges exit finish
  | answer question => exact .mute question.turn_isMute
  | perform work =>
      refine .mute ?_
      cases work <;> simp [Turn.IsMute, turn, Turn.run, Turn.seq, Turn.discard, Turn.call,
        Turn.held, Control.held, Return.held, Task.IsUrgent]
  | invoke target outcome =>
      refine .mute ?_
      cases target <;> simp [Turn.IsMute, turn, Turn.run, Turn.seq, Turn.discard, Turn.call,
        Turn.held, Control.held, Return.held, Task.IsUrgent]
  | notify id v subscribers first =>
      refine .mute ?_
      cases subscribers <;> cases first <;> simp [Turn.IsMute, turn, Turn.ret, Turn.raise,
        Turn.call, Turn.held, Control.held, Return.held, Task.IsUrgent]
  | _ =>
      refine .mute ?_
      simp only [turn, reportTurn, deliverTurn, parkTurn, driveTurn, registerTurn, tellTurn]
      repeat' split
      all_goals simp [Turn.IsMute, Turn.run, Turn.ret, Turn.raise, Turn.seq, Turn.discard,
        Turn.call, Turn.sleep, Turn.held, Control.held, Return.held, Task.IsUrgent]

theorem Return.resume_isMute {back : Return H} (h : back.IsMute) (v : Value H.Data H.Fn) :
    (back.resume heap v).IsMute := by
  cases back with
  | after task =>
      have hmute := h task (List.mem_singleton_self _)
      simpa [Turn.IsMute, resume, Turn.run, Turn.held, Control.held] using hmute
  | reading =>
      simp only [resume, readTurn]
      repeat' split
      all_goals simp [Turn.IsMute, Turn.ret, Turn.raise, Turn.held, Control.held]
  | _ =>
      simp [Turn.IsMute, resume, Turn.run, Turn.ret, Turn.held, Control.held, Task.IsUrgent]

theorem Return.unwind_urges (back : Return H) (payload : Payload) {name : Option String} :
    (back.unwind heap payload).Urges heap ⟨name, .raise payload, back :: stack⟩ stack := by
  cases back with
  | guarded s => exact .next rfl (by simp [unwind, Turn.run]) rfl .escaped
  | _ =>
      exact .mute (by simp [Turn.IsMute, unwind, Turn.run, Turn.raise, Turn.call,
        Turn.held, Control.held, Return.held, Task.IsUrgent])

theorem Move.turn_urges (move : Move H.Data H.Fn H.Code H.Condition) {name : Option String}
    {code : H.Code} {reply : Reply H.Data H.Fn} :
    (move.turn heap).Urges heap ⟨name, .run (.user code reply), stack⟩ stack := by
  cases move with
  | ask q code' => exact .next rfl (by simp [turn, Turn.call, Return.IsMute, Return.held]) rfl .host
  | _ =>
      exact .mute (by simp [Turn.IsMute, turn, Turn.run, Turn.ret, Turn.raise,
        Turn.sleep, Turn.held, Control.held, Task.IsUrgent])

theorem Thread.Turning.urges {thread : Thread H} {t : ThreadId} {state state' : H.State}
    {rest : List (Return H)} {turn : Turn H} (h : thread.Turning t heap state state' rest turn)
    (hstack : ∀ back ∈ thread.stack, back.IsMute) : turn.Urges heap thread rest := by
  cases h with
  | move => exact Move.turn_urges _
  | task => exact Task.turn_urges _
  | ret => exact .mute (Return.resume_isMute (hstack _ List.mem_cons_self) _)
  | raise => exact Return.unwind_urges _ _

/-- A turn takes at most one return off the stack. -/
theorem Thread.Turning.suffix {thread : Thread H} {t : ThreadId} {state state' : H.State}
    {rest : List (Return H)} {turn : Turn H} (h : thread.Turning t heap state state' rest turn) :
    rest <:+ thread.stack := by
  cases h with
  | ret => exact List.suffix_cons _ _
  | raise => exact List.suffix_cons _ _
  | _ => exact List.suffix_rfl

/-- A thread that takes its turn leaves its stack as it is, or goes back to the top of it. -/
theorem Thread.Turning.pops {thread : Thread H} {t : ThreadId} {heap : Heap H.Data H.Fn}
    {state state' : H.State} {rest : List (Return H)} {turn : Turn H}
    (h : thread.Turning t heap state state' rest turn) :
    rest = thread.stack ∨ ∃ back, thread.stack = back :: rest ∧
      ((∃ v, thread.control = .ret v ∧ turn = back.resume heap v) ∨
        ∃ payload, thread.control = .raise payload ∧ turn = back.unwind heap payload) := by
  cases h with
  | move => exact .inl rfl
  | task => exact .inl rfl
  | ret => exact .inr ⟨_, rfl, .inl ⟨_, rfl, rfl⟩⟩
  | raise => exact .inr ⟨_, rfl, .inr ⟨_, rfl, rfl⟩⟩

/-- A turn that has been urged leads to no urgent task but the next one of its thread. -/
theorem Turn.Urges.punctual {thread : Thread H} {rest : List (Return H)} {turn : Turn H}
    (h : turn.Urges heap thread rest) :
    turn.control.IsPunctual ∧ (∀ back ∈ turn.pushed, back.IsMute) ∧
      ∀ thread', turn.born = some thread' → thread'.IsPunctual := by
  cases h with
  | mute hmute =>
      have hheld : ∀ task, task ∈ turn.control.held ∨ (∃ back ∈ turn.pushed, task ∈ back.held) ∨
          (∃ thread', turn.born = some thread' ∧ task ∈ thread'.held) → ¬task.IsUrgent := by
        intro task hmem
        refine hmute task ?_
        rcases hmem with hmem | ⟨back, hback, hmem⟩ | ⟨thread', hborn, hmem⟩
        · simp [Turn.held, hmem]
        · exact List.mem_append_left _
            (List.mem_append_right _ (List.mem_flatMap.2 ⟨back, hback, hmem⟩))
        · simp [Turn.held, hborn, hmem]
      refine ⟨fun task hmem hurgent => absurd hurgent (hheld task (.inl hmem)),
        fun back hback task hmem => hheld task (.inr (.inl ⟨back, hback, hmem⟩)),
        fun thread' hborn => ⟨fun task hmem hurgent => ?_, fun back hback task hmem => ?_⟩⟩
      · exact absurd hurgent
          (hheld task (.inr (.inr ⟨thread', hborn, List.mem_append_left _ hmem⟩)))
      · exact hheld task (.inr (.inr ⟨thread', hborn,
          List.mem_append_right _ (List.mem_flatMap.2 ⟨back, hback, hmem⟩)⟩))
  | next hcontrol hpushed hborn =>
      exact ⟨hcontrol ▸ Control.isPunctual_run _, hpushed, by simp [hborn]⟩
  | @spawn s work name _ hcontrol hpushed hborn =>
      refine ⟨by simp [hcontrol, Control.IsPunctual, Control.held], by simp [hpushed], ?_⟩
      rintro thread' hthread'
      obtain rfl := Option.some.inj (hborn.symm.trans hthread')
      exact ⟨Control.isPunctual_run _, by simp [Return.IsMute, Return.held]⟩

end Turns

/-- A thread that has a task with a property in hand is about to do it. -/
structure Thread.HandlesAtOnce (P : Task H → Prop) (thread : Thread H) : Prop where
  control : ∀ task ∈ thread.control.held, P task → thread.control = .run task
  stack : ∀ back ∈ thread.stack, ∀ task ∈ back.held, ¬P task

/-- A turn that leads to a task with a property only if its thread, or one that it starts, does the
task next. -/
structure Turn.HandlesAtOnce (P : Task H → Prop) (turn : Turn H) : Prop where
  control : ∀ task ∈ turn.control.held, P task → turn.control = .run task
  pushed : ∀ back ∈ turn.pushed, ∀ task ∈ back.held, ¬P task
  born : ∀ thread, turn.born = some thread → thread.HandlesAtOnce P

theorem Turn.HandlesAtOnce.of_none {P : Task H → Prop} {turn : Turn H}
    (h : ∀ task ∈ turn.held, ¬P task) : turn.HandlesAtOnce P := by
  refine ⟨fun task hmem hP => ?_, fun back hback task hmem => ?_, fun thread hborn =>
    ⟨fun task hmem hP => ?_, fun back hback task hmem => ?_⟩⟩
  · exact absurd hP (h task (List.mem_append_left _ (List.mem_append_left _ hmem)))
  · exact h task (List.mem_append_left _
      (List.mem_append_right _ (List.mem_flatMap.2 ⟨back, hback, hmem⟩)))
  · refine absurd hP (h task (List.mem_append_right _ ?_))
    rw [hborn]
    exact List.mem_append_left _ hmem
  · refine h task (List.mem_append_right _ ?_)
    rw [hborn]
    exact List.mem_append_right _ (List.mem_flatMap.2 ⟨back, hback, hmem⟩)

namespace Run

variable {r : Run H} {n m : Nat} {t : ThreadId} {thread : Thread H} {name : Option String}
  {stack : List (Return H)} {task : Task H}

/-- At time `n` it is the turn of thread `t`, which is in this control above a stack. -/
def Turns (r : Run H) (n : Nat) (t : ThreadId) (control : Control H) (stack : List (Return H)) :
    Prop :=
  r.action n = .thread t ∧ ∃ name, (r.world n).threads[t]? = some ⟨name, control, stack⟩

/-- After the turn at time `n`, the next one of thread `t` is at time `m`. -/
structure NextTurn (r : Run H) (t : ThreadId) (n m : Nat) : Prop where
  lt : n < m
  first : r.action n = .thread t
  next : r.action m = .thread t
  between : ∀ j, n < j → j < m → r.action j ≠ .thread t

theorem NextTurn.unique {m' : Nat} (h : r.NextTurn t n m) (h' : r.NextTurn t n m') : m = m' := by
  rcases Nat.lt_trichotomy m m' with hlt | heq | hlt
  · exact absurd h.next (h'.between m h.lt hlt)
  · exact heq
  · exact absurd h'.next (h.between m' h'.lt hlt)

/-- A thread that is let and takes no turn stays as it is. -/
theorem thread_of_others (ht : (r.world n).threads[t]? = some thread) (hready : thread.IsReady)
    (hnm : n ≤ m) (hothers : ∀ j, n ≤ j → j < m → r.action j ≠ .thread t) :
    (r.world m).threads[t]? = some thread := by
  induction hnm with
  | refl => exact ht
  | @step m hnm ih =>
      exact thread_of_other (ih fun j hj hjm => hothers j hj (Nat.lt_succ_of_lt hjm)) hready
        (hothers m hnm (Nat.lt_succ_self m))

/-- The first turn that a thread takes. -/
theorem Fair.exists_first (hfair : r.Fair) (ht : (r.world n).threads[t]? = some thread)
    (hready : thread.IsReady) :
    ∃ m, n ≤ m ∧ r.action m = .thread t ∧ (∀ j, n ≤ j → j < m → r.action j ≠ .thread t) ∧
      (r.world m).threads[t]? = some thread := by
  classical
  have hacts : ∃ m, n ≤ m ∧ r.action m = .thread t := by
    obtain ⟨m, hm, haction, -⟩ := hfair.exists_ready ht hready
    exact ⟨m, hm, haction⟩
  obtain ⟨hm, haction⟩ := Nat.find_spec hacts
  have hothers (j : Nat) (hj : n ≤ j) (hjm : j < Nat.find hacts) : r.action j ≠ .thread t :=
    fun hturn => Nat.find_min hacts hjm ⟨hj, hturn⟩
  exact ⟨_, hm, haction, hothers, thread_of_others ht hready hm hothers⟩

/-- A thread that has taken a turn takes another one, unless it sleeps or has ended. -/
theorem Fair.exists_nextTurn (hfair : r.Fair) (haction : r.action n = .thread t)
    (ht : (r.world (n + 1)).threads[t]? = some thread) (hready : thread.IsReady) :
    ∃ m, r.NextTurn t n m ∧ (r.world m).threads[t]? = some thread := by
  obtain ⟨m, hm, hnext, hothers, ht'⟩ := hfair.exists_first ht hready
  exact ⟨m, ⟨hm, haction, hnext, hothers⟩, ht'⟩

/-- The next turn of a thread whose turn leads to a control above a stack. -/
theorem Fair.exists_turns {control control' : Control H} {stack' : List (Return H)}
    (hfair : r.Fair) (h : r.Turns n t control stack)
    (hturn : ∀ name, ∃ state rest turn,
      Thread.turn? t (r.world n).heap (r.world n).state ⟨name, control, stack⟩ =
          some (state, rest, turn) ∧ turn.control = control' ∧ turn.pushed ++ rest = stack')
    (hready : ∀ name, Thread.IsReady ⟨name, control', stack'⟩) :
    ∃ m, r.NextTurn t n m ∧ r.Turns m t control' stack' := by
  obtain ⟨haction, name, ht⟩ := h
  obtain ⟨state, rest, turn, hnow, rfl, rfl⟩ := hturn name
  obtain ⟨-, hnext⟩ := next_of_action haction ht hnow
  rw [(hready name).heard] at hnext
  obtain ⟨m, hm, ht'⟩ := hfair.exists_nextTurn haction hnext (hready name)
  exact ⟨m, hm, hm.next, name, ht'⟩

/-- What has led to a task of thread `t`, which has taken no turn since: a turn of its own, or the
start of the thread. -/
inductive LedTo (r : Run H) (n : Nat) (t : ThreadId) (task : Task H) (stack : List (Return H)) :
    Prop where
  | turn {thread : Thread H} {state : H.State} {rest : List (Return H)} {turn : Turn H} :
      r.action n = .thread t → (r.world n).threads[t]? = some thread →
        thread.turn? t (r.world n).heap (r.world n).state = some (state, rest, turn) →
          turn.control = .run task → turn.pushed ++ rest = stack → LedTo r n t task stack
  | start {t₀ : ThreadId} {name : Option String} {thread : Thread H} {state : H.State}
      {rest : List (Return H)} {turn : Turn H} :
      r.action n = .thread t₀ → (r.world n).threads[t₀]? = some thread →
        thread.turn? t₀ (r.world n).heap (r.world n).state = some (state, rest, turn) →
          turn.born = some ⟨name, .run task, stack⟩ → (r.world n).threads[t]? = none →
            LedTo r n t task stack

section AtOnce

variable {P : Task H → Prop} (hstart : (r.world 0).Starting)
  (hkeeps : ∀ {thread : Thread H} {t : ThreadId} {heap : Heap H.Data H.Fn} {state state' : H.State}
    {rest : List (Return H)} {turn : Turn H}, thread.HandlesAtOnce P →
      thread.Turning t heap state state' rest turn → turn.HandlesAtOnce P)
include hstart hkeeps

/-- What every turn does at once is done at once in the whole run. -/
theorem handlesAtOnce (ht : (r.world n).threads[t]? = some thread) : thread.HandlesAtOnce P := by
  induction n generalizing t thread with
  | zero =>
      obtain ⟨name, code, rfl⟩ := hstart.threads t thread ht
      refine ⟨fun task hmem _ => ?_, by simp [Thread.starting]⟩
      exact congrArg Control.run (List.mem_singleton.1 hmem).symm
  | succ n ih =>
      cases (r.ordered n).becomes (r.step n) ht with
      | @waits before ht₀ hstack hheld hready =>
          have hbefore := ih ht₀
          refine ⟨fun task hmem hP => ?_, hstack ▸ hbefore.stack⟩
          have hcontrol := hbefore.control task (hheld _ hmem) hP
          obtain ⟨name, control, stack⟩ := before
          obtain rfl : control = _ := hcontrol
          rw [hready trivial]
      | @acts before state rest turn haction ht₀ hturn heq =>
          subst heq
          have hatonce := hkeeps (ih ht₀) (Thread.turning hturn)
          refine ⟨fun task hmem hP => ?_, fun back hback => ?_⟩
          · rw [hatonce.control task (Thread.mem_held_of_control_heard hmem) hP]
            cases turn.notified <;> rfl
          · rw [Thread.stack_heard] at hback
            rcases List.mem_append.1 hback with hnew | hkept
            · exact hatonce.pushed back hnew
            · exact (ih ht₀).stack back ((Thread.turning hturn).suffix.subset hkept)
      | starts haction ht₀ hturn hborn =>
          exact (hkeeps (ih ht₀) (Thread.turning hturn)).born _ hborn

/-- A task that is done at once has been led to by the last turn of its thread, or by the start of
the thread. -/
theorem exists_ledTo (huser : ∀ code reply, ¬P (.user code reply)) (hP : P task)
    (ht : (r.world m).threads[t]? = some ⟨name, .run task, stack⟩) :
    ∃ n, n < m ∧ r.LedTo n t task stack ∧ ∀ j, n < j → j < m → r.action j ≠ .thread t := by
  induction m with
  | zero =>
      obtain ⟨name', code, heq⟩ := hstart.threads t _ ht
      obtain ⟨-, hcontrol, -⟩ := Thread.mk.inj heq
      obtain rfl := Control.run.inj hcontrol
      exact absurd hP (huser _ _)
  | succ m ih =>
      have hnone (j : Nat) (hj : m < j) (hjm : j < m + 1) : r.action j ≠ .thread t :=
        absurd (Nat.le_of_lt_succ hjm) (Nat.not_le.2 hj)
      have hacts {before : Thread H} {state : H.State} {rest : List (Return H)} {turn : Turn H}
          (haction : r.action m = .thread t) (ht₀ : (r.world m).threads[t]? = some before)
          (hturn : before.turn? t (r.world m).heap (r.world m).state = some (state, rest, turn))
          (heq : ⟨name, .run task, stack⟩ =
            Thread.heard turn.notified ⟨before.name, turn.control, turn.pushed ++ rest⟩) :
          ∃ n, n < m + 1 ∧ r.LedTo n t task stack ∧
            ∀ j, n < j → j < m + 1 → r.action j ≠ .thread t := by
        have hheld : task ∈ turn.control.held := by
          refine @Thread.mem_held_of_control_heard H
            ⟨before.name, turn.control, turn.pushed ++ rest⟩ turn.notified task ?_
          rw [← heq]
          exact List.mem_singleton_self _
        have hstack := congrArg Thread.stack heq
        rw [Thread.stack_heard] at hstack
        have hatonce := hkeeps (r.handlesAtOnce hstart hkeeps ht₀) (Thread.turning hturn)
        exact ⟨m, Nat.lt_succ_self m,
          .turn haction ht₀ hturn (hatonce.control task hheld hP) hstack.symm, hnone⟩
      cases (r.ordered m).becomes (r.step m) ht with
      | @waits before ht₀ hstack hheld hready =>
          have hcontrol := (r.handlesAtOnce hstart hkeeps ht₀).control task
            (hheld _ (List.mem_singleton_self _)) hP
          have hbefore : before.IsReady := by
            obtain ⟨name, control, stack⟩ := before
            obtain rfl : control = _ := hcontrol
            trivial
          obtain rfl := hready hbefore
          by_cases haction : r.action m = .thread t
          · obtain ⟨⟨state, rest, turn⟩, hturn⟩ :=
              Thread.exists_turn hbefore t (r.world m).heap (r.world m).state
            obtain ⟨-, hnext⟩ := next_of_action haction ht₀ hturn
            exact hacts haction ht₀ hturn (Option.some.inj (ht.symm.trans hnext))
          · obtain ⟨n, hn, hled, hbetween⟩ := ih ht₀
            refine ⟨n, Nat.lt_succ_of_lt hn, hled, fun j hj hjm => ?_⟩
            rcases Nat.lt_succ_iff_lt_or_eq.1 hjm with hlt | rfl
            · exact hbetween j hj hlt
            · exact haction
      | acts haction ht₀ hturn heq => exact hacts haction ht₀ hturn heq
      | starts haction ht₀ hturn hborn hfree =>
          exact ⟨m, Nat.lt_succ_self m, .start haction ht₀ hturn hborn hfree, hnone⟩

end AtOnce

theorem keeps_urgent {thread : Thread H} {t : ThreadId} {heap : Heap H.Data H.Fn}
    {state state' : H.State} {rest : List (Return H)} {turn : Turn H}
    (h : thread.HandlesAtOnce Task.IsUrgent)
    (hturn : thread.Turning t heap state state' rest turn) :
    turn.HandlesAtOnce Task.IsUrgent := by
  obtain ⟨hcontrol, hpushed, hborn⟩ := (hturn.urges h.stack).punctual
  exact ⟨hcontrol, hpushed, fun thread' h => ⟨(hborn thread' h).control, (hborn thread' h).stack⟩⟩

/-- A thread that has an urgent task in hand is about to do it. -/
theorem isPunctual (hstart : (r.world 0).Starting) (ht : (r.world n).threads[t]? = some thread) :
    thread.IsPunctual :=
  have hatonce := r.handlesAtOnce hstart keeps_urgent ht
  ⟨hatonce.control, hatonce.stack⟩

/-- What has led to an urgent task of thread `t`, which has taken no turn since: a turn of its own,
or its start by a scheduler that performs the work on it. -/
inductive Urged (r : Run H) (n : Nat) (t : ThreadId) (task : Task H) (stack : List (Return H)) :
    Prop where
  | turn {thread : Thread H} :
      r.action n = .thread t → (r.world n).threads[t]? = some thread →
        thread.Urges (r.world n).heap task stack → Urged r n t task stack
  | start {t₀ : ThreadId} {s : SchedulerId} {work : Work H.Data H.Fn} :
      r.Does n t₀ (.submit s work) → task = .perform work → stack = [.guarded s] →
        Urged r n t task stack

/-- An urgent task to which a turn of its thread has led has been urged by it. -/
theorem urges_of_turn (hstart : (r.world 0).Starting) (hurgent : task.IsUrgent)
    {state : H.State} {rest : List (Return H)} {turn : Turn H}
    (ht : (r.world n).threads[t]? = some thread)
    (hturn : thread.turn? t (r.world n).heap (r.world n).state = some (state, rest, turn))
    (hcontrol : turn.control = .run task) :
    thread.Urges (r.world n).heap task (turn.pushed ++ rest) := by
  cases (Thread.turning hturn).urges (isPunctual hstart ht).stack with
  | mute hmute =>
      refine absurd hurgent (hmute task ?_)
      simp [Turn.held, hcontrol, Control.held]
  | next hnext _ _ hurges =>
      obtain rfl := Control.run.inj (hcontrol.symm.trans hnext)
      exact hurges
  | spawn _ hnext => simp [hcontrol] at hnext

theorem exists_urged (hstart : (r.world 0).Starting) (hurgent : task.IsUrgent)
    (ht : (r.world m).threads[t]? = some ⟨name, .run task, stack⟩) :
    ∃ n, n < m ∧ r.Urged n t task stack ∧ ∀ j, n < j → j < m → r.action j ≠ .thread t := by
  obtain ⟨n, hn, hled, hbetween⟩ :=
    r.exists_ledTo hstart keeps_urgent (fun _ _ => id) hurgent ht
  refine ⟨n, hn, ?_, hbetween⟩
  cases hled with
  | turn haction ht₀ hturn hcontrol hstack =>
      exact .turn haction ht₀ (hstack ▸ urges_of_turn hstart hurgent ht₀ hturn hcontrol)
  | @start t₀ name' before state rest turn haction ht₀ hturn hborn =>
      cases (Thread.turning hturn).urges (isPunctual hstart ht₀).stack with
      | mute hmute =>
          refine absurd hurgent (hmute task ?_)
          simp [Turn.held, hborn, Thread.held, Control.held]
      | next _ _ hnone => simp [hborn] at hnone
      | spawn hcontrol _ _ hspawned =>
          obtain ⟨name', control, stack'⟩ := before
          obtain rfl : control = _ := hcontrol
          obtain ⟨-, hrun, rfl⟩ := Thread.mk.inj (Option.some.inj (hborn.symm.trans hspawned))
          exact .start ⟨haction, name', stack', ht₀⟩ (Control.run.inj hrun) rfl

/-- Every report comes of the turn that its thread has taken before: the host has asked for it, a
panic has come to the boundary of the scheduler, or an effect forked on the scheduler has
panicked. -/
theorem exists_cause (hstart : (r.world 0).Starting) {s : SchedulerId} {failure : WorkFailure}
    (h : r.Turns m t (.run (.report s failure)) stack) :
    ∃ n thread, r.NextTurn t n m ∧ (r.world n).threads[t]? = some thread ∧
      thread.Urges (r.world n).heap (.report s failure) stack := by
  obtain ⟨haction, name, ht⟩ := h
  have hurgent : (Task.report s failure : Task H).IsUrgent := trivial
  obtain ⟨n, hn, hurged, hbetween⟩ := exists_urged hstart hurgent ht
  cases hurged with
  | turn hfirst ht₀ hurges => exact ⟨n, _, ⟨hn, hfirst, haction, hbetween⟩, ht₀, hurges⟩
  | start _ htask => contradiction

/-- The report that thread `t` makes at time `m` comes of its turn at time `n`. -/
def ReportsFor (r : Run H) (n m : Nat) (t : ThreadId) (s : SchedulerId) (failure : WorkFailure) :
    Prop :=
  r.NextTurn t n m ∧ ∃ stack, r.Turns m t (.run (.report s failure)) stack

/-- Of the turn of thread `t` at time `n` comes this report to a scheduler, and no other one. -/
def ReportsOnce (r : Run H) (n : Nat) (t : ThreadId) (s : SchedulerId) (failure : WorkFailure)
    (stack : List (Return H)) : Prop :=
  ∃ m, r.NextTurn t n m ∧ r.Turns m t (.run (.report s failure)) stack ∧
    ∀ m' s' failure', r.ReportsFor n m' t s' failure' → m' = m ∧ s' = s ∧ failure' = failure

theorem Turns.does (h : r.Turns n t (.run task) stack) : r.Does n t task := by
  obtain ⟨haction, name, ht⟩ := h
  exact ⟨haction, name, stack, ht⟩

theorem Turns.unique {control control' : Control H} {stack' : List (Return H)}
    (h : r.Turns n t control stack) (h' : r.Turns n t control' stack') :
    control = control' ∧ stack = stack' := by
  obtain ⟨-, name, ht⟩ := h
  obtain ⟨-, name', ht'⟩ := h'
  obtain ⟨-, hcontrol, hstack⟩ := Thread.mk.inj (Option.some.inj (ht.symm.trans ht'))
  exact ⟨hcontrol, hstack⟩

theorem reportsOnce {s : SchedulerId} {failure : WorkFailure} (hnext : r.NextTurn t n m)
    (hreport : r.Turns m t (.run (.report s failure)) stack) :
    r.ReportsOnce n t s failure stack := by
  refine ⟨m, hnext, hreport, fun m' s' failure' h => ?_⟩
  obtain ⟨hnext', stack', hreport'⟩ := h
  obtain rfl := hnext'.unique hnext
  obtain ⟨hcontrol, -⟩ := hreport'.unique hreport
  obtain ⟨rfl, rfl⟩ := Task.report.inj (Control.run.inj hcontrol)
  exact ⟨rfl, rfl, rfl⟩

/-- A panic that comes to the boundary of a scheduler is reported to the scheduler. -/
theorem Fair.reports_escaped (hfair : r.Fair) {payload : Payload} {s : SchedulerId}
    (h : r.Turns n t (.raise payload) (.guarded s :: stack)) :
    r.ReportsOnce n t s (.ofPanic ((r.world n).heap.reportName s) payload) stack := by
  obtain ⟨m, hnext, hreport⟩ := hfair.exists_turns h
    (fun name => ⟨_, _, _, rfl, rfl, rfl⟩) fun name => trivial
  exact reportsOnce hnext hreport

end Run

end Trampoline
