import Trampoline.Proofs.Provenance
import Trampoline.Proofs.Threads

/-!
Joining a fiber. The registration of a node that joins a fiber runs on the thread that has come to
the node, asks the host for nothing and comes back without a panic; the node gets the fiber's slot
and nothing else, and gets it once the slot is there.
-/

namespace Trampoline

variable {H : Host}

/-- The node whose registration a return guards. -/
def Return.guards? : Return H → Option HandoffId
  | .guarding id _ => some id
  | _ => none

/-- The nodes whose registrations a turn begins to guard. -/
def Turn.guards (turn : Turn H) : List HandoffId :=
  (turn.pushed ++ (turn.born.map Thread.stack).getD []).filterMap Return.guards?

def Task.guards : Task H → List HandoffId
  | .perform (.register _ id) => [id]
  | _ => []

section Guards

variable {heap : Heap H.Data H.Fn} {here : Here} {stack : List (Return H)}

theorem Request.turn_guards (q : Request H.Data H.Fn) :
    (q.turn (H := H) stack heap).guards = [] := by
  cases q with
  | poll value error future =>
      simp only [turn]
      split <;> rfl
  | dropFuture future =>
      simp only [turn]
      split <;> rfl
  | blockOn value error node =>
      simp only [turn]
      split <;> rfl
  | awaitFor promise nanoseconds =>
      simp only [turn]
      split <;> rfl
  | awaitFiberFor fiber nanoseconds =>
      simp only [turn]
      split <;> rfl
  | spawn name f =>
      simp only [turn]
      split <;> rfl
  | _ => rfl

theorem Task.turn_guards (task : Task H) : (task.turn here stack heap).guards = task.guards := by
  cases task with
  | request q => exact q.turn_guards
  | answer question => cases question <;> rfl
  | drive i last finish =>
      simp only [turn, driveTurn]
      split <;> rfl
  | park id frames last finish =>
      simp only [turn, parkTurn]
      repeat' split
      all_goals rfl
  | deliver id exit origin =>
      simp only [turn, deliverTurn]
      repeat' split
      all_goals rfl
  | conclude exit finish =>
      simp only [turn, concludeTurn]
      repeat' split
      all_goals rfl
  | submit scheduler work =>
      simp only [turn, submitTurn]
      repeat' split
      all_goals rfl
  | perform work => cases work <;> rfl
  | report scheduler failure =>
      simp only [turn, reportTurn]
      repeat' split
      all_goals rfl
  | register register target => cases register <;> rfl
  | invoke target outcome => cases target <;> rfl
  | fill id v =>
      simp only [turn]
      repeat' split
      all_goals rfl
  | take id v =>
      simp only [turn]
      split <;> rfl
  | notify id v subscribers first =>
      cases subscribers with
      | nil => cases first <;> rfl
      | cons subscriber rest => rfl
  | tell subscriber v =>
      cases subscriber with
      | observe value error target =>
          simp only [turn, tellTurn]
          repeat' split
          all_goals rfl
      | _ => rfl
  | subscribe id subscriber =>
      simp only [turn]
      repeat' split
      all_goals rfl
  | await id =>
      simp only [turn]
      split <;> rfl
  | awaitUntil id time =>
      simp only [turn]
      split <;> rfl
  | peek id =>
      simp only [turn]
      repeat' split
      all_goals rfl
  | receive value error channel warning =>
      simp only [turn]
      split <;> rfl
  | collect value error future channel =>
      simp only [turn]
      split <;> rfl
  | hang value error future channel =>
      simp only [turn]
      split <;> rfl
  | _ => rfl

theorem Return.resume_guards (back : Return H) (v : Value H.Data H.Fn) :
    (back.resume heap v).guards = [] := by
  cases back with
  | reading =>
      simp only [resume, readTurn]
      repeat' split
      all_goals rfl
  | _ => rfl

theorem Return.unwind_guards (back : Return H) (payload : Payload) :
    (back.unwind heap payload).guards = [] := by
  cases back <;> rfl

theorem Move.turn_guards (move : Move H.Data H.Fn H.Code H.Condition) :
    (move.turn heap).guards = [] := by
  cases move <;> rfl

end Guards

/-- The node whose registration a task hands on. -/
def Task.registers? : Task H → Option HandoffId
  | .submit _ (.register _ id) => some id
  | .perform (.register _ id) => some id
  | _ => none

def Control.IsClear (id : HandoffId) (control : Control H) : Prop :=
  ∀ task ∈ control.held, task.registers? ≠ some id

def Return.IsClear (id : HandoffId) (back : Return H) : Prop :=
  back.guards? ≠ some id ∧ ∀ task ∈ back.held, task.registers? ≠ some id

/-- A thread that has nothing to do with the registration of node `id`. -/
structure Thread.IsClear (id : HandoffId) (thread : Thread H) : Prop where
  control : thread.control.IsClear id
  stack : ∀ back ∈ thread.stack, back.IsClear id

structure Turn.IsClear (id : HandoffId) (turn : Turn H) : Prop where
  control : turn.control.IsClear id
  pushed : ∀ back ∈ turn.pushed, back.IsClear id
  born : ∀ thread, turn.born = some thread → thread.IsClear id

section Clear

variable {id : HandoffId} {heap : Heap H.Data H.Fn} {t : ThreadId}

theorem Turn.isClear_of {turn : Turn H} (hheld : ∀ task ∈ turn.held, task.registers? ≠ some id)
    (hguards : id ∉ turn.guards) : turn.IsClear id := by
  have hguards' (back : Return H)
      (hmem : back ∈ turn.pushed ++ (turn.born.map Thread.stack).getD []) :
      back.guards? ≠ some id := fun heq => hguards (List.mem_filterMap.2 ⟨back, hmem, heq⟩)
  simp only [Turn.held, List.mem_append, List.mem_flatMap] at hheld
  refine ⟨fun task hmem => hheld task (.inl (.inl hmem)), fun back hback => ⟨?_, ?_⟩,
    fun thread hborn => ⟨fun task hmem => ?_, fun back hback => ⟨?_, fun task hmem => ?_⟩⟩⟩
  · exact hguards' back (List.mem_append_left _ hback)
  · exact fun task hmem => hheld task (.inl (.inr ⟨back, hback, hmem⟩))
  · exact hheld task (.inr (by simp [hborn, Thread.held, hmem]))
  · exact hguards' back (List.mem_append_right _ (by simpa [hborn] using hback))
  · refine hheld task (.inr ?_)
    simp only [hborn, Option.map_some, Option.getD_some, Thread.held, List.mem_append,
      List.mem_flatMap]
    exact .inr ⟨back, hback, hmem⟩

theorem Task.IsMinor.registers? {task : Task H} (h : task.IsMinor) : task.registers? = none := by
  cases task with
  | submit scheduler work => exact h.elim
  | perform work => exact h.elim
  | _ => rfl

/-- The registration of a node is handed on by those who have it, comes from the interpretation that
reaches the node, or is handed in by the host. -/
theorem Task.Hands.registers? {task task' : Task H} (h : task.Hands heap task')
    (htask : task.registers? ≠ some id)
    (hreaches : ∀ i last finish register scheduler frames, task = .drive i last finish →
      i.step = .suspend register scheduler frames → id ≠ heap.handoffs.size)
    (hrequest : ∀ q register, task = .request q → q.work? ≠ some (.register register id)) :
    task'.registers? ≠ some id := by
  cases h with
  | minor h => simp [h.registers?]
  | request h =>
      cases h with
      | @submit scheduler work =>
          cases work with
          | register register id' =>
              rintro heq
              obtain rfl := Option.some.inj heq
              exact hrequest _ register rfl rfl
          | _ => simp [Task.registers?]
      | @perform work =>
          cases work with
          | register register id' =>
              rintro heq
              obtain rfl := Option.some.inj heq
              exact hrequest _ register rfl rfl
          | _ => simp [Task.registers?]
      | _ => simp [Task.registers?]
  | suspend hstep =>
      rintro heq
      exact hreaches _ _ _ _ _ _ rfl hstep (Option.some.inj heq).symm
  | @submit scheduler work => cases work <;> exact htask
  | _ => simp [Task.registers?]

theorem Task.turn_isClear {here : Here} {stack : List (Return H)} {task : Task H}
    (htask : task.registers? ≠ some id)
    (hreaches : ∀ i last finish register scheduler frames, task = .drive i last finish →
      i.step = .suspend register scheduler frames → id ≠ heap.handoffs.size)
    (hrequest : ∀ q register, task = .request q → q.work? ≠ some (.register register id)) :
    (task.turn here stack heap).IsClear id := by
  refine Turn.isClear_of (fun task' hmem => ?_) fun hmem => htask ?_
  · exact (Task.turn_hands task task' hmem).registers? htask hreaches hrequest
  · rw [turn_guards] at hmem
    cases task with
    | perform work =>
        cases work with
        | register register id' =>
            obtain rfl := List.mem_singleton.1 hmem
            rfl
        | _ => contradiction
    | _ => contradiction

theorem Return.IsClear.hands {back : Return H} (h : back.IsClear id)
    {v : Except Payload (Value H.Data H.Fn)} {task : Task H} (hhands : back.Hands v task) :
    task.registers? ≠ some id := by
  cases hhands with
  | minor h => simp [h.registers?]
  | after => exact h.2 _ (by simp [held])
  | _ => simp [Task.registers?]

theorem Thread.IsClear.of_held {thread thread' : Thread H} (h : thread.IsClear id)
    (hstack : thread'.stack = thread.stack)
    (hheld : ∀ task ∈ thread'.control.held, task ∈ thread.control.held) : thread'.IsClear id :=
  ⟨fun task hmem => h.control task (hheld task hmem), fun back hmem =>
    h.stack back (hstack ▸ hmem)⟩

/-- A clear thread stays clear and starts none that is not, unless it comes to the node. -/
theorem Thread.IsClear.turn {thread : Thread H} {state state' : H.State} {rest : List (Return H)}
    {turn : Turn H} (h : thread.IsClear id)
    (hturn : thread.turn? t heap state = some (state', rest, turn))
    (hreaches : ∀ i last finish register scheduler frames,
      thread.control = .run (.drive i last finish) →
        i.step = .suspend register scheduler frames → id ≠ heap.handoffs.size)
    (hrequest : ∀ q register, thread.control = .run (.request q) →
      q.work? ≠ some (.register register id)) :
    turn.IsClear id ∧ ∀ back ∈ rest, back.IsClear id := by
  cases Thread.turning hturn with
  | move =>
      refine ⟨Turn.isClear_of (fun task hmem => ?_) (by simp [Move.turn_guards]), h.stack⟩
      simp [(Move.turn_hands _ hmem).registers?]
  | @task name task stack huser =>
      refine ⟨Task.turn_isClear (h.control task (by simp [Control.held])) ?_ ?_, h.stack⟩
      · rintro i last finish register scheduler frames rfl
        exact hreaches i last finish register scheduler frames rfl
      · rintro q register rfl
        exact hrequest q register rfl
  | @ret name v back below =>
      refine ⟨Turn.isClear_of (fun task hmem => ?_) (by simp [Return.resume_guards]),
        fun b hb => h.stack b (List.mem_cons_of_mem _ hb)⟩
      exact (h.stack back (by simp)).hands (back.resume_hands v hmem)
  | @raise name payload back below =>
      refine ⟨Turn.isClear_of (fun task hmem => ?_) (by simp [Return.unwind_guards]),
        fun b hb => h.stack b (List.mem_cons_of_mem _ hb)⟩
      exact (h.stack back (by simp)).hands (back.unwind_hands payload hmem)

end Clear

section Fixed

variable {heap : Heap H.Data H.Fn} {here : Here} {stack : List (Return H)}

/-- A property of schedulers that no work and no report changes. -/
structure Scheduler.IsKept {F : Type} (P : Scheduler F → Prop) : Prop where
  counted {s : Scheduler F} : P s → P s.counted
  reported {s : Scheduler F} (failure : WorkFailure) : P s → P (s.reported failure)

/-- A scheduler that keeps no count of what it gets. -/
structure Scheduler.IsFixed {F : Type} (s : Scheduler F) : Prop where
  counted : s.counted = s
  reported (failure : WorkFailure) : s.reported failure = s

theorem Scheduler.IsFixed.isKept {F : Type} {s : Scheduler F} (h : s.IsFixed) :
    IsKept (· = s) where
  counted heq := heq ▸ h.counted
  reported failure heq := heq ▸ h.reported failure

theorem Scheduler.isKept_isInline {F : Type} :
    IsKept fun s : Scheduler F => s.isInline = true where
  counted {s} h := by cases s <;> exact h
  reported {s} _ h := by cases s <;> exact h

/-- A scheduler that runs whatever it gets on a thread that it starts for this. A thread scheduler
does so if each of its threads can have its name and its stack. -/
def Scheduler.StartsThreads {F : Type} (spawnError : Nat → Option String) : Scheduler F → Prop
  | .threads name stackSize _ _ =>
      (∀ number, refusal? (threadName name number) = none) ∧ stackSize.bind spawnError = none
  | .pool _ => True
  | _ => False

theorem Scheduler.isKept_startsThreads {F : Type} {spawnError : Nat → Option String} :
    IsKept fun s : Scheduler F => s.StartsThreads spawnError where
  counted {s} h := by cases s <;> exact h
  reported {s} _ h := by cases s <;> exact h

/-- A scheduler that starts a thread for whatever is submitted to it comes back at once. -/
theorem Task.submitTurn_of_startsThreads {id : SchedulerId} {kind : Scheduler H.Fn}
    (hkind : heap.schedulers[id]? = some kind) (hstarts : kind.StartsThreads H.spawnError)
    (work : Work H.Data H.Fn) :
    ∃ heap' name, Task.submitTurn (H := H) heap id work =
      ⟨heap', [], .ret .unit, none, some ⟨some name, .run (.perform work), [.guarded id]⟩⟩ := by
  cases kind with
  | threads name stackSize spawned hook =>
      exact ⟨heap.modifyScheduler id .counted, Scheduler.threadName name spawned, by
        simp only [submitTurn, hkind, hstarts.1 spawned, hstarts.2, Thread.starting]⟩
  | pool hook =>
      exact ⟨heap, Scheduler.poolThread, by simp only [submitTurn, hkind, Thread.starting]⟩
  | _ => exact hstarts.elim

theorem Scheduler.isKept_hook {F : Type} (hook : Option (Hook F)) :
    IsKept fun s : Scheduler F => s.hook? = hook where
  counted {s} h := by cases s <;> exact h
  reported {s} _ h := by cases s <;> exact h

variable {P : Scheduler H.Fn → Prop} {id : SchedulerId} {kind : Scheduler H.Fn}

theorem Heap.exists_modifyScheduler {D F : Type} {P : Scheduler F → Prop} {heap : Heap D F}
    {id : SchedulerId} (id' : SchedulerId) {change : Scheduler F → Scheduler F}
    (hchange : ∀ s, P s → P (change s)) (h : ∃ s, heap.schedulers[id]? = some s ∧ P s) :
    ∃ s, (heap.modifyScheduler id' change).schedulers[id]? = some s ∧ P s := by
  obtain ⟨s, hs, hP⟩ := h
  refine ⟨if id' = id then change s else s, ?_, ?_⟩
  · simp only [modifyScheduler, Array.getElem?_modify, hs, Option.map_some]
    split <;> rfl
  · split
    · exact hchange s hP
    · exact hP

theorem Request.turn_schedulers (q : Request H.Data H.Fn) :
    (q.turn (H := H) stack heap).heap.schedulers = heap.schedulers := by
  cases q with
  | poll value error future =>
      simp only [turn]
      split <;> rfl
  | dropFuture future =>
      simp only [turn]
      split <;> rfl
  | blockOn value error node =>
      simp only [turn]
      split <;> rfl
  | awaitFor promise nanoseconds =>
      simp only [turn]
      split <;> rfl
  | awaitFiberFor fiber nanoseconds =>
      simp only [turn]
      split <;> rfl
  | spawn name f =>
      simp only [turn]
      split <;> rfl
  | _ => rfl

theorem Task.exists_scheduler (task : Task H) (hkept : Scheduler.IsKept P)
    (h : ∃ s, heap.schedulers[id]? = some s ∧ P s) :
    ∃ s, (task.turn here stack heap).heap.schedulers[id]? = some s ∧ P s := by
  by_cases hlocal : task.IsLocal
  · rwa [hlocal.isLike.schedulers]
  cases task with
  | request q => rwa [turn, q.turn_schedulers]
  | submit scheduler work =>
      simp only [turn, submitTurn]
      repeat' split
      all_goals first | exact h | exact Heap.exists_modifyScheduler _ (fun _ => hkept.counted) h
  | report scheduler failure =>
      simp only [turn, reportTurn]
      repeat' split
      all_goals first | exact h | exact Heap.exists_modifyScheduler _ (fun _ => hkept.reported _) h
  | collect value error future channel =>
      simp only [turn]
      split <;> exact h
  | hang value error future channel =>
      simp only [turn]
      split <;> exact h
  | _ => exact absurd trivial hlocal

/-- A scheduler has what no work and no report changes at all times. -/
theorem Run.exists_scheduler {r : Run H} (hkept : Scheduler.IsKept P)
    (h : ∃ s, (r.world 0).heap.schedulers[id]? = some s ∧ P s) (n : Nat) :
    ∃ s, (r.world n).heap.schedulers[id]? = some s ∧ P s := by
  induction n with
  | zero => exact h
  | succ n ih =>
      rcases World.heap_of_does (r.step n) with
        ⟨clock, -, hheap⟩ | ⟨t, name, payload, value, error, future, channel, rest, -, -, hheap⟩ |
        ⟨t, name, task, stack, -, -, hheap⟩
      · rw [hheap]
        exact ih
      · rw [hheap]
        exact ih
      · rw [hheap]
        exact task.exists_scheduler hkept ih

/-- A scheduler that keeps no count stays as it is. -/
theorem Run.scheduler {r : Run H} (hfixed : kind.IsFixed)
    (h : (r.world 0).heap.schedulers[id]? = some kind) (n : Nat) :
    (r.world n).heap.schedulers[id]? = some kind := by
  obtain ⟨_, hkind, rfl⟩ := r.exists_scheduler hfixed.isKept ⟨kind, h, rfl⟩ n
  exact hkind

/-- The first scheduler stays the one that runs work on the spot. -/
theorem Run.immediate {r : Run H}
    (h : (r.world 0).heap.schedulers[immediateId]? = some .immediate) (n : Nat) :
    (r.world n).heap.schedulers[immediateId]? = some .immediate :=
  r.scheduler ⟨rfl, fun _ => rfl⟩ h n

end Fixed

/-- Whether a return goes on at once with a reply. -/
def Return.IsBoundary : Return H → Prop
  | .guarded _ => True
  | .guarding _ _ => True
  | .holding _ => True
  | _ => False

theorem Return.IsBoundary.resume {back : Return H} (h : back.IsBoundary)
    (heap : Heap H.Data H.Fn) (v : Value H.Data H.Fn) :
    ∃ v', back.resume heap v = .ret heap v' := by
  cases back with
  | guarded scheduler => exact ⟨.unit, rfl⟩
  | guarding id register => exact ⟨.unit, rfl⟩
  | holding refs => exact ⟨v, rfl⟩
  | _ => exact h.elim

/-- How far the registration of a node that joins a fiber is: what its thread is about to do, and
above which returns. The number bounds the turns that are left. -/
inductive Registering (value error : Ty) (fiber : PromiseId) (id : HandoffId) :
    Nat → Control H → List (Return H) → Prop where
  | submit :
      Registering value error fiber id 10
        (.run (.submit immediateId (.register (.join value error fiber) id))) []
  | perform :
      Registering value error fiber id 9
        (.run (.perform (.register (.join value error fiber) id))) [.guarded immediateId]
  | register {above : List (Return H)} :
      (∀ back ∈ above, back.IsBoundary) →
        Registering value error fiber id (above.length + 6)
          (.run (.register (.join value error fiber) (.node id))) above
  | subscribe {above : List (Return H)} :
      (∀ back ∈ above, back.IsBoundary) →
        Registering value error fiber id (above.length + 5)
          (.run (.subscribe fiber (.join value error (.node id)))) above
  | tell {above : List (Return H)} {v : Value H.Data H.Fn} :
      (∀ back ∈ above, back.IsBoundary) →
        Registering value error fiber id (above.length + 3)
          (.run (.tell (.join value error (.node id)) v)) above
  | invoke {above : List (Return H)} {v : Value H.Data H.Fn} :
      (∀ back ∈ above, back.IsBoundary) →
        Registering value error fiber id (above.length + 2)
          (.run (.invoke (.node id) (.ok v))) above
  | deliver {above : List (Return H)} {v : Value H.Data H.Fn} :
      (∀ back ∈ above, back.IsBoundary) →
        Registering value error fiber id (above.length + 1)
          (.run (.deliver id (.settled (.ok v)) .completion)) above
  | back {above : List (Return H)} {v : Value H.Data H.Fn} :
      (∀ back ∈ above, back.IsBoundary) →
        Registering value error fiber id above.length (.ret v) above

section Registering

variable {value error : Ty} {fiber : PromiseId} {id : HandoffId} {j : Nat} {control : Control H}
  {above below : List (Return H)} {name : Option String} {t : ThreadId} {w : World H}

/-- Every turn of a thread that registers a join leaves less to do, starts no thread and does not
panic. -/
theorem Registering.turn (h : Registering value error fiber id j control above)
    (himmediate : w.heap.schedulers[immediateId]? = some .immediate)
    (hhandoff : ∃ phase, w.heap.handoffs[id]? = some ⟨t, phase⟩ ∧
      (phase = .submitting ∨ ∃ exit, phase = .early exit))
    (hj : j ≠ 0) :
    ∃ heap pushed rest control' above' j',
      Thread.turn? t w.heap w.state ⟨name, control, above ++ below⟩ =
          some (w.state, rest, ⟨heap, pushed, control', none, none⟩) ∧
        pushed ++ rest = above' ++ below ∧ j' < j ∧
          Registering value error fiber id j' control' above' := by
  have hnext (pushed rest above' : List (Return H)) {control' : Control H} {j' : Nat}
      (hturn : ∃ heap, Thread.turn? t w.heap w.state ⟨name, control, above ++ below⟩ =
        some (w.state, rest, ⟨heap, pushed, control', none, none⟩))
      (hpushed : pushed ++ rest = above' ++ below) (hj : j' < j)
      (hnow : Registering value error fiber id j' control' above') :
      ∃ heap pushed rest control' above' j',
        Thread.turn? t w.heap w.state ⟨name, control, above ++ below⟩ =
            some (w.state, rest, ⟨heap, pushed, control', none, none⟩) ∧
          pushed ++ rest = above' ++ below ∧ j' < j ∧
            Registering value error fiber id j' control' above' := by
    obtain ⟨heap, hturn⟩ := hturn
    exact ⟨heap, pushed, rest, control', above', j', hturn, hpushed, hj, hnow⟩
  have hcons {back : Return H} {above : List (Return H)} (hback : back.IsBoundary)
      (habove : ∀ back ∈ above, back.IsBoundary) : ∀ b ∈ back :: above, b.IsBoundary := by
    simpa using ⟨hback, habove⟩
  cases h with
  | submit =>
      refine hnext [_] below [_] ?_ rfl (by decide) .perform
      simp only [Thread.turn?, Task.turn, Task.submitTurn, himmediate]
      exact ⟨_, rfl⟩
  | perform =>
      exact hnext [_] (_ :: below) [_, _] ⟨_, rfl⟩ rfl (by simp)
        (.register (hcons trivial (hcons trivial (by simp))))
  | register habove =>
      exact hnext [] (above ++ below) above ⟨_, rfl⟩ rfl (by omega) (.subscribe habove)
  | subscribe habove =>
      rcases hpromise : w.heap.promises[fiber]? with _ | promise
      · refine hnext [] (above ++ below) above ?_ rfl (by omega) (.back (v := .unit) habove)
        simp only [Thread.turn?, Task.turn, hpromise]
        exact ⟨_, rfl⟩
      · rcases hvalue : promise.value with _ | v
        · refine hnext [] (above ++ below) above ?_ rfl (by omega) (.back (v := .unit) habove)
          simp only [Thread.turn?, Task.turn, hpromise, Promise.subscribe, hvalue]
          exact ⟨_, rfl⟩
        · refine hnext [_] (above ++ below) (.holding [.promise fiber] :: above) ?_ rfl ?_
            (.tell (v := v) (hcons trivial habove))
          · simp only [Thread.turn?, Task.turn, hpromise, Promise.subscribe, hvalue]
            exact ⟨_, rfl⟩
          · simp only [List.length_cons]
            omega
  | tell habove => exact hnext [] (above ++ below) above ⟨_, rfl⟩ rfl (by omega) (.invoke habove)
  | invoke habove => exact hnext [] (above ++ below) above ⟨_, rfl⟩ rfl (by omega) (.deliver habove)
  | deliver habove =>
      obtain ⟨phase, hphase, rfl | ⟨exit, rfl⟩⟩ := hhandoff
      · refine hnext [] (above ++ below) above ?_ rfl (by omega) (.back (v := .unit) habove)
        simp only [Thread.turn?, Task.turn, Task.deliverTurn, hphase, Handoff.offer, if_true]
        exact ⟨_, rfl⟩
      · refine hnext [] (above ++ below) above ?_ rfl (by omega) (.back (v := .unit) habove)
        simp only [Thread.turn?, Task.turn, Task.deliverTurn, hphase, Handoff.offer]
        exact ⟨_, rfl⟩
  | @back above v habove =>
      cases above with
      | nil => exact absurd rfl hj
      | cons back above =>
          obtain ⟨v', hv'⟩ := (habove back (by simp)).resume w.heap v
          refine hnext [] (above ++ below) above ?_ rfl (by simp)
            (.back (v := v') fun b hb => habove b (List.mem_cons_of_mem _ hb))
          simp only [Thread.turn?, List.cons_append, hv']
          exact ⟨_, rfl⟩

end Registering

namespace Run

variable {r : Run H} {n : Nat} {t : ThreadId}

section Join

variable {k : Nat} {s : ThreadId} {value error : Ty} {fiber : PromiseId} {id : HandoffId}
  (hstart : (r.world 0).Starting)
  (himmediate : (r.world 0).heap.schedulers[immediateId]? = some .immediate)
  (hhides : r.Hides (.handoff id))
  (hcomes : r.ComesTo k s (.join value error fiber) immediateId id)

/-- The thread registers the join: the interpretation that has come to the node waits below. -/
def IsRegistering (value error : Ty) (fiber : PromiseId) (id : HandoffId) (thread : Thread H) :
    Prop :=
  ∃ j above frames last finish rest,
    thread.stack = above ++ .after (.park id frames last finish) :: rest ∧
      Registering value error fiber id j thread.control above ∧ ∀ back ∈ rest, back.IsClear id

/-- Nobody has parked an interpretation that waits for the end of a submission, or that is about to
leave the node. -/
theorem handoff_of_parks {l : Nat} (h : (r.world n).Parks (.thread t l) id) :
    ∃ phase, (r.world n).heap.handoffs[id]? = some ⟨t, phase⟩ ∧
      (phase = .submitting ∨ ∃ exit, phase = .early exit) := by
  obtain ⟨_, _, ⟨submitter, phase⟩, hplace, hhandoff, hsubmitter, hphase⟩ :=
    (r.sound n).parking _ id h
  obtain ⟨rfl, -⟩ := Place.thread.inj hplace
  obtain rfl : submitter = _ := hsubmitter
  exact ⟨phase, hhandoff, hphase⟩

theorem handoff_of_submitting {name : Option String} {control : Control H}
    {above rest : List (Return H)} {frames : List (Frame H.Data H.Fn)} {last : Kept}
    {finish : Finish H.Fn}
    (ht : (r.world n).threads[t]? =
      some ⟨name, control, above ++ .after (.park id frames last finish) :: rest⟩) :
    ∃ phase, (r.world n).heap.handoffs[id]? = some ⟨t, phase⟩ ∧
      (phase = .submitting ∨ ∃ exit, phase = .early exit) :=
  handoff_of_parks ⟨_, _, World.pendingAt_back ht, rfl⟩

theorem isRegistering_next {thread : Thread H} (h : IsRegistering value error fiber id thread)
    (ht : (r.world n).threads[t]? = some thread)
    (himmediate : (r.world n).heap.schedulers[immediateId]? = some .immediate) :
    ∃ thread', (r.world (n + 1)).threads[t]? = some thread' ∧
      (IsRegistering value error fiber id thread' ∨ thread'.IsClear id) := by
  obtain ⟨name, control, stack⟩ := thread
  obtain ⟨j, above, frames, last, finish, rest, rfl, hregistering, hclear⟩ := h
  by_cases hj : j = 0
  · cases hregistering with
    | @back above v habove =>
        obtain rfl := List.eq_nil_of_length_eq_zero hj
        rcases next_of_turn ht rfl with ⟨-, hsame⟩ | ⟨-, -, hthread⟩
        · exact ⟨_, hsame, .inl ⟨_, _, _, _, _, _, rfl, .back habove, hclear⟩⟩
        · refine ⟨_, hthread, .inr ⟨?_, hclear⟩⟩
          simp [Thread.heard, Return.resume, Turn.run, Control.IsClear, Control.held,
            Task.registers?]
    | _ => simp at hj
  · have hhandoff := handoff_of_submitting ht
    obtain ⟨heap, pushed, rest', control', above', j', hturn, hpushed, -, hregistering'⟩ :=
      hregistering.turn himmediate hhandoff hj
    rcases next_of_turn ht hturn with ⟨-, hsame⟩ | ⟨-, -, hthread⟩
    · exact ⟨_, hsame, .inl ⟨_, _, _, _, _, _, rfl, hregistering, hclear⟩⟩
    · exact ⟨_, hthread, .inl ⟨_, _, _, _, _, _, hpushed, hregistering', hclear⟩⟩

theorem IsRegistering.isReady {thread : Thread H}
    (h : IsRegistering value error fiber id thread) : thread.IsReady := by
  obtain ⟨name, control, stack⟩ := thread
  obtain ⟨j, above, frames, last, finish, rest, rfl, hregistering, -⟩ := h
  cases hregistering with
  | back habove => simp [Thread.IsReady]
  | _ => trivial

/-- A thread that registers a join starts no other one. -/
theorem IsRegistering.born {thread : Thread H} (h : IsRegistering value error fiber id thread)
    (ht : (r.world n).threads[t]? = some thread)
    (himmediate : (r.world n).heap.schedulers[immediateId]? = some .immediate) {state : H.State}
    {rest : List (Return H)} {turn : Turn H}
    (hturn : thread.turn? t (r.world n).heap (r.world n).state = some (state, rest, turn)) :
    turn.born = none := by
  obtain ⟨name, control, stack⟩ := thread
  obtain ⟨j, above, frames, last, finish, rest, rfl, hregistering, -⟩ := h
  by_cases hj : j = 0
  · cases hregistering with
    | @back above v habove =>
        obtain rfl := List.eq_nil_of_length_eq_zero hj
        obtain ⟨-, -, rfl⟩ := by
          simpa only [Thread.turn?, List.nil_append, Option.some.injEq, Prod.mk.injEq] using hturn
        rfl
    | _ => simp at hj
  · obtain ⟨heap, pushed, rest', control', above', j', hturn', -⟩ :=
      hregistering.turn himmediate (handoff_of_submitting ht) hj
    obtain ⟨-, -, rfl⟩ := Prod.mk.inj (Option.some.inj (hturn.symm.trans hturn'))
    rfl

/-- The turn of a thread that comes to a node. -/
theorem ComesTo.turn {register : Register H.Fn} {scheduler : SchedulerId} {thread : Thread H}
    (h : r.ComesTo n t register scheduler id) (ht : (r.world n).threads[t]? = some thread) :
    ∃ heap frames last finish, thread.turn? t (r.world n).heap (r.world n).state =
      some ((r.world n).state, thread.stack,
        ⟨heap, [.after (.park id frames last finish)],
          .run (.submit scheduler (.register register id)), none, none⟩) := by
  obtain ⟨i, last, finish, frames, ⟨-, name, stack, ht'⟩, hstep, rfl⟩ := h
  obtain rfl := Option.some.inj (ht'.symm.trans ht)
  simp only [Thread.turn?, Task.turn, Task.driveTurn, hstep]
  exact ⟨_, _, _, _, rfl⟩

/-- A clear thread stays clear and starts none that is not, unless it comes to the node or the host
hands in the registration. -/
theorem isClear_of_turn {thread : Thread H} {state : H.State} {rest : List (Return H)}
    {turn : Turn H}
    (haction : r.action n = .thread t) (ht : (r.world n).threads[t]? = some thread)
    (hclear : thread.IsClear id)
    (hcome : ¬∃ register scheduler, r.ComesTo n t register scheduler id)
    (hrequest : ∀ q register, r.Does n t (.request q) → q.work? ≠ some (.register register id))
    (hturn : thread.turn? t (r.world n).heap (r.world n).state = some (state, rest, turn)) :
    Thread.IsClear id
        (Thread.heard turn.notified ⟨thread.name, turn.control, turn.pushed ++ rest⟩) ∧
      ∀ thread', turn.born = some thread' → thread'.IsClear id := by
  obtain ⟨name, control, stack⟩ := thread
  have hreaches (i : Interpretation H.Data H.Fn) (last : Kept) (finish : Finish H.Fn)
      (register : Register H.Fn) (scheduler : SchedulerId) (frames : List (Frame H.Data H.Fn))
      (hcontrol : control = .run (.drive i last finish))
      (hstep : i.step = .suspend register scheduler frames) :
      id ≠ (r.world n).heap.handoffs.size := by
    rintro rfl
    subst hcontrol
    exact hcome
      ⟨register, scheduler, i, last, finish, frames, ⟨haction, name, stack, ht⟩, hstep, rfl⟩
  obtain ⟨hturn', hrest⟩ := hclear.turn hturn hreaches (by
    rintro q register rfl
    exact hrequest q register ⟨haction, name, stack, ht⟩)
  have hclear' : Thread.IsClear id ⟨name, turn.control, turn.pushed ++ rest⟩ :=
    ⟨hturn'.control, fun back hback =>
      (List.mem_append.1 hback).elim (hturn'.pushed back) (hrest back)⟩
  exact ⟨hclear'.of_held (Thread.stack_heard _ _) fun _ => Thread.mem_held_of_control_heard,
    hturn'.born⟩

include hstart in
theorem isClear_of_starting {thread : Thread H} (ht : (r.world 0).threads[t]? = some thread) :
    thread.IsClear id := by
  obtain ⟨name, code, rfl⟩ := hstart.threads t thread ht
  refine ⟨?_, fun back hback => by contradiction⟩
  simp [Thread.starting, Control.IsClear, Control.held, Task.registers?]

include hstart himmediate hhides hcomes

/-- Only the thread that has come to the node has to do with its registration. -/
theorem isClear_or_isRegistering {thread : Thread H}
    (ht : (r.world n).threads[t]? = some thread) :
    thread.IsClear id ∨ t = s ∧ IsRegistering value error fiber id thread := by
  induction n generalizing t thread with
  | zero => exact .inl (isClear_of_starting hstart ht)
  | succ n ih =>
      have himm := immediate himmediate n
      have hrequest {t : ThreadId} (q : Request H.Data H.Fn) (register : Register H.Fn)
          (hdoes : r.Does n t (.request q)) : q.work? ≠ some (.register register id) := fun hwork =>
        hhides n t q hdoes (Request.mem_refs_of_work hwork (by simp [Work.kept]))
      cases (r.ordered n).becomes (r.step n) ht with
      | waits ht₀ hstack hheld hready =>
          rcases ih ht₀ with hclear | ⟨rfl, hregistering⟩
          · exact .inl (.of_held hclear hstack hheld)
          · rw [hready hregistering.isReady]
            exact .inr ⟨rfl, hregistering⟩
      | @acts thread₀ state rest turn haction ht₀ hturn hthread =>
          rcases ih ht₀ with hclear | ⟨rfl, hregistering⟩
          · by_cases hcome : ∃ register scheduler, r.ComesTo n t register scheduler id
            · obtain ⟨register, scheduler, hcome⟩ := hcome
              obtain ⟨-, rfl, rfl, rfl⟩ := hcome.unique hcomes
              obtain ⟨heap, frames, last, finish, hturn'⟩ := hcome.turn ht₀
              obtain ⟨rfl, rfl, rfl⟩ := by
                simpa only [hturn', Option.some.injEq, Prod.mk.injEq] using hturn
              subst hthread
              exact .inr ⟨rfl, _, _, _, _, _, _, rfl, .submit, hclear.stack⟩
            · rw [hthread]
              exact .inl (isClear_of_turn haction ht₀ hclear hcome hrequest hturn).1
          · obtain ⟨thread', ht', hthread'⟩ := isRegistering_next hregistering ht₀ himm
            obtain rfl := Option.some.inj (ht'.symm.trans ht)
            exact hthread'.symm.imp_right fun h => ⟨rfl, h⟩
      | @starts t₀ thread₀ state rest turn haction ht₀ hturn hborn hnone =>
          rcases ih ht₀ with hclear | ⟨rfl, hregistering⟩
          · by_cases hcome : ∃ register scheduler, r.ComesTo n t₀ register scheduler id
            · obtain ⟨register, scheduler, hcome⟩ := hcome
              obtain ⟨heap, frames, last, finish, hturn'⟩ := hcome.turn ht₀
              obtain ⟨-, -, rfl⟩ := by
                simpa only [hturn', Option.some.injEq, Prod.mk.injEq] using hturn
              contradiction
            · exact .inl ((isClear_of_turn haction ht₀ hclear hcome hrequest hturn).2 thread hborn)
          · rw [hregistering.born ht₀ himm hturn] at hborn
            contradiction

/-- What is delivered to the node is the value of the fiber's promise. -/
theorem delivered_eq_promised {exit : Exit (Outcome H.Data H.Fn)} {origin : Origin}
    (h : r.Has n (.deliver id exit origin)) :
    ∃ v, exit = .settled (.ok v) ∧ (r.world n).heap.promised? fiber = some v := by
  obtain ⟨m, t, thread, hm, hnew, haction, ht, hhands⟩ := h.exists_hands hstart not_false
  cases hhands with
  | minor h => exact h.elim
  | @task name task _ stack hhands =>
      have hdoes : r.Does m t task := ⟨haction, name, stack, ht⟩
      cases hhands with
      | minor h => exact h.elim
      | request h => cases h
      | deliver => exact absurd hdoes.has hnew
      | invoke =>
          rcases invoked_eq hstart hhides hcomes hdoes.has with
            ⟨_, heq, -⟩ | ⟨_, _, _, v, heq, rfl, hpromised⟩
          · contradiction
          · obtain ⟨rfl, rfl, rfl⟩ := Register.join.inj heq
            exact ⟨v, rfl, promised?_of_le hstart hpromised (Nat.le_of_lt hm)⟩
  | ret hhands =>
      cases hhands with
      | minor h => exact h.elim
      | after => exact absurd ⟨t, _, ht, by simp [Thread.held, Return.held]⟩ hnew
  | raise hhands =>
      cases hhands with
      | minor h => exact h.elim
      | guarding =>
          rcases isClear_or_isRegistering hstart himmediate hhides hcomes ht with
            hclear | ⟨-, j, above, frames, last, finish, rest, -, hregistering, -⟩
          · exact absurd rfl (hclear.stack _ List.mem_cons_self).1
          · cases hregistering

theorem accepts_eq_promised {exit : Exit (Outcome H.Data H.Fn)} (h : r.Accepts n t id exit) :
    ∃ v, exit = .settled (.ok v) ∧ (r.world n).heap.promised? fiber = some v := by
  obtain ⟨origin, handoff, ⟨haction, name, stack, ht⟩, -⟩ := h
  exact delivered_eq_promised hstart himmediate hhides hcomes
    (Does.has ⟨haction, name, stack, ht⟩)

end Join

end Run

end Trampoline
