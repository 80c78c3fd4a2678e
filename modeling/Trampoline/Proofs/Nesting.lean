import Trampoline.Proofs.Activations
import Trampoline.Proofs.Releasing

/-!
Units of work within one another. An inline scheduler runs a unit of work above the stack of its
submitter, so a unit that submits others is run above the units that it is part of. Each one is
performed once, to its end or to a panic, before its submission comes back with nothing; its panic
has been reported by then. A scheduler that records keeps a log of all submissions to it and all
reports.
-/

namespace Trampoline

variable {H : Host}

/-- Whether a task submits work. -/
def Task.IsSubmission : Task H → Prop
  | .submit _ _ => True
  | _ => False

/-- Whether a task submits work to a scheduler. -/
def Task.submitsTo (s : SchedulerId) : Task H → Bool
  | .submit s' _ => s' == s
  | _ => false

/-- What a task reports to a scheduler. -/
def Task.reportTo? (s : SchedulerId) : Task H → Option WorkFailure
  | .report s' failure => if s' = s then some failure else none
  | _ => none

/-- What leads to the submission of a unit of work, above a stack. -/
inductive Thread.Submits (heap : Heap H.Data H.Fn) :
    Thread H → SchedulerId → Work H.Data H.Fn → List (Return H) → Prop where
  /-- The host asks for it. -/
  | host {name : Option String} {s : SchedulerId} {work : Work H.Data H.Fn}
      {stack : List (Return H)} :
      Submits heap ⟨name, .run (.request (.submit s work)), stack⟩ s work stack
  /-- The host asks for the interpretation of an effect on the scheduler. -/
  | runFiber {name : Option String} {value error : Ty} {x : Node H.Data H.Fn} {s : SchedulerId}
      {stack : List (Return H)} :
      Submits heap ⟨name, .run (.request (.runFiber value error x s)), stack⟩ s
        (.interpret x (.fiber value error heap.promises.size s))
        (.after (.give (.fiber value error heap.promises.size)) :: stack)
  /-- An interpretation forks an effect on the scheduler. -/
  | fork {name : Option String} {value error : Ty} {x : Node H.Data H.Fn} {s : SchedulerId}
      {stack : List (Return H)} :
      Submits heap ⟨name, .run (.answer (.fork value error x s)), stack⟩ s
        (.interpret x (.fiber value error heap.promises.size s))
        (.after (.give (.effect value error (.join value error heap.promises.size))) :: stack)
  /-- An interpretation comes to an async node. -/
  | suspend {name : Option String} {i : Interpretation H.Data H.Fn} {last : Kept}
      {finish : Finish H.Fn} {register : Register H.Fn} {s : SchedulerId}
      {frames : List (Frame H.Data H.Fn)} {stack : List (Return H)} :
      i.step = .suspend register s frames →
        Submits heap ⟨name, .run (.drive i last finish), stack⟩ s
          (.register register heap.handoffs.size)
          (.after (.park heap.handoffs.size frames (i.latest last) finish) :: stack)

/-- The scheduler whose boundary a return is. -/
def Return.bounds? : Return H → Option SchedulerId
  | .guarded s => some s
  | _ => none

/-- The schedulers within whose boundaries a turn goes on. -/
def Turn.bounds (turn : Turn H) : List SchedulerId := turn.pushed.filterMap Return.bounds?

section Turns

variable {heap : Heap H.Data H.Fn} {here : Here} {stack : List (Return H)} {t : ThreadId}
  {s : SchedulerId} {work : Work H.Data H.Fn} {name : Option String}

theorem Task.IsMinor.not_isSubmission {task : Task H} (h : task.IsMinor) : ¬task.IsSubmission := by
  cases task with
  | submit => exact h.elim
  | _ => exact id

/-- Who is led to a submission makes it next. -/
theorem Thread.Submits.turn {thread : Thread H} (h : thread.Submits heap s work stack)
    (t : ThreadId) (state : H.State) :
    thread.IsReady ∧ ∃ rest turn, thread.turn? t heap state = some (state, rest, turn) ∧
      turn.control = .run (.submit s work) ∧ turn.pushed ++ rest = stack ∧ turn.born = none ∧
        turn.notified = none ∧ ∀ back ∈ turn.pushed, ∀ task ∈ back.held, ¬task.IsSubmission := by
  cases h with
  | host =>
      exact ⟨trivial, _, _, rfl, rfl, rfl, rfl, rfl, by simp [Request.turn, Task.turn, Turn.run]⟩
  | runFiber =>
      exact ⟨trivial, _, _, rfl, rfl, rfl, rfl, rfl, by
        simp [Request.turn, Task.turn, Turn.seq, Turn.call, Return.held, Task.IsSubmission]⟩
  | fork =>
      exact ⟨trivial, _, _, rfl, rfl, rfl, rfl, rfl, by
        simp [Ask.turn, Task.turn, Turn.seq, Turn.call, Return.held, Task.IsSubmission]⟩
  | @suspend name i last finish register s frames stack hstep =>
      have hturn : Task.driveTurn (H := H) ⟨t, name⟩ heap i last finish =
          .seq (heap.newHandoff t).1 (.submit s (.register register heap.handoffs.size))
            (.park heap.handoffs.size frames (i.latest last) finish) := by
        simp only [Task.driveTurn, hstep]
        rfl
      refine ⟨trivial, _, _, rfl, ?_⟩
      simp [Task.turn, hturn, Turn.seq, Turn.call, Return.held, Task.IsSubmission]

/-- A task that hands on a submission leads to it. -/
theorem Task.Hands.submits {task task' : Task H} (h : task.Hands heap task')
    (hsubmission : task'.IsSubmission) (name : Option String) (stack : List (Return H)) :
    ∃ s work stack', Thread.Submits heap ⟨name, .run task, stack⟩ s work stack' := by
  cases h with
  | minor hminor => exact absurd hsubmission hminor.not_isSubmission
  | request hands =>
      cases hands with
      | runFiber => exact ⟨_, _, _, .runFiber⟩
      | submit => exact ⟨_, _, _, .host⟩
      | _ => exact hsubmission.elim
  | suspend hstep => exact ⟨_, _, _, .suspend hstep⟩
  | fork => exact ⟨_, _, _, .fork⟩
  | _ => exact hsubmission.elim

theorem Return.Hands.not_isSubmission {reply : Except Payload (Value H.Data H.Fn)}
    {back : Return H} {task : Task H} (h : back.Hands reply task)
    (hback : ∀ task ∈ back.held, ¬task.IsSubmission) : ¬task.IsSubmission := by
  cases h with
  | minor hminor => exact hminor.not_isSubmission
  | after => exact hback _ (List.mem_singleton_self _)
  | _ => exact id

/-- A turn leads to no submission, or to one that its thread makes next. -/
theorem Thread.Turning.submits {thread : Thread H} {state state' : H.State}
    {rest : List (Return H)} {turn : Turn H} (h : thread.Turning t heap state state' rest turn)
    (hstack : ∀ back ∈ thread.stack, ∀ task ∈ back.held, ¬task.IsSubmission) :
    (∀ task ∈ turn.held, ¬task.IsSubmission) ∨
      ∃ s work, thread.Submits heap s work (turn.pushed ++ rest) ∧
        turn.control = .run (.submit s work) ∧ turn.born = none ∧
          ∀ back ∈ turn.pushed, ∀ task ∈ back.held, ¬task.IsSubmission := by
  cases h with
  | move =>
      refine .inl fun task hmem hsubmission => ?_
      exact (Move.turn_hands _ hmem).not_isSubmission hsubmission
  | ret =>
      exact .inl fun task hmem =>
        (Return.resume_hands _ _ hmem).not_isSubmission (hstack _ List.mem_cons_self)
  | raise =>
      exact .inl fun task hmem =>
        (Return.unwind_hands _ _ hmem).not_isSubmission (hstack _ List.mem_cons_self)
  | @task name task _ huser =>
      refine or_iff_not_imp_left.2 fun hsome => ?_
      push Not at hsome
      obtain ⟨task', hmem, hsubmission⟩ := hsome
      obtain ⟨s, work, stack', hsubmits⟩ :=
        (Task.turn_hands task task' hmem).submits hsubmission name rest
      obtain ⟨-, rest', turn', hturn', hcontrol, rfl, hborn, -, hpushed⟩ := hsubmits.turn t state
      have hturn : Thread.turn? t heap state ⟨name, .run task, rest⟩ =
          some (state, rest, task.turn ⟨t, name⟩ rest heap) := by
        cases task with
        | user code reply => exact absurd rfl (huser code reply)
        | _ => rfl
      obtain ⟨rfl, rfl⟩ : rest = rest' ∧ _ = turn' := by
        simpa using hturn.symm.trans hturn'
      exact ⟨s, work, hsubmits, hcontrol, hborn, hpushed⟩

theorem Thread.HandlesAtOnce.submits {thread : Thread H} {state state' : H.State}
    {rest : List (Return H)} {turn : Turn H} (h : thread.HandlesAtOnce Task.IsSubmission)
    (hturn : thread.Turning t heap state state' rest turn) :
    turn.HandlesAtOnce Task.IsSubmission := by
  rcases hturn.submits h.stack with hnone | ⟨s, work, -, hcontrol, hborn, hpushed⟩
  · exact .of_none hnone
  · refine ⟨fun task hmem _ => ?_, hpushed, by simp [hborn]⟩
    rw [hcontrol] at hmem ⊢
    exact congrArg Control.run (List.mem_singleton.1 hmem).symm

theorem Request.turn_bounds (q : Request H.Data H.Fn) :
    (q.turn (H := H) stack heap).bounds = [] := by
  cases q <;> simp only [turn] <;> (repeat' split) <;> rfl

theorem Task.turn_bounds {task : Task H} (hsubmission : ¬task.IsSubmission) :
    (task.turn here stack heap).bounds = [] := by
  cases task with
  | submit s work => exact absurd trivial hsubmission
  | request q => exact q.turn_bounds
  | answer question => cases question <;> rfl
  | perform work => cases work <;> rfl
  | register register target => cases register <;> rfl
  | invoke target outcome => cases target <;> rfl
  | notify id v subscribers first =>
      cases subscribers with
      | nil => cases first <;> rfl
      | cons subscriber rest => rfl
  | _ =>
      simp only [turn, driveTurn, parkTurn, deliverTurn, concludeTurn, reportTurn, tellTurn]
      repeat' split
      all_goals rfl

theorem Task.submitTurn_bounds (heap : Heap H.Data H.Fn) (s : SchedulerId)
    (work : Work H.Data H.Fn) :
    (submitTurn (H := H) heap s work).bounds = [] ∨
      (submitTurn (H := H) heap s work).pushed = [.guarded s] := by
  simp only [submitTurn]
  repeat' split
  all_goals first | exact .inr rfl | exact .inl rfl

theorem Return.resume_bounds (back : Return H) (v : Value H.Data H.Fn) :
    (back.resume heap v).bounds = [] := by
  cases back with
  | reading =>
      simp only [resume, readTurn]
      repeat' split
      all_goals rfl
  | _ => rfl

theorem Return.unwind_bounds (back : Return H) (payload : Payload) :
    (back.unwind heap payload).bounds = [] := by
  cases back <;> rfl

theorem Move.turn_bounds (move : Move H.Data H.Fn H.Code H.Condition) :
    (move.turn heap).bounds = [] := by
  cases move <;> rfl

/-- A thread goes on within the boundary of a scheduler in the turn in which it submits to it. -/
theorem Thread.Turning.submits_of_bounds {thread : Thread H} {state state' : H.State}
    {rest : List (Return H)} {turn : Turn H} (h : thread.Turning t heap state state' rest turn)
    (hmem : .guarded s ∈ turn.pushed) :
    ∃ work, thread.control = .run (.submit s work) ∧ rest = thread.stack ∧
      turn.pushed = [.guarded s] := by
  have hbounds : s ∈ turn.bounds := List.mem_filterMap.2 ⟨_, hmem, rfl⟩
  cases h with
  | move => simp [Move.turn_bounds] at hbounds
  | ret => simp [Return.resume_bounds] at hbounds
  | raise => simp [Return.unwind_bounds] at hbounds
  | @task name task =>
      by_cases hsubmission : task.IsSubmission
      · cases task with
        | submit s' work =>
            rcases Task.submitTurn_bounds heap s' work with hnone | hpushed
            · simp [Task.turn, hnone] at hbounds
            · obtain rfl : s = s' := by simpa [Task.turn, hpushed] using hmem
              exact ⟨work, rfl, rfl, hpushed⟩
        | _ => exact hsubmission.elim
      · simp [Task.turn_bounds hsubmission] at hbounds

/-- A scheduler that records counts the work that is submitted to it, and keeps what is reported. -/
theorem Task.turn_recording (task : Task H) {count : Nat} {failures : Array WorkFailure}
    (h : heap.schedulers[s]? = some (.recording count failures)) :
    (task.turn here stack heap).heap.schedulers[s]? =
      some (.recording (count + (task.submitsTo s).toNat)
        (failures ++ (task.reportTo? s).toArray)) := by
  have hmodify (s' : SchedulerId) (change : Scheduler H.Fn → Scheduler H.Fn) :
      (heap.modifyScheduler s' change).schedulers[s]? =
        some (if s' = s then change (.recording count failures)
          else .recording count failures) := by
    simp only [Heap.modifyScheduler, Array.getElem?_modify, h, Option.map_some]
    split <;> rfl
  have hsame (hheap : (task.turn here stack heap).heap.schedulers = heap.schedulers)
      (hsubmits : task.submitsTo s = false) (hreports : task.reportTo? s = none) :
      (task.turn here stack heap).heap.schedulers[s]? =
        some (.recording (count + (task.submitsTo s).toNat)
          (failures ++ (task.reportTo? s).toArray)) := by
    rw [hheap, h, hsubmits, hreports]
    simp
  by_cases hlocal : task.IsLocal
  · refine hsame hlocal.isLike.schedulers ?_ ?_ <;> cases task <;> first | rfl | exact hlocal.elim
  cases task with
  | request q => exact hsame q.turn_schedulers rfl rfl
  | submit s' work =>
      by_cases heq : s' = s
      · subst heq
        simp only [turn, submitTurn, h, submitsTo, reportTo?, Turn.call]
        simp [hmodify, Scheduler.counted]
      · have hnot : (Task.submit s' work : Task H).submitsTo s = false := beq_eq_false_iff_ne.2 heq
        simp only [turn, submitTurn, hnot, reportTo?]
        repeat' split
        all_goals simp [Turn.run, Turn.call, Turn.raise, Turn.ret, Turn.discard, Turn.seq, hmodify,
          heq, h]
  | report s' failure =>
      by_cases heq : s' = s
      · subst heq
        simp only [turn, reportTurn, h, submitsTo, reportTo?, Scheduler.hook?]
        simp [Turn.ret, hmodify, Scheduler.reported]
      · have hnot : (Task.report s' failure : Task H).reportTo? s = none := if_neg heq
        simp only [turn, reportTurn, submitsTo, hnot]
        repeat' split
        all_goals simp [Turn.ret, Turn.discard, Turn.seq, Turn.call, Heap.emit, hmodify, heq, h]
  | collect value error future channel =>
      refine hsame ?_ rfl rfl
      simp only [turn]
      split <;> rfl
  | hang value error future channel =>
      refine hsame ?_ rfl rfl
      simp only [turn]
      split <;> rfl
  | _ => exact absurd trivial hlocal

end Turns

namespace Run

variable {r : Run H} {k l m n : Nat} {t : ThreadId} {s : SchedulerId}
  {work : Work H.Data H.Fn} {stack : List (Return H)} {payload : Payload}

/-- Every submission comes of the turn that its thread has taken before. -/
theorem exists_submits (hstart : (r.world 0).Starting)
    (h : r.Turns m t (.run (.submit s work)) stack) :
    ∃ n thread, r.NextTurn t n m ∧ (r.world n).threads[t]? = some thread ∧
      thread.Submits (r.world n).heap s work stack := by
  obtain ⟨haction, name, ht⟩ := h
  have hsubmission : (Task.submit s work : Task H).IsSubmission := trivial
  obtain ⟨n, hn, hled, hbetween⟩ :=
    r.exists_ledTo hstart Thread.HandlesAtOnce.submits (fun _ _ => id) hsubmission ht
  have hstack {t : ThreadId} {thread : Thread H} (ht : (r.world n).threads[t]? = some thread) :=
    (r.handlesAtOnce hstart Thread.HandlesAtOnce.submits ht).stack
  cases hled with
  | turn hfirst ht₀ hturn hcontrol hpushed =>
      refine ⟨n, _, ⟨hn, hfirst, haction, hbetween⟩, ht₀, ?_⟩
      rcases (Thread.turning hturn).submits (hstack ht₀) with
        hnone | ⟨s', work', hsubmits, hnext, -⟩
      · refine absurd hsubmission (hnone _ ?_)
        simp [Turn.held, hcontrol, Control.held]
      · obtain ⟨rfl, rfl⟩ := Task.submit.inj (Control.run.inj (hcontrol.symm.trans hnext))
        exact hpushed ▸ hsubmits
  | start _ ht₀ hturn hborn =>
      rcases (Thread.turning hturn).submits (hstack ht₀) with hnone | ⟨_, _, -, -, hnobody, -⟩
      · refine absurd hsubmission (hnone _ ?_)
        simp [Turn.held, hborn, Thread.held, Control.held]
      · simp [hborn] at hnobody

/-- Whoever is led to a submission makes it in the next turn of the thread. -/
theorem submits_next {thread : Thread H} (haction : r.action n = .thread t)
    (ht : (r.world n).threads[t]? = some thread)
    (h : thread.Submits (r.world n).heap s work stack) :
    r.IsAt (n + 1) t (.run (.submit s work)) stack := by
  obtain ⟨-, rest, turn, hturn, hcontrol, hstack, -, hnotified, -⟩ := h.turn t (r.world n).state
  obtain ⟨-, hnext⟩ := next_of_action haction ht hturn
  rw [hcontrol, hstack, hnotified] at hnext
  exact ⟨_, hnext⟩

/-- A request is made by host code, which gets the reply. -/
theorem exists_code_of_request (hstart : (r.world 0).Starting) {q : Request H.Data H.Fn}
    (h : r.IsAt n t (.run (.request q)) stack) : ∃ code rest, stack = .user code :: rest := by
  obtain ⟨name, ht⟩ := h
  have hurgent : (Task.request q : Task H).IsUrgent := trivial
  obtain ⟨m, -, hurged, -⟩ := exists_urged hstart hurgent ht
  cases hurged with
  | turn _ _ hurges =>
      cases hurges
      exact ⟨_, _, rfl⟩
  | start _ htask => contradiction

/-- A thread that performs work within the boundary of a scheduler has submitted it there, or has
been started for it. -/
theorem submits_of_performs (hstart : (r.world 0).Starting)
    (h : r.Turns m t (.run (.perform work)) (.guarded s :: stack)) :
    ∃ n, n < m ∧ (∀ j, n < j → j < m → r.action j ≠ .thread t) ∧
      (r.Turns n t (.run (.submit s work)) stack ∨ (r.world n).threads[t]? = none) := by
  obtain ⟨-, name, ht⟩ := h
  have hurgent : (Task.perform work : Task H).IsUrgent := trivial
  obtain ⟨n, hn, hled, hbetween⟩ :=
    r.exists_ledTo hstart keeps_urgent (fun _ _ => id) hurgent ht
  refine ⟨n, hn, hbetween, ?_⟩
  cases hled with
  | start _ _ _ _ hfree => exact .inr hfree
  | turn haction ht₀ hturn hcontrol hstack =>
      have hurges := hstack ▸ urges_of_turn hstart hurgent ht₀ hturn hcontrol
      cases hurges with
      | perform =>
          obtain ⟨code, rest, heq⟩ := exists_code_of_request hstart ⟨_, ht₀⟩
          simp at heq
      | submit => exact .inl ⟨haction, _, ht₀⟩

section Unit

variable (r : Run H) (n : Nat) (t : ThreadId) (s : SchedulerId) (work : Work H.Data H.Fn)
  (stack : List (Return H))

/-- The unit of work that thread `t` submits at time `n` has been performed once the submission was
made, and has come to its end or to a panic at time `l`. -/
def UnitEnds (l : Nat) (reply : Except Payload (Value H.Data H.Fn)) : Prop :=
  ∃ i, r.TurnsFirst (n + 1) i t (.run (.perform work)) (.guarded s :: stack) ∧
    r.CallEnds i l t reply (.guarded s :: stack)

/-- The report of a panic that escapes the work of the scheduler at time `l`. -/
def escapeReport (l : Nat) (payload : Payload) : WorkFailure :=
  .ofPanic ((r.world l).heap.reportName s) payload

/-- How far the submission of a unit of work is at time `j` that thread `t` has made at time `n`. -/
inductive InSubmission (j : Nat) : Prop where
  | begins :
      r.StaysAt (n + 1) j t (.run (.perform work)) (.guarded s :: stack) → InSubmission j
  | performs {i : Nat} :
      r.TurnsFirst (n + 1) i t (.run (.perform work)) (.guarded s :: stack) → i < j →
        (∀ k, i < k → k ≤ j → r.IsAbove k t (.guarded s :: stack)) → InSubmission j
  | comesBack {l : Nat} {reply : Except Payload (Value H.Data H.Fn)} :
      r.UnitEnds n t s work stack l reply →
        r.StaysAt l j t (.replied reply) (.guarded s :: stack) → InSubmission j
  | reports {l k : Nat} {payload : Payload} :
      r.UnitEnds n t s work stack l (.error payload) →
        r.TurnsFirst l k t (.raise payload) (.guarded s :: stack) →
          r.StaysAt (k + 1) j t (.run (.report s (r.escapeReport s k payload))) stack →
            InSubmission j

/-- The submission of a unit of work is over at time `m`: the unit has come to its end, or its panic
has been reported. -/
inductive HasSubmitted (m : Nat) : Prop where
  | ended {l : Nat} {v : Value H.Data H.Fn} :
      r.UnitEnds n t s work stack l (.ok v) → l < m → HasSubmitted m
  | reported {l k j : Nat} {payload : Payload} :
      r.UnitEnds n t s work stack l (.error payload) →
        r.TurnsFirst l k t (.raise payload) (.guarded s :: stack) →
          r.TurnsFirst (k + 1) j t (.run (.report s (r.escapeReport s k payload))) stack →
            j < m → HasSubmitted m

end Unit

section Submission

variable (hinline : ∃ kind, (r.world 0).heap.schedulers[s]? = some kind ∧ kind.isInline = true)

theorem isAbove_of_performs {back : Return H}
    (h : r.Turns n t (.run (.perform work)) (back :: stack)) :
    r.IsAbove (n + 1) t (back :: stack) := by
  obtain ⟨haction, name, ht⟩ := h
  cases work with
  | register register id =>
      obtain ⟨-, hnext⟩ := next_of_action haction ht rfl
      exact ⟨_, hnext, Thread.isAbove_cons⟩
  | interpret node finish =>
      obtain ⟨-, hnext⟩ := next_of_action haction ht rfl
      exact ⟨_, hnext, Thread.isAbove_run⟩
  | user f =>
      obtain ⟨-, hnext⟩ := next_of_action haction ht rfl
      exact ⟨_, hnext, Thread.isAbove_cons⟩

theorem InSubmission.isAbove {j : Nat} (h : r.InSubmission n t s work stack j) :
    r.IsAbove j t stack := by
  cases h with
  | begins hstays =>
      obtain ⟨name, ht⟩ := hstays.last
      exact ⟨_, ht, Thread.isAbove_cons⟩
  | performs _ hij habove => exact (habove j hij (Nat.le_refl j)).of_cons
  | comesBack _ hstays =>
      obtain ⟨name, ht⟩ := hstays.last
      exact ⟨_, ht, Thread.isAbove_cons⟩
  | reports _ _ hstays =>
      obtain ⟨name, ht⟩ := hstays.last
      exact ⟨_, ht, Thread.isAbove_run⟩

include hinline in
/-- An inline scheduler receives a report on the spot. -/
theorem goesBack_of_reports {failure : WorkFailure}
    (h : r.Turns n t (.run (.report s failure)) stack) :
    r.GoesBack (n + 1) t (.ok .unit) stack := by
  obtain ⟨haction, name, ht⟩ := h
  obtain ⟨kind, hkind, hinline⟩ := r.exists_scheduler Scheduler.isKept_isInline hinline n
  obtain ⟨-, hnext⟩ := next_of_action haction ht rfl
  refine ⟨name, ?_⟩
  cases kind with
  | immediate =>
      simp only [Task.turn, Task.reportTurn, hkind, Scheduler.hook?] at hnext
      exact hnext
  | recording submitted failures =>
      simp only [Task.turn, Task.reportTurn, hkind, Scheduler.hook?] at hnext
      exact hnext
  | _ => contradiction

include hinline in
/-- The submission goes on, or comes back with nothing. -/
theorem InSubmission.next {j : Nat} (h : r.InSubmission n t s work stack j) :
    r.InSubmission n t s work stack (j + 1) ∨ ∃ reply, (r.HasSubmitted n t s work stack (j + 1) ∧
      reply = .ok .unit) ∧ r.GoesBack (j + 1) t reply stack := by
  cases h with
  | begins hstays =>
      rcases hstays.next fun _ => trivial with hstays | hturn
      · exact .inl (.begins hstays)
      · refine .inl (.performs hturn (Nat.lt_succ_self j) fun k hjk hk => ?_)
        obtain rfl := Nat.le_antisymm hk hjk
        exact isAbove_of_performs hturn.turns
  | performs hfirst hij habove =>
      rcases isAbove_next (habove j hij (Nat.le_refl j)) with hgoes | ⟨reply, hback⟩
      · refine .inl (.performs hfirst (Nat.lt_succ_of_lt hij) fun k hik hk => ?_)
        rcases Nat.le_succ_iff.1 hk with hkj | rfl
        · exact habove k hik hkj
        · exact hgoes
      · refine .inl (.comesBack ⟨_, hfirst, Nat.lt_succ_of_lt hij, fun k hik hk => ?_, hback⟩
          (IsAt.stays hback))
        exact habove k hik (Nat.le_of_lt_succ hk)
  | @comesBack l reply hends hstays =>
      have hready (name : Option String) :
          Thread.IsReady (H := H) ⟨name, .replied reply, .guarded s :: stack⟩ := by
        cases reply <;> exact List.cons_ne_nil _ _
      rcases hstays.next hready with hstays | hturn
      · exact .inl (.comesBack hends hstays)
      cases reply with
      | ok v =>
          obtain ⟨hback, -⟩ := hturn.turns.isAt (fun _ => rfl) rfl rfl fun _ => rfl
          exact .inr ⟨_, ⟨.ended hends (Nat.lt_succ_of_le hturn.stays.1), rfl⟩, hback⟩
      | error payload =>
          obtain ⟨hat, -⟩ := hturn.turns.isAt (fun _ => rfl) rfl rfl fun _ => rfl
          exact .inl (.reports hends hturn hat.stays)
  | reports hends hraise hstays =>
      refine (hstays.next fun _ => trivial).imp (.reports hends hraise) fun hturn => ?_
      exact ⟨_, ⟨.reported hends hraise hturn (Nat.lt_succ_self j), rfl⟩,
        goesBack_of_reports hinline hturn.turns⟩

include hinline in
/-- The submission of a unit of work is under way for all time, or comes back with nothing. -/
theorem Turns.inSubmission_or_ends (h : r.Turns n t (.run (.submit s work)) stack) (hnm : n < m) :
    r.InSubmission n t s work stack m ∨ ∃ j ≤ m, r.HasSubmitted n t s work stack j ∧
      r.CallEnds n j t (.ok .unit) stack := by
  have hbegins : r.InSubmission n t s work stack (n + 1) :=
    .begins (IsAt.stays (h.performs hinline))
  rcases above_or_callEnds
      (R := fun j reply => r.HasSubmitted n t s work stack j ∧ reply = .ok .unit)
    hbegins (fun _ h => h.isAbove) (fun _ _ h => h.next hinline) hnm with
    ⟨hsubmission, -⟩ | ⟨j, reply, hjm, ⟨hsubmitted, rfl⟩, hends⟩
  · exact .inl hsubmission
  · exact .inr ⟨j, hjm, hsubmitted, hends⟩

/-- A thread that is above the boundary of a submission has not submitted the unit, and is no other
thread than the one that has. -/
theorem not_performs_of_isAbove (hstart : (r.world 0).Starting) {i : Nat} {work' : Work H.Data H.Fn}
    (hperforms : r.Turns i t (.run (.perform work)) (.guarded s :: stack)) (hik : i < k)
    (habove : ∀ j, i < j → j ≤ k → r.IsAbove j t (.guarded s :: stack)) :
    ¬r.Turns k t (.run (.perform work')) (.guarded s :: stack) := by
  intro hagain
  obtain ⟨n, hnk, hbetween, hcause⟩ := submits_of_performs hstart hagain
  have hin : i ≤ n := by
    by_contra hlt
    exact hbetween i (Nat.lt_of_not_le hlt) hik hperforms.1
  rcases Nat.eq_or_lt_of_le hin with rfl | hin
  · rcases hcause with hsubmits | hfree
    · simpa using (hsubmits.unique hperforms).1
    · obtain ⟨-, name, ht⟩ := hperforms
      simp [hfree] at ht
  · obtain ⟨thread, ht, above, hstack, -⟩ := habove n hin (Nat.le_of_lt hnk)
    rcases hcause with ⟨-, name, hsubmits⟩ | hfree
    · obtain rfl := Option.some.inj (ht.symm.trans hsubmits)
      have hlength := congrArg List.length hstack
      simp only [List.length_append, List.length_cons] at hlength
      omega
    · simp [hfree] at ht

include hinline in
/-- The boundary of an inline scheduler is there from a submission on. -/
theorem exists_submission_of_boundary (hstart : (r.world 0).Starting) {thread : Thread H}
    (ht : (r.world m).threads[t]? = some thread) (hstack : .guarded s :: stack <:+ thread.stack) :
    ∃ n work, n < m ∧ r.Turns n t (.run (.submit s work)) stack ∧
      ∀ j, n < j → j ≤ m → ∃ thread', (r.world j).threads[t]? = some thread' ∧
        .guarded s :: stack <:+ thread'.stack := by
  induction m generalizing thread with
  | zero =>
      obtain ⟨name, code, rfl⟩ := hstart.threads t thread ht
      simp [Thread.starting] at hstack
  | succ m ih =>
      have hkeeps {before : Thread H} (ht₀ : (r.world m).threads[t]? = some before)
          (hbefore : .guarded s :: stack <:+ before.stack) :
          ∃ n work, n < m + 1 ∧ r.Turns n t (.run (.submit s work)) stack ∧
            ∀ j, n < j → j ≤ m + 1 → ∃ thread', (r.world j).threads[t]? = some thread' ∧
              .guarded s :: stack <:+ thread'.stack := by
        obtain ⟨n, work, hn, hsubmits, hall⟩ := ih ht₀ hbefore
        refine ⟨n, work, Nat.lt_succ_of_lt hn, hsubmits, fun j hnj hj => ?_⟩
        rcases Nat.le_succ_iff.1 hj with hjm | rfl
        · exact hall j hnj hjm
        · exact ⟨thread, ht, hstack⟩
      cases (r.ordered m).becomes (r.step m) ht with
      | waits ht₀ hsame => exact hkeeps ht₀ (hsame ▸ hstack)
      | @acts before state rest turn haction ht₀ hturn heq =>
          rw [heq, Thread.stack_heard] at hstack
          obtain ⟨above, happend⟩ := hstack
          rcases List.append_eq_append_iff.1 happend with
            ⟨new, hpushed, hbelow⟩ | ⟨old, -, hrest⟩
          · cases new with
            | nil => exact hkeeps ht₀ (hbelow ▸ (Thread.turning hturn).suffix)
            | cons back new =>
                obtain ⟨rfl, hsame⟩ := List.cons.inj hbelow
                obtain ⟨work, hcontrol, rfl, hone⟩ :=
                  (Thread.turning hturn).submits_of_bounds (s := s) (by simp [hpushed])
                obtain ⟨rfl, rfl⟩ : above = [] ∧ new = [] := by
                  simpa [List.append_eq_singleton_iff] using hpushed.symm.trans hone
                obtain ⟨name, control, stack'⟩ := before
                obtain rfl : control = _ := hcontrol
                obtain rfl : stack = stack' := hsame
                refine ⟨m, work, Nat.lt_succ_self m, ⟨haction, name, ht₀⟩, fun j hmj hj => ?_⟩
                obtain rfl := Nat.le_antisymm hj hmj
                exact ⟨thread, ht, by rw [heq, Thread.stack_heard, hone]; exact List.suffix_rfl⟩
          · exact hkeeps ht₀ (List.IsSuffix.trans ⟨old, hrest.symm⟩ (Thread.turning hturn).suffix)
      | @starts t₀ before state rest turn haction ht₀ hturn hborn =>
          rcases (Thread.turning hturn).born_cases hborn with
            ⟨name, f, rfl⟩ | ⟨name, name', s', work, kind, -, rfl, hkind, hthreads⟩
          · simp [Thread.starting] at hstack
          · obtain ⟨rfl, -⟩ : s = s' ∧ stack = [] := by
              simpa [Thread.starting, List.suffix_cons_iff] using hstack
            obtain ⟨kind', hkind', hinline'⟩ :=
              r.exists_scheduler Scheduler.isKept_isInline hinline m
            obtain rfl := Option.some.inj (hkind.symm.trans hkind')
            simp [hthreads] at hinline'

end Submission

section Log

variable (r : Run H) (s : SchedulerId)

/-- How often work has been submitted to a scheduler before time `n`. -/
def submissions (n : Nat) : Nat :=
  (List.range n).countP fun k => ((r.world k).task? (r.action k)).any (Task.submitsTo s)

/-- What has been reported to a scheduler before time `n`. -/
def reports (n : Nat) : List WorkFailure :=
  (List.range n).filterMap fun k => ((r.world k).task? (r.action k)).bind (Task.reportTo? s)

theorem submissions_succ (n : Nat) : r.submissions s (n + 1) =
    r.submissions s n + (((r.world n).task? (r.action n)).any (Task.submitsTo s)).toNat := by
  rw [submissions, List.range_succ, List.countP_append, List.countP_singleton]
  cases ((r.world n).task? (r.action n)).any (Task.submitsTo s) <;> rfl

theorem reports_succ (n : Nat) : r.reports s (n + 1) =
    r.reports s n ++ (((r.world n).task? (r.action n)).bind (Task.reportTo? s)).toList := by
  rw [reports, List.range_succ, List.filterMap_append]
  rfl

variable {r s}

/-- A scheduler that records has the log of the run. -/
theorem scheduler_eq_log (hs : (r.world 0).heap.schedulers[s]? = some .freshRecording) (n : Nat) :
    (r.world n).heap.schedulers[s]? =
      some (.recording (r.submissions s n) (r.reports s n).toArray) := by
  induction n with
  | zero => exact hs
  | succ n ih =>
      rw [submissions_succ, reports_succ]
      by_cases hdoes : ∃ t task, r.Does n t task
      · obtain ⟨t, task, hdoes⟩ := hdoes
        obtain ⟨name, stack, hheap⟩ := hdoes.heap_eq
        rw [hdoes.task?, hheap, task.turn_recording ih]
        simp
      · have hnone : (r.world n).task? (r.action n) = none := by
          refine Option.eq_none_iff_forall_ne_some.2 fun task htask => hdoes ?_
          obtain ⟨t, name, stack, haction, ht⟩ := World.task?_eq_some htask
          exact ⟨t, task, haction, name, stack, ht⟩
        rcases World.heap_of_does (r.step n) with
          ⟨clock, -, hheap⟩ |
          ⟨t, name, payload, value, error, future, channel, rest, -, -, hheap⟩ |
          ⟨t, name, task, stack, haction, ht, -⟩
        · rw [hnone, hheap]
          simpa using ih
        · rw [hnone, hheap]
          simpa [Heap.setFuture] using ih
        · exact absurd ⟨t, task, haction, name, stack, ht⟩ hdoes

end Log

/-- What holds of a unit of work that thread `t` submits to an inline scheduler at time `n`, above a
stack. -/
structure RunsOnSpot (r : Run H) (n : Nat) (t : ThreadId) (s : SchedulerId)
    (work : Work H.Data H.Fn) (stack : List (Return H)) : Prop where
  /-- It is what the submission comes to next. -/
  begins : r.IsAt (n + 1) t (.run (.perform work)) (.guarded s :: stack)
  /-- Within its boundary nothing is performed but the unit, and that once. -/
  once {k : Nat} {work' : Work H.Data H.Fn} :
    n < k → (∀ j, n < j → j ≤ k → r.IsAbove j t stack) →
      r.Turns k t (.run (.perform work')) (.guarded s :: stack) →
        r.TurnsFirst (n + 1) k t (.run (.perform work)) (.guarded s :: stack) ∧ work' = work
  /-- When the submission comes back, the unit has been performed to its end, or to a panic that has
  been reported. The submission itself does not panic. -/
  returns {m : Nat} {reply : Except Payload (Value H.Data H.Fn)} :
    r.CallEnds n m t reply stack → r.HasSubmitted n t s work stack m ∧ reply = .ok .unit
  /-- It comes back once the unit has come to its end or to a panic. -/
  comesBack {l : Nat} {reply : Except Payload (Value H.Data H.Fn)} :
    r.Fair → r.UnitEnds n t s work stack l reply → ∃ m, r.CallEnds n m t (.ok .unit) stack

/-- An inline scheduler runs every unit of work on the spot, whatever the unit does. -/
theorem runsOnSpot (hstart : (r.world 0).Starting)
    (hinline : ∃ kind, (r.world 0).heap.schedulers[s]? = some kind ∧ kind.isInline = true)
    (h : r.Turns n t (.run (.submit s work)) stack) : r.RunsOnSpot n t s work stack where
  begins := h.performs hinline
  once {k work'} hnk habove hperforms := by
    rcases h.inSubmission_or_ends hinline hnk with hin | ⟨j, hjk, -, hends⟩
    · cases hin with
      | begins hstays =>
          obtain ⟨name, ht⟩ := hstays.last
          obtain ⟨hcontrol, -⟩ := hperforms.unique ⟨hperforms.1, name, ht⟩
          exact ⟨⟨hstays, hperforms.1⟩, Task.perform.inj (Control.run.inj hcontrol)⟩
      | performs hfirst hik hall =>
          exact absurd hperforms (not_performs_of_isAbove hstart hfirst.turns hik hall)
      | @comesBack l reply _ hstays =>
          obtain ⟨name, ht⟩ := hstays.last
          obtain ⟨hcontrol, -⟩ := hperforms.unique ⟨hperforms.1, name, ht⟩
          cases reply <;> contradiction
      | reports _ _ hstays =>
          obtain ⟨name, ht⟩ := hstays.last
          obtain ⟨hcontrol, -⟩ := hperforms.unique ⟨hperforms.1, name, ht⟩
          simp at hcontrol
    · exact absurd (habove j hends.lt hjk) hends.back.not_above
  returns hends := by
    rcases h.inSubmission_or_ends hinline hends.lt with hin | ⟨j, -, hsubmitted, hends'⟩
    · exact absurd hin.isAbove hends.back.not_above
    · obtain ⟨rfl, rfl⟩ := hends.unique hends'
      exact ⟨hsubmitted, rfl⟩
  comesBack {l reply} hfair hunit := by
    have hfrom {m : Nat} (hnm : n < m) (hback : r.GoesBack m t (.ok .unit) stack) :
        ∃ m, r.CallEnds n m t (.ok .unit) stack := by
      rcases h.inSubmission_or_ends hinline hnm with hin | ⟨j, -, -, hends⟩
      · exact absurd hin.isAbove hback.not_above
      · exact ⟨j, hends⟩
    obtain ⟨i, hfirst, hends⟩ := hunit
    have hnl : n < l := Nat.lt_of_lt_of_le (Nat.lt_of_succ_le hfirst.stays.1)
      (Nat.le_of_lt hends.lt)
    have hready (name : Option String) :
        Thread.IsReady (H := H) ⟨name, .replied reply, .guarded s :: stack⟩ := by
      cases reply <;> exact List.cons_ne_nil _ _
    obtain ⟨k, hturn⟩ := hfair.exists_turnsFirst hends.back hready
    have hlk := hturn.stays.1
    cases reply with
    | ok v =>
        obtain ⟨hback, -⟩ := hturn.turns.isAt (fun _ => rfl) rfl rfl fun _ => rfl
        exact hfrom (by omega) hback
    | error payload =>
        have hat : r.IsAt (k + 1) t (.run (.report s (r.escapeReport s k payload))) stack :=
          (hturn.turns.isAt (fun _ => rfl) rfl rfl fun _ => rfl).1
        obtain ⟨j, hreport⟩ := hfair.exists_turnsFirst hat fun _ => trivial
        have hkj := hreport.stays.1
        exact hfrom (by omega) (goesBack_of_reports hinline hreport.turns)

/-- What leads thread `t` at time `n` to a report to a scheduler that records, above a stack. -/
inductive Fails (r : Run H) (n : Nat) (t : ThreadId) (s : SchedulerId) :
    WorkFailure → List (Return H) → Prop where
  /-- A panic has escaped a unit of work that has been submitted to the scheduler. -/
  | escaped {k l : Nat} {work : Work H.Data H.Fn} {payload : Payload} {stack : List (Return H)} :
      r.Turns k t (.run (.submit s work)) stack →
        r.UnitEnds k t s work stack l (.error payload) →
          r.TurnsFirst l n t (.raise payload) (.guarded s :: stack) →
            Fails r n t s (.ofPanic "recording" payload) stack
  /-- An effect that has been forked on the scheduler has panicked. -/
  | forked {value error : Ty} {fiber : PromiseId} {payload : Payload} {stack : List (Return H)} :
      r.Turns n t (.run (.conclude (.panicked payload) (.fiber value error fiber s))) stack →
        Fails r n t s (.ofPanic "fiber" payload)
          (.after (.marking value error fiber payload) :: .after (.give .unit) :: stack)
  /-- The host asks for it. -/
  | asked {failure : WorkFailure} {stack : List (Return H)} :
      r.Turns n t (.run (.request (.report s failure))) stack → Fails r n t s failure stack

/-- What a thread has been led to at time `n` it does in its next turn. -/
structure DoesNext (r : Run H) (n : Nat) (t : ThreadId) (task : Task H) (stack : List (Return H)) :
    Prop where
  isAt : r.IsAt (n + 1) t (.run task) stack
  next {m : Nat} : r.NextTurn t n m → r.Turns m t (.run task) stack
  comes : r.Fair → ∃ m, r.NextTurn t n m

theorem IsAt.doesNext {task : Task H} (hat : r.IsAt (n + 1) t (.run task) stack)
    (haction : r.action n = .thread t) : r.DoesNext n t task stack where
  isAt := hat
  next hnext := by
    obtain ⟨name, ht⟩ := hat
    exact ⟨hnext.next, name, thread_of_others ht trivial hnext.lt fun j hj => hnext.between j hj⟩
  comes hfair := by
    obtain ⟨name, ht⟩ := hat
    obtain ⟨m, hnext, -⟩ := hfair.exists_nextTurn haction ht trivial
    exact ⟨m, hnext⟩

/-- What a scheduler that records has recorded at each time, what its log comes of, and how the work
is run that is submitted to it or to another inline scheduler. -/
structure RecordsWork (r : Run H) (s : SchedulerId) : Prop where
  /-- It has counted the submissions so far, and kept the reports so far in their order. -/
  keeps (n : Nat) : (r.world n).heap.schedulers[s]? =
    some (.recording (r.submissions s n) (r.reports s n).toArray)
  /-- The host asks for a submission, or it is that of a forked effect or of an async node. -/
  submitted {m : Nat} {t : ThreadId} {work : Work H.Data H.Fn} {stack : List (Return H)} :
    r.Turns m t (.run (.submit s work)) stack → ∃ n thread, r.NextTurn t n m ∧
      (r.world n).threads[t]? = some thread ∧ thread.Submits (r.world n).heap s work stack
  /-- Each time it comes to one of these there is one submission. -/
  reached {n : Nat} {t : ThreadId} {thread : Thread H} {work : Work H.Data H.Fn}
      {stack : List (Return H)} :
    r.action n = .thread t → (r.world n).threads[t]? = some thread →
      thread.Submits (r.world n).heap s work stack → r.DoesNext n t (.submit s work) stack
  /-- A report is that of a panic that has escaped a unit of work or a forked effect, or the host
  asks for it. -/
  reported {m : Nat} {t : ThreadId} {failure : WorkFailure} {stack : List (Return H)} :
    r.Turns m t (.run (.report s failure)) stack →
      ∃ n, r.NextTurn t n m ∧ r.Fails n t s failure stack
  /-- Each time it comes to one of these there is one report. -/
  failed {n : Nat} {t : ThreadId} {failure : WorkFailure} {stack : List (Return H)} :
    r.Fails n t s failure stack → r.DoesNext n t (.report s failure) stack
  /-- Panics are reported in the order in which they escape. -/
  inTurn {n n' m m' : Nat} {t : ThreadId} {failure failure' : WorkFailure}
      {stack stack' : List (Return H)} :
    r.Fails n t s failure stack → r.Fails n' t s failure' stack' → n < n' →
      r.NextTurn t n m → r.NextTurn t n' m' → m < m'
  runs {s' : SchedulerId} {n : Nat} {t : ThreadId} {work : Work H.Data H.Fn}
      {stack : List (Return H)} :
    (∃ kind, (r.world 0).heap.schedulers[s']? = some kind ∧ kind.isInline = true) →
      r.Turns n t (.run (.submit s' work)) stack → r.RunsOnSpot n t s' work stack

section Recording

variable (hstart : (r.world 0).Starting)
  (hs : (r.world 0).heap.schedulers[s]? = some .freshRecording)

include hs in
theorem reportName_eq (n : Nat) : (r.world n).heap.reportName s = "recording" := by
  rw [Heap.reportName, scheduler_eq_log hs n]
  rfl

include hstart in
/-- A panic that comes to the boundary of an inline scheduler has escaped a unit of work. -/
theorem exists_unitEnds (hinline : ∃ kind, (r.world 0).heap.schedulers[s]? = some kind ∧
      kind.isInline = true) (h : r.Turns n t (.raise payload) (.guarded s :: stack)) :
    ∃ k l work, r.Turns k t (.run (.submit s work)) stack ∧
      r.UnitEnds k t s work stack l (.error payload) ∧
        r.TurnsFirst l n t (.raise payload) (.guarded s :: stack) := by
  obtain ⟨haction, name, ht⟩ := h
  obtain ⟨k, work, hkn, hsubmits, hwithin⟩ :=
    exists_submission_of_boundary hinline hstart ht List.suffix_rfl
  have hcontrol {control : Control H} {stack' : List (Return H)}
      (hat : r.IsAt n t control stack') : control = .raise payload := by
    obtain ⟨name', ht'⟩ := hat
    exact (Thread.mk.inj (Option.some.inj (ht'.symm.trans ht))).2.1
  rcases hsubmits.inSubmission_or_ends hinline hkn with hin | ⟨j, hjn, -, hends⟩
  · cases hin with
    | begins hstays => simpa using hcontrol hstays.last
    | performs _ hin habove =>
        have hback : r.GoesBack n t (.error payload) (.guarded s :: stack) := ⟨name, ht⟩
        exact absurd (habove n hin (Nat.le_refl n)) hback.not_above
    | @comesBack l reply hunit hstays =>
        obtain rfl : reply = .error payload := Control.replied_injective (hcontrol hstays.last)
        exact ⟨k, l, work, hsubmits, hunit, hstays, haction⟩
    | reports _ _ hstays => simpa using hcontrol hstays.last
  · obtain ⟨name', hback⟩ := hends.back
    obtain ⟨thread, ht', hsuffix⟩ := hwithin j hends.lt hjn
    obtain rfl := Option.some.inj (ht'.symm.trans hback)
    exact absurd hsuffix.length_le (Nat.not_succ_le_self _)

include hstart hs

/-- A scheduler that records has recorded all submissions and all reports, whatever is submitted
within what. -/
theorem recordsWork : r.RecordsWork s where
  keeps := scheduler_eq_log hs
  submitted h := exists_submits hstart h
  reached haction ht h := (submits_next haction ht h).doesNext haction
  reported {m t failure stack} h := by
    obtain ⟨n, thread, hnext, ht, hurges⟩ := exists_cause hstart h
    refine ⟨n, hnext, ?_⟩
    cases hurges with
    | report => exact .asked ⟨hnext.first, _, ht⟩
    | forked => exact .forked ⟨hnext.first, _, ht⟩
    | unspawned hthreads =>
        have hrecords := scheduler_eq_log hs n
        rw [hthreads] at hrecords
        cases hrecords
    | escaped =>
        obtain ⟨k, l, work, hsubmits, hunit, hraise⟩ :=
          exists_unitEnds hstart ⟨_, hs, rfl⟩ ⟨hnext.first, _, ht⟩
        rw [reportName_eq hs]
        exact .escaped hsubmits hunit hraise
  failed {n t failure stack} h := by
    cases h with
    | @escaped _ _ _ payload stack _ _ hraise =>
        have hat : r.IsAt (n + 1) t
            (.run (.report s (.ofPanic ((r.world n).heap.reportName s) payload))) stack :=
          (hraise.turns.isAt (fun _ => rfl) rfl rfl fun _ => rfl).1
        rw [reportName_eq hs] at hat
        exact hat.doesNext hraise.turn
    | @forked value error fiber payload stack h =>
        have hat : r.IsAt (n + 1) t (.run (.report s (.ofPanic "fiber" payload)))
            (.after (.marking value error fiber payload) :: .after (.give .unit) :: stack) :=
          (h.isAt (fun _ => rfl) rfl rfl fun _ => rfl).1
        exact hat.doesNext h.1
    | asked h =>
        have hat : r.IsAt (n + 1) t (.run (.report s failure)) stack :=
          (h.isAt (fun _ => rfl) rfl rfl fun _ => rfl).1
        exact hat.doesNext h.1
  inTurn _ _ hlt hnext hnext' := by
    by_contra hle
    exact hnext.between _ hlt (Nat.lt_of_lt_of_le hnext'.lt (Nat.le_of_not_lt hle)) hnext'.first
  runs hinline h := runsOnSpot hstart hinline h

end Recording

end Run

namespace Drill

/-- A unit of work that calls a function. -/
def unitOf (f : Nat) : Work Unit Nat := .user ⟨f, ∅⟩

/-- A unit of work that submits two others and reports a failure by hand before it panics. The first
one panics, the second one interprets an effect that comes to an async node. -/
def nesting : Script
  | 0 => [.ask (.submit 2 (unitOf 2))]
  | 2 => [.ask (.submit 2 (unitOf 3)), .ask (.submit immediateId (unitOf 4)),
      .ask (.report 2 ⟨"by hand", "told"⟩), .raise (.text "outer")]
  | 3 => [.raise (.text "inner")]
  | 4 => [.ask (.runWith .unit .unit (.async .never 2) (.user .unit .unit ⟨5, ∅⟩))]
  | _ => []

def nested : Run (host nesting) := run nesting [.freshRecording] (List.replicate 60 0)

set_option maxRecDepth 10000 in
/-- The unit, the first one in it and the async node have been submitted to the scheduler that
records, and the submission has come back with nothing. -/
theorem nested_records :
    nested.Turns 2 0 (.run (.submit 2 (unitOf 2))) [.user (0, 1)] ∧
      nested.submissions 2 46 = 3 ∧
        nested.reports 2 46 =
          [⟨"recording", "inner"⟩, ⟨"by hand", "told"⟩, ⟨"recording", "outer"⟩] ∧
          (∃ n, nested.NextTurn 0 n 45 ∧
            nested.Fails n 0 2 ⟨"recording", "outer"⟩ [.user (0, 1)]) ∧
            ∀ m reply, nested.CallEnds 2 m 0 reply [.user (0, 1)] →
              nested.HasSubmitted 2 0 2 (unitOf 2) [.user (0, 1)] m ∧ reply = .ok .unit := by
  have hrecords : nested.RecordsWork 2 := Run.recordsWork (start_starting nesting _) rfl
  have hsubmits : nested.Turns 2 0 (.run (.submit 2 (unitOf 2))) [.user (0, 1)] := ⟨rfl, _, rfl⟩
  have hreports : nested.Turns 45 0 (.run (.report 2 ⟨"recording", "outer"⟩)) [.user (0, 1)] :=
    ⟨rfl, _, rfl⟩
  have hlog : (nested.world 46).heap.schedulers[2]? = some (.recording 3
      #[⟨"recording", "inner"⟩, ⟨"by hand", "told"⟩, ⟨"recording", "outer"⟩]) := rfl
  obtain ⟨hcount, hlist⟩ := Scheduler.recording.inj
    (Option.some.inj (hlog.symm.trans (hrecords.keeps 46)))
  exact ⟨hsubmits, hcount.symm, (congrArg Array.toList hlist).symm, hrecords.reported hreports,
    fun m reply => (hrecords.runs ⟨_, rfl, rfl⟩ hsubmits).returns⟩

end Drill

end Trampoline
