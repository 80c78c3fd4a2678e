import Trampoline.Proofs.Alone
import Trampoline.Proofs.Origins
import Trampoline.Proofs.Progress

/-!
One thread over time. A thread waits, takes its turn or starts; what it is about to do it does at
some time if threads take their turns, and what waits on its stack stays there meanwhile.
-/

namespace Trampoline

variable {H : Host}

/-- Whether a thread takes a turn whenever it is let. -/
def Thread.IsReady : Thread H → Prop
  | ⟨_, .run _, _⟩ => True
  | ⟨_, .ret _, stack⟩ => stack ≠ []
  | ⟨_, .raise _, stack⟩ => stack ≠ []
  | ⟨_, .asleep _ _ _, _⟩ => False

theorem Thread.exists_turn {thread : Thread H} (h : thread.IsReady) (t : ThreadId)
    (heap : Heap H.Data H.Fn) (state : H.State) : ∃ x, thread.turn? t heap state = some x := by
  obtain ⟨name, control, stack⟩ := thread
  cases control with
  | run task => cases task <;> exact ⟨_, rfl⟩
  | ret v =>
      cases stack with
      | nil => exact absurd rfl h
      | cons back rest => exact ⟨_, rfl⟩
  | raise payload =>
      cases stack with
      | nil => exact absurd rfl h
      | cons back rest => exact ⟨_, rfl⟩
  | asleep wait woken missed => exact h.elim

theorem Thread.IsReady.of_turn {thread : Thread H} {t : ThreadId} {heap : Heap H.Data H.Fn}
    {state : H.State} {x : H.State × List (Return H) × Turn H}
    (h : thread.turn? t heap state = some x) : thread.IsReady := by
  obtain ⟨name, control, stack⟩ := thread
  cases control with
  | run task => trivial
  | ret v =>
      cases stack with
      | nil => contradiction
      | cons back rest => exact List.cons_ne_nil back rest
  | raise payload =>
      cases stack with
      | nil => contradiction
      | cons back rest => exact List.cons_ne_nil back rest
  | asleep wait woken missed => contradiction

/-- The kinds of turns that a thread takes. -/
inductive Thread.Turning (t : ThreadId) (heap : Heap H.Data H.Fn) (state : H.State) :
    Thread H → H.State → List (Return H) → Turn H → Prop where
  | move {name : Option String} {code : H.Code} {reply : Reply H.Data H.Fn}
      {stack : List (Return H)} {state' : H.State}
      {move : Move H.Data H.Fn H.Code H.Condition} :
      Turning t heap state ⟨name, .run (.user code reply), stack⟩ state' stack (move.turn heap)
  | task {name : Option String} {task : Task H} {stack : List (Return H)} :
      (∀ code reply, task ≠ .user code reply) →
        Turning t heap state ⟨name, .run task, stack⟩ state stack
          (task.turn ⟨t, name⟩ stack heap)
  | ret {name : Option String} {v : Value H.Data H.Fn} {back : Return H}
      {rest : List (Return H)} :
      Turning t heap state ⟨name, .ret v, back :: rest⟩ state rest (back.resume heap v)
  | raise {name : Option String} {payload : Payload} {back : Return H}
      {rest : List (Return H)} :
      Turning t heap state ⟨name, .raise payload, back :: rest⟩ state rest
        (back.unwind heap payload)

theorem Thread.turning {thread : Thread H} {t : ThreadId} {heap : Heap H.Data H.Fn}
    {state state' : H.State} {rest : List (Return H)} {turn : Turn H}
    (h : thread.turn? t heap state = some (state', rest, turn)) :
    thread.Turning t heap state state' rest turn := by
  obtain ⟨name, control, stack⟩ := thread
  cases control with
  | run task =>
      by_cases huser : ∃ code reply, task = .user code reply
      · obtain ⟨code, reply, rfl⟩ := huser
        obtain ⟨rfl, rfl, rfl⟩ := by simpa only [turn?, Option.some.injEq, Prod.mk.injEq] using h
        exact .move
      · have hturn : turn? t heap state ⟨name, .run task, stack⟩ =
            some (state, stack, task.turn ⟨t, name⟩ stack heap) := by
          cases task with
          | user code reply => exact absurd ⟨code, reply, rfl⟩ huser
          | _ => rfl
        obtain ⟨rfl, rfl, rfl⟩ := by simpa only [hturn, Option.some.injEq, Prod.mk.injEq] using h
        exact .task fun code reply heq => huser ⟨code, reply, heq⟩
  | ret v =>
      cases stack with
      | nil => contradiction
      | cons back below =>
          obtain ⟨rfl, rfl, rfl⟩ := by simpa only [turn?, Option.some.injEq, Prod.mk.injEq] using h
          exact .ret
  | raise payload =>
      cases stack with
      | nil => contradiction
      | cons back below =>
          obtain ⟨rfl, rfl, rfl⟩ := by simpa only [turn?, Option.some.injEq, Prod.mk.injEq] using h
          exact .raise
  | asleep wait woken missed => contradiction

theorem Request.born_of_turn {q : Request H.Data H.Fn} {stack : List (Return H)}
    {heap : Heap H.Data H.Fn} {thread : Thread H} (hborn : (q.turn stack heap).born = some thread) :
    ∃ name f, thread = .starting name (.call f []) [] := by
  cases q with
  | spawn name f =>
      simp only [turn] at hborn
      split at hborn
      · contradiction
      · exact ⟨_, _, (Option.some.inj hborn).symm⟩
  | _ =>
      simp only [turn] at hborn
      repeat' split at hborn
      all_goals contradiction

/-- A thread that is started for work starts with the work. -/
theorem Task.born_of_submitTurn {heap : Heap H.Data H.Fn} {s : SchedulerId}
    {work : Work H.Data H.Fn} {thread : Thread H}
    (hborn : (submitTurn (H := H) heap s work).born = some thread) :
    ∃ name kind, thread = .starting name (.perform work) [.guarded s] ∧
      heap.schedulers[s]? = some kind ∧ kind.isInline = false := by
  unfold submitTurn at hborn
  split at hborn
  case h_3 name _ spawned _ heq =>
      simp only at hborn
      split at hborn
      · contradiction
      · split at hborn
        · contradiction
        · exact ⟨_, _, (Option.some.inj hborn).symm, heq, rfl⟩
  case h_4 heq => exact ⟨_, _, (Option.some.inj hborn).symm, heq, rfl⟩
  all_goals contradiction

/-- A thread that is started calls a function of the host, or performs work that has been submitted
to a scheduler. -/
theorem Thread.Turning.born_cases {thread thread' : Thread H} {t : ThreadId}
    {heap : Heap H.Data H.Fn} {state state' : H.State} {rest : List (Return H)} {turn : Turn H}
    (h : thread.Turning t heap state state' rest turn) (hborn : turn.born = some thread') :
    (∃ name f, thread' = .starting name (.call f []) []) ∨
      ∃ name name' s work kind, thread = ⟨name, .run (.submit s work), thread.stack⟩ ∧
        thread' = .starting name' (.perform work) [.guarded s] ∧
          heap.schedulers[s]? = some kind ∧ kind.isInline = false := by
  cases h with
  | @move _ _ _ _ _ move => cases move <;> contradiction
  | @ret _ v back rest =>
      cases back <;> simp only [Return.resume, Return.readTurn] at hborn
      all_goals repeat' split at hborn
      all_goals contradiction
  | @raise _ payload back rest => cases back <;> contradiction
  | @task name task stack huser =>
      cases task with
      | request q => exact .inl (q.born_of_turn hborn)
      | submit s work =>
          obtain ⟨name', kind, hthread', hkind, hinline⟩ := Task.born_of_submitTurn hborn
          exact .inr ⟨name, name', s, work, kind, rfl, hthread', hkind, hinline⟩
      | perform work => cases work <;> contradiction
      | invoke target outcome => cases target <;> contradiction
      | notify v id subscribers first => cases subscribers <;> cases first <;> contradiction
      | answer question => cases question <;> contradiction
      | _ =>
          simp only [Task.turn, Task.reportTurn, Task.concludeTurn, Task.deliverTurn, Task.parkTurn,
            Task.driveTurn, Task.registerTurn, Task.tellTurn] at hborn
          repeat' split at hborn
          all_goals contradiction

theorem Thread.IsReady.heard {thread : Thread H} (h : thread.IsReady) (notified : Option Gate) :
    thread.heard notified = thread := by
  obtain ⟨name, control, stack⟩ := thread
  cases control with
  | asleep wait woken missed => exact h.elim
  | _ => cases notified <;> rfl

theorem Thread.IsReady.ended {thread : Thread H} (h : thread.IsReady) : thread.ended = false := by
  obtain ⟨name, control, stack⟩ := thread
  cases control with
  | run task => rfl
  | ret v =>
      cases stack with
      | nil => exact absurd rfl h
      | cons back rest => rfl
  | raise payload =>
      cases stack with
      | nil => exact absurd rfl h
      | cons back rest => rfl
  | asleep wait woken missed => exact h.elim

theorem Thread.stack_heard (thread : Thread H) (notified : Option Gate) :
    (thread.heard notified).stack = thread.stack := by
  cases notified with
  | none => rfl
  | some gate =>
      simp only [heard]
      unfold notified
      split
      · split <;> rfl
      · rfl

theorem Thread.mem_held_of_control_heard {thread : Thread H} {notified : Option Gate}
    {task : Task H} (h : task ∈ (thread.heard notified).control.held) :
    task ∈ thread.control.held := by
  cases notified with
  | none => exact h
  | some gate =>
      simp only [heard] at h
      unfold Thread.notified at h
      split at h
      · split at h
        · obtain rfl := List.mem_singleton.1 h
          simp [Control.held]
        · exact h
      · exact h

/-- The gate at which a thread sleeps. -/
def Control.gate? : Control H → Option Gate
  | .asleep (.gate gate _) _ _ => some gate
  | _ => none

theorem Thread.gate?_of_heard {thread : Thread H} {notified : Option Gate} {gate : Gate}
    (h : (thread.heard notified).control.gate? = some gate) :
    thread.control.gate? = some gate := by
  cases notified with
  | none => exact h
  | some gate' =>
      simp only [heard] at h
      unfold Thread.notified at h
      split at h
      · split at h
        · simp [Control.gate?] at h
        · exact h
      · exact h

/-- A notification wakes everybody who sleeps at the gate. -/
theorem Thread.gate?_heard (thread : Thread H) (gate : Gate) :
    (thread.heard (some gate)).control.gate? ≠ some gate := by
  obtain ⟨name, control, stack⟩ := thread
  simp only [heard, notified]
  split
  · split
    · simp [Control.gate?]
    · rename_i hne
      simpa [Control.gate?] using hne
  · rename_i hother
    intro h
    cases control with
    | asleep wait woken missed =>
        cases wait with
        | gate gate' deadline => exact hother _ _ _ _ _ _ rfl
        | _ => contradiction
    | _ => contradiction

namespace World

/-- How thread `t` comes to be what it is after an action. -/
inductive Becomes (w : World H) (a : Action) (t : ThreadId) (thread' : Thread H) : Prop where
  /-- It was so before, or has woken up. -/
  | waits {thread : Thread H} :
      w.threads[t]? = some thread → thread'.stack = thread.stack →
        (∀ task ∈ thread'.control.held, task ∈ thread.control.held) →
          (thread.IsReady → thread' = thread) →
            (∀ gate, thread'.control.gate? = some gate → thread.control.gate? = some gate) →
              Becomes w a t thread'
  | acts {thread : Thread H} {state : H.State} {rest : List (Return H)} {turn : Turn H} :
      a = .thread t → w.threads[t]? = some thread →
        thread.turn? t w.heap w.state = some (state, rest, turn) →
          thread' = Thread.heard turn.notified ⟨thread.name, turn.control, turn.pushed ++ rest⟩ →
            Becomes w a t thread'
  | starts {t₀ : ThreadId} {thread : Thread H} {state : H.State} {rest : List (Return H)}
      {turn : Turn H} :
      a = .thread t₀ → w.threads[t₀]? = some thread →
        thread.turn? t₀ w.heap w.state = some (state, rest, turn) → turn.born = some thread' →
          w.threads[t]? = none → Becomes w a t thread'

variable {w w' : World H} {a : Action} {t : ThreadId} {thread thread' : Thread H}

theorem exists_turn_of_allows (hallows : w.allows thread)
    (hawake : ∀ wait woken missed, thread.control ≠ .asleep wait woken missed) :
    ∃ state rest turn, thread.turn? t w.heap w.state = some (state, rest, turn) := by
  have hready : thread.IsReady := by
    obtain ⟨name, control, stack⟩ := thread
    cases control with
    | run task => trivial
    | ret v =>
        cases stack with
        | nil => exact absurd hallows (by simp [allows])
        | cons back rest => exact List.cons_ne_nil back rest
    | raise payload =>
        cases stack with
        | nil => exact absurd hallows (by simp [allows])
        | cons back rest => exact List.cons_ne_nil back rest
    | asleep wait woken missed => exact absurd rfl (hawake wait woken missed)
  obtain ⟨⟨state, rest, turn⟩, hturn⟩ := Thread.exists_turn hready t w.heap w.state
  exact ⟨state, rest, turn, hturn⟩

theorem Becomes.of_heard (ht : w.threads[t]? = some thread) (notified : Option Gate)
    (hthread' : thread.heard notified = thread') : w.Becomes a t thread' := by
  subst hthread'
  exact .waits ht (thread.stack_heard notified) (fun _ => Thread.mem_held_of_control_heard)
    (fun hready => hready.heard notified) fun _ => Thread.gate?_of_heard

/-- A thread is as it was, or woken up, or it has taken a turn or been started by one. -/
theorem Ordered.becomes (hw : w.Ordered) (h : w.does a = some w')
    (ht' : w'.threads[t]? = some thread') : w.Becomes a t thread' := by
  cases a with
  | time n =>
      obtain rfl := Option.some.inj h
      exact .of_heard ht' none rfl
  | forget keep =>
      obtain rfl := Option.some.inj h
      exact .of_heard (thread_of_forget ht') none rfl
  | thread t₀ =>
      rcases step_cases h with
        ⟨name, wait, woken, missed, stack, arrived, ht, rfl⟩ | ⟨thread, ht, hawake, hallows, rfl⟩
      · rw [threads_rouse arrived ht] at ht'
        split at ht'
        · rename_i heq
          subst heq
          obtain rfl := Option.some.inj ht'
          refine .waits ht rfl (fun task hmem => ?_) False.elim (by simp [Control.gate?])
          obtain rfl := List.mem_singleton.1 hmem
          cases arrived <;> simp [Control.held]
        · exact .of_heard ht' none rfl
      · obtain ⟨state, rest, turn, hturn⟩ := exists_turn_of_allows (t := t₀) hallows hawake
        rw [(act_of_turn hturn).1, hw.threads_apply ht] at ht'
        split at ht'
        · rename_i heq
          subst heq
          exact .acts rfl ht hturn (Option.some.inj ht').symm
        · split at ht'
          · rename_i heq
            subst heq
            exact .starts rfl ht hturn ht' (hw.numbered _ (Nat.le_refl _))
          · obtain ⟨other, hother, hheard⟩ := Option.map_eq_some_iff.1 ht'
            exact .of_heard hother _ hheard

/-- A thread that has not ended is there after an action. -/
theorem Ordered.exists_thread (hw : w.Ordered) (h : w.does a = some w')
    (ht : w.threads[t]? = some thread) (hended : thread.ended = false) :
    ∃ thread', w'.threads[t]? = some thread' := by
  cases a with
  | time n =>
      obtain rfl := Option.some.inj h
      exact ⟨thread, ht⟩
  | forget keep =>
      obtain rfl := Option.some.inj h
      exact ⟨thread, by simp [threads_forget, ht, Option.filter, hended]⟩
  | thread t' =>
      rcases step_cases h with
        ⟨name, wait, woken, missed, stack, arrived, ht', rfl⟩ | ⟨other, ht', hawake, hallows, rfl⟩
      · rw [threads_rouse arrived ht']
        split
        · exact ⟨_, rfl⟩
        · exact ⟨thread, ht⟩
      · obtain ⟨state, rest, turn, happly⟩ := act_eq_apply (t := t') hallows hawake
        rw [happly, hw.threads_apply ht', if_neg (Nat.ne_of_lt (hw.lt ht)), ht, Option.map_some]
        split
        · exact ⟨_, rfl⟩
        · exact ⟨_, rfl⟩

/-- A thread that sleeps at a gate stays as it is until the gate is notified or its deadline has
come. -/
theorem Ordered.thread_of_sleeper {name : Option String} {gate : Gate} {deadline : Option Nat}
    {woken missed : Task H} {stack : List (Return H)} (hw : w.Ordered) (h : w.does a = some w')
    (ht : w.threads[t]? = some ⟨name, .asleep (.gate gate deadline) woken missed, stack⟩) :
    w'.threads[t]? = some ⟨name, .asleep (.gate gate deadline) woken missed, stack⟩ ∨
      w'.threads[t]? = some ⟨name, .run woken, stack⟩ ∨
        w.reached deadline = true ∧ w'.threads[t]? = some ⟨name, .run missed, stack⟩ := by
  cases a with
  | time n =>
      obtain rfl := Option.some.inj h
      exact .inl ht
  | forget keep =>
      obtain rfl := Option.some.inj h
      refine .inl ?_
      simp [threads_forget, ht, Option.filter, Thread.ended]
  | thread t' =>
      by_cases hne : t = t'
      · subst hne
        have hdisconnected : w.isDisconnected t = false := by simp [isDisconnected, awaits, ht]
        simp only [does, step?, ht, arrival, hdisconnected] at h
        cases hreached : w.reached deadline with
        | true =>
            simp only [hreached, if_true, Option.some.injEq] at h
            subst h
            exact .inr (.inr ⟨rfl, by rw [threads_rouse false ht, if_pos rfl]; rfl⟩)
        | false => simp [hreached] at h
      · rcases step_cases h with
          ⟨name', wait, woken', missed', stack', arrived, ht', rfl⟩ |
            ⟨other, ht', hother, hallows, rfl⟩
        · rw [threads_rouse arrived ht', if_neg hne]
          exact .inl ht
        · obtain ⟨state, rest, turn, happly⟩ := act_eq_apply (t := t') hallows hother
          rw [happly, hw.threads_apply ht', if_neg hne, if_neg (Nat.ne_of_lt (hw.lt ht)), ht,
            Option.map_some]
          cases turn.notified with
          | none => exact .inl rfl
          | some notified =>
              simp only [Thread.heard, Thread.notified]
              split
              · exact .inr (.inl rfl)
              · exact .inl rfl

end World

namespace Run

variable {r : Run H} {n m : Nat} {t : ThreadId} {thread : Thread H} {task : Task H}
  {name : Option String} {stack : List (Return H)}

theorem thread_of_other (ht : (r.world n).threads[t]? = some thread) (hready : thread.IsReady)
    (haction : r.action n ≠ .thread t) : (r.world (n + 1)).threads[t]? = some thread :=
  (r.ordered n).thread_of_other (r.step n) haction ht hready.heard hready.ended

/-- What a thread is after its turn. -/
theorem next_of_action {state : H.State} {rest : List (Return H)} {turn : Turn H}
    (haction : r.action n = .thread t) (ht : (r.world n).threads[t]? = some thread)
    (hturn : thread.turn? t (r.world n).heap (r.world n).state = some (state, rest, turn)) :
    (r.world (n + 1)).heap = turn.heap ∧ (r.world (n + 1)).threads[t]? =
      some (Thread.heard turn.notified ⟨thread.name, turn.control, turn.pushed ++ rest⟩) := by
  have hstep := r.step n
  rw [haction] at hstep
  have hworld := Option.some.inj ((World.step_of_turn ht hturn).symm.trans hstep)
  rw [(World.act_of_turn hturn).1] at hworld
  refine ⟨?_, ?_⟩
  · rw [← hworld, World.heap_apply]
  · rw [← hworld, (r.ordered n).threads_apply ht, if_pos rfl]

/-- What a task makes of shared objects. -/
theorem Does.heap_eq (h : r.Does n t task) : ∃ name stack,
    (r.world (n + 1)).heap = (task.turn ⟨t, name⟩ stack (r.world n).heap).heap := by
  obtain ⟨haction, name, stack, ht⟩ := h
  refine ⟨name, stack, ?_⟩
  cases task with
  | user code reply =>
      obtain ⟨hheap, -⟩ := next_of_action haction ht rfl
      rw [hheap, Move.turn_heap]
      rfl
  | _ => exact (next_of_action haction ht rfl).1

/-- A thread that takes a turn when it is let is as it was after an action, or has taken its
turn. -/
theorem next_of_turn {state : H.State} {rest : List (Return H)} {turn : Turn H}
    (ht : (r.world n).threads[t]? = some thread)
    (hturn : thread.turn? t (r.world n).heap (r.world n).state = some (state, rest, turn)) :
    (r.action n ≠ .thread t ∧ (r.world (n + 1)).threads[t]? = some thread) ∨
      r.action n = .thread t ∧ (r.world (n + 1)).heap = turn.heap ∧
        (r.world (n + 1)).threads[t]? =
          some (Thread.heard turn.notified ⟨thread.name, turn.control, turn.pushed ++ rest⟩) := by
  by_cases haction : r.action n = .thread t
  · exact .inr ⟨haction, next_of_action haction ht hturn⟩
  · exact .inl ⟨haction, thread_of_other ht (.of_turn hturn) haction⟩

/-- A thread takes its turn at some time, and has been as it was until then. -/
theorem Fair.exists_ready (hfair : r.Fair) (ht : (r.world n).threads[t]? = some thread)
    (hready : thread.IsReady) :
    ∃ m, n ≤ m ∧ r.action m = .thread t ∧ (r.world m).threads[t]? = some thread := by
  refine hfair.exists_action ht hready.heard hready.ended fun m _ hm => ?_
  obtain ⟨⟨state, rest, turn⟩, hturn⟩ :=
    Thread.exists_turn hready t (r.world m).heap (r.world m).state
  simp [World.step_of_turn hm hturn]

/-- A thread whose turn leads to the same next thread at all times becomes that one. -/
theorem Fair.exists_next (hfair : r.Fair) (next : Thread H) (hnext : next.IsReady)
    (ht : (r.world n).threads[t]? = some thread)
    (hturn : ∀ m, n ≤ m → ∃ state rest turn,
      thread.turn? t (r.world m).heap (r.world m).state = some (state, rest, turn) ∧
        next = ⟨thread.name, turn.control, turn.pushed ++ rest⟩) :
    ∃ m, n < m ∧ (r.world m).threads[t]? = some next := by
  obtain ⟨_, _, _, hfirst, -⟩ := hturn n (Nat.le_refl n)
  obtain ⟨m, hm, haction, ht'⟩ := hfair.exists_ready ht (.of_turn hfirst)
  obtain ⟨state, rest, turn, hturn', rfl⟩ := hturn m hm
  obtain ⟨-, hthread⟩ := next_of_action haction ht' hturn'
  exact ⟨m + 1, Nat.lt_succ_of_le hm, hthread.trans (congrArg some (hnext.heard _))⟩

theorem Fair.exists_does (hfair : r.Fair)
    (ht : (r.world n).threads[t]? = some ⟨name, .run task, stack⟩) :
    ∃ m, n ≤ m ∧ r.Does m t task ∧ (r.world m).threads[t]? = some ⟨name, .run task, stack⟩ := by
  obtain ⟨m, hm, haction, ht'⟩ := hfair.exists_ready ht trivial
  exact ⟨m, hm, ⟨haction, name, stack, ht'⟩, ht'⟩

end Run

end Trampoline
