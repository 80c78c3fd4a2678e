import Trampoline.Proofs.Provenance
import Trampoline.Proofs.Threads

/-!
Those who wait for a promise. They look at it, and sleep at its gate as long as it has no value; who
waits until a deadline looks once more when that has come. The value is written before the gate is
notified, so nobody sleeps there once the notification is past: whoever looked before the value was
written is asleep by then, and whoever looks later finds it.
-/

namespace Trampoline

variable {H : Host}

/-- A thread waits for promise `id`, until a deadline if there is one. -/
inductive Control.Waits (clock : Nat) (id : PromiseId) : Option Nat → Control H → Prop where
  | looks : Waits clock id none (.run (.await id))
  | sleeps : Waits clock id none (.asleep (.gate (.promise id) none) (.await id) (.await id))
  | looksUntil {time : Nat} : Waits clock id (some time) (.run (.awaitUntil id time))
  | sleepsUntil {time : Nat} :
      Waits clock id (some time)
        (.asleep (.gate (.promise id) (some time)) (.awaitUntil id time) (.peek id))
  | looksLast {time : Nat} : time ≤ clock → Waits clock id (some time) (.run (.peek id))

/-- A request waits for promise `id` until a deadline, which is an instant, and its reply goes back
through some returns. -/
inductive Request.Waits {H : Host} (clock : Nat) (id : PromiseId) :
    Request H.Data H.Fn → Option Nat → List (Return H) → Prop where
  | await : Waits clock id (.await id) none []
  | awaitFor {nanoseconds : Nat} : clock + nanoseconds < Heap.instants →
      Waits clock id (.awaitFor id nanoseconds) (some (clock + nanoseconds)) []
  | awaitFiber : Waits clock id (.awaitFiber id) none [.reading]
  | awaitFiberFor {nanoseconds : Nat} : clock + nanoseconds < Heap.instants →
      Waits clock id (.awaitFiberFor id nanoseconds) (some (clock + nanoseconds)) [.reading]

/-- What a reader of a fiber makes of the answer: the outcome in the slot, or its panic. -/
inductive Value.ReadAs {D F : Type} : Value D F → Except Payload (Value D F) → Prop where
  | outcome {value error : Ty} {s : Slot D F} {o : Outcome D F} :
      s.read = .ok o → ReadAs (.slot value error s) (.ok (.ofOutcome value error o))
  | panic {value error : Ty} {s : Slot D F} {payload : Payload} :
      s.read = .error payload → ReadAs (.slot value error s) (.error payload)
  | present {ty value error : Ty} {s : Slot D F} {o : Outcome D F} :
      s.read = .ok o → ReadAs (.present ty (.slot value error s))
        (.ok (.present (.result value error) (.ofOutcome value error o)))
  | presentPanic {ty value error : Ty} {s : Slot D F} {payload : Payload} :
      s.read = .error payload → ReadAs (.present ty (.slot value error s)) (.error payload)
  | absent {value error : Ty} :
      ReadAs (.absent (.slot value error)) (.ok (.absent (.result value error)))

theorem Value.ReadAs.readTurn {v : Value H.Data H.Fn} {reply : Except Payload (Value H.Data H.Fn)}
    (h : v.ReadAs reply) (heap : Heap H.Data H.Fn) :
    Return.readTurn heap v = ⟨heap, [], .replied reply, none, none⟩ := by
  cases h with
  | outcome hs => simp only [Return.readTurn, hs]; rfl
  | panic hs => simp only [Return.readTurn, hs]; rfl
  | present hs => simp only [Return.readTurn, hs]; rfl
  | presentPanic hs => simp only [Return.readTurn, hs]; rfl
  | absent => rfl

namespace World

variable {w w' : World H} {t : ThreadId} {id : PromiseId}

/-- Thread `t` sleeps at the gate of a promise. -/
def SleepsFor (w : World H) (t : ThreadId) (id : PromiseId) : Prop :=
  ∃ thread, w.threads[t]? = some thread ∧ thread.control.gate? = some (.promise id)

/-- Thread `t` waits for a promise, and its reply goes to a stack. -/
def Waits (w : World H) (t : ThreadId) (id : PromiseId) (deadline : Option Nat)
    (stack : List (Return H)) : Prop :=
  ∃ name control, w.threads[t]? = some ⟨name, control, stack⟩ ∧
    control.Waits w.heap.clock id deadline

/-- The wake-up of those who sleep at the gate of a promise is still to come: the call that has
written the value is about to take the subscribers, or to notify the gate. -/
def IsToWake (w : World H) (id : PromiseId) : Prop :=
  ∃ (t : ThreadId) (name : Option String) (v : Value H.Data H.Fn) (stack : List (Return H)),
    w.threads[t]? = some ⟨name, .run (.take id v), stack⟩ ∨
      ∃ subscribers, w.threads[t]? = some ⟨name, .run (.wake id v subscribers), stack⟩

end World

theorem Request.turn_clock (q : Request H.Data H.Fn) (stack : List (Return H))
    (heap : Heap H.Data H.Fn) : (q.turn (H := H) stack heap).heap.clock = heap.clock := by
  cases q <;> simp only [turn] <;> (repeat' split) <;> rfl

theorem Task.turn_clock (task : Task H) (here : Here) (stack : List (Return H))
    (heap : Heap H.Data H.Fn) : (task.turn here stack heap).heap.clock = heap.clock := by
  by_cases hlocal : task.IsLocal
  · exact hlocal.isLike.clock
  cases task with
  | request q => exact q.turn_clock stack heap
  | submit id work => simp only [turn, submitTurn]; (repeat' split) <;> rfl
  | report id failure => simp only [turn, reportTurn]; (repeat' split) <;> rfl
  | collect value error future channel => simp only [turn]; split <;> rfl
  | hang value error future channel => simp only [turn]; split <;> rfl
  | _ => exact absurd trivial hlocal

namespace World

variable {w w' : World H} {a : Action} {t : ThreadId} {id : PromiseId}

theorem clock_le_of_does (h : w.does a = some w') : w.heap.clock ≤ w'.heap.clock := by
  rcases heap_of_does h with ⟨clock, hle, hheap⟩ |
    ⟨t, name, payload, value, error, future, channel, rest, -, -, hheap⟩ |
    ⟨t, name, task, stack, -, -, hheap⟩
  · rw [hheap]
    exact hle
  · exact Nat.le_of_eq (congrArg Heap.clock hheap).symm
  · exact Nat.le_of_eq ((congrArg _ hheap).trans (task.turn_clock _ _ _)).symm

theorem Ordered.not_sleepsFor_of_notified {thread : Thread H} {state : H.State}
    {name : Option String} {rest : List (Return H)} {turn : Turn H} (hw : w.Ordered)
    (ht : w.threads[t]? = some thread) (hnotified : turn.notified = some (.promise id))
    (hborn : turn.born = none) (t' : ThreadId) :
    ¬(World.apply state w.threads w.next t name rest turn).SleepsFor t' id := by
  rintro ⟨thread', ht', hsleeps⟩
  rw [hw.threads_apply ht, hnotified, hborn] at ht'
  split at ht'
  · obtain rfl := Option.some.inj ht'
    exact Thread.gate?_heard _ _ hsleeps
  · split at ht'
    · contradiction
    · obtain ⟨other, -, rfl⟩ := Option.map_eq_some_iff.1 ht'
      exact other.gate?_heard _ hsleeps

end World

/-- A turn lets its thread fall asleep at the gate of a promise only if this has no value. -/
def Turn.SleepsUnwritten (heap : Heap H.Data H.Fn) (turn : Turn H) : Prop :=
  (∀ id, turn.control.gate? = some (.promise id) → heap.promised? id = none) ∧
    ∀ thread, turn.born = some thread → thread.control.gate? = none

section Turns

variable {heap : Heap H.Data H.Fn} {here : Here} {stack : List (Return H)} {turn : Turn H}

theorem Turn.SleepsUnwritten.of_awake (hcontrol : turn.control.gate? = none)
    (hborn : ∀ thread, turn.born = some thread → thread.control.gate? = none) :
    turn.SleepsUnwritten heap :=
  ⟨fun id h => by simp [hcontrol] at h, hborn⟩

theorem Request.turn_sleepsUnwritten (q : Request H.Data H.Fn) :
    (q.turn (H := H) stack heap).SleepsUnwritten heap := by
  cases q <;> simp only [turn] <;> (repeat' split) <;>
    exact Turn.SleepsUnwritten.of_awake rfl (by rintro thread ⟨⟩; try rfl)

theorem Task.turn_sleepsUnwritten (task : Task H) :
    (task.turn here stack heap).SleepsUnwritten heap := by
  cases task with
  | request q => exact q.turn_sleepsUnwritten
  | await id =>
      simp only [turn]
      split
      · exact .of_awake rfl (by rintro thread ⟨⟩)
      · rename_i hnone
        exact ⟨by rintro id ⟨⟩; exact hnone, by rintro thread ⟨⟩⟩
  | awaitUntil id time =>
      simp only [turn]
      split
      · exact .of_awake rfl (by rintro thread ⟨⟩)
      · rename_i hnone
        exact ⟨by rintro id ⟨⟩; exact hnone, by rintro thread ⟨⟩⟩
  | deliver id exit origin =>
      simp only [turn, deliverTurn]
      repeat' split
      all_goals exact ⟨by rintro id ⟨⟩, by rintro thread ⟨⟩⟩
  | answer question =>
      cases question <;> exact .of_awake rfl (by rintro thread ⟨⟩)
  | submit id work =>
      simp only [turn, submitTurn]
      repeat' split
      all_goals exact .of_awake rfl (by rintro thread ⟨⟩; try rfl)
  | report id failure =>
      simp only [turn, reportTurn]
      repeat' split
      all_goals exact .of_awake rfl (by rintro thread ⟨⟩)
  | drive i last finish =>
      simp only [turn, driveTurn]
      split <;> exact .of_awake rfl (by rintro thread ⟨⟩)
  | park id frames last finish =>
      simp only [turn, parkTurn]
      repeat' split
      all_goals exact .of_awake rfl (by rintro thread ⟨⟩)
  | conclude exit finish =>
      simp only [turn, concludeTurn]
      repeat' split
      all_goals exact .of_awake rfl (by rintro thread ⟨⟩)
  | tell subscriber v =>
      simp only [turn, tellTurn]
      repeat' split
      all_goals exact .of_awake rfl (by rintro thread ⟨⟩)
  | perform work => cases work <;> exact .of_awake rfl (by rintro thread ⟨⟩)
  | register register target =>
      cases register <;> exact .of_awake rfl (by rintro thread ⟨⟩)
  | invoke target outcome =>
      cases target <;> exact .of_awake rfl (by rintro thread ⟨⟩)
  | notify id v subscribers first =>
      cases subscribers <;> cases first <;> exact .of_awake rfl (by rintro thread ⟨⟩)
  | _ =>
      simp only [turn]
      repeat' split
      all_goals exact .of_awake rfl (by rintro thread ⟨⟩)

theorem Return.resume_sleepsUnwritten (back : Return H) (v : Value H.Data H.Fn) :
    (back.resume heap v).SleepsUnwritten heap := by
  cases back <;> simp only [resume, readTurn] <;> (repeat' split) <;>
    exact .of_awake rfl (by rintro thread ⟨⟩)

theorem Return.unwind_sleepsUnwritten (back : Return H) (payload : Payload) :
    (back.unwind heap payload).SleepsUnwritten heap := by
  cases back <;> exact .of_awake rfl (by rintro thread ⟨⟩)

theorem Move.turn_sleepsUnwritten (move : Move H.Data H.Fn H.Code H.Condition) :
    (move.turn heap).SleepsUnwritten heap := by
  cases move <;> exact .of_awake rfl (by rintro thread ⟨⟩)

theorem Thread.Turning.sleepsUnwritten {thread : Thread H} {t : ThreadId} {state state' : H.State}
    {rest : List (Return H)} (h : thread.Turning t heap state state' rest turn) :
    turn.SleepsUnwritten heap := by
  cases h with
  | move => exact Move.turn_sleepsUnwritten _
  | task => exact Task.turn_sleepsUnwritten _
  | ret => exact Return.resume_sleepsUnwritten _ _
  | raise => exact Return.unwind_sleepsUnwritten _ _

end Turns

namespace Run

variable {r : Run H} {id : PromiseId} {n m k : Nat} {t t' : ThreadId} {deadline : Option Nat}
  {stack : List (Return H)} {v : Value H.Data H.Fn} {subscribers : List (Subscriber H.Fn)}

theorem promised?_of_wake (hstart : (r.world 0).Starting)
    (h : r.Does n t (.wake id v subscribers)) : (r.world n).heap.promised? id = some v := by
  obtain ⟨-, -, ty, hpromise⟩ := (completion hstart id n).2.of_duty (h.duty (if_pos rfl))
  simp [Heap.promised?, hpromise]

/-- Whoever sleeps at the gate of a promise did so before, or has found it without a value. -/
theorem sleepsFor_succ (h : (r.world (n + 1)).SleepsFor t id) :
    (r.world n).SleepsFor t id ∨ (r.world n).heap.promised? id = none := by
  obtain ⟨thread', ht', hgate⟩ := h
  cases (r.ordered n).becomes (r.step n) ht' with
  | waits ht _ _ _ hsame => exact .inl ⟨_, ht, hsame _ hgate⟩
  | acts _ _ hturn heq =>
      subst heq
      exact .inr ((Thread.turning hturn).sleepsUnwritten.1 id (Thread.gate?_of_heard hgate))
  | starts _ _ hturn hborn =>
      rw [(Thread.turning hturn).sleepsUnwritten.2 _ hborn] at hgate
      contradiction

/-- Nobody sleeps at the gate of a promise once the call that has written its value has notified
it. -/
theorem not_sleepsFor_of_wake (hstart : (r.world 0).Starting)
    (h : r.Does k t' (.wake id v subscribers)) (hkn : k < n) : ¬(r.world n).SleepsFor t id := by
  induction hkn with
  | refl =>
      obtain ⟨name, stack, ht, happly⟩ := h.turn (by simp)
      rw [happly]
      exact (r.ordered k).not_sleepsFor_of_notified ht rfl rfl t
  | @step n hkn ih =>
      intro hsleeps
      rcases sleepsFor_succ hsleeps with hbefore | hnone
      · exact ih hbefore
      · have hvalue := promised?_of_le hstart (promised?_of_wake hstart h) (Nat.le_of_lt hkn)
        rw [hvalue] at hnone
        contradiction

/-- Once a value is written, the gate has been notified or is to be notified. -/
theorem isToWake_or_wake (hstart : (r.world 0).Starting)
    (h : (r.world n).heap.promised? id = some v) :
    (r.world n).IsToWake id ∨ ∃ k t v subscribers, k < n ∧ r.Does k t (.wake id v subscribers) := by
  obtain ⟨m, t, hmn, hwrites⟩ := (promised?_eq_some hstart).1 h
  clear h
  induction hmn with
  | refl =>
      obtain ⟨heap, hchanges, -⟩ := hwrites.accepted hstart
      obtain ⟨name, stack, -, ht⟩ := hchanges.thread
      exact .inl ⟨t, name, v, stack, .inl ht⟩
  | @step n hmn ih =>
      rcases ih with ⟨t', name, v', stack, ht | ⟨subscribers, ht⟩⟩ |
        ⟨k, t', v', subscribers, hk, hdoes⟩
      · have hvalue := (promised?_eq_some hstart).2 ⟨m, t, hmn, hwrites⟩
        obtain ⟨promise, hpromise⟩ : ∃ p, (r.world n).heap.promises[id]? = some p := by
          rcases hp : (r.world n).heap.promises[id]? with _ | p
          · simp [Heap.promised?, hp] at hvalue
          · exact ⟨p, rfl⟩
        rcases next_of_turn ht rfl with ⟨-, hsame⟩ | ⟨-, -, hnext⟩
        · exact .inl ⟨t', name, v', stack, .inl hsame⟩
        · simp only [Task.turn, hpromise] at hnext
          exact .inl ⟨t', name, v', stack, .inr ⟨_, hnext⟩⟩
      · rcases next_of_turn ht rfl with ⟨-, hsame⟩ | ⟨haction, -, -⟩
        · exact .inl ⟨t', name, v', stack, .inr ⟨subscribers, hsame⟩⟩
        · exact .inr ⟨n, t', v', subscribers, Nat.lt_succ_self n, haction, name, stack, ht⟩
      · exact .inr ⟨k, t', v', subscribers, Nat.lt_succ_of_lt hk, hdoes⟩

theorem clock_le (r : Run H) (hnm : n ≤ m) :
    (r.world n).heap.clock ≤ (r.world m).heap.clock := by
  induction hnm with
  | refl => exact Nat.le_refl _
  | step _ ih => exact Nat.le_trans ih (World.clock_le_of_does (r.step _))

/-- What someone is told at time `n` who has waited for promise `id`: the value that the first call
has written, or that there was none at a time after the deadline. -/
inductive Answers (r : Run H) (id : PromiseId) (n : Nat) :
    Option Nat → Value H.Data H.Fn → Prop where
  | value {m : Nat} {t : ThreadId} {v : Value H.Data H.Fn} :
      m < n → r.Writes id m t v → Answers r id n none v
  | present {time m : Nat} {t : ThreadId} {ty : Ty} {v : Value H.Data H.Fn} :
      m < n → r.Writes id m t v → Answers r id n (some time) (.present ty v)
  | absent {time : Nat} {ty : Ty} :
      (∀ m t v, m < n → ¬r.Writes id m t v) → time ≤ (r.world n).heap.clock →
        Answers r id n (some time) (.absent ty)

/-- At time `n` thread `t` looks at the promise for the last time and goes back with the answer. -/
def IsAnswered (r : Run H) (id : PromiseId) (n : Nat) (t : ThreadId) (deadline : Option Nat)
    (stack : List (Return H)) : Prop :=
  r.action n = .thread t ∧ ∃ name v, r.Answers id n deadline v ∧
    (r.world (n + 1)).threads[t]? = some ⟨name, .ret v, stack⟩

theorem not_writes_of_none (hstart : (r.world 0).Starting)
    (h : (r.world n).heap.promised? id = none) (m : Nat) (t : ThreadId) (v : Value H.Data H.Fn)
    (hmn : m < n) : ¬r.Writes id m t v := by
  intro hwrites
  rw [(promised?_eq_some hstart).2 ⟨m, t, hmn, hwrites⟩] at h
  contradiction

/-- A thread that looks at a promise finds the value or, unless it looks for the last time, falls
asleep. -/
theorem waits_look {name : Option String} {task : Task H} (hstart : (r.world 0).Starting)
    (h : Control.Waits (r.world n).heap.clock id deadline (.run task))
    (ht : (r.world n).threads[t]? = some ⟨name, .run task, stack⟩)
    (haction : r.action n = .thread t) :
    ((r.world (n + 1)).Waits t id deadline stack ∧ (r.world n).heap.promised? id = none) ∨
      r.IsAnswered id n t deadline stack := by
  have hfound {v : Value H.Data H.Fn} (hvalue : (r.world n).heap.promised? id = some v) :
      ∃ m t, m < n ∧ r.Writes id m t v :=
    (promised?_eq_some hstart).1 hvalue
  have hnone (hvalue : (r.world n).heap.promised? id = none) :
      ∀ m t v, m < n → ¬r.Writes id m t v :=
    not_writes_of_none hstart hvalue
  cases h with
  | looks =>
      obtain ⟨-, hnext⟩ := next_of_action haction ht rfl
      rcases hvalue : (r.world n).heap.promised? id with _ | v
      · simp only [Task.turn, hvalue] at hnext
        exact .inl ⟨⟨_, _, hnext, .sleeps⟩, rfl⟩
      · simp only [Task.turn, hvalue] at hnext
        obtain ⟨m, t', hm, hwrites⟩ := hfound hvalue
        exact .inr ⟨haction, name, _, .value hm hwrites, hnext⟩
  | looksUntil =>
      obtain ⟨-, hnext⟩ := next_of_action haction ht rfl
      rcases hvalue : (r.world n).heap.promised? id with _ | v
      · simp only [Task.turn, hvalue] at hnext
        exact .inl ⟨⟨_, _, hnext, .sleepsUntil⟩, rfl⟩
      · simp only [Task.turn, hvalue] at hnext
        obtain ⟨m, t', hm, hwrites⟩ := hfound hvalue
        exact .inr ⟨haction, name, _, .present hm hwrites, hnext⟩
  | looksLast htime =>
      obtain ⟨-, hnext⟩ := next_of_action haction ht rfl
      refine .inr ⟨haction, name, ?_⟩
      rcases hpromise : (r.world n).heap.promises[id]? with _ | promise
      · simp only [Task.turn, hpromise] at hnext
        exact ⟨_, .absent (hnone (by simp only [Heap.promised?, hpromise])) htime, hnext⟩
      rcases hvalue : promise.value with _ | v
      · simp only [Task.turn, hpromise, hvalue] at hnext
        exact ⟨_, .absent (hnone (by simp only [Heap.promised?, hpromise, hvalue])) htime, hnext⟩
      · simp only [Task.turn, hpromise, hvalue] at hnext
        obtain ⟨m, t', hm, hwrites⟩ := hfound (v := v)
          (by simp only [Heap.promised?, hpromise, hvalue])
        exact ⟨_, .present hm hwrites, hnext⟩

/-- A thread that waits goes on waiting, or looks at the promise and is answered. -/
theorem waits_next (hstart : (r.world 0).Starting)
    (h : (r.world n).Waits t id deadline stack) :
    (r.world (n + 1)).Waits t id deadline stack ∨ r.IsAnswered id n t deadline stack := by
  obtain ⟨name, control, ht, hwaits⟩ := h
  have hlook {task : Task H} (hcontrol : control = .run task) :
      (r.world (n + 1)).Waits t id deadline stack ∨ r.IsAnswered id n t deadline stack := by
    subst hcontrol
    by_cases haction : r.action n = .thread t
    · rcases waits_look hstart hwaits ht haction with ⟨hasleep, -⟩ | hanswered
      · exact .inl hasleep
      · exact .inr hanswered
    · refine .inl ⟨name, _, thread_of_other ht trivial haction, ?_⟩
      cases hwaits with
      | looks => exact .looks
      | looksUntil => exact .looksUntil
      | looksLast htime => exact .looksLast (Nat.le_trans htime (r.clock_le (Nat.le_succ n)))
  cases hwaits with
  | looks => exact hlook rfl
  | looksUntil => exact hlook rfl
  | looksLast htime => exact hlook rfl
  | sleeps =>
      rcases (r.ordered n).thread_of_sleeper (r.step n) ht with hsame | hwoken | ⟨hreached, -⟩
      · exact .inl ⟨name, _, hsame, .sleeps⟩
      · exact .inl ⟨name, _, hwoken, .looks⟩
      · contradiction
  | sleepsUntil =>
      rcases (r.ordered n).thread_of_sleeper (r.step n) ht with hsame | hwoken | ⟨hreached, hmissed⟩
      · exact .inl ⟨name, _, hsame, .sleepsUntil⟩
      · exact .inl ⟨name, _, hwoken, .looksUntil⟩
      · refine .inl ⟨name, _, hmissed, .looksLast ?_⟩
        exact Nat.le_trans (of_decide_eq_true hreached) (r.clock_le (Nat.le_succ n))

/-- Until it is answered, a thread waits. -/
theorem waits_or_answered (hstart : (r.world 0).Starting)
    (h : (r.world n).Waits t id deadline stack) (hnm : n ≤ m) :
    (r.world m).Waits t id deadline stack ∨ ∃ k, n ≤ k ∧ k < m ∧
      (∀ j, n ≤ j → j ≤ k → (r.world j).Waits t id deadline stack) ∧
        r.IsAnswered id k t deadline stack := by
  have hrun : (∀ j, n ≤ j → j ≤ m → (r.world j).Waits t id deadline stack) ∨ ∃ k, n ≤ k ∧ k < m ∧
      (∀ j, n ≤ j → j ≤ k → (r.world j).Waits t id deadline stack) ∧
        r.IsAnswered id k t deadline stack := by
    induction hnm with
    | refl => exact .inl fun j hj hjm => Nat.le_antisymm hj hjm ▸ h
    | @step m hnm ih =>
        rcases ih with hwaits | ⟨k, hk, hkm, hbefore, hanswered⟩
        · rcases waits_next hstart (hwaits m hnm (Nat.le_refl m)) with hnext | hanswered
          · refine .inl fun j hj hjm => ?_
            rcases Nat.le_succ_iff.1 hjm with hle | rfl
            · exact hwaits j hj hle
            · exact hnext
          · exact .inr ⟨m, hnm, Nat.lt_succ_self m, hwaits, hanswered⟩
        · exact .inr ⟨k, hk, Nat.lt_succ_of_lt hkm, hbefore, hanswered⟩
  rcases hrun with hwaits | hanswered
  · exact .inl (hwaits m hnm (Nat.le_refl m))
  · exact .inr hanswered

theorem Fair.exists_wake (hstart : (r.world 0).Starting) (hfair : r.Fair)
    (hvalue : (r.world n).heap.promised? id = some v) :
    ∃ k t v subscribers, r.Does k t (.wake id v subscribers) := by
  have hwake {n : Nat} {t : ThreadId} {name : Option String} {v : Value H.Data H.Fn}
      {subscribers : List (Subscriber H.Fn)} {stack : List (Return H)}
      (ht : (r.world n).threads[t]? = some ⟨name, .run (.wake id v subscribers), stack⟩) :
      ∃ k t v subscribers, r.Does k t (.wake id v subscribers) := by
    obtain ⟨k, -, hdoes, -⟩ := hfair.exists_does ht
    exact ⟨k, t, v, subscribers, hdoes⟩
  rcases isToWake_or_wake hstart hvalue with
    ⟨t, name, v', stack, ht | ⟨subscribers, ht⟩⟩ | ⟨k, t, v', subscribers, -, hdoes⟩
  · obtain ⟨k, hk, ⟨haction, -⟩, ht'⟩ := hfair.exists_does ht
    have hvalue' := promised?_of_le hstart hvalue hk
    obtain ⟨-, hnext⟩ := next_of_action haction ht' rfl
    rcases hpromise : (r.world k).heap.promises[id]? with _ | promise
    · simp [Heap.promised?, hpromise] at hvalue'
    · simp only [Task.turn, hpromise] at hnext
      exact hwake hnext
  · exact hwake ht
  · exact ⟨k, t, v', subscribers, hdoes⟩

/-- A thread that looks at a promise whose value is written is answered when it takes its turn. -/
theorem Fair.exists_answered_of_awake (hstart : (r.world 0).Starting) (hfair : r.Fair)
    (h : (r.world n).Waits t id deadline stack) (hawake : ¬(r.world n).SleepsFor t id)
    (hvalue : (r.world n).heap.promised? id = some v) :
    ∃ k, n ≤ k ∧ r.IsAnswered id k t deadline stack := by
  obtain ⟨name, control, ht, hwaits⟩ := h
  have hlook {task : Task H} (hcontrol : control = .run task) :
      ∃ k, n ≤ k ∧ r.IsAnswered id k t deadline stack := by
    subst hcontrol
    obtain ⟨k, hk, ⟨haction, -⟩, ht'⟩ := hfair.exists_does ht
    have hwaits' : Control.Waits (r.world k).heap.clock id deadline (.run task) := by
      cases hwaits with
      | looks => exact .looks
      | looksUntil => exact .looksUntil
      | looksLast htime => exact .looksLast (Nat.le_trans htime (r.clock_le hk))
    rcases waits_look hstart hwaits' ht' haction with ⟨-, hnone⟩ | hanswered
    · rw [promised?_of_le hstart hvalue hk] at hnone
      contradiction
    · exact ⟨k, hk, hanswered⟩
  cases hwaits with
  | looks => exact hlook rfl
  | looksUntil => exact hlook rfl
  | looksLast htime => exact hlook rfl
  | sleeps => exact absurd ⟨_, ht, rfl⟩ hawake
  | sleepsUntil => exact absurd ⟨_, ht, rfl⟩ hawake

theorem Fair.exists_answered (hstart : (r.world 0).Starting) (hfair : r.Fair)
    (h : (r.world n).Waits t id deadline stack) (hvalue : (r.world m).heap.promised? id = some v) :
    ∃ k, n ≤ k ∧ r.IsAnswered id k t deadline stack := by
  obtain ⟨k, t', v', subscribers, hwake⟩ := hfair.exists_wake hstart hvalue
  have hlate : n ≤ max n (max m (k + 1)) := by omega
  rcases waits_or_answered hstart h hlate with hwaits | ⟨j, hj, -, -, hanswered⟩
  · have hvalue' := promised?_of_le hstart hvalue (show m ≤ max n (max m (k + 1)) by omega)
    obtain ⟨j, hj, hanswered⟩ := hfair.exists_answered_of_awake hstart hwaits
      (not_sleepsFor_of_wake hstart hwake (by omega)) hvalue'
    exact ⟨j, Nat.le_trans hlate hj, hanswered⟩
  · exact ⟨j, hj, hanswered⟩

/-- A request that waits for a promise makes its thread wait. -/
theorem waits_of_request {name : Option String} {q : Request H.Data H.Fn}
    {pushed : List (Return H)} (haction : r.action n = .thread t)
    (ht : (r.world n).threads[t]? = some ⟨name, .run (.request q), stack⟩)
    (h : q.Waits (r.world n).heap.clock id deadline pushed) :
    (r.world (n + 1)).Waits t id deadline (pushed ++ stack) := by
  have hnext : (r.world (n + 1)).threads[t]? =
      some (Thread.heard (q.turn stack (r.world n).heap).notified
        ⟨name, (q.turn stack (r.world n).heap).control,
          (q.turn stack (r.world n).heap).pushed ++ stack⟩) :=
    (next_of_action haction ht rfl).2
  cases h with
  | await => exact ⟨name, _, hnext, .looks⟩
  | awaitFor hinstant =>
      rw [Request.turn, Heap.deadline?_eq_some hinstant] at hnext
      exact ⟨name, _, hnext, .looksUntil⟩
  | awaitFiber => exact ⟨name, _, hnext, .looks⟩
  | awaitFiberFor hinstant =>
      rw [Request.turn, Heap.deadline?_eq_some hinstant] at hnext
      exact ⟨name, _, hnext, .looksUntil⟩

/-- Nobody who waits for a promise is lost. -/
structure KeepsReaders (r : Run H) (id : PromiseId) : Prop where
  /-- Whoever sleeps at the gate waits for a value that has not been written, or is still to be
  woken up. -/
  asleep {n : Nat} {t : ThreadId} :
    (r.world n).SleepsFor t id →
      (∀ m t' v, m < n → ¬r.Writes id m t' v) ∨ (r.world n).IsToWake id
  /-- Once the gate has been notified, nobody sleeps there. -/
  awake {k n : Nat} {t t' : ThreadId} {v : Value H.Data H.Fn}
      {subscribers : List (Subscriber H.Fn)} :
    r.Does k t' (.wake id v subscribers) → k < n → ¬(r.world n).SleepsFor t id
  /-- From its request on, a reader waits until it is answered. -/
  answered {k n : Nat} {t : ThreadId} {name : Option String} {q : Request H.Data H.Fn}
      {deadline : Option Nat} {pushed stack : List (Return H)} :
    r.action k = .thread t →
      (r.world k).threads[t]? = some ⟨name, .run (.request q), stack⟩ →
        q.Waits (r.world k).heap.clock id deadline pushed → k < n →
          (r.world n).Waits t id deadline (pushed ++ stack) ∨ ∃ m, k < m ∧ m < n ∧
            (∀ j, k < j → j ≤ m → (r.world j).Waits t id deadline (pushed ++ stack)) ∧
              r.IsAnswered id m t deadline (pushed ++ stack)
  /-- A reader of a fiber makes an outcome or a panic of the answer. -/
  read {n : Nat} {t : ThreadId} {name : Option String} {v : Value H.Data H.Fn}
      {reply : Except Payload (Value H.Data H.Fn)} {stack : List (Return H)} :
    r.action n = .thread t →
      (r.world n).threads[t]? = some ⟨name, .ret v, .reading :: stack⟩ → v.ReadAs reply →
        (r.world (n + 1)).threads[t]? = some ⟨name, .replied reply, stack⟩
  /-- If the value is written at some time and threads take their turns, a reader is answered. -/
  comes {n m : Nat} {t t' : ThreadId} {v : Value H.Data H.Fn} {deadline : Option Nat}
      {stack : List (Return H)} :
    r.Fair → (r.world n).Waits t id deadline stack → r.Writes id m t' v →
      ∃ k, n ≤ k ∧ r.IsAnswered id k t deadline stack

/-- Whatever the order of the threads and the passing of time are, nobody who waits for a promise is
lost, and whoever is answered is told the value that has been written or, after the deadline, that
there is none. -/
theorem keepsReaders (hstart : (r.world 0).Starting) (id : PromiseId) : r.KeepsReaders id where
  asleep {n t} h := by
    rcases hvalue : (r.world n).heap.promised? id with _ | v
    · exact .inl fun m t' v hm => not_writes_of_none hstart hvalue m t' v hm
    · rcases isToWake_or_wake hstart hvalue with hwake | ⟨k, t', v', subscribers, hk, hdoes⟩
      · exact .inr hwake
      · exact absurd h (not_sleepsFor_of_wake hstart hdoes hk)
  awake := not_sleepsFor_of_wake hstart
  answered haction ht hq hkn := by
    rcases waits_or_answered hstart (waits_of_request haction ht hq) hkn with
      hwaits | ⟨m, hkm, hmn, hbefore, hanswered⟩
    · exact .inl hwaits
    · exact .inr ⟨m, hkm, hmn, hbefore, hanswered⟩
  read haction ht hread := by
    rcases next_of_turn ht rfl with ⟨hother, -⟩ | ⟨-, -, hnext⟩
    · exact absurd haction hother
    · rw [Return.resume, hread.readTurn] at hnext
      exact hnext
  comes hfair hwaits hwrites :=
    hfair.exists_answered hstart hwaits
      ((promised?_eq_some hstart).2 ⟨_, _, Nat.lt_succ_self _, hwrites⟩)

end Run

namespace Drill

/-- The first thread waits for a promise until five nanoseconds have passed; the second one
completes it. -/
def overdue : Script
  | 0 => [.ask (.newPromise .text), .ask (.awaitFor 0 5)]
  | 1 => [.ask (.fill 0 (.text "late"))]
  | _ => []

/-- The value is written and the subscribers are taken, then the time is up, and the first thread
looks once more before the second one notifies the gate. -/
def punctual : Run (host overdue) :=
  .ofList (start overdue []) (start_starting overdue []).initial
    (List.replicate 7 (.thread 0) ++ List.replicate 4 (.thread 1) ++ [.time 7] ++
      List.replicate 4 (.thread 0) ++ List.replicate 6 (.thread 1))

set_option maxRecDepth 4000 in
/-- The first thread is asleep when the value is written. It is told the value although its time is
up, and nobody sleeps at the gate when this has been notified. -/
theorem punctual_keepsReaders :
    (punctual.world 10).SleepsFor 0 0 ∧ (punctual.world 10).heap.promised? 0 = some (.text "late") ∧
      (∃ n, 4 < n ∧ n < 20 ∧ punctual.IsAnswered 0 n 0 (some 5) [.user (0, 2)]) ∧
        ∀ n t, 16 < n → ¬(punctual.world n).SleepsFor t 0 := by
  have hkeeps := Run.keepsReaders (r := punctual) (start_starting overdue []) 0
  have hwake : punctual.Does 16 1 (.wake 0 (.text "late") []) := ⟨rfl, _, _, rfl⟩
  refine ⟨⟨_, rfl, rfl⟩, rfl, ?_, fun n t => hkeeps.awake hwake⟩
  rcases hkeeps.answered (k := 4) (n := 20) (t := 0) rfl rfl (.awaitFor (by decide))
    (by decide) with
    ⟨name, control, ht, hwaits⟩ | ⟨n, h4, h20, -, hanswered⟩
  · obtain rfl : Control.ret _ = control := congrArg Thread.control (Option.some.inj ht)
    cases hwaits
  · exact ⟨n, h4, h20, hanswered⟩

end Drill

end Trampoline
