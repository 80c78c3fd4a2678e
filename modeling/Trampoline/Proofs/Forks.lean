import Trampoline.Proofs.Causes
import Trampoline.Proofs.Fibers
import Trampoline.Proofs.Gathering

/-!
A fork, from the question to the reply. The thread that asks makes a fiber, submits the work and
goes back with the effect that joins the fiber, or with the panic of the submission; whatever the
scheduler does meanwhile on this thread it does above the question.
-/

namespace Trampoline

variable {H : Host}

/-- Whether a scheduler leaves a return on the stack of the thread that submits to it or reports to
it. -/
def Return.IsServing : Return H → Prop
  | .guarded _ => True
  | .after (.give _) => True
  | _ => False

/-- Whether a scheduler does a task as the last one for the thread that has submitted to it. -/
def Task.IsServing : Task H → Prop
  | .give _ => True
  | .report _ _ => True
  | _ => False

/-- A scheduler is at work for the thread above a stack, or has come back to it. -/
inductive Thread.Serves (stack : List (Return H)) (thread : Thread H) : Prop where
  | within {above : List (Return H)} {back : Return H} :
      back.IsServing → thread.stack = above ++ back :: stack → Serves stack thread
  | here : thread.stack = stack → (∀ task ∈ thread.control.held, task.IsServing) →
      Serves stack thread

theorem Thread.Serves.of_held {stack : List (Return H)} {thread thread' : Thread H}
    (h : thread.Serves stack) (hstack : thread'.stack = thread.stack)
    (hheld : ∀ task ∈ thread'.control.held, task ∈ thread.control.held) : thread'.Serves stack := by
  cases h with
  | within hback habove => exact .within hback (hstack.trans habove)
  | here hhere hserving =>
      exact .here (hstack.trans hhere) fun task hmem => hserving task (hheld task hmem)

theorem Thread.Serves.exists_above {stack : List (Return H)} {thread : Thread H}
    (h : thread.Serves stack) : ∃ above, thread.stack = above ++ stack ∧
      (above = [] → ∀ task ∈ thread.control.held, task.IsServing) := by
  cases h with
  | @within above back hback habove => exact ⟨above ++ [back], by simpa using habove, by simp⟩
  | here hhere hserving => exact ⟨[], hhere, fun _ => hserving⟩

theorem Thread.Serves.heard {stack : List (Return H)} {thread : Thread H} (h : thread.Serves stack)
    (notified : Option Gate) : (thread.heard notified).Serves stack :=
  h.of_held (thread.stack_heard notified) fun _ => Thread.mem_held_of_control_heard

open Thread.Serves (within) in
/-- Whoever submits is served above the stack. -/
theorem Task.submitTurn_serves {heap : Heap H.Data H.Fn} {name : Option String}
    (s : SchedulerId) (work : Work H.Data H.Fn) (stack : List (Return H)) :
    Thread.Serves stack ⟨name, (submitTurn (H := H) heap s work).control,
      (submitTurn (H := H) heap s work).pushed ++ stack⟩ := by
  unfold submitTurn
  split
  · exact @within H stack _ [] (.guarded s) trivial rfl
  · exact @within H stack _ [] (.guarded s) trivial rfl
  · dsimp only
    split
    · exact .here rfl (by simp [Turn.raise, Control.held])
    · split
      · exact .here rfl (by simp [Turn.run, Control.held, Task.IsServing])
      · exact .here rfl (by simp [Control.held])
  · exact .here rfl (by simp [Control.held])
  · exact @within H stack _ [] (.after (.give .unit)) trivial rfl
  · exact .here rfl (by simp [Turn.ret, Control.held])

open Thread.Serves (within) in
/-- A scheduler goes on being at work above the stack, unless the thread goes back to the stack with
a reply or a panic. -/
theorem Thread.Turning.serves {thread : Thread H} {t : ThreadId} {heap : Heap H.Data H.Fn}
    {state state' : H.State} {rest stack : List (Return H)} {turn : Turn H}
    (h : thread.Turning t heap state state' rest turn) (hserves : thread.Serves stack) :
    Thread.Serves stack ⟨thread.name, turn.control, turn.pushed ++ rest⟩ ∨
      ∃ back, thread.stack = stack ∧ stack = back :: rest ∧
        ((∃ v, thread.control = .ret v ∧ turn = back.resume heap v) ∨
          ∃ payload, thread.control = .raise payload ∧ turn = back.unwind heap payload) := by
  have hwithin {above : List (Return H)} {back : Return H} (hback : back.IsServing)
      (habove : rest = above ++ back :: stack) :
      Thread.Serves stack ⟨thread.name, turn.control, turn.pushed ++ rest⟩ :=
    @within H stack _ (turn.pushed ++ above) back hback (by simp [habove])
  cases h with
  | @move name code reply _ _ move =>
      cases hserves with
      | within hback habove => exact .inl (hwithin hback habove)
      | here hhere hserving =>
          exact (hserving (.user code reply) (by simp [Control.held])).elim
  | @task name task _ huser =>
      cases hserves with
      | within hback habove => exact .inl (hwithin hback habove)
      | here hhere hserving =>
          obtain rfl : rest = stack := hhere
          have htask := hserving task (by simp [Control.held])
          cases task with
          | give v => exact .inl (.here rfl (by simp [Task.turn, Turn.ret, Control.held]))
          | report s failure =>
              simp only [Task.turn, Task.reportTurn]
              repeat' split
              · exact .inl (.here rfl (by simp [Turn.ret, Control.held]))
              · exact .inl (@within H rest _ [] (.after (.give .unit)) trivial rfl)
              · exact .inl (.here rfl (by simp [Turn.ret, Control.held]))
              · exact .inl (.here rfl (by simp [Turn.ret, Control.held]))
          | _ => exact htask.elim
  | @ret name v back _ =>
      cases hserves with
      | here hhere hserving => exact .inr ⟨back, hhere, hhere.symm, .inl ⟨v, rfl, rfl⟩⟩
      | @within above back' hback habove =>
          cases above with
          | cons _ above => exact .inl (hwithin hback (List.cons.inj habove).2)
          | nil =>
              obtain ⟨rfl, rfl⟩ := List.cons.inj habove
              refine .inl (.here ?_ ?_)
              · cases back with
                | after task => rfl
                | guarded s => rfl
                | _ => exact hback.elim
              · cases back with
                | guarded s => simp [Return.resume, Turn.ret, Control.held]
                | after task =>
                    cases task with
                    | give w => simp [Return.resume, Turn.run, Control.held, Task.IsServing]
                    | _ => exact hback.elim
                | _ => exact hback.elim
  | @raise name payload back _ =>
      cases hserves with
      | here hhere hserving => exact .inr ⟨back, hhere, hhere.symm, .inr ⟨payload, rfl, rfl⟩⟩
      | @within above back' hback habove =>
          cases above with
          | cons _ above => exact .inl (hwithin hback (List.cons.inj habove).2)
          | nil =>
              obtain ⟨rfl, rfl⟩ := List.cons.inj habove
              refine .inl (.here ?_ ?_)
              · cases back with
                | after task => rfl
                | guarded s => rfl
                | _ => exact hback.elim
              · cases back with
                | guarded s => simp [Return.unwind, Turn.run, Control.held, Task.IsServing]
                | after task => simp [Return.unwind, Turn.raise, Control.held]
                | _ => exact hback.elim

/-- The work that a thread submits for an interpretation that has asked for it, and the level at
which the interpretation waits. -/
def Thread.submits? : Thread H → Option (Nat × SchedulerId × Work H.Data H.Fn)
  | ⟨_, .run (.submit s work), .after (.give _) :: .answering _ _ _ _ _ :: below⟩ =>
      some (below.length, s, work)
  | _ => none

namespace World

/-- The work that an action submits for the interpretation at a place. -/
def submits? (w : World H) : Action → Place → Option (SchedulerId × Work H.Data H.Fn)
  | .thread t, .thread t' l =>
      if t = t' then
        match w.threads[t]?.bind Thread.submits? with
        | some (l', submission) => if l = l' then some submission else none
        | none => none
      else none
  | _, _ => none

variable {w : World H} {t : ThreadId} {name : Option String} {control : Control H}
  {stack below : List (Return H)} {back : Return H}

/-- Who submits work for an interpretation has its question right below the reply. -/
theorem exists_of_submits {a : Action} {l : Nat} {submission : SchedulerId × Work H.Data H.Fn}
    (h : w.submits? a (.thread t l) = some submission) :
    ∃ name v post frames last applied finish below, a = .thread t ∧ l = below.length ∧
      w.threads[t]? = some ⟨name, .run (.submit submission.1 submission.2),
        .after (.give v) :: .answering post frames last applied finish :: below⟩ := by
  cases a with
  | thread t' =>
      simp only [submits?] at h
      split at h
      · rename_i heq
        subst heq
        split at h
        · rename_i l' submission' hthread
          split at h
          · rename_i hl
            obtain rfl := Option.some.inj h
            obtain ⟨⟨name, control, stack⟩, ht, hsubmits⟩ := Option.bind_eq_some_iff.1 hthread
            unfold Thread.submits? at hsubmits
            split at hsubmits
            · rename_i heq
              obtain ⟨rfl, rfl, rfl⟩ := Thread.mk.inj heq
              obtain ⟨rfl, rfl⟩ := Prod.mk.inj (Option.some.inj hsubmits)
              exact ⟨_, _, _, _, _, _, _, _, rfl, hl, ht⟩
            · contradiction
          · contradiction
        · contradiction
      · contradiction
  | _ => contradiction

theorem submits?_eq_none {l : Nat} (ht : w.threads[t]? = some ⟨name, control, stack⟩)
    (h : (∀ s work, control ≠ .run (.submit s work)) ∨ stack.length ≠ l + 2) (a : Action) :
    w.submits? a (.thread t l) = none := by
  cases hsubmits : w.submits? a (.thread t l) with
  | none => rfl
  | some submission =>
      obtain ⟨_, _, _, _, _, _, _, below, -, rfl, ht'⟩ := exists_of_submits hsubmits
      obtain ⟨-, rfl, rfl⟩ := Thread.mk.inj (Option.some.inj (ht.symm.trans ht'))
      rcases h with h | h
      · exact absurd rfl (h _ _)
      · simp at h

theorem level_of_turnShift {thread : Thread H} {l : Nat} {deeds : List (Deed H.Data H.Fn)}
    {o : Option Place} (h : w.turnShift t thread = .moved (.thread t l) deeds o) :
    l = thread.stack.length ∨ thread.control.held = [] ∧ l + 1 = thread.stack.length := by
  unfold turnShift at h
  split at h
  case h_1 => split at h <;> cases h <;> exact .inl rfl
  case h_2 => split at h <;> cases h <;> exact .inl rfl
  case h_4 => cases h; exact .inl rfl
  case h_5 => cases h; exact .inl rfl
  case h_7 => cases h; exact .inr ⟨rfl, rfl⟩
  case h_8 => cases h; exact .inr ⟨rfl, rfl⟩
  case h_9 => cases h; exact .inr ⟨rfl, rfl⟩
  case h_10 => cases h; exact .inr ⟨rfl, rfl⟩
  all_goals cases h

theorem submits?_of_other {a : Action} {l : Nat} (h : a ≠ .thread t) :
    w.submits? a (.thread t l) = none := by
  cases a with
  | thread t' => exact if_neg fun heq => h (congrArg _ heq)
  | _ => rfl

/-- Work is submitted for an interpretation that has asked a question. -/
theorem submits?_of_ne_asking {q : Place} {stage : Stage H.Data H.Fn} {finish : Finish H.Fn}
    (hq : w.pendingAt q = some (stage, finish))
    (hstage : ∀ post frames, stage ≠ .asking post frames) (a : Action) : w.submits? a q = none := by
  cases q with
  | handoff id => cases a <;> rfl
  | thread t l =>
      cases hsubmits : w.submits? a (.thread t l) with
      | none => rfl
      | some submission =>
          obtain ⟨_, _, _, _, _, _, _, below, -, rfl, ht⟩ := exists_of_submits hsubmits
          have hasking := hq
          simp only [pendingAt, ht, Option.bind_some, Thread.pendingAt, List.length_cons,
            Return.pendingAt] at hasking
          rw [if_neg (by omega), if_neg (by omega), if_pos trivial] at hasking
          obtain ⟨rfl, -⟩ := Prod.mk.inj (Option.some.inj hasking)
          exact absurd rfl (hstage _ _)

/-- What waits at a level of a stack is not moved by a thread that is busy above it. -/
theorem shift_ne_below (above : List (Return H))
    (ht : w.threads[t]? = some ⟨name, control, above ++ back :: below⟩)
    (hbusy : above = [] → control.held ≠ []) (a : Action) (deeds : List (Deed H.Data H.Fn))
    (o : Option Place) : w.shift a ≠ .moved (.thread t below.length) deeds o := by
  intro hshift
  obtain rfl := action_of_shift hshift
  rw [shift_thread ht] at hshift
  have hl := level_of_turnShift hshift
  simp only [List.length_append, List.length_cons] at hl
  rcases hl with hl | ⟨hheld, hl⟩
  · omega
  · exact hbusy (List.eq_nil_of_length_eq_zero (by omega)) hheld

/-- Nothing happens to a question while a scheduler is at work above what is to be its reply. -/
theorem quiet_of_serves {thread : Thread H} {v : Value H.Data H.Fn}
    (ht : w.threads[t]? = some thread)
    (h : thread.Serves (.after (.give v) :: back :: below)) (a : Action) :
    thread.ended = false ∧ (∀ deeds o, w.shift a ≠ .moved (.thread t below.length) deeds o) ∧
      w.submits? a (.thread t below.length) = none := by
  obtain ⟨name, control, stack⟩ := thread
  obtain ⟨above, hstack, hserving⟩ := h.exists_above
  obtain rfl : stack = _ := hstack
  refine ⟨?_, shift_ne_below (above ++ [.after (.give v)]) (by simpa using ht) (by simp) a,
    submits?_eq_none ht ?_ a⟩
  · cases above <;> cases control <;> rfl
  · cases above with
    | nil =>
        left
        rintro s work rfl
        exact hserving rfl (.submit s work) (by simp [Control.held])
    | cons first above =>
        right
        simp only [List.length_append, List.length_cons]
        omega

end World


namespace Run

variable {r : Run H} {n : Nat} {t : ThreadId} {value error : Ty} {s : SchedulerId}
  {x : Node H.Data H.Fn} {stack : List (Return H)} {o : Option (Nat × PromiseId)}
  {works : List (SchedulerId × Work H.Data H.Fn)}

/-- A thread that has not ended is as it was after an action, or woken up, or has taken its turn. -/
theorem next_of_thread {thread : Thread H} (ht : (r.world n).threads[t]? = some thread)
    (hended : thread.ended = false) :
    ∃ thread', (r.world (n + 1)).threads[t]? = some thread' ∧
      ((thread'.stack = thread.stack ∧
          ∀ task ∈ thread'.control.held, task ∈ thread.control.held) ∨
        ∃ state rest turn, r.action n = .thread t ∧
          thread.turn? t (r.world n).heap (r.world n).state = some (state, rest, turn) ∧
            thread' =
              Thread.heard turn.notified ⟨thread.name, turn.control, turn.pushed ++ rest⟩) := by
  obtain ⟨thread', ht'⟩ := (r.ordered n).exists_thread (r.step n) ht hended
  refine ⟨thread', ht', ?_⟩
  cases (r.ordered n).becomes (r.step n) ht' with
  | waits ht₀ hstack hheld =>
      obtain rfl := Option.some.inj (ht₀.symm.trans ht)
      exact .inl ⟨hstack, hheld⟩
  | acts haction ht₀ hturn heq =>
      obtain rfl := Option.some.inj (ht₀.symm.trans ht)
      exact .inr ⟨_, _, _, haction, hturn, heq⟩
  | starts _ _ _ _ hnone =>
      rw [hnone] at ht
      contradiction

/-- What the interpretation that is at `p` at time `b` has asked to be submitted until `n` actions
later. -/
def submitted (r : Run H) (b : Nat) (p : Place) : Nat → List (SchedulerId × Work H.Data H.Fn)
  | 0 => []
  | n + 1 => submitted r b p n ++
      ((r.place b p n).bind ((r.world (b + n)).submits? (r.action (b + n)))).toList

/-- At time `k` thread `t` makes the fiber of a fork that has been asked for, above a stack. -/
def ForksAt (r : Run H) (k : Nat) (t : ThreadId) (stack : List (Return H)) (value error : Ty)
    (x : Node H.Data H.Fn) (s : SchedulerId) (fiber : PromiseId) : Prop :=
  r.Turns k t (.run (.answer (.fork value error x s))) stack ∧
    (r.world k).heap.promises.size = fiber

theorem ForksAt.launches {k : Nat} {fiber : PromiseId}
    (h : r.ForksAt k t stack value error x s fiber) : r.Launches k value error x s fiber := by
  obtain ⟨⟨haction, name, ht⟩, hsize⟩ := h
  exact ⟨⟨t, _, ⟨haction, name, stack, ht⟩, .fork⟩, hsize⟩

/-- How far thread `t` is with the fork of an effect, above a stack: when it has made the fiber, and
what it has submitted. -/
inductive Forking (r : Run H) (value error : Ty) (s : SchedulerId) (x : Node H.Data H.Fn)
    (t : ThreadId) (stack : List (Return H)) (n : Nat) :
    Option (Nat × PromiseId) → List (SchedulerId × Work H.Data H.Fn) → Prop where
  | asks {name : Option String} :
      (r.world n).threads[t]? = some ⟨name, .run (.answer (.fork value error x s)), stack⟩ →
        Forking r value error s x t stack n none []
  | submits {k : Nat} {name : Option String} {fiber : PromiseId} :
      k < n → r.ForksAt k t stack value error x s fiber →
        (r.world n).threads[t]? = some ⟨name, .run (.submit s (launched value error x s fiber)),
            .after (.give (.joining value error fiber)) :: stack⟩ →
          Forking r value error s x t stack n (some (k, fiber)) []
  | serves {k : Nat} {thread : Thread H} {fiber : PromiseId} :
      k < n → r.ForksAt k t stack value error x s fiber → (r.world n).threads[t]? = some thread →
        thread.Serves (.after (.give (.joining value error fiber)) :: stack) →
          Forking r value error s x t stack n (some (k, fiber))
            [(s, launched value error x s fiber)]
  | gives {k : Nat} {name : Option String} {fiber : PromiseId} :
      k < n → r.ForksAt k t stack value error x s fiber →
        (r.world n).threads[t]? = some ⟨name, .run (.give (.joining value error fiber)), stack⟩ →
          Forking r value error s x t stack n (some (k, fiber))
            [(s, launched value error x s fiber)]
  | back {k : Nat} {name : Option String} {control : Control H} {fiber : PromiseId} :
      k < n → r.ForksAt k t stack value error x s fiber →
        (control = .ret (.joining value error fiber) ∨ ∃ payload, control = .raise payload) →
          (r.world n).threads[t]? = some ⟨name, control, stack⟩ →
            Forking r value error s x t stack n (some (k, fiber))
              [(s, launched value error x s fiber)]

section Exchange

variable {post : Post H.Data H.Fn} {frames : List (Frame H.Data H.Fn)} {last applied : Kept}
  {finish : Finish H.Fn} {below : List (Return H)}

/-- A thread that forks goes on doing so, with the question waiting below, or goes back to the
question. -/
theorem Forking.next
    (h : r.Forking value error s x t (.answering post frames last applied finish :: below) n o
      works) :
    ((∀ deeds o', (r.world n).shift (r.action n) ≠ .moved (.thread t below.length) deeds o') ∧
      ∃ o', (o' = o ∨ o = none ∧ ∃ fiber, o' = some (n, fiber)) ∧
        r.Forking value error s x t (.answering post frames last applied finish :: below) (n + 1) o'
          (works ++ ((r.world n).submits? (r.action n) (.thread t below.length)).toList)) ∨
      ∃ k fiber name control, o = some (k, fiber) ∧
        works = [(s, launched value error x s fiber)] ∧ r.action n = .thread t ∧
          (control = .ret (.joining value error fiber) ∨ ∃ payload, control = .raise payload) ∧
            (r.world n).threads[t]? =
              some ⟨name, control, .answering post frames last applied finish :: below⟩ := by
  have hgo {o' : Option (Nat × PromiseId)}
      (hshift : ∀ deeds o', (r.world n).shift (r.action n) ≠
        .moved (.thread t below.length) deeds o')
      (hnone : (r.world n).submits? (r.action n) (.thread t below.length) = none)
      (ho : o' = o ∨ o = none ∧ ∃ fiber, o' = some (n, fiber))
      (hnext : r.Forking value error s x t (.answering post frames last applied finish :: below)
        (n + 1) o' works) :
      (∀ deeds o', (r.world n).shift (r.action n) ≠ .moved (.thread t below.length) deeds o') ∧
        ∃ o', (o' = o ∨ o = none ∧ ∃ fiber, o' = some (n, fiber)) ∧
          r.Forking value error s x t (.answering post frames last applied finish :: below) (n + 1)
            o' (works ++ ((r.world n).submits? (r.action n) (.thread t below.length)).toList) :=
    ⟨hshift, o', ho, by simpa [hnone] using hnext⟩
  cases h with
  | @asks name ht =>
      have hshift := World.shift_ne_below [] ht (by simp [Control.held]) (r.action n)
      have hnone : (r.world n).submits? (r.action n) (.thread t below.length) = none :=
        World.submits?_eq_none ht (.inl (by simp)) (r.action n)
      rcases next_of_turn ht rfl with ⟨-, hsame⟩ | ⟨haction, -, hthread⟩
      · exact .inl (hgo hshift hnone (.inl rfl) (.asks hsame))
      · exact .inl (hgo hshift hnone (.inr ⟨rfl, _, rfl⟩) (.submits (Nat.lt_succ_self n)
          ⟨⟨haction, name, ht⟩, rfl⟩ hthread))
  | @submits k name fiber hk hlaunch ht =>
      have hshift := World.shift_ne_below [.after (.give (.joining value error fiber))] ht
        (by simp) (r.action n)
      rcases next_of_turn ht rfl with ⟨haction, hsame⟩ | ⟨haction, -, hthread⟩
      · exact .inl (hgo hshift (World.submits?_of_other haction) (.inl rfl)
          (.submits (Nat.lt_succ_of_lt hk) hlaunch hsame))
      · have hsubmits : (r.world n).submits? (r.action n) (.thread t below.length) =
            some (s, launched value error x s fiber) := by
          simp [World.submits?, haction, ht, Thread.submits?]
        refine .inl ⟨hshift, some (k, fiber), .inl rfl, ?_⟩
        rw [hsubmits]
        exact .serves (Nat.lt_succ_of_lt hk) hlaunch hthread
          ((Task.submitTurn_serves s _ _).heard _)
  | @serves k thread fiber hk hlaunch ht hserves =>
      obtain ⟨hended, hshift, hnone⟩ := World.quiet_of_serves ht hserves (r.action n)
      obtain ⟨thread', ht', ⟨hstack, hheld⟩ | ⟨state, rest, turn, haction, hturn, rfl⟩⟩ :=
        next_of_thread ht hended
      · exact .inl (hgo hshift hnone (.inl rfl) (.serves (Nat.lt_succ_of_lt hk) hlaunch ht'
          (hserves.of_held hstack hheld)))
      · rcases (Thread.turning hturn).serves hserves with
          hserves' | ⟨back, -, heq, ⟨v, -, rfl⟩ | ⟨payload, -, rfl⟩⟩
        · exact .inl (hgo hshift hnone (.inl rfl) (.serves (Nat.lt_succ_of_lt hk) hlaunch ht'
            (hserves'.heard _)))
        · obtain ⟨rfl, rfl⟩ := List.cons.inj heq
          exact .inl (hgo hshift hnone (.inl rfl) (.gives (Nat.lt_succ_of_lt hk) hlaunch ht'))
        · obtain ⟨rfl, rfl⟩ := List.cons.inj heq
          exact .inl (hgo hshift hnone (.inl rfl) (.back (Nat.lt_succ_of_lt hk) hlaunch
            (.inr ⟨payload, rfl⟩) ht'))
  | @gives k name fiber hk hlaunch ht =>
      have hshift := World.shift_ne_below [] ht (by simp [Control.held]) (r.action n)
      have hnone : (r.world n).submits? (r.action n) (.thread t below.length) = none :=
        World.submits?_eq_none ht (.inl (by simp)) (r.action n)
      rcases next_of_turn ht rfl with ⟨-, hsame⟩ | ⟨-, -, hthread⟩
      · exact .inl (hgo hshift hnone (.inl rfl) (.gives (Nat.lt_succ_of_lt hk) hlaunch hsame))
      · exact .inl (hgo hshift hnone (.inl rfl) (.back (Nat.lt_succ_of_lt hk) hlaunch (.inl rfl)
          hthread))
  | @back k name control fiber hk hlaunch hcontrol ht =>
      by_cases haction : r.action n = .thread t
      · exact .inr ⟨k, fiber, name, control, rfl, rfl, haction, hcontrol, ht⟩
      · have hready : Thread.IsReady (H := H)
            ⟨name, control, .answering post frames last applied finish :: below⟩ := by
          rcases hcontrol with rfl | ⟨payload, rfl⟩
          · exact List.cons_ne_nil _ _
          · exact List.cons_ne_nil _ _
        exact .inl (hgo (fun _ _ hshift => haction (World.action_of_shift hshift))
          (World.submits?_of_other haction) (.inl rfl)
          (.back (Nat.lt_succ_of_lt hk) hlaunch hcontrol (thread_of_other ht hready haction)))

variable {b : Nat} {p : Place} {l : Nat} {i : Interpretation H.Data H.Fn}

theorem submitted_succ {q : Place} (hplace : r.place b p n = some q) :
    r.submitted b p (n + 1) =
      r.submitted b p n ++ ((r.world (b + n)).submits? (r.action (b + n)) q).toList := by
  simp only [submitted, hplace, Option.bind_some]

/-- An interpretation that is about to ask something stays so, or its thread has the question. -/
theorem next_of_ask {question : Ask H.Data H.Fn} (hplace : r.place b p n = some (.thread t l))
    (hat : (r.world (b + n)).pendingAt (.thread t l) = some (.driving i, finish))
    (hstep : i.step = .ask question post frames) :
    r.place b p (n + 1) = some (.thread t l) ∧ r.submitted b p (n + 1) = r.submitted b p n ∧
      (r.action (b + n) ≠ .thread t ∧
          (r.world (b + (n + 1))).pendingAt (.thread t l) = some (.driving i, finish) ∨
        r.action (b + n) = .thread t ∧ ∃ name last applied below, below.length = l ∧
          (r.world (b + (n + 1))).threads[t]? = some ⟨name, .run (.answer question),
            .answering post frames last applied finish :: below⟩) := by
  obtain ⟨t', name, last, stack, hplace', ht⟩ := World.driving_of_pendingAt hat
  obtain ⟨rfl, rfl⟩ := Place.thread.inj hplace'
  have hsubmitted : r.submitted b p (n + 1) = r.submitted b p n := by
    rw [submitted_succ hplace, World.submits?_of_ne_asking hat (by simp)]
    simp
  have hturn : Thread.turn? t (r.world (b + n)).heap (r.world (b + n)).state
      ⟨name, .run (.drive i last finish), stack⟩ = some ((r.world (b + n)).state, stack,
        .call (r.world (b + n)).heap (.answer question)
          (.answering post frames (i.latest last) i.applied finish)) := by
    simp only [Thread.turn?, Task.turn, Task.driveTurn, hstep]
  rcases next_of_turn ht hturn with ⟨haction, hsame⟩ | ⟨haction, -, hthread⟩
  · have hother (deeds : List (Deed H.Data H.Fn)) (o : Option Place) :
        (r.world (b + n)).shift (r.action (b + n)) ≠ .moved (.thread t stack.length) deeds o :=
      fun hshift => haction (World.action_of_shift hshift)
    refine ⟨?_, hsubmitted, .inl ⟨haction, World.pendingAt_run hsame⟩⟩
    simp [place, hplace, World.next?_of_other hother]
  · have hshift : (r.world (b + n)).shift (r.action (b + n)) =
        .moved (.thread t stack.length) i.deeds (some (.thread t stack.length)) := by
      rw [haction, World.shift_thread ht]
      simp only [World.turnShift, hstep]
    refine ⟨?_, hsubmitted, .inr ⟨haction, _, _, _, stack, rfl, hthread⟩⟩
    simp [place, hplace, World.next?, hshift]

/-- The question of a thread that forks waits. -/
theorem Forking.pendingAt
    (h : r.Forking value error s x t (.answering post frames last applied finish :: below) n o
      works) :
    (r.world n).pendingAt (.thread t below.length) = some (.asking post frames, finish) := by
  obtain ⟨name, control, above, ht⟩ : ∃ name control above, (r.world n).threads[t]? =
      some ⟨name, control, above ++ .answering post frames last applied finish :: below⟩ := by
    cases h with
    | asks ht => exact ⟨_, _, [], ht⟩
    | @submits k name fiber hk hforks ht =>
        exact ⟨_, _, [.after (.give (.joining value error fiber))], ht⟩
    | @serves k thread fiber hk hforks ht hserves =>
        obtain ⟨name, control, stack⟩ := thread
        obtain ⟨above, hstack, -⟩ := hserves.exists_above
        obtain rfl : stack = _ := hstack
        exact ⟨name, control, above ++ [.after (.give (.joining value error fiber))],
          by simpa using ht⟩
    | gives hk hforks ht => exact ⟨_, _, [], ht⟩
    | back hk hforks hcontrol ht => exact ⟨_, _, [], ht⟩
  exact World.pendingAt_back ht

/-- A thread that goes back to a question takes the interpretation further with the reply. -/
theorem next_of_reply {name : Option String} {control : Control H}
    {reply : Except Payload (Value H.Data H.Fn)}
    (hplace : r.place b p n = some (.thread t below.length))
    (haction : r.action (b + n) = .thread t) (ht : (r.world (b + n)).threads[t]? =
      some ⟨name, control, .answering post frames last applied finish :: below⟩)
    (hcontrol : (∃ v, control = .ret v ∧ reply = .ok v) ∨
      ∃ payload, control = .raise payload ∧ reply = .error payload) :
    r.place b p (n + 1) = some (.thread t below.length) ∧
      r.submitted b p (n + 1) = r.submitted b p n ∧
        (r.world (b + (n + 1))).pendingAt (.thread t below.length) =
          some (.driving (.reply post frames reply), finish) := by
  have hsubmitted : r.submitted b p (n + 1) = r.submitted b p n := by
    have hnone : (r.world (b + n)).submits? (r.action (b + n)) (.thread t below.length) = none :=
      World.submits?_eq_none ht (.inr (by simp)) _
    rw [submitted_succ hplace, hnone]
    simp
  have hback (hturn : Thread.turn? t (r.world (b + n)).heap (r.world (b + n)).state
        ⟨name, control, .answering post frames last applied finish :: below⟩ =
          some ((r.world (b + n)).state, below, .run (r.world (b + n)).heap
            (.drive (.reply post frames reply) last finish)))
      (hshift : (r.world (b + n)).turnShift t
        ⟨name, control, .answering post frames last applied finish :: below⟩ =
          .moved (.thread t below.length) (post.deeds reply) (some (.thread t below.length))) :
      r.place b p (n + 1) = some (.thread t below.length) ∧
        r.submitted b p (n + 1) = r.submitted b p n ∧
          (r.world (b + (n + 1))).pendingAt (.thread t below.length) =
            some (.driving (.reply post frames reply), finish) := by
    obtain ⟨-, hthread⟩ := next_of_action haction ht hturn
    rw [← World.shift_thread ht, ← haction] at hshift
    exact ⟨by simp [place, hplace, World.next?, hshift], hsubmitted, World.pendingAt_run hthread⟩
  rcases hcontrol with ⟨v, rfl, rfl⟩ | ⟨payload, rfl, rfl⟩
  · exact hback rfl rfl
  · exact hback rfl rfl

/-- An interpretation that waits for its fork stays so, or goes on with the effect that joins the
fiber, or with the panic of the submission. -/
theorem Forking.course (hplace : r.place b p n = some (.thread t below.length))
    (h : r.Forking value error s x t (.answering post frames last applied finish :: below) (b + n)
      o works) :
    r.place b p (n + 1) = some (.thread t below.length) ∧
      ((∃ o' new, (o' = o ∨ o = none ∧ ∃ fiber, o' = some (b + n, fiber)) ∧
          r.submitted b p (n + 1) = r.submitted b p n ++ new ∧
            r.Forking value error s x t (.answering post frames last applied finish :: below)
              (b + (n + 1)) o' (works ++ new)) ∨
        ∃ k fiber reply, o = some (k, fiber) ∧ works = [(s, launched value error x s fiber)] ∧
          r.submitted b p (n + 1) = r.submitted b p n ∧
            (reply = .ok (.joining value error fiber) ∨ ∃ payload, reply = .error payload) ∧
              (r.world (b + (n + 1))).pendingAt (.thread t below.length) =
                some (.driving (.reply post frames reply), finish)) := by
  rcases h.next with ⟨hother, o', ho, hnext⟩ |
    ⟨k, fiber, name, control, rfl, rfl, haction, hcontrol, ht⟩
  · refine ⟨by simp [place, hplace, World.next?_of_other hother], .inl ⟨o', _, ho, ?_, hnext⟩⟩
    exact submitted_succ hplace
  · rcases hcontrol with rfl | ⟨payload, rfl⟩
    · obtain ⟨hplace', hsubmitted, hat⟩ := next_of_reply hplace haction ht (.inl ⟨_, rfl, rfl⟩)
      exact ⟨hplace', .inr ⟨k, fiber, _, rfl, rfl, hsubmitted, .inl rfl, hat⟩⟩
    · obtain ⟨hplace', hsubmitted, hat⟩ := next_of_reply hplace haction ht (.inr ⟨_, rfl, rfl⟩)
      exact ⟨hplace', .inr ⟨k, fiber, _, rfl, rfl, hsubmitted, .inr ⟨payload, rfl⟩, hat⟩⟩

end Exchange

section Start

variable {b m c : Nat} {p : Place} {l : Nat} {thread : Thread H} {fiber : PromiseId}
  {frames : List (Frame H.Data H.Fn)} {finish : Finish H.Fn}

/-- Until `n` actions later, the interpretation that is at `p` at time `b` has come to a node and
waits for the reply to the node's question. -/
def AwaitsReply (r : Run H) (b : Nat) (p : Place) (node : Node H.Data H.Fn)
    (frames : List (Frame H.Data H.Fn)) (n : Nat) : Prop :=
  ∀ j, j ≤ n → r.stage b p j = some (.driving ⟨.node node, frames⟩) ∨
    r.stage b p j = some (.asking .succeed frames)

/-- What comes of an interpretation of the node that forks an effect, which is at `p` at time `b`
above some continuations: thread `t` makes the fiber `m` actions later and submits the work `c`
actions later. -/
structure StartsOnce (r : Run H) (b : Nat) (p : Place) (frames : List (Frame H.Data H.Fn))
    (value error : Ty) (x : Node H.Data H.Fn) (s : SchedulerId) (m c : Nat) (t : ThreadId)
    (fiber : PromiseId) : Prop where
  lt : m < c
  /-- The fiber is made where the interpretation is. -/
  forks : ∃ back below, r.place b p m = some (.thread t below.length) ∧
    r.ForksAt (b + m) t (back :: below) value error x s fiber
  submits : r.Does (b + c) t (.submit s (launched value error x s fiber))
  waits : r.AwaitsReply b p (.forking value error s x) frames (c + 1)
  /-- Nothing else is submitted for the interpretation while it waits. -/
  submitted {n : Nat} : r.AwaitsReply b p (.forking value error s x) frames n →
    r.submitted b p n = if n ≤ c then [] else [(s, launched value error x s fiber)]
  /-- It goes on with the effect that joins the fiber, or with the panic of the submission. -/
  goesOn {n : Nat} : r.AwaitsReply b p (.forking value error s x) frames n →
    ¬r.AwaitsReply b p (.forking value error s x) frames (n + 1) →
      r.submitted b p (n + 1) = [(s, launched value error x s fiber)] ∧
        (r.stage b p (n + 1) =
            some (.driving (.settle (.settled (.ok (.joining value error fiber))) frames)) ∨
          ∃ payload, r.stage b p (n + 1) = some (.driving (.settle (.panicked payload) frames)))

/-- The thread of an interpretation takes its turn at some time, and nothing has happened to the
interpretation until then. -/
theorem Fair.exists_turn_at (hfair : r.Fair) (hplace : r.place b p n = some (.thread t l))
    (ht : (r.world (b + n)).threads[t]? = some thread) (hready : thread.IsReady) :
    ∃ m, n ≤ m ∧ r.action (b + m) = .thread t ∧ ∀ j, n ≤ j → j ≤ m →
      r.place b p j = some (.thread t l) ∧ r.submitted b p j = r.submitted b p n ∧
        (r.world (b + j)).threads[t]? = some thread := by
  obtain ⟨k, hk, haction, hothers, -⟩ := hfair.exists_first ht hready
  obtain ⟨d, rfl⟩ := Nat.exists_eq_add_of_le hk
  refine ⟨n + d, Nat.le_add_right n d, by rwa [← Nat.add_assoc], fun j hnj hj => ?_⟩
  induction hnj with
  | refl => exact ⟨hplace, rfl, ht⟩
  | @step j hnj ih =>
      obtain ⟨hplace', hsubmitted, ht'⟩ := ih (by omega)
      have hother : r.action (b + j) ≠ .thread t :=
        hothers (b + j) (Nat.add_le_add_left hnj b) (by omega)
      have hshift (deeds : List (Deed H.Data H.Fn)) (o : Option Place) :
          (r.world (b + j)).shift (r.action (b + j)) ≠ .moved (.thread t l) deeds o :=
        fun hshift => hother (World.action_of_shift hshift)
      refine ⟨by simp [place, hplace', World.next?_of_other hshift], ?_,
        thread_of_other ht' hready hother⟩
      rw [submitted_succ hplace', World.submits?_of_other hother, hsubmitted]
      simp

variable {post : Post H.Data H.Fn} {last applied : Kept} {below : List (Return H)}

theorem Forking.stage {stage : Stage H.Data H.Fn}
    (hp : (r.world b).pendingAt p = some (stage, finish))
    (hplace : r.place b p n = some (.thread t below.length))
    (h : r.Forking value error s x t (.answering post frames last applied finish :: below) (b + n)
      o works) : r.stage b p n = some (.asking post frames) :=
  (r.stage_eq_some hp).2 ⟨_, hplace, h.pendingAt⟩

/-- As long as the question waits, nothing more is submitted for it than the work. -/
theorem Forking.awaits {stage : Stage H.Data H.Fn} {node : Node H.Data H.Fn} {k : Nat}
    (hp : (r.world b).pendingAt p = some (stage, finish))
    (hplace : r.place b p m = some (.thread t below.length))
    (h : r.Forking value error s x t (.answering .succeed frames last applied finish :: below)
      (b + m) (some (k, fiber)) [(s, launched value error x s fiber)])
    (hsubmitted : r.submitted b p m = [(s, launched value error x s fiber)]) (hmn : m ≤ n)
    (hwaits : r.AwaitsReply b p node frames n) :
    r.place b p n = some (.thread t below.length) ∧
      r.submitted b p n = [(s, launched value error x s fiber)] ∧
        r.Forking value error s x t (.answering .succeed frames last applied finish :: below)
          (b + n) (some (k, fiber)) [(s, launched value error x s fiber)] := by
  induction hmn with
  | refl => exact ⟨hplace, hsubmitted, h⟩
  | @step n hmn ih =>
      obtain ⟨hplace', hsubmitted', h'⟩ := ih fun j hj => hwaits j (Nat.le_succ_of_le hj)
      rcases h'.course hplace' with ⟨hplace'', hstays | hreplies⟩
      · obtain ⟨o', new, ho, hnew, hnext⟩ := hstays
        obtain rfl : o' = some (k, fiber) := ho.resolve_right fun h => by simp at h
        obtain rfl : new = [] := by
          generalize hworks : [(s, launched value error x s fiber)] ++ new = works at hnext
          cases hnext <;> simp_all
        exact ⟨hplace'', by simpa [hsubmitted'] using hnew, by simpa using hnext⟩
      · obtain ⟨_, _, reply, -, -, -, hreply, hat⟩ := hreplies
        obtain ⟨exit, hexit⟩ :
            ∃ exit, Interpretation.reply .succeed frames reply = .settle exit frames := by
          rcases hreply with rfl | ⟨payload, rfl⟩
          · exact ⟨_, rfl⟩
          · exact ⟨_, rfl⟩
        have hstage := (r.stage_eq_some hp).2 ⟨_, hplace'', hexit ▸ hat⟩
        rcases hwaits (n + 1) (Nat.le_refl _) with hnode | hasks
        · simp [hnode, Interpretation.settle] at hstage
        · simp [hasks] at hstage

/-- How a thread comes to submit the work of a fork: nothing has been submitted for the
interpretation before, and it waits. -/
structure Submitting (r : Run H) (b : Nat) (p : Place) (frames : List (Frame H.Data H.Fn))
    (finish : Finish H.Fn) (value error : Ty) (x : Node H.Data H.Fn) (s : SchedulerId) (m c : Nat)
    (t : ThreadId) (fiber : PromiseId) (last applied : Kept) (below : List (Return H)) : Prop where
  lt : m < c
  made : r.place b p m = some (.thread t below.length)
  forks : r.ForksAt (b + m) t (.answering .succeed frames last applied finish :: below)
    value error x
    s fiber
  submits : r.Turns (b + c) t (.run (.submit s (launched value error x s fiber)))
    (.after (.give (.joining value error fiber)) ::
      .answering .succeed frames last applied finish :: below)
  before {j : Nat} : j ≤ c → r.submitted b p j = [] ∧
    (r.stage b p j = some (.driving ⟨.node (.forking value error s x), frames⟩) ∨
      r.stage b p j = some (.asking .succeed frames))
  place : r.place b p (c + 1) = some (.thread t below.length)
  submitted : r.submitted b p (c + 1) = [(s, launched value error x s fiber)]
  forking : r.Forking value error s x t (.answering .succeed frames last applied finish :: below)
    (b + (c + 1)) (some (b + m, fiber)) [(s, launched value error x s fiber)]

/-- The thread of an interpretation that comes to the node that forks an effect submits the work in
its third turn from there. -/
theorem Fair.exists_submitting (hfair : r.Fair)
    (hp : (r.world b).pendingAt p =
      some (.driving ⟨.node (.forking value error s x), frames⟩, finish)) :
    ∃ m c t fiber last applied below,
      r.Submitting b p frames finish value error x s m c t fiber last applied below := by
  obtain ⟨t, name, last, stack, hplace₀, ht⟩ := World.driving_of_pendingAt hp
  -- The next three turns of the thread: it asks, makes the fiber and submits the work.
  obtain ⟨m₁, -, haction₁, hfirst⟩ := hfair.exists_turn_at
    (show r.place b p 0 = some (.thread t stack.length) from congrArg some hplace₀) ht trivial
  obtain ⟨hplace₁, hsubmitted₁, ht₁⟩ := hfirst m₁ (Nat.zero_le _) (Nat.le_refl _)
  obtain ⟨hplace₁', hsubmitted₁', ⟨hother, -⟩ | ⟨-, name', last', applied, below, hbelow, ht₁'⟩⟩ :=
    next_of_ask hplace₁ (World.pendingAt_run ht₁) rfl
  · exact absurd haction₁ hother
  rw [hsubmitted₁] at hsubmitted₁'
  rw [← hbelow] at hplace₁'
  obtain ⟨m₂, hm₂, haction₂, hsecond⟩ := hfair.exists_turn_at hplace₁' ht₁' trivial
  obtain ⟨hplace₂, hsubmitted₂, ht₂⟩ := hsecond m₂ hm₂ (Nat.le_refl _)
  obtain ⟨fiber, hforks⟩ : ∃ fiber, r.ForksAt (b + m₂) t
      (.answering .succeed frames last' applied finish :: below) value error x s fiber :=
    ⟨_, ⟨haction₂, name', ht₂⟩, rfl⟩
  obtain ⟨hplace₂', -⟩ := (Forking.asks ht₂).course hplace₂
  have hsubmitted₂' : r.submitted b p (m₂ + 1) = [] := by
    rw [submitted_succ hplace₂, World.submits?_eq_none ht₂ (.inl (by simp)), hsubmitted₂,
      hsubmitted₁']
    rfl
  have ht₂' : (r.world (b + (m₂ + 1))).threads[t]? =
      some ⟨name', .run (.submit s (launched value error x s fiber)),
        .after (.give (.joining value error fiber)) ::
          .answering .succeed frames last' applied finish :: below⟩ := by
    obtain ⟨-, hthread⟩ := next_of_action haction₂ ht₂ rfl
    rw [← hforks.2]
    exact hthread
  obtain ⟨c, hc, haction₃, hthird⟩ := hfair.exists_turn_at hplace₂' ht₂' trivial
  have hsubmitting {j : Nat} (hj : m₂ + 1 ≤ j) (hjc : j ≤ c) :
      r.Forking value error s x t (.answering .succeed frames last' applied finish :: below) (b + j)
        (some (b + m₂, fiber)) [] :=
    .submits (by omega) hforks (hthird j hj hjc).2.2
  obtain ⟨hplace₃, hsubmitted₃, ht₃⟩ := hthird c hc (Nat.le_refl _)
  obtain ⟨hplace₃', -⟩ := (hsubmitting hc (Nat.le_refl _)).course hplace₃
  have hsubmitted₃' : r.submitted b p (c + 1) =
      [(s, launched value error x s fiber)] := by
    have hsubmits : (r.world (b + c)).submits? (r.action (b + c)) (.thread t below.length) =
        some (s, launched value error x s fiber) := by
      simp [World.submits?, haction₃, ht₃, Thread.submits?]
    rw [submitted_succ hplace₃, hsubmits, hsubmitted₃, hsubmitted₂']
    rfl
  have hserving : r.Forking value error s x t
      (.answering .succeed frames last' applied finish :: below) (b + (c + 1))
        (some (b + m₂, fiber)) [(s, launched value error x s fiber)] := by
    obtain ⟨-, hthread⟩ := next_of_action haction₃ ht₃ rfl
    exact .serves (by omega) hforks hthread ((Task.submitTurn_serves s _ _).heard _)
  have hbefore {j : Nat} (hj : j ≤ c) : r.submitted b p j = [] ∧
      (r.stage b p j =
          some (.driving ⟨.node (.forking value error s x), frames⟩) ∨
        r.stage b p j = some (.asking .succeed frames)) := by
    rcases Nat.lt_or_ge m₂ j with hm₂j | hjm₂
    · obtain ⟨hplace, hsubmitted, -⟩ := hthird j hm₂j hj
      exact ⟨hsubmitted.trans hsubmitted₂', .inr ((hsubmitting hm₂j hj).stage hp hplace)⟩
    · rcases Nat.lt_or_ge m₁ j with hm₁j | hjm₁
      · obtain ⟨hplace, hsubmitted, ht'⟩ := hsecond j hm₁j hjm₂
        exact ⟨hsubmitted.trans hsubmitted₁', .inr ((Forking.asks ht').stage hp hplace)⟩
      · obtain ⟨hplace, hsubmitted, ht'⟩ := hfirst j (Nat.zero_le _) hjm₁
        exact ⟨hsubmitted, .inl ((r.stage_eq_some hp).2 ⟨_, hplace, World.pendingAt_run ht'⟩)⟩
  exact ⟨m₂, c, t, fiber, last', applied, below, hc, hplace₂, hforks, ⟨haction₃, _, ht₃⟩, hbefore,
    hplace₃', hsubmitted₃', hserving⟩

/-- The thread of an interpretation submits the work of a fork once. -/
theorem Submitting.startsOnce
    (hp : (r.world b).pendingAt p =
      some (.driving ⟨.node (.forking value error s x), frames⟩, finish))
    (h : r.Submitting b p frames finish value error x s m c t fiber last applied below) :
    r.StartsOnce b p frames value error x s m c t fiber := by
  have hwaits : r.AwaitsReply b p (.forking value error s x) frames (c + 1) := by
    intro j hj
    rcases Nat.lt_or_ge c j with hcj | hjc
    · obtain rfl : j = c + 1 := by omega
      exact .inr (h.forking.stage hp h.place)
    · exact (h.before hjc).2
  refine ⟨h.lt, ⟨_, below, h.made, h.forks⟩, h.submits.does, hwaits, fun {n} hn => ?_,
    fun {n} hn hgone => ?_⟩
  · split
    · rename_i hnc
      exact (h.before hnc).1
    · rename_i hcn
      exact (h.forking.awaits hp h.place h.submitted (Nat.lt_of_not_le hcn) hn).2.1
  · have hcn : c < n := by
      refine Nat.lt_of_not_le fun hnc => hgone fun j hj => hwaits j ?_
      exact Nat.le_trans hj (Nat.succ_le_succ hnc)
    obtain ⟨hplace, hsubmitted, hforking⟩ := h.forking.awaits hp h.place h.submitted hcn hn
    rcases hforking.course hplace with
      ⟨hplace', ⟨o', new, -, -, hnext⟩ | ⟨_, _, reply, ho, -, hsame, hreply, hat⟩⟩
    · refine absurd (fun j hj => ?_) hgone
      rcases Nat.lt_or_eq_of_le hj with hlt | rfl
      · exact hn j (Nat.le_of_lt_succ hlt)
      · exact .inr (hnext.stage hp hplace')
    · obtain ⟨rfl, rfl⟩ := Prod.mk.inj (Option.some.inj ho)
      have hstage := (r.stage_eq_some hp).2 ⟨_, hplace', hat⟩
      refine ⟨hsame.trans hsubmitted, ?_⟩
      rcases hreply with rfl | ⟨payload, rfl⟩
      · exact .inl hstage
      · exact .inr ⟨payload, hstage⟩

/-- An interpretation that comes to the node that forks an effect submits the work once. -/
theorem Fair.exists_startsOnce (hfair : r.Fair)
    (hp : (r.world b).pendingAt p =
      some (.driving ⟨.node (.forking value error s x), frames⟩, finish)) :
    ∃ m c t fiber, r.StartsOnce b p frames value error x s m c t fiber := by
  obtain ⟨m, c, t, fiber, last, applied, below, h⟩ := hfair.exists_submitting hp
  exact ⟨m, c, t, fiber, h.startsOnce hp⟩

/-- Two interpretations of such a node that get the same fiber are the same one. -/
theorem StartsOnce.unique {b' m' c' : Nat} {p' : Place} {frames' : List (Frame H.Data H.Fn)}
    {value' error' : Ty} {x' : Node H.Data H.Fn} {s' : SchedulerId} {t' : ThreadId}
    (h : r.StartsOnce b p frames value error x s m c t fiber)
    (h' : r.StartsOnce b' p' frames' value' error' x' s' m' c' t' fiber) :
    b + m = b' + m' ∧ ∃ q, r.place b p m = some q ∧ r.place b' p' m' = some q := by
  obtain ⟨back, below, hplace, hforks⟩ := h.forks
  obtain ⟨back', below', hplace', hforks'⟩ := h'.forks
  obtain ⟨htime, -⟩ := hforks.launches.unique hforks'.launches
  refine ⟨htime, _, hplace, ?_⟩
  have hturns' := hforks'.1
  rw [← htime] at hturns'
  obtain rfl := Action.thread.inj (hforks.1.1.symm.trans hturns'.1)
  obtain ⟨-, hstack⟩ := hforks.1.unique hturns'
  obtain ⟨-, rfl⟩ := List.cons.inj hstack
  exact hplace'

end Start

end Run

end Trampoline
