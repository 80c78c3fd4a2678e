import Trampoline.Proofs.Callers

/-!
What has led to the tasks of a thread. If only certain turns lead to tasks of a kind, then who has
such a task in hand above a stack, or comes back to it there, has taken one of these turns, and has
been above the stack since. One such kind are the tasks of callers who expect an exit: they are led
to by requests that block for the exit of an effect or poll a future, and by nothing else.
-/

namespace Trampoline

variable {H : Host} {P : Task H → Prop} {Q : List (Return H) → Prop}

/-- A thread that has a task of a kind in hand above a stack, or goes on with one when it comes back
to there. -/
def Thread.Minds (P : Task H → Prop) (stack : List (Return H)) (thread : Thread H) : Prop :=
  (∃ back, (∃ task ∈ back.held, P task) ∧ back :: stack <:+ thread.stack) ∨
    stack = thread.stack ∧ ∃ task ∈ thread.control.held, P task

/-- How a turn leads to tasks of a kind: not at all; by taking one up above a stack which `Q`
accepts, now or for later; by coming back to one; or by going on with one. -/
inductive Thread.LeadsTo (P : Task H → Prop) (Q : List (Return H) → Prop) :
    Thread H → List (Return H) → Turn H → Prop where
  | nowhere {thread : Thread H} {rest : List (Return H)} {turn : Turn H} :
      (∀ task ∈ turn.held, ¬P task) → LeadsTo P Q thread rest turn
  | now {thread : Thread H} {rest : List (Return H)} {turn : Turn H} :
      turn.pushed = [] → turn.born = none → Q rest → LeadsTo P Q thread rest turn
  | later {thread : Thread H} {rest marks : List (Return H)} {back : Return H} {turn : Turn H} :
      turn.pushed = back :: marks → (∀ back ∈ marks, back.held = []) →
        (∀ task ∈ turn.control.held, ¬P task) → turn.born = none → Q (marks ++ rest) →
          LeadsTo P Q thread rest turn
  | back {name : Option String} {v : Value H.Data H.Fn} {back : Return H} {task : Task H}
      {rest : List (Return H)} {heap : Heap H.Data H.Fn} :
      task ∈ back.held → P task → LeadsTo P Q ⟨name, .ret v, back :: rest⟩ rest (.run heap task)
  | on {name : Option String} {task : Task H} {stack : List (Return H)} {turn : Turn H} :
      P task → turn.pushed = [] → turn.born = none →
        LeadsTo P Q ⟨name, .run task, stack⟩ stack turn

theorem Thread.Minds.not_forall_held {thread : Thread H} {stack : List (Return H)}
    (h : thread.Minds P stack) : ¬∀ task ∈ thread.held, ¬P task := by
  intro hnone
  rcases h with ⟨back, ⟨task, htask, hP⟩, hsuffix⟩ | ⟨-, task, htask, hP⟩
  · refine hnone task (List.mem_append_right _ (List.mem_flatMap.2 ?_)) hP
    exact ⟨back, hsuffix.subset List.mem_cons_self, htask⟩
  · exact hnone task (List.mem_append_left _ htask) hP

/-- What a thread minds after a turn it has minded before, or the turn has led to it. -/
theorem Thread.LeadsTo.minds {before : Thread H} {rest stack : List (Return H)} {turn : Turn H}
    (h : before.LeadsTo P Q rest turn) (hrest : rest <:+ before.stack)
    (hminds : (Thread.heard turn.notified
      ⟨before.name, turn.control, turn.pushed ++ rest⟩).Minds P stack) :
    before.Minds P stack ∨ Q stack := by
  have hbelow {back : Return H} (hback : ∃ task ∈ back.held, P task)
      (hsuffix : back :: stack <:+ rest) : before.Minds P stack :=
    .inl ⟨back, hback, hsuffix.trans hrest⟩
  rw [Minds, Thread.stack_heard] at hminds
  rcases hminds with ⟨back, hP, hsuffix⟩ | ⟨hstack, task, htask, hP⟩
  · cases h with
    | nowhere hnone =>
        refine .inl (hbelow hP (suffix_of_append hsuffix fun hmem => ?_))
        obtain ⟨task, htask, hP⟩ := hP
        refine hnone task (List.mem_append_left _ (List.mem_append_right _ ?_)) hP
        exact List.mem_flatMap.2 ⟨back, hmem, htask⟩
    | now hpushed =>
        rw [hpushed] at hsuffix
        exact .inl (hbelow hP hsuffix)
    | later hpushed hmarks _ _ hQ =>
        rw [hpushed] at hsuffix
        rcases List.suffix_cons_iff.1 hsuffix with heq | hsuffix
        · obtain ⟨-, rfl⟩ := List.cons.inj heq
          exact .inr hQ
        · refine .inl (hbelow hP (suffix_of_append hsuffix fun hmem => ?_))
          obtain ⟨task, htask, -⟩ := hP
          simp [hmarks _ hmem] at htask
    | back => exact .inl (hbelow hP hsuffix)
    | on _ hpushed =>
        rw [hpushed] at hsuffix
        exact .inl (hbelow hP hsuffix)
  · have hheld := Thread.mem_held_of_control_heard htask
    cases h with
    | nowhere hnone =>
        exact absurd hP (hnone task (List.mem_append_left _ (List.mem_append_left _ hheld)))
    | now hpushed _ hQ =>
        rw [hpushed] at hstack
        exact .inr (hstack ▸ hQ)
    | later _ _ hnone => exact absurd hP (hnone task hheld)
    | back hmem hback => exact .inl (.inl ⟨_, ⟨_, hmem, hback⟩, hstack ▸ List.suffix_rfl⟩)
    | on hon hpushed =>
        rw [hpushed] at hstack
        exact .inl (.inr ⟨hstack, _, List.mem_singleton_self _, hon⟩)

namespace Run

variable {r : Run H} {k n : Nat} {t : ThreadId} {thread : Thread H} {task : Task H}
  {stack : List (Return H)} {back : Return H}

theorem isAbove_of_suffix (ht : (r.world n).threads[t]? = some thread)
    (hsuffix : back :: stack <:+ thread.stack) : r.IsAbove n t stack := by
  obtain ⟨above, hstack⟩ := hsuffix
  exact ⟨thread, ht, above ++ [back], by simp [← hstack], by simp⟩

theorem isAbove_of_held (ht : (r.world n).threads[t]? = some thread)
    (htask : task ∈ thread.control.held) : r.IsAbove n t thread.stack :=
  ⟨thread, ht, [], rfl, fun _ hnil => by simp [hnil] at htask⟩

theorem isAbove_of_minds (ht : (r.world n).threads[t]? = some thread)
    (h : thread.Minds P stack) : r.IsAbove n t stack := by
  rcases h with ⟨back, -, hsuffix⟩ | ⟨rfl, task, htask, -⟩
  · exact isAbove_of_suffix ht hsuffix
  · exact isAbove_of_held ht htask

/-- A thread that minds a task of a kind has been led to it by a turn, above the same stack, and has
been above the stack since. -/
theorem exists_leads {Q : Nat → ThreadId → List (Return H) → Prop} (hstart : (r.world 0).Starting)
    (huser : ∀ code reply, ¬P (.user code reply))
    (hleads : ∀ n t (before : Thread H) state rest turn, r.action n = .thread t →
      (r.world n).threads[t]? = some before →
        before.turn? t (r.world n).heap (r.world n).state = some (state, rest, turn) →
          before.LeadsTo P (Q n t) rest turn)
    (ht : (r.world n).threads[t]? = some thread) (h : thread.Minds P stack) :
    ∃ k, k < n ∧ Q k t stack ∧ ∀ j, k < j → j ≤ n → r.IsAbove j t stack := by
  induction n generalizing t thread with
  | zero =>
      obtain ⟨name, code, rfl⟩ := hstart.threads t thread ht
      refine (h.not_forall_held ?_).elim
      simpa [Thread.held, Thread.starting, Control.held] using huser code .start
  | succ n ih =>
      have habove := isAbove_of_minds ht h
      have hsince {before : Thread H} (ht₀ : (r.world n).threads[t]? = some before)
          (hbefore : before.Minds P stack) :
          ∃ k, k < n + 1 ∧ Q k t stack ∧ ∀ j, k < j → j ≤ n + 1 → r.IsAbove j t stack := by
        obtain ⟨k, hkn, hQ, hall⟩ := ih ht₀ hbefore
        refine ⟨k, Nat.lt_succ_of_lt hkn, hQ, fun j hkj hj => ?_⟩
        rcases Nat.le_succ_iff.1 hj with hjn | rfl
        · exact hall j hkj hjn
        · exact habove
      cases (r.ordered n).becomes (r.step n) ht with
      | @waits before ht₀ hstack hheld =>
          refine hsince ht₀ ?_
          rcases h with ⟨back, hP, hsuffix⟩ | ⟨rfl, task, htask, hP⟩
          · exact .inl ⟨back, hP, hstack ▸ hsuffix⟩
          · exact .inr ⟨hstack, task, hheld task htask, hP⟩
      | acts haction ht₀ hturn heq =>
          subst heq
          rcases (hleads _ _ _ _ _ _ haction ht₀ hturn).minds (Thread.turning hturn).suffix h with
            hbefore | hQ
          · exact hsince ht₀ hbefore
          · refine ⟨n, Nat.lt_succ_self n, hQ, fun j hnj hj => ?_⟩
            obtain rfl : j = n + 1 := Nat.le_antisymm hj hnj
            exact habove
      | starts haction ht₀ hturn hborn =>
          cases hleads _ _ _ _ _ _ haction ht₀ hturn with
          | nowhere hnone =>
              refine (h.not_forall_held fun task htask => hnone task ?_).elim
              exact List.mem_append_right _ (by simpa [hborn] using htask)
          | now _ hnone => cases hborn.symm.trans hnone
          | later _ _ _ hnone => cases hborn.symm.trans hnone
          | back => cases hborn
          | on _ _ hnone => cases hborn.symm.trans hnone

end Run

/-- Whether a task is that of a caller who expects an exit. -/
def Task.Expects : Task H → Prop
  | .receive _ _ _ _ | .lost _ | .collect _ _ _ _ | .hang _ _ _ _ => True
  | _ => False

/-- Whether a request makes its caller expect an exit. -/
def Request.Expects {D F : Type} : Request D F → Prop
  | .runBlocking _ _ _ | .blockOn _ _ _ | .poll _ _ _ => True
  | _ => False

/-- A turn that makes nobody expect an exit. -/
def Turn.ExpectsNothing (turn : Turn H) : Prop := ∀ task ∈ turn.held, ¬task.Expects

section Turns

variable {heap : Heap H.Data H.Fn} {here : Here} {stack : List (Return H)}

theorem Move.turn_expectsNothing (move : Move H.Data H.Fn H.Code H.Condition) :
    (move.turn (H := H) heap).ExpectsNothing := by
  cases move <;>
    simp [Turn.ExpectsNothing, turn, Turn.run, Turn.ret, Turn.raise, Turn.call, Turn.sleep,
      Turn.held, Control.held, Return.held, Task.Expects]

theorem Return.unwind_expectsNothing (back : Return H) (payload : Payload) :
    (back.unwind heap payload).ExpectsNothing := by
  cases back <;>
    simp [Turn.ExpectsNothing, unwind, Turn.run, Turn.raise, Turn.call, Turn.held, Control.held,
      Return.held, Task.Expects]

/-- A reply leads from a return to a task of one who expects an exit only if the return holds it. -/
theorem Return.mem_held_of_resume {back : Return H} {v : Value H.Data H.Fn} {task : Task H}
    (hmem : task ∈ (back.resume heap v).held) (h : task.Expects) : task ∈ back.held := by
  cases back with
  | user code =>
      obtain rfl := by simpa [resume, Turn.run, Turn.held, Control.held] using hmem
      exact h.elim
  | answering post frames last applied finish =>
      obtain rfl := by simpa [resume, Turn.run, Turn.held, Control.held] using hmem
      exact h.elim
  | after task' => simpa [resume, Turn.run, Turn.held, Control.held, held] using hmem
  | polling value error future channel =>
      simpa [resume, Turn.run, Turn.held, Control.held, held] using hmem
  | notifying id w subscribers first =>
      simpa [resume, Turn.run, Turn.held, Control.held, held] using hmem
  | reading =>
      simp only [resume, readTurn] at hmem
      repeat' split at hmem
      all_goals simp [Turn.ret, Turn.raise, Turn.held, Control.held] at hmem
  | _ => simp [resume, Turn.ret, Turn.held, Control.held] at hmem

theorem Return.resume_of_expects {back : Return H} {task : Task H} (htask : task ∈ back.held)
    (h : task.Expects) (v : Value H.Data H.Fn) : back.resume heap v = .run heap task := by
  cases back with
  | after => exact List.mem_singleton.1 htask ▸ rfl
  | polling => exact List.mem_singleton.1 htask ▸ rfl
  | notifying =>
      obtain rfl := List.mem_singleton.1 htask
      exact h.elim
  | _ => cases htask

theorem Request.turn_expectsNothing {q : Request H.Data H.Fn} (hq : ¬q.Expects) :
    (q.turn (H := H) stack heap).ExpectsNothing := by
  cases q with
  | runBlocking => exact absurd trivial hq
  | blockOn => exact absurd trivial hq
  | poll => exact absurd trivial hq
  | _ =>
      simp only [turn]
      repeat' split
      all_goals simp [Turn.ExpectsNothing, Turn.run, Turn.ret, Turn.raise, Turn.seq, Turn.discard,
        Turn.call, Turn.held, Thread.held, Thread.starting, Control.held, Return.held, Task.Expects]

theorem Task.turn_expectsNothing {task : Task H} (hrequest : ∀ q, task ≠ .request q)
    (htask : ¬task.Expects) : (task.turn here stack heap).ExpectsNothing := by
  cases task with
  | request q => exact absurd rfl (hrequest q)
  | receive => exact absurd trivial htask
  | lost => exact absurd trivial htask
  | collect => exact absurd trivial htask
  | hang => exact absurd trivial htask
  | answer question =>
      cases question <;>
        simp [Turn.ExpectsNothing, turn, Ask.turn, Turn.run, Turn.ret, Turn.seq, Turn.call,
          Turn.held, Control.held, Return.held, Task.Expects]
  | perform work =>
      cases work <;>
        simp [Turn.ExpectsNothing, turn, Turn.run, Turn.seq, Turn.discard, Turn.call, Turn.held,
          Control.held, Return.held, Task.Expects]
  | invoke target outcome =>
      cases target <;>
        simp [Turn.ExpectsNothing, turn, Turn.run, Turn.seq, Turn.discard, Turn.call, Turn.held,
          Control.held, Return.held, Task.Expects]
  | notify id v subscribers first =>
      cases subscribers <;> cases first <;>
        simp [Turn.ExpectsNothing, turn, Turn.ret, Turn.raise, Turn.call, Turn.held, Control.held,
          Return.held, Task.Expects]
  | conclude exit finish =>
      cases finish <;> cases exit <;>
      · simp only [turn, concludeTurn]
        repeat' split
        all_goals simp [Turn.ExpectsNothing, Turn.run, Turn.ret, Turn.raise, Turn.seq, Turn.discard,
          Turn.call, Turn.held, Control.held, Return.held, Task.Expects]
  | _ =>
      simp only [turn, submitTurn, reportTurn, deliverTurn, parkTurn, driveTurn, registerTurn,
        tellTurn]
      repeat' split
      all_goals simp [Turn.ExpectsNothing, Turn.run, Turn.ret, Turn.raise, Turn.seq, Turn.discard,
        Turn.call, Turn.sleep, Turn.held, Thread.held, Thread.starting, Control.held, Return.held,
        Task.Expects]

/-- Those who expect an exit take up nothing else meanwhile. -/
theorem Task.Expects.turn {task : Task H} (h : task.Expects) :
    (task.turn here stack heap).pushed = [] ∧ (task.turn here stack heap).born = none := by
  cases task with
  | receive => simp only [Task.turn]; split <;> exact ⟨rfl, rfl⟩
  | lost => exact ⟨rfl, rfl⟩
  | collect => simp only [Task.turn]; split <;> exact ⟨rfl, rfl⟩
  | hang => simp only [Task.turn]; split <;> exact ⟨rfl, rfl⟩
  | _ => exact h.elim

/-- Tasks of callers who expect an exit are led to by what their requests lead to, and by what the
tasks themselves lead to. -/
theorem Thread.Turning.leadsTo {thread : Thread H} {t : ThreadId} {state state' : H.State}
    {rest : List (Return H)} {turn : Turn H} (h : thread.Turning t heap state state' rest turn)
    (hP : ∀ task, P task → task.Expects)
    (hrequest : ∀ name q, thread = ⟨name, .run (.request q), rest⟩ → q.Expects →
      thread.LeadsTo P Q rest (q.turn rest heap))
    (htask : ∀ name task, thread = ⟨name, .run task, rest⟩ → task.Expects → ¬P task →
      ∀ task' ∈ (task.turn ⟨t, name⟩ rest heap).held, ¬P task') :
    thread.LeadsTo P Q rest turn := by
  have hnowhere {rest : List (Return H)} {turn : Turn H} (hturn : turn.ExpectsNothing) :
      thread.LeadsTo P Q rest turn :=
    .nowhere fun task hmem h => hturn task hmem (hP task h)
  cases h with
  | move => exact hnowhere (Move.turn_expectsNothing _)
  | raise => exact hnowhere (Return.unwind_expectsNothing _ _)
  | @ret name v back rest =>
      by_cases hback : ∃ task ∈ back.held, P task
      · obtain ⟨task, htask, h⟩ := hback
        rw [Return.resume_of_expects htask (hP task h)]
        exact .back htask h
      · exact .nowhere fun task hmem h =>
          hback ⟨task, Return.mem_held_of_resume hmem (hP task h), h⟩
  | @task name task stack huser =>
      by_cases h : P task
      · exact .on h (hP task h).turn.1 (hP task h).turn.2
      · by_cases hexpects : task.Expects
        · exact .nowhere (htask name task rfl hexpects h)
        · by_cases hq : ∃ q, task = .request q
          · obtain ⟨q, rfl⟩ := hq
            by_cases hcalls : q.Expects
            · exact hrequest name q rfl hcalls
            · exact hnowhere (Request.turn_expectsNothing hcalls)
          · exact hnowhere (Task.turn_expectsNothing (fun q heq => hq ⟨q, heq⟩) hexpects)

end Turns

end Trampoline
