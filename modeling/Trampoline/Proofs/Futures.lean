import Trampoline.Proofs.Entries
import Trampoline.Proofs.Leading

/-!
The future of an effect over time. It holds the effect until it is polled or dropped, starts the
interpretation when it is first polled, and is over when a poll has brought the exit, when it is
dropped, or when a poll has found that no exit can come any more.
-/

namespace Trampoline

variable {H : Host}

/-- Whether a task looks for the exit of a future. -/
def Task.IsLook (value error : Ty) (future : FutureId) (id : ChannelId) (task : Task H) : Prop :=
  task = .collect value error future id ∨ task = .hang value error future id

variable {value error : Ty} {future : FutureId} {id : ChannelId} {stack : List (Return H)}
  {heap : Heap H.Data H.Fn} {here : Here}

/-- What a turn makes of a future, and which tasks do so. -/
inductive Task.Handles (heap : Heap H.Data H.Fn) (future : FutureId) (task : Task H)
    (x : Future H.Data H.Fn) : Future H.Data H.Fn → Prop where
  | leaves :
      (∀ value error node, task = .request (.poll value error future) → x ≠ .fresh node) →
        task ≠ .request (.dropFuture future) → Handles heap future task x x
  | starts {value error : Ty} {node : Node H.Data H.Fn} :
      task = .request (.poll value error future) → x = .fresh node →
        Handles heap future task x (.running heap.channels.size)
  | drops : task = .request (.dropFuture future) → Handles heap future task x .finished
  | collects {value error : Ty} {id : ChannelId} {exit : Exit (Outcome H.Data H.Fn)} :
      task = .collect value error future id → heap.received? id = some exit →
        Handles heap future task x .finished
  | hangs {value error : Ty} {id : ChannelId} :
      task = .hang value error future id → heap.received? id = none →
        Handles heap future task x .hung

theorem Heap.futures_setFuture_self {D F : Type} (heap : Heap D F) {future : FutureId}
    {x : Future D F} (h : heap.futures[future]? = some x) (y : Future D F) :
    (heap.setFuture future y).futures[future]? = some y := by
  obtain ⟨hlt, -⟩ := Array.getElem?_eq_some_iff.1 h
  exact Array.getElem?_setIfInBounds_self_of_lt hlt

theorem Heap.futures_setFuture_ne {D F : Type} (heap : Heap D F) {future future' : FutureId}
    {x : Future D F} (h : heap.futures[future]? = some x) (hne : future' ≠ future)
    (y : Future D F) :
    (heap.setFuture future' y).futures[future]? = some x := by
  rw [setFuture, Array.getElem?_setIfInBounds_ne hne, h]

theorem Request.handles {x : Future H.Data H.Fn} (q : Request H.Data H.Fn)
    (h : heap.futures[future]? = some x) :
    ∃ x', (q.turn (H := H) stack heap).heap.futures[future]? = some x' ∧
      (Task.request q).Handles heap future x x' := by
  cases q with
  | runAsync value error node =>
      obtain ⟨hlt, hget⟩ := Array.getElem?_eq_some_iff.1 h
      refine ⟨x, ?_, .leaves (by simp) (by simp)⟩
      simp only [turn, Heap.newFuture, Turn.ret]
      rw [Array.getElem?_push_lt hlt, hget]
  | poll value error future' =>
      by_cases heq : future' = future
      · subst heq
        cases x with
        | fresh node =>
            refine ⟨.running heap.channels.size, ?_, .starts rfl rfl⟩
            simp only [turn, h]
            exact Heap.futures_setFuture_self heap.newChannel.1 h _
        | _ => exact ⟨_, by simpa only [turn, h], .leaves (by simp) (by simp)⟩
      · refine ⟨x, ?_, .leaves (fun _ _ _ hpoll => ?_) (by simp)⟩
        · simp only [turn]
          split
          · exact Heap.futures_setFuture_ne heap.newChannel.1 h heq _
          all_goals exact h
        · simp only [Task.request.injEq, Request.poll.injEq] at hpoll
          exact absurd hpoll.2.2 heq
  | dropFuture future' =>
      by_cases heq : future' = future
      · subst heq
        refine ⟨.finished, ?_, .drops rfl⟩
        simp only [turn]
        split
        · rename_i channel _
          exact Heap.futures_setFuture_self (heap.setChannel channel .closed) h _
        · exact Heap.futures_setFuture_self _ h _
      · refine ⟨x, ?_, .leaves (by simp) (by simpa using heq)⟩
        simp only [turn]
        split
        · rename_i channel _
          exact Heap.futures_setFuture_ne (heap.setChannel channel .closed) h heq _
        · exact Heap.futures_setFuture_ne _ h heq _
  | _ =>
      refine ⟨x, ?_, .leaves (by simp) (by simp)⟩
      simp only [turn]
      repeat' split
      all_goals exact h

theorem Task.handles {x : Future H.Data H.Fn} (task : Task H) (here : Here)
    (stack : List (Return H)) (h : heap.futures[future]? = some x) :
    ∃ x', (task.turn here stack heap).heap.futures[future]? = some x' ∧
      task.Handles heap future x x' := by
  by_cases hlocal : task.IsLocal
  · refine ⟨x, by rw [hlocal.isLike.futures, h], .leaves ?_ ?_⟩
    · rintro _ _ _ rfl
      exact hlocal.elim
    · rintro rfl
      exact hlocal.elim
  cases task with
  | request q => exact q.handles h
  | submit scheduler work =>
      refine ⟨x, ?_, .leaves (by simp) (by simp)⟩
      simp only [turn, submitTurn]
      repeat' split
      all_goals exact h
  | report scheduler failure =>
      refine ⟨x, ?_, .leaves (by simp) (by simp)⟩
      simp only [turn, reportTurn]
      repeat' split
      all_goals exact h
  | collect value error future' channel =>
      cases hreceived : heap.received? channel with
      | none => exact ⟨x, by simpa only [turn, hreceived], .leaves (by simp) (by simp)⟩
      | some exit =>
          rw [turn_collect hreceived]
          by_cases heq : future' = future
          · subst heq
            exact ⟨.finished, Heap.futures_setFuture_self _ h _, .collects rfl hreceived⟩
          · exact ⟨x, Heap.futures_setFuture_ne _ h heq _, .leaves (by simp) (by simp)⟩
  | hang value error future' channel =>
      cases hreceived : heap.received? channel with
      | some exit =>
          refine ⟨x, ?_, .leaves (by simp) (by simp)⟩
          simpa only [turn, hreceived, Option.isSome_some, if_true]
      | none =>
          simp only [turn, hreceived, Option.isSome_none, Bool.false_eq_true, if_false]
          by_cases heq : future' = future
          · subst heq
            exact ⟨.hung, Heap.futures_setFuture_self (heap.emit .pendingForever) h _,
              .hangs rfl hreceived⟩
          · exact ⟨x, Heap.futures_setFuture_ne (heap.emit .pendingForever) h heq _,
              .leaves (by simp) (by simp)⟩
  | _ => exact absurd trivial hlocal

/-- A request that makes its caller look for the exit of a future polls the future, which runs, or
starts to run with this. -/
theorem Request.leadsTo_look {thread : Thread H} {Q : List (Return H) → Prop}
    {q : Request H.Data H.Fn} (hq : q.Expects) (hpoll : q = .poll value error future →
      (heap.futures[future]? = some (.running id) ∨
        (∃ node, heap.futures[future]? = some (.fresh node)) ∧ id = heap.channels.size) → Q stack) :
    thread.LeadsTo (Task.IsLook value error future id) Q stack (q.turn stack heap) := by
  cases q with
  | runBlocking =>
      exact .nowhere (by simp [turn, Turn.seq, Turn.call, Turn.held, Control.held, Return.held,
        Task.IsLook])
  | blockOn =>
      simp only [turn]
      split <;> exact .nowhere (by simp [Turn.raise, Turn.held, Control.held, Return.held,
        Task.IsLook])
  | poll value' error' future' =>
      simp only [turn]
      split
      · rename_i node hfuture
        by_cases heq : Task.collect (H := H) value' error' future' heap.channels.size =
            .collect value error future id
        · obtain ⟨rfl, rfl, rfl, hid⟩ := Task.collect.inj heq
          exact .later rfl (by simp) (by simp [Turn.call, Control.held, Task.IsLook]) rfl
            (hpoll rfl (.inr ⟨⟨node, hfuture⟩, hid.symm⟩))
        · refine .nowhere ?_
          simp_all [Turn.call, Turn.held, Control.held, Return.held, Task.IsLook, Heap.newChannel]
      · rename_i channel hfuture
        by_cases heq : Task.collect (H := H) value' error' future' channel =
            .collect value error future id
        · obtain ⟨rfl, rfl, rfl, rfl⟩ := Task.collect.inj heq
          exact .now rfl rfl (hpoll rfl (.inl hfuture))
        · refine .nowhere ?_
          simp_all [Turn.run, Turn.held, Control.held, Task.IsLook]
      all_goals exact .nowhere (by simp [Turn.ret, Turn.raise, Turn.held, Control.held])
  | _ => exact hq.elim

theorem Task.turn_not_isLook {task : Task H} (hexpects : task.Expects)
    (hlook : ¬task.IsLook value error future id) :
    ∀ task' ∈ (task.turn here stack heap).held, ¬task'.IsLook value error future id := by
  cases task with
  | receive =>
      simp only [turn]
      split <;> simp [Turn.ret, Turn.raise, Turn.sleep, Turn.held, Control.held, IsLook]
  | lost => simp [turn, Turn.sleep, Turn.held, Control.held, IsLook]
  | collect =>
      simp only [turn]
      split <;> simp_all [Turn.ret, Turn.raise, Turn.sleep, Turn.held, Control.held, IsLook]
  | hang =>
      simp only [turn]
      split <;> simp_all [Turn.run, Turn.ret, Turn.held, Control.held, IsLook]
  | _ => exact hexpects.elim

namespace Run

variable {r : Run H} {k n m : Nat} {t : ThreadId} {x : Future H.Data H.Fn}

/-- What a step makes of a future. -/
theorem future_next (h : (r.world n).heap.futures[future]? = some x) :
    ∃ x', (r.world (n + 1)).heap.futures[future]? = some x' ∧
      ((x' = x ∧ ∀ t q, ¬r.Does n t (.request q)) ∨
        (∃ t payload value error id stack,
          r.Turns n t (.raise payload) (.polling value error future id :: stack) ∧
            x' = .finished) ∨
          ∃ t task stack, r.Turns n t (.run task) stack ∧
            task.Handles (r.world n).heap future x x') := by
  by_cases hrequest : ∃ t q, r.Does n t (.request q)
  · obtain ⟨t, q, hdoes⟩ := hrequest
    obtain ⟨name, stack, ht, happly⟩ := hdoes.turn (by simp)
    obtain ⟨x', hx', hhandles⟩ := (Task.request q).handles ⟨t, name⟩ stack h
    refine ⟨x', ?_, .inr (.inr ⟨t, _, stack, ⟨hdoes.1, name, ht⟩, hhandles⟩)⟩
    rw [happly, World.heap_apply, hx']
  · have hnobody (t : ThreadId) (q : Request H.Data H.Fn) : ¬r.Does n t (.request q) :=
      fun hdoes => hrequest ⟨t, q, hdoes⟩
    rcases World.heap_of_does (r.step n) with ⟨clock, -, hheap⟩ |
      ⟨t, name, payload, value, error, future', id, stack, haction, ht, hheap⟩ |
      ⟨t, name, task, stack, haction, ht, hheap⟩
    · exact ⟨x, by rw [hheap]; exact h, .inl ⟨rfl, hnobody⟩⟩
    · by_cases heq : future' = future
      · subst heq
        exact ⟨.finished, by rw [hheap]; exact Heap.futures_setFuture_self _ h _,
          .inr (.inl ⟨t, payload, value, error, id, stack, ⟨haction, name, ht⟩, rfl⟩)⟩
      · exact ⟨x, by rw [hheap]; exact Heap.futures_setFuture_ne _ h heq _, .inl ⟨rfl, hnobody⟩⟩
    · obtain ⟨x', hx', hhandles⟩ := task.handles ⟨t, name⟩ stack h
      exact ⟨x', by rw [hheap]; exact hx',
        .inr (.inr ⟨t, task, stack, ⟨haction, name, ht⟩, hhandles⟩)⟩

/-- At time `k` thread `t` has polled a future above a stack; it has not come back by time `n`. -/
structure IsPolling (r : Run H) (k n : Nat) (t : ThreadId) (value error : Ty) (future : FutureId)
    (id : ChannelId) (stack : List (Return H)) : Prop where
  lt : k < n
  polls : r.Turns k t (.run (.request (.poll value error future))) stack
  running : (r.world k).heap.futures[future]? = some (.running id) ∨
    (∃ node, (r.world k).heap.futures[future]? = some (.fresh node)) ∧
      id = (r.world k).heap.channels.size
  above : ∀ j, k < j → j ≤ n → r.IsAbove j t stack

theorem IsPolling.succ (h : r.IsPolling k n t value error future id stack)
    (habove : r.IsAbove (n + 1) t stack) :
    r.IsPolling k (n + 1) t value error future id stack where
  lt := Nat.lt_succ_of_lt h.lt
  polls := h.polls
  running := h.running
  above j hkj hj := by
    rcases Nat.lt_succ_iff_lt_or_eq.1 (Nat.lt_succ_of_le hj) with hlt | rfl
    · exact h.above j hkj (Nat.le_of_lt_succ hlt)
    · exact habove

/-- Thread `t` has polled a future if it is going to look for the exit. -/
structure HasPolled (r : Run H) (n : Nat) (t : ThreadId) (value error : Ty) (future : FutureId)
    (id : ChannelId) (thread : Thread H) : Prop where
  stack {back : Return H} {task : Task H} {stack : List (Return H)} : task ∈ back.held →
    task.IsLook value error future id → back :: stack <:+ thread.stack →
      ∃ k, r.IsPolling k n t value error future id stack
  held {task : Task H} : task ∈ thread.control.held → task.IsLook value error future id →
    ∃ k, r.IsPolling k n t value error future id thread.stack

section Polling

variable {thread : Thread H}

theorem isPolling_succ {name : Option String} (haction : r.action n = .thread t)
    (ht : (r.world n).threads[t]? =
      some ⟨name, .run (.request (.poll value error future)), stack⟩)
    (hfuture : (r.world n).heap.futures[future]? = some (.running id) ∨
      (∃ node, (r.world n).heap.futures[future]? = some (.fresh node)) ∧
        id = (r.world n).heap.channels.size) (habove : r.IsAbove (n + 1) t stack) :
    r.IsPolling n (n + 1) t value error future id stack := by
  refine ⟨Nat.lt_succ_self n, ⟨haction, name, ht⟩, hfuture, fun j hnj hj => ?_⟩
  obtain rfl : j = n + 1 := Nat.le_antisymm hj hnj
  exact habove

/-- A thread that is going to look for the exit of a future has polled it. -/
theorem hasPolled (hstart : (r.world 0).Starting) (ht : (r.world n).threads[t]? = some thread) :
    r.HasPolled n t value error future id thread := by
  have hled {stack : List (Return H)} (h : thread.Minds (Task.IsLook value error future id) stack) :
      ∃ k, r.IsPolling k n t value error future id stack := by
    obtain ⟨k, hkn, ⟨hpolls, hrunning⟩, habove⟩ := exists_leads hstart
      (P := Task.IsLook value error future id)
      (Q := fun n t stack => r.Turns n t (.run (.request (.poll value error future))) stack ∧
        ((r.world n).heap.futures[future]? = some (.running id) ∨
          (∃ node, (r.world n).heap.futures[future]? = some (.fresh node)) ∧
            id = (r.world n).heap.channels.size))
      (by simp [Task.IsLook])
      (fun n t before state rest turn haction ht hturn =>
        (Thread.turning hturn).leadsTo (by rintro task (rfl | rfl) <;> trivial)
          (fun name q hbefore hq => Request.leadsTo_look hq fun hpoll hrunning =>
            ⟨⟨haction, name, hpoll ▸ hbefore ▸ ht⟩, hrunning⟩)
          fun _ _ _ => Task.turn_not_isLook) ht h
    exact ⟨k, hkn, hpolls, hrunning, habove⟩
  exact ⟨fun htask hlook hsuffix => hled (.inl ⟨_, ⟨_, htask, hlook⟩, hsuffix⟩),
    fun htask hlook => hled (.inr ⟨rfl, _, htask, hlook⟩)⟩

end Polling

/-- At time `n` a future is polled or dropped. -/
def Touches (r : Run H) (n : Nat) (future : FutureId) : Prop :=
  (∃ t value error, r.Does n t (.request (.poll value error future))) ∨
    ∃ t, r.Does n t (.request (.dropFuture future))

/-- Between two times a future is neither polled nor dropped. -/
def LeavesAlone (r : Run H) (m n : Nat) (future : FutureId) : Prop :=
  ∀ j, m < j → j < n → ¬r.Touches j future

/-- At time `m` the future of an effect is made. -/
def MakesFuture (r : Run H) (m : Nat) (value error : Ty) (node : Node H.Data H.Fn)
    (future : FutureId) : Prop :=
  (∃ t, r.Does m t (.request (.runAsync value error node))) ∧
    (r.world m).heap.futures.size = future

theorem futures_size_le (hnm : n ≤ m) :
    (r.world n).heap.futures.size ≤ (r.world m).heap.futures.size := by
  induction hnm with
  | refl => exact Nat.le_refl _
  | @step m _ ih =>
      refine Nat.le_trans ih (Nat.le_of_not_lt fun hlt => ?_)
      obtain ⟨x', hx', -⟩ := future_next (Array.getElem?_eq_getElem hlt)
      simp at hx'

section Made

variable {node : Node H.Data H.Fn} (hstart : (r.world 0).Starting)
  (hmakes : r.MakesFuture m value error node future)

include hmakes

/-- The action that makes a future puts the effect into it, and does nothing else. -/
theorem MakesFuture.changes : ∃ t, (r.world m).Changes (r.world (m + 1)) t
    (.run (.request (.runAsync value error node))) (.ret (.future value error future))
      { (r.world m).heap with futures := (r.world m).heap.futures.push (.fresh node) } := by
  obtain ⟨⟨t, hdoes⟩, rfl⟩ := hmakes
  exact ⟨t, hdoes.changes (by simp) fun _ _ => rfl⟩

theorem MakesFuture.lt_of_some (h : (r.world n).heap.futures[future]? = some x) : m < n := by
  refine Nat.lt_of_not_le fun hnm => ?_
  obtain ⟨hlt, -⟩ := Array.getElem?_eq_some_iff.1 h
  have hle := futures_size_le (r := r) hnm
  rw [hmakes.2] at hle
  exact Nat.not_lt.2 hle hlt

theorem MakesFuture.lt_of_isPolling {value error : Ty}
    (h : r.IsPolling k n t value error future id stack) : m < k := by
  rcases h.running with hrunning | ⟨⟨node, hfresh⟩, -⟩
  · exact hmakes.lt_of_some hrunning
  · exact hmakes.lt_of_some hfresh

include hstart

/-- A future that nobody has polled or dropped holds its effect until somebody does. -/
theorem MakesFuture.fresh_next (halone : r.LeavesAlone m n future)
    (hfresh : (r.world n).heap.futures[future]? = some (.fresh node)) :
    (¬r.Touches n future ∧ (r.world (n + 1)).heap.futures[future]? = some (.fresh node)) ∨
      r.Touches n future ∧
        ∃ x, (r.world (n + 1)).heap.futures[future]? = some x ∧ ∀ node, x ≠ .fresh node := by
  -- Nobody looks for the exit of a future that has not been polled.
  have hlooks {value error : Ty} {id : ChannelId} {t : ThreadId} {task : Task H}
      {stack : List (Return H)} (hturns : r.Turns n t (.run task) stack)
      (hlook : task.IsLook value error future id) : False := by
    obtain ⟨-, name, ht⟩ := hturns
    obtain ⟨k, hk⟩ := (hasPolled hstart ht).held (List.mem_singleton_self _) hlook
    exact halone k (hmakes.lt_of_isPolling hk) hk.lt (.inl ⟨t, value, error, hk.polls.does⟩)
  obtain ⟨x', hx', ⟨rfl, hnobody⟩ | ⟨t, payload, value, error, id, stack, hturns, -⟩ |
    ⟨t, task, stack, hturns, hhandles⟩⟩ := future_next hfresh
  · refine .inl ⟨?_, hx'⟩
    rintro (⟨t, value, error, hdoes⟩ | ⟨t, hdoes⟩)
    · exact hnobody t _ hdoes
    · exact hnobody t _ hdoes
  · obtain ⟨-, name, ht⟩ := hturns
    obtain ⟨k, hk⟩ := (hasPolled hstart ht).stack (List.mem_singleton_self _) (.inl rfl)
      List.suffix_rfl
    exact absurd (.inl ⟨t, value, error, hk.polls.does⟩)
      (halone k (hmakes.lt_of_isPolling hk) hk.lt)
  · cases hhandles with
    | leaves hpoll hdrop =>
        refine .inl ⟨?_, hx'⟩
        rintro (⟨t', value, error, hdoes⟩ | ⟨t', hdoes⟩)
        · exact hpoll value error node (hturns.does.unique hdoes).2 rfl
        · exact hdrop (hturns.does.unique hdoes).2
    | starts htask _ =>
        subst htask
        exact .inr ⟨.inl ⟨t, _, _, hturns.does⟩, _, hx', by simp⟩
    | drops htask =>
        subst htask
        exact .inr ⟨.inr ⟨t, hturns.does⟩, _, hx', by simp⟩
    | collects htask _ => exact (hlooks hturns (.inl htask)).elim
    | hangs htask _ => exact (hlooks hturns (.inr htask)).elim

omit hstart hmakes in
/-- What a future has lost it never holds again. -/
theorem not_fresh_next (hx : (r.world n).heap.futures[future]? = some x)
    (hnot : ∀ node, x ≠ .fresh node) :
    ∃ x', (r.world (n + 1)).heap.futures[future]? = some x' ∧ ∀ node, x' ≠ .fresh node := by
  obtain ⟨x', hx', ⟨rfl, -⟩ | ⟨_, _, _, _, _, _, -, rfl⟩ | ⟨t, task, stack, hturns, hhandles⟩⟩ :=
    future_next hx
  · exact ⟨_, hx', hnot⟩
  · exact ⟨_, hx', by simp⟩
  · refine ⟨x', hx', ?_⟩
    cases hhandles with
    | leaves => exact hnot
    | starts _ hfresh => exact absurd hfresh (hnot _)
    | _ => simp

/-- A future holds its effect until it is polled or dropped, and never afterwards. -/
theorem MakesFuture.fresh_or_touched (hmn : m < n) :
    (r.LeavesAlone m n future ∧ (r.world n).heap.futures[future]? = some (.fresh node)) ∨
      (∃ j, m < j ∧ j < n ∧ r.Touches j future) ∧
        ∃ x, (r.world n).heap.futures[future]? = some x ∧ ∀ node, x ≠ .fresh node := by
  induction hmn with
  | refl =>
      refine .inl ⟨fun j hj hjm => absurd hjm (Nat.not_lt.2 hj), ?_⟩
      obtain ⟨t, hchanges⟩ := hmakes.changes
      rw [hchanges.heap, ← hmakes.2]
      exact Array.getElem?_push_size
  | @step n hmn ih =>
      rcases ih with ⟨halone, hfresh⟩ | ⟨⟨j, hmj, hjn, htouches⟩, x, hx, hnot⟩
      · rcases hmakes.fresh_next hstart halone hfresh with ⟨huntouched, hstill⟩ | ⟨htouches, hgone⟩
        · refine .inl ⟨fun j hmj hj => ?_, hstill⟩
          rcases Nat.lt_succ_iff_lt_or_eq.1 hj with hlt | rfl
          · exact halone j hmj hlt
          · exact huntouched
        · exact .inr ⟨⟨n, hmn, Nat.lt_succ_self n, htouches⟩, hgone⟩
      · exact .inr ⟨⟨j, hmj, Nat.lt_succ_of_lt hjn, htouches⟩, not_fresh_next hx hnot⟩

theorem MakesFuture.fresh (hmn : m < n) (halone : r.LeavesAlone m n future) :
    (r.world n).heap.futures[future]? = some (.fresh node) := by
  rcases hmakes.fresh_or_touched hstart hmn with ⟨-, hfresh⟩ | ⟨⟨j, hmj, hjn, htouches⟩, -⟩
  · exact hfresh
  · exact absurd htouches (halone j hmj hjn)

theorem MakesFuture.of_fresh {node' : Node H.Data H.Fn}
    (h : (r.world n).heap.futures[future]? = some (.fresh node')) :
    r.LeavesAlone m n future ∧ node' = node := by
  rcases hmakes.fresh_or_touched hstart (hmakes.lt_of_some h) with
    ⟨halone, hfresh⟩ | ⟨-, x, hx, hnot⟩
  · exact ⟨halone, Future.fresh.inj (Option.some.inj (h.symm.trans hfresh))⟩
  · exact absurd (Option.some.inj (hx.symm.trans h)) (hnot node')

end Made

/-- All polls of a future are made at the types of its effect. -/
def PollsAt (r : Run H) (value error : Ty) (future : FutureId) : Prop :=
  ∀ n t value' error', r.Does n t (.request (.poll value' error' future)) →
    value' = value ∧ error' = error

/-- At time `k` thread `t` is the first to poll a future, which has been made at time `m` and has
not been dropped since. The poll makes a channel. -/
structure PollsFirst (r : Run H) (m k : Nat) (t : ThreadId) (value error : Ty)
    (node : Node H.Data H.Fn) (future : FutureId) (id : ChannelId) (stack : List (Return H)) :
    Prop where
  makes : r.MakesFuture m value error node future
  lt : m < k
  alone : r.LeavesAlone m k future
  polls : r.Turns k t (.run (.request (.poll value error future))) stack
  channel : (r.world k).heap.channels.size = id

/-- What has become by time `n` of a future that was first polled at time `k`: it runs; or it has
been dropped; or its first poll has come back with the panic of a submission; or a poll has brought
what the interpretation has ended with, which was started at `p`; or a poll has found that nobody
could end it any more. -/
inductive Fate (r : Run H) (k n : Nat) (value error : Ty) (future : FutureId) (id : ChannelId)
    (p : Place) : Prop where
  | runs :
      (r.world n).heap.futures[future]? = some (.running id) → Fate r k n value error future id p
  | dropped {j : Nat} {t : ThreadId} :
      k < j → j < n → r.Does j t (.request (.dropFuture future)) →
        Fate r k n value error future id p
  | panicked {m : Nat} {t : ThreadId} {stack : List (Return H)} {payload : Payload} :
      m ≤ n → r.Turns k t (.run (.request (.poll value error future))) stack →
        r.CallEnds k m t (.error payload) stack → r.Refused (k + 1) p m (.error payload) →
          Fate r k n value error future id p
  | brought {k' m c : Nat} {t : ThreadId} {stack : List (Return H)}
      {exit : Exit (Outcome H.Data H.Fn)} :
      k ≤ k' → m ≤ n → r.Turns k' t (.run (.request (.poll value error future))) stack →
        r.CallEnds k' m t (exit.polled value error) stack → r.EndsAt (k + 1) p c exit →
          Fate r k n value error future id p
  | lost {j : Nat} :
      k < j → j < n → (r.world j).hasSender id = false →
        (∀ c exit, r.EndsAt (k + 1) p c exit → k + 1 + c < j → ∃ d, d < n ∧ r.Drops d id) →
          Fate r k n value error future id p

section First

variable {node : Node H.Data H.Fn} {p : Place} (hstart : (r.world 0).Starting)
  (hfirst : r.PollsFirst m k t value error node future id stack)

include hstart hfirst

theorem PollsFirst.fresh : (r.world k).heap.futures[future]? = some (.fresh node) :=
  hfirst.makes.fresh hstart hfirst.lt hfirst.alone

theorem PollsFirst.opens : r.Opens k (.poll value error future) id ∧
    ∃ name, (r.world (k + 1)).threads[t]? = some ⟨name,
      .run (.drive (.start node) ∅ (.channel value error id)),
        .polling value error future id :: stack⟩ := by
  obtain ⟨name, hopens, ht⟩ := opens_of_polls hfirst.polls (hfirst.fresh hstart)
  rw [hfirst.channel] at hopens ht
  exact ⟨hopens, name, ht⟩

theorem PollsFirst.isInterpreting : r.IsInterpreting (k + 1) t value error future id stack := by
  obtain ⟨-, name, ht⟩ := hfirst.opens hstart
  exact ⟨_, ht, .runs rfl⟩

/-- The first poll of a future starts the interpretation of its effect. -/
theorem PollsFirst.begins :
    r.BeginsAt k (.thread t (stack.length + 1)) node (.channel value error id) := by
  obtain ⟨-, name, ht⟩ := hfirst.opens hstart
  exact begins_of_turns hfirst.polls rfl (fun _ _ => rfl) ht (Nat.le_succ _)

/-- Only the first poll starts one. -/
theorem PollsFirst.begins_iff {t' : ThreadId} {value' error' : Ty} {q : Place}
    {node' : Node H.Data H.Fn} {finish : Finish H.Fn}
    (hpolls : r.Does n t' (.request (.poll value' error' future))) :
    r.BeginsAt n q node' finish ↔ n = k ∧ q = .thread t (stack.length + 1) ∧ node' = node ∧
      finish = .channel value error id := by
  constructor
  · intro hbegins
    obtain ⟨t₀, name, task, stack₀, -, haction, -, ht, hstarts⟩ := hbegins.starts
    obtain ⟨-, rfl⟩ := hpolls.unique ⟨haction, name, stack₀, ht⟩
    cases hstarts with
    | poll hfuture =>
        obtain ⟨halone, rfl⟩ := hfirst.makes.of_fresh hstart hfuture
        have hmn := hfirst.makes.lt_of_some hfuture
        have hnk : n = k := by
          rcases Nat.lt_trichotomy n k with hlt | heq | hlt
          · exact absurd (.inl ⟨t', _, _, hpolls⟩) (hfirst.alone n hmn hlt)
          · exact heq
          · exact absurd (.inl ⟨t, _, _, hfirst.polls.does⟩) (halone k hfirst.lt hlt)
        subst hnk
        obtain ⟨rfl, -⟩ := hbegins.unique (hfirst.begins hstart)
        have hat := hbegins.pendingAt.symm.trans (hfirst.begins hstart).pendingAt
        exact ⟨rfl, rfl, rfl, (Prod.mk.inj (Option.some.inj hat)).2⟩
  · rintro ⟨rfl, rfl, rfl, rfl⟩
    exact hfirst.begins hstart

/-- After its first poll a future runs on the channel of this poll, or does not run. -/
theorem PollsFirst.running (hkn : k < n) : ∃ x, (r.world n).heap.futures[future]? = some x ∧
    ∀ id', x = .running id' → id' = id := by
  induction hkn with
  | refl =>
      obtain ⟨x', hx', ⟨-, hnobody⟩ | ⟨_, _, _, _, _, _, -, rfl⟩ |
        ⟨t', task, stack', hturns, hhandles⟩⟩ := future_next (hfirst.fresh hstart)
      · exact absurd hfirst.polls.does (hnobody t _)
      · exact ⟨_, hx', by simp⟩
      · refine ⟨x', hx', ?_⟩
        obtain ⟨-, rfl⟩ := hfirst.polls.does.unique hturns.does
        cases hhandles with
        | leaves hpoll => exact absurd rfl (hpoll value error node rfl)
        | starts =>
            rintro id' heq
            rw [← Future.running.inj heq, hfirst.channel]
        | _ => simp
  | @step n hkn ih =>
      obtain ⟨x, hx, hid⟩ := ih
      obtain ⟨x', hx', ⟨rfl, -⟩ | ⟨_, _, _, _, _, _, -, rfl⟩ |
        ⟨t', task, stack', hturns, hhandles⟩⟩ := future_next hx
      · exact ⟨_, hx', hid⟩
      · exact ⟨_, hx', by simp⟩
      · refine ⟨x', hx', ?_⟩
        cases hhandles with
        | leaves => exact hid
        | starts _ hfresh =>
            obtain ⟨halone, -⟩ := hfirst.makes.of_fresh hstart (hfresh ▸ hx)
            exact absurd (.inl ⟨t, _, _, hfirst.polls.does⟩) (halone k hfirst.lt hkn)
        | _ => simp

/-- Nothing else drops the channel of a future. -/
theorem PollsFirst.of_drops (h : r.Drops n id) :
    k < n ∧ ∃ t, r.Does n t (.request (.dropFuture future)) := by
  obtain ⟨t', future', hdoes, hrunning⟩ := h
  obtain ⟨k', value', error', hk', hopens⟩ := exists_opens_of_running hstart hrunning
  obtain ⟨rfl, heq⟩ := hopens.unique (hfirst.opens hstart).1
  obtain ⟨-, -, rfl⟩ := Request.poll.inj heq
  exact ⟨hk', t', hdoes⟩

variable (hprivate : r.IsPrivate id) (hpolled : r.PollsAt value error future)
  (htyped : r.EndsTyped (k + 1) (.thread t (stack.length + 1)) value error)

include hprivate hpolled htyped

/-- A poll that is under way is made at the types of the effect and has to do with the channel of
the first poll. It is the first poll itself, or looks for the exit. -/
theorem PollsFirst.course {k' : Nat} {t' : ThreadId} {value' error' : Ty} {id' : ChannelId}
    {stack' : List (Return H)} (h : r.IsPolling k' n t' value' error' future id' stack') :
    value' = value ∧ error' = error ∧ id' = id ∧ k ≤ k' ∧
      ((k' = k ∧ t' = t ∧ stack' = stack ∧ r.Begun (k + 1) (.thread t (stack.length + 1)) k n t
          value error future id stack) ∨
        r.Looks k' n t' value error future id stack') := by
  obtain ⟨rfl, rfl⟩ := hpolled k' t' value' error' h.polls.does
  have hmk := hfirst.makes.lt_of_isPolling h
  have hback {m : Nat} {reply : Except Payload (Value H.Data H.Fn)} (hm : m ≤ n) :
      ¬r.CallEnds k' m t' reply stack' :=
    fun hcall => hcall.back.not_above (h.above m hcall.lt hm)
  rcases Nat.lt_trichotomy k' k with hlt | rfl | hlt
  · exact absurd (.inl ⟨t', _, _, h.polls.does⟩) (hfirst.alone k' hmk hlt)
  · obtain ⟨rfl, -⟩ := h.polls.does.unique hfirst.polls.does
    obtain ⟨-, rfl⟩ := h.polls.unique hfirst.polls
    have hid : id' = id := by
      rcases h.running with hrunning | ⟨-, hsize⟩
      · rw [hfirst.fresh hstart] at hrunning
        cases hrunning
      · exact hsize.trans hfirst.channel
    refine ⟨rfl, rfl, hid, Nat.le_refl _, .inl ⟨rfl, rfl, rfl, ?_⟩⟩
    rcases begun_course hstart hprivate (hfirst.begins hstart).pendingAt htyped rfl
      (hfirst.isInterpreting hstart) h.lt with hbegun | ⟨m', reply, hm', -, hcall⟩
    · exact hbegun
    · exact absurd hcall (hback hm')
  · obtain ⟨x, hx, hid⟩ := hfirst.running hstart hlt
    have hrunning : (r.world k').heap.futures[future]? = some (.running id') := by
      rcases h.running with hrunning | ⟨⟨node', hfresh⟩, -⟩
      · exact hrunning
      · obtain ⟨halone, -⟩ := hfirst.makes.of_fresh hstart hfresh
        exact absurd (.inl ⟨t, _, _, hfirst.polls.does⟩) (halone k hfirst.lt hlt)
    obtain rfl := hid id' (Option.some.inj (hx.symm.trans hrunning))
    refine ⟨rfl, rfl, rfl, Nat.le_of_lt hlt, .inr ?_⟩
    rcases looks_course hstart hprivate (hfirst.begins hstart).pendingAt htyped
      (looks_of_polls h.polls hrunning) h.lt with hlooks | ⟨m', reply, hm', -, hcall⟩
    · exact hlooks
    · exact absurd hcall (hback hm')

/-- Whoever looks for the exit of a future has polled it, at the types of its effect, and looks into
the channel of the first poll. -/
theorem PollsFirst.looks {t' : ThreadId} {task : Task H} {value' error' : Ty} {id' : ChannelId}
    {stack' : List (Return H)} (hturns : r.Turns n t' (.run task) stack')
    (hlook : task.IsLook value' error' future id') :
    value' = value ∧ error' = error ∧ id' = id ∧ ∃ k', k ≤ k' ∧ k' < n ∧
      r.Turns k' t' (.run (.request (.poll value error future))) stack' ∧
        (∀ j, k' < j → j ≤ n → r.IsAbove j t' stack') ∧
          r.Looks k' n t' value error future id stack' := by
  have hturns' := hturns
  obtain ⟨-, name, ht⟩ := hturns'
  obtain ⟨k', hk'⟩ := (hasPolled hstart ht).held (List.mem_singleton_self _) hlook
  obtain ⟨rfl, rfl, rfl, hkk', hcourse⟩ := hfirst.course hstart hprivate hpolled htyped hk'
  refine ⟨rfl, rfl, rfl, k', hkk', hk'.lt, hk'.polls, hk'.above, ?_⟩
  rcases hcourse with ⟨rfl, rfl, rfl, hbegun⟩ | hlooks
  · cases hbegun with
    | looks h => exact h
    | interprets h =>
        obtain ⟨thread, ht', hinterprets⟩ := h
        obtain rfl := Option.some.inj (ht.symm.trans ht')
        obtain ⟨above, hstack⟩ := hinterprets.exists_above
        have hlength := congrArg List.length hstack
        simp only [List.length_append, List.length_cons] at hlength
        omega
    | panics _ _ hback =>
        obtain ⟨name', ht'⟩ := hback
        cases (Thread.mk.inj (Option.some.inj (ht.symm.trans ht'))).2.1
  · exact hlooks

/-- Only the first poll comes back without looking for the exit, with the panic of a submission. -/
theorem PollsFirst.panics {t' : ThreadId} {payload : Payload} {value' error' : Ty} {id' : ChannelId}
    {stack' : List (Return H)}
    (hturns : r.Turns n t' (.raise payload) (.polling value' error' future id' :: stack')) :
    r.CallEnds k (n + 1) t (.error payload) stack ∧
      r.Refused (k + 1) (.thread t (stack.length + 1)) (n + 1) (.error payload) := by
  obtain ⟨haction, name, ht⟩ := hturns
  obtain ⟨k', hk'⟩ := (hasPolled hstart ht).stack (List.mem_singleton_self _) (.inl rfl)
    List.suffix_rfl
  obtain ⟨rfl, rfl, rfl, -, hcourse⟩ := hfirst.course hstart hprivate hpolled htyped hk'
  obtain ⟨-, hnext⟩ := next_of_action haction ht rfl
  rcases hcourse with ⟨rfl, rfl, rfl, hbegun⟩ | hlooks
  · refine ⟨⟨Nat.lt_succ_of_lt hk'.lt, fun j hkj hj => hk'.above j hkj (Nat.le_of_lt_succ hj), name,
      hnext⟩, ?_⟩
    cases hbegun with
    | interprets h =>
        obtain ⟨thread, ht', hinterprets⟩ := h
        obtain rfl := Option.some.inj (ht.symm.trans ht')
        exact absurd hinterprets Thread.Interprets.not_raises
    | panics hletsGo hj hback =>
        obtain ⟨name', ht'⟩ := hback
        obtain ⟨-, hcontrol, -⟩ := Thread.mk.inj (Option.some.inj (ht.symm.trans ht'))
        obtain rfl := Control.raise.inj hcontrol
        exact ⟨_, _, hletsGo, Nat.lt_succ_of_lt hj, rfl⟩
    | looks h => exact absurd (h.stack_eq ht) (List.cons_ne_self _ _)
  · exact absurd (hlooks.stack_eq ht) (List.cons_ne_self _ _)

/-- A poll that finds an exit in the channel comes back with it. -/
theorem PollsFirst.brings {t' : ThreadId} {value' error' : Ty} {id' : ChannelId}
    {stack' : List (Return H)} {exit : Exit (Outcome H.Data H.Fn)}
    (hturns : r.Turns n t' (.run (.collect value' error' future id')) stack')
    (hreceived : (r.world n).heap.received? id' = some exit) :
    value' = value ∧ error' = error ∧ id' = id ∧ ∃ k', k ≤ k' ∧
      r.Turns k' t' (.run (.request (.poll value error future))) stack' ∧
        r.CallEnds k' (n + 1) t' (exit.polled value error) stack' := by
  obtain ⟨rfl, rfl, rfl, k', hkk', hlt, hpolls, habove, -⟩ :=
    hfirst.looks hstart hprivate hpolled htyped hturns (.inl rfl)
  obtain ⟨haction, name, ht⟩ := hturns
  obtain ⟨-, hnext⟩ := next_of_action haction ht rfl
  rw [Task.turn_collect hreceived] at hnext
  refine ⟨rfl, rfl, rfl, k', hkk', hpolls, Nat.lt_succ_of_lt hlt, fun j hkj hj => ?_, name, hnext⟩
  exact habove j hkj (Nat.le_of_lt_succ hj)

/-- Only five things become of a future that has been polled. -/
theorem PollsFirst.fate (hkn : k < n) :
    r.Fate k n value error future id (.thread t (stack.length + 1)) := by
  induction hkn with
  | refl =>
      obtain ⟨x', hx', ⟨-, hnobody⟩ | ⟨t', payload, _, _, _, _, hturns, -⟩ |
        ⟨t', task, stack', hturns, hhandles⟩⟩ := future_next (hfirst.fresh hstart)
      · exact absurd hfirst.polls.does (hnobody t _)
      · obtain ⟨hcall, hrefused⟩ := hfirst.panics hstart hprivate hpolled htyped hturns
        exact .panicked (Nat.le_refl _) hfirst.polls hcall hrefused
      · obtain ⟨-, rfl⟩ := hfirst.polls.does.unique hturns.does
        cases hhandles with
        | leaves hpoll => exact absurd rfl (hpoll value error node rfl)
        | starts => exact .runs (hfirst.channel ▸ hx')
        | drops htask => cases htask
        | collects htask => cases htask
        | hangs htask => cases htask
  | @step n hkn ih =>
      cases ih with
      | runs hrunning =>
          obtain ⟨x', hx', ⟨rfl, -⟩ | ⟨t', payload, _, _, _, _, hturns, -⟩ |
            ⟨t', task, stack', hturns, hhandles⟩⟩ := future_next hrunning
          · exact .runs hx'
          · obtain ⟨hcall, hrefused⟩ := hfirst.panics hstart hprivate hpolled htyped hturns
            exact .panicked (Nat.le_refl _) hfirst.polls hcall hrefused
          · cases hhandles with
            | leaves => exact .runs hx'
            | starts _ hfresh => cases hfresh
            | drops htask =>
                subst htask
                exact .dropped hkn (Nat.lt_succ_self n) hturns.does
            | collects htask hreceived =>
                subst htask
                obtain ⟨rfl, rfl, rfl, k', hkk', hpolls, hcall⟩ :=
                  hfirst.brings hstart hprivate hpolled htyped hturns hreceived
                obtain ⟨c, -, hends⟩ := exists_endsAt_of_received hstart hprivate
                  (hfirst.begins hstart).pendingAt htyped hreceived
                exact .brought hkk' (Nat.le_refl _) hpolls hcall hends
            | hangs htask hnone =>
                subst htask
                obtain ⟨rfl, rfl, rfl, k', hkk', -, -, -, hlooks⟩ :=
                  hfirst.looks hstart hprivate hpolled htyped hturns (.inr rfl)
                obtain ⟨-, name, ht⟩ := hturns
                obtain ⟨j, hkj, hjn, hlost⟩ := hlooks.foundLost ht
                refine .lost (Nat.lt_of_le_of_lt hkk' hkj) (Nat.lt_succ_of_lt hjn) hlost
                  fun c exit hends hc => ?_
                by_contra hkept
                rw [hends.received hstart hprivate (hfirst.begins hstart).pendingAt htyped
                  (fun d hd hdrops => hkept ⟨d, Nat.lt_succ_of_lt hd, hdrops⟩) (by omega)] at hnone
                contradiction
      | dropped hkj hjn hdrops => exact .dropped hkj (Nat.lt_succ_of_lt hjn) hdrops
      | panicked hmn hpolls hcall hrefused =>
          exact .panicked (Nat.le_succ_of_le hmn) hpolls hcall hrefused
      | brought hkk' hmn hpolls hcall hends =>
          exact .brought hkk' (Nat.le_succ_of_le hmn) hpolls hcall hends
      | lost hkj hjn hlost hends =>
          refine .lost hkj (Nat.lt_succ_of_lt hjn) hlost fun c exit hc hlt => ?_
          obtain ⟨d, hd, hdrops⟩ := hends c exit hc hlt
          exact ⟨d, Nat.lt_succ_of_lt hd, hdrops⟩

variable {reply : Except Payload (Value H.Data H.Fn)}

omit hpolled in
/-- A first poll that comes back with the panic of a submission leaves the future useless. -/
theorem PollsFirst.finished_of_refused {m' : Nat} (hcall : r.CallEnds k m' t reply stack)
    (hrefused : r.Refused (k + 1) (.thread t (stack.length + 1)) m' reply) :
    (r.world m').heap.futures[future]? = some .finished := by
  have hp := (hfirst.begins hstart).pendingAt
  have hkm := hcall.lt
  have habove : ¬r.IsAbove m' t stack := hcall.back.not_above
  obtain ⟨l, rfl⟩ : ∃ l, m' = l + 1 := ⟨m' - 1, by omega⟩
  have hkl : k < l := by
    refine Nat.lt_of_le_of_ne (Nat.le_of_lt_succ hkm) fun heq => habove ?_
    obtain ⟨thread, ht, hinterprets⟩ := hfirst.isInterpreting hstart
    exact ⟨thread, heq ▸ ht, hinterprets.isAbove⟩
  obtain ⟨j, payload, hletsGo, -, rfl⟩ := hrefused
  rcases begun_course hstart hprivate hp htyped rfl (hfirst.isInterpreting hstart) hkl with
    hbegun | ⟨m', reply, hm', -, hcall'⟩
  · cases hbegun with
    | panics _ _ hback =>
        obtain ⟨name, ht⟩ := hback
        rcases next_of_turn ht rfl with ⟨-, hsame⟩ | ⟨-, hheap, -⟩
        · exact absurd ⟨_, hsame, [.polling value error future id], rfl, by simp⟩ habove
        · obtain ⟨x, hx, -⟩ := hfirst.running hstart hkl
          rw [hheap]
          exact Heap.futures_setFuture_self _ hx _
    | interprets h =>
        obtain ⟨thread, ht, hinterprets⟩ := h
        rcases interprets_next hstart hprivate hp htyped Return.goesOnWith_polling hkl ht
          hinterprets with ⟨thread', ht', hinterprets'⟩ | ⟨name, hback⟩ |
            ⟨_, _, -, -, -, name, hback⟩
        · exact absurd ⟨thread', ht', hinterprets'.isAbove⟩ habove
        · exact absurd ⟨_, hback, [], rfl, by simp [Control.held]⟩ habove
        · exact absurd ⟨_, hback, [.polling value error future id], rfl, by simp⟩ habove
    | looks h =>
        rcases finds_next hstart hprivate hp htyped hkl h with hlooks | ⟨reply, hfinds, name, hback⟩
        · exact absurd hlooks.isAbove habove
        · obtain ⟨name', hback'⟩ := hcall.back
          obtain ⟨-, hreply, -⟩ := Thread.mk.inj (Option.some.inj (hback.symm.trans hback'))
          cases hfinds with
          | pending => cases Control.replied_injective hreply
          | ended hends => exact absurd hends (hletsGo.not_endsAt hp _ _)
  · exact absurd hm' (by have := (hcall.unique hcall').1; omega)

/-- It stays so if nobody polls it meanwhile. -/
theorem PollsFirst.finished {m' : Nat} (hcall : r.CallEnds k m' t reply stack)
    (hrefused : r.Refused (k + 1) (.thread t (stack.length + 1)) m' reply)
    (halone : r.LeavesAlone k m' future) (hmn : m' ≤ n) :
    ∀ j, m' ≤ j → j ≤ n → (r.world j).heap.futures[future]? = some .finished := by
  induction hmn with
  | refl =>
      intro j hmj hj
      obtain rfl := Nat.le_antisymm hmj hj
      exact hfirst.finished_of_refused hstart hprivate htyped hcall hrefused
  | @step n hmn ih =>
      intro j hmj hj
      rcases Nat.le_succ_iff.1 hj with hjn | rfl
      · exact ih j hmj hjn
      obtain ⟨x', hx', ⟨rfl, -⟩ | ⟨_, _, _, _, _, _, -, rfl⟩ |
        ⟨t', task, stack', hturns, hhandles⟩⟩ :=
        future_next (ih n hmn (Nat.le_refl n))
      · exact hx'
      · exact hx'
      cases hhandles with
      | leaves => exact hx'
      | starts _ hfresh => cases hfresh
      | drops => exact hx'
      | collects => exact hx'
      | hangs htask =>
          -- Whoever warns now has polled a future that ran.
          subst htask
          obtain ⟨-, name, ht⟩ := hturns
          obtain ⟨k', hk'⟩ := (hasPolled hstart ht).held (List.mem_singleton_self _) (.inr rfl)
          obtain ⟨rfl, rfl, rfl, hkk', -⟩ := hfirst.course hstart hprivate hpolled htyped hk'
          rcases Nat.lt_or_eq_of_le hkk' with hlt | rfl
          · rcases Nat.lt_or_ge k' m' with hk'm | hmk'
            · exact absurd (.inl ⟨t', _, _, hk'.polls.does⟩) (halone k' hlt hk'm)
            · have hover := ih k' hmk' (Nat.le_of_lt hk'.lt)
              rcases hk'.running with hrunning | ⟨⟨node', hfresh⟩, -⟩
              · cases hover.symm.trans hrunning
              · cases hover.symm.trans hfresh
          · obtain ⟨rfl, -⟩ := hk'.polls.does.unique hfirst.polls.does
            obtain ⟨-, rfl⟩ := hk'.polls.unique hfirst.polls
            exact absurd (hk'.above m' hcall.lt hmn) hcall.back.not_above

end First

/-- An action starts no interpretation, and makes no difference to any that is under way. -/
structure Spares (r : Run H) (n : Nat) : Prop where
  starts {p : Place} {node : Node H.Data H.Fn} {finish : Finish H.Fn} : ¬r.BeginsAt n p node finish
  keeps {b j : Nat} {p : Place} {x : Pending H.Data H.Fn} : (r.world b).pendingAt p = some x →
    b + j = n → r.deeds b p j = [] ∧ r.stage b p (j + 1) = r.stage b p j

theorem spares_of_does {q : Request H.Data H.Fn} (hdoes : r.Does n t (.request q))
    (hstarts : ∀ node finish, ¬(Task.request q).Starts (r.world n).heap node finish) :
    r.Spares n where
  starts {p node finish} hbegins := by
    obtain ⟨t', name, task, stack, -, haction, -, ht, h⟩ := hbegins.starts
    obtain ⟨-, rfl⟩ := hdoes.unique ⟨haction, name, stack, ht⟩
    exact hstarts node finish h
  keeps {b j p x} hp hn := by
    subst hn
    obtain ⟨haction, name, stack, ht⟩ := hdoes
    have hshift : (r.world (b + j)).shift (r.action (b + j)) = .stay := by
      rw [haction, World.shift_thread ht]
      rfl
    constructor
    · cases hplace : r.place b p j with
      | none => simp [deeds, hplace]
      | some q => simp [deeds, hplace, World.deeds, hshift]
    · cases hstage : r.stage b p j with
      | none => exact r.stage_eq_none_of_le hp hstage (Nat.le_succ j)
      | some stage =>
          obtain ⟨q, hplace, hat⟩ := (r.stage_eq_some hp).1 hstage
          refine (r.stage_eq_some hp).2 ⟨q, ?_, ?_⟩
          · simp [place, hplace, World.next?, hshift]
          · have hacts := r.acts (b + j)
            rw [hshift] at hacts
            cases hacts with
            | keep _ _ hsame => exact (hsame q).trans hat
            | start _ hfree hputs =>
                rw [show b + (j + 1) = b + j + 1 from rfl, hputs q]
                split
                · rename_i heq
                  rw [heq, hfree] at hat
                  contradiction
                · exact hat

end Run

/-- What the objects are when a future has been dropped: it is over, and nobody receives any more
what is sent through its channel. -/
def Heap.dropped {D F : Type} (heap : Heap D F) (future : FutureId) : Heap D F :=
  match heap.futures[future]? with
  | some (.running id) => (heap.setChannel id .closed).setFuture future .finished
  | _ => heap.setFuture future .finished

theorem Request.turn_dropFuture (stack : List (Return H)) (heap : Heap H.Data H.Fn)
    (future : FutureId) :
    (Request.dropFuture future).turn (H := H) stack heap = .ret (heap.dropped future) .unit := by
  rcases hfuture : heap.futures[future]? with _ | x
  · simp only [turn, Heap.dropped, hfuture]
  · cases x <;> simp only [turn, Heap.dropped, hfuture]

theorem Exit.polled_ne_pending {D F : Type} (value error : Ty) (exit : Exit (Outcome D F)) :
    exit.polled value error ≠ .ok (.pending value error) := by
  cases exit <;> simp [polled, reply, Except.map, Value.pending]

namespace Run

variable {r : Run H} {k n m : Nat} {t : ThreadId}

/-- What comes of the interpretation that the first poll of a future has started, at `p` at time
`k`. -/
structure Conducts (r : Run H) (k : Nat) (t : ThreadId) (value error : Ty) (node : Node H.Data H.Fn)
    (future : FutureId) (id : ChannelId) (stack : List (Return H)) (p : Place) : Prop where
  /-- Of all polls only the first one starts an interpretation, and this is one of the effect. -/
  begins {n : Nat} {t' : ThreadId} {value' error' : Ty} {q : Place} {node' : Node H.Data H.Fn}
      {finish : Finish H.Fn} :
    r.Does n t' (.request (.poll value' error' future)) →
      (r.BeginsAt n q node' finish ↔
        n = k ∧ q = p ∧ node' = node ∧ finish = .channel value error id)
  /-- No other one ends into the channel, -/
  alone {n : Nat} {q : Place} {node' : Node H.Data H.Fn} :
    r.BeginsAt n q node' (.channel value error id) → n = k ∧ q = p ∧ node' = node
  /-- and it ends once at most. -/
  once {c c' : Nat} {exit exit' : Exit (Outcome H.Data H.Fn)} :
    r.EndsAt (k + 1) p c exit → r.EndsAt (k + 1) p c' exit' → c = c' ∧ exit = exit'
  /-- The first poll brings nothing before the end and the exit afterwards, or the panic of a
  submission. -/
  first {m : Nat} {reply : Except Payload (Value H.Data H.Fn)} : r.CallEnds k m t reply stack →
    r.Finds (k + 1) p value error id k m reply ∨ r.Refused (k + 1) p m reply
  /-- An interpretation that a submission has let go of never ends. -/
  refused {m : Nat} {reply : Except Payload (Value H.Data H.Fn)} : r.Refused (k + 1) p m reply →
    ∀ c exit, ¬r.EndsAt (k + 1) p c exit
  /-- It comes back unless its thread goes on with the interpretation for all time. -/
  comesBack : r.Fair → (∃ m reply, r.CallEnds k m t reply stack) ∨ r.DropsDuring k t id stack ∨
    (∀ n, k < n → r.IsInterpreting n t value error future id stack) ∧
      ∀ c exit, ¬r.EndsAt (k + 1) p c exit
  /-- A later poll brings nothing before the end and the exit afterwards, and comes back. -/
  later {k' : Nat} {t' : ThreadId} {stack' : List (Return H)} : k < k' →
    r.Turns k' t' (.run (.request (.poll value error future))) stack' →
      (r.world k').heap.futures[future]? = some (.running id) →
        (∀ m reply, r.CallEnds k' m t' reply stack' →
          r.Finds (k + 1) p value error id k' m reply) ∧
        (r.Fair → (∃ m reply, r.CallEnds k' m t' reply stack') ∨ r.DropsDuring k' t' id stack')
  /-- When nobody can end the interpretation any more, polls bring nothing. -/
  hung {k' : Nat} {t' : ThreadId} {stack' : List (Return H)} :
    r.Turns k' t' (.run (.request (.poll value error future))) stack' →
      (r.world k').heap.futures[future]? = some .hung →
        r.CallEnds k' (k' + 1) t' (.ok (.pending value error)) stack'
  /-- When the first poll has come back with the panic of a submission, and nobody else has polled
  the future meanwhile, later polls panic too. -/
  poisoned {m k' : Nat} {t' : ThreadId} {reply : Except Payload (Value H.Data H.Fn)}
      {stack' : List (Return H)} :
    r.CallEnds k m t reply stack → r.Refused (k + 1) p m reply → r.LeavesAlone k m future →
      m ≤ k' → r.Turns k' t' (.run (.request (.poll value error future))) stack' →
        r.CallEnds k' (k' + 1) t' (.error polledAgain) stack'
  fate {n : Nat} : k < n → r.Fate k n value error future id p
  /-- The first poll that looks after the end brings the exit. -/
  after {c k' : Nat} {exit : Exit (Outcome H.Data H.Fn)} {t' : ThreadId}
      {stack' : List (Return H)} :
    r.EndsAt (k + 1) p c exit → r.HoldsSender (k + 1) p id → k + 1 + c < k' →
      r.Turns k' t' (.run (.request (.poll value error future))) stack' →
        (∀ j t, j < k' → k < j → ¬r.Does j t (.request (.dropFuture future))) →
          (∀ j l t stack reply, l ≤ k' →
            r.Turns j t (.run (.request (.poll value error future))) stack →
            r.CallEnds j l t reply stack → reply = .ok (.pending value error)) → r.Fair →
              (∃ m, r.CallEnds k' m t' (exit.polled value error) stack') ∨
                r.DropsDuring k' t' id stack'
  /-- Whoever polls or drops the future, it does what it does in every setting that it suits. -/
  shows {U σ : Type} {S : Setting H.Data H.Fn U σ} {s : σ} : r.Suits S s (k + 1) p →
    Sight.Agree (r.shown S s (k + 1) p) fun n => S.seen n s (.start node)

/-- The future that is made at time `m` runs its effect when it is first polled. -/
structure IsLazy (r : Run H) (m : Nat) (value error : Ty) (node : Node H.Data H.Fn)
    (future : FutureId) : Prop where
  /-- The effect is put into the future, and nothing else is done. -/
  made : r.Spares m ∧ ∃ t, (r.world m).Changes (r.world (m + 1)) t
    (.run (.request (.runAsync value error node))) (.ret (.future value error future))
      { (r.world m).heap with futures := (r.world m).heap.futures.push (.fresh node) }
  waits {n : Nat} : m < n → r.LeavesAlone m n future →
    (r.world n).heap.futures[future]? = some (.fresh node)
  /-- A poll starts an interpretation if the future has been neither polled nor dropped before. -/
  starts {n : Nat} {t : ThreadId} {value' error' : Ty} : m < n →
    r.Does n t (.request (.poll value' error' future)) →
      ((∃ p node finish, r.BeginsAt n p node finish) ↔ r.LeavesAlone m n future)
  first {k : Nat} {t : ThreadId} {stack : List (Return H)} : m < k → r.LeavesAlone m k future →
    r.Turns k t (.run (.request (.poll value error future))) stack →
      r.Conducts k t value error node future (r.world k).heap.channels.size stack
        (.thread t (stack.length + 1))
  /-- Who drops the future makes no difference to any interpretation. -/
  drops {n : Nat} {t : ThreadId} : r.Does n t (.request (.dropFuture future)) →
    r.Spares n ∧ (r.world n).Changes (r.world (n + 1)) t (.run (.request (.dropFuture future)))
      (.ret .unit) ((r.world n).heap.dropped future)

section Lazy

variable {node : Node H.Data H.Fn} (hstart : (r.world 0).Starting)
  (hpolled : r.PollsAt value error future)

include hstart hpolled

theorem PollsFirst.after (hfirst : r.PollsFirst m k t value error node future id stack)
    (hprivate : r.IsPrivate id)
    (htyped : r.EndsTyped (k + 1) (.thread t (stack.length + 1)) value error) {c k' : Nat}
    {exit : Exit (Outcome H.Data H.Fn)} {t' : ThreadId} {stack' : List (Return H)}
    (hends : r.EndsAt (k + 1) (.thread t (stack.length + 1)) c exit)
    (hsender : r.HoldsSender (k + 1) (.thread t (stack.length + 1)) id) (hk' : k + 1 + c < k')
    (hpolls : r.Turns k' t' (.run (.request (.poll value error future))) stack')
    (hkept : ∀ j t, j < k' → k < j → ¬r.Does j t (.request (.dropFuture future)))
    (hearlier : ∀ j l t stack reply, l ≤ k' →
      r.Turns j t (.run (.request (.poll value error future))) stack →
        r.CallEnds j l t reply stack → reply = .ok (.pending value error)) (hfair : r.Fair) :
    (∃ m, r.CallEnds k' m t' (exit.polled value error) stack') ∨ r.DropsDuring k' t' id stack' := by
  have hp := (hfirst.begins hstart).pendingAt
  have hkept' (d : Nat) (hd : d ≤ k') : ¬r.Drops d id := by
    intro hdrops
    obtain ⟨hkd, t₀, hdoes⟩ := hfirst.of_drops hstart hdrops
    rcases Nat.lt_or_eq_of_le hd with hlt | rfl
    · exact hkept d t₀ hlt hkd hdoes
    · cases (hdoes.unique hpolls.does).2
  cases hfirst.fate hstart hprivate hpolled htyped (show k < k' by omega) with
  | runs hrunning =>
      have hlooks := looks_of_polls hpolls hrunning
      exact hlooks.comesBack_with hstart hprivate hp htyped hfair hends hk'
        hkept'
  | dropped hkj hjk hdoes => exact absurd hdoes (hkept _ _ hjk hkj)
  | panicked hm hpolls' hcall _ => cases hearlier _ _ _ _ _ hm hpolls' hcall
  | brought _ hm hpolls' hcall _ =>
      exact absurd (hearlier _ _ _ _ _ hm hpolls' hcall) (Exit.polled_ne_pending value error _)
  | @lost j hkj hjk hlost hgone =>
      rcases Nat.lt_or_ge (k + 1 + c) j with hlt | hle
      · obtain ⟨d, hd, hdrops⟩ := hgone c exit hends hlt
        exact absurd hdrops (hkept' d (Nat.le_of_lt hd))
      · rw [hsender.keeps hstart hp c exit hends j hkj hle] at hlost
        contradiction

theorem PollsFirst.conducts (hfirst : r.PollsFirst m k t value error node future id stack)
    (hprivate : r.IsPrivate id)
    (htyped : r.EndsTyped (k + 1) (.thread t (stack.length + 1)) value error) :
    r.Conducts k t value error node future id stack (.thread t (stack.length + 1)) where
  begins hdoes := hfirst.begins_iff hstart hdoes
  alone hbegins := (hfirst.begins hstart).channel_unique hstart hprivate hbegins
  once hends hends' := hends.unique (hfirst.begins hstart).pendingAt hends'
  first hcall :=
    (hfirst.isInterpreting hstart).finds hstart hprivate (hfirst.begins hstart).pendingAt htyped rfl
      hcall
  refused hrefused := by
    obtain ⟨j, payload, hletsGo, -, -⟩ := hrefused
    exact hletsGo.not_endsAt (hfirst.begins hstart).pendingAt
  comesBack hfair :=
    (hfirst.isInterpreting hstart).comesBack hstart hprivate (hfirst.begins hstart).pendingAt htyped
      rfl hfair
  later _ hpolls hrunning := by
    have hlooks := looks_of_polls hpolls hrunning
    have hp := (hfirst.begins hstart).pendingAt
    exact ⟨fun m reply hcall => hlooks.finds hstart hprivate hp htyped hcall,
      fun hfair => hlooks.comesBack hstart hprivate hp htyped hfair⟩
  hung hpolls hhung := by
    obtain ⟨haction, name, ht⟩ := hpolls
    obtain ⟨-, hnext⟩ := next_of_action haction ht rfl
    simp only [Task.turn, Request.turn, hhung] at hnext
    exact ⟨Nat.lt_succ_self _, fun j hj hj' => absurd hj' (Nat.not_lt.2 hj), name, hnext⟩
  poisoned hcall hrefused halone hmk' hpolls := by
    have hover := hfirst.finished hstart hprivate hpolled htyped hcall hrefused halone hmk' _ hmk'
      (Nat.le_refl _)
    obtain ⟨haction, name, ht⟩ := hpolls
    obtain ⟨-, hnext⟩ := next_of_action haction ht rfl
    simp only [Task.turn, Request.turn, hover] at hnext
    exact ⟨Nat.lt_succ_self _, fun j hj hj' => absurd hj' (Nat.not_lt.2 hj), name, hnext⟩
  fate hkn := hfirst.fate hstart hprivate hpolled htyped hkn
  after hends hsender hk' hpolls hkept hearlier hfair :=
    hfirst.after hstart hpolled hprivate htyped hends hsender hk' hpolls hkept hearlier hfair
  shows hsuits := hsuits.agree (hfirst.begins hstart).pendingAt

/-- A future starts its effect when it is first polled, and only then; every poll brings nothing
before the effect has ended, and the exit afterwards; and who drops the future makes no difference
to the effect. -/
theorem MakesFuture.isLazy (hmakes : r.MakesFuture m value error node future)
    (hprivate : ∀ id, r.IsPrivate id)
    (htyped : r.IsTyped ∨ ∀ k t stack, r.LeavesAlone m k future →
      r.Turns k t (.run (.request (.poll value error future))) stack →
        r.EndsTyped (k + 1) (.thread t (stack.length + 1)) value error) :
    r.IsLazy m value error node future where
  made := by
    obtain ⟨t, hdoes⟩ := hmakes.1
    exact ⟨spares_of_does hdoes (by rintro _ _ ⟨⟩), hmakes.changes⟩
  waits hmn halone := hmakes.fresh hstart hmn halone
  starts {n t value' error'} hmn hdoes := by
    constructor
    · rintro ⟨p, node', finish, hbegins⟩
      obtain ⟨t', name, task, stack, -, haction, -, ht, hstarts⟩ := hbegins.starts
      obtain ⟨-, rfl⟩ := hdoes.unique ⟨haction, name, stack, ht⟩
      cases hstarts with
      | poll hfuture => exact (hmakes.of_fresh hstart hfuture).1
    · intro halone
      obtain ⟨haction, name, stack, ht⟩ := hdoes
      have hturns : r.Turns n t (.run (.request (.poll value' error' future))) stack :=
        ⟨haction, name, ht⟩
      obtain ⟨_, -, hnext⟩ := opens_of_polls hturns (hmakes.fresh hstart hmn halone)
      exact ⟨_, _, _, begins_of_turns hturns rfl (fun _ _ => rfl) hnext (Nat.le_succ _)⟩
  first {k t stack} hmk halone hpolls := by
    have hfirst : r.PollsFirst m k t value error node future (r.world k).heap.channels.size stack :=
      ⟨hmakes, hmk, halone, hpolls, rfl⟩
    refine hfirst.conducts hstart hpolled (hprivate _) ?_
    rcases htyped with htyped | htyped
    · exact htyped.endsTyped (hfirst.begins hstart).pendingAt
    · exact htyped _ _ _ halone hpolls
  drops {n t} hdoes := by
    exact ⟨spares_of_does hdoes (by rintro _ _ ⟨⟩), hdoes.changes (by simp) fun _ stack =>
      Request.turn_dropFuture stack _ future⟩

end Lazy

end Run

namespace Drill

variable {script : Script} {more : List (Scheduler Nat)} {order : List ThreadId}

/-- A thread whose turn it is takes it if it can. -/
theorem action_of_turn {n : Nat} {t : ThreadId} {thread : Thread (host script)}
    {next : Unit × List (Return (host script)) × Turn (host script)} (hn : order[n]? = some t)
    (ht : ((run script more order).world n).threads[t]? = some thread)
    (hturn : thread.turn? t ((run script more order).world n).heap () = some next) :
    (run script more order).action n = .thread t := by
  have hpick : (order.map Action.thread)[n]?.getD (.time 0) = .thread t := by simp [hn]
  have hdoes : (((run script more order).world n).does (.thread t)).isSome :=
    Option.isSome_iff_exists.2 ⟨_, World.step_of_turn ht hturn⟩
  change Run.enabled ((run script more order).world n)
    ((order.map Action.thread)[n]?.getD (.time 0)) = _
  rw [hpick, Run.enabled, if_pos hdoes]

/-- Whether a task polls a future, for a unit, or drops one only at these times, and hands in no
work. -/
def touchesAt (times : List Nat) (n : Nat) : Task (host script) → Bool
  | .request (.poll value error _) => times.contains n && value = .unit && error = .unit
  | .request (.dropFuture _) => times.contains n
  | .request q => q.work?.isNone
  | _ => true

section Touching

variable {r : Run (host script)} {times : List Nat}
  (h : ∀ n t task, r.Does n t task → touchesAt times n task)

include h

theorem pollsAt_of_touchesAt (future : FutureId) : r.PollsAt .unit .unit future := by
  intro n t value error hdoes
  have hpolls := h _ _ _ hdoes
  simp only [touchesAt, Bool.and_eq_true, decide_eq_true_eq] at hpolls
  exact ⟨hpolls.1.2, hpolls.2⟩

theorem isPrivate_of_touchesAt (id : ChannelId) : r.IsPrivate id := by
  intro n t q work hdoes hwork
  have hnone := h _ _ _ hdoes
  cases q with
  | submit => contradiction
  | perform => contradiction
  | _ => cases hwork

theorem mem_of_touches {n : Nat} {future : FutureId} (htouches : r.Touches n future) :
    n ∈ times := by
  rcases htouches with ⟨t, value, error, hdoes⟩ | ⟨t, hdoes⟩
  · have hpolls := h _ _ _ hdoes
    simp only [touchesAt, Bool.and_eq_true, List.contains_iff_mem] at hpolls
    exact hpolls.1.1
  · simpa [touchesAt] using h _ _ _ hdoes

theorem leavesAlone_of_touchesAt {m n : Nat} (htimes : ∀ j ∈ times, m < j → n ≤ j)
    (future : FutureId) : r.LeavesAlone m n future := by
  intro j hmj hjn htouches
  exact absurd hjn (Nat.not_lt.2 (htimes j (mem_of_touches h htouches) hmj))

end Touching

def waiting : Effect Unit Nat .unit .unit := .asyncOn immediateId ⟨2, ∅⟩

/-- The first thread polls the future of an effect twice, and the second one completes the effect in
between. -/
def polling : Script
  | 0 => [.ask (.runAsync .unit .unit waiting.node), .ask (.poll .unit .unit 0),
      .ask (.poll .unit .unit 0)]
  | 1 => [.ask (.complete (.node 0) (.ok .unit))]
  | _ => []

def polled : Run (host polling) :=
  run polling [] (1 :: (List.replicate 22 0 ++ List.replicate 11 1 ++ List.replicate 6 0))

set_option maxRecDepth 4000 in
theorem polled_touchesAt (n : Nat) (t : ThreadId) (task : Task (host polling))
    (h : polled.Does n t task) : touchesAt [5, 35] n task :=
  check_of_does (by decide) h

/-- Effects end with nothing but the unit, and no future is dropped. -/
def endsWithUnit : Task (host polling) → Bool
  | .conclude (.settled (.ok .unit)) _ => true
  | .conclude _ _ => false
  | .request (.dropFuture _) => false
  | _ => true

theorem polled_endsWithUnit {n : Nat} {t : ThreadId} {task : Task (host polling)}
    (h : polled.Does n t task) : endsWithUnit task = true :=
  check_of_does (c := fun _ => endsWithUnit) (by decide) h

set_option maxRecDepth 4000 in
theorem polled_turns_first :
    polled.Turns 5 0 (.run (.request (.poll .unit .unit 0))) [.user (0, 2)] := ⟨rfl, _, rfl⟩

set_option maxRecDepth 4000 in
theorem polled_endsTyped {k : Nat} {t : ThreadId} {stack : List (Return (host polling))}
    (halone : polled.LeavesAlone 2 k 0)
    (hpolls : polled.Turns k t (.run (.request (.poll .unit .unit 0))) stack) :
    polled.EndsTyped (k + 1) (.thread t (stack.length + 1)) .unit .unit := by
  have hfirst := polled_turns_first
  have hk : k = 5 := by
    have htimes := mem_of_touches polled_touchesAt (.inl ⟨t, _, _, hpolls.does⟩)
    obtain rfl | rfl : k = 5 ∨ k = 35 := by simpa using htimes
    · rfl
    · exact absurd (.inl ⟨0, _, _, hfirst.does⟩) (halone 5 (by decide) (by decide))
  subst hk
  obtain ⟨rfl, -⟩ := hpolls.does.unique hfirst.does
  obtain ⟨-, rfl⟩ := hpolls.unique hfirst
  intro n exit hends
  have hp : (polled.world 6).pendingAt (.thread 0 2) =
      some (.driving (.start waiting.node), .channel .unit .unit 0) := rfl
  obtain ⟨t, hdoes⟩ := Run.exists_does_of_finish hp hends
  intro o heq
  subst heq
  have hexit := polled_endsWithUnit hdoes
  obtain rfl : o = .ok .unit := by
    cases o with
    | error v => contradiction
    | ok v =>
        cases v with
        | unit => rfl
        | _ => contradiction
  rfl

set_option maxRecDepth 4000 in
/-- The second poll brings the outcome. -/
theorem polled_isLazy : polled.IsLazy 2 .unit .unit waiting.node 0 ∧
    ∃ m, polled.CallEnds 35 m 0
      (.ok (.present (.result .unit .unit) (.ok .unit .unit .unit))) [.user (0, 3)] := by
  have hmakes : polled.MakesFuture 2 .unit .unit waiting.node 0 := ⟨⟨0, rfl, _, _, rfl⟩, rfl⟩
  have hlazy := hmakes.isLazy (start_starting polling []) (pollsAt_of_touchesAt polled_touchesAt 0)
    (isPrivate_of_touchesAt polled_touchesAt) (.inr fun k t stack halone hpolls =>
      polled_endsTyped halone hpolls)
  refine ⟨hlazy, ?_⟩
  have halone : polled.LeavesAlone 2 5 0 :=
    leavesAlone_of_touchesAt polled_touchesAt (by decide) 0
  have hconducts := hlazy.first (by decide) halone polled_turns_first
  have hp : (polled.world 6).pendingAt (.thread 0 2) =
      some (.driving (.start waiting.node), .channel .unit .unit 0) := rfl
  have hpolls : polled.Turns 35 0 (.run (.request (.poll .unit .unit 0))) [.user (0, 3)] :=
    ⟨rfl, _, rfl⟩
  have hkept (d : Nat) : ¬polled.Drops d 0 := by
    rintro ⟨t, future, hdoes, -⟩
    exact absurd (polled_endsWithUnit hdoes) (by simp [endsWithUnit])
  have hends : polled.EndsAt 6 (.thread 0 2) 22 (.settled (.ok .unit)) := by
    rw [Run.EndsAt, show polled.deeds 6 (.thread 0 2) 22 = _ from rfl]
    exact List.mem_singleton_self _
  obtain ⟨hfinds, hcomes⟩ := hconducts.later (by decide) hpolls rfl
  obtain ⟨m, reply, hcall⟩ := (hcomes (Run.fair_ofList (by decide))).resolve_right <| by
    rintro ⟨d, -, hdrops, -⟩
    exact hkept d hdrops
  obtain rfl := (hfinds m reply hcall).eq_polled hp hends (by decide) fun d _ => hkept d
  exact ⟨m, hcall⟩

/-- The scheduler starts threads of a name that no thread can have. -/
def refusing : Script
  | 0 => [.ask (.runAsync .unit .unit (Effect.asyncOn 2 ⟨2, ∅⟩ : Effect Unit Nat .unit .unit).node),
      .ask (.poll .unit .unit 0)]
  | _ => []

def refused : Run (host refusing) :=
  run refusing [.ofThreads "a\x00b" none .log] (List.replicate 10 0)

theorem refusal_of_nul :
    ∃ payload, Scheduler.refusal? (Scheduler.threadName "a\x00b" 0) = some payload :=
  ⟨.text "thread name may not contain interior null bytes: NulError(1, [97, 0, 98, 45, 48])",
    by decide +kernel⟩

set_option maxRecDepth 4000 in
/-- The first poll comes back with the panic of a submission, and the effect never ends. -/
theorem refused_panics :
    refused.PollsFirst 1 4 0 .unit .unit
        (Effect.asyncOn 2 ⟨2, ∅⟩ : Effect Unit Nat .unit .unit).node 0 0 [.user (0, 2)] ∧
      (∀ c exit, ¬refused.EndsAt 5 (.thread 0 2) c exit) ∧
        ∃ m payload, refused.CallEnds 4 m 0 (.error payload) [.user (0, 2)] := by
  have hpolls : refused.Turns 4 0 (.run (.request (.poll .unit .unit 0))) [.user (0, 2)] :=
    ⟨rfl, _, rfl⟩
  have htouches (n : Nat) (t : ThreadId) (task : Task (host refusing)) (h : refused.Does n t task) :
      touchesAt [4] n task := check_of_does (by decide +kernel) h
  have halone : refused.LeavesAlone 1 4 0 := leavesAlone_of_touchesAt htouches (by decide) 0
  obtain ⟨payload, hpayload⟩ := refusal_of_nul
  obtain ⟨last, hsubmits⟩ : ∃ last, (refused.world 6).threads[0]? = some
      ⟨none, .run (.submit 2 (.register (.user .unit .unit ⟨(2 : Nat), ∅⟩) 0)),
        [.after (.park 0 [] last (.channel .unit .unit 0)), .polling .unit .unit 0 0,
          .user (0, 2)]⟩ := ⟨_, rfl⟩
  have hscheduler : (refused.world 6).heap.schedulers[2]? =
    some (.ofThreads "a\x00b" none .log) := rfl
  obtain ⟨-, hraises⟩ := Run.next_of_action rfl hsubmits rfl
  simp only [Task.turn, Task.submitTurn, hscheduler, Scheduler.ofThreads, hpayload] at hraises
  have hraises : (refused.world 7).threads[0]? = some ⟨none, .raise payload,
      [.after (.park 0 [] last (.channel .unit .unit 0)), .polling .unit .unit 0 0,
        .user (0, 2)]⟩ := hraises
  have haction : refused.action 7 = .thread 0 := action_of_turn rfl hraises rfl
  obtain ⟨-, hleaves⟩ := Run.next_of_action haction hraises rfl
  have hleaves : (refused.world 8).threads[0]? = some ⟨none, .raise payload,
      [.polling .unit .unit 0 0, .user (0, 2)]⟩ := hleaves
  obtain ⟨-, hback⟩ := Run.next_of_action (action_of_turn rfl hleaves rfl) hleaves rfl
  have hp : (refused.world 5).pendingAt (.thread 0 2) =
      some (.driving (.start (Effect.asyncOn 2 ⟨2, ∅⟩ : Effect Unit Nat .unit .unit).node),
        .channel .unit .unit 0) := rfl
  have hletsGo : refused.LetsGo 5 (.thread 0 2) 2 payload :=
    ⟨0, 0, [], last, _, _, ⟨haction, none, hraises⟩, rfl⟩
  refine ⟨⟨⟨⟨0, rfl, _, _, rfl⟩, rfl⟩, by decide, halone, hpolls, rfl⟩, hletsGo.not_endsAt hp,
    9, payload, by decide, fun j hj hj' => ?_, none, hback⟩
  -- the poll is below the submission, and then below the panic on its way back
  obtain rfl | rfl | rfl | rfl : j = 5 ∨ j = 6 ∨ j = 7 ∨ j = 8 := by omega
  · exact ⟨_, rfl, [.polling .unit .unit 0 0], rfl, by simp⟩
  · exact ⟨_, hsubmits, [_, .polling .unit .unit 0 0], rfl, by simp⟩
  · exact ⟨_, hraises, [_, .polling .unit .unit 0 0], rfl, by simp⟩
  · exact ⟨_, hleaves, [.polling .unit .unit 0 0], rfl, by simp⟩

end Drill

end Trampoline
