import Trampoline.Proofs.Callers

/-!
A future that is polled. The first poll starts the interpretation and every poll looks for its exit,
which it finds once the interpretation has ended; before that it finds nothing.
-/

namespace Trampoline

variable {H : Host}

/-- What a poll gets for the exit of an interpretation: the outcome as a result that is there, or
the panic. -/
def Exit.polled {D F : Type} (value error : Ty) (exit : Exit (Outcome D F)) :
    Except Payload (Value D F) :=
  (exit.reply value error).map (.present (.result value error))

/-- What a poll gets as long as there is no exit. -/
def Value.pending {D F : Type} (value error : Ty) : Value D F := .absent (.result value error)

variable {value error : Ty} {future : FutureId} {id : ChannelId} {stack : List (Return H)}
  {thread : Thread H} {exit : Exit (Outcome H.Data H.Fn)}

theorem Task.turn_collect {heap : Heap H.Data H.Fn} (h : heap.received? id = some exit)
    (here : Here) (stack : List (Return H)) :
    (Task.collect (H := H) value error future id).turn here stack heap =
      ⟨heap.setFuture future .finished, [], .replied (exit.polled value error), none, none⟩ := by
  cases exit with
  | settled o => simp only [turn, h]; rfl
  | panicked payload => simp only [turn, h]; rfl

namespace Run

variable {r : Run H} {k n m : Nat} {t : ThreadId} {name : Option String}

/-- Between two times there has been nothing to be received from a channel at some time. -/
def FoundEmpty (r : Run H) (k n : Nat) (id : ChannelId) : Prop :=
  ∃ j, k < j ∧ j < n ∧ (r.world j).heap.received? id = none

/-- Between two times there has been nobody who could send through a channel at some time. -/
def FoundLost (r : Run H) (k n : Nat) (id : ChannelId) : Prop :=
  ∃ j, k < j ∧ j < n ∧ (r.world j).hasSender id = false

theorem FoundEmpty.succ (h : r.FoundEmpty k n id) : r.FoundEmpty k (n + 1) id := by
  obtain ⟨j, hkj, hjn, hj⟩ := h
  exact ⟨j, hkj, Nat.lt_succ_of_lt hjn, hj⟩

theorem FoundLost.succ (h : r.FoundLost k n id) : r.FoundLost k (n + 1) id := by
  obtain ⟨j, hkj, hjn, hj⟩ := h
  exact ⟨j, hkj, Nat.lt_succ_of_lt hjn, hj⟩

/-- How far a thread is at time `n` that has polled a future at time `k` and looks above a stack for
the exit: it does not go on to the next question before it has found nothing. -/
inductive Looks (r : Run H) (k n : Nat) (t : ThreadId) (value error : Ty) (future : FutureId)
    (id : ChannelId) (stack : List (Return H)) : Prop where
  | collects {name : Option String} :
      (r.world n).threads[t]? = some ⟨name, .run (.collect value error future id), stack⟩ →
        Looks r k n t value error future id stack
  | asks {name : Option String} :
      (r.world n).threads[t]? = some ⟨name, .asleep (.sender id) (.give (.pending value error))
          (.hang value error future id), stack⟩ →
        r.FoundEmpty k n id → Looks r k n t value error future id stack
  | gives {name : Option String} :
      (r.world n).threads[t]? = some ⟨name, .run (.give (.pending value error)), stack⟩ →
        r.FoundEmpty k n id → Looks r k n t value error future id stack
  | hangs {name : Option String} :
      (r.world n).threads[t]? = some ⟨name, .run (.hang value error future id), stack⟩ →
        r.FoundEmpty k n id → r.FoundLost k n id → Looks r k n t value error future id stack

theorem Looks.stack_eq {thread : Thread H} (h : r.Looks k n t value error future id stack)
    (ht : (r.world n).threads[t]? = some thread) : thread.stack = stack := by
  cases h with
  | collects ht' => exact congrArg Thread.stack (Option.some.inj (ht.symm.trans ht'))
  | asks ht' => exact congrArg Thread.stack (Option.some.inj (ht.symm.trans ht'))
  | gives ht' => exact congrArg Thread.stack (Option.some.inj (ht.symm.trans ht'))
  | hangs ht' => exact congrArg Thread.stack (Option.some.inj (ht.symm.trans ht'))

theorem Looks.isAbove (h : r.Looks k n t value error future id stack) : r.IsAbove n t stack := by
  cases h with
  | collects ht => exact ⟨_, ht, [], rfl, by simp [Control.held]⟩
  | asks ht => exact ⟨_, ht, [], rfl, by simp [Control.held]⟩
  | gives ht => exact ⟨_, ht, [], rfl, by simp [Control.held]⟩
  | hangs ht => exact ⟨_, ht, [], rfl, by simp [Control.held]⟩

theorem Looks.foundLost (h : r.Looks k n t value error future id stack)
    (ht : (r.world n).threads[t]? =
      some ⟨name, .run (.hang value error future id), stack⟩) : r.FoundLost k n id := by
  cases h with
  | collects ht' => cases (Thread.mk.inj (Option.some.inj (ht.symm.trans ht'))).2.1
  | asks ht' => cases (Thread.mk.inj (Option.some.inj (ht.symm.trans ht'))).2.1
  | gives ht' => cases (Thread.mk.inj (Option.some.inj (ht.symm.trans ht'))).2.1
  | hangs _ _ hlost => exact hlost

/-- A thread that looks for an exit goes on with that, or back with the exit or with nothing. -/
theorem looks_next (hkn : k < n) (h : r.Looks k n t value error future id stack) :
    r.Looks k (n + 1) t value error future id stack ∨
      (r.FoundEmpty k (n + 1) id ∧ r.GoesBack (n + 1) t (.ok (.pending value error)) stack) ∨
        ∃ exit, (r.world n).heap.received? id = some exit ∧
          r.GoesBack (n + 1) t (exit.polled value error) stack := by
  have hempty (hreceived : (r.world n).heap.received? id = none) : r.FoundEmpty k (n + 1) id :=
    ⟨n, hkn, Nat.lt_succ_self n, hreceived⟩
  cases h with
  | collects ht =>
      rcases next_of_turn ht rfl with ⟨-, hsame⟩ | ⟨-, -, hnext⟩
      · exact .inl (.collects hsame)
      · cases hreceived : (r.world n).heap.received? id with
        | none =>
            simp only [Task.turn, hreceived] at hnext
            exact .inl (.asks hnext (hempty hreceived))
        | some exit =>
            rw [Task.turn_collect hreceived] at hnext
            exact .inr (.inr ⟨exit, rfl, _, hnext⟩)
  | asks ht hfound =>
      rcases next_of_asleep ht (by simp) with hsame | ⟨-, ⟨-, hwoken⟩ | ⟨hgone, hmissed⟩⟩
      · exact .inl (.asks hsame hfound.succ)
      · exact .inl (.gives hwoken hfound.succ)
      · refine .inl (.hangs hmissed hfound.succ ⟨n, hkn, Nat.lt_succ_self n, ?_⟩)
        rcases hgone with harrival | hdisconnected
        · simpa [World.arrival] using harrival
        · simp [World.isDisconnected, World.awaits, ht] at hdisconnected
  | gives ht hfound =>
      rcases next_of_turn ht rfl with ⟨-, hsame⟩ | ⟨-, -, hnext⟩
      · exact .inl (.gives hsame hfound.succ)
      · exact .inr (.inl ⟨hfound.succ, _, hnext⟩)
  | hangs ht hfound hlost =>
      rcases next_of_turn ht rfl with ⟨-, hsame⟩ | ⟨-, -, hnext⟩
      · exact .inl (.hangs hsame hfound.succ hlost.succ)
      · cases hreceived : ((r.world n).heap.received? id).isSome with
        | true =>
            simp only [Task.turn, hreceived, if_true] at hnext
            exact .inl (.collects hnext)
        | false =>
            simp only [Task.turn, hreceived, Bool.false_eq_true, if_false] at hnext
            exact .inr (.inl ⟨hfound.succ, _, hnext⟩)

/-- A poll of a future that runs looks for the exit. -/
theorem looks_of_polls (h : r.Turns k t (.run (.request (.poll value error future))) stack)
    (hfuture : (r.world k).heap.futures[future]? = some (.running id)) :
    r.Looks k (k + 1) t value error future id stack := by
  obtain ⟨haction, name, ht⟩ := h
  obtain ⟨-, hthread⟩ := next_of_action haction ht rfl
  simp only [Task.turn, Request.turn, hfuture] at hthread
  exact .collects hthread

/-- The first poll of a future makes a channel, into which the interpretation ends. -/
theorem opens_of_polls {node : Node H.Data H.Fn}
    (h : r.Turns k t (.run (.request (.poll value error future))) stack)
    (hfuture : (r.world k).heap.futures[future]? = some (.fresh node)) :
    ∃ name, r.Opens k (.poll value error future) (r.world k).heap.channels.size ∧
      (r.world (k + 1)).threads[t]? = some ⟨name,
        .run (.drive (.start node) ∅ (.channel value error (r.world k).heap.channels.size)),
          .polling value error future (r.world k).heap.channels.size :: stack⟩ := by
  obtain ⟨haction, name, ht⟩ := h
  obtain ⟨hheap, hthread⟩ := next_of_action haction ht rfl
  simp only [Task.turn, Request.turn, hfuture] at hheap hthread
  refine ⟨name, ⟨⟨t, haction, name, stack, ht⟩, rfl, ?_⟩, hthread⟩
  simp [hheap, Turn.call, Heap.newChannel, Heap.setFuture]

/-- What is in the channel stays there until the receiver goes. -/
theorem received_of_le (h : (r.world n).heap.received? id = some exit) (hnm : n ≤ m) :
    (r.world m).heap.received? id = some exit ∨ ∃ j, n ≤ j ∧ j < m ∧ r.Drops j id := by
  induction hnm with
  | refl => exact .inl h
  | @step m hnm ih =>
      rcases ih with hm | ⟨j, hnj, hjm, hdrops⟩
      · rcases channel_next (Heap.received?_eq_some.1 hm) with
          hsame | ⟨hdrops, -⟩ | ⟨_, _, _, _, _, -, -, hsent⟩
        · exact .inl (Heap.received?_eq_some.2 hsame)
        · exact .inr ⟨m, hnm, Nat.lt_succ_self m, hdrops⟩
        · exact .inl (Heap.received?_eq_some.2 hsent)
      · exact .inr ⟨j, hnj, Nat.lt_succ_of_lt hjm, hdrops⟩

section Return

variable (hfair : r.Fair)

include hfair

theorem Fair.goesBack_of_turn {task : Task H} (reply : Except Payload (Value H.Data H.Fn))
    (ht : (r.world n).threads[t]? = some ⟨name, .run task, stack⟩)
    (hturn : ∀ m, n ≤ m → Thread.turn? t (r.world m).heap (r.world m).state
      ⟨name, .run task, stack⟩ =
        some ((r.world m).state, stack, ⟨(r.world m).heap, [], .replied reply, none, none⟩)) :
    ∃ m, n < m ∧ r.GoesBack m t reply stack := by
  obtain ⟨m, hm, haction, ht'⟩ := hfair.exists_ready ht trivial
  obtain ⟨-, hnext⟩ := next_of_action haction ht' (hturn m hm)
  exact ⟨m + 1, Nat.lt_succ_of_le hm, name, hnext⟩

/-- Whoever says that the exit cannot come goes back, with nothing or with the exit that has come
after all, unless the future is dropped meanwhile. -/
theorem Fair.goesBack_of_hang (ht : (r.world n).threads[t]? =
      some ⟨name, .run (.hang value error future id), stack⟩) :
    (∃ m reply, n < m ∧ r.GoesBack m t reply stack) ∨ ∃ j, n ≤ j ∧ r.Drops j id := by
  obtain ⟨m, hm, haction, ht'⟩ := hfair.exists_ready ht trivial
  obtain ⟨-, hnext⟩ := next_of_action haction ht' rfl
  cases hreceived : (r.world m).heap.received? id with
  | none =>
      simp only [Task.turn, hreceived, Option.isSome_none, Bool.false_eq_true, if_false] at hnext
      exact .inl ⟨m + 1, .ok (.pending value error), Nat.lt_succ_of_le hm, name, hnext⟩
  | some exit =>
      simp only [Task.turn, hreceived, Option.isSome_some, if_true] at hnext
      obtain ⟨l, hl, haction', ht''⟩ := hfair.exists_ready hnext trivial
      rcases received_of_le hreceived (Nat.le_of_lt hl) with hthere | ⟨j, hmj, -, hdrops⟩
      · obtain ⟨-, hback⟩ := next_of_action haction' ht'' rfl
        rw [Task.turn_collect hthere] at hback
        exact .inl ⟨l + 1, exit.polled value error, by omega, name, hback⟩
      · exact .inr ⟨j, Nat.le_trans hm hmj, hdrops⟩

/-- Whoever asks whether the exit can still come is told so at once. -/
theorem Fair.goesBack_of_ask (ht : (r.world n).threads[t]? =
      some ⟨name, .asleep (.sender id) (.give (.pending value error)) (.hang value error future id),
        stack⟩) :
    (∃ m reply, n < m ∧ r.GoesBack m t reply stack) ∨ ∃ j, n ≤ j ∧ r.Drops j id := by
  obtain ⟨m, hm, haction, ht'⟩ := hfair.exists_action ht (fun notified => by cases notified <;> rfl)
    rfl fun m _ hasks => by simp [World.step?, hasks, World.arrival]
  have hstep := r.step m
  simp only [haction, World.does, World.step?, ht', World.arrival, Option.some.injEq] at hstep
  have hnext := World.threads_rouse (w := r.world m) ((r.world m).hasSender id) ht' t
  rw [if_pos rfl, hstep] at hnext
  cases hsender : (r.world m).hasSender id with
  | true =>
      rw [hsender] at hnext
      obtain ⟨l, hl, hback⟩ := hfair.goesBack_of_turn (.ok (.pending value error)) hnext
        fun _ _ => rfl
      exact .inl ⟨l, _, by omega, hback⟩
  | false =>
      rw [hsender] at hnext
      rcases hfair.goesBack_of_hang hnext with ⟨l, reply, hl, hback⟩ | ⟨j, hj, hdrops⟩
      · exact .inl ⟨l, reply, by omega, hback⟩
      · exact .inr ⟨j, by omega, hdrops⟩

/-- Whoever looks for an exit goes back, unless the future is dropped meanwhile. -/
theorem Fair.goesBack_of_looks (h : r.Looks k n t value error future id stack) :
    (∃ m reply, n < m ∧ r.GoesBack m t reply stack) ∨ ∃ j, n ≤ j ∧ r.Drops j id := by
  cases h with
  | collects ht =>
      obtain ⟨m, hm, haction, ht'⟩ := hfair.exists_ready ht trivial
      obtain ⟨-, hnext⟩ := next_of_action haction ht' rfl
      cases hreceived : (r.world m).heap.received? id with
      | none =>
          simp only [Task.turn, hreceived] at hnext
          rcases hfair.goesBack_of_ask hnext with ⟨l, reply, hl, hback⟩ | ⟨j, hj, hdrops⟩
          · exact .inl ⟨l, reply, by omega, hback⟩
          · exact .inr ⟨j, by omega, hdrops⟩
      | some exit =>
          rw [Task.turn_collect hreceived] at hnext
          exact .inl ⟨m + 1, _, Nat.lt_succ_of_le hm, _, hnext⟩
  | asks ht => exact hfair.goesBack_of_ask ht
  | gives ht =>
      obtain ⟨m, hm, hback⟩ := hfair.goesBack_of_turn (.ok (.pending value error)) ht
        fun _ _ => rfl
      exact .inl ⟨m, _, hm, hback⟩
  | hangs ht => exact hfair.goesBack_of_hang ht

end Return

/-- A thread that has polled a future for the first time goes on with the interpretation, on the way
to look for its exit. -/
def IsInterpreting (r : Run H) (n : Nat) (t : ThreadId) (value error : Ty) (future : FutureId)
    (id : ChannelId) (stack : List (Return H)) : Prop :=
  ∃ thread, (r.world n).threads[t]? = some thread ∧
    thread.Interprets (.channel value error id) (.polling value error future id :: stack)

section Poll

variable {b : Nat} {p : Place} {i : Interpretation H.Data H.Fn}
  {reply : Except Payload (Value H.Data H.Fn)}

/-- What a poll brings that is made at time `k` and comes back at time `m`: nothing, if the
interpretation that is at `p` at time `b` had not ended when the poll looked, or nobody received its
exit any more; or what this has ended with. -/
inductive Finds (r : Run H) (b : Nat) (p : Place) (value error : Ty) (id : ChannelId) (k m : Nat) :
    Except Payload (Value H.Data H.Fn) → Prop where
  | pending {j : Nat} :
      k < j → j < m →
        (∀ c exit, r.EndsAt b p c exit → b + c < j → ∃ d, d < j ∧ r.Drops d id) →
          Finds r b p value error id k m (.ok (.pending value error))
  | ended {c : Nat} {exit : Exit (Outcome H.Data H.Fn)} :
      r.EndsAt b p c exit → b + c < m → Finds r b p value error id k m (exit.polled value error)

/-- A poll comes back with the panic of a submission that has let go of the interpretation. -/
def Refused (r : Run H) (b : Nat) (p : Place) (m : Nat)
    (reply : Except Payload (Value H.Data H.Fn)) :
    Prop :=
  ∃ j payload, r.LetsGo b p j payload ∧ b + j < m ∧ reply = .error payload

/-- How far the first poll of a future is, which is made at time `k`: it interprets, or comes back
with the panic of a submission, or looks for the exit. -/
inductive Begun (r : Run H) (b : Nat) (p : Place) (k n : Nat) (t : ThreadId) (value error : Ty)
    (future : FutureId) (id : ChannelId) (stack : List (Return H)) : Prop where
  | interprets :
      r.IsInterpreting n t value error future id stack →
        Begun r b p k n t value error future id stack
  | panics {j : Nat} {payload : Payload} :
      r.LetsGo b p j payload → b + j < n →
        r.GoesBack n t (.error payload) (.polling value error future id :: stack) →
          Begun r b p k n t value error future id stack
  | looks :
      r.Looks k n t value error future id stack → Begun r b p k n t value error future id stack

theorem Begun.isAbove (h : r.Begun b p k n t value error future id stack) :
    r.IsAbove n t stack := by
  cases h with
  | interprets h =>
      obtain ⟨thread, ht, hinterprets⟩ := h
      exact ⟨thread, ht, hinterprets.isAbove⟩
  | panics _ _ hback =>
      obtain ⟨name, ht⟩ := hback
      exact ⟨_, ht, [.polling value error future id], rfl, by simp⟩
  | looks h => exact h.isAbove

/-- A poll whose future is dropped while it is under way. -/
def DropsDuring (r : Run H) (k : Nat) (t : ThreadId) (id : ChannelId) (stack : List (Return H)) :
    Prop :=
  ∃ j, k < j ∧ r.Drops j id ∧ r.IsAbove j t stack

variable (hstart : (r.world 0).Starting) (hprivate : r.IsPrivate id)
  (hp : (r.world b).pendingAt p = some (.driving i, .channel value error id))
  (htyped : r.EndsTyped b p value error)

include hstart hprivate hp htyped

/-- Whoever finds a channel empty comes before the end of the interpretation, or after its receiver
has gone. -/
theorem FoundEmpty.finds (h : r.FoundEmpty k m id) :
    r.Finds b p value error id k m (.ok (.pending value error)) := by
  obtain ⟨j, hkj, hjm, hnone⟩ := h
  refine .pending hkj hjm fun c exit hends hc => ?_
  by_contra hkept
  have hreceived := hends.received hstart hprivate hp htyped
    (fun d hd hdrops => hkept ⟨d, hd, hdrops⟩) hc
  rw [hreceived] at hnone
  contradiction

theorem finds_next (hkn : k < n) (h : r.Looks k n t value error future id stack) :
    r.Looks k (n + 1) t value error future id stack ∨ ∃ reply,
      r.Finds b p value error id k (n + 1) reply ∧ r.GoesBack (n + 1) t reply stack := by
  rcases looks_next hkn h with hlooks | ⟨hempty, hback⟩ | ⟨exit, hreceived, hback⟩
  · exact .inl hlooks
  · exact .inr ⟨_, hempty.finds hstart hprivate hp htyped, hback⟩
  · obtain ⟨c, hc, hends⟩ := exists_endsAt_of_received hstart hprivate hp htyped hreceived
    exact .inr ⟨_, .ended hends (Nat.lt_succ_of_lt hc), hback⟩

/-- A poll looks for the exit until it comes back. -/
theorem looks_course (h : r.Looks k (k + 1) t value error future id stack) (hkn : k < n) :
    r.Looks k n t value error future id stack ∨
      ∃ m reply, m ≤ n ∧ r.Finds b p value error id k m reply ∧ r.CallEnds k m t reply stack := by
  have hcourse := above_or_callEnds (P := fun n => r.Looks k n t value error future id stack)
    (R := fun m reply => r.Finds b p value error id k m reply) h (fun _ hn => hn.isAbove)
    (fun n hkn hn => finds_next hstart hprivate hp htyped hkn hn) hkn
  exact hcourse.imp_left And.left

/-- A poll brings nothing, or what the interpretation has ended with. -/
theorem Looks.finds (h : r.Looks k (k + 1) t value error future id stack)
    (hcall : r.CallEnds k m t reply stack) : r.Finds b p value error id k m reply := by
  rcases looks_course hstart hprivate hp htyped h hcall.lt with
    hlooks | ⟨m', reply', -, hfinds, hcall'⟩
  · exact absurd hlooks.isAbove hcall.back.not_above
  · obtain ⟨rfl, rfl⟩ := hcall.unique hcall'
    exact hfinds

/-- A poll comes back, unless its future is dropped meanwhile. -/
theorem Looks.comesBack (hfair : r.Fair) (h : r.Looks k (k + 1) t value error future id stack) :
    (∃ m reply, r.CallEnds k m t reply stack) ∨ r.DropsDuring k t id stack := by
  rcases hfair.goesBack_of_looks h with ⟨m, reply, hm, hback⟩ | ⟨j, hj, hdrops⟩
  · rcases looks_course hstart hprivate hp htyped h (show k < m by omega) with
      hlooks | ⟨m', reply', -, -, hcall⟩
    · exact absurd hlooks.isAbove hback.not_above
    · exact .inl ⟨m', reply', hcall⟩
  · rcases looks_course hstart hprivate hp htyped h (show k < j by omega) with
      hlooks | ⟨m', reply', -, -, hcall⟩
    · exact .inr ⟨j, hj, hdrops, hlooks.isAbove⟩
    · exact .inl ⟨m', reply', hcall⟩

omit hstart hprivate htyped hp in
theorem Finds.eq_polled {c : Nat}
    (hp : (r.world b).pendingAt p = some (.driving i, .channel value error id))
    (h : r.Finds b p value error id k m reply) (hends : r.EndsAt b p c exit) (hk : b + c < k)
    (hkept : ∀ d, d < m → ¬r.Drops d id) : reply = exit.polled value error := by
  cases h with
  | pending hkj hjm hnone =>
      obtain ⟨d, hd, hdrops⟩ := hnone c exit hends (Nat.lt_trans hk hkj)
      exact absurd hdrops (hkept d (Nat.lt_trans hd hjm))
  | ended hends' _ =>
      obtain ⟨rfl, rfl⟩ := hends.unique hp hends'
      rfl

/-- A poll that is made when the interpretation has ended brings what this has ended with, unless
its future is dropped meanwhile. -/
theorem Looks.comesBack_with (hfair : r.Fair) {c : Nat} (hends : r.EndsAt b p c exit)
    (hk : b + c < k)
    (hkept : ∀ d, d ≤ k → ¬r.Drops d id) (h : r.Looks k (k + 1) t value error future id stack) :
    (∃ m, r.CallEnds k m t (exit.polled value error) stack) ∨ r.DropsDuring k t id stack := by
  rcases h.comesBack hstart hprivate hp htyped hfair with ⟨m, reply, hcall⟩ | hduring
  · by_cases hdropped : ∃ d, k < d ∧ d < m ∧ r.Drops d id
    · obtain ⟨d, hkd, hdm, hdrops⟩ := hdropped
      exact .inr ⟨d, hkd, hdrops, hcall.above d hkd hdm⟩
    · refine .inl ⟨m, ?_⟩
      have hfinds := h.finds hstart hprivate hp htyped hcall
      rw [← hfinds.eq_polled hp hends hk fun d hdm hdrops => ?_]
      · exact hcall
      · rcases Nat.lt_or_ge k d with hkd | hdk
        · exact hdropped ⟨d, hkd, hdm, hdrops⟩
        · exact hkept d hdk hdrops
  · exact .inr hduring

/-- The first poll goes on with the interpretation until it is back from it, and looks for the exit
then. -/
theorem begun_next (hbn : b ≤ n) (hkn : k < n) (h : r.Begun b p k n t value error future id stack) :
    r.Begun b p k (n + 1) t value error future id stack ∨ ∃ reply,
      (r.Finds b p value error id k (n + 1) reply ∨ r.Refused b p (n + 1) reply) ∧
        r.GoesBack (n + 1) t reply stack := by
  cases h with
  | interprets h =>
      obtain ⟨thread, ht, hinterprets⟩ := h
      rcases interprets_next hstart hprivate hp htyped Return.goesOnWith_polling hbn ht
          hinterprets with
        ⟨thread', ht', hinterprets'⟩ | ⟨name, hback⟩ | ⟨j, payload, rfl, hletsGo, -, hback⟩
      · exact .inl (.interprets ⟨thread', ht', hinterprets'⟩)
      · exact .inl (.looks (.collects hback))
      · exact .inl (.panics hletsGo (Nat.lt_succ_self _) hback)
  | panics hletsGo hj hback =>
      obtain ⟨name, ht⟩ := hback
      rcases next_of_turn ht rfl with ⟨-, hsame⟩ | ⟨-, -, hnext⟩
      · exact .inl (.panics hletsGo (Nat.lt_succ_of_lt hj) ⟨name, hsame⟩)
      · exact .inr ⟨_, .inr ⟨_, _, hletsGo, Nat.lt_succ_of_lt hj, rfl⟩, name, hnext⟩
  | looks h =>
      rcases finds_next hstart hprivate hp htyped hkn h with hlooks | ⟨reply, hfinds, hback⟩
      · exact .inl (.looks hlooks)
      · exact .inr ⟨reply, .inl hfinds, hback⟩

theorem begun_course (hk : b = k + 1)
    (h : r.IsInterpreting (k + 1) t value error future id stack) (hkn : k < n) :
    r.Begun b p k n t value error future id stack ∨ ∃ m reply, m ≤ n ∧
      (r.Finds b p value error id k m reply ∨ r.Refused b p m reply) ∧
        r.CallEnds k m t reply stack := by
  subst hk
  have hcourse := above_or_callEnds
    (P := fun n => r.Begun (k + 1) p k n t value error future id stack)
    (R := fun m reply => r.Finds (k + 1) p value error id k m reply ∨ r.Refused (k + 1) p m reply)
    (.interprets h) (fun _ hn => hn.isAbove)
    (fun n hkn hn => begun_next hstart hprivate hp htyped hkn hkn hn) hkn
  exact hcourse.imp_left And.left

/-- The first poll brings nothing, or what the interpretation has ended with; or the panic of a
submission that has let go of the interpretation. -/
theorem IsInterpreting.finds (hk : b = k + 1)
    (h : r.IsInterpreting (k + 1) t value error future id stack)
    (hcall : r.CallEnds k m t reply stack) :
    r.Finds b p value error id k m reply ∨ r.Refused b p m reply := by
  rcases begun_course hstart hprivate hp htyped hk h hcall.lt with
    hbegun | ⟨m', reply', -, hfinds, hcall'⟩
  · exact absurd hbegun.isAbove hcall.back.not_above
  · obtain ⟨rfl, rfl⟩ := hcall.unique hcall'
    exact hfinds

/-- The first poll comes back, unless its future is dropped meanwhile, or its thread goes on with
the interpretation for all time and this never ends. -/
theorem IsInterpreting.comesBack (hk : b = k + 1) (hfair : r.Fair)
    (h : r.IsInterpreting (k + 1) t value error future id stack) :
    (∃ m reply, r.CallEnds k m t reply stack) ∨ r.DropsDuring k t id stack ∨
      (∀ n, k < n → r.IsInterpreting n t value error future id stack) ∧
        ∀ c exit, ¬r.EndsAt b p c exit := by
  have hcourse {n : Nat} (hkn : k < n) := begun_course hstart hprivate hp htyped hk h hkn
  -- A poll that has come back to its stack at some time has come back for the first time.
  have hends {m : Nat} {reply : Except Payload (Value H.Data H.Fn)} (hkm : k < m)
      (hback : r.GoesBack m t reply stack) : ∃ m reply, r.CallEnds k m t reply stack := by
    rcases hcourse hkm with hbegun | ⟨m', reply', -, -, hcall⟩
    · exact absurd hbegun.isAbove hback.not_above
    · exact ⟨m', reply', hcall⟩
  by_cases hforever : ∀ n, k < n → r.IsInterpreting n t value error future id stack
  · refine .inr (.inr ⟨hforever, fun c exit hover => ?_⟩)
    obtain ⟨thread, ht, hinterprets⟩ := hforever (b + c + 1) (by omega)
    obtain ⟨m, name, hm, ht'⟩ := Fair.exists_back hstart hprivate hp
      Return.goesOnWith_polling hfair hover ht hinterprets
    obtain ⟨thread', ht'', hinterprets'⟩ := hforever m (by omega)
    obtain rfl := Option.some.inj (ht'.symm.trans ht'')
    obtain ⟨above, hstack⟩ := hinterprets'.exists_above
    have hlength := congrArg List.length hstack
    simp only [List.length_append, List.length_cons] at hlength
    omega
  · obtain ⟨n, hn⟩ := Classical.not_forall.1 hforever
    obtain ⟨hkn, hnot⟩ := Classical.not_imp.1 hn
    rcases hcourse hkn with hbegun | ⟨m, reply, -, -, hcall⟩
    · cases hbegun with
      | interprets h => exact absurd h hnot
      | @panics _ payload _ _ hback =>
          obtain ⟨name, ht⟩ := hback
          obtain ⟨m, hm, haction, ht'⟩ := hfair.exists_ready ht (List.cons_ne_nil _ _)
          obtain ⟨-, hnext⟩ := next_of_action haction ht' rfl
          have hback : r.GoesBack (m + 1) t (.error payload) stack := ⟨name, hnext⟩
          exact .inl (hends (by omega) hback)
      | looks h =>
          rcases hfair.goesBack_of_looks h with ⟨m, reply, hm, hback⟩ | ⟨j, hj, hdrops⟩
          · exact .inl (hends (Nat.lt_trans hkn hm) hback)
          · rcases hcourse (Nat.lt_of_lt_of_le hkn hj) with hbegun | ⟨m, reply, -, -, hcall⟩
            · exact .inr (.inl ⟨j, Nat.lt_of_lt_of_le hkn hj, hdrops, hbegun.isAbove⟩)
            · exact .inl ⟨m, reply, hcall⟩
    · exact .inl ⟨m, reply, hcall⟩

end Poll

end Run

end Trampoline
