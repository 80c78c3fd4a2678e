import Trampoline.Proofs.Agreement
import Trampoline.Proofs.Callers
import Trampoline.Proofs.Forks

/-!
The notification of those who wait for a promise. The call that has written the value takes the list
of the subscribers and calls them one after another, in the order in which they came. A subscriber
is called above the rest of the list, so whatever it does, even with the promise itself, the thread
comes back to the rest. The first panic is kept until all have been called.
-/

namespace Trampoline

variable {H : Host}

/-- The first panic among the replies to some calls. -/
def firstPanic {α β : Type} (calls : List (α × Except Payload β)) : Option Payload :=
  calls.findSome? fun call =>
    match call.2 with
    | .ok _ => none
    | .error payload => some payload

section

variable {α β : Type} (calls : List (α × Except Payload β)) (x : α)

@[simp] theorem firstPanic_nil : firstPanic ([] : List (α × Except Payload β)) = none := rfl

@[simp] theorem firstPanic_ok (v : β) : firstPanic (calls ++ [(x, .ok v)]) = firstPanic calls := by
  simp [firstPanic]

@[simp] theorem firstPanic_error (payload : Payload) :
    firstPanic (calls ++ [(x, .error payload)]) = some ((firstPanic calls).getD payload) := by
  cases h : firstPanic calls with
  | none =>
      rw [firstPanic] at h
      simp [firstPanic, List.findSome?_append, h]
  | some first =>
      rw [firstPanic] at h
      simp [firstPanic, List.findSome?_append, h]

end

namespace Run

variable {r : Run H} {k l n m : Nat} {t : ThreadId} {stack : List (Return H)}
  {control control' : Control H}

/-- At time `n` thread `t` is in this control above a stack. -/
def IsAt (r : Run H) (n : Nat) (t : ThreadId) (control : Control H) (stack : List (Return H)) :
    Prop :=
  ∃ name, (r.world n).threads[t]? = some ⟨name, control, stack⟩

/-- Thread `t` is in this control above a stack from time `n` to time `m`. -/
def StaysAt (r : Run H) (n m : Nat) (t : ThreadId) (control : Control H) (stack : List (Return H)) :
    Prop :=
  n ≤ m ∧ ∀ j, n ≤ j → j ≤ m → r.IsAt j t control stack

/-- From time `n` on thread `t` is in this control above a stack, until it takes its turn at time
`m`. -/
structure TurnsFirst (r : Run H) (n m : Nat) (t : ThreadId) (control : Control H)
    (stack : List (Return H)) : Prop where
  stays : r.StaysAt n m t control stack
  turn : r.action m = .thread t

theorem GoesBack.unique {reply reply' : Except Payload (Value H.Data H.Fn)}
    (h : r.GoesBack n t reply stack) (h' : r.GoesBack n t reply' stack) : reply = reply' := by
  obtain ⟨name, ht⟩ := h
  obtain ⟨name', ht'⟩ := h'
  obtain ⟨-, hreply, -⟩ := Thread.mk.inj (Option.some.inj (ht.symm.trans ht'))
  exact Control.replied_injective hreply

theorem IsAt.stays (h : r.IsAt n t control stack) : r.StaysAt n n t control stack :=
  ⟨Nat.le_refl n, fun _ hnj hjn => Nat.le_antisymm hnj hjn ▸ h⟩

theorem StaysAt.last (h : r.StaysAt n m t control stack) : r.IsAt m t control stack :=
  h.2 m h.1 (Nat.le_refl m)

theorem TurnsFirst.turns (h : r.TurnsFirst n m t control stack) : r.Turns m t control stack :=
  ⟨h.turn, h.stays.last⟩

/-- A thread that takes its turn when it is let stays as it is, or takes its turn. -/
theorem StaysAt.next (h : r.StaysAt n m t control stack)
    (hready : ∀ name, Thread.IsReady ⟨name, control, stack⟩) :
    r.StaysAt n (m + 1) t control stack ∨ r.TurnsFirst n m t control stack := by
  by_cases haction : r.action m = .thread t
  · exact .inr ⟨h, haction⟩
  · obtain ⟨name, ht⟩ := h.last
    refine .inl ⟨Nat.le_succ_of_le h.1, fun j hnj hj => ?_⟩
    rcases Nat.le_succ_iff.1 hj with hlt | rfl
    · exact h.2 j hnj hlt
    · exact ⟨name, thread_of_other ht (hready name) haction⟩

theorem Fair.exists_turnsFirst (hfair : r.Fair) (h : r.IsAt n t control stack)
    (hready : ∀ name, Thread.IsReady ⟨name, control, stack⟩) :
    ∃ m, r.TurnsFirst n m t control stack := by
  obtain ⟨name, ht⟩ := h
  obtain ⟨m, hnm, haction, hothers, -⟩ := hfair.exists_first ht (hready name)
  refine ⟨m, ⟨hnm, fun j hnj hjm => ⟨name, ?_⟩⟩, haction⟩
  exact thread_of_others ht (hready name) hnj fun d hd hdj => hothers d hd (by omega)

/-- Where a thread is after its turn. -/
theorem Turns.isAt (h : r.Turns n t control stack) {state : H.State} {rest stack' : List (Return H)}
    {turn : Turn H}
    (hturn : ∀ name, Thread.turn? t (r.world n).heap (r.world n).state ⟨name, control, stack⟩ =
      some (state, rest, turn))
    (hcontrol : turn.control = control') (hstack : turn.pushed ++ rest = stack')
    (hheard : ∀ name, Thread.heard turn.notified ⟨name, control', stack'⟩ =
      ⟨name, control', stack'⟩) :
    r.IsAt (n + 1) t control' stack' ∧ (r.world (n + 1)).heap = turn.heap := by
  obtain ⟨haction, name, ht⟩ := h
  obtain ⟨hheap, hthread⟩ := next_of_action haction ht (hturn name)
  rw [hcontrol, hstack, hheard] at hthread
  exact ⟨⟨name, hthread⟩, hheap⟩

/-- A thread that is at work above a stack goes on with that, or goes back to the stack. -/
theorem isAbove_next (h : r.IsAbove n t stack) :
    r.IsAbove (n + 1) t stack ∨ ∃ reply, r.GoesBack (n + 1) t reply stack := by
  obtain ⟨thread, ht, above, hstack, hheld⟩ := h
  have hended : thread.ended = false := by
    obtain ⟨name, control, stack'⟩ := thread
    cases above with
    | nil => cases control <;> first | rfl | exact absurd rfl (hheld rfl)
    | cons back above =>
        obtain rfl : stack' = _ := hstack
        cases control <;> rfl
  obtain ⟨⟨name, control, stack'⟩, ht', hnext⟩ := next_of_thread ht hended
  obtain ⟨above', rfl⟩ : ∃ above', stack' = above' ++ stack := by
    rcases hnext with ⟨hsame, -⟩ | ⟨state, rest, turn, -, hturn, heq⟩
    · exact ⟨above, hsame.trans hstack⟩
    · obtain rfl : stack' = turn.pushed ++ rest := by
        have hheard := congrArg Thread.stack heq
        rwa [Thread.stack_heard] at hheard
      rcases (Thread.turning hturn).pops with rfl | ⟨back, hpop, hcontrol⟩
      · exact ⟨turn.pushed ++ above, by rw [hstack, List.append_assoc]⟩
      · cases above with
        | nil =>
            refine absurd ?_ (hheld rfl)
            rcases hcontrol with ⟨v, hret, -⟩ | ⟨payload, hraise, -⟩
            · rw [hret]
              rfl
            · rw [hraise]
              rfl
        | cons back' above =>
            obtain ⟨-, rfl⟩ := List.cons.inj (hpop.symm.trans hstack)
            exact ⟨turn.pushed ++ above, (List.append_assoc ..).symm⟩
  by_cases hback : above' = [] ∧ control.held = []
  · obtain ⟨rfl, hnothing⟩ := hback
    refine .inr ?_
    cases control with
    | ret v => exact ⟨.ok v, name, ht'⟩
    | raise payload => exact ⟨.error payload, name, ht'⟩
    | _ => contradiction
  · exact .inl ⟨_, ht', above', rfl, fun hnil hnothing => hback ⟨hnil, hnothing⟩⟩

/-- A call is under way for all time, or it ends. -/
theorem isAbove_or_callEnds (h : r.IsAbove (k + 1) t stack) (hkn : k < n) :
    (∀ j, k < j → j ≤ n → r.IsAbove j t stack) ∨
      ∃ m reply, m ≤ n ∧ r.CallEnds k m t reply stack := by
  rcases above_or_callEnds (R := fun _ _ => True) h (fun _ habove => habove)
    (fun n _ habove => (isAbove_next habove).imp_right fun ⟨reply, hback⟩ =>
      ⟨reply, trivial, hback⟩) hkn with ⟨-, hall⟩ | ⟨m, reply, hm, -, hcall⟩
  · exact .inl hall
  · exact .inr ⟨m, reply, hm, hcall⟩

section

variable (r : Run H) (id : PromiseId) (w : Nat) (t : ThreadId) (v : Value H.Data H.Fn)
  (stack : List (Return H))

/-- What the call that writes the value comes back with after these calls. -/
def verdict (calls : List (Subscriber H.Fn × Except Payload (Value H.Data H.Fn))) :
    Except Payload (Value H.Data H.Fn) :=
  (firstPanic calls).elim (.ok (.ok .unit v.ty .unit)) .error

/-- What is left to do when a subscriber is called that comes before these others. -/
def rest (subscribers : List (Subscriber H.Fn)) (first : Option Payload) : List (Return H) :=
  .notifying id v subscribers first :: stack

/-- From time `n` on, the thread that has written the value has called some subscribers one after
another, each of which has come back with this reply, and has these others still to call. -/
inductive HasNotified : List (Subscriber H.Fn × Except Payload (Value H.Data H.Fn)) →
    List (Subscriber H.Fn) → Nat → Prop where
  /-- All that had been kept when the value was written have been taken. -/
  | taken {k m : Nat} :
      r.TurnsFirst (w + 1) k t (.run (.take id v)) stack →
        r.TurnsFirst (k + 1) m t (.run (.wake id v (r.kept id w))) stack →
          HasNotified [] (r.kept id w) (m + 1)
  | called {calls : List (Subscriber H.Fn × Except Payload (Value H.Data H.Fn))}
      {subscriber : Subscriber H.Fn} {subscribers : List (Subscriber H.Fn)} {l k m j : Nat}
      {reply : Except Payload (Value H.Data H.Fn)} :
      HasNotified calls (subscriber :: subscribers) l →
        r.TurnsFirst l k t (.run (.notify id v (subscriber :: subscribers) (firstPanic calls)))
          stack →
          r.CallEnds k m t reply (rest id v stack subscribers (firstPanic calls)) →
            r.TurnsFirst m j t (.replied reply) (rest id v stack subscribers (firstPanic calls)) →
              HasNotified (calls ++ [(subscriber, reply)]) subscribers (j + 1)

/-- At time `k` the thread calls a subscriber. -/
def CallsNext (calls : List (Subscriber H.Fn × Except Payload (Value H.Data H.Fn)))
    (subscriber : Subscriber H.Fn) (subscribers : List (Subscriber H.Fn)) (k : Nat) : Prop :=
  ∃ l, r.HasNotified id w t v stack calls (subscriber :: subscribers) l ∧
    r.TurnsFirst l k t (.run (.notify id v (subscriber :: subscribers) (firstPanic calls))) stack

/-- At time `k` the thread has no subscriber left to call, and goes back. -/
def CallsNoMore (calls : List (Subscriber H.Fn × Except Payload (Value H.Data H.Fn)))
    (k : Nat) : Prop :=
  ∃ l, r.HasNotified id w t v stack calls [] l ∧
    r.TurnsFirst l k t (.run (.notify id v [] (firstPanic calls))) stack

/-- Where the thread is at time `n` that has written the value at time `w`. -/
inductive Notifying (n : Nat) : Prop where
  /-- It is about to take the subscribers. -/
  | taking : r.StaysAt (w + 1) n t (.run (.take id v)) stack → Notifying n
  /-- It is about to wake those who wait for the value. -/
  | waking {k : Nat} :
      r.TurnsFirst (w + 1) k t (.run (.take id v)) stack →
        r.StaysAt (k + 1) n t (.run (.wake id v (r.kept id w))) stack → Notifying n
  /-- It is about to call the next subscriber, or to end. -/
  | goingOn {calls : List (Subscriber H.Fn × Except Payload (Value H.Data H.Fn))}
      {subscribers : List (Subscriber H.Fn)} {l : Nat} :
      r.HasNotified id w t v stack calls subscribers l →
        r.StaysAt l n t (.run (.notify id v subscribers (firstPanic calls))) stack → Notifying n
  /-- A subscriber has been called, and has not come back. -/
  | calling {calls : List (Subscriber H.Fn × Except Payload (Value H.Data H.Fn))}
      {subscriber : Subscriber H.Fn} {subscribers : List (Subscriber H.Fn)} {k : Nat} :
      r.CallsNext id w t v stack calls subscriber subscribers k → k < n →
        (∀ j, k < j → j ≤ n → r.IsAbove j t (rest id v stack subscribers (firstPanic calls))) →
          Notifying n
  /-- A subscriber has come back. -/
  | back {calls : List (Subscriber H.Fn × Except Payload (Value H.Data H.Fn))}
      {subscriber : Subscriber H.Fn} {subscribers : List (Subscriber H.Fn)} {k m : Nat}
      {reply : Except Payload (Value H.Data H.Fn)} :
      r.CallsNext id w t v stack calls subscriber subscribers k →
        r.CallEnds k m t reply (rest id v stack subscribers (firstPanic calls)) →
          r.StaysAt m n t (.replied reply) (rest id v stack subscribers (firstPanic calls)) →
            Notifying n

/-- The thread has called all subscribers, with these replies, and is back at time `m` with the
first panic among them, or with success if there is none. -/
structure HasNotifiedAll (calls : List (Subscriber H.Fn × Except Payload (Value H.Data H.Fn)))
    (m : Nat) : Prop where
  subscribers : calls.map Prod.fst = r.kept id w
  last : ∃ k, m = k + 1 ∧ r.CallsNoMore id w t v stack calls k
  back : r.CallEnds w m t (verdict v calls) stack

/-- The completion of a promise that thread `t` begins at time `w`, with all its subscribers. -/
structure CompletesInTurn : Prop where
  /-- The thread takes the subscribers that have been listed before, and calls them one after
  another, the first one first; when all have come back it goes back with the first panic, or with
  success if there was none. -/
  goes {n : Nat} : w < n → r.Notifying id w t v stack n ∨
    ∃ calls m, m ≤ n ∧ r.HasNotifiedAll id w t v stack calls m
  /-- A subscriber is called above the rest of the list. -/
  calls {calls : List (Subscriber H.Fn × Except Payload (Value H.Data H.Fn))}
      {subscriber : Subscriber H.Fn} {subscribers : List (Subscriber H.Fn)} {k : Nat} :
    r.CallsNext id w t v stack calls subscriber subscribers k →
      r.IsAt (k + 1) t (.run (.tell subscriber v)) (rest id v stack subscribers (firstPanic calls))
  /-- No listed subscriber is called but in its turn. -/
  only {k : Nat} {t' : ThreadId} {v' : Value H.Data H.Fn} {subscriber : Subscriber H.Fn}
      {subscribers : List (Subscriber H.Fn)} {first : Option Payload} :
    r.Does k t' (.notify id v' (subscriber :: subscribers) first) →
      t' = t ∧ v' = v ∧ ∃ calls, first = firstPanic calls ∧
        r.CallsNext id w t v stack calls subscriber subscribers k
  /-- Each is called once. -/
  once {calls calls' : List (Subscriber H.Fn × Except Payload (Value H.Data H.Fn))}
      {subscriber subscriber' : Subscriber H.Fn} {subscribers subscribers' : List (Subscriber H.Fn)}
      {k k' : Nat} :
    r.CallsNext id w t v stack calls subscriber subscribers k →
      r.CallsNext id w t v stack calls' subscriber' subscribers' k' →
        calls.length = calls'.length → k = k'
  /-- Whoever subscribes from then on is called on the spot, inside a call of a subscriber too. -/
  late {n : Nat} {t' : ThreadId} {subscriber : Subscriber H.Fn} {stack' : List (Return H)} :
    w < n → r.Turns n t' (.run (.subscribe id subscriber)) stack' →
      r.IsAt (n + 1) t' (.run (.tell subscriber v)) (.holding [.promise id] :: stack') ∧
        (r.world (n + 1)).heap = (r.world n).heap
  /-- Whoever completes the promise again gets his own value back. -/
  again {n : Nat} {t' : ThreadId} {v' : Value H.Data H.Fn} {stack' : List (Return H)} :
    w < n → r.Turns n t' (.run (.fill id v')) stack' →
      (∃ ty, r.IsAt (n + 1) t' (.ret (.err .unit ty v')) stack') ∧
        (r.world (n + 1)).heap = (r.world n).heap
  /-- The value stays. -/
  value {n : Nat} : w < n → (r.world n).heap.promised? id = some v
  /-- No subscriber is listed once they have been taken. -/
  emptied {k n : Nat} : r.TurnsFirst (w + 1) k t (.run (.take id v)) stack → k < n →
    ∃ ty, (r.world n).heap.promises[id]? = some ⟨ty, some v, []⟩
  /-- If each subscriber that is called comes back, all are called. -/
  ends : r.Fair →
    (∀ calls subscriber subscribers k,
      r.CallsNext id w t v stack calls subscriber subscribers k →
        ∃ m reply, r.CallEnds k m t reply (rest id v stack subscribers (firstPanic calls))) →
      ∃ calls m, r.HasNotifiedAll id w t v stack calls m

end

variable {id : PromiseId} {w : Nat} {v v' : Value H.Data H.Fn} {t' : ThreadId}
  {calls : List (Subscriber H.Fn × Except Payload (Value H.Data H.Fn))}
  {subscriber : Subscriber H.Fn} {subscribers : List (Subscriber H.Fn)}

theorem verdict_eq_error_iff {payload : Payload} :
    verdict v calls = .error payload ↔ firstPanic calls = some payload := by
  rw [verdict]
  cases firstPanic calls <;> simp

/-- Each of those who had been kept has been called or is still to be called, in order. -/
theorem HasNotified.split (h : r.HasNotified id w t v stack calls subscribers n) :
    r.kept id w = calls.map Prod.fst ++ subscribers := by
  induction h with
  | taken _ _ => rfl
  | called _ _ _ _ ih => simpa using ih

theorem HasNotified.lt (h : r.HasNotified id w t v stack calls subscribers n) : w < n := by
  induction h with
  | taken htake hwake =>
      have hwk := htake.stays.1
      have hkm := hwake.stays.1
      omega
  | called _ hturn hends hback ih =>
      have hlk := hturn.stays.1
      have hkm := hends.lt
      have hmj := hback.stays.1
      omega

theorem HasNotified.isAt (h : r.HasNotified id w t v stack calls subscribers n) :
    r.IsAt n t (.run (.notify id v subscribers (firstPanic calls))) stack := by
  cases h with
  | taken _ hwake => exact (hwake.turns.isAt (fun _ => rfl) rfl rfl fun _ => rfl).1
  | @called calls subscriber _ l k m j reply _ _ _ hback =>
      cases reply with
      | ok u =>
          rw [firstPanic_ok]
          exact (hback.turns.isAt (fun _ => rfl) rfl rfl fun _ => rfl).1
      | error payload =>
          rw [firstPanic_error]
          exact (hback.turns.isAt (fun _ => rfl) rfl rfl fun _ => rfl).1

/-- A thread that is to call a subscriber calls it next, above the rest of the list. -/
theorem CallsNext.isAt (h : r.CallsNext id w t v stack calls subscriber subscribers k) :
    r.IsAt (k + 1) t (.run (.tell subscriber v))
      (rest id v stack subscribers (firstPanic calls)) := by
  obtain ⟨l, -, hturn⟩ := h
  exact (hturn.turns.isAt (fun _ => rfl) rfl rfl fun _ => rfl).1

theorem CallsNoMore.goesBack (h : r.CallsNoMore id w t v stack calls k) :
    r.GoesBack (k + 1) t (verdict v calls) stack := by
  obtain ⟨l, -, hturn⟩ := h
  rw [verdict]
  cases hfirst : firstPanic calls with
  | none =>
      rw [hfirst] at hturn
      exact (hturn.turns.isAt (fun _ => rfl) rfl rfl fun _ => rfl).1
  | some payload =>
      rw [hfirst] at hturn
      exact (hturn.turns.isAt (fun _ => rfl) rfl rfl fun _ => rfl).1

theorem IsAt.isAbove {task : Task H} (h : r.IsAt n t (.run task) stack) : r.IsAbove n t stack := by
  obtain ⟨name, ht⟩ := h
  exact ⟨_, ht, [], rfl, fun _ => List.cons_ne_nil _ _⟩

theorem IsAt.isAbove_cons {back : Return H} (h : r.IsAt n t control (back :: stack)) :
    r.IsAbove n t stack := by
  obtain ⟨name, ht⟩ := h
  exact ⟨_, ht, [back], rfl, fun hnil => absurd hnil (List.cons_ne_nil _ _)⟩

theorem Notifying.isAbove (h : r.Notifying id w t v stack n) : r.IsAbove n t stack := by
  cases h with
  | taking hstays => exact hstays.last.isAbove
  | waking _ hstays => exact hstays.last.isAbove
  | goingOn _ hstays => exact hstays.last.isAbove
  | calling _ hk habove =>
      obtain ⟨thread, ht, above, hstack, -⟩ := habove n hk (Nat.le_refl n)
      exact ⟨thread, ht, above ++ [_], by rw [hstack, rest, List.append_assoc]; rfl, by simp⟩
  | back _ _ hstays => exact hstays.last.isAbove_cons

/-- Once the subscribers have been taken, none is listed any more. -/
theorem Notifying.emptied (hstart : (r.world 0).Starting)
    (h : r.Notifying id w t v stack n) :
    r.StaysAt (w + 1) n t (.run (.take id v)) stack ∨
      ∃ ty, (r.world n).heap.promises[id]? = some ⟨ty, some v, []⟩ := by
  have hempty (subscribers : List (Subscriber H.Fn))
      (hduty : .tell v subscribers ∈ (r.world n).duties id t) :
      ∃ ty, (r.world n).heap.promises[id]? = some ⟨ty, some v, []⟩ :=
    ((completion hstart id n).2.of_duty hduty).2.2
  have hlisted {thread : Thread H} {first : Option Payload}
      {subscribers : List (Subscriber H.Fn)} (above : List (Return H))
      (ht : (r.world n).threads[t]? = some thread)
      (hstack : thread.stack = above ++ rest id v stack subscribers first) :
      ∃ ty, (r.world n).heap.promises[id]? = some ⟨ty, some v, []⟩ := by
    refine hempty subscribers ?_
    obtain ⟨name, control, stack'⟩ := thread
    obtain rfl : stack' = _ := hstack
    rw [World.duties_of_thread ht]
    simp [rest, Return.held, Task.duty?]
  cases h with
  | taking hstays => exact .inl hstays
  | waking _ hstays =>
      obtain ⟨name, ht⟩ := hstays.last
      refine .inr (hempty (r.kept id w) ?_)
      rw [World.duties_of_thread ht]
      simp [Control.held, Task.duty?]
  | @goingOn calls subscribers l _ hstays =>
      obtain ⟨name, ht⟩ := hstays.last
      refine .inr (hempty subscribers ?_)
      rw [World.duties_of_thread ht]
      simp [Control.held, Task.duty?]
  | calling _ hkn habove =>
      obtain ⟨thread, ht, above, hstack, -⟩ := habove n hkn (Nat.le_refl n)
      exact .inr (hlisted above ht hstack)
  | back _ _ hstays =>
      obtain ⟨name, ht⟩ := hstays.last
      exact .inr (hlisted [] ht rfl)

theorem HasNotifiedAll.exists_ends (h : r.HasNotifiedAll id w t v stack calls m) :
    ∃ k, m = k + 1 ∧ r.Ends id k t v (firstPanic calls) := by
  obtain ⟨k, rfl, l, -, hturn⟩ := h.last
  exact ⟨k, rfl, hturn.turns.does⟩

theorem Writes.unique (hwrites : r.Writes id w t v) (h : r.Writes id n t' v') :
    w = n ∧ t = t' ∧ v = v' := by
  obtain rfl : w = n := by
    rcases Nat.lt_trichotomy w n with hlt | heq | hlt
    · exact absurd hwrites.1 (h.2 w t v hlt)
    · exact heq
    · exact absurd h.1 (hwrites.2 n t' v' hlt)
  obtain ⟨rfl, heq⟩ := hwrites.1.1.unique h.1.1
  exact ⟨rfl, rfl, (Task.fill.inj heq).2⟩

section

variable (hstart : (r.world 0).Starting) (hwrites : r.Writes id w t v)

include hstart hwrites

theorem Writes.written_of_lt (hwn : w < n) : r.written id n = some (t, v) :=
  written_of_le (hwrites.written hstart).2 hwn

theorem Writes.kept_eq (hwn : w ≤ n) : r.kept id n = r.kept id w := by
  have hsucc : r.kept id (w + 1) = r.kept id w := by
    have hnothing : (r.world w).keeps id (r.action w) = [] := by
      rw [hwrites.1.1.keeps]
      rfl
    simp [kept, ledger, hnothing]
  rcases Nat.eq_or_lt_of_le hwn with rfl | hlt
  · rfl
  · rw [kept_of_written hstart (hwrites.written hstart).2 hlt, hsucc]

theorem Writes.isAt_take (hbegin : r.Turns w t (.run (.fill id v)) stack) :
    r.IsAt (w + 1) t (.run (.take id v)) stack := by
  have hcompletion := (completion hstart id w).2
  rw [(hwrites.written hstart).1] at hcompletion
  obtain ⟨ty, hpromise⟩ := hcompletion.unwritten hwrites.1.2
  refine (hbegin.isAt (fun _ => rfl) ?_ ?_ fun _ => ?_).1
  · simp [hpromise, Promise.write, Turn.run]
  · simp [hpromise, Promise.write, Turn.run]
  · simp [hpromise, Promise.write, Turn.run, Thread.heard]

/-- All that had been kept when the value was written are taken. -/
theorem Writes.isAt_wake (h : r.TurnsFirst (w + 1) k t (.run (.take id v)) stack) :
    r.IsAt (k + 1) t (.run (.wake id v (r.kept id w))) stack := by
  have hwk : w < k := Nat.lt_of_succ_le h.stays.1
  have hduty : .take v ∈ (r.world k).duties id t := h.turns.does.duty (if_pos rfl)
  have hcompletion := (completion hstart id k).2
  rw [hwrites.written_of_lt hstart hwk, hwrites.kept_eq hstart (Nat.le_of_lt hwk)] at hcompletion
  generalize r.told id k = told at hcompletion
  obtain ⟨ty, hpromise⟩ : ∃ ty,
      (r.world k).heap.promises[id]? = some ⟨ty, some v, (r.kept id w).reverse⟩ := by
    cases hcompletion with
    | written _ hpromise => exact ⟨_, hpromise⟩
    | taken howes =>
        rw [howes] at hduty
        simp at hduty
    | done hnobody =>
        rw [hnobody] at hduty
        contradiction
  refine (h.turns.isAt (fun _ => rfl) ?_ ?_ fun _ => ?_).1
  · simp [hpromise, Promise.take, Turn.run]
  · simp [hpromise, Turn.run]
  · simp [hpromise, Turn.run, Thread.heard]

/-- What the thread does next that has written the value. -/
theorem Notifying.next (h : r.Notifying id w t v stack n) :
    r.Notifying id w t v stack (n + 1) ∨ ∃ calls, r.CallsNoMore id w t v stack calls n ∧
      r.GoesBack (n + 1) t (verdict v calls) stack := by
  cases h with
  | taking hstays =>
      rcases hstays.next fun _ => trivial with hstays | hturn
      · exact .inl (.taking hstays)
      · exact .inl (.waking hturn (hwrites.isAt_wake hstart hturn).stays)
  | @waking k htake hstays =>
      rcases hstays.next fun _ => trivial with hstays | hturn
      · exact .inl (.waking htake hstays)
      · have hnotified := HasNotified.taken htake hturn
        exact .inl (.goingOn hnotified hnotified.isAt.stays)
  | @goingOn calls subscribers l hnotified hstays =>
      rcases hstays.next fun _ => trivial with hstays | hturn
      · exact .inl (.goingOn hnotified hstays)
      · cases subscribers with
        | nil =>
            have hlast : r.CallsNoMore id w t v stack calls n := ⟨l, hnotified, hturn⟩
            exact .inr ⟨calls, hlast, hlast.goesBack⟩
        | cons subscriber subscribers =>
            have hcalls : r.CallsNext id w t v stack calls subscriber subscribers n :=
              ⟨l, hnotified, hturn⟩
            refine .inl (.calling hcalls (Nat.lt_succ_self n) fun j hnj hj => ?_)
            obtain rfl := Nat.le_antisymm hj hnj
            exact hcalls.isAt.isAbove
  | @calling calls subscriber subscribers k hcalls hkn habove =>
      rcases isAbove_next (habove n hkn (Nat.le_refl n)) with hnext | ⟨reply, hback⟩
      · refine .inl (.calling hcalls (Nat.lt_succ_of_lt hkn) fun j hkj hj => ?_)
        rcases Nat.le_succ_iff.1 hj with hlt | rfl
        · exact habove j hkj hlt
        · exact hnext
      · have hends : r.CallEnds k (n + 1) t reply
            (rest id v stack subscribers (firstPanic calls)) :=
          ⟨Nat.lt_succ_of_lt hkn, fun j hkj hj => habove j hkj (Nat.le_of_lt_succ hj), hback⟩
        exact .inl (.back hcalls hends (IsAt.stays hback))
  | @back calls subscriber subscribers k m reply hcalls hends hstays =>
      rcases hstays.next fun _ => by cases reply <;> exact List.cons_ne_nil _ _ with hstays | hturn
      · exact .inl (.back hcalls hends hstays)
      · obtain ⟨l, hnotified, hcall⟩ := hcalls
        have hnotified' := hnotified.called hcall hends hturn
        exact .inl (.goingOn hnotified' hnotified'.isAt.stays)

/-- A thread has one part of the completion in hand at most. -/
theorem Writes.duties_length_le (hwn : w < n) (t' : ThreadId) :
    ((r.world n).duties id t').length ≤ 1 := by
  have hcompletion := (completion hstart id n).2
  rw [hwrites.written_of_lt hstart hwn] at hcompletion
  generalize r.told id n = told at hcompletion
  cases hcompletion with
  | written howes =>
      rw [howes]
      split <;> simp
  | taken howes =>
      rw [howes]
      split <;> simp
  | done hnobody => simp [hnobody]

/-- The call that has written the value notifies the subscribers, until it has notified all. -/
theorem Writes.notifying_or (hbegin : r.Turns w t (.run (.fill id v)) stack) (hwn : w < n) :
    r.Notifying id w t v stack n ∨
      ∃ calls m, m ≤ n ∧ r.HasNotifiedAll id w t v stack calls m := by
  rcases above_or_callEnds (P := r.Notifying id w t v stack)
      (R := fun m reply => ∃ calls, reply = verdict v calls ∧
        ∃ k, m = k + 1 ∧ r.CallsNoMore id w t v stack calls k)
      (.taking (hwrites.isAt_take hstart hbegin).stays) (fun _ h => h.isAbove)
      (fun n _ h => (h.next hstart hwrites).imp_right fun ⟨calls, hlast, hback⟩ =>
        ⟨verdict v calls, ⟨calls, rfl, n, rfl, hlast⟩, hback⟩) hwn with
    ⟨h, -⟩ | ⟨m, reply, hm, ⟨calls, rfl, k, rfl, hlast⟩, hcall⟩
  · exact .inl h
  · have hnotified := hlast
    obtain ⟨l, hnotified, -⟩ := hnotified
    exact .inr ⟨calls, k + 1, hm, by simpa using hnotified.split.symm, ⟨k, rfl, hlast⟩, hcall⟩

/-- Nobody calls a listed subscriber but the thread that has written the value, which does so when
it has called those before it. -/
theorem Writes.callsNext_of_does (hbegin : r.Turns w t (.run (.fill id v)) stack)
    {first : Option Payload} (h : r.Does k t' (.notify id v' (subscriber :: subscribers) first)) :
    t' = t ∧ v' = v ∧ ∃ calls, first = firstPanic calls ∧
      r.CallsNext id w t v stack calls subscriber subscribers k := by
  obtain ⟨hwritten, hkept⟩ := h.kept_of_notify hstart
  obtain ⟨w', hwk, hwrites'⟩ := exists_writes hstart hwritten
  obtain ⟨rfl, rfl, rfl⟩ := hwrites.unique hwrites'
  refine ⟨rfl, rfl, ?_⟩
  obtain ⟨haction, name, stack', ht⟩ := h
  have hcontrol {control : Control H} {stack'' : List (Return H)} {l : Nat}
      (hstays : r.StaysAt l k t control stack'') :
      .run (.notify id v (subscriber :: subscribers) first) = control := by
    obtain ⟨name', ht'⟩ := hstays.last
    exact (Thread.mk.inj (Option.some.inj (ht.symm.trans ht'))).2.1
  rcases hwrites.notifying_or hstart hbegin hwk with hnotifying | ⟨calls, m, hmk, hall⟩
  · cases hnotifying with
    | taking hstays => exact absurd (hcontrol hstays) (by simp)
    | waking _ hstays => exact absurd (hcontrol hstays) (by simp)
    | @goingOn calls subscribers' l hnotified hstays =>
        obtain ⟨-, -, rfl, rfl⟩ := Task.notify.inj (Control.run.inj (hcontrol hstays))
        exact ⟨calls, rfl, l, hnotified, hstays, haction⟩
    | calling _ hlk habove =>
        -- The thread would have two parts of the completion in hand.
        obtain ⟨thread, ht', above, hstack, -⟩ := habove k hlk (Nat.le_refl k)
        obtain rfl := Option.some.inj (ht.symm.trans ht')
        obtain rfl : stack' = _ := hstack
        have hlength := hwrites.duties_length_le hstart hwk t
        rw [World.duties_of_thread ht] at hlength
        simp [rest, Control.held, Return.held, Task.duty?] at hlength
    | @back _ _ _ _ _ reply _ _ hstays =>
        have hsame := hcontrol hstays
        cases reply <;> contradiction
  · -- All have been told before.
    obtain ⟨j, rfl, hends⟩ := hall.exists_ends
    obtain ⟨-, htold, -⟩ := hends.completion hstart
    have hprefix : r.told id j <+: r.told id k := ledger_prefix _ (Nat.le_of_succ_le hmk)
    have hlength := hprefix.length_le
    rw [htold, List.length_map] at hlength
    obtain ⟨hlt, -⟩ := List.getElem?_eq_some_iff.1 hkept
    rw [hwrites.kept_eq hstart (Nat.le_of_lt hwk)] at hlt
    have hwj : w ≤ j := Nat.le_of_lt_succ hall.back.lt
    rw [hwrites.kept_eq hstart hwj] at hlength
    omega

/-- Of each place in the list the subscriber is called once. -/
theorem CallsNext.once {calls' : List (Subscriber H.Fn × Except Payload (Value H.Data H.Fn))}
    {subscriber' : Subscriber H.Fn} {subscribers' : List (Subscriber H.Fn)}
    (h : r.CallsNext id w t v stack calls subscriber subscribers k)
    (h' : r.CallsNext id w t v stack calls' subscriber' subscribers' n)
    (hlength : calls.length = calls'.length) : k = n := by
  have htold {calls : List (Subscriber H.Fn × Except Payload (Value H.Data H.Fn))}
      {subscriber : Subscriber H.Fn} {subscribers : List (Subscriber H.Fn)} {k : Nat}
      (h : r.CallsNext id w t v stack calls subscriber subscribers k) :
      (r.world k).tells id (r.action k) = [(subscriber, v)] ∧
        (r.told id k).length = calls.length := by
    obtain ⟨l, hnotified, hturn⟩ := h
    have hdoes := hturn.turns.does
    obtain ⟨hwritten, hall, -⟩ := (completion hstart id k).2.of_duty (hdoes.duty (if_pos rfl))
    obtain ⟨w', hwk, hwrites'⟩ := exists_writes hstart hwritten
    obtain ⟨rfl, -⟩ := hwrites.unique hwrites'
    rw [hwrites.kept_eq hstart (Nat.le_of_lt hwk), hnotified.split] at hall
    refine ⟨hdoes.tells_notify, ?_⟩
    simpa using (congrArg List.length hall).symm
  obtain ⟨hentry, htold₁⟩ := htold h
  obtain ⟨hentry', htold₂⟩ := htold h'
  exact entry_unique (fun k => (r.world k).tells id (r.action k)) hentry hentry'
    (htold₁.trans (hlength.trans htold₂.symm))

/-- Whoever subscribes once the value is there is called on the spot. -/
theorem Writes.tells_late {stack' : List (Return H)} (hwn : w < n)
    (h : r.Turns n t' (.run (.subscribe id subscriber)) stack') :
    r.IsAt (n + 1) t' (.run (.tell subscriber v)) (.holding [.promise id] :: stack') ∧
      (r.world (n + 1)).heap = (r.world n).heap := by
  have hcompletion := (completion hstart id n).2
  rw [hwrites.written_of_lt hstart hwn] at hcompletion
  obtain ⟨ty, subscribers, hpromise⟩ := hcompletion.value
  have hturn (name : Option String) : Thread.turn? t' (r.world n).heap (r.world n).state
      ⟨name, .run (.subscribe id subscriber), stack'⟩ = some ((r.world n).state, stack',
        .call (r.world n).heap (.tell subscriber v) (.holding [.promise id])) := by
    simp [Thread.turn?, Task.turn, hpromise, Promise.subscribe]
  exact h.isAt hturn rfl rfl fun _ => rfl

/-- Whoever completes the promise again gets his own value back. -/
theorem Writes.rejects {stack' : List (Return H)} (hwn : w < n)
    (h : r.Turns n t' (.run (.fill id v')) stack') :
    (∃ ty, r.IsAt (n + 1) t' (.ret (.err .unit ty v')) stack') ∧
      (r.world (n + 1)).heap = (r.world n).heap := by
  have hcompletion := (completion hstart id n).2
  rw [hwrites.written_of_lt hstart hwn] at hcompletion
  obtain ⟨ty, subscribers, hpromise⟩ := hcompletion.value
  have hturn (name : Option String) : Thread.turn? t' (r.world n).heap (r.world n).state
      ⟨name, .run (.fill id v'), stack'⟩ =
        some ((r.world n).state, stack', .ret (r.world n).heap (.err .unit ty v')) := by
    simp [Thread.turn?, Task.turn, hpromise, Promise.write]
  obtain ⟨hat, hheap⟩ := h.isAt hturn rfl rfl fun _ => rfl
  exact ⟨⟨ty, hat⟩, hheap⟩

/-- A promise whose value is there and whose subscribers have been taken stays so. -/
theorem Writes.emptied (hbegin : r.Turns w t (.run (.fill id v)) stack)
    (htake : r.TurnsFirst (w + 1) k t (.run (.take id v)) stack) (hkn : k < n) :
    ∃ ty, (r.world n).heap.promises[id]? = some ⟨ty, some v, []⟩ := by
  have hwn : w < n := Nat.lt_of_succ_le (Nat.le_trans htake.stays.1 (Nat.le_of_lt hkn))
  rcases hwrites.notifying_or hstart hbegin hwn with hnotifying | ⟨calls, m, hm, hall⟩
  · refine (hnotifying.emptied hstart).resolve_left fun hstays => ?_
    obtain ⟨name, hwake⟩ := hwrites.isAt_wake hstart htake
    obtain ⟨name', htake'⟩ := hstays.2 (k + 1) (Nat.le_succ_of_le htake.stays.1) hkn
    have hsame := hwake.symm.trans htake'
    simp at hsame
  · obtain ⟨j, rfl, hends⟩ := hall.exists_ends
    exact hends.emptied hstart (Nat.le_of_succ_le hm)

/-- The call that has written the value comes back if each of the subscribers that it calls does. -/
theorem Fair.exists_hasNotifiedAll (hfair : r.Fair)
    (hbegin : r.Turns w t (.run (.fill id v)) stack)
    (hcalls : ∀ calls subscriber subscribers k,
      r.CallsNext id w t v stack calls subscriber subscribers k →
        ∃ m reply, r.CallEnds k m t reply (rest id v stack subscribers (firstPanic calls))) :
    ∃ calls m, r.HasNotifiedAll id w t v stack calls m := by
  have hall {calls : List (Subscriber H.Fn × Except Payload (Value H.Data H.Fn))}
      {subscribers : List (Subscriber H.Fn)} {l : Nat}
      (h : r.HasNotified id w t v stack calls subscribers l) :
      ∃ calls k, r.CallsNoMore id w t v stack calls k := by
    induction subscribers generalizing calls l with
    | nil =>
        obtain ⟨k, hturn⟩ := hfair.exists_turnsFirst h.isAt fun _ => trivial
        exact ⟨calls, k, l, h, hturn⟩
    | cons subscriber subscribers ih =>
        obtain ⟨k, hturn⟩ := hfair.exists_turnsFirst h.isAt fun _ => trivial
        obtain ⟨m, reply, hends⟩ := hcalls calls subscriber subscribers k ⟨l, h, hturn⟩
        obtain ⟨j, hback⟩ := hfair.exists_turnsFirst hends.back fun _ => by
          cases reply <;> exact List.cons_ne_nil _ _
        exact ih (h.called hturn hends hback)
  obtain ⟨m, htake⟩ := hfair.exists_turnsFirst (hwrites.isAt_take hstart hbegin) fun _ => trivial
  obtain ⟨j, hwake⟩ := hfair.exists_turnsFirst (hwrites.isAt_wake hstart htake) fun _ => trivial
  obtain ⟨calls, k, hlast⟩ := hall (.taken htake hwake)
  have hwk : w < k + 1 := by
    obtain ⟨l, hnotified, hturn⟩ := hlast
    exact Nat.lt_succ_of_lt (Nat.lt_of_lt_of_le hnotified.lt hturn.stays.1)
  rcases hwrites.notifying_or hstart hbegin hwk with hnotifying | ⟨calls, m, -, hall⟩
  · exact absurd hnotifying.isAbove hlast.goesBack.not_above
  · exact ⟨calls, m, hall⟩

end

/-- The call that writes the value of a promise notifies all its subscribers in turn, whatever they
do. -/
theorem completes_in_turn (hstart : (r.world 0).Starting) (hwrites : r.Writes id w t v)
    (hbegin : r.Turns w t (.run (.fill id v)) stack) : r.CompletesInTurn id w t v stack where
  goes hwn := hwrites.notifying_or hstart hbegin hwn
  calls h := h.isAt
  only h := hwrites.callsNext_of_does hstart hbegin h
  once h h' hlength := h.once hstart hwrites h' hlength
  late hwn h := hwrites.tells_late hstart hwn h
  again hwn h := hwrites.rejects hstart hwn h
  value hwn := (promised?_eq_some hstart).2 ⟨w, t, hwn, hwrites⟩
  emptied htake hkn := hwrites.emptied hstart hbegin htake hkn
  ends hfair hcalls := hfair.exists_hasNotifiedAll hstart hwrites hbegin hcalls

end Run

namespace Drill

/-- Of the three subscribers two panic; the second one subscribes to the promise and completes it
again. -/
def reentrant : Script
  | 0 => [.ask (.newPromise .text), .ask (.subscribe 0 ⟨2, ∅⟩), .ask (.subscribe 0 ⟨3, ∅⟩),
      .ask (.subscribe 0 ⟨4, ∅⟩), .ask (.fill 0 (.text "first"))]
  | 2 => [.raise (.text "early")]
  | 3 => [.ask (.subscribe 0 ⟨5, ∅⟩), .ask (.fill 0 (.text "again"))]
  | 4 => [.raise (.text "late")]
  | _ => []

def reentered : Run (host reentrant) := run reentrant [] (List.replicate 60 0)

/-- A promise is completed at time `k` or later, and nobody is left to notify at time `m` only. -/
def completesAt (k m n : Nat) : Task (host reentrant) → Bool
  | .fill _ _ => k ≤ n
  | .notify _ _ [] _ => n == m
  | _ => true

set_option maxRecDepth 4000 in
/-- All three are called, the subscription in between is served on the spot and the second value is
rejected; the call ends with the first panic. -/
theorem reentered_completes_in_turn :
    (∃ calls m, reentered.HasNotifiedAll 0 17 0 (.text "first") [.user (0, 5)] calls m ∧
      calls.map Prod.fst = [subscriber 2, subscriber 3, subscriber 4] ∧
        firstPanic calls = some (.text "early")) ∧
      reentered.IsAt 32 0 (.run (.tell (subscriber 5) (.text "first")))
        [.holding [.promise 0], .user (3, 1), .after (.give .unit),
          .notifying 0 (.text "first") [subscriber 4] (some (.text "early")), .user (0, 5)] ∧
        ∃ ty, reentered.IsAt 42 0 (.ret (.err .unit ty (.text "again")))
          [.user (3, 2), .after (.give .unit),
            .notifying 0 (.text "first") [subscriber 4] (some (.text "early")), .user (0, 5)] := by
  have hcheck {n : Nat} {t : ThreadId} {task : Task (host reentrant)}
      (h : reentered.Does n t task) : completesAt 17 53 n task := check_of_does (by decide) h
  have hwrites : reentered.Writes 0 17 0 (.text "first") :=
    ⟨⟨⟨rfl, _, _, rfl⟩, by decide⟩, fun m t v hm hcompletes => by
      have hlate := hcheck hcompletes.1
      simp only [completesAt, decide_eq_true_eq] at hlate
      omega⟩
  have hturn := Run.completes_in_turn (start_starting reentrant []) hwrites ⟨rfl, _, rfl⟩
  refine ⟨?_, (hturn.late (n := 31) (by decide) ⟨rfl, _, rfl⟩).1,
    (hturn.again (n := 41) (by decide) ⟨rfl, _, rfl⟩).1⟩
  have hback : reentered.GoesBack 54 0 (.error (.text "early")) [.user (0, 5)] := ⟨_, rfl⟩
  rcases hturn.goes (n := 54) (by decide) with hnotifying | ⟨calls, m, -, hall⟩
  · exact absurd hnotifying.isAbove hback.not_above
  · refine ⟨calls, m, hall, hall.subscribers.trans rfl, ?_⟩
    obtain ⟨k, rfl, hends⟩ := hall.exists_ends
    have hlast := hcheck hends
    simp only [completesAt, beq_iff_eq] at hlast
    subst hlast
    exact Run.verdict_eq_error_iff.1 (hall.back.back.unique hback)

end Drill

end Trampoline
