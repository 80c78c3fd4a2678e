import Trampoline.Proofs.Endings
import Trampoline.Proofs.Failing
import Trampoline.Proofs.Matching

/-!
The thread that calls for an interpretation and waits for its exit in a channel. It interprets as
far as it gets, comes back when the interpretation has ended or is parked, and waits then.
-/

namespace Trampoline

variable {H : Host}

/-- How far a thread is that has started an interpretation above a stack: it goes on with it or does
something for it, is about to end it, or is back. -/
inductive Thread.Interprets (finish : Finish H.Fn) (base : List (Return H)) : Thread H → Prop where
  | runs {name : Option String} {task : Task H} {stage : Stage H.Data H.Fn} :
      task.pending? = some (stage, finish) → Interprets finish base ⟨name, .run task, base⟩
  | waits {name : Option String} {control : Control H} {above : List (Return H)} {back : Return H}
      {stage : Stage H.Data H.Fn} :
      back.pending? = some (stage, finish) →
        Interprets finish base ⟨name, control, above ++ back :: base⟩
  | concludes {name : Option String} {exit : Exit (Outcome H.Data H.Fn)} {refs : List Ref} :
      Interprets finish base ⟨name, .run (.conclude exit finish), .holding refs :: base⟩
  | ends {name : Option String} {refs : List Ref} :
      Interprets finish base ⟨name, .ret .unit, .holding refs :: base⟩
  | back {name : Option String} : Interprets finish base ⟨name, .ret .unit, base⟩

/-- A return that goes on with a task, whatever the reply. -/
def Return.GoesOnWith (back : Return H) (next : Task H) : Prop :=
  ∀ heap v, back.resume heap v = .run heap next

theorem Return.goesOnWith_after {next : Task H} : (Return.after next).GoesOnWith next :=
  fun _ _ => rfl

theorem Return.goesOnWith_polling {value error : Ty} {future : FutureId} {id : ChannelId} :
    (Return.polling (H := H) value error future id).GoesOnWith (.collect value error future id) :=
  fun _ _ => rfl

theorem Task.concludeTurn_channel_of_hasTags {value error : Ty} {exit : Exit (Outcome H.Data H.Fn)}
    (hexit : exit.HasTags value error) (heap : Heap H.Data H.Fn) (id : ChannelId) :
    concludeTurn (H := H) heap exit (.channel value error id) =
      .ret (heap.send id exit) .unit := by
  cases exit with
  | panicked payload => rfl
  | settled o => simp only [concludeTurn, Exit.restore_of_hasTags (hexit o rfl)]

namespace Thread.Interprets

variable {finish : Finish H.Fn} {base stack : List (Return H)} {back : Return H}
  {thread thread' : Thread H}

theorem exists_above (h : thread.Interprets finish base) :
    ∃ above, thread.stack = above ++ base := by
  cases h with
  | runs => exact ⟨[], rfl⟩
  | @waits name control above back => exact ⟨above ++ [back], by simp⟩
  | @concludes name exit refs => exact ⟨[.holding refs], rfl⟩
  | @ends name refs => exact ⟨[.holding refs], rfl⟩
  | back => exact ⟨[], rfl⟩

theorem ended (h : thread.Interprets finish (back :: stack)) : thread.ended = false := by
  obtain ⟨above, hstack⟩ := h.exists_above
  obtain ⟨name, control, stack⟩ := thread
  simp only at hstack
  subst hstack
  cases control with
  | ret v => cases above <;> rfl
  | raise payload => cases above <;> rfl
  | _ => rfl

theorem not_raises {name : Option String} {payload : Payload} :
    ¬Thread.Interprets finish base ⟨name, .raise payload, base⟩ := by
  intro h
  generalize hthread : (⟨name, .raise payload, base⟩ : Thread H) = thread at h
  cases h with
  | waits =>
      have hlength := congrArg (fun thread : Thread H => thread.stack.length) hthread
      simp only [List.length_append, List.length_cons] at hlength
      omega
  | _ => cases hthread

theorem isAbove (h : thread.Interprets finish (back :: stack)) : thread.IsAbove stack := by
  obtain ⟨above, hstack⟩ := h.exists_above
  exact ⟨above ++ [back], by simpa using hstack, by simp⟩

/-- A thread that waits goes on waiting, or wakes up. -/
theorem of_waits (h : thread.Interprets finish (back :: stack))
    (hstack : thread'.stack = thread.stack) (hready : thread.IsReady → thread' = thread) :
    thread'.Interprets finish (back :: stack) := by
  cases h with
  | runs hpending => exact hready trivial ▸ .runs hpending
  | waits hpending =>
      obtain ⟨name, control, stack'⟩ := thread'
      obtain rfl : stack' = _ := hstack
      exact .waits hpending
  | concludes => exact hready trivial ▸ .concludes
  | ends => exact hready (List.cons_ne_nil _ _) ▸ .ends
  | back => exact hready (List.cons_ne_nil _ _) ▸ .back

theorem heard (h : thread.Interprets finish (back :: stack)) (notified : Option Gate) :
    (thread.heard notified).Interprets finish (back :: stack) :=
  h.of_waits (thread.stack_heard notified) fun hready => hready.heard notified

/-- A thread that takes its turn goes on with its interpretation, unless it is back from it, ends
it, or lets go of it with the panic of a submission. -/
theorem turn {t : ThreadId} {heap : Heap H.Data H.Fn} {state state' : H.State}
    {rest : List (Return H)} {turn : Turn H} (h : thread.Interprets finish base)
    (hturn : thread.Turning t heap state state' rest turn) :
    Thread.Interprets finish base ⟨thread.name, turn.control, turn.pushed ++ rest⟩ ∨
      (∃ name, thread = ⟨name, .ret .unit, base⟩) ∨
      (∃ name exit above, thread = ⟨name, .run (.conclude exit finish), above ++ base⟩ ∧
        (above = [] ∨ ∃ refs, above = [.holding refs])) ∨
      ∃ name payload node frames last,
        thread = ⟨name, .raise payload, .after (.park node frames last finish) :: base⟩ := by
  cases h with
  | @runs name task stage hpending =>
      cases hturn with
      | move => contradiction
      | task =>
          cases task with
          | drive i last finish' =>
              obtain ⟨-, rfl⟩ := Prod.mk.inj (Option.some.inj hpending)
              simp only [Task.turn, Task.driveTurn]
              cases i.step with
              | next j => exact .inl (.runs rfl)
              | ask question post frames => exact .inl (@waits H _ base _ _ [] _ _ rfl)
              | suspend r scheduler frames => exact .inl (@waits H _ base _ _ [] _ _ rfl)
              | finish exit => exact .inl .concludes
          | park node frames last finish' =>
              obtain ⟨-, rfl⟩ := Prod.mk.inj (Option.some.inj hpending)
              simp only [Task.turn, Task.parkTurn]
              split
              · exact .inl .back
              · split
                · exact .inl (.runs rfl)
                · exact .inl .back
          | resume exit frames finish' =>
              obtain ⟨-, rfl⟩ := Prod.mk.inj (Option.some.inj hpending)
              exact .inl (.runs rfl)
          | conclude exit finish' =>
              obtain ⟨-, rfl⟩ := Prod.mk.inj (Option.some.inj hpending)
              exact .inr (.inr (.inl ⟨name, exit, [], rfl, .inl rfl⟩))
          | _ => contradiction
  | @waits name control above back stage hback =>
      have habove {above' : List (Return H)} (hrest : rest = above' ++ back :: base) :
          Thread.Interprets finish base ⟨name, turn.control, turn.pushed ++ rest⟩ := by
        rw [hrest, ← List.append_assoc]
        exact .waits hback
      rcases hturn.pops with hrest | ⟨top, hstack, hpops⟩
      · exact .inl (habove hrest)
      · cases above with
        | cons _ above => exact .inl (habove (List.cons.inj hstack).2.symm)
        | nil =>
            obtain ⟨rfl, rfl⟩ := List.cons.inj hstack
            cases back with
            | answering post frames last applied finish' =>
                obtain ⟨-, rfl⟩ := Prod.mk.inj (Option.some.inj hback)
                rcases hpops with ⟨v, rfl, rfl⟩ | ⟨payload, rfl, rfl⟩
                · exact .inl (.runs rfl)
                · exact .inl (.runs rfl)
            | after task =>
                cases task with
                | park node frames last finish' =>
                    obtain ⟨-, rfl⟩ := Prod.mk.inj (Option.some.inj hback)
                    rcases hpops with ⟨v, rfl, rfl⟩ | ⟨payload, rfl, rfl⟩
                    · exact .inl (.runs rfl)
                    · exact .inr (.inr (.inr ⟨name, payload, node, frames, last, rfl⟩))
                | _ => contradiction
            | _ => contradiction
  | @concludes name exit refs =>
      exact .inr (.inr (.inl ⟨name, exit, [.holding refs], rfl, .inr ⟨refs, rfl⟩⟩))
  | ends =>
      cases hturn with
      | ret => exact .inl .back
  | @back name => exact .inr (.inl ⟨name, rfl⟩)

end Thread.Interprets

theorem Control.replied_injective {reply reply' : Except Payload (Value H.Data H.Fn)}
    (h : Control.replied (H := H) reply = .replied reply') : reply = reply' := by
  cases reply with
  | ok v =>
      cases reply' with
      | ok w => exact congrArg _ (Control.ret.inj h)
      | error payload => contradiction
  | error payload =>
      cases reply' with
      | ok w => contradiction
      | error payload' => exact congrArg _ (Control.raise.inj h)

/-- What a caller gets for the exit of an interpretation: the outcome as a result, or the panic. -/
def Exit.reply {D F : Type} (value error : Ty) : Exit (Outcome D F) → Except Payload (Value D F)
  | .settled o => .ok (.ofOutcome value error o)
  | .panicked payload => .error payload

namespace Thread

/-- How far a thread is that waits above a stack for what comes out of a channel, and whether it has
been told that nothing can come any more. -/
inductive Awaits (value error : Ty) (id : ChannelId) (warning : Event) (stack : List (Return H)) :
    Bool → Thread H → Prop where
  | receives {name : Option String} :
      Awaits value error id warning stack false
        ⟨name, .run (.receive value error id warning), stack⟩
  | sleeps {name : Option String} :
      Awaits value error id warning stack false
        ⟨name, .asleep (.channel id) (.receive value error id warning) (.lost warning), stack⟩
  | warns {name : Option String} :
      Awaits value error id warning stack true ⟨name, .run (.lost warning), stack⟩
  | forever {name : Option String} :
      Awaits value error id warning stack true
        ⟨name, .asleep .forever (.give .unit) (.give .unit), stack⟩

theorem Awaits.isAbove {value error : Ty} {id : ChannelId} {warning : Event}
    {stack : List (Return H)} {lost : Bool} {thread : Thread H}
    (h : thread.Awaits value error id warning stack lost) : thread.IsAbove stack := by
  cases h <;> exact ⟨[], rfl, by simp [Control.held]⟩

end Thread

theorem Task.turn_receive_exit {value error : Ty} {exit : Exit (Outcome H.Data H.Fn)}
    {heap : Heap H.Data H.Fn} {id : ChannelId} (h : heap.received? id = some exit) (warning : Event)
    (here : Here) (stack : List (Return H)) :
    (Task.receive (H := H) value error id warning).turn here stack heap =
      ⟨heap, [], .replied (exit.reply value error), none, none⟩ := by
  cases exit with
  | settled o => simp only [turn, h]; rfl
  | panicked payload => simp only [turn, h]; rfl

namespace Run

variable {r : Run H} {n m : Nat} {t : ThreadId} {name : Option String} {stack : List (Return H)}

/-- A thread that sleeps at no gate stays as it is until it takes its turn and wakes up. -/
theorem next_of_asleep {wait : Wait H} {woken missed : Task H}
    (ht : (r.world n).threads[t]? = some ⟨name, .asleep wait woken missed, stack⟩)
    (hwait : ∀ gate deadline, wait ≠ .gate gate deadline) :
    (r.world (n + 1)).threads[t]? = some ⟨name, .asleep wait woken missed, stack⟩ ∨
      r.action n = .thread t ∧
        (((r.world n).arrival wait = some true ∧
            (r.world (n + 1)).threads[t]? = some ⟨name, .run woken, stack⟩) ∨
          ((r.world n).arrival wait = some false ∨ (r.world n).isDisconnected t = true) ∧
            (r.world (n + 1)).threads[t]? = some ⟨name, .run missed, stack⟩) := by
  by_cases haction : r.action n = .thread t
  · refine .inr ⟨haction, ?_⟩
    have hstep : (r.world n).step? t = some (r.world (n + 1)) := by
      have := r.step n
      rwa [haction] at this
    simp only [World.step?, ht] at hstep
    split at hstep
    · rename_i arrived harrived
      rw [← Option.some.inj hstep, World.threads_rouse arrived ht, if_pos rfl]
      cases arrived with
      | true => exact .inl ⟨harrived, rfl⟩
      | false => exact .inr ⟨.inl harrived, rfl⟩
    · split at hstep
      · rename_i hdisconnected
        rw [← Option.some.inj hstep, World.threads_rouse false ht, if_pos rfl]
        exact .inr ⟨.inr hdisconnected, rfl⟩
      · contradiction
  · refine .inl ((r.ordered n).thread_of_other (r.step n) haction ht (fun notified => ?_) rfl)
    cases notified with
    | none => rfl
    | some gate =>
        cases wait with
        | gate gate' deadline => exact absurd rfl (hwait gate' deadline)
        | _ => rfl

/-- Who sleeps forever does not wake. -/
theorem next_of_forever {woken missed : Task H}
    (ht : (r.world n).threads[t]? = some ⟨name, .asleep .forever woken missed, stack⟩) :
    (r.world (n + 1)).threads[t]? = some ⟨name, .asleep .forever woken missed, stack⟩ := by
  rcases next_of_asleep ht (by simp) with hsame | ⟨-, ⟨harrival, -⟩ | ⟨hmissed, -⟩⟩
  · exact hsame
  · simp [World.arrival] at harrival
  · rcases hmissed with harrival | hdisconnected
    · simp [World.arrival] at harrival
    · simp [World.isDisconnected, World.awaits, ht] at hdisconnected

/-- A thread that waits goes on waiting, or is to warn as nothing can come, or goes back with what
is in the channel. -/
theorem receives_next {value error : Ty} {id : ChannelId} {warning : Event} {thread : Thread H}
    (ht : (r.world n).threads[t]? = some thread)
    (h : thread.Awaits value error id warning stack false) :
    (∃ thread', (r.world (n + 1)).threads[t]? = some thread' ∧
        thread'.Awaits value error id warning stack false) ∨
      ((r.world n).heap.received? id = none ∧ (r.world n).hasSender id = false ∧
        ∃ name, (r.world (n + 1)).threads[t]? = some ⟨name, .run (.lost warning), stack⟩) ∨
      ∃ exit, (r.world n).heap.received? id = some exit ∧
        r.GoesBack (n + 1) t (exit.reply value error) stack := by
  cases h with
  | receives =>
      cases hreceived : (r.world n).heap.received? id with
      | none =>
          rcases next_of_turn ht rfl with ⟨-, hsame⟩ | ⟨-, -, hnext⟩
          · exact .inl ⟨_, hsame, .receives⟩
          · simp only [Task.turn, hreceived] at hnext
            exact .inl ⟨_, hnext, .sleeps⟩
      | some exit =>
          rcases next_of_turn ht rfl with ⟨-, hsame⟩ | ⟨-, -, hnext⟩
          · exact .inl ⟨_, hsame, .receives⟩
          · rw [Task.turn_receive_exit hreceived] at hnext
            exact .inr (.inr ⟨exit, rfl, _, hnext⟩)
  | sleeps =>
      rcases next_of_asleep ht (by simp) with hsame | ⟨-, ⟨-, hwoken⟩ | ⟨hmissed, hlost⟩⟩
      · exact .inl ⟨_, hsame, .sleeps⟩
      · exact .inl ⟨_, hwoken, .receives⟩
      · have hgone : (r.world n).heap.received? id = none ∧ (r.world n).hasSender id = false := by
          rcases hmissed with harrival | hdisconnected
          · simp only [World.arrival] at harrival
            split at harrival <;> simp at harrival
          · simpa [World.isDisconnected, World.awaits, ht] using hdisconnected
        exact .inr (.inl ⟨hgone.1, hgone.2, _, hlost⟩)

/-- A thread that waits goes on waiting, or goes back with what is in the channel. -/
theorem awaits_next {value error : Ty} {id : ChannelId} {warning : Event} {lost : Bool}
    {thread : Thread H} (ht : (r.world n).threads[t]? = some thread)
    (h : thread.Awaits value error id warning stack lost) :
    (∃ thread' lost', (r.world (n + 1)).threads[t]? = some thread' ∧
        thread'.Awaits value error id warning stack lost' ∧
          (lost' = lost ∨
            (r.world n).heap.received? id = none ∧ (r.world n).hasSender id = false)) ∨
      ∃ exit, (r.world n).heap.received? id = some exit ∧
        r.GoesBack (n + 1) t (exit.reply value error) stack := by
  cases lost with
  | false =>
      rcases receives_next ht h with ⟨_, ht', h'⟩ | ⟨hreceived, hsender, _, hlost⟩ | hback
      · exact .inl ⟨_, _, ht', h', .inl rfl⟩
      · exact .inl ⟨_, _, hlost, .warns, .inr ⟨hreceived, hsender⟩⟩
      · exact .inr hback
  | true =>
      cases h with
      | warns =>
          rcases next_of_turn ht rfl with ⟨-, hsame⟩ | ⟨-, -, hnext⟩
          · exact .inl ⟨_, _, hsame, .warns, .inl rfl⟩
          · exact .inl ⟨_, _, hnext, .forever, .inl rfl⟩
      | forever => exact .inl ⟨_, _, next_of_forever ht, .forever, .inl rfl⟩

/-- A thread that waits for what is in the channel goes back with it, unless it has been told that
nothing can come. -/
theorem Fair.exists_goesBack {value error : Ty} {id : ChannelId} {warning : Event}
    {thread : Thread H} {exit : Exit (Outcome H.Data H.Fn)} (hfair : r.Fair)
    (ht : (r.world n).threads[t]? = some thread)
    (h : thread.Awaits value error id warning stack false)
    (hreceived : ∀ m, n ≤ m → (r.world m).heap.received? id = some exit) :
    ∃ m, n < m ∧ r.GoesBack m t (exit.reply value error) stack := by
  have hreceives {m : Nat} {name : Option String} (hm : n ≤ m)
      (ht : (r.world m).threads[t]? =
        some ⟨name, .run (.receive value error id warning), stack⟩) :
      ∃ m, n < m ∧ r.GoesBack m t (exit.reply value error) stack := by
    obtain ⟨k, hk, haction, ht'⟩ := hfair.exists_ready ht trivial
    obtain ⟨-, hnext⟩ := next_of_action haction ht' rfl
    rw [Task.turn_receive_exit (hreceived k (Nat.le_trans hm hk))] at hnext
    exact ⟨k + 1, by omega, _, hnext⟩
  cases h with
  | receives => exact hreceives (Nat.le_refl n) ht
  | sleeps =>
      have harrival (m : Nat) (hm : n ≤ m) : (r.world m).arrival (.channel id) = some true := by
        simp [World.arrival, hreceived m hm]
      obtain ⟨m, hm, haction, ht'⟩ := hfair.exists_action ht
        (fun notified => by cases notified <;> rfl)
        rfl fun m hm hsleeps => by simp [World.step?, hsleeps, harrival m hm]
      have hstep := r.step m
      simp only [haction, World.does, World.step?, ht', harrival m hm, Option.some.injEq] at hstep
      have hwoken := World.threads_rouse (w := r.world m) true ht' t
      rw [if_pos rfl, hstep] at hwoken
      exact hreceives (Nat.le_succ_of_le hm) hwoken

/-- A thread that has come to the end of an interpretation which is not under way on it any more
comes back and goes on with the next task. -/
theorem Fair.exists_back_of_off {thread : Thread H} {finish : Finish H.Fn} {back : Return H}
    {next : Task H} (hfair : r.Fair) (hnext : back.GoesOnWith next)
    (ht : (r.world n).threads[t]? = some thread) (h : thread.Interprets finish (back :: stack))
    (hoff : ∀ l stage, (r.world n).pendingAt (.thread t l) ≠ some (stage, finish)) :
    ∃ m name, n < m ∧ (r.world m).threads[t]? = some ⟨name, .run next, stack⟩ := by
  have hback {m : Nat} {name : Option String} (hm : n ≤ m) (ht : (r.world m).threads[t]? =
      some ⟨name, .ret .unit, back :: stack⟩) :
      ∃ m name, n < m ∧ (r.world m).threads[t]? = some ⟨name, .run next, stack⟩ := by
    obtain ⟨j, hj, hthread⟩ := hfair.exists_next ⟨name, .run next, stack⟩ trivial ht
      fun j _ => ⟨_, _, _, rfl, by rw [hnext]; rfl⟩
    exact ⟨j, name, Nat.lt_of_le_of_lt hm hj, hthread⟩
  cases h with
  | runs hpending => exact absurd ((World.pendingAt_run ht).trans hpending) (hoff _ _)
  | waits hpending => exact absurd ((World.pendingAt_back ht).trans hpending) (hoff _ _)
  | concludes => exact absurd (World.pendingAt_run ht) (hoff _ _)
  | ends =>
      obtain ⟨j, hj, hbase⟩ := hfair.exists_held (show (r.world n).threads[t]? =
        some ⟨_, .replied (.ok .unit), .holding _ :: _⟩ from ht)
      exact hback (Nat.le_of_lt hj) hbase
  | back => exact hback (Nat.le_refl n) ht

/-- At time `n` thread `t` is at work above a stack. -/
def IsAbove (r : Run H) (n : Nat) (t : ThreadId) (stack : List (Return H)) : Prop :=
  ∃ thread, (r.world n).threads[t]? = some thread ∧ thread.IsAbove stack

theorem IsAbove.of_cons {back : Return H} (h : r.IsAbove n t (back :: stack)) :
    r.IsAbove n t stack := by
  obtain ⟨thread, ht, above, hstack, -⟩ := h
  exact ⟨thread, ht, above ++ [back], by simpa using hstack, by simp⟩

/-- At time `m` thread `t`, which has taken its turn at time `k` above a stack, goes back to the
stack with a reply or a panic, for the first time. -/
structure CallEnds (r : Run H) (k m : Nat) (t : ThreadId)
    (reply : Except Payload (Value H.Data H.Fn)) (stack : List (Return H)) : Prop where
  lt : k < m
  above : ∀ j, k < j → j < m → r.IsAbove j t stack
  back : r.GoesBack m t reply stack

theorem GoesBack.not_above {reply : Except Payload (Value H.Data H.Fn)}
    (h : r.GoesBack n t reply stack) : ¬r.IsAbove n t stack := by
  rintro ⟨thread, ht, above, hstack, hheld⟩
  obtain ⟨name, hback⟩ := h
  obtain rfl := Option.some.inj (hback.symm.trans ht)
  exact hheld (List.self_eq_append_left.1 hstack) (by cases reply <;> rfl)

/-- A thread goes back for the first time once. -/
theorem CallEnds.unique {k m' : Nat} {reply reply' : Except Payload (Value H.Data H.Fn)}
    (h : r.CallEnds k m t reply stack) (h' : r.CallEnds k m' t reply' stack) :
    m = m' ∧ reply = reply' := by
  have hlate {m m' : Nat} {reply reply' : Except Payload (Value H.Data H.Fn)}
      (h : r.CallEnds k m t reply stack) (h' : r.CallEnds k m' t reply' stack) : ¬m < m' := by
    exact fun hlt => h.back.not_above (h'.above m h.lt hlt)
  obtain rfl := Nat.le_antisymm (Nat.le_of_not_lt (hlate h' h)) (Nat.le_of_not_lt (hlate h h'))
  obtain ⟨name, hback⟩ := h.back
  obtain ⟨name', hback'⟩ := h'.back
  obtain ⟨-, hreply, -⟩ := Thread.mk.inj (Option.some.inj (hback.symm.trans hback'))
  exact ⟨rfl, Control.replied_injective hreply⟩

/-- A thread that stays in some phases above a stack until it goes back, in which case the reply is
a proper one, does so for all time or goes back with a proper reply. -/
theorem above_or_callEnds {k : Nat} {P : Nat → Prop}
    {R : Nat → Except Payload (Value H.Data H.Fn) → Prop} (hfirst : P (k + 1))
    (habove : ∀ n, P n → r.IsAbove n t stack)
    (hnext : ∀ n, k < n → P n →
      P (n + 1) ∨ ∃ reply, R (n + 1) reply ∧ r.GoesBack (n + 1) t reply stack) (hkn : k < n) :
    (P n ∧ ∀ j, k < j → j ≤ n → P j) ∨
      ∃ m reply, m ≤ n ∧ R m reply ∧ r.CallEnds k m t reply stack := by
  induction hkn with
  | refl =>
      refine .inl ⟨hfirst, fun j hkj hj => ?_⟩
      obtain rfl : j = k + 1 := by omega
      exact hfirst
  | @step n hkn ih =>
      rcases ih with ⟨hn, hall⟩ | ⟨m, reply, hm, hreply, hcall⟩
      · rcases hnext n hkn hn with hn' | ⟨reply, hreply, hback⟩
        · refine .inl ⟨hn', fun j hkj hj => ?_⟩
          rcases Nat.eq_or_lt_of_le hj with rfl | hlt
          · exact hn'
          · exact hall j hkj (Nat.le_of_lt_succ hlt)
        · refine .inr ⟨n + 1, reply, Nat.le_refl _, hreply, Nat.lt_succ_of_lt hkn,
            fun j hkj hj => habove j (hall j hkj (Nat.le_of_lt_succ hj)), hback⟩
      · exact .inr ⟨m, reply, Nat.le_succ_of_le hm, hreply, hcall⟩

/-- As long as the interpretation that is at `p` at time `b` is under way to its end, its exit can
still come through the channel. -/
def KeepsSender (r : Run H) (b : Nat) (p : Place) (id : ChannelId) : Prop :=
  ∀ n exit, r.EndsAt b p n exit → ∀ m, b ≤ m → m ≤ b + n → (r.world m).hasSender id = true

theorem keepsSender_of_over {b : Nat} {p : Place} {id : ChannelId} {x : Pending H.Data H.Fn}
    (hp : (r.world b).pendingAt p = some x) (hover : r.stage b p n = none)
    (hsender : ∀ m < b + n, b ≤ m → (r.world m).hasSender id = true) : r.KeepsSender b p id := by
  intro k exit hends m hbm hm
  have hkn := hends.lt_of_over hp hover
  exact hsender m (by omega) hbm

section Call

variable {b k : Nat} {p : Place} {value error : Ty} {i : Interpretation H.Data H.Fn}
  {id : ChannelId}
  {exit : Exit (Outcome H.Data H.Fn)} {thread : Thread H} {next : Task H} {finish : Finish H.Fn}

/-- A thread that takes the exit of the interpretation where it belongs ends it. -/
theorem endsAt_of_turns (hq : r.place b p n = some (.thread t stack.length))
    (h : r.Turns (b + n) t (.run (.conclude exit finish)) stack) : r.EndsAt b p n exit := by
  obtain ⟨haction, name, ht⟩ := h
  have hshift : (r.world (b + n)).shift (r.action (b + n)) =
      .moved (.thread t stack.length) [.finish exit] none := by
    rw [haction, World.shift_thread ht]
    rfl
  simp [EndsAt, deeds, hq, World.deeds, hshift]

/-- What the interpretation that is at `p` at time `b` ends with has these types. -/
def EndsTyped (r : Run H) (b : Nat) (p : Place) (value error : Ty) : Prop :=
  ∀ n exit, r.EndsAt b p n exit → exit.HasTags value error

theorem IsProper.endsTyped (h : r.IsProper b p value error) : r.EndsTyped b p value error :=
  fun _ _ hends => h.tags hends

/-- Where the host program keeps to types, what ends into a channel is of the channel's types. -/
theorem IsTyped.endsTyped {stage : Stage H.Data H.Fn} (h : r.IsTyped)
    (hp : (r.world b).pendingAt p = some (stage, .channel value error id)) :
    r.EndsTyped b p value error := by
  obtain ⟨T, hmismatch, htypes⟩ := h.types
  intro n exit hends o ho
  exact (((keepsTypes htypes hp hmismatch).settles n exit hends).2 o ho).1

/-- A submission panics `n` actions later, and lets go of the interpretation that is at `p` at time
`b`. -/
def LetsGo (r : Run H) (b : Nat) (p : Place) (n : Nat) (payload : Payload) : Prop :=
  ∃ t id frames last finish stack,
    r.Turns (b + n) t (.raise payload) (.after (.park id frames last finish) :: stack) ∧
      r.place b p n = some (.thread t stack.length)

theorem LetsGo.exists_submitting {x : Pending H.Data H.Fn} {payload : Payload}
    (hp : (r.world b).pendingAt p = some x) (h : r.LetsGo b p n payload) :
    ∃ t l id frames, r.place b p n = some (.thread t l) ∧
      r.stage b p n = some (.submitting id frames) ∧ (r.world (b + n)).Panics t l ∧
        r.stage b p (n + 1) = none := by
  obtain ⟨t, id, frames, last, finish', stack, ⟨haction, name, ht⟩, hplace⟩ := h
  have hat : (r.world (b + n)).pendingAt (.thread t stack.length) =
      some (.submitting id frames, finish') := World.pendingAt_top ht
  obtain ⟨stage, hat'⟩ := r.pendingAt_place hp hplace
  obtain ⟨rfl, rfl⟩ := Prod.mk.inj (Option.some.inj (hat'.symm.trans hat))
  have hshift : (r.world (b + n)).shift (r.action (b + n)) =
      .moved (.thread t stack.length) [] none := by
    rw [haction, World.shift_thread ht]
    rfl
  refine ⟨t, stack.length, id, frames, hplace, (r.stage_eq_some hp).2 ⟨_, hplace, hat⟩,
    ⟨name, payload, _, stack, ht, rfl⟩, ?_⟩
  simp [Run.stage, Run.place, hplace, World.next?, hshift]

/-- An interpretation that has been let go never ends. -/
theorem LetsGo.not_endsAt {x : Pending H.Data H.Fn} {payload : Payload}
    (hp : (r.world b).pendingAt p = some x) (h : r.LetsGo b p n payload) (m : Nat)
    (exit : Exit (Outcome H.Data H.Fn)) : ¬r.EndsAt b p m exit := by
  intro hends
  obtain ⟨t, l, id, frames, -, hstage, -, hover⟩ := h.exists_submitting hp
  have hmn := hends.lt_of_over hp hover
  obtain ⟨hconcluding, hnone, -⟩ := hends.stage hp
  rcases Nat.lt_succ_iff_lt_or_eq.1 hmn with hlt | rfl
  · rw [r.stage_eq_none_of_le hp hnone hlt] at hstage
    contradiction
  · rw [hstage] at hconcluding
    cases hconcluding

theorem IsProper.not_letsGo {x : Pending H.Data H.Fn} {payload : Payload}
    (h : r.IsProper b p value error) (hp : (r.world b).pendingAt p = some x) :
    ¬r.LetsGo b p n payload := by
  intro hletsGo
  obtain ⟨t, l, id, frames, hplace, hstage, hpanics, -⟩ := hletsGo.exists_submitting hp
  exact h.submits n t l id frames hplace hstage hpanics

variable (hstart : (r.world 0).Starting) (hprivate : r.IsPrivate id)
  (hp : (r.world b).pendingAt p = some (.driving i, .channel value error id))

section Typed

variable (htyped : r.EndsTyped b p value error)

include hstart hprivate hp htyped

/-- What the interpretation ends with is in its channel from then on, unless the receiver goes. -/
theorem EndsAt.received (h : r.EndsAt b p n exit) (hkept : ∀ k, k < m → ¬r.Drops k id)
    (hm : b + n < m) : (r.world m).heap.received? id = some exit := by
  obtain ⟨t, hdoes⟩ := exists_does_of_finish hp h
  have htags := htyped n exit h
  have hfull := hdoes.fills hstart hprivate (Task.concludeTurn_channel_of_hasTags htags _ id)
    fun k hk => hkept k (Nat.lt_trans hk hm)
  exact Heap.received?_eq_some.2 (full_of_le hfull hm hkept)

/-- Nothing else is ever in the channel. -/
theorem exists_endsAt_of_received (h : (r.world m).heap.received? id = some exit) :
    ∃ n, b + n < m ∧ r.EndsAt b p n exit := by
  have hinto : r.EndsInto b p id := ⟨_, _, _, hp⟩
  induction m with
  | zero =>
      rw [hinto.received_eq_none hstart hprivate (Nat.zero_le b)] at h
      contradiction
  | succ m ih =>
      have hlater (hm : (r.world m).heap.received? id = some exit) :
          ∃ n, b + n < m + 1 ∧ r.EndsAt b p n exit := by
        obtain ⟨n, hn, hends⟩ := ih hm
        exact ⟨n, Nat.lt_succ_of_lt hn, hends⟩
      rcases Nat.lt_or_ge m b with hmb | hbm
      · rw [hinto.received_eq_none hstart hprivate hmb] at h
        contradiction
      have hlt : id < (r.world m).heap.channels.size :=
        Nat.lt_of_lt_of_le (hinto.lt hstart hprivate) (channels_size_le hbm)
      have hfull := Heap.received?_eq_some.1 h
      rcases channel_next (Array.getElem?_eq_getElem hlt) with
        hsame | ⟨-, hclosed⟩ | ⟨t, value', error', exit₀, _, hconcludes, -, hsent⟩
      · refine hlater (Heap.received?_eq_some.2 ?_)
        rw [Array.getElem?_eq_getElem hlt, ← hsame, hfull]
      · rw [hclosed] at hfull
        cases hfull
      · cases hchannel : (r.world m).heap.channels[id] with
        | full exit' =>
            rw [hchannel, hfull] at hsent
            refine hlater (Heap.received?_eq_some.2 ?_)
            rw [Array.getElem?_eq_getElem hlt, hchannel]
            exact hsent.symm
        | closed =>
            rw [hchannel, hfull] at hsent
            cases Option.some.inj hsent
        | empty =>
            -- It is sent now, by the thread that ends the interpretation.
            obtain ⟨j, rfl⟩ := Nat.exists_eq_add_of_le hbm
            obtain ⟨haction, name, stack', ht⟩ := hconcludes
            have hat := World.pendingAt_run ht
            have hplace := hinto.place hstart hprivate ⟨_, _, _, hat⟩
            obtain ⟨_, hat'⟩ := r.pendingAt_place hp hplace
            obtain ⟨-, heq⟩ := Prod.mk.inj (Option.some.inj (hat.symm.trans hat'))
            obtain ⟨rfl, rfl, -⟩ := Finish.channel.inj heq
            have hends := endsAt_of_turns hplace ⟨haction, name, ht⟩
            have hchanges := Does.changes ⟨haction, name, stack', ht⟩ (by simp) fun _ _ =>
              Task.concludeTurn_channel_of_hasTags (htyped j exit₀ hends) _ id
            rw [hchanges.heap, Heap.send, Array.getElem?_modify, if_pos rfl,
              Array.getElem?_eq_getElem hlt, hchannel] at hfull
            obtain rfl := Channel.full.inj (Option.some.inj hfull)
            exact ⟨j, Nat.lt_succ_self _, hends⟩

/-- A thread that interprets goes on with that, or is back and goes on with the next task, or lets
go of its interpretation with the panic of a submission. -/
theorem interprets_next {back : Return H} (hnext : back.GoesOnWith next) (hbn : b ≤ n)
    (ht : (r.world n).threads[t]? = some thread)
    (h : thread.Interprets (.channel value error id) (back :: stack)) :
    (∃ thread', (r.world (n + 1)).threads[t]? = some thread' ∧
        thread'.Interprets (.channel value error id) (back :: stack)) ∨
      (∃ name, (r.world (n + 1)).threads[t]? = some ⟨name, .run next, stack⟩) ∨
        ∃ j payload, b + j = n ∧ r.LetsGo b p j payload ∧ r.action n = .thread t ∧
          r.GoesBack (n + 1) t (.error payload) (back :: stack) := by
  obtain ⟨j, rfl⟩ := Nat.exists_eq_add_of_le hbn
  have hinto : r.EndsInto b p id := ⟨_, _, _, hp⟩
  obtain ⟨thread', ht'⟩ := (r.ordered (b + j)).exists_thread (r.step (b + j)) ht h.ended
  cases (r.ordered (b + j)).becomes (r.step (b + j)) ht' with
  | waits hold hstack _ hready =>
      obtain rfl := Option.some.inj (ht.symm.trans hold)
      exact .inl ⟨thread', ht', h.of_waits hstack hready⟩
  | starts _ _ _ _ hnone =>
      rw [hnone] at ht
      contradiction
  | @acts thread₀ state rest turn haction hold hturn hheard =>
      obtain rfl := Option.some.inj (ht.symm.trans hold)
      subst hheard
      have hturning := Thread.turning hturn
      rcases h.turn hturning with hgoes | ⟨name, rfl⟩ | ⟨name, exit, above, rfl, habove⟩ |
        ⟨name, payload, node, frames, last, rfl⟩
      · exact .inl ⟨_, ht', hgoes.heard _⟩
      · obtain ⟨rfl, rfl, rfl⟩ := by
          simpa only [Thread.turn?, Option.some.injEq, Prod.mk.injEq] using hturn
        rw [hnext] at ht'
        exact .inr (.inl ⟨name, ht'⟩)
      · have hplace := hinto.place hstart hprivate ⟨_, _, _, World.pendingAt_run ht⟩
        have htags := htyped j exit (endsAt_of_turns hplace ⟨haction, name, ht⟩)
        cases hturning with
        | task =>
            rw [Task.turn, Task.concludeTurn_channel_of_hasTags htags] at ht'
            refine .inl ⟨_, ht', ?_⟩
            rcases habove with rfl | ⟨refs, rfl⟩
            · exact Thread.Interprets.back.heard none
            · exact Thread.Interprets.ends.heard none
      · have hplace := hinto.place hstart hprivate ⟨_, _, _, World.pendingAt_top ht⟩
        cases hturning with
        | raise =>
            exact .inr (.inr ⟨j, payload, rfl,
              ⟨t, node, frames, last, _, _, ⟨haction, name, ht⟩, hplace⟩, haction, name, ht'⟩)

end Typed

variable (hproper : r.IsProper b p value error)

include hstart hprivate hp hproper

variable {warning : Event}

/-- A caller that has blocked at time `b`, above a stack: it interprets, or waits for the exit. -/
def Blocked (r : Run H) (n : Nat) (t : ThreadId) (value error : Ty) (id : ChannelId)
    (warning : Event) (stack : List (Return H)) (lost : Bool) : Prop :=
  ∃ thread, (r.world n).threads[t]? = some thread ∧
    (thread.Interprets (.channel value error id)
        (.after (.receive value error id warning) :: stack) ∨
      thread.Awaits value error id warning stack lost)

omit hstart hprivate hp hproper in
theorem Blocked.isAbove {lost : Bool} (h : r.Blocked n t value error id warning stack lost) :
    r.IsAbove n t stack := by
  obtain ⟨thread, ht, hinterprets | hawaits⟩ := h
  · exact ⟨thread, ht, hinterprets.isAbove⟩
  · exact ⟨thread, ht, hawaits.isAbove⟩

/-- A caller stays blocked until it goes back with the exit, and is not told that this cannot come
as long as it can. -/
theorem blocked_next {lost : Bool} (hbn : b ≤ n)
    (h : r.Blocked n t value error id warning stack lost) :
    (∃ lost', r.Blocked (n + 1) t value error id warning stack lost' ∧ (lost' = true → lost = true ∨
        (r.world n).heap.received? id = none ∧ (r.world n).hasSender id = false)) ∨
      ∃ exit, (r.world n).heap.received? id = some exit ∧
        r.GoesBack (n + 1) t (exit.reply value error) stack := by
  obtain ⟨thread, ht, hinterprets | hawaits⟩ := h
  · rcases interprets_next hstart hprivate hp hproper.endsTyped Return.goesOnWith_after hbn ht
        hinterprets with
      ⟨thread', ht', hinterprets'⟩ | ⟨name, hback⟩ | ⟨_, _, -, hletsGo, -, -⟩
    · exact .inl ⟨lost, ⟨thread', ht', .inl hinterprets'⟩, .inl⟩
    · exact .inl ⟨false, ⟨_, hback, .inr .receives⟩, by simp⟩
    · exact absurd hletsGo (hproper.not_letsGo hp)
  · rcases awaits_next ht hawaits with ⟨thread', lost', ht', hawaits', hlost⟩ | hanswered
    · refine .inl ⟨lost', ⟨thread', ht', .inr hawaits'⟩, fun htrue => hlost.imp_left fun heq => ?_⟩
      exact heq ▸ htrue
    · exact .inr hanswered

/-- A caller that blocks at time `k` is blocked, or has gone back with what its interpretation has
ended with. -/
theorem blocked_course (hk : k + 1 = b)
    (h : r.Blocked b t value error id warning stack false) (hkn : k < n) :
    (∃ lost, r.Blocked n t value error id warning stack lost ∧ (lost = true → ∃ m, k < m ∧ m < n ∧
        (r.world m).heap.received? id = none ∧ (r.world m).hasSender id = false)) ∨
      ∃ m c exit, m ≤ n ∧ r.EndsAt b p c exit ∧ b + c < m ∧
        r.CallEnds k m t (exit.reply value error) stack := by
  subst hk
  have hcourse := above_or_callEnds (r := r) (t := t)
    (P := fun n => ∃ lost, r.Blocked n t value error id warning stack lost ∧
      (lost = true → ∃ m, k < m ∧ m < n ∧
        (r.world m).heap.received? id = none ∧ (r.world m).hasSender id = false))
    (R := fun m reply => ∃ c exit, r.EndsAt (k + 1) p c exit ∧ k + 1 + c < m ∧
      reply = exit.reply value error)
    ⟨false, h, by simp⟩ (fun n ⟨_, hblocked, _⟩ => hblocked.isAbove) ?_ hkn
  · rcases hcourse with ⟨hn, -⟩ | ⟨m, _, hm, ⟨c, exit, hends, hc, rfl⟩, hcall⟩
    · exact .inl hn
    · exact .inr ⟨m, c, exit, hm, hends, hc, hcall⟩
  · rintro n hkn ⟨lost, hblocked, hlost⟩
    rcases blocked_next hstart hprivate hp hproper hkn hblocked with
      ⟨lost', hblocked', hlost'⟩ | ⟨exit, hreceived, hback⟩
    · refine .inl ⟨lost', hblocked', fun htrue => ?_⟩
      rcases hlost' htrue with hold | hnow
      · obtain ⟨m, hkm, hm, hgone⟩ := hlost hold
        exact ⟨m, hkm, Nat.lt_succ_of_lt hm, hgone⟩
      · exact ⟨n, hkn, Nat.lt_succ_self n, hnow⟩
    · obtain ⟨c, hc, hends⟩ :=
        exists_endsAt_of_received hstart hprivate hp hproper.endsTyped hreceived
      exact .inr ⟨_, ⟨c, exit, hends, Nat.lt_succ_of_lt hc, rfl⟩, hback⟩

omit hproper in
/-- When the interpretation has ended and is still to be come back from, its thread comes back and
goes on with the next task. -/
theorem Fair.exists_back {back : Return H} (hnext : back.GoesOnWith next) (hfair : r.Fair)
    (hends : r.EndsAt b p n exit) (ht : (r.world (b + n + 1)).threads[t]? = some thread)
    (h : thread.Interprets (.channel value error id) (back :: stack)) :
    ∃ m name, b + n < m ∧ (r.world m).threads[t]? = some ⟨name, .run next, stack⟩ := by
  have hinto : r.EndsInto b p id := ⟨_, _, _, hp⟩
  obtain ⟨m, name, hm, hback⟩ := hfair.exists_back_of_off hnext ht h fun l stage hat => by
    have hplace : r.place b p (n + 1) = some (.thread t l) :=
      hinto.place hstart hprivate ⟨_, _, _, hat⟩
    obtain ⟨-, hnone, -⟩ := hends.stage hp
    rw [(r.stage_eq_some hp).2 ⟨_, hplace, hat⟩] at hnone
    contradiction
  exact ⟨m, name, by omega, hback⟩

/-- A caller that blocks goes back with the exit of its interpretation when this has ended. -/
theorem callEnds (hfair : r.Fair) (hk : k + 1 = b) (hkept : ∀ k, ¬r.Drops k id)
    (hsender : r.KeepsSender b p id)
    (h : r.Blocked b t value error id warning stack false) (hends : r.EndsAt b p n exit) :
    ∃ m, b + n < m ∧ r.CallEnds k m t (exit.reply value error) stack := by
  have hreceived (m : Nat) (hm : b + n < m) :=
    hends.received hstart hprivate hp hproper.endsTyped (fun k _ => hkept k) hm
  have hcourse {m : Nat} (hkm : k < m) :=
    blocked_course hstart hprivate hp hproper hk h hkm
  -- Whoever goes back does so with this exit.
  have hanswered {c m : Nat} {exit' : Exit (Outcome H.Data H.Fn)} (hends' : r.EndsAt b p c exit')
      (hc : b + c < m) (hcall : r.CallEnds k m t (exit'.reply value error) stack) :
      ∃ m, b + n < m ∧ r.CallEnds k m t (exit.reply value error) stack := by
    obtain ⟨rfl, rfl⟩ := hends.unique hp hends'
    exact ⟨m, hc, hcall⟩
  rcases hcourse (show k < b + n + 1 by omega) with ⟨lost, ⟨thread, ht, hblocked⟩, hlost⟩ |
    ⟨m, c, exit', -, hends', hc, hcall⟩
  · have hcomes : ∃ m, b + n < m ∧ r.GoesBack m t (exit.reply value error) stack := by
      rcases hblocked with hinterprets | hawaits
      · obtain ⟨m, name, hm, hback⟩ :=
          Fair.exists_back hstart hprivate hp Return.goesOnWith_after hfair
          hends ht hinterprets
        obtain ⟨j, hj, hgoes⟩ := hfair.exists_goesBack hback .receives
          fun j hj => hreceived j (Nat.lt_of_lt_of_le hm hj)
        exact ⟨j, Nat.lt_trans hm hj, hgoes⟩
      · cases lost with
        | false =>
            obtain ⟨j, hj, hgoes⟩ := hfair.exists_goesBack ht hawaits
              fun j hj => hreceived j (by omega)
            exact ⟨j, by omega, hgoes⟩
        | true =>
            obtain ⟨m, hkm, hm, -, hgone⟩ := hlost rfl
            rw [hsender n exit hends m (by omega) (by omega)] at hgone
            contradiction
    obtain ⟨m, hm, hback⟩ := hcomes
    rcases hcourse (show k < m by omega) with ⟨lost', hblocked', -⟩ |
      ⟨m, c, exit', -, hends', hc, hcall⟩
    · exact absurd hblocked'.isAbove hback.not_above
    · exact hanswered hends' hc hcall
  · exact hanswered hends' hc hcall

end Call

end Run

end Trampoline
