import Trampoline.Proofs.Futures
import Trampoline.Proofs.Warning

/-!
Polls that warn. A poll that looks for the exit of a future finds that nobody can send it any more
exactly when the interpretation has been forsaken. The first such poll warns and comes back with
nothing, and so do all later ones, without a warning.
-/

namespace Trampoline

namespace Run

variable {H : Host} {r : Run H} {j k m n : Nat} {p : Place} {t t' : ThreadId} {value error : Ty}
  {future : FutureId} {id : ChannelId} {node : Node H.Data H.Fn} {x : Future H.Data H.Fn}
  {stack stack' : List (Return H)}

/-- At time `m` the poll that thread `t` has made at time `k` above a stack warns that the exit
cannot come. -/
structure HangsFor (r : Run H) (k m : Nat) (t : ThreadId) (value error : Ty) (future : FutureId)
    (id : ChannelId) (stack : List (Return H)) : Prop where
  polling : r.IsPolling k m t value error future id stack
  turns : r.Turns m t (.run (.hang value error future id)) stack
  received : (r.world m).heap.received? id = none

/-- Nobody touches a future while it is polled. -/
def PollsAlone (r : Run H) (value error : Ty) (future : FutureId) (id : ChannelId) : Prop :=
  ∀ k n t stack, r.IsPolling k n t value error future id stack → ¬r.Touches n future

namespace HangsFor

theorem traced (h : r.HangsFor k m t value error future id stack) :
    r.traced m = [.pendingForever] := by
  rw [h.turns.does.traced]
  simp [Task.traces, h.received]

/-- A poll that warns comes back at once, with nothing. -/
theorem callEnds (h : r.HangsFor k m t value error future id stack) :
    r.CallEnds k (m + 1) t (.ok (.pending value error)) stack := by
  obtain ⟨haction, name, ht⟩ := h.turns
  obtain ⟨-, hnext⟩ := next_of_action haction ht rfl
  simp only [Task.turn, h.received, Option.isSome_none, Bool.false_eq_true, if_false] at hnext
  exact ⟨Nat.lt_succ_of_lt h.polling.lt,
    fun j hkj hj => h.polling.above j hkj (Nat.le_of_lt_succ hj), name, hnext⟩

/-- The future is over then. -/
theorem future_succ (h : r.HangsFor k m t value error future id stack)
    (hx : (r.world m).heap.futures[future]? = some x) :
    (r.world (m + 1)).heap.futures[future]? = some .hung := by
  obtain ⟨haction, name, ht⟩ := h.turns
  rw [(next_of_action haction ht rfl).1]
  simp only [Task.turn, h.received, Option.isSome_none, Bool.false_eq_true, if_false]
  exact Heap.futures_setFuture_self ((r.world m).heap.emit .pendingForever) hx _

end HangsFor

/-- A future that is over never runs. -/
theorem over_of_le (hx : (r.world n).heap.futures[future]? = some x)
    (hfresh : ∀ node, x ≠ .fresh node) (hruns : ∀ id, x ≠ .running id) (hnm : n ≤ m) :
    ∃ y, (r.world m).heap.futures[future]? = some y ∧ (∀ node, y ≠ .fresh node) ∧
      ∀ id, y ≠ .running id := by
  induction hnm with
  | refl => exact ⟨x, hx, hfresh, hruns⟩
  | step _ ih =>
      obtain ⟨y, hy, hfresh', hruns'⟩ := ih
      obtain ⟨z, hz, ⟨rfl, -⟩ | ⟨_, _, _, _, _, _, -, rfl⟩ | ⟨_, _, _, -, hhandles⟩⟩ :=
        future_next hy
      · exact ⟨z, hz, hfresh', hruns'⟩
      · exact ⟨_, hz, by simp, by simp⟩
      · refine ⟨z, hz, ?_⟩
        cases hhandles with
        | leaves => exact ⟨hfresh', hruns'⟩
        | starts _ heq => exact absurd heq (hfresh' _)
        | _ => exact ⟨by simp, by simp⟩

/-- How far a poll is that is made at time `j` and looks for an exit which nobody can send: it looks
into the channel, asks whether the exit can still come, or is about to warn. -/
inductive Hanging (r : Run H) (j n : Nat) (t : ThreadId) (value error : Ty) (future : FutureId)
    (id : ChannelId) (stack : List (Return H)) : Prop where
  | collects {name : Option String} :
      (r.world n).threads[t]? = some ⟨name, .run (.collect value error future id), stack⟩ →
        r.IsPolling j n t value error future id stack →
          Hanging r j n t value error future id stack
  | asks {name : Option String} :
      (r.world n).threads[t]? = some ⟨name, .asleep (.sender id) (.give (.pending value error))
          (.hang value error future id), stack⟩ →
        r.IsPolling j n t value error future id stack →
          Hanging r j n t value error future id stack
  | hangs {name : Option String} :
      (r.world n).threads[t]? = some ⟨name, .run (.hang value error future id), stack⟩ →
        r.IsPolling j n t value error future id stack →
          Hanging r j n t value error future id stack

theorem Hanging.polling (h : r.Hanging j n t value error future id stack) :
    r.IsPolling j n t value error future id stack := by
  cases h <;> assumption

theorem IsPolling.next {thread : Thread H} {task : Task H}
    (h : r.IsPolling j n t value error future id stack)
    (ht : (r.world (n + 1)).threads[t]? = some thread) (hstack : thread.stack = stack)
    (htask : task ∈ thread.control.held) : r.IsPolling j (n + 1) t value error future id stack :=
  h.succ (hstack ▸ isAbove_of_held ht htask)

section Forsaken

variable (hreceived : ∀ m, (r.world m).heap.received? id = none)
  (hsender : ∀ m, n ≤ m → (r.world m).hasSender id = false)

include hreceived hsender

theorem hanging_next (h : r.Hanging j n t value error future id stack) :
    r.Hanging j (n + 1) t value error future id stack ∨
      r.HangsFor j n t value error future id stack := by
  cases h with
  | collects ht hpolling =>
      rcases next_of_turn ht rfl with ⟨-, hsame⟩ | ⟨-, -, hnext⟩
      · exact .inl (.collects hsame (hpolling.next hsame rfl (List.mem_singleton_self _)))
      · simp only [Task.turn, hreceived n] at hnext
        exact .inl (.asks hnext (hpolling.next hnext rfl List.mem_cons_self))
  | asks ht hpolling =>
      rcases next_of_asleep ht (by simp) with hsame | ⟨-, ⟨harrival, -⟩ | ⟨-, hmissed⟩⟩
      · exact .inl (.asks hsame (hpolling.next hsame rfl List.mem_cons_self))
      · simp [World.arrival, hsender n (Nat.le_refl n)] at harrival
      · exact .inl (.hangs hmissed (hpolling.next hmissed rfl (List.mem_singleton_self _)))
  | hangs ht hpolling =>
      rcases next_of_turn ht rfl with ⟨-, hsame⟩ | ⟨haction, -, -⟩
      · exact .inl (.hangs hsame (hpolling.next hsame rfl (List.mem_singleton_self _)))
      · exact .inr ⟨hpolling, ⟨haction, _, ht⟩, hreceived n⟩

theorem hanging_course (h : r.Hanging j n t value error future id stack) (hnm : n ≤ m) :
    r.Hanging j m t value error future id stack ∨
      ∃ l, r.HangsFor j l t value error future id stack := by
  induction hnm with
  | refl => exact .inl h
  | @step m hnm ih =>
      rcases ih with hm | hhangs
      · exact (hanging_next hreceived (fun l hl => hsender l (Nat.le_trans hnm hl)) hm).imp_right
          fun hhangs => ⟨m, hhangs⟩
      · exact .inr hhangs

/-- It warns at some time. -/
theorem Hanging.exists_hangsFor (hfair : r.Fair)
    (h : r.Hanging j n t value error future id stack) :
    ∃ m, r.HangsFor j m t value error future id stack := by
  have hhangs {m : Nat} {name : Option String} (hm : n ≤ m) (ht : (r.world m).threads[t]? =
      some ⟨name, .run (.hang value error future id), stack⟩) :
      ∃ m, r.HangsFor j m t value error future id stack := by
    obtain ⟨l, hl, ⟨haction, -⟩, ht'⟩ := hfair.exists_does ht
    rcases hanging_course hreceived hsender h (Nat.le_trans hm hl) with hcourse | hdone
    · exact ⟨l, hcourse.polling, ⟨haction, name, ht'⟩, hreceived l⟩
    · exact hdone
  have hasks {m : Nat} {name : Option String} (hm : n ≤ m) (ht : (r.world m).threads[t]? =
      some ⟨name, .asleep (.sender id) (.give (.pending value error)) (.hang value error future id),
        stack⟩) : ∃ m, r.HangsFor j m t value error future id stack := by
    have hstep {l : Nat} (hl : m ≤ l) (ht : (r.world l).threads[t]? = some ⟨name, .asleep
        (.sender id) (.give (.pending value error)) (.hang value error future id), stack⟩) :
        (r.world l).step? t = some ((r.world l).rouse t false) := by
      simp [World.step?, ht, World.arrival, hsender l (Nat.le_trans hm hl)]
    obtain ⟨l, hl, haction, ht'⟩ := hfair.exists_action ht
      (fun notified => by cases notified <;> rfl) rfl fun l hl ht => by rw [hstep hl ht]; rfl
    have hdoes := r.step l
    rw [haction, World.does, hstep hl ht'] at hdoes
    have hmissed := World.threads_rouse (w := r.world l) false ht' t
    rw [if_pos rfl, Option.some.inj hdoes] at hmissed
    exact hhangs (by omega) hmissed
  cases h with
  | collects ht _ =>
      obtain ⟨l, hl, ⟨haction, -⟩, ht'⟩ := hfair.exists_does ht
      obtain ⟨-, hnext⟩ := next_of_action haction ht' rfl
      simp only [Task.turn, hreceived l] at hnext
      exact hasks (Nat.le_succ_of_le hl) hnext
  | asks ht _ => exact hasks (Nat.le_refl n) ht
  | hangs ht _ => exact hhangs (Nat.le_refl n) ht

end Forsaken

theorem IsPolling.of_le (h : r.IsPolling j n t value error future id stack) (hjm : j < m)
    (hmn : m ≤ n) : r.IsPolling j m t value error future id stack where
  lt := hjm
  polls := h.polls
  running := h.running
  above l hjl hl := h.above l hjl (Nat.le_trans hl hmn)

/-- Polls are made one after the other. -/
theorem IsPolling.lt_of_lt {j' n' : Nat} (halone : r.PollsAlone value error future id)
    (h : r.IsPolling j n t value error future id stack)
    (h' : r.IsPolling j' n' t' value error future id stack') (hjj' : j < j') : n < j' :=
  Nat.lt_of_not_le fun hle => halone j j' t stack (h.of_le hjj' hle)
    (.inl ⟨t', value, error, h'.polls.does⟩)

section Polled

variable {m₀ : Nat} (hstart : (r.world 0).Starting)
  (hfirst : r.PollsFirst m₀ k t value error node future id stack)

include hstart hfirst

omit hstart in
/-- No poll is made before the first one. -/
theorem IsPolling.le (h : r.IsPolling j n t' value error future id stack') : k ≤ j := by
  refine Nat.le_of_not_lt fun hlt => ?_
  have hm := hfirst.makes.lt_of_isPolling h
  exact hfirst.alone j hm hlt (.inl ⟨t', value, error, h.polls.does⟩)

theorem future_succ_of_drops (hkn : k < n)
    (h : r.Does n t' (.request (.dropFuture future))) :
    (r.world (n + 1)).heap.futures[future]? = some .finished := by
  obtain ⟨x, hx, -⟩ := hfirst.running hstart hkn
  obtain ⟨y, hy, ⟨-, hnone⟩ | ⟨_, _, _, _, _, _, -, rfl⟩ | ⟨t₀, task, stack, hturns, hhandles⟩⟩ :=
    future_next hx
  · exact absurd h (hnone _ _)
  · exact hy
  · obtain ⟨-, rfl⟩ := hturns.does.unique h
    rw [hy]
    cases hhandles with
    | leaves _ hne => exact absurd rfl hne
    | starts heq => cases heq
    | drops => rfl
    | collects heq => cases heq
    | hangs heq => cases heq

variable (halone : r.PollsAlone value error future id)

include halone

/-- A future that is polled has not been dropped. -/
theorem IsPolling.not_dropped {l : Nat} (h : r.IsPolling j n t' value error future id stack')
    (hkl : k < l) (hln : l ≤ n) (t₀ : ThreadId) : ¬r.Does l t₀ (.request (.dropFuture future)) := by
  intro hdoes
  rcases Nat.lt_trichotomy l j with hlt | rfl | hlt
  · have hfinished := future_succ_of_drops hstart hfirst hkl hdoes
    obtain ⟨x, hx, hfresh, hruns⟩ := over_of_le hfinished (by simp) (by simp) hlt
    rcases h.running with hrunning | ⟨⟨node', hnode⟩, -⟩
    · exact hruns id (Option.some.inj (hx.symm.trans hrunning))
    · exact hfresh node' (Option.some.inj (hx.symm.trans hnode))
  · cases (hdoes.unique h.polls.does).2
  · exact halone j l t' stack' (h.of_le hlt hln) (.inr ⟨t₀, hdoes⟩)

theorem IsPolling.not_drops {l : Nat} (h : r.IsPolling j n t' value error future id stack')
    (hln : l ≤ n) : ¬r.Drops l id := by
  intro hdrops
  obtain ⟨hkl, t₀, hdoes⟩ := hfirst.of_drops hstart hdrops
  exact h.not_dropped hstart hfirst halone hkl hln t₀ hdoes

/-- Nobody polls a future that has warned and finds it running. -/
theorem HangsFor.not_lt {j' n' : Nat} {t₀ : ThreadId} {stack₀ : List (Return H)}
    (h : r.HangsFor j m t' value error future id stack')
    (h' : r.IsPolling j' n' t₀ value error future id stack₀) : ¬j < j' := by
  intro hlt
  have hmj := h.polling.lt_of_lt halone h' hlt
  obtain ⟨x, hx, -⟩ := hfirst.running hstart
    (Nat.lt_of_le_of_lt (h.polling.le hfirst) h.polling.lt)
  obtain ⟨y, hy, hfresh, hruns⟩ := over_of_le (h.future_succ hx) (by simp) (by simp) hmj
  rcases h'.running with hrunning | ⟨⟨node', hnode⟩, -⟩
  · exact hruns id (Option.some.inj (hy.symm.trans hrunning))
  · exact hfresh node' (Option.some.inj (hy.symm.trans hnode))

/-- A future warns once. -/
theorem HangsFor.unique {j' m' : Nat} {t₀ : ThreadId} {stack₀ : List (Return H)}
    (h : r.HangsFor j m t' value error future id stack')
    (h' : r.HangsFor j' m' t₀ value error future id stack₀) : j = j' ∧ m = m' := by
  obtain rfl : j = j' := Nat.le_antisymm
    (Nat.le_of_not_lt (h'.not_lt hstart hfirst halone h.polling))
    (Nat.le_of_not_lt (h.not_lt hstart hfirst halone h'.polling))
  obtain ⟨haction, name, ht⟩ := h.polling.polls
  obtain ⟨haction', name', ht'⟩ := h'.polling.polls
  obtain rfl := Action.thread.inj (haction.symm.trans haction')
  obtain ⟨-, -, rfl⟩ := Thread.mk.inj (Option.some.inj (ht.symm.trans ht'))
  have hends := h.callEnds.unique h'.callEnds
  exact ⟨rfl, Nat.succ.inj hends.1⟩

/-- The future of a poll that warns has not been made useless by the first one. -/
theorem HangsFor.not_finished {m' : Nat} {payload : Payload}
    (h : r.HangsFor j m t' value error future id stack')
    (hcall : r.CallEnds k m' t (.error payload) stack) :
    (r.world m').heap.futures[future]? ≠ some .finished := by
  intro hfinished
  rcases Nat.lt_or_eq_of_le (h.polling.le hfirst) with hkj | rfl
  · -- The first poll has come back before the other one was made, which has found a future that
    -- runs.
    have hmj : m' ≤ j := by
      refine Nat.le_of_not_lt fun hjm => ?_
      have hpolling : r.IsPolling k j t value error future id stack :=
        ⟨hkj, hfirst.polls, .inr ⟨⟨node, hfirst.fresh hstart⟩, hfirst.channel.symm⟩,
          fun l hkl hl => hcall.above l hkl (Nat.lt_of_le_of_lt hl hjm)⟩
      exact halone k j t stack hpolling (.inl ⟨t', value, error, h.polling.polls.does⟩)
    obtain ⟨x, hx, hfresh, hruns⟩ := over_of_le hfinished (by simp) (by simp) hmj
    rcases h.polling.running with hrunning | ⟨⟨node', hnode⟩, -⟩
    · exact hruns id (Option.some.inj (hx.symm.trans hrunning))
    · exact hfresh node' (Option.some.inj (hx.symm.trans hnode))
  · obtain ⟨rfl, -⟩ := h.polling.polls.does.unique hfirst.polls.does
    obtain ⟨-, rfl⟩ := h.polling.polls.unique hfirst.polls
    cases (h.callEnds.unique hcall).2

section Forsaken

variable (hhonest : r.IsHonest) (hpolled : r.PollsAt value error future)
  (htyped : r.EndsTyped (k + 1) (.thread t (stack.length + 1)) value error)

include hhonest hpolled htyped

/-- A poll warns only if the interpretation has been forsaken. -/
theorem HangsFor.exists_forsaken (h : r.HangsFor j m t' value error future id stack') :
    ∃ c, k + 1 + c < m ∧ r.Forsaken (k + 1) (.thread t (stack.length + 1)) c := by
  have hp := (hfirst.begins hstart).pendingAt
  obtain ⟨-, -, -, k', hkk', -, -, -, hlooks⟩ :=
    hfirst.looks hstart (hhonest.isPrivate hstart id) hpolled htyped h.turns (.inr rfl)
  obtain ⟨-, name, ht⟩ := h.turns
  obtain ⟨l, hkl, hlm, hsender⟩ := hlooks.foundLost ht
  obtain ⟨c, rfl⟩ := Nat.exists_eq_add_of_le (show k + 1 ≤ l by omega)
  have hkept {l : Nat} (hl : l ≤ m) : ¬r.Drops l id :=
    h.polling.not_drops hstart hfirst halone hl
  refine ⟨c, hlm, hhonest.forsaken_of_hasSender hstart hp htyped (fun l hl => hkept (by omega))
    hsender ?_⟩
  cases hreceived : (r.world (k + 1 + c)).heap.received? id with
  | none => rfl
  | some exit =>
      rcases received_of_le hreceived (Nat.le_of_lt hlm) with hlater | ⟨d, -, hd, hdrops⟩
      · rw [h.received] at hlater
        contradiction
      · exact absurd hdrops (hkept (Nat.le_of_lt hd))

variable {c : Nat} (hforsaken : r.Forsaken (k + 1) (.thread t (stack.length + 1)) c)

include hforsaken

omit halone hpolled in
theorem received_of_forsaken_future (n : Nat) : (r.world n).heap.received? id = none :=
  hhonest.received_of_forsaken hstart (hfirst.begins hstart).pendingAt htyped hforsaken n

omit halone in
/-- In one action the future of a forsaken interpretation stays as it is, or a poll warns, or it is
dropped, or its first poll panics. -/
theorem future_next_of_forsaken {x : Future H.Data H.Fn} (hx : x = .running id ∨ x = .hung)
    (hfuture : (r.world n).heap.futures[future]? = some x) :
    (r.world (n + 1)).heap.futures[future]? = some x ∨
      ((r.world (n + 1)).heap.futures[future]? = some .hung ∧ ∃ j t stack,
        r.HangsFor j n t value error future id stack) ∨
      (∃ t, r.Does n t (.request (.dropFuture future))) ∨
      ∃ payload, r.CallEnds k (n + 1) t (.error payload) stack ∧
        (r.world (n + 1)).heap.futures[future]? = some .finished := by
  have hprivate := hhonest.isPrivate hstart id
  obtain ⟨x', hx', ⟨rfl, -⟩ | ⟨t', payload, _, _, _, _, hturns, rfl⟩ |
    ⟨t', task, stack', hturns, hhandles⟩⟩ := future_next hfuture
  · exact .inl hx'
  · obtain ⟨hcall, -⟩ := hfirst.panics hstart hprivate hpolled htyped hturns
    exact .inr (.inr (.inr ⟨payload, hcall, hx'⟩))
  · cases hhandles with
    | leaves => exact .inl hx'
    | starts _ hfresh =>
        subst hfresh
        simp at hx
    | drops heq =>
        subst heq
        exact .inr (.inr (.inl ⟨t', hturns.does⟩))
    | collects heq hexit =>
        subst heq
        obtain ⟨-, -, rfl, -⟩ := hfirst.looks hstart hprivate hpolled htyped hturns (.inl rfl)
        rw [received_of_forsaken_future hstart hfirst hhonest htyped hforsaken n] at hexit
        contradiction
    | hangs heq hnone =>
        subst heq
        obtain ⟨rfl, rfl, rfl, -⟩ := hfirst.looks hstart hprivate hpolled htyped hturns (.inr rfl)
        obtain ⟨haction, name, ht⟩ := hturns
        obtain ⟨j, hj⟩ := (hasPolled hstart ht).held (List.mem_singleton_self _) (.inr rfl)
        exact .inr (.inl ⟨hx', j, t', stack', hj, ⟨haction, name, ht⟩, hnone⟩)

omit halone in
/-- The future of a forsaken interpretation runs, until it has warned, is dropped, or its first poll
has panicked. -/
theorem future_of_forsaken (hkn : k < n) :
    (r.world n).heap.futures[future]? = some (.running id) ∨
      ((r.world n).heap.futures[future]? = some .hung ∧ ∃ j m t stack, m < n ∧
        r.HangsFor j m t value error future id stack) ∨
      (∃ l t, k < l ∧ l < n ∧ r.Does l t (.request (.dropFuture future))) ∨
      ∃ m payload, m ≤ n ∧ r.CallEnds k m t (.error payload) stack ∧
        (r.world m).heap.futures[future]? = some .finished := by
  have hnext {n : Nat} {x : Future H.Data H.Fn} (hx : x = .running id ∨ x = .hung) :=
    future_next_of_forsaken (n := n) hstart hfirst hhonest hpolled htyped hforsaken hx
  induction hkn with
  | refl =>
      obtain ⟨x', hx', ⟨-, hnobody⟩ | ⟨t', payload, _, _, _, _, hturns, rfl⟩ |
        ⟨t', task, stack', hturns, hhandles⟩⟩ := future_next (hfirst.fresh hstart)
      · exact absurd hfirst.polls.does (hnobody t _)
      · obtain ⟨hcall, -⟩ :=
          hfirst.panics hstart (hhonest.isPrivate hstart id) hpolled htyped hturns
        exact .inr (.inr (.inr ⟨_, payload, Nat.le_refl _, hcall, hx'⟩))
      · obtain ⟨-, rfl⟩ := hfirst.polls.does.unique hturns.does
        cases hhandles with
        | leaves hpoll => exact absurd rfl (hpoll value error node rfl)
        | starts => exact .inl (hfirst.channel ▸ hx')
        | drops heq => cases heq
        | collects heq => cases heq
        | hangs heq => cases heq
  | @step n hkn ih =>
      rcases ih with hrunning | ⟨hhung, j, m, t₀, stack₀, hm, hhangs⟩ | ⟨l, t', hkl, hln, hdoes⟩ |
        ⟨m, payload, hm, hpanicked⟩
      · rcases hnext (.inl rfl) hrunning with hsame | ⟨hhung, j, t', stack', hhangs⟩ |
          ⟨t', hdoes⟩ | ⟨payload, hpanicked⟩
        · exact .inl hsame
        · exact .inr (.inl ⟨hhung, j, n, t', stack', Nat.lt_succ_self n, hhangs⟩)
        · exact .inr (.inr (.inl ⟨n, t', hkn, Nat.lt_succ_self n, hdoes⟩))
        · exact .inr (.inr (.inr ⟨n + 1, payload, Nat.le_refl _, hpanicked⟩))
      · rcases hnext (.inr rfl) hhung with hsame | ⟨hsame, -⟩ | ⟨t', hdoes⟩ | ⟨payload, hpanicked⟩
        · exact .inr (.inl ⟨hsame, j, m, t₀, stack₀, Nat.lt_succ_of_lt hm, hhangs⟩)
        · exact .inr (.inl ⟨hsame, j, m, t₀, stack₀, Nat.lt_succ_of_lt hm, hhangs⟩)
        · exact .inr (.inr (.inl ⟨n, t', hkn, Nat.lt_succ_self n, hdoes⟩))
        · exact .inr (.inr (.inr ⟨n + 1, payload, Nat.le_refl _, hpanicked⟩))
      · exact .inr (.inr (.inl ⟨l, t', hkl, Nat.lt_succ_of_lt hln, hdoes⟩))
      · exact .inr (.inr (.inr ⟨m, payload, Nat.le_succ_of_le hm, hpanicked⟩))

omit halone hpolled in
/-- A poll that looks for an exit when the interpretation has been forsaken warns. -/
theorem Forsaken.exists_hangsFor (hfair : r.Fair) (hn : k + 1 + c ≤ n)
    (h : r.Hanging j n t' value error future id stack') :
    ∃ m, r.HangsFor j m t' value error future id stack' := by
  refine h.exists_hangsFor
    (received_of_forsaken_future hstart hfirst hhonest htyped hforsaken) (fun m hm => ?_) hfair
  obtain ⟨d, rfl⟩ := Nat.exists_eq_add_of_le (show k + 1 ≤ m by omega)
  have hp := (hfirst.begins hstart).pendingAt
  exact hhonest.hasSender_of_forsaken hstart hp
    (hhonest.forsaken_of_le hp hforsaken (show c ≤ d by omega)).1

omit halone in
/-- The next poll after the interpretation has been forsaken warns, if none has warned before and
the polls before have brought nothing. -/
theorem Forsaken.hangs_next (hfair : r.Fair) (hj : k + 1 + c ≤ j)
    (hturns : r.Turns j t' (.run (.request (.poll value error future))) stack')
    (hkept : ∀ l t, k < l → l < j → ¬r.Does l t (.request (.dropFuture future)))
    (hearlier : ∀ i l t stack reply, l ≤ j →
      r.Turns i t (.run (.request (.poll value error future))) stack →
        r.CallEnds i l t reply stack → reply = .ok (.pending value error)) :
    (∃ j' m t stack, m < j ∧ r.HangsFor j' m t value error future id stack) ∨
      ∃ m, r.HangsFor j m t' value error future id stack' := by
  rcases future_of_forsaken hstart hfirst hhonest hpolled htyped hforsaken
    (show k < j by omega) with hrunning | ⟨-, hwarned⟩ | ⟨l, t₀, hkl, hlj, hdoes⟩ |
    ⟨m, payload, hm, hcall, -⟩
  · obtain ⟨haction, name, ht⟩ := hturns
    obtain ⟨-, hnext⟩ := next_of_action haction ht rfl
    simp only [Task.turn, Request.turn, hrunning] at hnext
    have hpolling : r.IsPolling j (j + 1) t' value error future id stack' :=
      isPolling_succ haction ht (.inl hrunning) (isAbove_of_held hnext (List.mem_singleton_self _))
    exact .inr (hforsaken.exists_hangsFor hstart hfirst hhonest htyped hfair (by omega)
      (.collects hnext hpolling))
  · exact .inl hwarned
  · exact absurd hdoes (hkept l t₀ hkl hlj)
  · cases hearlier k m t stack _ hm hfirst.polls hcall

end Forsaken

/-- After the warning polls come back at once with nothing, as long as the future is not dropped. -/
theorem HangsFor.later (hhonest : r.IsHonest) (hpolled : r.PollsAt value error future)
    (htyped : r.EndsTyped (k + 1) (.thread t (stack.length + 1)) value error) {j' : Nat}
    {t₀ : ThreadId} {stack₀ : List (Return H)}
    (h : r.HangsFor j m t' value error future id stack')
    (hturns : r.Turns j' t₀ (.run (.request (.poll value error future))) stack₀) (hm : m < j')
    (hkept : ∀ l t, m < l → l < j' → ¬r.Does l t (.request (.dropFuture future))) :
    r.CallEnds j' (j' + 1) t₀ (.ok (.pending value error)) stack₀ := by
  obtain ⟨c, -, hforsaken⟩ := h.exists_forsaken hstart hfirst halone hhonest hpolled htyped
  have hkm : k < m := Nat.lt_of_le_of_lt (h.polling.le hfirst) h.polling.lt
  obtain ⟨haction, name, ht⟩ := hturns
  obtain ⟨-, hnext⟩ := next_of_action haction ht rfl
  rcases future_of_forsaken hstart hfirst hhonest hpolled htyped hforsaken
    (Nat.lt_trans hkm hm) with hrunning | ⟨hhung, -⟩ | ⟨l, t₁, hkl, hlj, hdoes⟩ |
    ⟨m', payload, -, hcall, hover⟩
  · simp only [Task.turn, Request.turn, hrunning] at hnext
    have hpolling : r.IsPolling j' (j' + 1) t₀ value error future id stack₀ :=
      isPolling_succ haction ht (.inl hrunning) (isAbove_of_held hnext (List.mem_singleton_self _))
    exact absurd (Nat.lt_trans h.polling.lt hm) (h.not_lt hstart hfirst halone hpolling)
  · simp only [Task.turn, Request.turn, hhung] at hnext
    exact ⟨Nat.lt_succ_self _, fun l hl hl' => absurd hl' (Nat.not_lt.2 hl), name, hnext⟩
  · rcases Nat.lt_or_ge m l with hml | hlm
    · exact absurd hdoes (hkept l t₁ hml hlj)
    · exact absurd hdoes (h.polling.not_dropped hstart hfirst halone hkl hlm t₁)
  · exact absurd hover (h.not_finished hstart hfirst halone hcall)

end Polled

/-- When polls of a future warn that thread `t` has polled first at time `k`, above a stack, and
whose interpretation is at `p` after that. -/
structure PollsWarned (r : Run H) (k : Nat) (value error : Ty) (future : FutureId) (id : ChannelId)
    (p : Place) : Prop where
  /-- A poll warns only if the interpretation has been forsaken. -/
  after {j m : Nat} {t : ThreadId} {stack : List (Return H)} :
    r.HangsFor j m t value error future id stack → ∃ c, k + 1 + c < m ∧ r.Forsaken (k + 1) p c
  /-- A poll that comes to look for the exit afterwards warns, -/
  looks {c j n : Nat} {t : ThreadId} {stack : List (Return H)} : r.Fair → r.Forsaken (k + 1) p c →
    k + 1 + c ≤ n → r.IsPolling j n t value error future id stack →
      r.Turns n t (.run (.collect value error future id)) stack →
        ∃ m, r.HangsFor j m t value error future id stack
  /-- and so does the next poll that is made, if none has warned before and none has panicked. -/
  next {c j : Nat} {t : ThreadId} {stack : List (Return H)} : r.Fair → r.Forsaken (k + 1) p c →
    k + 1 + c ≤ j → r.Turns j t (.run (.request (.poll value error future))) stack →
      (∀ l t, k < l → l < j → ¬r.Does l t (.request (.dropFuture future))) →
        (∀ i l t stack reply, l ≤ j →
          r.Turns i t (.run (.request (.poll value error future))) stack →
            r.CallEnds i l t reply stack → reply = .ok (.pending value error)) →
          (∃ i m t stack, m < j ∧ r.HangsFor i m t value error future id stack) ∨
            ∃ m, r.HangsFor j m t value error future id stack
  /-- One poll warns, and once; -/
  once {j j' m m' : Nat} {t t' : ThreadId} {stack stack' : List (Return H)} :
    r.HangsFor j m t value error future id stack →
      r.HangsFor j' m' t' value error future id stack' → j = j' ∧ m = m'
  /-- the warning is all that is traced then, and the poll comes back with nothing, -/
  back {j m : Nat} {t : ThreadId} {stack : List (Return H)} :
    r.HangsFor j m t value error future id stack → r.traced m = [.pendingForever] ∧
      r.CallEnds j (m + 1) t (.ok (.pending value error)) stack
  /-- as all later ones do. -/
  later {i j m : Nat} {t t' : ThreadId} {stack stack' : List (Return H)} :
    r.HangsFor i m t' value error future id stack' → m < j →
      r.Turns j t (.run (.request (.poll value error future))) stack →
        (∀ l t, m < l → l < j → ¬r.Does l t (.request (.dropFuture future))) →
          r.CallEnds j (j + 1) t (.ok (.pending value error)) stack

/-- The polls of a future warn when the callback has been dropped. -/
theorem PollsFirst.pollsWarned {m₀ : Nat} (hhonest : r.IsHonest) (hstart : (r.world 0).Starting)
    (hfirst : r.PollsFirst m₀ k t value error node future id stack)
    (hpolled : r.PollsAt value error future) (halone : r.PollsAlone value error future id)
    (htyped : r.EndsTyped (k + 1) (.thread t (stack.length + 1)) value error) :
    r.PollsWarned k value error future id (.thread t (stack.length + 1)) where
  after hhangs := hhangs.exists_forsaken hstart hfirst halone hhonest hpolled htyped
  looks hfair hforsaken hn hpolling hturns := by
    obtain ⟨-, name, ht⟩ := hturns
    exact hforsaken.exists_hangsFor hstart hfirst hhonest htyped hfair hn (.collects ht hpolling)
  next hfair hforsaken hj hturns hkept hearlier :=
    hforsaken.hangs_next hstart hfirst hhonest hpolled htyped hfair hj hturns hkept hearlier
  once hhangs hhangs' := hhangs.unique hstart hfirst halone hhangs'
  back hhangs := ⟨hhangs.traced, hhangs.callEnds⟩
  later hhangs hm hturns hkept :=
    hhangs.later hstart hfirst halone hhonest hpolled htyped hturns hm hkept

end Run

end Trampoline
