import Trampoline.Proofs.Entries
import Trampoline.Proofs.Forsaking
import Trampoline.Proofs.Tracing

/-!
Callers that block and are warned. A caller is told that its exit cannot come any more when its
interpretation has been forsaken, and then once; it never goes back then. The one exception is a
caller on whose own thread the panic of a submission lets go of the interpretation: it goes back
with the panic, and is told nothing.
-/

namespace Trampoline

namespace Run

variable {H : Host} {r : Run H} {b k n m : Nat} {p : Place} {t : ThreadId} {value error : Ty}
  {id : ChannelId} {i : Interpretation H.Data H.Fn} {exit : Exit (Outcome H.Data H.Fn)}
  {payload : Payload} {warning : Event} {stack : List (Return H)}

/-- At time `m` thread `t` warns that the exit cannot come for which it has waited above a stack
since time `k`. -/
structure WarnsFor (r : Run H) (k m : Nat) (t : ThreadId) (warning : Event)
    (stack : List (Return H)) : Prop where
  lt : k < m
  above : ∀ j, k < j → j ≤ m → r.IsAbove j t stack
  turns : r.Turns m t (.run (.lost warning)) stack

/-- A submission on thread `t` panics at some time, and lets go of the interpretation that is at `p`
at time `b`. -/
def Refuses (r : Run H) (b : Nat) (p : Place) (t : ThreadId) : Prop :=
  ∃ j payload, r.LetsGo b p j payload ∧ r.action (b + j) = .thread t

theorem WarnsFor.traced (h : r.WarnsFor k m t warning stack) : r.traced m = [warning] :=
  h.turns.does.traced

/-- A caller that has been warned sleeps from then on. -/
theorem WarnsFor.asleep (h : r.WarnsFor k m t warning stack) (hmn : m < n) : ∃ name,
    (r.world n).threads[t]? = some ⟨name, .asleep .forever (.give .unit) (.give .unit), stack⟩ := by
  obtain ⟨haction, name, ht⟩ := h.turns
  refine ⟨name, ?_⟩
  induction hmn with
  | refl => exact (next_of_action haction ht rfl).2
  | step _ ih => exact next_of_forever ih

theorem WarnsFor.unique {m' : Nat} (h : r.WarnsFor k m t warning stack)
    (h' : r.WarnsFor k m' t warning stack) : m = m' := by
  have hle {m m' : Nat} (h : r.WarnsFor k m t warning stack)
      (h' : r.WarnsFor k m' t warning stack) : ¬m < m' := by
    intro hlt
    obtain ⟨name, hasleep⟩ := h.asleep hlt
    obtain ⟨-, name', hturns⟩ := h'.turns
    rw [hasleep] at hturns
    simp at hturns
  exact Nat.le_antisymm (Nat.le_of_not_lt (hle h' h)) (Nat.le_of_not_lt (hle h h'))

theorem WarnsFor.isAbove (h : r.WarnsFor k m t warning stack) (hkn : k < n) :
    r.IsAbove n t stack := by
  rcases Nat.lt_or_ge m n with hmn | hnm
  · obtain ⟨name, hasleep⟩ := h.asleep hmn
    exact ⟨_, hasleep, [], rfl, by simp [Control.held]⟩
  · exact h.above n hkn hnm

/-- How far a call is at time `n` that waits for the exit of the interpretation that is at `p` at
time `b`: the thread interprets, or comes back with the panic of a submission, or waits. -/
inductive Calling (r : Run H) (b : Nat) (p : Place) (n : Nat) (t : ThreadId) (value error : Ty)
    (id : ChannelId) (warning : Event) (stack : List (Return H)) : Prop where
  | interprets {thread : Thread H} :
      (r.world n).threads[t]? = some thread →
        thread.Interprets (.channel value error id)
            (.after (.receive value error id warning) :: stack) →
          Calling r b p n t value error id warning stack
  | panics {j : Nat} {payload : Payload} :
      r.LetsGo b p j payload → r.action (b + j) = .thread t → b + j < n →
        r.GoesBack n t (.error payload) (.after (.receive value error id warning) :: stack) →
          Calling r b p n t value error id warning stack
  | waits {thread : Thread H} :
      (r.world n).threads[t]? = some thread →
        thread.Awaits value error id warning stack false →
          Calling r b p n t value error id warning stack
  | warns {name : Option String} {j : Nat} :
      (r.world n).threads[t]? = some ⟨name, .run (.lost warning), stack⟩ → b + j < n →
        r.Forsaken b p j → Calling r b p n t value error id warning stack
  | warned {name : Option String} {m : Nat} :
      (r.world n).threads[t]? =
          some ⟨name, .asleep .forever (.give .unit) (.give .unit), stack⟩ →
        b ≤ m → r.Turns m t (.run (.lost warning)) stack →
          Calling r b p n t value error id warning stack

theorem Calling.isAbove (h : r.Calling b p n t value error id warning stack) :
    r.IsAbove n t stack := by
  cases h with
  | interprets ht hinterprets => exact ⟨_, ht, hinterprets.isAbove⟩
  | panics _ _ _ hback =>
      obtain ⟨name, ht⟩ := hback
      exact ⟨_, ht, [.after _], rfl, by simp⟩
  | waits ht hawaits => exact ⟨_, ht, hawaits.isAbove⟩
  | warns ht => exact ⟨_, ht, [], rfl, by simp [Control.held]⟩
  | warned ht => exact ⟨_, ht, [], rfl, by simp [Control.held]⟩

/-- What a call comes back with by time `m`: the exit of the interpretation that is at `p` at time
`b`, or the panic of a submission on its own thread. -/
inductive Brings (r : Run H) (b : Nat) (p : Place) (value error : Ty) (t : ThreadId) (m : Nat) :
    Except Payload (Value H.Data H.Fn) → Prop where
  | exit {c : Nat} {exit : Exit (Outcome H.Data H.Fn)} :
      r.EndsAt b p c exit → b + c < m → Brings r b p value error t m (exit.reply value error)
  | panic {j : Nat} {payload : Payload} :
      r.LetsGo b p j payload → r.action (b + j) = .thread t → b + j < m →
        Brings r b p value error t m (.error payload)

/-- A thread that goes back with a panic to what waits for its reply goes back with it once more. -/
theorem GoesBack.error_next {task : Task H}
    (h : r.GoesBack n t (.error payload) (.after task :: stack)) :
    r.GoesBack (n + 1) t (.error payload) (.after task :: stack) ∨
      r.GoesBack (n + 1) t (.error payload) stack := by
  obtain ⟨name, ht⟩ := h
  rcases next_of_turn ht rfl with ⟨-, hsame⟩ | ⟨-, -, hnext⟩
  · exact .inl ⟨name, hsame⟩
  · exact .inr ⟨name, hnext⟩

section Call

variable (hhonest : r.IsHonest) (hstart : (r.world 0).Starting)
  (hp : (r.world b).pendingAt p = some (.driving i, .channel value error id))
  (htyped : r.EndsTyped b p value error) (hkept : ∀ k, ¬r.Drops k id)

include hhonest hstart hp htyped hkept

/-- A call goes on until it comes back with an exit, or with the panic of a submission. -/
theorem calling_next (hbn : b ≤ n) (h : r.Calling b p n t value error id warning stack) :
    r.Calling b p (n + 1) t value error id warning stack ∨ ∃ reply,
      r.Brings b p value error t (n + 1) reply ∧ r.GoesBack (n + 1) t reply stack := by
  have hprivate := hhonest.isPrivate hstart id
  cases h with
  | interprets ht hinterprets =>
      rcases interprets_next hstart hprivate hp htyped Return.goesOnWith_after hbn ht
          hinterprets with
        ⟨thread', ht', hinterprets'⟩ | ⟨name, hback⟩ | ⟨j, payload, rfl, hgo, haction, hback⟩
      · exact .inl (.interprets ht' hinterprets')
      · exact .inl (.waits hback .receives)
      · exact .inl (.panics hgo haction (Nat.lt_succ_self _) hback)
  | panics hgo haction hj hback =>
      rcases hback.error_next with hsame | hback
      · exact .inl (.panics hgo haction (Nat.lt_succ_of_lt hj) hsame)
      · exact .inr ⟨_, .panic hgo haction (Nat.lt_succ_of_lt hj), hback⟩
  | waits ht hawaits =>
      rcases receives_next ht hawaits with
        ⟨_, ht', hawaits'⟩ | ⟨hreceived, hsender, name, hlost⟩ | ⟨exit, hreceived, hback⟩
      · exact .inl (.waits ht' hawaits')
      · obtain ⟨j, rfl⟩ := Nat.exists_eq_add_of_le hbn
        exact .inl (.warns hlost (Nat.lt_succ_self _) (hhonest.forsaken_of_hasSender hstart hp
          htyped (fun k _ => hkept k) hsender hreceived))
      · obtain ⟨c, hc, hends⟩ := exists_endsAt_of_received hstart hprivate hp htyped hreceived
        exact .inr ⟨_, .exit hends (Nat.lt_succ_of_lt hc), hback⟩
  | warns ht hj hforsaken =>
      rcases next_of_turn ht rfl with ⟨-, hsame⟩ | ⟨haction, -, hnext⟩
      · exact .inl (.warns hsame (Nat.lt_succ_of_lt hj) hforsaken)
      · exact .inl (.warned hnext hbn ⟨haction, _, ht⟩)
  | warned ht hm hturns => exact .inl (.warned (next_of_forever ht) hm hturns)

variable (hk : k + 1 = b) (h : r.Calling b p b t value error id warning stack)

include hk h

theorem calling_course (hkn : k < n) : r.Calling b p n t value error id warning stack ∨
    ∃ m reply, m ≤ n ∧ r.Brings b p value error t m reply ∧ r.CallEnds k m t reply stack := by
  subst hk
  have hcourse := above_or_callEnds (r := r) (t := t) (n := n)
    (P := fun n => r.Calling (k + 1) p n t value error id warning stack)
    (R := r.Brings (k + 1) p value error t) h (fun _ h => h.isAbove)
    (fun _ hkn h => calling_next hhonest hstart hp htyped hkept hkn h) hkn
  exact hcourse.imp_left And.left

theorem WarnsFor.calling (hwarns : r.WarnsFor k m t warning stack) :
    r.Calling b p m t value error id warning stack := by
  rcases calling_course hhonest hstart hp htyped hkept hk h hwarns.lt with
    hcalling | ⟨j, reply, hj, -, hends⟩
  · exact hcalling
  · exact absurd (hwarns.above j hends.lt hj) hends.back.not_above

/-- A caller warns only if its interpretation has been forsaken. -/
theorem WarnsFor.exists_forsaken (hwarns : r.WarnsFor k m t warning stack) :
    ∃ j, b + j < m ∧ r.Forsaken b p j := by
  obtain ⟨-, name, ht⟩ := hwarns.turns
  cases hwarns.calling hhonest hstart hp htyped hkept hk h with
  | interprets ht' hinterprets =>
      obtain rfl := Option.some.inj (ht.symm.trans ht')
      obtain ⟨above, hstack⟩ := hinterprets.exists_above
      have hlength := congrArg List.length hstack
      simp at hlength
      omega
  | panics _ _ _ hback =>
      obtain ⟨name', hback⟩ := hback
      rw [ht] at hback
      simp [Control.replied] at hback
  | waits ht' hawaits =>
      obtain rfl := Option.some.inj (ht.symm.trans ht')
      cases hawaits
  | warns _ hj hforsaken => exact ⟨_, hj, hforsaken⟩
  | warned ht' =>
      rw [ht] at ht'
      simp at ht'

/-- The panic of a submission on the caller's own thread comes back to the caller. -/
theorem LetsGo.goesBack {j : Nat} (hgo : r.LetsGo b p j payload)
    (haction : r.action (b + j) = .thread t) : r.GoesBack (b + j + 1) t (.error payload)
      (.after (.receive value error id warning) :: stack) := by
  have hprivate := hhonest.isPrivate hstart id
  have hinto : r.EndsInto b p id := ⟨_, _, _, hp⟩
  rcases calling_course hhonest hstart hp htyped hkept hk h (show k < b + j by omega) with
    hcalling | ⟨m, reply, hm, hbrings, hends⟩
  · have hturns := hgo
    obtain ⟨t', node, frames, last, finish, below, ⟨haction', name, ht⟩, -⟩ := hturns
    obtain rfl := Action.thread.inj (haction'.symm.trans haction)
    have hnext : (r.world (b + j + 1)).threads[t']? = some ⟨name, .raise payload, below⟩ :=
      (next_of_action haction ht rfl).2
    cases hcalling with
    | interprets ht' hinterprets =>
        rcases interprets_next hstart hprivate hp htyped Return.goesOnWith_after
            (Nat.le_add_right b j) ht' hinterprets with
          ⟨thread, hthread, hinterprets'⟩ | ⟨name', hback⟩ | ⟨j', payload', hj, hgo', -, hback⟩
        · obtain rfl := Option.some.inj (hnext.symm.trans hthread)
          cases hinterprets' with
          | waits hpending =>
              have hplace := hinto.place (n := j + 1) hstart hprivate
                ⟨_, _, _, (World.pendingAt_back hnext).trans hpending⟩
              rw [hgo.place_eq_none hp (Nat.lt_succ_self j)] at hplace
              contradiction
        · rw [hnext] at hback
          simp at hback
        · obtain ⟨-, rfl⟩ := hgo.unique hp hgo'
          exact hback
    | panics hgo' _ hj =>
        obtain ⟨rfl, -⟩ := hgo.unique hp hgo'
        exact absurd hj (Nat.lt_irrefl _)
    | waits ht' hawaits =>
        obtain rfl := Option.some.inj (ht.symm.trans ht')
        cases hawaits
    | warns ht' =>
        rw [ht] at ht'
        simp at ht'
    | warned ht' =>
        rw [ht] at ht'
        simp at ht'
  · cases hbrings with
    | exit hends' => exact absurd hends' (hgo.not_endsAt hp _ _)
    | panic hgo' _ hj =>
        obtain ⟨rfl, -⟩ := hgo.unique hp hgo'
        omega

/-- From then on the caller is on its way back with the panic, or is back. -/
theorem LetsGo.goesBack_or_callEnds {j : Nat} (hgo : r.LetsGo b p j payload)
    (haction : r.action (b + j) = .thread t) (hn : b + j < n) :
    r.GoesBack n t (.error payload) (.after (.receive value error id warning) :: stack) ∨
      ∃ m, m ≤ n ∧ r.CallEnds k m t (.error payload) stack := by
  induction hn with
  | refl => exact .inl (hgo.goesBack hhonest hstart hp htyped hkept hk h haction)
  | @step n hn ih =>
      rcases ih with hback | ⟨m, hm, hends⟩
      · rcases hback.error_next with hback | hback
        · exact .inl hback
        · have hkn : k < n + 1 := by have hn' : b + j < n := hn; omega
          rcases calling_course hhonest hstart hp htyped hkept hk h hkn with
            hcalling | ⟨m, reply, hm, hbrings, hends⟩
          · exact absurd hcalling.isAbove hback.not_above
          · cases hbrings with
            | exit hends' => exact absurd hends' (hgo.not_endsAt hp _ _)
            | panic hgo' =>
                obtain ⟨-, rfl⟩ := hgo.unique hp hgo'
                exact .inr ⟨m, hm, hends⟩
      · exact .inr ⟨m, Nat.le_succ_of_le hm, hends⟩

/-- A caller that has a submission panic on its own thread is never warned, -/
theorem Refuses.not_warnsFor (hrefuses : r.Refuses b p t) :
    ¬r.WarnsFor k m t warning stack := by
  intro hwarns
  obtain ⟨j, payload, hgo, haction⟩ := hrefuses
  rcases Nat.lt_or_ge (b + j) m with hlt | hge
  · obtain ⟨-, name, ht⟩ := hwarns.turns
    rcases hgo.goesBack_or_callEnds hhonest hstart hp htyped hkept hk h haction hlt with
      ⟨name', hback⟩ | ⟨m', hm, hends⟩
    · rw [ht] at hback
      simp [Control.replied] at hback
    · exact hends.back.not_above (hwarns.above m' hends.lt hm)
  · obtain ⟨c, hc, hforsaken⟩ := hwarns.exists_forsaken hhonest hstart hp htyped hkept hk h
    have hcj : c ≤ j := by omega
    obtain ⟨hforsaken', -⟩ := hhonest.forsaken_of_le hp hforsaken hcj
    obtain ⟨t', l, node, frames, hplace, -⟩ := hgo.exists_submitting hp
    cases hforsaken' with
    | parked hq =>
        rw [hplace] at hq
        cases hq
    | letGo hlt hgo' =>
        obtain ⟨rfl, -⟩ := hgo.unique hp hgo'
        exact absurd hlt (Nat.lt_irrefl _)

/-- but comes back with the panic. -/
theorem LetsGo.callEnds {j : Nat} (hfair : r.Fair) (hgo : r.LetsGo b p j payload)
    (haction : r.action (b + j) = .thread t) : ∃ m, r.CallEnds k m t (.error payload) stack := by
  obtain ⟨name, hback⟩ := hgo.goesBack hhonest hstart hp htyped hkept hk h haction
  obtain ⟨n, hn, hnow, ht⟩ := hfair.exists_ready hback (List.cons_ne_nil _ _)
  have hnext : (r.world (n + 1)).threads[t]? = some ⟨name, .raise payload, stack⟩ :=
    (next_of_action hnow ht rfl).2
  rcases hgo.goesBack_or_callEnds hhonest hstart hp htyped hkept hk h haction
    (show b + j < n + 1 by omega) with ⟨name', hstill⟩ | ⟨m, -, hends⟩
  · rw [hnext] at hstill
    simp [Control.replied] at hstill
  · exact ⟨m, hends⟩

section Forsaken

variable (hforsaken : r.Forsaken b p m) (hrefuses : ¬r.Refuses b p t)

include hforsaken hrefuses

/-- A caller whose interpretation is forsaken never comes back. -/
theorem Forsaken.calling (hkn : k < n) : r.Calling b p n t value error id warning stack := by
  rcases calling_course hhonest hstart hp htyped hkept hk h hkn with
    hcalling | ⟨m, reply, -, hbrings, -⟩
  · exact hcalling
  · cases hbrings with
    | exit hends => exact absurd hends (hhonest.not_endsAt_of_forsaken hp hforsaken _)
    | panic hgo haction _ => exact absurd ⟨_, _, hgo, haction⟩ hrefuses

/-- It is warned at some time. -/
theorem Forsaken.exists_warnsFor (hfair : r.Fair) : ∃ m, r.WarnsFor k m t warning stack := by
  have hreceived (n : Nat) : (r.world n).heap.received? id = none :=
    hhonest.received_of_forsaken hstart hp htyped hforsaken n
  have hsender {n : Nat} (hn : b + m ≤ n) : (r.world n).hasSender id = false := by
    obtain ⟨j, rfl⟩ := Nat.exists_eq_add_of_le (Nat.le_trans (Nat.le_add_right b m) hn)
    exact hhonest.hasSender_of_forsaken hstart hp
      (hhonest.forsaken_of_le hp hforsaken (Nat.le_of_add_le_add_left hn)).1
  have hturns {n : Nat} (hn : b ≤ n) (hturns : r.Turns n t (.run (.lost warning)) stack) :
      ∃ m, r.WarnsFor k m t warning stack :=
    ⟨n, by omega, fun j hkj _ => (hforsaken.calling hhonest hstart hp htyped hkept hk h hrefuses
      hkj).isAbove, hturns⟩
  have hwarns {n : Nat} {name : Option String} (hn : b ≤ n)
      (ht : (r.world n).threads[t]? = some ⟨name, .run (.lost warning), stack⟩) :
      ∃ m, r.WarnsFor k m t warning stack := by
    obtain ⟨m, hm, ⟨haction, -⟩, ht'⟩ := hfair.exists_does ht
    exact hturns (Nat.le_trans hn hm) ⟨haction, name, ht'⟩
  have hsleeps {n : Nat} {name : Option String} (hn : b + m ≤ n) (ht : (r.world n).threads[t]? =
      some ⟨name, .asleep (.channel id) (.receive value error id warning) (.lost warning), stack⟩) :
      ∃ m, r.WarnsFor k m t warning stack := by
    have hstep {l : Nat} (hl : n ≤ l) (ht : (r.world l).threads[t]? = some ⟨name, .asleep
        (.channel id) (.receive value error id warning) (.lost warning), stack⟩) :
        (r.world l).step? t = some ((r.world l).rouse t false) := by
      simp [World.step?, ht, World.arrival, World.isDisconnected, World.awaits, hreceived l,
        hsender (Nat.le_trans hn hl)]
    obtain ⟨l, hl, haction, ht'⟩ := hfair.exists_action ht
      (fun notified => by cases notified <;> rfl) rfl fun l hl ht => by rw [hstep hl ht]; rfl
    have hdoes := r.step l
    rw [haction, World.does, hstep hl ht'] at hdoes
    have hlost := World.threads_rouse (w := r.world l) false ht' t
    rw [if_pos rfl, Option.some.inj hdoes] at hlost
    exact hwarns (by omega) hlost
  have hreceives {n : Nat} {name : Option String} (hn : b + m ≤ n) (ht : (r.world n).threads[t]? =
      some ⟨name, .run (.receive value error id warning), stack⟩) :
      ∃ m, r.WarnsFor k m t warning stack := by
    obtain ⟨l, hl, ⟨haction, -⟩, ht'⟩ := hfair.exists_does ht
    obtain ⟨-, hnext⟩ := next_of_action haction ht' rfl
    simp only [Task.turn, hreceived l] at hnext
    exact hsleeps (by omega) hnext
  cases hforsaken.calling hhonest hstart hp htyped hkept hk h hrefuses
    (show k < b + m by omega) with
  | interprets ht hinterprets =>
      have hinto : r.EndsInto b p id := ⟨_, _, _, hp⟩
      obtain ⟨n, name, hn, hback⟩ := hfair.exists_back_of_off Return.goesOnWith_after ht
          hinterprets fun l stage hat => by
        have hplace := hinto.place hstart (hhonest.isPrivate hstart id) ⟨_, _, _, hat⟩
        cases hforsaken with
        | parked hq =>
            rw [hq] at hplace
            cases hplace
        | letGo hlt hgo =>
            rw [hgo.place_eq_none hp hlt] at hplace
            contradiction
      exact hreceives (Nat.le_of_lt hn) hback
  | panics hgo haction => exact absurd ⟨_, _, hgo, haction⟩ hrefuses
  | waits ht hawaits =>
      cases hawaits with
      | receives => exact hreceives (Nat.le_refl _) ht
      | sleeps => exact hsleeps (Nat.le_refl _) ht
  | warns ht => exact hwarns (Nat.le_add_right b m) ht
  | warned _ hl hlost => exact hturns hl hlost

end Forsaken

end Call

/-- Thread `t` asks at time `k` for the interpretation of a node and waits for its exit above a
stack, on which stands a mark if it drives a future. -/
inductive Blocks (r : Run H) (k : Nat) (t : ThreadId) (value error : Ty) (node : Node H.Data H.Fn) :
    Event → List (Return H) → Prop where
  | calls {stack : List (Return H)} :
      r.Turns k t (.run (.request (.runBlocking value error node))) stack →
        Blocks r k t value error node .blockedForever stack
  | drives {stack : List (Return H)} :
      r.Turns k t (.run (.request (.blockOn value error node))) stack →
        stack.any Return.isDriving = false →
          Blocks r k t value error node .pendingForever (.driving :: stack)

/-- When a call warns that thread `t` has made at time `k`, whose interpretation is at `p` after
that. -/
structure IsWarned (r : Run H) (k : Nat) (t : ThreadId) (warning : Event) (stack : List (Return H))
    (p : Place) : Prop where
  /-- It warns exactly when the interpretation has been forsaken, unless the caller is to come back
  with the panic of a submission; -/
  iff : r.Fair → ((∃ m, r.WarnsFor k m t warning stack) ↔
    (∃ n, r.Forsaken (k + 1) p n) ∧ ¬r.Refuses (k + 1) p t)
  /-- in particular when the node is dropped at which the interpretation is parked; -/
  parked {n : Nat} {node : HandoffId} : r.Fair → r.place (k + 1) p n = some (.handoff node) →
    (r.world (k + 1 + n)).heap.Dropped (r.world (k + 1 + n)).roots (.handoff node) →
      (∃ m, r.WarnsFor k m t warning stack) ∧ ∀ m, k < m → r.IsAbove m t stack
  /-- not before that, -/
  after {m : Nat} : r.WarnsFor k m t warning stack →
    ∃ n, k + 1 + n < m ∧ r.Forsaken (k + 1) p n
  /-- nor as long as the node is kept at which the interpretation is parked; -/
  kept {n m : Nat} {node : HandoffId} : r.place (k + 1) p n = some (.handoff node) →
    (r.world (k + 1 + n)).heap.Held (r.world (k + 1 + n)).roots (.handoff node) →
      r.WarnsFor k m t warning stack → k + 1 + n < m
  /-- once, -/
  once {m m' : Nat} : r.WarnsFor k m t warning stack → r.WarnsFor k m' t warning stack → m = m'
  /-- and the warning is all that is traced then. -/
  traced {m : Nat} : r.WarnsFor k m t warning stack → r.traced m = [warning]
  /-- The caller of a forsaken interpretation never comes back, -/
  never {n m : Nat} : r.Forsaken (k + 1) p n → ¬r.Refuses (k + 1) p t → k < m → r.IsAbove m t stack
  /-- but for one that comes back with the panic of a submission. -/
  refused {j : Nat} {payload : Payload} : r.Fair → r.LetsGo (k + 1) p j payload →
    r.action (k + 1 + j) = .thread t → ∃ m, r.CallEnds k m t (.error payload) stack

/-- A call that blocks interprets at first, and nobody drops its channel. -/
theorem Blocks.calling {node : Node H.Data H.Fn} (hstart : (r.world 0).Starting)
    (h : r.Blocks k t value error node warning stack) :
    (r.world (k + 1)).pendingAt (.thread t (stack.length + 1)) =
        some (.driving (.start node), .channel value error (r.world k).heap.channels.size) ∧
      r.Calling (k + 1) (.thread t (stack.length + 1)) (k + 1) t value error
        (r.world k).heap.channels.size warning stack ∧
        ∀ n, ¬r.Drops n (r.world k).heap.channels.size := by
  cases h with
  | calls hturns =>
      obtain ⟨name, hopens, -, ht⟩ := opens_of_blocks hturns
      exact ⟨World.pendingAt_run ht, .interprets ht (.runs rfl),
        hopens.not_drops hstart fun _ _ _ => nofun⟩
  | drives hturns hdriving =>
      obtain ⟨name, hopens, ht⟩ := opens_of_drives hturns hdriving
      exact ⟨World.pendingAt_run ht, .interprets ht (.runs rfl),
        hopens.not_drops hstart fun _ _ _ => nofun⟩

/-- A call warns when its callback has been dropped. -/
theorem Blocks.isWarned {node : Node H.Data H.Fn} (hhonest : r.IsHonest)
    (hstart : (r.world 0).Starting) (h : r.Blocks k t value error node warning stack)
    (htyped : r.EndsTyped (k + 1) (.thread t (stack.length + 1)) value error) :
    r.IsWarned k t warning stack (.thread t (stack.length + 1)) := by
  obtain ⟨hp, hcalling, hkept⟩ := h.calling hstart
  have hafter {m : Nat} (hwarns : r.WarnsFor k m t warning stack) :=
    hwarns.exists_forsaken hhonest hstart hp htyped hkept rfl hcalling
  constructor
  case iff =>
    intro hfair
    constructor
    · rintro ⟨m, hwarns⟩
      obtain ⟨n, -, hforsaken⟩ := hafter hwarns
      exact ⟨⟨n, hforsaken⟩, fun hrefuses =>
        hrefuses.not_warnsFor hhonest hstart hp htyped hkept rfl hcalling hwarns⟩
    · rintro ⟨⟨n, hforsaken⟩, hrefuses⟩
      exact hforsaken.exists_warnsFor hhonest hstart hp htyped hkept rfl hcalling hrefuses hfair
  case parked =>
    intro n node hfair hplace hdropped
    have hrefuses : ¬r.Refuses (k + 1) (.thread t (stack.length + 1)) t :=
      fun ⟨_, _, hgo, _⟩ => hhonest.not_letsGo_of_dropped hp hplace hdropped hgo
    have hforsaken := Forsaken.parked hplace hdropped
    refine ⟨hforsaken.exists_warnsFor hhonest hstart hp htyped hkept rfl hcalling hrefuses hfair,
      fun m hkm => ?_⟩
    exact (hforsaken.calling hhonest hstart hp htyped hkept rfl hcalling hrefuses hkm).isAbove
  case after => exact hafter
  case kept =>
    intro n m node hplace hheld hwarns
    obtain ⟨c, hc, hforsaken⟩ := hafter hwarns
    by_contra hle
    obtain ⟨hforsaken', -⟩ := hhonest.forsaken_of_le hp hforsaken (show c ≤ n by omega)
    cases hforsaken' with
    | parked hq hdropped =>
        obtain rfl := Place.handoff.inj (Option.some.inj (hq.symm.trans hplace))
        exact hheld.not_dropped hdropped
    | letGo hj hgo =>
        rw [hgo.place_eq_none hp hj] at hplace
        contradiction
  case once => exact fun hwarns hwarns' => hwarns.unique hwarns'
  case traced => exact fun hwarns => hwarns.traced
  case never =>
    intro n m hforsaken hrefuses hkm
    exact (hforsaken.calling hhonest hstart hp htyped hkept rfl hcalling hrefuses hkm).isAbove
  case refused =>
    intro j payload hfair hgo haction
    exact hgo.callEnds hhonest hstart hp htyped hkept rfl hcalling hfair haction

end Run

end Trampoline
