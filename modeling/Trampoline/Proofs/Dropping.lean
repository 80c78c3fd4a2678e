import Trampoline.Proofs.Futures
import Trampoline.Proofs.Surfacing

/-!
The panics of an effect whose future has been polled. The panic with which the effect ends is sent
into the future's channel and goes nowhere else: there it is until the future is dropped, for a poll
to panic with. So it is lost when the future is dropped before a poll has looked. A panic that does
not end the effect goes on where it has come up, whatever has become of the future.
-/

namespace Trampoline

variable {H : Host}

theorem Heap.send_of_closed {D F : Type} {heap : Heap D F} {id : ChannelId}
    (h : heap.channels[id]? = some .closed) (exit : Exit (Outcome D F)) :
    heap.send id exit = heap := by
  have hchannels : heap.channels.modify id (Channel.send exit) = heap.channels := by
    apply Array.ext_getElem?
    intro i
    rw [Array.getElem?_modify]
    split
    · next heq =>
        rw [← heq, h]
        rfl
    · rfl
  rw [send, hchannels]

namespace Run

variable {r : Run H} {k n m : Nat} {t : ThreadId} {value error : Ty} {future : FutureId}
  {id : ChannelId} {stack : List (Return H)} {payload : Payload}

theorem Drops.closed (hlt : id < (r.world n).heap.channels.size) (h : r.Drops n id) :
    (r.world (n + 1)).heap.channels[id]? = some .closed := by
  obtain ⟨t, future, hdoes, hrunning⟩ := h
  have hchanges := hdoes.changes (by simp) fun _ stack => Request.turn_dropFuture stack _ future
  rw [hchanges.heap]
  simp only [Heap.dropped, hrunning, Heap.setFuture, Heap.setChannel]
  exact Array.getElem?_setIfInBounds_self_of_lt hlt

theorem closed_of_le (h : (r.world n).heap.channels[id]? = some .closed) (hnm : n ≤ m) :
    (r.world m).heap.channels[id]? = some .closed := by
  induction hnm with
  | refl => exact h
  | @step m _ ih =>
      rcases channel_next ih with hsame | ⟨-, hclosed⟩ | ⟨_, _, _, _, _, -, -, hsent⟩
      · exact hsame
      · exact hclosed
      · exact hsent

/-- Within `n` actions thread `t` has delivered the exit of a node for which the interpretation that
is at `p` at time `b` was parked. -/
def HasDelivered (r : Run H) (b : Nat) (p : Place) (n : Nat) (t : ThreadId) : Prop :=
  ∃ m id exit, m < n ∧ r.place b p m = some (.handoff id) ∧ r.Accepts (b + m) t id exit

/-- An interpretation is on the thread that has started it, or on one that has completed a callback
for it. -/
theorem hasDelivered_of_place {b l l' : Nat} {t' : ThreadId} {x : Pending H.Data H.Fn}
    (hp : (r.world b).pendingAt (.thread t l) = some x)
    (hq : r.place b (.thread t l) n = some (.thread t' l')) :
    t' = t ∨ r.HasDelivered b (.thread t l) n t' := by
  induction n generalizing t' l' with
  | zero =>
      obtain ⟨rfl, -⟩ := Place.thread.inj (Option.some.inj hq)
      exact .inl rfl
  | succ n ih =>
      have hlater {t' : ThreadId} (h : t' = t ∨ r.HasDelivered b (.thread t l) n t') :
          t' = t ∨ r.HasDelivered b (.thread t l) (n + 1) t' :=
        h.imp_right fun ⟨m, id, exit, hm, hrest⟩ => ⟨m, id, exit, Nat.lt_succ_of_lt hm, hrest⟩
      cases hbefore : r.place b (.thread t l) n with
      | none => simp [place, hbefore] at hq
      | some q =>
          obtain ⟨stage, hat⟩ := r.pendingAt_place hp hbefore
          simp only [place, hbefore, Option.bind_some] at hq
          have hsame {t₀ : ThreadId} {l₀ l₁ : Nat} (hthere : q = .thread t₀ l₀)
              (hnext : (r.world (b + n)).next? (r.action (b + n)) q = some (.thread t₀ l₁)) :
              t' = t ∨ r.HasDelivered b (.thread t l) (n + 1) t' := by
            obtain ⟨rfl, -⟩ := Place.thread.inj (Option.some.inj (hq.symm.trans hnext))
            exact hlater (ih (hthere ▸ hbefore))
          cases (r.sound (b + n)).carries (r.step (b + n)) hat with
          | stays hnext =>
              obtain rfl := Option.some.inj (hq.symm.trans hnext)
              exact hlater (ih hbefore)
          | goOn hthere _ hnext => exact hsame hthere hnext
          | ends _ _ hnext => cases hq.symm.trans hnext
          | suspend hthere _ _ _ _ hnext => exact hsame hthere hnext
          | inline hthere _ _ _ _ hnext => exact hsame hthere hnext
          | park _ _ _ _ hnext => cases hq.symm.trans hnext
          | @accept t₀ s id name exit origin stack frames hthere haction _ ht hhandoff _ hnext =>
              obtain ⟨rfl, -⟩ := Place.thread.inj (Option.some.inj (hq.symm.trans hnext))
              have haccepts : r.Accepts (b + n) t' id exit :=
                .of_offer haction ht hhandoff rfl
              exact .inr ⟨n, id, exit, Nat.lt_succ_self n, hthere ▸ hbefore, haccepts⟩

/-- The panic with which the effect of a polled future ends at time `e` is left to the polls. -/
structure LeavesToPolls (r : Run H) (value error : Ty) (future : FutureId) (id : ChannelId)
    (payload : Payload) (e : Nat) : Prop where
  /-- It is sent into the channel, and the thread that sends it goes back without it. -/
  sends : ∃ t, (r.world e).Changes (r.world (e + 1)) t
    (.run (.conclude (.panicked payload) (.channel value error id))) (.ret .unit)
      ((r.world e).heap.send id (.panicked payload))
  /-- It is in the channel from then on until the future is dropped, -/
  received_iff {m : Nat} : (r.world m).heap.received? id = some (.panicked payload) ↔
    e < m ∧ ∀ j, j < m → ¬r.Drops j id
  /-- and the poll panics with it that looks into the channel meanwhile. -/
  raises {m : Nat} {t : ThreadId} {stack : List (Return H)} : e < m →
    (∀ j, j < m → ¬r.Drops j id) → r.Turns m t (.run (.collect value error future id)) stack →
      ∃ k, r.Turns k t (.run (.request (.poll value error future))) stack ∧
        r.CallEnds k (m + 1) t (.error payload) stack
  /-- If the future has been dropped before, nothing comes of that: nobody ever receives anything.
  -/
  discards {j : Nat} : j < e → r.Drops j id →
    (r.world e).heap.send id (.panicked payload) = (r.world e).heap ∧
      ∀ m, (r.world m).heap.received? id = none

/-- What becomes of the panics of an effect whose future is first polled at time `k`, by thread `t`;
`p` is where its interpretation starts. -/
structure HandsOnPanics (r : Run H) (k : Nat) (t : ThreadId) (p : Place) (value error : Ty)
    (future : FutureId) (id : ChannelId) : Prop where
  /-- The effect ends with the panic of a function, or with one that is the exit of a node. -/
  ends {n : Nat} {payload : Payload} : r.Panicking (k + 1) p payload n →
    r.Bypasses (k + 1) p (.channel value error id) payload n
  left {c : Nat} {payload : Payload} : r.EndsAt (k + 1) p c (.panicked payload) →
    r.LeavesToPolls value error future id payload (k + 1 + c)
  /-- The first poll that looks after the end panics with it, if the future has not been dropped. -/
  polled {c k' : Nat} {payload : Payload} {t' : ThreadId} {stack' : List (Return H)} :
    r.EndsAt (k + 1) p c (.panicked payload) → r.HoldsSender (k + 1) p id → k + 1 + c < k' →
      r.Turns k' t' (.run (.request (.poll value error future))) stack' →
        (∀ j t, j < k' → k < j → ¬r.Does j t (.request (.dropFuture future))) →
          (∀ j l t stack reply, l ≤ k' →
            r.Turns j t (.run (.request (.poll value error future))) stack →
              r.CallEnds j l t reply stack → reply = .ok (.pending value error)) → r.Fair →
                (∃ m, r.CallEnds k' m t' (.error payload) stack') ∨ r.DropsDuring k' t' id stack'
  /-- Nothing that the interpretation does is reported to any scheduler. -/
  unreported {i m : Nat} {t : ThreadId} {s : SchedulerId} {failure : WorkFailure} :
    r.Moves (k + 1) p i → ¬r.ReportsFor (k + 1 + i) m t s failure
  /-- The panic of a registration is the exit of its node, or comes out of the work and is reported.
  -/
  registered {i n : Nat} {q : Place} {node : HandoffId} {frames : List (Frame H.Data H.Fn)}
      {register : Register H.Fn} {payload : Payload} {t' : ThreadId} {stack' : List (Return H)} :
    r.place (k + 1) p i = some q → r.stage (k + 1) p i = some (.submitting node frames) →
      k + 1 + i ≤ n → r.Turns n t' (.raise payload) (.guarding node register :: stack') →
        r.Accounts (k + 1 + i) q (.channel value error id) node register payload n t' stack'
  /-- The panic of a submission goes on below the interpretation that it lets go of: on the thread
  that has polled first, or that has completed a callback. -/
  submitted {j : Nat} {payload : Payload} : r.LetsGo (k + 1) p j payload →
    ∃ t' name stack, (t' = t ∨ r.HasDelivered (k + 1) p j t') ∧
      r.place (k + 1) p j = some (.thread t' stack.length) ∧
        (r.world (k + 1 + j + 1)).threads[t']? = some ⟨name, .raise payload, stack⟩
  /-- Only who drops the future drops the channel. -/
  drops {n : Nat} : r.Drops n id → k < n ∧ ∃ t, r.Does n t (.request (.dropFuture future))

theorem LetsGo.raises {b j : Nat} {p : Place} (h : r.LetsGo b p j payload) :
    ∃ t name stack, r.place b p j = some (.thread t stack.length) ∧
      (r.world (b + j + 1)).threads[t]? = some ⟨name, .raise payload, stack⟩ := by
  obtain ⟨t, id, frames, last, finish, stack, ⟨haction, name, ht⟩, hplace⟩ := h
  obtain ⟨-, hnext⟩ := next_of_action haction ht rfl
  exact ⟨t, name, stack, hplace, hnext⟩

section Polled

variable {node : Node H.Data H.Fn} (hstart : (r.world 0).Starting)
  (hprivate : r.IsPrivate id) (hpolled : r.PollsAt value error future)
  (hfirst : r.PollsFirst m k t value error node future id stack)

include hstart hprivate hpolled hfirst

theorem PollsFirst.leavesToPolls {c : Nat}
    (hends : r.EndsAt (k + 1) (.thread t (stack.length + 1)) c (.panicked payload)) :
    r.LeavesToPolls value error future id payload (k + 1 + c) := by
  have hp := (hfirst.begins hstart).pendingAt
  -- An effect that ends with a panic ends with no value, so the types do not matter.
  have htyped : r.EndsTyped (k + 1) (.thread t (stack.length + 1)) value error := by
    intro c' exit hends'
    obtain ⟨-, rfl⟩ := hends.unique hp hends'
    exact fun o heq => by contradiction
  have hclosed {j m : Nat} (hj : j < m) (hdrops : r.Drops j id) :
      (r.world m).heap.channels[id]? = some .closed := by
    obtain ⟨hkj, -⟩ := hfirst.of_drops hstart hdrops
    have hlt : id < (r.world (k + 1)).heap.channels.size := by
      rw [(hfirst.opens hstart).1.2.2]
      exact Nat.lt_succ_self id
    exact closed_of_le (hdrops.closed (Nat.lt_of_lt_of_le hlt (channels_size_le hkj))) hj
  have hreceived {m : Nat} (hm : k + 1 + c < m) (hkept : ∀ j, j < m → ¬r.Drops j id) :
      (r.world m).heap.received? id = some (.panicked payload) :=
    hends.received hstart hprivate hp htyped hkept hm
  -- Nothing but the panic is ever received, and not before the end or after a drop.
  have hlate {m : Nat} {exit : Exit (Outcome H.Data H.Fn)}
      (hthere : (r.world m).heap.received? id = some exit) :
      k + 1 + c < m ∧ ∀ j, j < m → ¬r.Drops j id := by
    obtain ⟨c', hc', hends'⟩ := exists_endsAt_of_received hstart hprivate hp htyped hthere
    obtain ⟨rfl, -⟩ := hends.unique hp hends'
    refine ⟨hc', fun j hj hdrops => ?_⟩
    simp [Heap.received?, hclosed hj hdrops] at hthere
  refine ⟨?_, fun {m} => ⟨hlate, fun h => hreceived h.1 h.2⟩, fun hm hkept hturns => ?_,
    fun {j} hj hdrops => ⟨Heap.send_of_closed (hclosed hj hdrops) _, fun m => ?_⟩⟩
  · obtain ⟨t', hdoes⟩ := exists_does_of_finish hp hends
    exact ⟨t', hdoes.changes (by simp) fun _ _ => rfl⟩
  · obtain ⟨-, -, -, k', -, hpolls, hcall⟩ :=
      hfirst.brings hstart hprivate hpolled htyped hturns (hreceived hm hkept)
    exact ⟨k', hpolls, hcall⟩
  · cases hthere : (r.world m).heap.received? id with
    | none => rfl
    | some exit =>
        obtain ⟨hm, hkept⟩ := hlate hthere
        exact absurd hdrops (hkept j (Nat.lt_trans hj hm))

/-- A panic that ends the effect of a future is lost only if the future is dropped before a poll
looks for it; every other panic of the effect goes on where it has come up. -/
theorem PollsFirst.handsOnPanics :
    r.HandsOnPanics k t (.thread t (stack.length + 1)) value error future id where
  ends hpanicking := hpanicking.bypasses hstart (hfirst.begins hstart).pendingAt
  left hends := hfirst.leavesToPolls hstart hprivate hpolled hends
  polled {c k' payload t' stack'} hends hsender hk' hpolls hkept hearlier hfair := by
    have hp := (hfirst.begins hstart).pendingAt
    refine hfirst.after hstart hpolled hprivate (fun c' exit hends' => ?_) hends hsender hk' hpolls
      hkept hearlier hfair
    obtain ⟨-, rfl⟩ := hends.unique hp hends'
    exact fun o heq => by contradiction
  unreported {i m t' s failure} hmoves :=
    hmoves.not_reportsFor_of_channel hstart (hfirst.begins hstart).pendingAt s failure
  registered {i n q node' frames register payload t' stack'} hq hs hn hturns := by
    have hp := (hfirst.begins hstart).pendingAt
    obtain ⟨q', hq', hat⟩ := (r.stage_eq_some hp).1 hs
    obtain rfl := Option.some.inj (hq.symm.trans hq')
    exact accounts hstart hat hn hturns
  submitted hletsGo := by
    obtain ⟨t', name, stack', hplace, hraises⟩ := hletsGo.raises
    have hthread := hasDelivered_of_place (hfirst.begins hstart).pendingAt hplace
    exact ⟨t', name, stack', hthread, hplace, hraises⟩
  drops hdrops := hfirst.of_drops hstart hdrops

end Polled

end Run

namespace Drill

/-- The continuation of the async node panics. -/
def faulty : Node Unit Nat :=
  .flatMap (.async (.user .unit .unit ⟨2, ∅⟩) immediateId) (.map .unit ⟨3, ∅⟩)

/-- The first thread polls the future of the effect, and does something else with it then; the
second one completes the effect. -/
def faulting (q : Request Unit Nat) : Script
  | 0 => [.ask (.runAsync .unit .unit faulty), .ask (.poll .unit .unit 0), .ask q]
  | 1 => [.ask (.complete (.node 0) (.ok .unit))]
  | 3 => [.raise (.text "late bug")]
  | _ => []

/-- The future is polled once more when the effect has ended. -/
def kept : Run (host (faulting (.poll .unit .unit 0))) :=
  run _ [] (1 :: (List.replicate 24 0 ++ List.replicate 16 1 ++ List.replicate 4 0))

set_option maxRecDepth 4000 in
theorem kept_touchesAt (n : Nat) (t : ThreadId)
    (task : Task (host (faulting (.poll .unit .unit 0))))
    (h : kept.Does n t task) : touchesAt [5, 41] n task :=
  check_of_does (by decide) h

/-- No future is dropped. -/
def dropsNone : Task (host (faulting (.poll .unit .unit 0))) → Bool
  | .request (.dropFuture _) => false
  | _ => true

set_option maxRecDepth 4000 in
/-- The second poll panics. -/
theorem kept_handsOnPanics :
    kept.HandsOnPanics 5 0 (.thread 0 2) .unit .unit 0 0 ∧
      kept.EndsAt 6 (.thread 0 2) 29 (.panicked (.text "late bug")) ∧
        kept.CallEnds 41 43 0 (.error (.text "late bug")) [.user (0, 3)] := by
  have hfirst : kept.PollsFirst 2 5 0 .unit .unit faulty 0 0 [.user (0, 2)] :=
    ⟨⟨⟨0, rfl, _, _, rfl⟩, rfl⟩, by decide, leavesAlone_of_touchesAt kept_touchesAt (by decide) 0,
      ⟨rfl, _, rfl⟩, rfl⟩
  have hhands := hfirst.handsOnPanics (start_starting _ [])
    (isPrivate_of_touchesAt kept_touchesAt 0)
    (pollsAt_of_touchesAt kept_touchesAt 0)
  have hends : kept.EndsAt 6 (.thread 0 2) 29 (.panicked (.text "late bug")) := by
    have hdeeds : kept.deeds 6 (.thread 0 2) 29 = [.finish (.panicked (.text "late bug"))] := rfl
    simp [Run.EndsAt, hdeeds]
  have hkept (d : Nat) : ¬kept.Drops d 0 := by
    rintro ⟨t, future, hdoes, -⟩
    have hnone := check_of_does (c := fun _ => dropsNone) (by decide) hdoes
    contradiction
  refine ⟨hhands, hends, ?_⟩
  have hlooks : kept.Turns 42 0 (.run (.collect .unit .unit 0 0)) [.user (0, 3)] := ⟨rfl, _, rfl⟩
  obtain ⟨k, hpolls, hcall⟩ := (hhands.left hends).raises (by decide) (fun j _ => hkept j) hlooks
  obtain rfl | rfl : k = 5 ∨ k = 41 := by
    simpa using mem_of_touches kept_touchesAt (.inl ⟨0, _, _, hpolls.does⟩)
  · obtain ⟨-, hstack⟩ := hpolls.unique hfirst.polls
    obtain ⟨-, hline⟩ := Prod.mk.inj (Return.user.inj (List.cons.inj hstack).1)
    contradiction
  · exact hcall

/-- The future is dropped before the effect has ended. -/
def dropped : Run (host (faulting (.dropFuture 0))) :=
  run _ [] (1 :: (List.replicate 27 0 ++ List.replicate 16 1))

/-- Whether a thread takes its turn to panic. -/
def raises {script : Script} (r : Run (host script)) (n : Nat) : Bool :=
  match r.action n with
  | .thread t =>
      match (r.world n).threads[t]? with
      | some ⟨_, .raise _, _⟩ => true
      | _ => false
  | _ => false

def reports : Task (host (faulting (.dropFuture 0))) → Bool
  | .report _ _ => true
  | _ => false

set_option maxRecDepth 4000 in
/-- The panic that ends the effect is discarded: nobody receives it, panics with it or is given a
report. -/
theorem dropped_discards :
    dropped.Fair ∧ dropped.PollsFirst 2 5 0 .unit .unit faulty 0 0 [.user (0, 2)] ∧
      dropped.EndsAt 6 (.thread 0 2) 32 (.panicked (.text "late bug")) ∧
        (∀ n, (dropped.world n).heap.received? 0 = none) ∧
          (∀ n t payload stack, 38 ≤ n → ¬dropped.Turns n t (.raise payload) stack) ∧
            ∀ n t s failure, ¬dropped.Does n t (.report s failure) := by
  have htouches (n : Nat) (t : ThreadId) (task : Task (host (faulting (.dropFuture 0))))
      (h : dropped.Does n t task) : touchesAt [5, 25] n task := check_of_does (by decide) h
  have hstart := start_starting (faulting (.dropFuture 0)) []
  have hfirst : dropped.PollsFirst 2 5 0 .unit .unit faulty 0 0 [.user (0, 2)] :=
    ⟨⟨⟨0, rfl, _, _, rfl⟩, rfl⟩, by decide, leavesAlone_of_touchesAt htouches (by decide) 0,
      ⟨rfl, _, rfl⟩, rfl⟩
  have hends : dropped.EndsAt 6 (.thread 0 2) 32 (.panicked (.text "late bug")) := by
    have hdeeds : dropped.deeds 6 (.thread 0 2) 32 = [.finish (.panicked (.text "late bug"))] := rfl
    simp [Run.EndsAt, hdeeds]
  have hdrops : dropped.Drops 25 0 := ⟨0, 0, ⟨rfl, _, _, rfl⟩, rfl⟩
  have hleaves := hfirst.leavesToPolls hstart (isPrivate_of_touchesAt htouches 0)
    (pollsAt_of_touchesAt htouches 0) hends
  refine ⟨Run.fair_ofList (by decide), hfirst, hends,
    (hleaves.discards (by decide) hdrops).2,
    ?_, ?_⟩
  · rintro n t payload stack hn ⟨haction, name, ht⟩
    have hraises : raises dropped n = true := by simp [raises, haction, ht]
    by_cases hlt : n < 44
    · have hnone : ∀ n < 44, 38 ≤ n → raises dropped n = false := by decide
      rw [hnone n hlt hn] at hraises
      contradiction
    · rw [dropped, run, Run.action_ofList _ _ _ (by simpa using hlt)] at haction
      contradiction
  · intro n t s failure hdoes
    have hnone := check_of_does (c := fun _ task => !reports task) (by decide) hdoes
    contradiction

end Drill

end Trampoline
