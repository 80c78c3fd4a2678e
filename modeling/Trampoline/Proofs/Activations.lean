import Trampoline.Proofs.Notifying
import Trampoline.Proofs.Trampolining

/-!
What an activation makes of the interpretation that it carries. It goes on with the interpretation
above the stack on which it has started, until it parks at a node, takes the exit where it belongs,
or lets go of it with the panic of a submission. When the thread is back on the stack, one of these
has come about, and with what the thread goes back depends on it.
-/

namespace Trampoline

variable {H : Host}

theorem Thread.Drives.isAbove {finish : Finish H.Fn} {base : List (Return H)} {thread : Thread H}
    {stage : Stage H.Data H.Fn} (h : thread.Drives finish base stage) : thread.IsAbove base := by
  have hlonger {above : List (Return H)} {back : Return H} :
      ∃ above', above ++ back :: base = above' ++ base ∧ above' ≠ [] :=
    ⟨above ++ [back], by simp, by simp⟩
  cases h with
  | goesOn => exact ⟨[], rfl, fun _ => List.cons_ne_nil _ _⟩
  | leaves => exact ⟨[], rfl, fun _ => List.cons_ne_nil _ _⟩
  | concludes => exact ⟨[_], rfl, fun hnil => absurd hnil (List.cons_ne_nil _ _)⟩
  | answers =>
      obtain ⟨above', heq, hne⟩ := hlonger
      exact ⟨above', heq, fun hnil => absurd hnil hne⟩
  | submits =>
      obtain ⟨above', heq, hne⟩ := hlonger
      exact ⟨above', heq, fun hnil => absurd hnil hne⟩

namespace Run

variable {r : Run H} {b c k l n m : Nat} {t : ThreadId} {stack base : List (Return H)}
  {back : Return H} {control : Control H} {reply reply' : Except Payload (Value H.Data H.Fn)}

/-- A thread that takes its turn when it is let stays as it is up to a time, or takes its turn
before. -/
theorem IsAt.stays_or_turns (h : r.IsAt n t control stack)
    (hready : ∀ name, Thread.IsReady ⟨name, control, stack⟩) (hnm : n ≤ m) :
    r.StaysAt n m t control stack ∨ ∃ i < m, r.TurnsFirst n i t control stack := by
  induction m, hnm using Nat.le_induction with
  | base => exact .inl h.stays
  | succ m _ ih =>
      rcases ih with hstays | ⟨i, him, hturn⟩
      · exact (hstays.next hready).imp_right fun hturn => ⟨m, Nat.lt_succ_self m, hturn⟩
      · exact .inr ⟨i, Nat.lt_succ_of_lt him, hturn⟩

/-- A thread that goes back while a call is under way ends it. -/
theorem CallEnds.eq_of_goesBack (h : r.CallEnds k m t reply stack)
    (hback : r.GoesBack n t reply' stack) (hkn : k < n) (hnm : n ≤ m) : n = m ∧ reply' = reply := by
  have hsame : n = m := by
    rcases Nat.eq_or_lt_of_le hnm with heq | hlt
    · exact heq
    · exact absurd (h.above n hkn hlt) hback.not_above
  subst hsame
  exact ⟨rfl, hback.unique h.back⟩

theorem CallEnds.lt_of_isAbove (h : r.CallEnds k m t reply stack) (habove : r.IsAbove n t stack)
    (hnm : n ≤ m) : n < m :=
  Nat.lt_of_le_of_ne hnm fun heq => h.back.not_above (heq ▸ habove)

/-- A call that is under way can be looked at from a later time on. -/
theorem CallEnds.from_le (h : r.CallEnds k m t reply stack) (hkl : k ≤ l) (hlm : l < m) :
    r.CallEnds l m t reply stack where
  lt := hlm
  above j hlj hjm := h.above j (Nat.lt_of_le_of_lt hkl hlj) hjm
  back := h.back

/-- A thread that is at work in a call takes its turn before the call ends. -/
theorem CallEnds.exists_turnsFirst {stack' : List (Return H)} (h : r.CallEnds k m t reply stack)
    (hat : r.IsAt n t control stack') (hready : ∀ name, Thread.IsReady ⟨name, control, stack'⟩)
    (habove : ∀ name, Thread.IsAbove stack ⟨name, control, stack'⟩) (hnm : n ≤ m) :
    ∃ i < m, r.TurnsFirst n i t control stack' := by
  refine (hat.stays_or_turns hready hnm).resolve_left fun hstays => ?_
  obtain ⟨name, ht⟩ := hstays.last
  exact h.back.not_above ⟨_, ht, habove name⟩

/-- A call inside another one comes back first, and its thread takes another turn then. -/
theorem CallEnds.inner (h : r.CallEnds k m t reply stack) (hlm : l < m)
    (hinner : r.IsAbove l t (back :: stack)) :
    ∃ j i reply', r.CallEnds l j t reply' (back :: stack) ∧
      r.TurnsFirst j i t (.replied reply') (back :: stack) ∧ i < m := by
  have hnot : ¬r.IsAbove m t (back :: stack) := by
    rintro ⟨thread, ht, above, hstack, -⟩
    obtain ⟨name, hback⟩ := h.back
    obtain rfl := Option.some.inj (ht.symm.trans hback)
    have hlength := congrArg List.length hstack
    simp only [List.length_append, List.length_cons] at hlength
    omega
  have hends : ∃ j reply', j ≤ m ∧ r.CallEnds l j t reply' (back :: stack) := by
    rcases isAbove_next hinner with habove | ⟨reply', hback⟩
    · rcases isAbove_or_callEnds habove hlm with hall | ⟨j, reply', hjm, hends⟩
      · exact absurd (hall m hlm (Nat.le_refl m)) hnot
      · exact ⟨j, reply', hjm, hends⟩
    · exact ⟨l + 1, reply', hlm, Nat.lt_succ_self l, fun j hlj hjl => absurd hjl (by omega), hback⟩
  obtain ⟨j, reply', hjm, hends⟩ := hends
  have hready (name : Option String) :
      Thread.IsReady (H := H) ⟨name, .replied reply', back :: stack⟩ := by
    cases reply' <;> exact List.cons_ne_nil _ _
  obtain ⟨i, him, hturn⟩ := h.exists_turnsFirst hends.back hready
    (fun name => ⟨[back], rfl, fun hnil => absurd hnil (List.cons_ne_nil _ _)⟩) hjm
  exact ⟨j, i, reply', hends, hturn, him⟩

/-- A call that a turn has begun is under way from the next time on. -/
theorem CallEnds.of_isAbove (h : r.CallEnds (k + 1) m t reply stack)
    (habove : r.IsAbove (k + 1) t stack) : r.CallEnds k m t reply stack where
  lt := Nat.lt_of_succ_lt h.lt
  above j hkj hjm := by
    rcases Nat.eq_or_lt_of_le (Nat.succ_le_of_lt hkj) with rfl | hlt
    · exact habove
    · exact h.above j hlt hjm
  back := h.back

/-- What is kept alive during a call changes nothing about how it ends. -/
theorem CallEnds.of_holding {refs : List Ref} (h : r.CallEnds k m t reply stack) (hkl : k ≤ l)
    (hlm : l < m) (hinner : r.IsAbove l t (.holding refs :: stack)) :
    ∃ j < m, r.CallEnds l j t reply (.holding refs :: stack) := by
  obtain ⟨j, i, reply', hends, hturn, him⟩ := h.inner hlm hinner
  have hback : r.GoesBack (i + 1) t reply' stack := by
    cases reply' with
    | ok v => exact (hturn.turns.isAt (fun _ => rfl) rfl rfl fun _ => rfl).1
    | error payload => exact (hturn.turns.isAt (fun _ => rfl) rfl rfl fun _ => rfl).1
  have hji := hturn.stays.1
  have hlj := hends.lt
  obtain ⟨-, rfl⟩ := h.eq_of_goesBack hback (by omega) him
  exact ⟨j, by omega, hends⟩

/-- A call whose reply is discarded goes back with nothing, or with the panic. -/
theorem CallEnds.of_discarded (h : r.CallEnds k m t reply stack) (hkl : k ≤ l) (hlm : l < m)
    (hinner : r.IsAbove l t (.after (.give .unit) :: stack)) :
    ∃ j reply', j < m ∧ r.CallEnds l j t reply' (.after (.give .unit) :: stack) ∧
      reply = reply'.map fun _ => .unit := by
  obtain ⟨j, i, reply', hends, hturn, him⟩ := h.inner hlm hinner
  have hji := hturn.stays.1
  have hlj := hends.lt
  refine ⟨j, reply', by omega, hends, ?_⟩
  cases reply' with
  | error payload =>
      have hback : r.GoesBack (i + 1) t (.error payload) stack :=
        (hturn.turns.isAt (fun _ => rfl) rfl rfl fun _ => rfl).1
      exact (h.eq_of_goesBack hback (by omega) him).2.symm
  | ok v =>
      have hgives : r.IsAt (i + 1) t (.run (.give .unit)) stack :=
        (hturn.turns.isAt (fun _ => rfl) rfl rfl fun _ => rfl).1
      obtain ⟨i', him', hturn'⟩ := h.exists_turnsFirst hgives (fun _ => trivial)
        (fun _ => ⟨[], rfl, fun _ => List.cons_ne_nil _ _⟩) him
      have hback : r.GoesBack (i' + 1) t (.ok .unit) stack :=
        (hturn'.turns.isAt (fun _ => rfl) rfl rfl fun _ => rfl).1
      have hii' := hturn'.stays.1
      exact (h.eq_of_goesBack hback (by omega) him').2.symm

/-- With what a thread goes back to a stack that takes, above the stack at time `c`, the exit of an
interpretation where it belongs. -/
inductive Concludes (r : Run H) (c : Nat) (t : ThreadId) (stack : List (Return H)) :
    Exit (Outcome H.Data H.Fn) → Finish H.Fn → Except Payload (Value H.Data H.Fn) → Prop where
  /-- The callback is given the outcome: it goes back as the callback does. -/
  | invokes {value error : Ty} {target : Callback H.Fn} {exit : Exit (Outcome H.Data H.Fn)}
      {o : Outcome H.Data H.Fn} {reply : Except Payload (Value H.Data H.Fn)} :
      exit.restore value error = .ok o → r.IsAt (c + 1) t (.run (.invoke target o)) stack →
        Concludes r c t stack exit (.callback value error target) reply
  /-- There is no outcome for the callback: the panic passes. -/
  | passes {value error : Ty} {target : Callback H.Fn} {exit : Exit (Outcome H.Data H.Fn)}
      {payload : Payload} :
      exit.restore value error = .error payload →
        Concludes r c t stack exit (.callback value error target) (.error payload)
  /-- A caller that blocks gets the exit, be it a panic, through its channel. -/
  | sends {value error : Ty} {id : ChannelId} {exit : Exit (Outcome H.Data H.Fn)} :
      exit.HasTags value error → (r.world (c + 1)).heap = (r.world c).heap.send id exit →
        Concludes r c t stack exit (.channel value error id) (.ok .unit)
  /-- The fiber of a forked effect gets the outcome: only a panic of those who wait for it passes.
  -/
  | fills {value error : Ty} {id : PromiseId} {s : SchedulerId} {o : Outcome H.Data H.Fn} {j : Nat}
      {reply : Except Payload (Value H.Data H.Fn)} :
      Outcome.HasTags value error o →
        r.IsAt (c + 1) t (.run (.fill id (.slot value error (.ofOutcome o))))
            (.after (.give .unit) :: stack) →
          r.CallEnds c j t reply (.after (.give .unit) :: stack) →
            Concludes r c t stack (.settled o) (.fiber value error id s)
              (reply.map fun _ => .unit)
  /-- The panic of a forked effect is reported: only a panic of the report passes. -/
  | reports {value error : Ty} {id : PromiseId} {s : SchedulerId} {payload payload' : Payload}
      {mark : Task H} {j : Nat} :
      r.IsAt (c + 1) t (.run (.report s (.ofPanic "fiber" payload)))
          (.after mark :: .after (.give .unit) :: stack) →
        r.CallEnds c j t (.error payload') (.after mark :: .after (.give .unit) :: stack) →
          Concludes r c t stack (.panicked payload) (.fiber value error id s) (.error payload')
  /-- The fiber of the forked effect is marked then: only a panic of those who wait for it passes.
  -/
  | marks {value error : Ty} {id : PromiseId} {s : SchedulerId} {payload : Payload} {i j : Nat}
      {reply : Except Payload (Value H.Data H.Fn)} :
      c < i → r.IsAt (i + 1) t
          (.run (.fill id (.slot value error (.panicked (.ofPanic "fiber" payload)))))
          (.after (.give .unit) :: stack) →
        r.CallEnds i j t reply (.after (.give .unit) :: stack) →
          Concludes r c t stack (.panicked payload) (.fiber value error id s)
            (reply.map fun _ => .unit)
  /-- The outcome is of other types than the caller or the fiber. -/
  | mistyped {value error : Ty} {o : Outcome H.Data H.Fn} {finish : Finish H.Fn}
      {payload : Payload} :
      (Exit.settled o).restore value error = .error payload →
        ((∃ id, finish = .channel value error id) ∨ ∃ id s, finish = .fiber value error id s) →
          Concludes r c t stack (.settled o) finish (.error payload)

section Concluding

variable {exit : Exit (Outcome H.Data H.Fn)} {finish : Finish H.Fn} {value error : Ty}
  {s : SchedulerId} {payload : Payload} {o : Outcome H.Data H.Fn}

theorem Turns.isAt_conclude (h : r.Turns c t (.run (.conclude exit finish)) stack) {turn : Turn H}
    (hturn : Task.concludeTurn (r.world c).heap exit finish = turn) :
    r.IsAt (c + 1) t turn.control (turn.pushed ++ stack) ∧
      (r.world (c + 1)).heap = turn.heap := by
  subst hturn
  refine h.isAt (fun _ => rfl) rfl rfl fun _ => ?_
  rw [(Task.concludeTurn_silent _ exit finish).1]
  rfl

/-- A thread that takes an exit where it belongs and goes back at once ends the call. -/
theorem Turns.conclude_replies (h : r.Turns c t (.run (.conclude exit finish)) stack)
    (hends : r.CallEnds c m t reply stack) (reply' : Except Payload (Value H.Data H.Fn))
    (heap : Heap H.Data H.Fn) (hturn : Task.concludeTurn (r.world c).heap exit finish =
      ⟨heap, [], .replied reply', none, none⟩) :
    reply' = reply ∧ (r.world (c + 1)).heap = heap := by
  obtain ⟨hback, hheap⟩ := h.isAt_conclude hturn
  exact ⟨(hends.eq_of_goesBack hback (Nat.lt_succ_self c) hends.lt).2, hheap⟩

theorem Turns.concludes_callback {target : Callback H.Fn}
    (h : r.Turns c t (.run (.conclude exit (.callback value error target))) stack)
    (hends : r.CallEnds c m t reply stack) :
    r.Concludes c t stack exit (.callback value error target) reply := by
  cases hrestore : exit.restore value error with
  | ok o =>
      have hturn : Task.concludeTurn (H := H) (r.world c).heap exit
          (.callback value error target) = .run (r.world c).heap (.invoke target o) := by
        simp only [Task.concludeTurn, hrestore]
      exact .invokes hrestore (h.isAt_conclude hturn).1
  | error payload =>
      obtain ⟨rfl, -⟩ := h.conclude_replies hends (.error payload) (r.world c).heap
        (by simp only [Task.concludeTurn, hrestore]; rfl)
      exact .passes hrestore

theorem Turns.concludes_channel {id : ChannelId}
    (h : r.Turns c t (.run (.conclude exit (.channel value error id))) stack)
    (hends : r.CallEnds c m t reply stack) :
    r.Concludes c t stack exit (.channel value error id) reply := by
  by_cases htags : exit.HasTags value error
  · obtain ⟨rfl, hheap⟩ := h.conclude_replies hends (.ok .unit) _
      (Task.concludeTurn_channel_of_hasTags htags (r.world c).heap id)
    exact .sends htags hheap
  · cases exit with
    | panicked payload => exact absurd (fun o ho => by cases ho) htags
    | settled o =>
        cases hrestore : (Exit.settled o).restore value error with
        | ok o' =>
            obtain ⟨-, ho⟩ := Exit.restore_eq_ok hrestore
            exact absurd (fun o' ho' => by cases ho'; exact ho) htags
        | error payload =>
            obtain ⟨rfl, -⟩ := h.conclude_replies hends (.error payload) (r.world c).heap
              (by simp only [Task.concludeTurn, hrestore]; rfl)
            exact .mistyped hrestore (.inl ⟨id, rfl⟩)

theorem Turns.concludes_settled {id : PromiseId}
    (h : r.Turns c t (.run (.conclude (.settled o) (.fiber value error id s))) stack)
    (hends : r.CallEnds c m t reply stack) :
    r.Concludes c t stack (.settled o) (.fiber value error id s) reply := by
  cases hrestore : (Exit.settled o).restore value error with
  | error payload =>
      obtain ⟨rfl, -⟩ := h.conclude_replies hends (.error payload) (r.world c).heap
        (by simp only [Task.concludeTurn, hrestore]; rfl)
      exact .mistyped hrestore (.inr ⟨id, s, rfl⟩)
  | ok o' =>
      obtain ⟨rfl, ho⟩ := Exit.restore_eq_ok hrestore
      have hturn : Task.concludeTurn (H := H) (r.world c).heap (.settled o')
          (.fiber value error id s) = .discard (r.world c).heap
            (.fill id (.slot value error (.ofOutcome o'))) := by
        simp only [Task.concludeTurn, hrestore]
      have hat := (h.isAt_conclude hturn).1
      have hlt := hends.lt_of_isAbove hat.isAbove_cons hends.lt
      obtain ⟨j, reply', -, hfills, rfl⟩ := hends.of_discarded (Nat.le_succ c) hlt hat.isAbove
      exact .fills ho hat (hfills.of_isAbove hat.isAbove)

theorem Turns.concludes_panicked {id : PromiseId}
    (h : r.Turns c t (.run (.conclude (.panicked payload) (.fiber value error id s))) stack)
    (hends : r.CallEnds c m t reply stack) :
    r.Concludes c t stack (.panicked payload) (.fiber value error id s) reply := by
  have hat : r.IsAt (c + 1) t (.run (.report s (.ofPanic "fiber" payload)))
      (.after (.fill id (.slot value error (.panicked (.ofPanic "fiber" payload)))) ::
        .after (.give .unit) :: stack) := (h.isAt_conclude rfl).1
  have hgives : r.IsAbove (c + 1) t (.after (.give .unit) :: stack) := hat.isAbove_cons
  have hlt := hends.lt_of_isAbove hgives.of_cons hends.lt
  obtain ⟨j, reply', -, hmarks, rfl⟩ := hends.of_discarded (Nat.le_succ c) hlt hgives
  obtain ⟨j', i, reply'', hreports, hturn', hij⟩ := hmarks.inner hmarks.lt hat.isAbove
  have hji := hturn'.stays.1
  have hlt' := hreports.lt
  cases reply'' with
  | error payload' =>
      have hback : r.GoesBack (i + 1) t (.error payload') (.after (.give .unit) :: stack) :=
        (hturn'.turns.isAt (fun _ => rfl) rfl rfl fun _ => rfl).1
      obtain ⟨-, rfl⟩ := hmarks.eq_of_goesBack hback (by omega) hij
      exact .reports hat (hreports.of_isAbove hat.isAbove)
  | ok v =>
      have hfill := (hturn'.turns.isAt (fun _ => rfl) rfl rfl fun _ => rfl).1
      exact .marks (by omega) hfill (hmarks.from_le (by omega) hij)

/-- A thread that takes an exit where it belongs goes back with what comes of that. -/
theorem Turns.concludes (h : r.Turns c t (.run (.conclude exit finish)) stack)
    (hends : r.CallEnds c m t reply stack) : r.Concludes c t stack exit finish reply := by
  cases finish with
  | callback value error target => exact h.concludes_callback hends
  | channel value error id => exact h.concludes_channel hends
  | fiber value error id s =>
      cases exit with
      | settled o => exact h.concludes_settled hends
      | panicked payload => exact h.concludes_panicked hends

end Concluding

/-- How the activation that carries an interpretation above a stack from time `b` on comes to its
end `n` actions later, and with what its thread goes back to the stack. -/
inductive Stops (r : Run H) (b : Nat) (t : ThreadId) (base : List (Return H)) (finish : Finish H.Fn)
    (n : Nat) : Except Payload (Value H.Data H.Fn) → Prop where
  /-- The interpretation is parked at a node that has got no exit. -/
  | parks {id : HandoffId} {frames : List (Frame H.Data H.Fn)} :
      r.stage b (.thread t base.length) n = some (.leaving id frames) →
        r.place b (.thread t base.length) (n + 1) = some (.handoff id) →
          Stops r b t base finish n (.ok .unit)
  /-- The thread takes the exit of the interpretation where it belongs. -/
  | ends {exit : Exit (Outcome H.Data H.Fn)} {refs : List Ref} {j : Nat}
      {reply : Except Payload (Value H.Data H.Fn)} :
      r.EndsAt b (.thread t base.length) n exit →
        r.CallEnds (b + n) j t reply (.holding refs :: base) →
          r.Concludes (b + n) t (.holding refs :: base) exit finish reply →
            Stops r b t base finish n reply
  /-- The panic of a submission lets go of the interpretation. -/
  | letsGo {payload : Payload} :
      r.LetsGo b (.thread t base.length) n payload → Stops r b t base finish n (.error payload)

section Activation

variable {finish : Finish H.Fn} {stage : Stage H.Data H.Fn} {x : Pending H.Data H.Fn}
  (hp : (r.world b).pendingAt (.thread t base.length) = some x) (hfinish : x.2 = finish)

include hp hfinish

/-- A thread whose interpretation is over takes its exit where it belongs, or has let go of it. -/
theorem Stays.ends_or_letsGo (h : r.Stays b t base finish n stage)
    (hs : r.stage b (.thread t base.length) n = some stage)
    (hover : r.stage b (.thread t base.length) (n + 1) = none) :
    (∃ exit refs, r.EndsAt b (.thread t base.length) n exit ∧
        r.Turns (b + n) t (.run (.conclude exit finish)) (.holding refs :: base)) ∨
      ∃ payload, r.LetsGo b (.thread t base.length) n payload ∧
        r.GoesBack (b + n + 1) t (.error payload) base := by
  obtain ⟨q, hq, hat⟩ := (r.stage_eq_some hp).1 hs
  have hnext : (r.world (b + n)).next? (r.action (b + n)) q = none := by
    have hplace := r.place_eq_none hp hover
    rwa [place, hq] at hplace
  obtain ⟨deeds, hshift⟩ := World.shift_of_next?_eq_none hnext
  cases h with
  | @concluding name exit refs hplace ht =>
      obtain rfl := Option.some.inj (hq.symm.trans hplace)
      have hturns : r.Turns (b + n) t (.run (.conclude exit finish)) (.holding refs :: base) :=
        ⟨World.action_of_shift hshift, name, ht⟩
      exact .inl ⟨exit, refs, endsAt_of_turns hplace hturns, hturns⟩
  | @going thread _ hplace ht hbase hgoing =>
      obtain rfl := Option.some.inj (hq.symm.trans hplace)
      have haction := World.action_of_shift hshift
      rw [hfinish] at hat
      rcases World.panics_of_shift hshift with ⟨name, payload, back, rest, ht', hl⟩ |
        ⟨exit, finish', hconcluding⟩
      · obtain rfl := Option.some.inj (ht.symm.trans ht')
        obtain rfl : rest = base := by
          rcases List.suffix_cons_iff.1 hbase with heq | hsuffix
          · have hlength := congrArg List.length heq
            simp only [List.length_cons] at hlength
            omega
          · exact (hsuffix.eq_of_length hl.symm).symm
        rw [haction, World.shift_thread ht] at hshift
        have hback := World.back_of_pendingAt hat ht rfl rfl
        cases back with
        | answering => simp [World.turnShift] at hshift
        | after task =>
            cases task with
            | park id frames last finish' =>
                have hturns : r.Turns (b + n) t (.raise payload)
                    (.after (.park id frames last finish') :: rest) := ⟨haction, name, ht⟩
                exact .inr ⟨payload, ⟨t, id, frames, last, finish', rest, hturns, hplace⟩,
                  (hturns.isAt (fun _ => rfl) rfl rfl fun _ => rfl).1⟩
            | _ => contradiction
        | _ => contradiction
      · obtain ⟨rfl, -⟩ := Prod.mk.inj (Option.some.inj (hat.symm.trans hconcluding))
        exact hgoing.elim

/-- A thread that leaves a node without an exit parks the interpretation there, and goes back. -/
theorem Stays.parks {id : HandoffId} {frames : List (Frame H.Data H.Fn)}
    (h : r.Stays b t base finish n (.leaving id frames))
    (hs : r.stage b (.thread t base.length) n = some (.leaving id frames))
    (haction : r.action (b + n) = .thread t)
    (hnone : ∀ s exit, (r.world (b + n)).heap.handoffs[id]? ≠ some ⟨s, .early exit⟩) :
    r.place b (.thread t base.length) (n + 1) = some (.handoff id) ∧
      r.GoesBack (b + n + 1) t (.ok .unit) base := by
  obtain ⟨thread, ht, hdrives⟩ := h.drives hp hfinish hs
  obtain ⟨t', l, ⟨s, phase⟩, hplace, hhandoff, rfl, hphase⟩ := parking_of_stage hp hs rfl
  have hplace' : r.place b (.thread t base.length) n = some (.thread t base.length) := by
    cases h with
    | going hplace => exact hplace
  obtain ⟨rfl, rfl⟩ := Place.thread.inj (Option.some.inj (hplace.symm.trans hplace'))
  obtain rfl : phase = .submitting := by
    rcases hphase with heq | ⟨exit, heq⟩
    · exact heq
    · obtain rfl : phase = _ := heq
      exact absurd hhandoff (hnone _ exit)
  cases hdrives with
  | @leaves name id frames last =>
      have hturns : r.Turns (b + n) s (.run (.park id frames last finish)) base :=
        ⟨haction, name, ht⟩
      have hturn (name : Option String) : Thread.turn? s (r.world (b + n)).heap
          (r.world (b + n)).state ⟨name, .run (.park id frames last finish), base⟩ =
            some ((r.world (b + n)).state, base,
              ⟨((r.world (b + n)).heap.emit (.parking frames.length)).setHandoff id
                ⟨s, .parked frames finish⟩, [], .ret .unit, some (.handoff id), none⟩) := by
        simp [Thread.turn?, Task.turn, Task.parkTurn, hhandoff, Handoff.leave]
      refine ⟨?_, (hturns.isAt hturn rfl rfl fun _ => rfl).1⟩
      rw [place, hplace', Option.bind_some, haction, World.next?, World.shift_thread ht]
      simp [World.turnShift, hhandoff]

/-- An activation goes on with its interpretation, or comes to its end. -/
theorem Stays.next_or_stops (h : r.Stays b t base finish n stage)
    (hs : r.stage b (.thread t base.length) n = some stage)
    (hends : r.CallEnds k m t reply base) (hkn : k ≤ b + n) (hnm : b + n < m) :
    (∃ stage', r.stage b (.thread t base.length) (n + 1) = some stage' ∧
        r.Stays b t base finish (n + 1) stage') ∨ r.Stops b t base finish n reply := by
  have hstops {reply' : Except Payload (Value H.Data H.Fn)}
      (hback : r.GoesBack (b + n + 1) t reply' base) : reply' = reply :=
    (hends.eq_of_goesBack hback (Nat.lt_succ_of_le hkn) hnm).2
  by_cases hleaves : r.action (b + n) = .thread t ∧ ∃ id frames, stage = .leaving id frames ∧
      ∀ s exit, (r.world (b + n)).heap.handoffs[id]? ≠ some ⟨s, .early exit⟩
  · obtain ⟨haction, id, frames, rfl, hnone⟩ := hleaves
    obtain ⟨hplace, hback⟩ := h.parks hp hfinish hs haction hnone
    obtain rfl := hstops hback
    exact .inr (.parks hs hplace)
  · cases hnext : r.stage b (.thread t base.length) (n + 1) with
    | some stage' =>
        refine .inl ⟨stage', rfl, h.next hp hfinish (fun id frames heq haction => ?_) hs hnext⟩
        by_contra hnone
        exact hleaves ⟨haction, id, frames, heq, fun s exit hexit => hnone ⟨s, exit, hexit⟩⟩
    | none =>
        rcases h.ends_or_letsGo hp hfinish hs hnext with
          ⟨exit, refs, hat, hturns⟩ | ⟨payload, hletsGo, hback⟩
        · obtain ⟨j, -, hcall⟩ := hends.of_holding hkn hnm (IsAt.isAbove hturns.2)
          exact .inr (.ends hat hcall (hturns.concludes hcall))
        · obtain rfl := hstops hback
          exact .inr (.letsGo hletsGo)

end Activation

/-- From time `b` to `n` actions later the activation that has started an interpretation above a
stack goes on with it. -/
def KeepsGoing (r : Run H) (b : Nat) (t : ThreadId) (base : List (Return H)) (finish : Finish H.Fn)
    (n : Nat) : Prop :=
  ∀ j ≤ n, ∃ stage thread, r.stage b (.thread t base.length) j = some stage ∧
    (r.world (b + j)).threads[t]? = some thread ∧ thread.Drives finish base stage

/-- When the call is back in which an activation has started to carry an interpretation, the
activation has done so until it came to its end. -/
theorem CallEnds.exists_stops {name : Option String} {i : Interpretation H.Data H.Fn} {last : Kept}
    {finish : Finish H.Fn} (h : r.CallEnds k m t reply base) (hkb : k < b) (hbm : b ≤ m)
    (ht : (r.world b).threads[t]? = some ⟨name, .run (.drive i last finish), base⟩) :
    ∃ n, b + n < m ∧ r.KeepsGoing b t base finish n ∧ r.Stops b t base finish n reply := by
  have hp : (r.world b).pendingAt (.thread t base.length) = some (.driving i, finish) :=
    World.pendingAt_run ht
  by_contra hnone
  -- Otherwise the activation would go on until the call is back.
  have hgoes (n : Nat) (hn : b + n ≤ m) : r.KeepsGoing b t base finish n ∧ ∃ stage,
      r.stage b (.thread t base.length) n = some stage ∧ r.Stays b t base finish n stage := by
    induction n with
    | zero =>
        have hs := (r.stage_eq_some hp (n := 0)).2 ⟨_, rfl, hp⟩
        refine ⟨fun j hj => ?_, _, hs, .going rfl ht (List.suffix_refl base) trivial⟩
        obtain rfl := Nat.le_zero.1 hj
        exact ⟨_, _, hs, ht, .goesOn⟩
    | succ n ih =>
        obtain ⟨hgoing, stage, hs, hstays⟩ := ih (Nat.le_of_succ_le hn)
        rcases hstays.next_or_stops hp rfl hs h (by omega) hn with ⟨stage', hs', hstays'⟩ | hstops
        · refine ⟨fun j hj => ?_, stage', hs', hstays'⟩
          rcases Nat.le_succ_iff.1 hj with hle | rfl
          · exact hgoing j hle
          · obtain ⟨thread, ht', hdrives⟩ := hstays'.drives hp rfl hs'
            exact ⟨stage', thread, hs', ht', hdrives⟩
        · exact absurd ⟨n, hn, hgoing, hstops⟩ hnone
  obtain ⟨n, rfl⟩ := Nat.exists_eq_add_of_le hbm
  obtain ⟨stage, thread, -, ht', hdrives⟩ := (hgoes n (Nat.le_refl _)).1 n (Nat.le_refl n)
  exact h.back.not_above ⟨thread, ht', hdrives.isAbove⟩

end Run

end Trampoline
