import Trampoline.Proofs.Activations
import Trampoline.Proofs.Enlisting
import Trampoline.Proofs.Joined

/-!
Those who wait for a fiber when it is completed. A node that is parked then has subscribed before,
and its subscriber is called in its turn. The call takes what is parked at the node and goes on with
it, on the thread of the completion and above the rest of the list, until it is parked again or at
its end. What escapes from that goes back to the list, which keeps the first panic and goes on.
-/

namespace Trampoline

variable {H : Host}

namespace Run

variable {r : Run H} {fiber : PromiseId} {w i k k' l m n : Nat} {s t t' : ThreadId}
  {v v' : Value H.Data H.Fn} {stack base : List (Return H)}
  {calls calls' : List (Subscriber H.Fn × Except Payload (Value H.Data H.Fn))}
  {subscriber subscriber' : Subscriber H.Fn} {subscribers subscribers' : List (Subscriber H.Fn)}
  {reply : Except Payload (Value H.Data H.Fn)}

/-- Who has been called has been called when those before him had come back, and has come back
himself. -/
theorem HasNotified.exists_called (h : r.HasNotified fiber w t v stack calls subscribers n)
    (hi : calls[i]? = some (subscriber, reply)) :
    ∃ k m subscribers', r.CallsNext fiber w t v stack (calls.take i) subscriber subscribers' k ∧
      r.CallEnds k m t reply (rest fiber v stack subscribers' (firstPanic (calls.take i))) ∧
        m < n := by
  induction h with
  | taken => simp at hi
  | @called calls subscriber' subscribers' l k m j reply' hnotified hturn hends hback ih =>
      have hlm : m ≤ j := hback.stays.1
      have hlk : l ≤ k := hturn.stays.1
      have hkm : k < m := hends.lt
      rcases Nat.lt_or_ge i calls.length with hlt | hge
      · rw [List.getElem?_append_left hlt] at hi
        rw [List.take_append_of_le_length (Nat.le_of_lt hlt)]
        obtain ⟨k, m, subscribers', hcalls, hends', hml⟩ := ih hi
        exact ⟨k, m, subscribers', hcalls, hends', by omega⟩
      · rw [List.getElem?_append_right hge] at hi
        obtain ⟨hindex, heq⟩ := List.getElem?_eq_some_iff.1 hi
        obtain rfl : i = calls.length := by
          have hzero : i - calls.length < 1 := hindex
          omega
        obtain ⟨rfl, rfl⟩ := Prod.mk.inj (by simpa using heq)
        rw [List.take_left]
        exact ⟨k, m, subscribers', ⟨l, hnotified, hturn⟩, hends, Nat.lt_succ_of_le hlm⟩

/-- A thread that has delivered an exit which is accepted has gone on. -/
theorem Accepts.not_isAt {id id' : HandoffId} {exit exit' : Exit (Outcome H.Data H.Fn)}
    {origin : Origin} (h : r.Accepts n t id exit) :
    ¬r.IsAt (n + 1) t (.run (.deliver id' exit' origin)) base := by
  obtain ⟨origin', handoff, ⟨haction, name, stack, ht⟩, hhandoff, haccepted⟩ := h
  rintro ⟨name', ht'⟩
  obtain ⟨-, hnext⟩ := next_of_action haction ht rfl
  obtain ⟨s, phase⟩ := handoff
  have hcontrol := (Thread.mk.inj (Option.some.inj (hnext.symm.trans ht'))).2.1
  rcases (Handoff.isAccepted_iff _ _ _).1 haccepted with ⟨hphase, hsame⟩ | ⟨frames, finish, hphase⟩
  · obtain rfl : phase = _ := hphase
    obtain rfl : t = s := hsame
    simp [Task.turn, Task.deliverTurn, hhandoff, Handoff.offer, Turn.ret] at hcontrol
  · obtain rfl : phase = _ := hphase
    simp [Task.turn, Task.deliverTurn, hhandoff, Handoff.offer, Turn.run] at hcontrol

theorem CallsNext.tells (h : r.CallsNext fiber w t v stack calls subscriber subscribers k) :
    r.Tells fiber k t subscriber v := by
  obtain ⟨l, -, hturn⟩ := h
  exact .kept hturn.turns.does

theorem CallsNext.lt (h : r.CallsNext fiber w t v stack calls subscriber subscribers k) :
    w < k := by
  obtain ⟨l, hnotified, hturn⟩ := h
  exact Nat.lt_of_lt_of_le hnotified.lt hturn.stays.1

/-- A call that completes a fiber by hand hands on what the write goes back with, if this is not the
outcome itself. -/
theorem Turns.givesBack (h : r.Turns n t (.replied reply) (.givingBack :: base))
    (hreply : ∀ v, reply = .ok v → Return.giveBack v = v) : r.GoesBack (n + 1) t reply base := by
  cases reply with
  | ok v =>
      have hret : r.IsAt (n + 1) t (.ret (Return.giveBack v)) base :=
        (h.isAt (fun _ => rfl) rfl rfl fun _ => rfl).1
      rw [hreply v rfl] at hret
      exact hret
  | error payload => exact (h.isAt (fun _ => rfl) rfl rfl fun _ => rfl).1

/-- At time `w` an interpretation is parked at a node that joins the fiber. No request of the host
names the node. -/
structure WaitsFor (r : Run H) (fiber : PromiseId) (w : Nat) (value error : Ty) (id : HandoffId)
    (frames : List (Frame H.Data H.Fn)) (finish : Finish H.Fn) : Prop where
  hides : r.Hides (.handoff id)
  comes : ∃ k s, r.ComesTo k s (.join value error fiber) immediateId id ∧
    fiber < (r.world k).heap.promises.size
  parked : (r.world w).pendingAt (.handoff id) = some (.parked id frames, finish)

/-- Thread `t`, which has called a subscriber at time `k`, takes what is parked at a node together
with the value, and from time `b` on goes on with it above the stack. -/
structure Resumes (r : Run H) (k : Nat) (t : ThreadId) (v : Value H.Data H.Fn)
    (base : List (Return H)) (id : HandoffId) (frames : List (Frame H.Data H.Fn))
    (finish : Finish H.Fn) (d b : Nat) : Prop where
  later : k < d ∧ d < b
  handsOver : r.HandsOver d id frames finish (.settled (.ok v)) (.thread t base.length)
  begins : r.IsAt b t (.run (.drive (.settle (.settled (.ok v)) frames) ∅ finish)) base

/-- The completion of a fiber that thread `t` begins at time `w`, with those who wait for the
fiber. -/
structure ResumesJoiners (r : Run H) (fiber : PromiseId) (w : Nat) (t : ThreadId)
    (v : Value H.Data H.Fn) (stack : List (Return H)) : Prop where
  /-- Who waits at a node has subscribed for it before, and once. -/
  joined {value error : Ty} {id : HandoffId} {frames : List (Frame H.Data H.Fn)}
      {finish : Finish H.Fn} :
    r.WaitsFor fiber w value error id frames finish →
      ∃ m s, m < w ∧ r.Subscribes fiber m s (.join value error (.node id)) ∧
        ∀ m' s', r.Subscribes fiber m' s' (.join value error (.node id)) → m' = m
  /-- All who have subscribed before have their places in the list, in the order in which they have
  come. -/
  listed {m n : Nat} {s : ThreadId} {subscriber : Subscriber H.Fn} :
    r.Subscribes fiber m s subscriber → m < n → n ≤ w →
      (r.kept fiber n)[(r.kept fiber m).length]? = some subscriber
  /-- The thread calls them one after another; when all have come back, it goes back with the first
  panic that has escaped from one of them, or with success if there was none. -/
  goes {n : Nat} : w < n → r.Notifying fiber w t v stack n ∨
    ∃ calls m, m ≤ n ∧ r.HasNotifiedAll fiber w t v stack calls m
  /-- Nobody of the list has been left out then. -/
  everyone {calls : List (Subscriber H.Fn × Except Payload (Value H.Data H.Fn))} {m n : Nat}
      {s : ThreadId} {subscriber : Subscriber H.Fn} :
    r.HasNotifiedAll fiber w t v stack calls n → r.Subscribes fiber m s subscriber → m < w →
      ∃ reply, calls[(r.kept fiber m).length]? = some (subscriber, reply)
  /-- Each has been called once those before him were back, and has come back. -/
  called {calls : List (Subscriber H.Fn × Except Payload (Value H.Data H.Fn))} {m i : Nat}
      {subscriber : Subscriber H.Fn} {reply : Except Payload (Value H.Data H.Fn)} :
    r.HasNotifiedAll fiber w t v stack calls m → calls[i]? = some (subscriber, reply) →
      ∃ k j subscribers, r.CallsNext fiber w t v stack (calls.take i) subscriber subscribers k ∧
        r.CallEnds k j t reply (rest fiber v stack subscribers (firstPanic (calls.take i))) ∧ j < m
  /-- Each is called once. -/
  once {calls calls' : List (Subscriber H.Fn × Except Payload (Value H.Data H.Fn))}
      {subscriber subscriber' : Subscriber H.Fn} {subscribers subscribers' : List (Subscriber H.Fn)}
      {k k' : Nat} :
    r.CallsNext fiber w t v stack calls subscriber subscribers k →
      r.CallsNext fiber w t v stack calls' subscriber' subscribers' k' →
        calls.length = calls'.length → k = k'
  /-- None is called before those that have come earlier are back, whatever they have done. -/
  inTurn {calls calls' : List (Subscriber H.Fn × Except Payload (Value H.Data H.Fn))}
      {subscriber subscriber' : Subscriber H.Fn} {subscribers subscribers' : List (Subscriber H.Fn)}
      {k k' : Nat} :
    r.CallsNext fiber w t v stack calls subscriber subscribers k →
      r.CallsNext fiber w t v stack calls' subscriber' subscribers' k' →
        calls.length < calls'.length → ∃ m reply, calls'[calls.length]? = some (subscriber, reply) ∧
          m ≤ k' ∧ r.CallEnds k m t reply (rest fiber v stack subscribers (firstPanic calls))
  /-- What waits at a node is gone on with by the thread that has called its subscriber. -/
  resumes {value error : Ty} {id : HandoffId} {frames : List (Frame H.Data H.Fn)}
      {finish : Finish H.Fn} {k : Nat} {subscribers : List (Subscriber H.Fn)}
      {calls : List (Subscriber H.Fn × Except Payload (Value H.Data H.Fn))} :
    r.WaitsFor fiber w value error id frames finish →
      r.CallsNext fiber w t v stack calls (.join value error (.node id)) subscribers k → r.Fair →
        ∃ d b, r.Resumes k t v (rest fiber v stack subscribers (firstPanic calls)) id frames finish
          d b
  /-- When the call is back, it has been gone on with until it was parked again, had come to its
  end, or was let go, and the reply is what comes of that: the panic of a run passes, and that of a
  caller who blocks or of a forked effect goes where its exit belongs. -/
  stops {value error : Ty} {id : HandoffId} {frames : List (Frame H.Data H.Fn)}
      {finish : Finish H.Fn} {k m : Nat} {subscribers : List (Subscriber H.Fn)}
      {calls : List (Subscriber H.Fn × Except Payload (Value H.Data H.Fn))}
      {reply : Except Payload (Value H.Data H.Fn)} :
    r.WaitsFor fiber w value error id frames finish →
      r.CallsNext fiber w t v stack calls (.join value error (.node id)) subscribers k →
        r.CallEnds k m t reply (rest fiber v stack subscribers (firstPanic calls)) →
          ∃ d b n, b + n < m ∧
            r.Resumes k t v (rest fiber v stack subscribers (firstPanic calls)) id frames finish
              d b ∧
            r.KeepsGoing b t (rest fiber v stack subscribers (firstPanic calls)) finish n ∧
              r.Stops b t (rest fiber v stack subscribers (firstPanic calls)) finish n reply
  /-- Nobody else goes on with it, before or after. -/
  only {value error : Ty} {id : HandoffId} {frames frames' : List (Frame H.Data H.Fn)}
      {finish finish' : Finish H.Fn} {n : Nat} {exit : Exit (Outcome H.Data H.Fn)} {p : Place} :
    r.WaitsFor fiber w value error id frames finish → r.HandsOver n id frames' finish' exit p →
      (∃ l, p = .thread t l) ∧ ∃ k calls subscribers, k < n ∧
        r.CallsNext fiber w t v stack calls (.join value error (.node id)) subscribers k ∧
          ∀ m frames' finish' exit p, r.HandsOver m id frames' finish' exit p → m = n
  /-- The value stays. -/
  value {n : Nat} : w < n → (r.world n).heap.promised? fiber = some v
  /-- If each that is called comes back, all are called. -/
  ends : r.Fair →
    (∀ calls subscriber subscribers k,
      r.CallsNext fiber w t v stack calls subscriber subscribers k →
        ∃ m reply, r.CallEnds k m t reply (rest fiber v stack subscribers (firstPanic calls))) →
      ∃ calls m, r.HasNotifiedAll fiber w t v stack calls m
  /-- A call that completes the fiber by hand goes back then with the first panic, or with success.
  -/
  returns {value error : Ty} {o : Outcome H.Data H.Fn} {base : List (Return H)} {k₀ m : Nat}
      {calls : List (Subscriber H.Fn × Except Payload (Value H.Data H.Fn))} :
    r.Turns k₀ t (.run (.request (.fillFiber value error fiber o))) base → r.NextTurn t k₀ w →
      r.HasNotifiedAll fiber w t v stack calls m → r.Fair →
        v = .slot value error (.ofOutcome o) ∧ ∃ m', r.CallEnds k₀ m' t (verdict v calls) base

section Completion

variable (hstart : (r.world 0).Starting) (hwrites : r.Writes fiber w t v)

include hstart hwrites

/-- Who has subscribed before the value is written has his place in the list, after those who have
subscribed before him. -/
theorem Writes.getElem?_kept (h : r.Subscribes fiber m s subscriber) (hmn : m < n) (hnw : n ≤ w) :
    (r.kept fiber n)[(r.kept fiber m).length]? = some subscriber := by
  have hnone : (r.world m).heap.promised? fiber = none := by
    cases hpromised : (r.world m).heap.promised? fiber with
    | none => rfl
    | some v' =>
        obtain ⟨j, t', hjm, hwrites'⟩ := (promised?_eq_some hstart).1 hpromised
        obtain ⟨rfl, -⟩ := hwrites.unique hwrites'
        omega
  exact Run.getElem?_kept (h.keeps hstart hnone).2 hmn

variable (hbegin : r.Turns w t (.run (.fill fiber v)) stack)

/-- Of two that are called one has come back before the other is called. -/
theorem CallsNext.endsBefore (h : r.CallsNext fiber w t v stack calls subscriber subscribers k)
    (h' : r.CallsNext fiber w t v stack calls' subscriber' subscribers' k')
    (hlt : calls.length < calls'.length) :
    ∃ m reply, calls'[calls.length]? = some (subscriber, reply) ∧ m ≤ k' ∧
      r.CallEnds k m t reply (rest fiber v stack subscribers (firstPanic calls)) := by
  obtain ⟨l, hnotified, hturn⟩ := h'
  obtain ⟨⟨subscriber₀, reply⟩, hi⟩ : ∃ x, calls'[calls.length]? = some x :=
    ⟨_, List.getElem?_eq_getElem hlt⟩
  obtain ⟨k₀, m, subscribers₀, hcalls, hends, hml⟩ := hnotified.exists_called hi
  have hlength : (calls'.take calls.length).length = calls.length := by
    rw [List.length_take]
    omega
  obtain rfl := hcalls.once hstart hwrites h hlength
  obtain ⟨name, ht⟩ := hcalls.isAt
  obtain ⟨name', ht'⟩ := h.isAt
  obtain ⟨-, hcontrol, hrest⟩ := Thread.mk.inj (Option.some.inj (ht.symm.trans ht'))
  obtain ⟨rfl, -⟩ := Task.tell.inj (Control.run.inj hcontrol)
  rw [hrest] at hends
  exact ⟨m, reply, hi, Nat.le_trans (Nat.le_of_lt hml) hturn.stays.1, hends⟩

section Joiner

variable (himmediate : (r.world 0).heap.schedulers[immediateId]? = some .immediate)
  {value error : Ty} {id : HandoffId} {frames : List (Frame H.Data H.Fn)} {finish : Finish H.Fn}

include himmediate

omit hwrites in
/-- Who waits for the fiber has subscribed to it, once. -/
theorem WaitsFor.exists_subscribes (h : r.WaitsFor fiber w value error id frames finish) :
    ∃ m s, m < w ∧ r.Subscribes fiber m s (.join value error (.node id)) ∧
      ∀ m' s', r.Subscribes fiber m' s' (.join value error (.node id)) → m' = m := by
  obtain ⟨j, s, hcomes, hsize⟩ := h.comes
  obtain ⟨m, hjm, hmw, henlists⟩ :=
    exists_enlists_of_parked h.hides hstart himmediate hcomes h.parked
  refine ⟨m, s, hmw, ⟨henlists, ?_⟩, fun m' s' hsubscribes => ?_⟩
  · exact Nat.lt_of_lt_of_le hsize (promises_size_le (Nat.le_of_lt hjm))
  · exact (Enlists.unique h.hides hstart himmediate hcomes hsubscribes.1 henlists).1

include hbegin

/-- An exit that the node accepts comes from the call of its subscriber. -/
theorem WaitsFor.exists_callsNext (h : r.WaitsFor fiber w value error id frames finish)
    {exit : Exit (Outcome H.Data H.Fn)} (haccepts : r.Accepts n t' id exit) :
    t' = t ∧ exit = .settled (.ok v) ∧ ∃ k calls subscribers, k < n ∧
      r.CallsNext fiber w t v stack calls (.join value error (.node id)) subscribers k := by
  obtain ⟨j, s, hcomes, -⟩ := h.comes
  obtain ⟨v', rfl, hpromised⟩ :=
    accepts_eq_promised hstart himmediate h.hides hcomes haccepts
  obtain ⟨w', t₁, hw', hwrites'⟩ := (promised?_eq_some hstart).1 hpromised
  obtain ⟨rfl, rfl, rfl⟩ := hwrites.unique hwrites'
  obtain ⟨k, promise, subscriber, v', hkn, htells, htarget⟩ :=
    haccepts.exists_tells h.hides hstart himmediate hcomes
  obtain ⟨rfl, rfl, -⟩ := htells.of_node h.hides hstart hcomes htarget
  cases htells with
  | kept hdoes =>
      obtain ⟨rfl, -, calls, -, hcalls⟩ := hwrites.callsNext_of_does hstart hbegin hdoes
      exact ⟨rfl, rfl, k, calls, _, hkn, hcalls⟩
  | late hdoes hpromised' =>
      -- The node would subscribe when the value is there, and has done so before.
      obtain ⟨m, s', hmw, hsubscribes, -⟩ := h.exists_subscribes hstart himmediate
      obtain ⟨rfl, -⟩ := Enlists.unique h.hides hstart himmediate hcomes hdoes hsubscribes.1
      obtain ⟨w', t'', hw'k, hwrites''⟩ := (promised?_eq_some hstart).1 hpromised'
      obtain ⟨rfl, -⟩ := hwrites.unique hwrites''
      omega

/-- What waits for the fiber is still parked when the thread that has called its subscriber delivers
the value: nobody else delivers anything to the node. -/
theorem WaitsFor.handsOver (h : r.WaitsFor fiber w value error id frames finish)
    (hcalls : r.CallsNext fiber w t v stack calls (.join value error (.node id)) subscribers k)
    {d : Nat} (hkd : k < d)
    (hturns : r.Turns d t (.run (.deliver id (.settled (.ok v)) .completion)) base)
    (hfirst : ∀ n, k < n → n < d → ¬r.Accepts n t id (.settled (.ok v))) :
    r.HandsOver d id frames finish (.settled (.ok v)) (.thread t base.length) ∧
      r.IsAt (d + 1) t (.run (.resume (.settled (.ok v)) frames finish)) base := by
  obtain ⟨j, s, hcomes, -⟩ := h.comes
  have hwd : w ≤ d := by
    have hwk := hcalls.lt
    omega
  have hnone : ¬(r.world d).At id Phase.HasExit := by
    intro hexit
    obtain ⟨n, t', exit, hnd, haccepts⟩ := exists_accepts_of_hasExit hexit
    obtain ⟨rfl, rfl, k', calls', subscribers', hkn, hcalls'⟩ :=
      h.exists_callsNext hstart hwrites hbegin himmediate haccepts
    obtain ⟨rfl, -⟩ := Tells.summons_once h.hides hstart himmediate hcomes hcalls.tells rfl
      hcalls'.tells rfl
    exact hfirst n hkn hnd haccepts
  obtain ⟨-, s', hparked⟩ := World.handoff_of_pendingAt h.parked
  obtain ⟨⟨s', phase⟩, hhandoff, rfl⟩ := isParked_le ⟨_, hparked, rfl⟩ hwd hnone
  obtain ⟨haction, name, ht⟩ := hturns
  refine ⟨.resume haction ht hhandoff rfl, ?_⟩
  have hturn (name : Option String) : Thread.turn? t (r.world d).heap (r.world d).state
      ⟨name, .run (.deliver id (.settled (.ok v)) .completion), base⟩ =
        some ((r.world d).state, base, .run ((r.world d).heap.setHandoff id ⟨s', .resumed⟩)
          (.resume (.settled (.ok v)) frames finish)) := by
    simp [Thread.turn?, Task.turn, Task.deliverTurn, hhandoff, Handoff.offer]
  exact (Turns.isAt ⟨haction, name, ht⟩ hturn rfl rfl fun _ => rfl).1

/-- The thread that has called the subscriber goes on with what waits for the fiber, if it takes its
turns. -/
theorem WaitsFor.exists_resumes (h : r.WaitsFor fiber w value error id frames finish)
    (hcalls : r.CallsNext fiber w t v stack calls (.join value error (.node id)) subscribers k)
    {P : Nat → Prop} (hP : P (k + 1)) (hturns : ∀ n task, P n →
      r.IsAt n t (.run task) (rest fiber v stack subscribers (firstPanic calls)) →
        ∃ i, P (i + 1) ∧
          r.TurnsFirst n i t (.run task) (rest fiber v stack subscribers (firstPanic calls))) :
    ∃ d b, P b ∧ r.Resumes k t v (rest fiber v stack subscribers (firstPanic calls)) id frames
      finish d b := by
  obtain ⟨i₁, hP₁, htell⟩ := hturns _ _ hP hcalls.isAt
  have hinvoke := (htell.turns.isAt (fun _ => rfl) rfl rfl fun _ => rfl).1
  obtain ⟨i₂, hP₂, hinvokes⟩ := hturns _ _ hP₁ hinvoke
  have hdeliver := (hinvokes.turns.isAt (fun _ => rfl) rfl rfl fun _ => rfl).1
  obtain ⟨d, hP₃, hdelivers⟩ := hturns _ _ hP₂ hdeliver
  have hki : k + 1 ≤ i₁ := htell.stays.1
  have hii : i₁ + 1 ≤ i₂ := hinvokes.stays.1
  have hid : i₂ + 1 ≤ d := hdelivers.stays.1
  have hfirst (n : Nat) (hkn : k < n) (hnd : n < d) : ¬r.Accepts n t id (.settled (.ok v)) := by
    intro haccepts
    rcases Nat.lt_or_ge i₂ n with hin | hni
    · exact haccepts.not_isAt (hdelivers.stays.2 (n + 1) (by omega) hnd)
    · -- It has told the node the value, and has not got to the delivery.
      have hother : ∃ task, r.IsAt n t (.run task)
          (rest fiber v stack subscribers (firstPanic calls)) ∧
            ∀ exit origin, task ≠ .deliver id exit origin := by
        rcases Nat.lt_or_ge i₁ n with hin | hni
        · exact ⟨_, hinvokes.stays.2 n hin hni, by simp⟩
        · exact ⟨_, htell.stays.2 n hkn hni, by simp⟩
      obtain ⟨task, ⟨name, ht⟩, htask⟩ := hother
      obtain ⟨origin, handoff, ⟨-, name', stack', ht'⟩, -⟩ := haccepts
      obtain ⟨-, hcontrol, -⟩ := Thread.mk.inj (Option.some.inj (ht.symm.trans ht'))
      exact htask _ _ (Control.run.inj hcontrol)
  obtain ⟨hhandsOver, hresume⟩ :=
    h.handsOver hstart hwrites hbegin himmediate hcalls (by omega) hdelivers.turns hfirst
  obtain ⟨e, hP₄, hresumes⟩ := hturns _ _ hP₃ hresume
  have hde : d + 1 ≤ e := hresumes.stays.1
  exact ⟨d, e + 1, hP₄, ⟨by omega, by omega⟩, hhandsOver,
    (hresumes.turns.isAt (fun _ => rfl) rfl rfl fun _ => rfl).1⟩

/-- When the call of the subscriber is back, what waited for the fiber has been gone on with. -/
theorem WaitsFor.exists_stops (h : r.WaitsFor fiber w value error id frames finish)
    (hcalls : r.CallsNext fiber w t v stack calls (.join value error (.node id)) subscribers k)
    (hends : r.CallEnds k m t reply (rest fiber v stack subscribers (firstPanic calls))) :
    ∃ d b n, b + n < m ∧
      r.Resumes k t v (rest fiber v stack subscribers (firstPanic calls)) id frames finish d b ∧
        r.KeepsGoing b t (rest fiber v stack subscribers (firstPanic calls)) finish n ∧
          r.Stops b t (rest fiber v stack subscribers (firstPanic calls)) finish n reply := by
  obtain ⟨d, b, hbm, hresumes⟩ := h.exists_resumes hstart hwrites hbegin himmediate hcalls
    (P := (· ≤ m)) hends.lt fun n task hnm hat =>
      hends.exists_turnsFirst hat (fun _ => trivial)
        (fun _ => ⟨[], rfl, fun _ => List.cons_ne_nil _ _⟩) hnm
  obtain ⟨name, ht⟩ := hresumes.begins
  have hkb : k < b := Nat.lt_trans hresumes.later.1 hresumes.later.2
  obtain ⟨n, hbn, hgoing, hstops⟩ := hends.exists_stops hkb hbm ht
  exact ⟨d, b, n, hbn, hresumes, hgoing, hstops⟩

/-- Only the thread that completes the fiber goes on with what waits for it. -/
theorem WaitsFor.handsOver_only (h : r.WaitsFor fiber w value error id frames finish)
    {frames' : List (Frame H.Data H.Fn)} {finish' : Finish H.Fn} {p : Place}
    {exit : Exit (Outcome H.Data H.Fn)} (hhandsOver : r.HandsOver n id frames' finish' exit p) :
    (∃ l, p = .thread t l) ∧ ∃ k calls subscribers, k < n ∧
      r.CallsNext fiber w t v stack calls (.join value error (.node id)) subscribers k := by
  obtain ⟨-, m, t', hmn, haccepts⟩ := hhandsOver.exists_suspends
  obtain ⟨rfl, rfl, k, calls, subscribers, hkm, hcalls⟩ :=
    h.exists_callsNext hstart hwrites hbegin himmediate haccepts
  refine ⟨?_, k, calls, subscribers, Nat.lt_of_lt_of_le hkm hmn, hcalls⟩
  obtain ⟨-, s, hparked⟩ := World.handoff_of_pendingAt h.parked
  have hwm : w ≤ m := by
    have hwk := hcalls.lt
    omega
  obtain ⟨handoff, hhandoff, hphase⟩ :=
    isParked_le ⟨_, hparked, rfl⟩ hwm haccepts.hasExit.1
  obtain ⟨origin, handoff', ⟨haction, name, stack', ht⟩, -⟩ := haccepts
  have hoffer : (handoff.offer t' (.settled (.ok v))).2 = .accepted frames finish := by
    simp only [Handoff.offer, hphase]
  have hresume : r.HandsOver m id frames finish (.settled (.ok v)) (.thread t' stack'.length) :=
    .resume haction ht hhandoff hoffer
  obtain ⟨-, -, -, -, rfl⟩ := hhandsOver.unique hresume
  exact ⟨_, rfl⟩

end Joiner

include hbegin

omit hstart hwrites in
/-- A call that completes the fiber by hand is back when the write is. -/
theorem HasNotifiedAll.exists_callEnds {value error : Ty} {o : Outcome H.Data H.Fn}
    (h : r.HasNotifiedAll fiber w t v stack calls m) (hfair : r.Fair)
    (hcall : r.Turns k t (.run (.request (.fillFiber value error fiber o))) base)
    (hnext : r.NextTurn t k w) :
    v = .slot value error (.ofOutcome o) ∧ ∃ n, r.CallEnds k n t (verdict v calls) base := by
  have hfill : r.IsAt (k + 1) t (.run (.fill fiber (.slot value error (.ofOutcome o))))
      (.givingBack :: base) := (hcall.isAt (fun _ => rfl) rfl rfl fun _ => rfl).1
  have hstays : r.StaysAt (k + 1) w t (.run (.fill fiber (.slot value error (.ofOutcome o))))
      (.givingBack :: base) := by
    obtain ⟨name, ht⟩ := hfill
    refine ⟨hnext.lt, fun j hkj hjw => ⟨name, ?_⟩⟩
    exact thread_of_others ht trivial hkj fun d hkd hdj =>
      hnext.between d (Nat.lt_of_succ_le hkd) (Nat.lt_of_lt_of_le hdj hjw)
  obtain ⟨name, ht⟩ := hstays.last
  obtain ⟨-, name', ht'⟩ := hbegin
  obtain ⟨-, hcontrol, rfl⟩ := Thread.mk.inj (Option.some.inj (ht.symm.trans ht'))
  obtain ⟨-, rfl⟩ := Task.fill.inj (Control.run.inj hcontrol)
  refine ⟨rfl, ?_⟩
  obtain ⟨n, hturn⟩ := hfair.exists_turnsFirst h.back.back fun _ => by
    cases verdict _ calls <;> exact List.cons_ne_nil _ _
  refine ⟨n + 1, ?_, fun j hkj hjn => ?_, ?_⟩
  · have hkw := hnext.lt
    have hwm := h.back.lt
    have hmn := hturn.stays.1
    omega
  · rcases Nat.lt_or_ge w j with hwj | hjw
    · rcases Nat.lt_or_ge j m with hjm | hmj
      · exact (h.back.above j hwj hjm).of_cons
      · exact (hturn.stays.2 j hmj (Nat.le_of_lt_succ hjn)).isAbove_cons
    · exact (hstays.2 j hkj hjw).isAbove_cons
  · -- An accepted outcome is not given back.
    refine hturn.turns.givesBack fun v' hv' => ?_
    unfold verdict at hv'
    cases hfirst : firstPanic calls with
    | none =>
        rw [hfirst] at hv'
        obtain rfl := Except.ok.inj hv'
        rfl
    | some payload =>
        rw [hfirst] at hv'
        contradiction

end Completion

/-- Who waits for a fiber, parked, when it is completed is gone on with in turn and once, on the
thread of the completion, whatever the others do. -/
theorem resumes_joiners (hstart : (r.world 0).Starting)
    (himmediate : (r.world 0).heap.schedulers[immediateId]? = some .immediate)
    (hwrites : r.Writes fiber w t v) (hbegin : r.Turns w t (.run (.fill fiber v)) stack) :
    r.ResumesJoiners fiber w t v stack where
  joined h := h.exists_subscribes hstart himmediate
  listed h hmn hnw := hwrites.getElem?_kept hstart h hmn hnw
  goes hwn := hwrites.notifying_or hstart hbegin hwn
  everyone h hsubscribes hmw := by
    have hkept := hwrites.getElem?_kept hstart hsubscribes hmw (Nat.le_refl w)
    rw [← h.subscribers, List.getElem?_map] at hkept
    obtain ⟨⟨subscriber, reply⟩, hi, rfl⟩ := Option.map_eq_some_iff.1 hkept
    exact ⟨reply, hi⟩
  called h hi := by
    obtain ⟨k, rfl, l, hnotified, hturn⟩ := h.last
    obtain ⟨k', m, subscribers, hcalls, hends, hml⟩ := hnotified.exists_called hi
    have hlk := hturn.stays.1
    exact ⟨k', m, subscribers, hcalls, hends, by omega⟩
  once h h' hlength := h.once hstart hwrites h' hlength
  inTurn h h' hlt := h.endsBefore hstart hwrites h' hlt
  resumes h hcalls hfair := by
    obtain ⟨d, b, -, hresumes⟩ := h.exists_resumes hstart hwrites hbegin himmediate hcalls
      (P := fun _ => True) trivial fun n task _ hat =>
        (hfair.exists_turnsFirst hat fun _ => trivial).imp fun _ hturn => ⟨trivial, hturn⟩
    exact ⟨d, b, hresumes⟩
  stops h hcalls hends := h.exists_stops hstart hwrites hbegin himmediate hcalls hends
  only h hhandsOver := by
    obtain ⟨hplace, k, calls, subscribers, hkn, hcalls⟩ :=
      h.handsOver_only hstart hwrites hbegin himmediate hhandsOver
    exact ⟨hplace, k, calls, subscribers, hkn, hcalls, fun m frames' finish' exit p hother =>
      (hother.unique hhandsOver).1⟩
  value hwn := (promised?_eq_some hstart).2 ⟨w, t, hwn, hwrites⟩
  ends hfair hcalls := hfair.exists_hasNotifiedAll hstart hwrites hbegin hcalls
  returns hcall hnext hall hfair := hall.exists_callEnds hbegin hfair hcall hnext

end Run

namespace Drill

/-- Joins the first fiber, and goes on with a function of the outcome. -/
def joinWith (f : Nat) : Effect Unit Nat .text .unit :=
  (Effect.join 0 : Effect Unit Nat .text .unit).map ⟨f, ∅⟩

/-- What waits at the node of the join. -/
def joinFrames (f : Nat) : List (Frame Unit Nat) :=
  [.bind (.unslot .text .unit), .bind (.map .text ⟨f, ∅⟩)]

/-- Two runs and a caller that blocks join a fiber, which is completed by hand then. The first run
and the caller that blocks panic as soon as they have joined. -/
def rejoining : Script
  | 0 => [.ask (.newFiber .text .unit),
      .ask (.runWith .text .unit (joinWith 2).node (.user .text .unit ⟨4, ∅⟩)),
      .ask (.runWith .text .unit (joinWith 3).node (.user .text .unit ⟨4, ∅⟩)),
      .ask (.fillFiber .text .unit 0 (.ok (.text "shared")))]
  | 1 => [.ask (.runBlocking .text .unit (joinWith 2).node)]
  | 2 => [.raise (.text "boom")]
  | 3 => [.ret (.text "fine")]
  | _ => []

/-- The caller that blocks is the second one to join. -/
def rejoined : Run (host rejoining) :=
  run rejoining [] (List.replicate 20 0 ++ List.replicate 15 1 ++ List.replicate 74 0)

def sharedSlot : Value Unit Nat := .slot .text .unit (.ofOutcome (.ok (.text "shared")))

/-- The fiber is completed at time 52 or later, the completion ends at time 105, and no request
names a node. -/
def completesLate (n : Nat) : Task (host rejoining) → Bool
  | .fill _ _ => 52 ≤ n
  | .notify _ _ [] _ => n == 105
  | .request q => (q.refs []).all fun x => match x with
      | .handoff _ => false
      | _ => true
  | _ => true

/-- The stack of the completion when the second subscriber has been called. -/
def rejoinedBase : List (Return (host rejoining)) :=
  [.notifying 0 sharedSlot [.join .text .unit (.node 2)] (some (.text "boom")), .givingBack,
    .user (0, 4)]

set_option maxRecDepth 10000 in
/-- The caller that blocks is gone on with by the thread that completes the fiber, after the panic
of the first run. Its own panic goes no further: the completion ends with the other one. -/
theorem rejoined_resumes_joiners :
    (∃ calls m, rejoined.HasNotifiedAll 0 52 0 sharedSlot [.givingBack, .user (0, 4)] calls m ∧
      calls.map Prod.fst = [.join .text .unit (.node 0), .join .text .unit (.node 1),
        .join .text .unit (.node 2)] ∧ firstPanic calls = some (.text "boom")) ∧
      rejoined.WaitsFor 0 52 .text .unit 1 (joinFrames 2) (.channel .text .unit 0) ∧
        rejoined.HandsOver 73 1 (joinFrames 2) (.channel .text .unit 0)
          (.settled (.ok sharedSlot)) (.thread 0 rejoinedBase.length) ∧
          (∃ k calls subscribers, k < 73 ∧
            rejoined.CallsNext 0 52 0 sharedSlot [.givingBack, .user (0, 4)] calls
              (.join .text .unit (.node 1)) subscribers k) ∧
            rejoined.EndsAt 75 (.thread 0 rejoinedBase.length) 7 (.panicked (.text "boom")) ∧
              rejoined.GoesBack 84 0 (.ok .unit) rejoinedBase := by
  have hcheck {n : Nat} {t : ThreadId} {task : Task (host rejoining)}
      (h : rejoined.Does n t task) : completesLate n task := check_of_does (by decide) h
  have hwrites : rejoined.Writes 0 52 0 sharedSlot :=
    ⟨⟨⟨rfl, _, _, rfl⟩, by decide⟩, fun m t v hm hcompletes => by
      have hlate := hcheck hcompletes.1
      simp only [completesLate, decide_eq_true_eq] at hlate
      omega⟩
  have hresumes := Run.resumes_joiners (start_starting rejoining []) rfl hwrites ⟨rfl, _, rfl⟩
  have hhides : rejoined.Hides (.handoff 1) := by
    intro n t q hdoes hmem
    have hnone := List.all_eq_true.1 (hcheck hdoes) _ hmem
    contradiction
  have hwaits : rejoined.WaitsFor 0 52 .text .unit 1 (joinFrames 2) (.channel .text .unit 0) :=
    ⟨hhides, ⟨24, 1, ⟨_, _, _, _, ⟨rfl, _, _, rfl⟩, rfl, rfl⟩, by decide⟩, rfl⟩
  have ht : (rejoined.world 73).threads[0]? = some
      ⟨none, .run (.deliver 1 (.settled (.ok sharedSlot)) .completion), rejoinedBase⟩ := rfl
  have hhandsOver : rejoined.HandsOver 73 1 (joinFrames 2) (.channel .text .unit 0)
      (.settled (.ok sharedSlot)) (.thread 0 rejoinedBase.length) := .resume rfl ht rfl rfl
  obtain ⟨-, k, calls, subscribers, hk, hcalls, -⟩ := hresumes.only hwaits hhandsOver
  have hends : rejoined.EndsAt 75 (.thread 0 rejoinedBase.length) 7 (.panicked (.text "boom")) :=
    Run.endsAt_of_turns rfl ⟨rfl, none, rfl⟩
  refine ⟨?_, hwaits, hhandsOver, ⟨k, calls, subscribers, hk, hcalls⟩, hends, ⟨none, rfl⟩⟩
  have hback : rejoined.GoesBack 106 0 (.error (.text "boom")) [.givingBack, .user (0, 4)] :=
    ⟨_, rfl⟩
  rcases hresumes.goes (n := 106) (by decide) with hnotifying | ⟨calls, m, -, hall⟩
  · exact absurd hnotifying.isAbove hback.not_above
  · refine ⟨calls, m, hall, hall.subscribers.trans rfl, ?_⟩
    obtain ⟨k, rfl, hends⟩ := hall.exists_ends
    have hlast := hcheck hends
    simp only [completesLate, beq_iff_eq] at hlast
    subst hlast
    exact Run.verdict_eq_error_iff.1 (hall.back.back.unique hback)

end Drill

end Trampoline
