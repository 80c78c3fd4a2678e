import Trampoline.Proofs.Callers
import Trampoline.Proofs.Guarding
import Trampoline.Proofs.Waiting

/-!
Effects that sleep. The registration of a sleep is performed by a thread that is started for it.
This thread is asleep until the time has come, and then completes the node; nobody else does so
unless the host has got hold of the node's callback. So the exit of such a node is the success of
the sleep, and it comes when the time has come, if threads take their turns and time goes on.
-/

namespace Trampoline

variable {H : Host}

theorem toList_eq_data (bytes : ByteArray) : bytes.toList = bytes.data.toList := by
  have hloop (i : Nat) (l : List UInt8) :
      ByteArray.toList.loop bytes i l = l.reverse ++ bytes.data.toList.drop i := by
    induction i, l using ByteArray.toList.loop.induct bytes with
    | case1 i l hi ih =>
        have hi' : i < bytes.data.toList.length := by simpa using hi
        have hget : bytes.get! i = bytes.data.toList[i] := by
          simp only [ByteArray.get!, Array.getElem_toList]
          exact getElem!_pos bytes.data i (by simpa using hi)
        rw [ByteArray.toList.loop, if_pos hi, ih, List.drop_eq_getElem_cons hi', hget]
        simp
    | case2 i l hi =>
        have hlength : bytes.data.toList.length ≤ i := by simpa using hi
        rw [ByteArray.toList.loop, if_neg hi, List.drop_of_length_le hlength, List.append_nil]
  exact hloop 0 []

namespace Scheduler

/-- A thread can have a name in which all characters are ASCII characters other than NUL. -/
theorem refusal?_eq_none {name : String} (h : ∀ c ∈ name.toList, 0 < c.toNat ∧ c.toNat ≤ 127) :
    refusal? name = none := by
  have hbytes : name.toUTF8.toList = name.toList.flatMap String.utf8EncodeChar := by
    have hutf8 : name.toUTF8 = name.toList.utf8Encode := by simp [String.toUTF8]
    rw [hutf8, List.utf8Encode, toList_eq_data, List.toList_data_toByteArray]
  simp only [refusal?, Option.map_eq_none_iff, List.findIdx?_eq_none_iff, decide_eq_false_iff_not]
  rintro byte hmem rfl
  rw [hbytes, List.mem_flatMap] at hmem
  obtain ⟨c, hc, hzero⟩ := hmem
  obtain ⟨hpos, hle⟩ := h c hc
  simp only [String.utf8EncodeChar, if_pos (show c.val.toNat ≤ 127 from hle),
    List.mem_singleton] at hzero
  have hmod : c.toNat % 256 = 0 := (congrArg UInt8.toNat hzero).symm
  omega

/-- The scheduler of sleeping effects starts a thread for each of them. -/
theorem startsThreads_sleeper {F : Type} {spawnError : Nat → Option String} :
    (sleeper : Scheduler F).StartsThreads spawnError := by
  refine ⟨fun number => ?_, rfl⟩
  have hascii (text : String) (htext : text.toList.all fun c => 0 < c.toNat && c.toNat ≤ 127)
      (c : Char) (hc : c ∈ text.toList) : 0 < c.toNat ∧ c.toNat ≤ 127 := by
    simpa using List.all_eq_true.1 htext c hc
  refine refusal?_eq_none fun c hc => ?_
  simp only [threadName, String.toList_append, List.mem_append] at hc
  rcases hc with (hc | hc) | hc
  · exact hascii "undertow-sleep" (by decide) c hc
  · exact hascii "-" (by decide) c hc
  · have hdigit : c ∈ Nat.toDigits 10 number := by simpa using hc
    have hisDigit := Nat.isDigit_of_mem_toDigits (by decide) (by decide) hdigit
    simp only [Char.isDigit, Bool.and_eq_true, decide_eq_true_eq] at hisDigit
    have hge : 48 ≤ c.toNat := hisDigit.1
    have hle : c.toNat ≤ 57 := hisDigit.2
    omega

end Scheduler

/-- The node of which a task has the registration, the callback or an exit. -/
def Task.concerns? : Task H → Option HandoffId
  | .submit _ (.register _ id) => some id
  | .perform (.register _ id) => some id
  | .register _ (.node id) => some id
  | .invoke (.node id) _ => some id
  | .deliver id _ _ => some id
  | _ => none

/-- A thread that has the registration, the callback or an exit of node `id` in hand, or that guards
the registration. -/
def Thread.Concerns (id : HandoffId) (thread : Thread H) : Prop :=
  (∃ task ∈ thread.held, task.concerns? = some id) ∨ ∃ back ∈ thread.stack, back.guards? = some id

def Turn.Concerns (id : HandoffId) (turn : Turn H) : Prop :=
  (∃ task ∈ turn.held, task.concerns? = some id) ∨ id ∈ turn.guards

section Concerns

variable {id : HandoffId} {t : ThreadId} {heap : Heap H.Data H.Fn} {thread thread' : Thread H}
  {turn : Turn H} {rest : List (Return H)}

theorem Task.IsMinor.concerns? {task : Task H} (h : task.IsMinor) : task.concerns? = none := by
  cases task with
  | submit scheduler work => exact h.elim
  | perform work => exact h.elim
  | register register target => exact h.elim
  | invoke target outcome => exact h.elim
  | deliver id exit origin => exact h.elim
  | _ => rfl

theorem Thread.Concerns.of_held (h : thread'.Concerns id) (hstack : thread'.stack = thread.stack)
    (hheld : ∀ task ∈ thread'.control.held, task ∈ thread.control.held) : thread.Concerns id := by
  rcases h with ⟨task, hmem, htask⟩ | ⟨back, hmem, hback⟩
  · refine .inl ⟨task, ?_, htask⟩
    rw [Thread.held, List.mem_append, hstack] at hmem
    exact List.mem_append.2 (hmem.imp_left (hheld task))
  · exact .inr ⟨back, hstack ▸ hmem, hback⟩

/-- What a thread has to do with the node after its turn is due to the turn, or to what was below it
before. -/
theorem Thread.Concerns.of_turn {name : Option String}
    (h : Thread.Concerns id ⟨name, turn.control, turn.pushed ++ rest⟩) :
    turn.Concerns id ∨ Thread.Concerns id ⟨name, .ret .unit, rest⟩ := by
  rcases h with ⟨task, hmem, htask⟩ | ⟨back, hmem, hback⟩
  · simp only [held, List.flatMap_append, List.mem_append] at hmem
    rcases hmem with hcontrol | hpushed | hrest
    · exact .inl (.inl ⟨task, by simp [Turn.held, hcontrol], htask⟩)
    · refine .inl (.inl ⟨task, ?_, htask⟩)
      simp only [Turn.held, List.mem_append, hpushed, or_true, true_or]
    · exact .inr (.inl ⟨task, List.mem_append_right _ hrest, htask⟩)
  · rcases List.mem_append.1 hmem with hpushed | hrest
    · exact .inl (.inr (List.mem_filterMap.2 ⟨back, List.mem_append_left _ hpushed, hback⟩))
    · exact .inr (.inr ⟨back, hrest, hback⟩)

theorem Thread.Concerns.of_born (h : thread.Concerns id) (hborn : turn.born = some thread) :
    turn.Concerns id := by
  rcases h with ⟨task, hmem, htask⟩ | ⟨back, hmem, hback⟩
  · exact .inl ⟨task, by simp [Turn.held, hborn, hmem], htask⟩
  · refine .inr (List.mem_filterMap.2 ⟨back, List.mem_append_right _ ?_, hback⟩)
    simpa [hborn] using hmem

theorem Thread.concerns_of_rest {name name' : Option String} {control : Control H}
    {stack : List (Return H)} (hrest : rest <:+ stack)
    (h : Thread.Concerns id ⟨name, .ret .unit, rest⟩) :
    Thread.Concerns id ⟨name', control, stack⟩ := by
  rcases h with ⟨task, hmem, htask⟩ | ⟨back, hmem, hback⟩
  · obtain ⟨back, hback, hheld⟩ := List.mem_flatMap.1 (by simpa [held, Control.held] using hmem)
    refine .inl ⟨task, List.mem_append_right _ ?_, htask⟩
    exact List.mem_flatMap.2 ⟨back, hrest.subset hback, hheld⟩
  · exact .inr ⟨back, hrest.subset hmem, hback⟩

/-- What a turn has to do with the node, the thread has had to do with it before, or its task hands
it on. -/
theorem Thread.Turning.concerns {state state' : H.State}
    (h : thread.Turning t heap state state' rest turn) (hturn : turn.Concerns id) :
    thread.Concerns id ∨ ∃ name task stack task', thread = ⟨name, .run task, stack⟩ ∧
      task.Hands heap task' ∧ task'.concerns? = some id := by
  have hminor {task : Task H} (hminor : task.IsMinor) (htask : task.concerns? = some id) :
    False := by
    rw [hminor.concerns?] at htask
    contradiction
  have hback {v : Except Payload (Value H.Data H.Fn)} {back : Return H} {task : Task H}
      {name : Option String} {control : Control H} (hhands : back.Hands v task)
      (htask : task.concerns? = some id) : Thread.Concerns id ⟨name, control, back :: rest⟩ := by
    cases hhands with
    | minor h => exact (hminor h htask).elim
    | after => exact .inl ⟨_, by simp [held, Return.held], htask⟩
    | guarding => exact .inr ⟨_, List.mem_cons_self, htask⟩
    | _ => contradiction
  cases h with
  | move =>
      rcases hturn with ⟨task, hmem, htask⟩ | hguards
      · exact (hminor (Move.turn_hands _ hmem) htask).elim
      · simp [Move.turn_guards] at hguards
  | @task name task stack huser =>
      rcases hturn with ⟨task', hmem, htask'⟩ | hguards
      · exact .inr ⟨name, task, rest, task', rfl, Task.turn_hands task task' hmem, htask'⟩
      · rw [Task.turn_guards] at hguards
        unfold Task.guards at hguards
        split at hguards
        · obtain rfl := List.mem_singleton.1 hguards
          exact .inl (.inl ⟨_, List.mem_append_left _ List.mem_cons_self, rfl⟩)
        · simp at hguards
  | @ret name v back _ =>
      rcases hturn with ⟨task, hmem, htask⟩ | hguards
      · exact .inl (hback (back.resume_hands v hmem) htask)
      · simp [Return.resume_guards] at hguards
  | @raise name payload back _ =>
      rcases hturn with ⟨task, hmem, htask⟩ | hguards
      · exact .inl (hback (back.unwind_hands payload hmem) htask)
      · simp [Return.unwind_guards] at hguards

end Concerns

/-- How far a thread is that sleeps for node `id` since a time, when the clock shows a time. -/
inductive Thread.Sleeps (d since : Nat) (id : HandoffId) (clock : Nat) : Thread H → Prop where
  /-- The thread that has come to the node submits the registration. -/
  | submits {name : Option String} {stack : List (Return H)} :
      since ≤ clock → ¬Thread.Concerns id ⟨name, .ret .unit, stack⟩ →
        Sleeps d since id clock ⟨name, .run (.submit sleeperId (.register (.sleep d) id)), stack⟩
  | performs {name : Option String} :
      since ≤ clock →
        Sleeps d since id clock
          ⟨name, .run (.perform (.register (.sleep d) id)), [.guarded sleeperId]⟩
  | registers {name : Option String} :
      since ≤ clock →
        Sleeps d since id clock
          ⟨name, .run (.register (.sleep d) (.node id)),
            [.guarding id (.sleep d), .guarded sleeperId]⟩
  | sleeps {name : Option String} {time : Nat} :
      since + d ≤ time →
        Sleeps d since id clock
          ⟨name, .asleep (.clock time) (.invoke (.node id) (.ok .unit))
            (.invoke (.node id) (.ok .unit)), [.guarding id (.sleep d), .guarded sleeperId]⟩
  | invokes {name : Option String} :
      since + d ≤ clock →
        Sleeps d since id clock
          ⟨name, .run (.invoke (.node id) (.ok .unit)),
            [.guarding id (.sleep d), .guarded sleeperId]⟩
  | delivers {name : Option String} :
      since + d ≤ clock →
        Sleeps d since id clock
          ⟨name, .run (.deliver id (.settled (.ok .unit)) .completion),
            [.guarding id (.sleep d), .guarded sleeperId]⟩
  /-- The submitter has not left the node yet. -/
  | waits {name : Option String} :
      since + d ≤ clock →
        Sleeps d since id clock
          ⟨name, .asleep (.gate (.handoff id) none)
            (.deliver id (.settled (.ok .unit)) .completion)
            (.deliver id (.settled (.ok .unit)) .completion),
            [.guarding id (.sleep d), .guarded sleeperId]⟩

/-- Whether a thread is asleep by the clock. -/
def Thread.isTimed (thread : Thread H) : Bool :=
  match thread.control with
  | .asleep (.clock _) _ _ => true
  | _ => false

theorem Thread.Sleeps.mono {d since clock clock' : Nat} {id : HandoffId} {thread : Thread H}
    (h : thread.Sleeps d since id clock) (hclock : clock ≤ clock') :
    thread.Sleeps d since id clock' := by
  cases h with
  | submits hsince hfree => exact .submits (Nat.le_trans hsince hclock) hfree
  | performs hsince => exact .performs (Nat.le_trans hsince hclock)
  | registers hsince => exact .registers (Nat.le_trans hsince hclock)
  | sleeps htime => exact .sleeps htime
  | invokes hpassed => exact .invokes (Nat.le_trans hpassed hclock)
  | delivers hpassed => exact .delivers (Nat.le_trans hpassed hclock)
  | waits hpassed => exact .waits (Nat.le_trans hpassed hclock)

namespace Run

variable {r : Run H} {n m k : Nat} {t s : ThreadId} {thread thread' : Thread H} {d since : Nat}
  {id : HandoffId} {name : Option String} {stack : List (Return H)}

/-- A thread that sleeps until a time wakes up when the time has come, and not before. -/
theorem next_of_clock {time : Nat} {woken missed : Task H}
    (ht : (r.world n).threads[t]? = some ⟨name, .asleep (.clock time) woken missed, stack⟩) :
    (r.world (n + 1)).threads[t]? = some ⟨name, .asleep (.clock time) woken missed, stack⟩ ∨
      time ≤ (r.world n).heap.clock ∧
        (r.world (n + 1)).threads[t]? = some ⟨name, .run woken, stack⟩ := by
  rcases next_of_asleep ht (by simp) with hsame | ⟨-, ⟨harrival, hwoken⟩ | ⟨hmissed, -⟩⟩
  · exact .inl hsame
  · refine .inr ⟨?_, hwoken⟩
    simpa [World.arrival, World.reached] using harrival
  · rcases hmissed with harrival | hdisconnected
    · simp [World.arrival] at harrival
    · simp [World.isDisconnected, World.awaits, ht] at hdisconnected

/-- An exit that is delivered is accepted, unless the node has one or the thread has to wait for the
node's submitter. -/
theorem next_of_deliver {exit : Exit (Outcome H.Data H.Fn)} {origin : Origin}
    (haction : r.action n = .thread t)
    (ht : (r.world n).threads[t]? = some ⟨name, .run (.deliver id exit origin), stack⟩)
    (hhandoff : ∃ handoff, (r.world n).heap.handoffs[id]? = some handoff)
    (hexit : ¬(r.world (n + 1)).At id Phase.HasExit) :
    (r.world (n + 1)).threads[t]? =
      some ⟨name, .asleep (.gate (.handoff id) none) (.deliver id exit origin)
        (.deliver id exit origin), stack⟩ := by
  obtain ⟨⟨s, phase⟩, hhandoff⟩ := hhandoff
  have hnot (haccepted : ((⟨s, phase⟩ : Handoff H.Data H.Fn).offer t exit).2.IsAccepted) :
    False := by
    have haccepts : r.Accepts n t id exit :=
      ⟨origin, _, ⟨haction, name, stack, ht⟩, hhandoff, haccepted⟩
    exact hexit haccepts.hasExit.2
  have hbefore : ¬phase.HasExit := fun h => hexit (hasExit_le ⟨_, hhandoff, h⟩ (Nat.le_succ n))
  cases phase with
  | early exit' => exact absurd trivial hbefore
  | resumed => exact absurd trivial hbefore
  | parked frames finish => exact (hnot (by simp [Handoff.offer, Offer.IsAccepted])).elim
  | submitting =>
      have hne : t ≠ s := fun heq => hnot (by simp [Handoff.offer, heq, Offer.IsAccepted])
      have hturn : Thread.turn? t (r.world n).heap (r.world n).state
          ⟨name, .run (.deliver id exit origin), stack⟩ = some ((r.world n).state, stack,
            .sleep (r.world n).heap (.gate (.handoff id) none) (.deliver id exit origin)
              (.deliver id exit origin)) := by
        simp only [Thread.turn?, Task.turn, Task.deliverTurn, hhandoff, Handoff.offer, if_neg hne]
      exact (next_of_action haction ht hturn).2

/-- A thread that sleeps for a node goes on doing so until it has submitted the registration or the
node has an exit. -/
theorem sleeps_next
    (hsleeper : ∃ kind, (r.world n).heap.schedulers[sleeperId]? = some kind ∧
      kind.StartsThreads H.spawnError)
    (hhandoff : ∃ handoff, (r.world n).heap.handoffs[id]? = some handoff)
    (hexit : ¬(r.world (n + 1)).At id Phase.HasExit)
    (h : thread.Sleeps d since id (r.world n).heap.clock)
    (ht : (r.world n).threads[t]? = some thread)
    (ht' : (r.world (n + 1)).threads[t]? = some thread') :
    thread'.Sleeps d since id (r.world (n + 1)).heap.clock ∨ ¬thread'.Concerns id := by
  have hclock : (r.world n).heap.clock ≤ (r.world (n + 1)).heap.clock := r.clock_le (Nat.le_succ n)
  have hsame (hthread : (r.world (n + 1)).threads[t]? = some thread) :
      thread'.Sleeps d since id (r.world (n + 1)).heap.clock ∨ ¬thread'.Concerns id := by
    obtain rfl := Option.some.inj (hthread.symm.trans ht')
    exact .inl (h.mono hclock)
  cases h with
  | @submits name stack hsince hfree =>
      obtain ⟨kind, hkind, hstarts⟩ := hsleeper
      obtain ⟨heap, born, hsubmit⟩ :=
        Task.submitTurn_of_startsThreads hkind hstarts (.register (.sleep d) id)
      rcases next_of_turn ht rfl with ⟨-, hthread⟩ | ⟨-, -, hthread⟩
      · exact hsame hthread
      · simp only [Task.turn, hsubmit] at hthread
        obtain rfl := Option.some.inj (hthread.symm.trans ht')
        exact .inr hfree
  | performs hsince =>
      rcases next_of_turn ht rfl with ⟨-, hthread⟩ | ⟨-, -, hthread⟩
      · exact hsame hthread
      · obtain rfl := Option.some.inj (hthread.symm.trans ht')
        exact .inl (.registers (Nat.le_trans hsince hclock))
  | registers hsince =>
      rcases next_of_turn ht rfl with ⟨-, hthread⟩ | ⟨-, -, hthread⟩
      · exact hsame hthread
      · obtain rfl := Option.some.inj (hthread.symm.trans ht')
        exact .inl (.sleeps (Nat.add_le_add_right hsince d))
  | sleeps htime =>
      rcases next_of_clock ht with hthread | ⟨hpassed, hthread⟩
      · exact hsame hthread
      · obtain rfl := Option.some.inj (hthread.symm.trans ht')
        exact .inl (.invokes (by omega))
  | invokes hpassed =>
      rcases next_of_turn ht rfl with ⟨-, hthread⟩ | ⟨-, -, hthread⟩
      · exact hsame hthread
      · obtain rfl := Option.some.inj (hthread.symm.trans ht')
        exact .inl (.delivers (Nat.le_trans hpassed hclock))
  | @delivers name hpassed =>
      by_cases haction : r.action n = .thread t
      · obtain rfl := Option.some.inj ((next_of_deliver haction ht hhandoff hexit).symm.trans ht')
        exact .inl (.waits (Nat.le_trans hpassed hclock))
      · exact hsame (thread_of_other ht trivial haction)
  | waits hpassed =>
      rcases (r.ordered n).thread_of_gate (r.step n) ht with hthread | hthread
      · exact hsame hthread
      · obtain rfl := Option.some.inj (hthread.symm.trans ht')
        exact .inl (.delivers (Nat.le_trans hpassed hclock))

/-- A thread that sleeps for a node starts no other one than the one that performs the
registration. -/
theorem sleeps_of_born {state : H.State} {rest : List (Return H)} {turn : Turn H} {clock : Nat}
    (hsleeper : ∃ kind, (r.world n).heap.schedulers[sleeperId]? = some kind ∧
      kind.StartsThreads H.spawnError)
    (h : thread.Sleeps d since id clock)
    (hturn : thread.turn? t (r.world n).heap (r.world n).state = some (state, rest, turn))
    (hborn : turn.born = some thread') : thread'.Sleeps d since id clock := by
  cases h with
  | submits hsince hfree =>
      obtain ⟨kind, hkind, hstarts⟩ := hsleeper
      obtain ⟨heap, born, hsubmit⟩ :=
        Task.submitTurn_of_startsThreads hkind hstarts (.register (.sleep d) id)
      simp only [Thread.turn?, Task.turn, hsubmit, Option.some.injEq, Prod.mk.injEq] at hturn
      obtain ⟨-, -, rfl⟩ := hturn
      obtain rfl := Option.some.inj hborn
      exact .performs hsince
  | delivers =>
      simp only [Thread.turn?, Option.some.injEq, Prod.mk.injEq] at hturn
      obtain ⟨-, -, rfl⟩ := hturn
      simp only [Task.turn, Task.deliverTurn] at hborn
      repeat' split at hborn
      all_goals contradiction
  | sleeps => contradiction
  | waits => contradiction
  | _ =>
      simp only [Thread.turn?, Option.some.injEq, Prod.mk.injEq] at hturn
      obtain ⟨-, -, rfl⟩ := hturn
      contradiction

section Node

variable {exit : Exit (Outcome H.Data H.Fn)} (hstart : (r.world 0).Starting)
  (hsleeper : (r.world 0).heap.schedulers[sleeperId]? = some .sleeper)
  (hhides : r.Hides (.handoff id)) (hcomes : r.ComesTo k s (.sleep d) sleeperId id)

include hsleeper in
theorem startsThreads (n : Nat) :
    ∃ kind, (r.world n).heap.schedulers[sleeperId]? = some kind ∧ kind.StartsThreads H.spawnError :=
  r.exists_scheduler Scheduler.isKept_startsThreads
    ⟨_, hsleeper, Scheduler.startsThreads_sleeper⟩ n

include hstart hhides hcomes in
/-- A task that has to do with the node comes from another one that has, or from the interpretation
that comes to the node. -/
theorem concerns_of_hands {task task' : Task H} (hdoes : r.Does n t task)
    (hhands : task.Hands (r.world n).heap task') (htask' : task'.concerns? = some id) :
    task.concerns? = some id ∨ n = k ∧ t = s := by
  have hwork {q : Request H.Data H.Fn} {register : Register H.Fn}
      (hdoes : r.Does n t (.request q)) (hq : q.work? = some (.register register id)) : False :=
    hhides n t q hdoes (Request.mem_refs_of_work hq (by simp [Work.kept]))
  cases hhands with
  | minor h =>
      rw [h.concerns?] at htask'
      contradiction
  | request h =>
      cases h with
      | @complete target outcome =>
          cases target with
          | node id' =>
              obtain rfl := Option.some.inj htask'
              exact absurd (by simp [Request.refs, Callback.kept]) (hhides n t _ hdoes)
          | user => contradiction
      | @submit scheduler work =>
          cases work with
          | register register id' =>
              obtain rfl := Option.some.inj htask'
              exact (hwork hdoes rfl).elim
          | _ => contradiction
      | @perform work =>
          cases work with
          | register register id' =>
              obtain rfl := Option.some.inj htask'
              exact (hwork hdoes rfl).elim
          | _ => contradiction
      | _ => contradiction
  | suspend hstep =>
      obtain rfl := Option.some.inj htask'
      obtain ⟨hn, ht, -⟩ := ComesTo.unique ⟨_, _, _, _, hdoes, hstep, rfl⟩ hcomes
      exact .inr ⟨hn, ht⟩
  | deliver => exact .inl htask'
  | @callback exit value error target outcome =>
      cases target with
      | node id' =>
          obtain rfl := Option.some.inj htask'
          obtain ⟨haction, name, stack, ht⟩ := hdoes
          exact absurd (World.pendingAt_run ht) (finish_ne_callback hstart hhides)
      | user => contradiction
  | @submit scheduler work => cases work <;> exact .inl htask'
  | register => exact .inl htask'
  | @sleep nanoseconds target => cases target <;> exact .inl htask'
  | invoke => exact .inl htask'
  | @joined value error target v =>
      cases target with
      | node id' =>
          obtain rfl := Option.some.inj htask'
          obtain ⟨_, _, _, heq, -⟩ := told_eq hstart hhides hcomes hdoes.has rfl
          contradiction
      | user => contradiction
  | @observed value error _ _ target =>
      cases target with
      | node id' =>
          obtain rfl := Option.some.inj htask'
          obtain ⟨_, _, _, heq, -⟩ := told_eq hstart hhides hcomes hdoes.has rfl
          contradiction
      | user => contradiction
  | _ => contradiction

include hstart hhides hcomes in
/-- A thread that has nothing to do with the node comes to have in a turn only if it comes to the
node. -/
theorem eq_of_concerns {state : H.State} {rest : List (Return H)} {turn : Turn H}
    (haction : r.action n = .thread t) (ht : (r.world n).threads[t]? = some thread)
    (hturn : thread.turn? t (r.world n).heap (r.world n).state = some (state, rest, turn))
    (hbefore : ¬thread.Concerns id) (hconcerns : turn.Concerns id) : n = k ∧ t = s := by
  obtain ⟨name, task, stack, task', rfl, hhands, htask'⟩ :=
    ((Thread.turning hturn).concerns hconcerns).resolve_left hbefore
  refine (concerns_of_hands hstart hhides hcomes ⟨haction, name, stack, ht⟩ hhands
    htask').resolve_left fun htask => hbefore ?_
  exact .inl ⟨task, List.mem_append_left _ List.mem_cons_self, htask⟩

include hstart hsleeper hhides hcomes

/-- As long as the node has no exit, only threads that sleep for it have to do with it. -/
theorem sleeps_of_concerns (hexit : ¬(r.world n).At id Phase.HasExit)
    (ht : (r.world n).threads[t]? = some thread) (hconcerns : thread.Concerns id) :
    k < n ∧ thread.Sleeps d (r.world k).heap.clock id (r.world n).heap.clock := by
  induction n generalizing t thread with
  | zero =>
      obtain ⟨name, code, rfl⟩ := hstart.threads t thread ht
      simp [Thread.Concerns, Thread.starting, Thread.held, Control.held,
        Task.concerns?] at hconcerns
  | succ n ih =>
      have hbefore : ¬(r.world n).At id Phase.HasExit := fun h =>
        hexit (hasExit_le h (Nat.le_succ n))
      have hclock : (r.world n).heap.clock ≤ (r.world (n + 1)).heap.clock :=
        r.clock_le (Nat.le_succ n)
      have hnext {thread₀ : Thread H} (ht₀ : (r.world n).threads[t]? = some thread₀)
          (hconcerns₀ : thread₀.Concerns id) :
          k < n + 1 ∧ thread.Sleeps d (r.world k).heap.clock id (r.world (n + 1)).heap.clock := by
        obtain ⟨hk, hsleeps⟩ := ih hbefore ht₀ hconcerns₀
        refine ⟨Nat.lt_succ_of_lt hk, ?_⟩
        exact (sleeps_next (startsThreads hsleeper n) (hcomes.exists_handoff hk) hexit hsleeps ht₀
          ht).resolve_right fun hfree => hfree hconcerns
      cases (r.ordered n).becomes (r.step n) ht with
      | waits ht₀ hstack hheld => exact hnext ht₀ (hconcerns.of_held hstack hheld)
      | @acts thread₀ state rest turn haction ht₀ hturn hthread =>
          by_cases hconcerns₀ : thread₀.Concerns id
          · exact hnext ht₀ hconcerns₀
          · subst hthread
            have hturned := (hconcerns.of_held (Thread.stack_heard _ _)
              fun _ => Thread.mem_held_of_control_heard).of_turn.resolve_right fun hrest =>
                hconcerns₀ (Thread.concerns_of_rest (Thread.turning hturn).suffix hrest)
            obtain ⟨rfl, rfl⟩ :=
              eq_of_concerns hstart hhides hcomes haction ht₀ hturn hconcerns₀ hturned
            obtain ⟨heap, frames, last, finish, hturn'⟩ := hcomes.turn ht₀
            obtain ⟨rfl, rfl, rfl⟩ := by
              simpa only [hturn', Option.some.injEq, Prod.mk.injEq] using hturn
            refine ⟨Nat.lt_succ_self n, .submits hclock fun hrest => hconcerns₀ ?_⟩
            have hbelow : Thread.Concerns id ⟨none, .ret .unit, thread₀.stack⟩ := by
              simpa [Thread.Concerns, Thread.held, Control.held, Return.held, Task.concerns?,
                Return.guards?] using hrest
            exact Thread.concerns_of_rest List.suffix_rfl hbelow
      | @starts t₀ thread₀ state rest turn haction ht₀ hturn hborn hnone =>
          by_cases hconcerns₀ : thread₀.Concerns id
          · obtain ⟨hk, hsleeps⟩ := ih hbefore ht₀ hconcerns₀
            refine ⟨Nat.lt_succ_of_lt hk, Thread.Sleeps.mono ?_ hclock⟩
            exact sleeps_of_born (startsThreads hsleeper n) hsleeps hturn hborn
          · obtain ⟨rfl, rfl⟩ := eq_of_concerns hstart hhides hcomes haction ht₀ hturn hconcerns₀
              (hconcerns.of_born hborn)
            obtain ⟨heap, frames, last, finish, hturn'⟩ := hcomes.turn ht₀
            obtain ⟨-, -, rfl⟩ := by
              simpa only [hturn', Option.some.injEq, Prod.mk.injEq] using hturn
            contradiction

/-- The exit of the node is the end of the sleep, and comes when the time has come. -/
theorem accepts_eq_unit (h : r.Accepts n t id exit) :
    exit = .settled (.ok .unit) ∧ (r.world k).heap.clock + d ≤ (r.world n).heap.clock := by
  have hexit := h.hasExit.1
  obtain ⟨origin, handoff, ⟨haction, name, stack, ht⟩, -⟩ := h
  obtain ⟨-, hsleeps⟩ := sleeps_of_concerns hstart hsleeper hhides hcomes hexit ht
    (.inl ⟨_, List.mem_append_left _ List.mem_cons_self, rfl⟩)
  cases hsleeps with
  | delivers hpassed => exact ⟨rfl, hpassed⟩

end Node

/-- Time goes on until whoever is asleep by the clock can wake up. -/
def PassesTime (r : Run H) : Prop :=
  ∀ (n : Nat) (t : ThreadId) (thread : Thread H) (time : Nat) (woken missed : Task H),
    (r.world n).threads[t]? = some thread → thread.control = .asleep (.clock time) woken missed →
      ∃ m, time ≤ (r.world m).heap.clock

/-- A thread that starts another one is followed by it. -/
theorem exists_born {state : H.State} {rest : List (Return H)} {turn : Turn H}
    (haction : r.action n = .thread t) (ht : (r.world n).threads[t]? = some thread)
    (hturn : thread.turn? t (r.world n).heap (r.world n).state = some (state, rest, turn))
    (hborn : turn.born = some thread') :
    ∃ t' : ThreadId, (r.world (n + 1)).threads[t']? = some thread' := by
  have hstep := r.step n
  rw [haction] at hstep
  have hworld := Option.some.inj ((World.step_of_turn ht hturn).symm.trans hstep)
  rw [(World.act_of_turn hturn).1] at hworld
  refine ⟨(r.world n).next, ?_⟩
  rw [← hworld, (r.ordered n).threads_apply ht, if_neg (Nat.ne_of_gt ((r.ordered n).lt ht)),
    if_pos rfl, hborn]

/-- A thread that has come to a node comes back from the submission of the registration, and another
thread is about to perform the registration, if the scheduler starts threads. -/
theorem Fair.exists_submitted {register : Register H.Fn} {scheduler : SchedulerId}
    (hfair : r.Fair)
    (hstarts : ∀ n, ∃ kind, (r.world n).heap.schedulers[scheduler]? = some kind ∧
      kind.StartsThreads H.spawnError)
    (hcomes : r.ComesTo k s register scheduler id)
    (hs : (r.world k).threads[s]? = some thread) :
    ∃ (m : Nat) (frames : List (Frame H.Data H.Fn)) (last : Kept) (finish : Finish H.Fn)
        (t : ThreadId) (name' : Option String), k < m ∧
      (r.world m).threads[s]? = some ⟨thread.name, .ret .unit,
        .after (.park id frames last finish) :: thread.stack⟩ ∧
      (r.world m).threads[t]? =
        some ⟨name', .run (.perform (.register register id)), [.guarded scheduler]⟩ := by
  obtain ⟨heap, frames, last, finish, hturn⟩ := hcomes.turn hs
  obtain ⟨_, _, _, _, ⟨haction, -⟩, -⟩ := hcomes
  obtain ⟨-, ht₁⟩ := next_of_action haction hs hturn
  obtain ⟨m, hm, haction', ht₂⟩ := hfair.exists_ready ht₁ trivial
  obtain ⟨kind, hkind, hkind'⟩ := hstarts m
  obtain ⟨heap', born, hsubmit⟩ :=
    Task.submitTurn_of_startsThreads hkind hkind' (.register register id)
  obtain ⟨-, ht₃⟩ := next_of_action haction' ht₂ rfl
  obtain ⟨t, hborn⟩ := exists_born haction' ht₂ rfl
    (show ((Task.submit scheduler (.register register id)).turn _ _ _).born = _ by
      rw [Task.turn, hsubmit])
  simp only [Task.turn, hsubmit] at ht₃
  exact ⟨m + 1, frames, last, finish, t, some born, by omega, ht₃, hborn⟩

/-- The submitter of a node leaves it when it is back from the submission. -/
theorem Fair.exists_hasLeft {v : Value H.Data H.Fn} {frames : List (Frame H.Data H.Fn)}
    {last : Kept} {finish : Finish H.Fn} (hfair : r.Fair)
    (ht : (r.world n).threads[t]? =
      some ⟨name, .ret v, .after (.park id frames last finish) :: stack⟩) :
    ∃ m, r.HasLeft m id := by
  obtain ⟨m₁, -, ht₁⟩ := hfair.exists_next ⟨name, .run (.park id frames last finish), stack⟩
    trivial ht fun _ _ => ⟨_, _, _, rfl, rfl⟩
  obtain ⟨m, -, haction, ht₂⟩ := hfair.exists_ready ht₁ trivial
  obtain ⟨phase, hhandoff, hphase⟩ := handoff_of_parks ⟨_, _, World.pendingAt_run ht₂, rfl⟩
  obtain ⟨hlt, -⟩ := Array.getElem?_eq_some_iff.1 hhandoff
  have hleft (phase : Phase H.Data H.Fn) (hphase : phase.IsLeft)
      (hheap : (r.world (m + 1)).heap.handoffs =
        (r.world m).heap.handoffs.setIfInBounds id ⟨t, phase⟩) : r.HasLeft (m + 1) id :=
    ⟨⟨t, phase⟩, by rw [hheap, Array.getElem?_setIfInBounds_self_of_lt hlt], hphase⟩
  obtain ⟨hheap, -⟩ := next_of_action haction ht₂ rfl
  refine ⟨m + 1, ?_⟩
  rcases hphase with rfl | ⟨exit, rfl⟩
  · simp only [Task.turn, Task.parkTurn, hhandoff, Handoff.leave] at hheap
    exact hleft (.parked frames finish) trivial (congrArg Heap.handoffs hheap)
  · simp only [Task.turn, Task.parkTurn, hhandoff, Handoff.leave] at hheap
    exact hleft .resumed trivial (congrArg Heap.handoffs hheap)

/-- A thread that is asleep by the clock is so until it wakes up when the time has come. -/
theorem asleep_or_woken {time : Nat} {woken missed : Task H}
    (ht : (r.world n).threads[t]? = some ⟨name, .asleep (.clock time) woken missed, stack⟩)
    (j : Nat) :
    (∃ m, n ≤ m ∧ time ≤ (r.world m).heap.clock ∧
        (r.world (m + 1)).threads[t]? = some ⟨name, .run woken, stack⟩) ∨
      (r.world (n + j)).threads[t]? =
        some ⟨name, .asleep (.clock time) woken missed, stack⟩ := by
  induction j with
  | zero => exact .inr ht
  | succ j ih =>
      rcases ih with hwoken | hasleep
      · exact .inl hwoken
      · rcases next_of_clock hasleep with hsame | ⟨htime, hrun⟩
        · exact .inr hsame
        · exact .inl ⟨n + j, Nat.le_add_right n j, htime, hrun⟩

/-- Time goes on in a run after whose last action no thread is asleep by the clock. -/
theorem passesTime_ofList {w : World H} {hw : w.Initial} {actions : List Action}
    (hawake : ∀ t, t < ((ofList w hw actions).world actions.length).next →
      (((ofList w hw actions).world actions.length).threads[t]?).all fun thread =>
        !thread.isTimed) :
    (ofList w hw actions).PassesTime := by
  rintro n t ⟨name, _, stack⟩ time woken missed ht rfl
  rcases asleep_or_woken ht actions.length with ⟨m, -, htime, -⟩ | hasleep
  · exact ⟨m, htime⟩
  · rw [world_ofList w hw actions (Nat.le_add_left _ n)] at hasleep
    have hlt := ((ofList w hw actions).ordered actions.length).lt hasleep
    have hnever := hawake t hlt
    rw [hasleep] at hnever
    contradiction

/-- A thread that is asleep by the clock wakes up if the time comes. -/
theorem Fair.exists_awake_of_clock {time : Nat} {woken missed : Task H} (hfair : r.Fair)
    (htime : ∃ m, time ≤ (r.world m).heap.clock)
    (ht : (r.world n).threads[t]? = some ⟨name, .asleep (.clock time) woken missed, stack⟩) :
    ∃ m, n < m ∧ (r.world m).threads[t]? = some ⟨name, .run woken, stack⟩ := by
  obtain ⟨j, hj⟩ := htime
  rcases asleep_or_woken ht j with ⟨m, hm, -, hwoken⟩ | hasleep
  · exact ⟨m + 1, Nat.lt_succ_of_le hm, hwoken⟩
  · have harrival (m : Nat) (hm : n + j ≤ m) :
        (r.world m).arrival (.clock time) = some true := by
      have hclock := Nat.le_trans hj (r.clock_le (show j ≤ m by omega))
      simp [World.arrival, World.reached, hclock]
    obtain ⟨m, hm, haction, ht'⟩ := hfair.exists_action hasleep
      (fun notified => by cases notified <;> rfl) rfl fun m hm hsleeps => by
        simp [World.step?, hsleeps, harrival m hm]
    have hstep := r.step m
    simp only [haction, World.does, World.step?, ht', harrival m hm, Option.some.injEq] at hstep
    have hwoken := World.threads_rouse (w := r.world m) true ht' t
    rw [if_pos rfl, hstep] at hwoken
    exact ⟨m + 1, by omega, hwoken⟩

/-- A node at which an effect sleeps gets its exit. -/
theorem Fair.exists_accepts_of_sleep (hfair : r.Fair) (htime : r.PassesTime)
    (hstart : (r.world 0).Starting)
    (hsleeper : (r.world 0).heap.schedulers[sleeperId]? = some .sleeper)
    (hhides : r.Hides (.handoff id)) (hcomes : r.ComesTo k s (.sleep d) sleeperId id) :
    ∃ m t, r.Accepts m t id (.settled (.ok .unit)) := by
  obtain ⟨thread, hs⟩ : ∃ thread, (r.world k).threads[s]? = some thread := by
    obtain ⟨_, _, _, _, ⟨-, name, stack, hs⟩, -⟩ := hcomes
    exact ⟨_, hs⟩
  obtain ⟨m₁, frames, last, finish, t, name, hm₁, hback, ht₁⟩ :=
    hfair.exists_submitted (startsThreads hsleeper) hcomes hs
  obtain ⟨m₂, hm₂, ht₂⟩ := hfair.exists_next
    ⟨name, .run (.register (.sleep d) (.node id)),
      [.guarding id (.sleep d), .guarded sleeperId]⟩
    trivial ht₁ fun _ _ => ⟨_, _, _, rfl, rfl⟩
  obtain ⟨m₃, hm₃, haction, ht₃⟩ := hfair.exists_ready ht₂ trivial
  obtain ⟨-, ht₄⟩ := next_of_action haction ht₃ rfl
  obtain ⟨m₅, hm₅, ht₅⟩ := hfair.exists_awake_of_clock (htime _ _ _ _ _ _ ht₄ rfl) ht₄
  obtain ⟨m₆, hm₆, ht₆⟩ := hfair.exists_next
    ⟨name, .run (.deliver id (.settled (.ok .unit)) .completion),
      [.guarding id (.sleep d), .guarded sleeperId]⟩
    trivial ht₅ fun _ _ => ⟨_, _, _, rfl, rfl⟩
  obtain ⟨m, hexit⟩ := hfair.exists_hasExit ht₆ (hcomes.exists_handoff (show k < m₆ by omega))
    (hfair.exists_hasLeft hback)
  obtain ⟨i, t', exit, -, haccepts⟩ := exists_accepts_of_hasExit hexit
  obtain ⟨rfl, -⟩ := accepts_eq_unit hstart hsleeper hhides hcomes haccepts
  exact ⟨i, t', haccepts⟩

end Run

/-- An interpretation that is about to come to a node waits for the submission of the registration
after its next step. -/
theorem Stage.Step.of_suspend {D F : Type} {i : Interpretation D F} {deeds : List (Deed D F)}
    {o : Option (Stage D F)} {register : Register F} {scheduler : SchedulerId}
    {frames : List (Frame D F)} (h : Stage.Step (.driving i) deeds o)
    (hstep : i.step = .suspend register scheduler frames) :
    ∃ id, o = some (.submitting id frames) := by
  cases h with
  | @suspend _ _ _ _ id hstep' =>
      obtain ⟨-, -, rfl⟩ := Progress.suspend.inj (hstep'.symm.trans hstep)
      exact ⟨id, rfl⟩
  | next hstep' => simp [hstep] at hstep'
  | ask hstep' => simp [hstep] at hstep'
  | finish hstep' => simp [hstep] at hstep'

namespace Run

variable {r : Run H} {n m d : Nat} {t s : ThreadId} {id : HandoffId}

section Course

variable {b : Nat} {p : Place} {x : Pending H.Data H.Fn} {i : Interpretation H.Data H.Fn}
  {register : Register H.Fn} {scheduler : SchedulerId} {frames : List (Frame H.Data H.Fn)}
  {stage : Stage H.Data H.Fn} {exit : Exit (Outcome H.Data H.Fn)}
  (hp : (r.world b).pendingAt p = some x)

include hp

/-- The exit with which an interpretation leaves a node is the one that the node has accepted. -/
theorem accepts_of_exit (hs : r.stage b p n = some stage) (hnode : stage.node? = some id)
    (hexit : .exit exit ∈ r.deeds b p n) : ∃ m t, m ≤ b + n ∧ r.Accepts m t id exit := by
  obtain ⟨q, hq, hat⟩ := (r.stage_eq_some hp).1 hs
  have hdeeds : r.deeds b p n = (r.world (b + n)).deeds (r.action (b + n)) q := by
    simp [deeds, hq]
  rw [hdeeds] at hexit
  cases (r.sound (b + n)).carries (r.step (b + n)) hat with
  | stays _ _ hcalls =>
      rcases hcalls with hnil | ⟨_, _, -, hcall⟩
      · simp [hnil] at hexit
      · simp [hcall] at hexit
  | goOn _ _ _ _ hstep hnode' =>
      simp [hstep.deeds_of_node hnode (hnode'.trans hnode)] at hexit
  | ends _ _ _ hstep => simp [hstep.deeds_of_lost hnode] at hexit
  | suspend _ _ hdriving =>
      subst hdriving
      contradiction
  | inline _ _ hleaving hhandoff hinline =>
      subst hleaving
      obtain rfl := Option.some.inj hnode
      obtain rfl := by simpa [hinline] using hexit
      obtain ⟨m, hm, haccepts⟩ := exists_accepts_of_early hhandoff
      exact ⟨m, _, Nat.le_of_lt hm, haccepts⟩
  | park _ _ _ hpark => simp [hpark] at hexit
  | accept _ haction hparked ht hhandoff haccept =>
      subst hparked
      obtain rfl := Option.some.inj hnode
      obtain rfl := by simpa [haccept] using hexit
      exact ⟨_, _, Nat.le_refl _, .of_offer haction ht hhandoff rfl⟩

/-- An interpretation that is about to come to a node comes to it. -/
theorem Fair.exists_comesTo (hfair : r.Fair) (hs : r.stage b p n = some (.driving i))
    (hstep : i.step = .suspend register scheduler frames) :
    ∃ m t l id thread, n ≤ m ∧
      r.history b p (m + 1) = r.history b p n ++ [.submit register scheduler] ∧
        r.ComesTo (b + m) t register scheduler id ∧
          r.place b p (m + 1) = some (.thread t l) ∧
            r.stage b p (m + 1) = some (.submitting id frames) ∧
              (r.world (b + m)).threads[t]? = some thread ∧ thread.stack.length = l := by
  have hgoes : r.GoesOn b p n (.driving i) := trivial
  obtain ⟨m, regs, hm, hhistory, hregs, hs', hnext⟩ :=
    Course.exists_step (c := r.course hp) hs (exists_step hp hfair hgoes hs)
  obtain rfl := hregs rfl
  rw [course_history, course_history] at hhistory
  obtain ⟨id, hstage⟩ : ∃ id, r.stage b p (m + 1) = some (.submitting id frames) :=
    hnext.of_suspend hstep
  obtain ⟨q, hq, hat⟩ := (r.stage_eq_some hp).1 hs'
  have hplace : r.place b p (m + 1) = (r.world (b + m)).next? (r.action (b + m)) q := by
    simp [place, hq]
  have hdeeds : r.deeds b p m = (r.world (b + m)).deeds (r.action (b + m)) q := by
    simp [Run.deeds, hq]
  have hthere {stage' : Stage H.Data H.Fn} {q' : Place}
      (hnext' : (r.world (b + m)).next? (r.action (b + m)) q = some q')
      (hat' : (r.world (b + m + 1)).pendingAt q' = some (stage', x.2)) :
      stage' = .submitting id frames := by
    have hnow := (r.stage_eq_some hp).2 ⟨q', hplace.trans hnext', hat'⟩
    exact Option.some.inj (hnow.symm.trans hstage)
  cases (r.sound (b + m)).carries (r.step (b + m)) hat with
  | stays hnext' hat' => exact absurd (hthere hnext' hat') (by simp)
  | goOn _ _ hnext' hat' _ hnode =>
      rw [hthere hnext' hat'] at hnode
      contradiction
  | ends _ _ hnone => simp [stage, hplace, hnone] at hstage
  | @suspend t l i' register' scheduler' frames' hplace' haction hdriving hstep'
      hsubmits hnext' hat' =>
      obtain rfl := Stage.driving.inj hdriving
      obtain ⟨rfl, rfl, rfl⟩ := Progress.suspend.inj (hstep'.symm.trans hstep)
      obtain ⟨-, heq⟩ := Stage.submitting.inj (hthere hnext' hat')
      obtain ⟨t', name, last, stack, hwhere, ht⟩ := World.driving_of_pendingAt hat
      obtain ⟨rfl, rfl⟩ := Place.thread.inj (hplace'.symm.trans hwhere)
      refine ⟨m, t, stack.length, _, _, hm, ?_,
        ⟨i, last, x.2, frames', ⟨haction, name, stack, ht⟩, hstep, rfl⟩, hplace.trans hnext',
        (r.stage_eq_some hp).2 ⟨_, hplace.trans hnext', hat'⟩, ht, rfl⟩
      rw [history, hhistory, hdeeds, hsubmits, Interpretation.deeds_of_suspend hstep]
      simp [Deed.registrations]
  | inline _ _ hleaving => contradiction
  | park _ _ hleaving => contradiction
  | accept _ _ hparked => contradiction

/-- What a node has accepted is the exit of the interpretation that waits there. -/
theorem Fair.exists_exit_of_submitting (hfair : r.Fair) (haccepts : r.Accepts m t id exit)
    (hs : r.stage b p n = some (.submitting id frames)) (hback : r.ComesBack b p n)
    (hkept : ∀ k, r.stage b p k = some (.submitting id frames) → r.stage b p (k + 1) ≠ none) :
    ∃ k regs, r.history b p k = r.history b p n ++ (Deed.registrations regs ++ [.exit exit]) := by
  have hleaving (k : Nat) (hk : r.stage b p k = some (.leaving id frames)) :=
    exists_step hp hfair (s := .leaving id frames) trivial hk
  have hparked (k : Nat) (hk : r.stage b p k = some (.parked id frames)) :=
    exists_step hp hfair (s := .parked id frames) ⟨m, t, exit, haccepts⟩ hk
  obtain ⟨k, exit', hexit⟩ := Course.exists_getsExit (c := r.course hp) hs
    (exists_step hp hfair hback hs) hkept hleaving hparked
  obtain ⟨stage, hstage, hnode⟩ := hexit.waits
  have hmem : .exit exit' ∈ r.deeds b p k := by
    rw [show r.deeds b p k = [.exit exit'] from hexit.deeds]
    exact List.mem_singleton_self _
  obtain ⟨_, _, -, haccepts'⟩ := accepts_of_exit hp hstage hnode hmem
  obtain ⟨-, -, rfl⟩ := haccepts.unique haccepts'
  obtain ⟨regs, hhistory⟩ := hexit.history_succ
  rw [course_history, course_history] at hhistory
  exact ⟨k + 1, regs, hhistory⟩

end Course

/-- Effects can sleep for a duration: threads take their turns, time goes on, and the host does not
get hold of the callbacks of the nodes. -/
structure LetsSleep (r : Run H) (d : Nat) : Prop where
  starting : (r.world 0).Starting
  fair : r.Fair
  passesTime : r.PassesTime
  sleeper : (r.world 0).heap.schedulers[sleeperId]? = some .sleeper
  hides {n : Nat} {t : ThreadId} {id : HandoffId} :
    r.ComesTo n t (.sleep d) sleeperId id → r.Hides (.handoff id)

namespace LetsSleep

/-- A sleep ends, with a success, when its time has come. -/
theorem exists_accepts (h : r.LetsSleep d) (hcomes : r.ComesTo n s (.sleep d) sleeperId id) :
    ∃ m t, r.Accepts m t id (.settled (.ok .unit)) ∧
      (r.world n).heap.clock + d ≤ (r.world m).heap.clock := by
  have hhides := h.hides hcomes
  obtain ⟨m, t, haccepts⟩ :=
    h.fair.exists_accepts_of_sleep h.passesTime h.starting h.sleeper hhides hcomes
  exact ⟨m, t, haccepts, (accepts_eq_unit h.starting h.sleeper hhides hcomes haccepts).2⟩

/-- An interpretation that is about to sleep submits the registration of the sleep, and does nothing
else before it has slept. -/
theorem exists_exit (h : r.LetsSleep d) {b : Nat} {p : Place} {x : Pending H.Data H.Fn}
    {i : Interpretation H.Data H.Fn} {frames : List (Frame H.Data H.Fn)}
    (hp : (r.world b).pendingAt p = some x) (hs : r.stage b p n = some (.driving i))
    (hstep : i.step = .suspend (.sleep d) sleeperId frames)
    (hkept : ∀ m id frames, r.stage b p m = some (.submitting id frames) →
      r.stage b p (m + 1) ≠ none) :
    ∃ m regs, r.history b p m = r.history b p n ++ .submit (.sleep d) sleeperId ::
      (Deed.registrations regs ++ [.exit (.settled (.ok .unit))]) := by
  obtain ⟨k, s, l, id, thread, -, hhistory, hcomes, hplace, hsubmitting, ht, hl⟩ :=
    h.fair.exists_comesTo hp hs hstep
  obtain ⟨_, _, haccepts, -⟩ := h.exists_accepts hcomes
  obtain ⟨m, _, _, _, _, _, hm, hreplies, -⟩ :=
    h.fair.exists_submitted (startsThreads h.sleeper) hcomes ht
  have hback : r.ComesBack b p (k + 1) := by
    intro t l' hthere
    obtain ⟨rfl, rfl⟩ := Place.thread.inj (Option.some.inj (hplace.symm.trans hthere))
    obtain ⟨j, rfl⟩ := Nat.exists_eq_add_of_le (show b + (k + 1) ≤ m by omega)
    exact ⟨k + 1 + j, Nat.le_add_right _ _, .inl ⟨_, _, _, _, Nat.add_assoc b _ j ▸ hreplies, hl⟩⟩
  obtain ⟨j, regs, hrest⟩ := h.fair.exists_exit_of_submitting hp haccepts hsubmitting hback
    fun m => hkept m id frames
  refine ⟨j, regs, ?_⟩
  rw [hrest, hhistory, List.append_assoc]
  rfl

end LetsSleep

end Run

end Trampoline
