import Trampoline.Proofs.Guarding
import Trampoline.Proofs.Sleeping

/-!
Registrations are called once. The host gets hold of an async node through the work that is
submitted for it, and through the callback with which the registration is called. If it does no more
than that with nodes, and performs no unit of work twice, then an interpretation that gets the exit
of a node has had the node's registration called exactly once, and no other.
-/

namespace Trampoline

variable {H : Host}

/-- Whether a task calls a registration. -/
def Task.IsRegistration : Task H → Prop
  | .register _ _ => True
  | _ => False

theorem Task.IsMinor.not_isRegistration {task : Task H} (h : task.IsMinor) :
    ¬task.IsRegistration := by
  cases task with
  | register => exact h.elim
  | _ => exact id

theorem Return.Hands.not_isRegistration {reply : Except Payload (Value H.Data H.Fn)}
    {back : Return H} {task : Task H} (h : back.Hands reply task)
    (hback : ∀ task ∈ back.held, ¬task.IsRegistration) : ¬task.IsRegistration := by
  cases h with
  | minor hminor => exact hminor.not_isRegistration
  | after => exact hback _ (List.mem_singleton_self _)
  | _ => exact id

/-- A registration is called where its work is performed. -/
theorem Task.Hands.performs {heap : Heap H.Data H.Fn} {task task' : Task H}
    (h : task.Hands heap task') (hregistration : task'.IsRegistration) :
    ∃ register id, task = .perform (.register register id) := by
  cases h with
  | minor hminor => exact absurd hregistration hminor.not_isRegistration
  | request hands => cases hands <;> exact hregistration.elim
  | register => exact ⟨_, _, rfl⟩
  | _ => exact hregistration.elim

namespace Thread

variable {thread : Thread H} {t : ThreadId} {heap : Heap H.Data H.Fn} {state state' : H.State}
  {rest : List (Return H)} {turn : Turn H}

/-- A turn leads to no registration, or to one that its thread calls next. -/
theorem Turning.registers (h : thread.Turning t heap state state' rest turn)
    (hstack : ∀ back ∈ thread.stack, ∀ task ∈ back.held, ¬task.IsRegistration) :
    (∀ task ∈ turn.held, ¬task.IsRegistration) ∨
      ∃ register id, thread.control = .run (.perform (.register register id)) ∧
        turn.control = .run (.register register (.node id)) ∧
          turn.pushed = [.guarding id register] ∧ turn.born = none := by
  cases h with
  | move =>
      refine .inl fun task hmem hregistration => ?_
      exact (Move.turn_hands _ hmem).not_isRegistration hregistration
  | ret =>
      exact .inl fun task hmem =>
        (Return.resume_hands _ _ hmem).not_isRegistration (hstack _ List.mem_cons_self)
  | raise =>
      exact .inl fun task hmem =>
        (Return.unwind_hands _ _ hmem).not_isRegistration (hstack _ List.mem_cons_self)
  | @task name task =>
      refine or_iff_not_imp_left.2 fun hsome => ?_
      push Not at hsome
      obtain ⟨task', hmem, hregistration⟩ := hsome
      obtain ⟨register, id, rfl⟩ := (Task.turn_hands task task' hmem).performs hregistration
      exact ⟨register, id, rfl, rfl, rfl, rfl⟩

theorem HandlesAtOnce.registers (h : thread.HandlesAtOnce Task.IsRegistration)
    (hturn : thread.Turning t heap state state' rest turn) :
    turn.HandlesAtOnce Task.IsRegistration := by
  rcases hturn.registers h.stack with hnone | ⟨register, id, -, hcontrol, hpushed, hborn⟩
  · exact .of_none hnone
  · refine ⟨fun task hmem _ => ?_, by simp [hpushed, Return.held], by simp [hborn]⟩
    rw [hcontrol] at hmem ⊢
    exact congrArg Control.run (List.mem_singleton.1 hmem).symm

end Thread

namespace Run

variable {r : Run H} {n m k : Nat} {t t' s : ThreadId} {id : HandoffId}
  {register register' : Register H.Fn} {scheduler : SchedulerId} {target : Callback H.Fn}

/-- A registration is called in the turn after the one in which its work is performed. -/
theorem exists_performs (hstart : (r.world 0).Starting)
    (h : r.Does m t (.register register target)) :
    ∃ n id, target = .node id ∧ r.NextTurn t n m ∧
      r.Does n t (.perform (.register register id)) := by
  obtain ⟨haction, name, stack, ht⟩ := h
  have hregistration : (Task.register register target : Task H).IsRegistration := trivial
  obtain ⟨n, hn, hled, hbetween⟩ :=
    r.exists_ledTo hstart Thread.HandlesAtOnce.registers (fun _ _ => id) hregistration ht
  have hstack {t : ThreadId} {thread : Thread H} (ht : (r.world n).threads[t]? = some thread) :=
    (r.handlesAtOnce hstart Thread.HandlesAtOnce.registers ht).stack
  cases hled with
  | @turn thread _ _ _ hfirst ht₀ hturn hcontrol =>
      rcases (Thread.turning hturn).registers (hstack ht₀) with
        hnone | ⟨register', id, hperform, hnext, -⟩
      · refine absurd hregistration (hnone _ ?_)
        simp [Turn.held, hcontrol, Control.held]
      · obtain ⟨rfl, rfl⟩ := Task.register.inj (Control.run.inj (hcontrol.symm.trans hnext))
        obtain ⟨name, control, stack⟩ := thread
        obtain rfl : control = _ := hperform
        exact ⟨n, id, rfl, ⟨hn, hfirst, haction, hbetween⟩, hfirst, name, stack, ht₀⟩
  | start _ ht₀ hturn hborn =>
      rcases (Thread.turning hturn).registers (hstack ht₀) with hnone | ⟨_, _, -, -, -, hnobody⟩
      · refine absurd hregistration (hnone _ ?_)
        simp [Turn.held, hborn, Thread.held, Control.held]
      · simp [hborn] at hnobody

/-- The registration of an async node has been called with the node's callback. -/
def HasRegistered (r : Run H) (n : Nat) (id : HandoffId) : Prop :=
  ∃ m t register, m < n ∧ r.Does m t (.register register (.node id))

theorem HasRegistered.le (h : r.HasRegistered n id) (hnm : n ≤ m) : r.HasRegistered m id := by
  obtain ⟨k, t, register, hk, hdoes⟩ := h
  exact ⟨k, t, register, Nat.lt_of_lt_of_le hk hnm, hdoes⟩

/-- What the host does with async nodes: it hands on the work that has been submitted for them, none
of it twice, and whatever else it does with a node it does after it has got the callback. -/
structure KeepsToNodes (r : Run H) : Prop where
  work {n : Nat} {t : ThreadId} {q : Request H.Data H.Fn} {register : Register H.Fn}
      {id : HandoffId} : r.Does n t (.request q) → q.work? = some (.register register id) →
    ∃ k s scheduler, k < n ∧ r.ComesTo k s register scheduler id
  once (register : Register H.Fn) (id : HandoffId) : r.PerformsOnce (.register register id)
  callback {n : Nat} {t : ThreadId} {q : Request H.Data H.Fn} {id : HandoffId} :
    r.Does n t (.request q) → .handoff id ∈ q.refs [] →
      (∀ register, q.work? ≠ some (.register register id)) → r.HasRegistered n id

namespace KeepsToNodes

variable (h : r.KeepsToNodes) (hstart : (r.world 0).Starting)
include h hstart

/-- The work of a node is what has been submitted when the node was reached. -/
theorem exists_comesTo (hdoes : r.Does n t (.perform (.register register id))) :
    ∃ k s scheduler, k < n ∧ r.ComesTo k s register scheduler id := by
  obtain ⟨m, t', task, hm, hdoes', hmakes⟩ := exists_makes hstart (.inl hdoes.has)
  cases hmakes with
  | registration hstep => exact ⟨m, t', _, hm, _, _, _, _, hdoes', hstep, rfl⟩
  | request hwork =>
      obtain ⟨k, s, scheduler, hk, hcomes⟩ := h.work hdoes' hwork
      exact ⟨k, s, scheduler, Nat.lt_trans hk hm, hcomes⟩

/-- What is called with the callback of a node is the node's own registration, -/
theorem comesTo_of_register (hdoes : r.Does n t (.register register (.node id))) :
    ∃ k s scheduler, k < n ∧ r.ComesTo k s register scheduler id := by
  obtain ⟨m, id', heq, hnext, hperform⟩ := exists_performs hstart hdoes
  obtain rfl := Callback.node.inj heq
  obtain ⟨k, s, scheduler, hk, hcomes⟩ := h.exists_comesTo hstart hperform
  exact ⟨k, s, scheduler, Nat.lt_trans hk hnext.lt, hcomes⟩

/-- and it is called once. -/
theorem registers_once (hdoes : r.Does n t (.register register (.node id)))
    (hdoes' : r.Does m t' (.register register' (.node id))) : n = m ∧ register = register' := by
  obtain ⟨i, id₁, heq₁, hnext, hperform⟩ := exists_performs hstart hdoes
  obtain ⟨j, id₂, heq₂, hnext', hperform'⟩ := exists_performs hstart hdoes'
  obtain rfl := Callback.node.inj heq₁
  obtain rfl := Callback.node.inj heq₂
  obtain ⟨_, _, _, -, hcomes⟩ := h.exists_comesTo hstart hperform
  obtain ⟨_, _, _, -, hcomes'⟩ := h.exists_comesTo hstart hperform'
  obtain ⟨-, -, rfl, -⟩ := hcomes.unique hcomes'
  obtain rfl := h.once _ _ _ _ _ _ hperform hperform'
  obtain ⟨rfl, -⟩ := hperform.unique hperform'
  exact ⟨hnext.unique hnext', rfl⟩

/-- An interpretation that is finished by the callback of a node has begun after the registration
has been called. -/
theorem registered_of_finish {q : Place} {stage : Stage H.Data H.Fn} {value error : Ty}
    (hat : (r.world n).pendingAt q = some (stage, .callback value error (.node id))) :
    r.HasRegistered n id := by
  obtain ⟨m, j, -, node, rfl, ⟨⟨t, name, task, stack, -, haction, -, ht, hstarts⟩, -⟩, -⟩ :=
    exists_begins hat
  have hdoes : r.Does m t task := ⟨haction, name, stack, ht⟩
  cases hstarts with
  | runWith =>
      refine (h.callback hdoes (by simp [Request.refs, Callback.kept]) ?_).le (by omega)
      simp [Request.work?]
  | interpret =>
      obtain ⟨m', t', task', hm', hdoes', hmakes⟩ := exists_makes hstart (.inl hdoes.has)
      cases hmakes with
      | request hwork =>
          refine (h.callback hdoes' (Request.mem_refs_of_work hwork ?_) ?_).le (by omega)
          · simp [Work.kept, Finish.kept, Callback.kept]
          · simp [hwork]

theorem registered_of_subscribe {promise : PromiseId} {subscriber : Subscriber H.Fn}
    (hhas : r.Has n (.subscribe promise subscriber))
    (htarget : subscriber.target? = some (.node id)) : r.HasRegistered n id := by
  obtain ⟨m, t, task, hm, hdoes, hhands⟩ := hhas.exists_does hstart trivial
  cases hhands with
  | minor hminor => exact hminor.elim
  | request hands =>
      cases hands with
      | subscribe => contradiction
      | observe =>
          obtain rfl := Option.some.inj htarget
          refine (h.callback hdoes (by simp [Request.refs, Callback.kept]) ?_).le (Nat.le_of_lt hm)
          simp [Request.work?]
  | join =>
      obtain rfl := Option.some.inj htarget
      exact ⟨m, t, _, hm, hdoes⟩

theorem registered_of_tell {subscriber : Subscriber H.Fn} {v : Value H.Data H.Fn}
    (hhas : r.Has n (.tell subscriber v)) (htarget : subscriber.target? = some (.node id)) :
    r.HasRegistered n id := by
  obtain ⟨m, t, task, hm, hdoes, hhands⟩ := hhas.exists_does hstart trivial
  have htells : ∃ promise, r.Tells promise m t subscriber v := by
    cases hhands with
    | minor hminor => exact hminor.elim
    | request hands => cases hands
    | tell => exact ⟨_, .kept hdoes⟩
    | subscribe hpromised => exact ⟨_, .late hdoes hpromised⟩
  obtain ⟨promise, htells⟩ := htells
  obtain ⟨-, k, hserves⟩ := htells.serves hstart
  have hsubscribes : ∃ t, r.Subscribes promise k t subscriber := by
    cases hserves with
    | onTheSpot hsubscribes => exact ⟨_, hsubscribes⟩
    | later hsubscribes => exact ⟨_, hsubscribes⟩
  obtain ⟨t', hsubscribes⟩ := hsubscribes
  exact (h.registered_of_subscribe hstart hsubscribes.1.has htarget).le
    (Nat.le_trans (hserves.le hstart) (Nat.le_of_lt hm))

/-- Whoever invokes the callback of a node has it from the registration. -/
theorem registered_of_invoke {outcome : Outcome H.Data H.Fn}
    (hhas : r.Has n (.invoke (.node id) outcome)) : r.HasRegistered n id := by
  obtain ⟨m, t, task, hm, hdoes, hhands⟩ := hhas.exists_does hstart trivial
  cases hhands with
  | minor hminor => exact hminor.elim
  | request hands =>
      cases hands with
      | complete =>
          refine (h.callback hdoes (by simp [Request.refs, Callback.kept]) ?_).le (Nat.le_of_lt hm)
          simp [Request.work?]
  | callback =>
      obtain ⟨haction, name, stack, ht⟩ := hdoes
      exact (h.registered_of_finish hstart (World.pendingAt_run ht)).le (Nat.le_of_lt hm)
  | sleep => exact ⟨m, t, _, hm, hdoes⟩
  | joined => exact (h.registered_of_tell hstart hdoes.has rfl).le (Nat.le_of_lt hm)
  | observed => exact (h.registered_of_tell hstart hdoes.has rfl).le (Nat.le_of_lt hm)

omit h in
/-- The guard of a registration is on a stack while the registration is called, or has been. -/
theorem registered_of_guarding {thread : Thread H} (ht : (r.world n).threads[t]? = some thread)
    (hguarding : .guarding id register ∈ thread.stack) :
    r.HasRegistered n id ∨ thread.control = .run (.register register (.node id)) := by
  induction n generalizing t thread with
  | zero =>
      obtain ⟨name, code, rfl⟩ := hstart.threads t thread ht
      simp [Thread.starting] at hguarding
  | succ n ih =>
      cases (r.ordered n).becomes (r.step n) ht with
      | @waits before ht₀ hstack hheld hready =>
          refine (ih ht₀ (hstack ▸ hguarding)).imp (fun hdone => hdone.le (Nat.le_succ n)) ?_
          intro hcontrol
          obtain ⟨name, control, stack⟩ := before
          obtain rfl : control = _ := hcontrol
          rw [hready trivial]
      | @acts before state rest turn haction ht₀ hturn heq =>
          subst heq
          rw [Thread.stack_heard] at hguarding
          rcases List.mem_append.1 hguarding with hpushed | hkept
          · have hguards : id ∈ turn.guards :=
              List.mem_filterMap.2 ⟨_, List.mem_append_left _ hpushed, rfl⟩
            have hturning := Thread.turning hturn
            obtain ⟨register', hcontrol, -, hpushed', -⟩ := hturning.guarding hguards
            rw [hpushed'] at hpushed
            obtain ⟨-, rfl⟩ := Return.guarding.inj (List.mem_singleton.1 hpushed)
            obtain ⟨name, control, stack⟩ := before
            obtain rfl : control = _ := hcontrol
            obtain ⟨-, -, rfl⟩ : _ ∧ _ ∧ _ = turn := by
              simpa [Thread.turn?] using hturn
            exact .inr rfl
          · have hbefore := (Thread.turning hturn).suffix.subset hkept
            rcases ih ht₀ hbefore with hdone | hcontrol
            · exact .inl (hdone.le (Nat.le_succ n))
            · obtain ⟨name, control, stack⟩ := before
              obtain rfl : control = _ := hcontrol
              exact .inl ⟨n, t, register, Nat.lt_succ_self n, haction, name, stack, ht₀⟩
      | @starts t₀ before state rest turn haction ht₀ hturn hborn =>
          have hguards : id ∈ turn.guards := by
            refine List.mem_filterMap.2 ⟨.guarding id register, List.mem_append_right _ ?_, rfl⟩
            simpa [hborn] using hguarding
          obtain ⟨-, -, -, -, hnone⟩ := (Thread.turning hturn).guarding hguards
          rw [hnone] at hborn
          contradiction

/-- Whoever delivers an exit to a node has the callback from the registration, or is the guard of
the registration. -/
theorem registered_of_deliver {exit : Exit (Outcome H.Data H.Fn)} {origin : Origin}
    (hhas : r.Has n (.deliver id exit origin)) : r.HasRegistered n id := by
  obtain ⟨m, t, thread, hm, hnew, haction, ht, hhands⟩ := hhas.exists_hands hstart not_false
  have hback {back : Return H} (hmem : back ∈ thread.stack)
      (hback : .deliver id exit origin ∈ back.held) : False :=
    hnew ⟨t, thread, ht, List.mem_append_right _ (List.mem_flatMap.2 ⟨_, hmem, hback⟩)⟩
  cases hhands with
  | minor hminor => exact hminor.elim
  | @task name task _ stack hhands =>
      have hdoes : r.Does m t task := ⟨haction, name, stack, ht⟩
      cases hhands with
      | minor hminor => exact hminor.elim
      | request hands => cases hands
      | deliver => exact absurd hdoes.has hnew
      | invoke => exact (h.registered_of_invoke hstart hdoes.has).le (Nat.le_of_lt hm)
  | ret hands =>
      cases hands with
      | minor hminor => exact hminor.elim
      | after => exact (hback List.mem_cons_self (List.mem_singleton_self _)).elim
  | raise hands =>
      cases hands with
      | minor hminor => exact hminor.elim
      | guarding =>
          rcases registered_of_guarding hstart ht List.mem_cons_self with hdone | hcontrol
          · exact hdone.le (Nat.le_of_lt hm)
          · contradiction

end KeepsToNodes

/-- Whether a task at time `n` hands in no work, names no node but one that has been registered by
then, and does not perform any work at another time than `k`. -/
def keepsToNode (id : HandoffId) (k n : Nat) : Task H → Bool
  | .request q => q.work?.isNone && (q.refs []).all fun
      | .handoff node => node = id ∧ k + 1 < n
      | _ => true
  | .perform _ => n = k
  | _ => true

theorem KeepsToNodes.of_check
    (hcheck : ∀ {n t} {task : Task H}, r.Does n t task → keepsToNode id k n task)
    (hregisters : r.Does (k + 1) s (.register register (.node id))) : r.KeepsToNodes where
  work hdoes hwork := by
    have hnone := hcheck hdoes
    simp [keepsToNode, hwork] at hnone
  once register id n m t t' hdoes hdoes' := by
    have hn := hcheck hdoes
    have hm := hcheck hdoes'
    simp only [keepsToNode, decide_eq_true_eq] at hn hm
    exact hn.trans hm.symm
  callback hdoes hmem _ := by
    have hq := hcheck hdoes
    simp only [keepsToNode, Bool.and_eq_true, List.all_eq_true] at hq
    obtain ⟨rfl, hlate⟩ := of_decide_eq_true (hq.2 _ hmem)
    exact ⟨k + 1, s, register, hlate, hregisters⟩

section Waiting

variable {q : Place} {stage : Stage H.Data H.Fn} {finish : Finish H.Fn}
  (hat : (r.world n).pendingAt q = some (stage, finish)) (hnode : stage.node? = some id)
include hat hnode

/-- The call of a node's registration is a deed of the interpretation that waits at the node. -/
theorem Does.deeds_of_register (hdoes : r.Does n t (.register register (.node id))) :
    (r.world n).deeds (r.action n) q = [.call (.register register)] := by
  obtain ⟨haction, name, stack, ht⟩ := hdoes
  have hshift : (r.world n).shift (r.action n) = .registered register id := by
    rw [haction, World.shift_thread ht]
    rfl
  simp [World.deeds, hshift, hat, hnode]

theorem exists_does_of_call
    (hcall : .call (.register register) ∈ (r.world n).deeds (r.action n) q) :
    ∃ t, r.Does n t (.register register (.node id)) := by
  cases (r.sound n).carries (r.step n) hat with
  | stays _ _ _ hother =>
      simp only [World.deeds] at hcall
      split at hcall
      · rename_i q' deeds o hshift
        split at hcall
        · rename_i heq
          exact absurd (heq ▸ hshift) (hother deeds o)
        · simp at hcall
      · rename_i register' id' hshift
        split at hcall
        · rename_i hnode'
          obtain rfl := by simpa using hcall
          rw [hat, Option.bind_some, hnode] at hnode'
          obtain rfl := Option.some.inj hnode'
          obtain ⟨t, name, stack, haction, ht⟩ := World.register_of_shift hshift
          exact ⟨t, haction, name, stack, ht⟩
        · simp at hcall
      · simp at hcall
  | goOn _ _ _ _ hstep hnode' => simp [hstep.deeds_of_node hnode (hnode'.trans hnode)] at hcall
  | ends _ _ _ hstep => simp [hstep.deeds_of_lost hnode] at hcall
  | suspend _ _ hdriving =>
      subst hdriving
      contradiction
  | inline _ _ _ _ hinline => simp [hinline] at hcall
  | park _ _ _ hpark => simp [hpark] at hcall
  | accept _ _ _ _ _ haccept => simp [haccept] at hcall

end Waiting

theorem hasRegistered_succ_iff (h : ∀ t register, ¬r.Does n t (.register register (.node id))) :
    r.HasRegistered (n + 1) id ↔ r.HasRegistered n id := by
  refine ⟨?_, fun hdone => hdone.le (Nat.le_succ n)⟩
  rintro ⟨m, t, register, hm, hdoes⟩
  rcases Nat.lt_succ_iff_lt_or_eq.1 hm with hlt | rfl
  · exact ⟨m, t, register, hlt, hdoes⟩
  · exact absurd hdoes (h t register)

/-- What the interpretation that is at `p` at time `b` has done at time `m` since it came to node
`id` at time `n`: it waits for the exit, and the registration has been called or is still to be
called; or it has got the exit after one call; or the submission has let it go. -/
inductive WaitsOnce (r : Run H) (b : Nat) (p : Place) (n : Nat) (register : Register H.Fn)
    (id : HandoffId) (m : Nat) : Prop where
  | uncalled {stage : Stage H.Data H.Fn} :
      r.stage b p m = some stage → stage.node? = some id → ¬r.HasRegistered (b + m) id →
        r.history b p m = r.history b p n → WaitsOnce r b p n register id m
  | called {stage : Stage H.Data H.Fn} :
      r.stage b p m = some stage → stage.node? = some id → r.HasRegistered (b + m) id →
        r.history b p m = r.history b p n ++ [.call (.register register)] →
          WaitsOnce r b p n register id m
  | exited (exit : Exit (Outcome H.Data H.Fn)) (rest : List (Deed H.Data H.Fn)) :
      r.history b p m =
          r.history b p n ++ (.call (.register register) :: .exit exit :: rest) →
        WaitsOnce r b p n register id m
  | letGo (regs : List (Register H.Fn)) :
      r.stage b p m = none → r.history b p m = r.history b p n ++ Deed.registrations regs →
        WaitsOnce r b p n register id m

section Course

variable {b : Nat} {p : Place} {x : Pending H.Data H.Fn} {stage : Stage H.Data H.Fn}
  (hp : (r.world b).pendingAt p = some x) (hstart : (r.world 0).Starting) (h : r.KeepsToNodes)
  (hcomes : r.ComesTo k s register scheduler id)
include hp hstart h hcomes

/-- In one action an interpretation that waits at a node has the registration called, if that has
not been done, or does nothing, or gets the exit, if the registration has been called. -/
theorem deeds_of_waiting (hs : r.stage b p m = some stage) (hnode : stage.node? = some id) :
    (r.deeds b p m = [.call (.register register)] ∧ ¬r.HasRegistered (b + m) id ∧
        r.HasRegistered (b + m + 1) id ∧ r.stage b p (m + 1) = some stage) ∨
      (r.deeds b p m = [] ∧ (r.HasRegistered (b + m + 1) id ↔ r.HasRegistered (b + m) id) ∧
        ∀ stage', r.stage b p (m + 1) = some stage' → stage'.node? = some id) ∨
      ∃ exit, r.deeds b p m = [.exit exit] ∧ r.HasRegistered (b + m) id := by
  obtain ⟨q, hq, hat⟩ := (r.stage_eq_some hp).1 hs
  have hdeeds : r.deeds b p m = (r.world (b + m)).deeds (r.action (b + m)) q := by
    simp [deeds, hq]
  have hgoes := (r.course hp).goes m stage hs
  change stage.Goes (r.deeds b p m) (r.stage b p (m + 1)) at hgoes
  by_cases hdoes : ∃ t register, r.Does (b + m) t (.register register (.node id))
  · obtain ⟨t, register', hdoes⟩ := hdoes
    obtain ⟨k', s', scheduler', -, hcomes'⟩ := h.comesTo_of_register hstart hdoes
    obtain ⟨-, -, rfl, -⟩ := hcomes.unique hcomes'
    have hcall := hdeeds.trans (hdoes.deeds_of_register hat hnode)
    refine .inl ⟨hcall, ?_, ⟨b + m, t, _, Nat.lt_succ_self _, hdoes⟩, ?_⟩
    · rintro ⟨j, t', register'', hj, hdoes'⟩
      obtain ⟨rfl, -⟩ := h.registers_once hstart hdoes hdoes'
      exact Nat.lt_irrefl _ hj
    · generalize r.deeds b p m = deeds at hcall hgoes
      generalize r.stage b p (m + 1) = o at hgoes
      cases hgoes with
      | rest => contradiction
      | registered => rfl
      | step hstep => cases hstep <;> first | contradiction | exact absurd hcall (by simp)
  · have hnone : ∀ t register, ¬r.Does (b + m) t (.register register (.node id)) :=
      fun t register hregister => hdoes ⟨t, register, hregister⟩
    have hsame := hasRegistered_succ_iff hnone
    generalize hnow : r.deeds b p m = deeds at hgoes
    generalize r.stage b p (m + 1) = o at hgoes ⊢
    cases hgoes with
    | rest =>
        refine .inr (.inl ⟨rfl, hsame, ?_⟩)
        rintro stage' ⟨⟩
        exact hnode
    | @registered register' =>
        have hmem : .call (.register register') ∈ (r.world (b + m)).deeds (r.action (b + m)) q := by
          rw [← hdeeds, hnow]
          exact List.mem_singleton_self _
        obtain ⟨t, hregister⟩ := exists_does_of_call hat hnode hmem
        exact absurd hregister (hnone t register')
    | step hstep =>
        have hexit {exit : Exit (Outcome H.Data H.Fn)} (hnow : r.deeds b p m = [.exit exit]) :
            r.HasRegistered (b + m) id := by
          obtain ⟨j, t, hj, origin, handoff, hoffers, -⟩ := accepts_of_exit hp hs hnode
            (show .exit exit ∈ r.deeds b p m by simp [hnow])
          have hdeliver : r.Does j t (.deliver id exit origin) := hoffers
          exact (h.registered_of_deliver hstart hdeliver.has).le hj
        cases hstep with
        | submitted => exact .inr (.inl ⟨rfl, hsame, by rintro _ ⟨⟩; exact hnode⟩)
        | lost => exact .inr (.inl ⟨rfl, hsame, by rintro _ ⟨⟩⟩)
        | @inline id' frames exit => exact .inr (.inr ⟨exit, rfl, hexit hnow⟩)
        | park => exact .inr (.inl ⟨rfl, hsame, by rintro _ ⟨⟩; exact hnode⟩)
        | @deliver id' frames exit => exact .inr (.inr ⟨exit, rfl, hexit hnow⟩)
        | _ => cases hnode

theorem waitsOnce_next (hwaits : r.WaitsOnce b p n register id m) :
    r.WaitsOnce b p n register id (m + 1) := by
  cases hwaits with
  | @uncalled stage hs hnode hyet hhistory =>
      rcases deeds_of_waiting hp hstart h hcomes hs hnode with
        ⟨hnow, -, hdone, hnext⟩ | ⟨hnow, hsame, hnext⟩ | ⟨exit, -, hdone⟩
      · exact .called hnext hnode hdone (by rw [history, hhistory, hnow])
      · cases hs' : r.stage b p (m + 1) with
        | none =>
            exact .letGo [] hs' (by rw [history, hhistory, hnow]; rfl)
        | some stage' =>
            exact .uncalled hs' (hnext _ hs') (fun hdone => hyet (hsame.1 hdone))
              (by rw [history, hhistory, hnow, List.append_nil])
      · exact absurd hdone hyet
  | @called stage hs hnode hdone hhistory =>
      rcases deeds_of_waiting hp hstart h hcomes hs hnode with
        ⟨-, hyet, -⟩ | ⟨hnow, hsame, hnext⟩ | ⟨exit, hnow, -⟩
      · exact absurd hdone hyet
      · cases hs' : r.stage b p (m + 1) with
        | none =>
            exact .letGo [register] hs'
              (by rw [history, hhistory, hnow, List.append_nil]; rfl)
        | some stage' =>
            exact .called hs' (hnext _ hs') (hsame.2 hdone)
              (by rw [history, hhistory, hnow, List.append_nil])
      · exact .exited exit [] (by rw [history, hhistory, hnow]; simp)
  | @exited exit rest hhistory =>
      exact .exited exit (rest ++ r.deeds b p m) (by rw [history, hhistory]; simp)
  | @letGo regs hs hhistory =>
      obtain ⟨hnext, hnow⟩ := (r.course hp).ended m hs
      change r.deeds b p m = [] at hnow
      exact .letGo regs hnext (by rw [history, hhistory, hnow, List.append_nil])

end Course

/-- If the interpretation has got an exit after some calls of registrations, it was one call. -/
theorem WaitsOnce.registrations_eq {b : Nat} {p : Place} {regs : List (Register H.Fn)}
    {exit : Exit (Outcome H.Data H.Fn)} (hwaits : r.WaitsOnce b p n register id m)
    (hhistory : r.history b p m = r.history b p n ++ (Deed.registrations regs ++ [.exit exit])) :
    regs = [register] := by
  cases hwaits with
  | uncalled _ _ _ hnone => simp [hnone] at hhistory
  | called _ _ _ hcall =>
      rw [hcall, List.append_cancel_left_eq] at hhistory
      cases regs <;> simp [Deed.registrations] at hhistory
  | exited exit' rest hexit =>
      rw [hexit, List.append_cancel_left_eq] at hhistory
      cases regs with
      | nil => simp [Deed.registrations] at hhistory
      | cons register' regs =>
          obtain ⟨rfl, hrest⟩ : register = register' ∧ .exit exit' :: rest =
              Deed.registrations regs ++ [.exit exit] := by
            simpa [Deed.registrations] using hhistory
          cases regs with
          | nil => rfl
          | cons register'' regs => simp [Deed.registrations] at hrest
  | letGo regs' _ hcalls =>
      rw [hcalls, List.append_cancel_left_eq] at hhistory
      have hmem : (.exit exit : Deed H.Data H.Fn) ∈ Deed.registrations regs' := by
        rw [hhistory]
        exact List.mem_append_right _ (List.mem_singleton_self _)
      simp [Deed.registrations] at hmem

section Reaching

variable {b : Nat} {p : Place} {x : Pending H.Data H.Fn} {i : Interpretation H.Data H.Fn}
  {frames frames' : List (Frame H.Data H.Fn)} (hp : (r.world b).pendingAt p = some x)
include hp

/-- An interpretation that waits for the submission of a registration has just come to the node. -/
theorem comesTo_of_submitting (hs : r.stage b p n = some (.driving i))
    (hstep : i.step = .suspend register scheduler frames)
    (hs' : r.stage b p (n + 1) = some (.submitting id frames')) :
    ∃ t, r.ComesTo (b + n) t register scheduler id := by
  obtain ⟨q, hq, hat⟩ := (r.stage_eq_some hp).1 hs
  obtain ⟨q', hq', hat'⟩ := (r.stage_eq_some hp).1 hs'
  have hplace : (r.world (b + n)).next? (r.action (b + n)) q = some q' := by
    rwa [place, hq, Option.bind_some] at hq'
  have hnow {q₁ : Place} {stage : Stage H.Data H.Fn}
      (hnext : (r.world (b + n)).next? (r.action (b + n)) q = some q₁)
      (hat₁ : (r.world (b + n + 1)).pendingAt q₁ = some (stage, x.2)) :
      stage = .submitting id frames' := by
    obtain rfl := Option.some.inj (hplace.symm.trans hnext)
    exact (Prod.mk.inj (Option.some.inj (hat₁.symm.trans hat'))).1
  cases (r.sound (b + n)).carries (r.step (b + n)) hat with
  | stays hnext hat₁ => exact absurd (hnow hnext hat₁) (by simp)
  | goOn _ _ hnext hat₁ _ hnode =>
      obtain rfl := hnow hnext hat₁
      contradiction
  | ends _ _ hnone =>
      rw [hnone] at hplace
      contradiction
  | suspend hthere haction hdriving hsuspend _ hnext hat₁ =>
      obtain rfl := Stage.driving.inj hdriving
      obtain ⟨rfl, rfl, rfl⟩ := Progress.suspend.inj (hstep.symm.trans hsuspend)
      obtain ⟨rfl, -⟩ := Stage.submitting.inj (hnow hnext hat₁)
      obtain ⟨t', name, last, stack, hplace', ht⟩ := World.driving_of_pendingAt hat
      obtain ⟨rfl, -⟩ := Place.thread.inj (hthere.symm.trans hplace')
      exact ⟨_, i, last, x.2, frames, ⟨haction, name, stack, ht⟩, hstep, rfl⟩
  | inline _ _ hleaving => contradiction
  | park _ _ hleaving => contradiction
  | accept _ _ hparked => contradiction

/-- An interpretation that has got the exit of a node has had the registration of the node called
once, and no other. -/
theorem KeepsToNodes.registrations_eq (h : r.KeepsToNodes) (hstart : (r.world 0).Starting)
    (hs : r.stage b p n = some (.driving i))
    (hstep : i.step = .suspend register scheduler frames)
    (hs' : r.stage b p (n + 1) = some (.submitting id frames')) {regs : List (Register H.Fn)}
    {exit : Exit (Outcome H.Data H.Fn)} (hhistory : r.history b p m =
      r.history b p (n + 1) ++ (Deed.registrations regs ++ [.exit exit])) : regs = [register] := by
  obtain ⟨t, hcomes⟩ := comesTo_of_submitting hp hs hstep hs'
  have hyet : ¬r.HasRegistered (b + (n + 1)) id := by
    rintro ⟨j, t', register', hj, hdoes⟩
    obtain ⟨k, s, scheduler', hk, hcomes'⟩ := h.comesTo_of_register hstart hdoes
    obtain ⟨rfl, -⟩ := hcomes.unique hcomes'
    omega
  have hwaits (d : Nat) : r.WaitsOnce b p (n + 1) register id (n + 1 + d) := by
    induction d with
    | zero => exact .uncalled hs' rfl hyet rfl
    | succ d ih => exact waitsOnce_next hp hstart h hcomes ih
  -- An exit comes later than the interpretation comes to the node.
  have hlt : n + 1 ≤ m := by
    refine Nat.le_of_not_lt fun hlt => ?_
    have hprefix : r.history b p m <+: r.history b p (n + 1) := by
      rw [← r.course_history hp, ← r.course_history hp]
      exact Course.history_mono (Nat.le_of_lt hlt)
    have hle := hprefix.length_le
    simp only [hhistory, List.length_append, List.length_singleton] at hle
    omega
  obtain ⟨d, rfl⟩ := Nat.exists_eq_add_of_le hlt
  exact (hwaits d).registrations_eq hhistory

end Reaching

end Run

end Trampoline
