import Trampoline.Proofs.Joins

/-!
The way of a node that joins a fiber to the fiber's subscribers. The thread that has come to the
node hands the registration on, from the submission to the subscription. Nobody else has it in hand,
and nobody has it in hand again once the node has subscribed: a node subscribes once, and it has
subscribed before it is parked. Only the thread that tells the node the fiber's value takes an
outcome to the node.
-/

namespace Trampoline

variable {H : Host}

/-- The node that a task is about to make a subscriber. -/
def Task.enlists? : Task H → Option HandoffId
  | .submit _ (.register _ id) => some id
  | .perform (.register _ id) => some id
  | .register _ (.node id) => some id
  | .subscribe _ subscriber =>
      match subscriber.target? with
      | some (.node id) => some id
      | _ => none
  | _ => none

/-- Whether a thread has nothing in hand that makes a node a subscriber. -/
def Thread.IsFree (id : HandoffId) (thread : Thread H) : Prop :=
  ∀ task ∈ thread.held, task.enlists? ≠ some id

section Free

variable {id : HandoffId} {heap : Heap H.Data H.Fn} {t : ThreadId}

theorem Task.IsMinor.enlists? {task : Task H} (h : task.IsMinor) : task.enlists? = none := by
  cases task <;> first | rfl | exact h.elim

/-- What makes a node a subscriber is handed on, comes from the interpretation that reaches the
node, or from a request that names it. -/
theorem Task.Hands.enlists? {task task' : Task H} (h : task.Hands heap task')
    (htask : task.enlists? ≠ some id)
    (hreaches : ∀ i last finish register scheduler frames, task = .drive i last finish →
      i.step = .suspend register scheduler frames → id ≠ heap.handoffs.size)
    (hrequest : ∀ q, task = .request q → .handoff id ∉ q.refs []) :
    task'.enlists? ≠ some id := by
  cases h with
  | minor hminor => simp [hminor.enlists?]
  | @request q _ hq =>
      have hnames := hrequest q rfl
      cases hq with
      | @observe value error fiber target =>
          cases target with
          | node id' =>
              rintro ⟨⟩
              exact hnames (by simp [Request.refs, Callback.kept])
          | user value error f => simp [Task.enlists?, Subscriber.target?]
      | @submit scheduler work =>
          cases work with
          | register r id' =>
              rintro ⟨⟩
              exact hnames (by simp [Request.refs, Work.kept])
          | _ => simp [Task.enlists?]
      | @perform work =>
          cases work with
          | register r id' =>
              rintro ⟨⟩
              exact hnames (by simp [Request.refs, Work.kept])
          | _ => simp [Task.enlists?]
      | _ => simp [Task.enlists?, Subscriber.target?]
  | @suspend i last finish register scheduler frames hstep =>
      rintro ⟨⟩
      exact hreaches i last finish register scheduler frames rfl hstep rfl
  | @submit scheduler work =>
      cases work with
      | register r id' => exact htask
      | _ => simp [Task.enlists?]
  | register => exact htask
  | @join value error fiber target =>
      cases target with
      | node id' => exact htask
      | user value error f => simp [Task.enlists?, Subscriber.target?]
  | _ => simp [Task.enlists?]

theorem Return.Hands.enlists? {back : Return H} {v : Except Payload (Value H.Data H.Fn)}
    {task : Task H} (h : back.Hands v task) (hback : ∀ task ∈ back.held, task.enlists? ≠ some id) :
    task.enlists? ≠ some id := by
  cases h with
  | minor hminor => simp [hminor.enlists?]
  | after => exact hback task (by simp [Return.held])
  | _ => simp [Task.enlists?]

/-- A free thread brings nothing that makes the node a subscriber, unless it comes to the node. -/
theorem Thread.IsFree.turn {thread : Thread H} {state state' : H.State} {rest : List (Return H)}
    {turn : Turn H} (h : thread.IsFree id)
    (hturn : thread.turn? t heap state = some (state', rest, turn))
    (hreaches : ∀ i last finish register scheduler frames,
      thread.control = .run (.drive i last finish) →
        i.step = .suspend register scheduler frames → id ≠ heap.handoffs.size)
    (hrequest : ∀ q, thread.control = .run (.request q) → .handoff id ∉ q.refs []) :
    (∀ task ∈ turn.held, task.enlists? ≠ some id) ∧
      ∀ task ∈ rest.flatMap Return.held, task.enlists? ≠ some id := by
  cases Thread.turning hturn with
  | move =>
      refine ⟨fun task hmem => by simp [(Move.turn_hands _ hmem).enlists?], fun task hmem => ?_⟩
      exact h task (List.mem_append_right _ hmem)
  | @task name task stack huser =>
      refine ⟨fun task' hmem => ?_, fun task' hmem => h task' (List.mem_append_right _ hmem)⟩
      have hheld := h task (by simp [Thread.held, Control.held])
      refine (Task.turn_hands task task' hmem).enlists? hheld ?_ ?_
      · rintro i last finish register scheduler frames rfl
        exact hreaches i last finish register scheduler frames rfl
      · rintro q rfl
        exact hrequest q rfl
  | @ret name v back below =>
      refine ⟨fun task hmem => (back.resume_hands v hmem).enlists? fun task' hmem' =>
        h task' ?_, fun task hmem => h task ?_⟩
      · exact List.mem_append_right _ (List.mem_flatMap.2 ⟨back, by simp, hmem'⟩)
      · exact List.mem_append_right _ (by simp [hmem])
  | @raise name payload back below =>
      refine ⟨fun task hmem => (back.unwind_hands payload hmem).enlists? fun task' hmem' =>
        h task' ?_, fun task hmem => h task ?_⟩
      · exact List.mem_append_right _ (List.mem_flatMap.2 ⟨back, by simp, hmem'⟩)
      · exact List.mem_append_right _ (by simp [hmem])

theorem Thread.IsFree.of_held {thread thread' : Thread H} (h : thread.IsFree id)
    (hstack : thread'.stack = thread.stack)
    (hheld : ∀ task ∈ thread'.control.held, task ∈ thread.control.held) : thread'.IsFree id := by
  intro task hmem
  refine h task ?_
  rcases List.mem_append.1 hmem with hmem | hmem
  · exact List.mem_append_left _ (hheld task hmem)
  · exact List.mem_append_right _ (hstack ▸ hmem)

end Free

/-- The node to which a task is about to take an outcome. -/
def Task.summons? : Task H → Option HandoffId
  | .tell subscriber _ =>
      match subscriber.target? with
      | some (.node id) => some id
      | _ => none
  | .invoke (.node id) _ => some id
  | .deliver id (.settled _) _ => some id
  | _ => none

section Summons

variable {id : HandoffId}

theorem Task.IsMinor.summons? {task : Task H} (h : task.IsMinor) : task.summons? = none := by
  cases task <;> first | rfl | exact h.elim

theorem Return.Hands.summons? {back : Return H} {v : Except Payload (Value H.Data H.Fn)}
    {task : Task H} (h : back.Hands v task) (htask : task.summons? = some id) :
    task ∈ back.held := by
  cases h with
  | minor hminor => simp [hminor.summons?] at htask
  | after => simp [Return.held]
  | _ => simp [Task.summons?] at htask

/-- What a thread has in hand after a turn it had before, or it comes to have it by the turn. -/
theorem Thread.Turning.held_cases {thread : Thread H} {t : ThreadId} {heap : Heap H.Data H.Fn}
    {state state' : H.State} {rest : List (Return H)} {turn : Turn H}
    (h : thread.Turning t heap state state' rest turn) {task : Task H}
    (hmem : task ∈
      (Thread.heard turn.notified ⟨thread.name, turn.control, turn.pushed ++ rest⟩).held) :
    task ∈ thread.held ∨ thread.Hands heap task := by
  have hheld := Thread.mem_held_of_heard hmem
  simp only [held, List.flatMap_append, List.mem_append] at hheld ⊢
  have hbrought (h : task ∈ turn.control.held ∨ task ∈ turn.pushed.flatMap Return.held) :
      task ∈ turn.held := by
    simpa only [Turn.held, List.mem_append, or_assoc] using Or.inl h
  rw [← or_assoc] at hheld
  cases h with
  | move => exact hheld.symm.imp .inr fun h => .minor (Move.turn_hands _ (hbrought h))
  | task => exact hheld.symm.imp .inr fun h => .task (Task.turn_hands _ task (hbrought h))
  | @ret name v back below =>
      refine hheld.symm.imp (fun h => .inr ?_) fun h => .ret (back.resume_hands v (hbrought h))
      simp only [List.flatMap_cons, List.mem_append, h, or_true]
  | @raise name payload back below =>
      refine hheld.symm.imp (fun h => .inr ?_) fun h =>
        .raise (back.unwind_hands payload (hbrought h))
      simp only [List.flatMap_cons, List.mem_append, h, or_true]

theorem Thread.Turning.born_summons {thread thread' : Thread H} {t : ThreadId}
    {heap : Heap H.Data H.Fn} {state state' : H.State} {rest : List (Return H)} {turn : Turn H}
    (h : thread.Turning t heap state state' rest turn) (hborn : turn.born = some thread')
    {task : Task H} (hmem : task ∈ thread'.held) : task.summons? = none := by
  rcases h.born_cases hborn with ⟨name, f, rfl⟩ | ⟨_, _, _, _, _, -, rfl, -⟩
  · obtain rfl : task = .call f [] := by simpa [starting, held, Control.held] using hmem
    rfl
  · obtain rfl : task = .perform _ := by
      simpa [starting, held, Control.held, Return.held] using hmem
    rfl

end Summons

/-- How far a thread is that makes a node a subscriber: what it is about to do, and above which
returns. -/
inductive Enlisting (value error : Ty) (fiber : PromiseId) (id : HandoffId) :
    Control H → List (Return H) → Prop where
  | submit :
      Enlisting value error fiber id
        (.run (.submit immediateId (.register (.join value error fiber) id))) []
  | perform :
      Enlisting value error fiber id
        (.run (.perform (.register (.join value error fiber) id))) [.guarded immediateId]
  | register :
      Enlisting value error fiber id (.run (.register (.join value error fiber) (.node id)))
        [.guarding id (.join value error fiber), .guarded immediateId]
  | subscribe :
      Enlisting value error fiber id (.run (.subscribe fiber (.join value error (.node id))))
        [.guarding id (.join value error fiber), .guarded immediateId]

/-- A thread that makes a node a subscriber, while the interpretation that has come to the node
waits below. -/
def Thread.IsEnlisting (value error : Ty) (fiber : PromiseId) (id : HandoffId) (thread : Thread H) :
    Prop :=
  ∃ name control above frames last finish below,
    thread = ⟨name, control, above ++ .after (.park id frames last finish) :: below⟩ ∧
      Enlisting value error fiber id control above ∧
        ∀ task ∈ below.flatMap Return.held, task.enlists? ≠ some id

/-- A thread that makes a node a subscriber starts no other one. -/
theorem Thread.IsEnlisting.born {value error : Ty} {fiber : PromiseId} {id : HandoffId}
    {thread : Thread H} (h : thread.IsEnlisting value error fiber id) {t : ThreadId}
    {heap : Heap H.Data H.Fn} {state state' : H.State} {rest : List (Return H)} {turn : Turn H}
    (himmediate : heap.schedulers[immediateId]? = some .immediate)
    (hturn : thread.turn? t heap state = some (state', rest, turn)) : turn.born = none := by
  obtain ⟨name, control, above, frames, last, finish, below, rfl, henlisting, -⟩ := h
  cases henlisting with
  | submit =>
      simp only [Thread.turn?, Task.turn, Task.submitTurn, himmediate, Option.some.injEq,
        Prod.mk.injEq] at hturn
      obtain ⟨-, -, rfl⟩ := hturn
      rfl
  | perform =>
      simp only [Thread.turn?, Option.some.injEq, Prod.mk.injEq] at hturn
      obtain ⟨-, -, rfl⟩ := hturn
      rfl
  | register =>
      simp only [Thread.turn?, Option.some.injEq, Prod.mk.injEq] at hturn
      obtain ⟨-, -, rfl⟩ := hturn
      rfl
  | subscribe =>
      simp only [Thread.turn?, Option.some.injEq, Prod.mk.injEq] at hturn
      obtain ⟨-, -, rfl⟩ := hturn
      simp only [Task.turn]
      split
      · rfl
      · split <;> rfl

namespace Run

variable {r : Run H} {k n m : Nat} {s t t' : ThreadId} {value error : Ty} {fiber : PromiseId}
  {id : HandoffId}

/-- The node subscribes to the fiber that it joins. -/
def Enlists (r : Run H) (value error : Ty) (fiber : PromiseId) (id : HandoffId) (n : Nat)
    (t : ThreadId) : Prop :=
  r.Does n t (.subscribe fiber (.join value error (.node id)))

/-- How far a node is with its subscription at time `n`, if thread `s` comes to it at time `k`. -/
inductive EnlistedBy (r : Run H) (value error : Ty) (fiber : PromiseId) (id : HandoffId) (k : Nat)
    (s : ThreadId) (n : Nat) : Prop where
  | unreached :
      n ≤ k → (∀ (t : ThreadId) (thread : Thread H), (r.world n).threads[t]? = some thread →
        thread.IsFree id) → EnlistedBy r value error fiber id k s n
  | underWay {thread : Thread H} :
      k < n → (r.world n).threads[s]? = some thread → thread.IsEnlisting value error fiber id →
        (∀ (t : ThreadId) (thread : Thread H), t ≠ s → (r.world n).threads[t]? = some thread →
          thread.IsFree id) →
          (∀ m t, m < n → ¬r.Enlists value error fiber id m t) →
            EnlistedBy r value error fiber id k s n
  | enlisted {m : Nat} :
      k < m → m < n → r.Enlists value error fiber id m s →
        (∀ m' t, m' < n → r.Enlists value error fiber id m' t → m' = m) →
          (∀ (t : ThreadId) (thread : Thread H), (r.world n).threads[t]? = some thread →
            thread.IsFree id) → EnlistedBy r value error fiber id k s n

variable (hhides : r.Hides (.handoff id))

include hhides in
/-- A free thread stays free and starts none that is not, unless it comes to the node. -/
theorem isFree_of_turn {thread : Thread H} {state : H.State} {rest : List (Return H)}
    {turn : Turn H} (haction : r.action n = .thread t)
    (ht : (r.world n).threads[t]? = some thread) (hfree : thread.IsFree id)
    (hcome : ¬∃ register scheduler, r.ComesTo n t register scheduler id)
    (hturn : thread.turn? t (r.world n).heap (r.world n).state = some (state, rest, turn)) :
    Thread.IsFree id
        (Thread.heard turn.notified ⟨thread.name, turn.control, turn.pushed ++ rest⟩) ∧
      ∀ thread', turn.born = some thread' → thread'.IsFree id := by
  obtain ⟨name, control, stack⟩ := thread
  obtain ⟨hheld, hrest⟩ := hfree.turn hturn
    (by
      rintro i last finish register scheduler frames hcontrol hstep rfl
      obtain rfl : control = _ := hcontrol
      exact hcome
        ⟨register, scheduler, i, last, finish, frames, ⟨haction, name, stack, ht⟩, hstep, rfl⟩)
    (by
      rintro q hcontrol
      obtain rfl : control = _ := hcontrol
      exact hhides n t q ⟨haction, name, stack, ht⟩)
  refine ⟨fun task hmem => ?_, fun thread' hborn task hmem => hheld task ?_⟩
  · have hmem := Thread.mem_held_of_heard hmem
    simp only [Thread.held, List.flatMap_append, List.mem_append] at hmem
    rcases hmem with hmem | hmem | hmem
    · exact hheld task (by simp [Turn.held, hmem])
    · exact hheld task (by simp only [Turn.held, List.mem_append, hmem, or_true, true_or])
    · exact hrest task hmem
  · simp [Turn.held, hborn, hmem]

/-- A thread that makes the node a subscriber goes on with that, or subscribes and is free then. -/
theorem isEnlisting_next {thread : Thread H} (ht : (r.world n).threads[t]? = some thread)
    (h : thread.IsEnlisting value error fiber id)
    (himmediate : (r.world n).heap.schedulers[immediateId]? = some .immediate) :
    ∃ thread', (r.world (n + 1)).threads[t]? = some thread' ∧
      (thread'.IsEnlisting value error fiber id ∧ ¬r.Enlists value error fiber id n t ∨
        r.Enlists value error fiber id n t ∧ thread'.IsFree id) := by
  obtain ⟨name, control, above, frames, last, finish, below, rfl, henlisting, hbelow⟩ := h
  have hidle (haction : r.action n ≠ .thread t) : ¬r.Enlists value error fiber id n t :=
    fun hdoes => haction hdoes.1
  have hother {task : Task H} {stack : List (Return H)}
      (ht : (r.world n).threads[t]? = some ⟨name, .run task, stack⟩)
      (htask : task ≠ .subscribe fiber (.join value error (.node id))) :
      ¬r.Enlists value error fiber id n t := by
    rintro ⟨-, name', stack', ht'⟩
    cases ht.symm.trans ht'
    exact htask rfl
  cases henlisting with
  | submit =>
      rcases next_of_turn ht rfl with ⟨haction, hsame⟩ | ⟨-, -, hnext⟩
      · exact ⟨_, hsame, .inl ⟨⟨_, _, _, _, _, _, _, rfl, .submit, hbelow⟩, hidle haction⟩⟩
      · simp only [Task.turn, Task.submitTurn, himmediate] at hnext
        exact ⟨_, hnext, .inl ⟨⟨_, _, _, _, _, _, _, rfl, .perform, hbelow⟩, hother ht (by simp)⟩⟩
  | perform =>
      rcases next_of_turn ht rfl with ⟨haction, hsame⟩ | ⟨-, -, hnext⟩
      · exact ⟨_, hsame, .inl ⟨⟨_, _, _, _, _, _, _, rfl, .perform, hbelow⟩, hidle haction⟩⟩
      · exact ⟨_, hnext, .inl ⟨⟨_, _, _, _, _, _, _, rfl, .register, hbelow⟩, hother ht (by simp)⟩⟩
  | register =>
      rcases next_of_turn ht rfl with ⟨haction, hsame⟩ | ⟨-, -, hnext⟩
      · exact ⟨_, hsame, .inl ⟨⟨_, _, _, _, _, _, _, rfl, .register, hbelow⟩, hidle haction⟩⟩
      · exact ⟨_, hnext, .inl ⟨⟨_, _, _, _, _, _, _, rfl, .subscribe, hbelow⟩, hother ht (by simp)⟩⟩
  | subscribe =>
      rcases next_of_turn ht rfl with ⟨haction, hsame⟩ | ⟨haction, -, hnext⟩
      · exact ⟨_, hsame, .inl ⟨⟨_, _, _, _, _, _, _, rfl, .subscribe, hbelow⟩, hidle haction⟩⟩
      · have hbrings {task : Task H} (hmem : task ∈ (Task.turn ⟨t, name⟩
            ([.guarding id (.join value error fiber), .guarded immediateId] ++
              .after (.park id frames last finish) :: below) (r.world n).heap
            (.subscribe fiber (.join value error (.node id)))).held) :
            task.enlists? ≠ some id := by
          cases Task.turn_hands _ task hmem with
          | minor hminor => simp [hminor.enlists?]
          | subscribe => simp [Task.enlists?]
        refine ⟨_, hnext, .inr ⟨⟨haction, _, _, ht⟩, fun task hmem => ?_⟩⟩
        have hmem := Thread.mem_held_of_heard hmem
        simp only [Thread.held, List.flatMap_append, List.mem_append] at hmem
        rcases hmem with hmem | hmem | hmem
        · exact hbrings (by simp only [Turn.held, List.mem_append, hmem, true_or])
        · exact hbrings (by simp only [Turn.held, List.mem_append, hmem, or_true, true_or])
        · rcases hmem with hmem | hmem
          · simp [Return.held] at hmem
          · simp only [List.flatMap_cons, Return.held, List.singleton_append, List.mem_cons] at hmem
            rcases hmem with rfl | hmem
            · simp [Task.enlists?]
            · exact hbelow task hmem

section Enlisted

variable (hstart : (r.world 0).Starting)
  (himmediate : (r.world 0).heap.schedulers[immediateId]? = some .immediate)
  (hcomes : r.ComesTo k s (.join value error fiber) immediateId id)

include hstart hhides hcomes in
theorem Enlists.lt (h : r.Enlists value error fiber id n t) : k < n := by
  obtain ⟨m, t', task, hmn, hdoes, hhands⟩ := Does.has h |>.exists_does hstart trivial
  cases hhands with
  | minor hminor => exact hminor.elim
  | request hq => cases hq
  | join => exact Nat.lt_trans (registered_eq hstart hhides hcomes hdoes.has).1 hmn

include hhides himmediate in
/-- A thread is free if the one it was is free, unless the thread comes to the node. -/
theorem isFree_next {thread' : Thread H}
    (hall : ∀ (t : ThreadId) (thread : Thread H), (r.world n).threads[t]? = some thread →
      thread.IsFree id ∨ thread.IsEnlisting value error fiber id)
    (hwas : ∀ thread, (r.world n).threads[t]? = some thread → thread.IsFree id)
    (hcome : ¬∃ register scheduler, r.ComesTo n t register scheduler id)
    (ht' : (r.world (n + 1)).threads[t]? = some thread') : thread'.IsFree id := by
  cases (r.ordered n).becomes (r.step n) ht' with
  | waits ht hstack hheld => exact .of_held (hwas _ ht) hstack hheld
  | acts haction ht hturn hthread =>
      rw [hthread]
      exact (isFree_of_turn hhides haction ht (hwas _ ht) hcome hturn).1
  | @starts t₀ thread₀ state rest turn haction ht hturn hborn hnone =>
      rcases hall t₀ thread₀ ht with hfree | henlisting
      · by_cases hcome : ∃ register scheduler, r.ComesTo n t₀ register scheduler id
        · obtain ⟨register, scheduler, hcome⟩ := hcome
          obtain ⟨heap, frames, last, finish, hturn'⟩ := hcome.turn ht
          obtain ⟨-, -, rfl⟩ := by
            simpa only [hturn', Option.some.injEq, Prod.mk.injEq] using hturn
          contradiction
        · exact (isFree_of_turn hhides haction ht hfree hcome hturn).2 _ hborn
      · rw [henlisting.born (immediate himmediate n) hturn] at hborn
        contradiction

theorem Enlists.not_isFree (h : r.Enlists value error fiber id n t) :
    ∃ thread, (r.world n).threads[t]? = some thread ∧ ¬thread.IsFree id := by
  obtain ⟨-, name, stack, ht⟩ := h
  exact ⟨_, ht, fun hfree => hfree (.subscribe fiber (.join value error (.node id)))
    (by simp [Thread.held, Control.held]) rfl⟩

include hhides himmediate hcomes

include hstart in
/-- The thread makes the node a subscriber when it has come to it. -/
theorem EnlistedBy.after_unreached (hnk : n ≤ k)
    (hfree : ∀ (t : ThreadId) (thread : Thread H), (r.world n).threads[t]? = some thread →
      thread.IsFree id) : r.EnlistedBy value error fiber id k s (n + 1) := by
  have hall (t : ThreadId) (thread : Thread H)
      (ht : (r.world n).threads[t]? = some thread) :
      thread.IsFree id ∨ thread.IsEnlisting value error fiber id :=
    .inl (hfree t thread ht)
  rcases Nat.eq_or_lt_of_le hnk with heq | hlt
  · subst heq
    have hcomes' := hcomes
    obtain ⟨_, _, _, _, ⟨haction, name, stack, ht⟩, -⟩ := hcomes'
    obtain ⟨heap, frames, last, finish, hturn⟩ := hcomes.turn ht
    refine .underWay (Nat.lt_succ_self n) (next_of_action haction ht hturn).2
      ⟨name, _, [], frames, last, finish, stack, rfl, .submit, fun task hmem => ?_⟩
      (fun t thread hts => ?_) fun m t hm henlists => ?_
    · exact hfree s _ ht task (List.mem_append_right _ hmem)
    · refine isFree_next hhides himmediate hall (hfree t) ?_
      rintro ⟨register, scheduler, hcome⟩
      exact hts (hcome.unique hcomes).2.1
    · exact Nat.not_lt_of_le (Nat.le_of_lt_succ hm)
        (henlists.lt hhides hstart hcomes)
  · refine .unreached hlt fun t thread => isFree_next hhides himmediate hall (hfree t) ?_
    rintro ⟨register, scheduler, hcome⟩
    exact Nat.ne_of_lt hlt (hcome.unique hcomes).1

/-- It goes on with that, or the node has subscribed. -/
theorem EnlistedBy.after_underWay {thread : Thread H} (hkn : k < n)
    (ht : (r.world n).threads[s]? = some thread)
    (henlisting : thread.IsEnlisting value error fiber id)
    (hfree : ∀ (t : ThreadId) (thread : Thread H), t ≠ s → (r.world n).threads[t]? = some thread →
      thread.IsFree id)
    (hnone : ∀ m t, m < n → ¬r.Enlists value error fiber id m t) :
    r.EnlistedBy value error fiber id k s (n + 1) := by
  have hall (t : ThreadId) (thread : Thread H)
      (ht' : (r.world n).threads[t]? = some thread) :
      thread.IsFree id ∨ thread.IsEnlisting value error fiber id := by
    by_cases hts : t = s
    · subst hts
      obtain rfl := Option.some.inj (ht.symm.trans ht')
      exact .inr henlisting
    · exact .inl (hfree t thread hts ht')
  have hothers (t : ThreadId) (thread : Thread H) (hts : t ≠ s) :
      (r.world (n + 1)).threads[t]? = some thread → thread.IsFree id := by
    refine isFree_next hhides himmediate hall (hfree t · hts) ?_
    rintro ⟨register, scheduler, hcome⟩
    exact hts (hcome.unique hcomes).2.1
  have hby {m : Nat} {t : ThreadId} (hm : m < n + 1)
      (henlists : r.Enlists value error fiber id m t) : m = n ∧ t = s := by
    rcases Nat.lt_succ_iff_lt_or_eq.1 hm with hlt | rfl
    · exact absurd henlists (hnone m t hlt)
    · obtain ⟨thread, ht, hnot⟩ := henlists.not_isFree
      exact ⟨rfl, Decidable.by_contra fun hts => hnot (hfree t thread hts ht)⟩
  obtain ⟨thread', ht', ⟨henlisting', hidle⟩ | ⟨henlists, hfree'⟩⟩ :=
    isEnlisting_next ht henlisting (immediate himmediate n)
  · refine .underWay (Nat.lt_succ_of_lt hkn) ht' henlisting' hothers
      fun m t hm henlists => ?_
    obtain ⟨rfl, rfl⟩ := hby hm henlists
    exact hidle henlists
  · refine .enlisted hkn (Nat.lt_succ_self n) henlists (fun m t hm h => (hby hm h).1)
      fun t thread'' ht'' => ?_
    by_cases hts : t = s
    · subst hts
      obtain rfl := Option.some.inj (ht'.symm.trans ht'')
      exact hfree'
    · exact hothers t thread'' hts ht''

/-- No thread makes the node a subscriber again. -/
theorem EnlistedBy.after_enlisted (hkm : k < m) (hmn : m < n)
    (henlists : r.Enlists value error fiber id m s)
    (hunique : ∀ m' t, m' < n → r.Enlists value error fiber id m' t → m' = m)
    (hfree : ∀ (t : ThreadId) (thread : Thread H), (r.world n).threads[t]? = some thread →
      thread.IsFree id) : r.EnlistedBy value error fiber id k s (n + 1) := by
  refine .enlisted hkm (Nat.lt_succ_of_lt hmn) henlists (fun m' t hm' h => ?_)
    fun t thread => ?_
  · rcases Nat.lt_succ_iff_lt_or_eq.1 hm' with hlt | rfl
    · exact hunique m' t hlt h
    · obtain ⟨thread, ht, hnot⟩ := h.not_isFree
      exact absurd (hfree t thread ht) hnot
  · have hall (t : ThreadId) (thread : Thread H)
        (ht : (r.world n).threads[t]? = some thread) :
        thread.IsFree id ∨ thread.IsEnlisting value error fiber id :=
      .inl (hfree t thread ht)
    refine isFree_next hhides himmediate hall (hfree t) ?_
    rintro ⟨register, scheduler, hcome⟩
    exact Nat.ne_of_gt (Nat.lt_trans hkm hmn) (hcome.unique hcomes).1

include hstart

/-- A node is not reached yet, or its thread makes it a subscriber, or it has subscribed. -/
theorem enlistedBy (n : Nat) : r.EnlistedBy value error fiber id k s n := by
  induction n with
  | zero =>
      refine .unreached (Nat.zero_le k) fun t thread ht task hmem => ?_
      obtain ⟨name, code, rfl⟩ := hstart.threads t thread ht
      simp only [Thread.starting, Thread.held, Control.held, List.flatMap_nil, List.append_nil,
        List.mem_singleton] at hmem
      simp [hmem, Task.enlists?]
  | succ n ih =>
      cases ih with
      | unreached hnk hfree => exact .after_unreached hhides hstart himmediate hcomes hnk hfree
      | underWay hkn ht henlisting hfree hnone =>
          exact .after_underWay hhides himmediate hcomes hkn ht henlisting hfree hnone
      | enlisted hkm hmn henlists hunique hfree =>
          exact .after_enlisted hhides himmediate hcomes hkm hmn henlists hunique hfree

/-- A node subscribes once. -/
theorem Enlists.unique (h : r.Enlists value error fiber id n t)
    (h' : r.Enlists value error fiber id m t') : n = m ∧ t = t' := by
  have hsame : n = m := by
    cases enlistedBy hhides hstart himmediate hcomes (max n m + 1) with
    | unreached hle =>
        have hlt := h.lt hhides hstart hcomes
        omega
    | underWay _ _ _ _ hnone => exact absurd h (hnone n t (by omega))
    | enlisted _ _ _ hunique =>
        exact (hunique n t (by omega) h).trans (hunique m t' (by omega) h').symm
  subst hsame
  exact ⟨rfl, (Does.unique h h').1⟩

/-- A node that has been parked has subscribed before. -/
theorem exists_enlists_of_parked {x : Pending H.Data H.Fn}
    (h : (r.world n).pendingAt (.handoff id) = some x) :
    ∃ m, k < m ∧ m < n ∧ r.Enlists value error fiber id m s := by
  obtain ⟨handoff, hhandoff, hparked⟩ := Option.bind_eq_some_iff.1 h
  cases enlistedBy hhides hstart himmediate hcomes n with
  | unreached hle =>
      obtain ⟨-, -, -, -, -, -, rfl⟩ := hcomes
      obtain ⟨hlt, -⟩ := Array.getElem?_eq_some_iff.1 hhandoff
      exact absurd hlt (Nat.not_lt_of_le (handoffs_size_le hle))
  | underWay _ ht henlisting =>
      obtain ⟨name, control, above, frames, last, finish, below, rfl, -⟩ := henlisting
      obtain ⟨phase, hphase, hbefore⟩ := handoff_of_submitting ht
      obtain rfl := Option.some.inj (hhandoff.symm.trans hphase)
      rcases hbefore with rfl | ⟨exit, rfl⟩ <;> contradiction
  | enlisted hkm hmn henlists => exact ⟨_, hkm, hmn, henlists⟩

omit himmediate in
/-- A node is told a value in answer to its subscription. -/
theorem Tells.of_node {promise : PromiseId} {subscriber : Subscriber H.Fn} {v : Value H.Data H.Fn}
    (h : r.Tells promise n t subscriber v) (htarget : subscriber.target? = some (.node id)) :
    promise = fiber ∧ subscriber = .join value error (.node id) ∧ ∃ j s',
      r.Serves fiber j subscriber n t v ∧ r.Enlists value error fiber id j s' := by
  obtain ⟨-, j, hserves⟩ := h.serves hstart
  obtain ⟨s', hsubscribes⟩ : ∃ s', r.Subscribes promise j s' subscriber := by
    cases hserves with
    | onTheSpot hsubscribes => exact ⟨_, hsubscribes⟩
    | later hsubscribes => exact ⟨_, hsubscribes⟩
  obtain ⟨value', error', hjoin, rfl⟩ :=
    subscriber_eq hstart hhides hcomes hsubscribes.1.has htarget
  obtain ⟨rfl, rfl, rfl⟩ := Register.join.inj hjoin
  exact ⟨rfl, rfl, j, s', hserves, hsubscribes.1⟩

/-- A node is told a value once. -/
theorem Tells.summons_once {promise promise' : PromiseId} {subscriber subscriber' : Subscriber H.Fn}
    {v v' : Value H.Data H.Fn} (h : r.Tells promise n t subscriber v)
    (htarget : subscriber.target? = some (.node id)) (h' : r.Tells promise' m t' subscriber' v')
    (htarget' : subscriber'.target? = some (.node id)) : n = m ∧ t = t' := by
  obtain ⟨rfl, rfl, j, s₁, hserves, henlists⟩ := h.of_node hhides hstart hcomes htarget
  obtain ⟨rfl, rfl, j', s₂, hserves', henlists'⟩ := h'.of_node hhides hstart hcomes htarget'
  obtain ⟨rfl, -⟩ := henlists.unique hhides hstart himmediate hcomes henlists'
  obtain ⟨hnm, -, htt, -⟩ := hserves.once hserves'
  exact ⟨hnm, htt⟩

omit himmediate in
/-- What takes an outcome to the node has been handed on, or comes from the call that tells the node
its value. -/
theorem Does.summons {task task' : Task H} (h : r.Does n t task)
    (hhands : task.Hands (r.world n).heap task') (htask' : task'.summons? = some id) :
    task.summons? = some id ∨ ∃ promise subscriber v, r.Tells promise n t subscriber v ∧
      subscriber.target? = some (.node id) := by
  have hnode {subscriber : Subscriber H.Fn} {v : Value H.Data H.Fn}
      (htask : (Task.tell (H := H) subscriber v).summons? = some id) :
      subscriber.target? = some (.node id) := by
    simp only [Task.summons?] at htask
    split at htask
    · rename_i heq
      rw [heq, Option.some.inj htask]
    · contradiction
  cases hhands with
  | minor hminor => simp [hminor.summons?] at htask'
  | request hq =>
      cases hq with
      | @complete target outcome =>
          cases target with
          | node id' =>
              obtain rfl := Option.some.inj htask'
              exact absurd (by simp [Request.refs, Callback.kept]) (hhides n t _ h)
          | user => contradiction
      | _ => contradiction
  | @callback exit value' error' target outcome hrestore =>
      cases target with
      | node id' =>
          obtain rfl := Option.some.inj htask'
          obtain ⟨-, name, stack, ht⟩ := h
          exact absurd (World.pendingAt_run ht) (finish_ne_callback hstart hhides)
      | user => contradiction
  | @sleep nanoseconds target =>
      cases target with
      | node id' =>
          obtain rfl := Option.some.inj htask'
          obtain ⟨-, heq⟩ := registered_eq hstart hhides hcomes h.has
          contradiction
      | user => contradiction
  | deliver => exact .inl htask'
  | invoke => exact .inl htask'
  | tell => exact .inr ⟨_, _, _, .kept h, hnode htask'⟩
  | @joined value' error' target v =>
      cases target with
      | node id' => exact .inl htask'
      | user => contradiction
  | @observed value' error' value'' error'' target s hread =>
      cases target with
      | node id' => exact .inl htask'
      | user => contradiction
  | subscribe hpromised => exact .inr ⟨_, _, _, .late h hpromised, hnode htask'⟩
  | _ => contradiction

omit himmediate in
/-- A thread that takes an outcome to the node has told the node a value before. -/
theorem exists_tells_of_held {thread : Thread H} {task : Task H}
    (ht : (r.world n).threads[t]? = some thread) (hmem : task ∈ thread.held)
    (htask : task.summons? = some id) :
    ∃ m promise subscriber v, m < n ∧ r.Tells promise m t subscriber v ∧
      subscriber.target? = some (.node id) := by
  induction n generalizing t thread task with
  | zero =>
      obtain ⟨name, code, rfl⟩ := hstart.threads t thread ht
      obtain rfl : task = .user code .start := by
        simpa [Thread.starting, Thread.held, Control.held] using hmem
      contradiction
  | succ n ih =>
      have hlater {thread : Thread H} {task : Task H} (ht : (r.world n).threads[t]? = some thread)
          (hmem : task ∈ thread.held) (htask : task.summons? = some id) :
          ∃ m promise subscriber v, m < n + 1 ∧ r.Tells promise m t subscriber v ∧
            subscriber.target? = some (.node id) := by
        obtain ⟨m, promise, subscriber, v, hmn, htells⟩ := ih ht hmem htask
        exact ⟨m, promise, subscriber, v, Nat.lt_succ_of_lt hmn, htells⟩
      cases (r.ordered n).becomes (r.step n) ht with
      | waits ht₀ hstack hheld =>
          refine hlater ht₀ ?_ htask
          rcases List.mem_append.1 hmem with hmem | hmem
          · exact List.mem_append_left _ (hheld task hmem)
          · exact List.mem_append_right _ (hstack ▸ hmem)
      | @acts thread₀ state rest turn haction ht₀ hturn hthread =>
          rw [hthread] at hmem
          rcases (Thread.turning hturn).held_cases hmem with hheld | hhands
          · exact hlater ht₀ hheld htask
          · cases hhands with
            | minor hminor => simp [hminor.summons?] at htask
            | @task name task' _ stack hhands =>
                have hdoes : r.Does n t task' := ⟨haction, name, stack, ht₀⟩
                rcases hdoes.summons hhides hstart hcomes hhands htask with
                  hsummons | ⟨promise, subscriber, v, htells⟩
                · have hmem' : task' ∈ Thread.held ⟨name, .run task', stack⟩ :=
                    List.mem_append_left _ (List.mem_singleton_self task')
                  exact hlater ht₀ hmem' hsummons
                · exact ⟨n, promise, subscriber, v, Nat.lt_succ_self n, htells⟩
            | @ret name v' back below _ hhands =>
                have hmem' : task ∈ Thread.held ⟨name, .ret v', back :: below⟩ :=
                  List.mem_append_right _
                    (List.mem_flatMap.2 ⟨back, List.mem_cons_self, hhands.summons? htask⟩)
                exact hlater ht₀ hmem' htask
            | @raise name payload back below _ hhands =>
                have hmem' : task ∈ Thread.held ⟨name, .raise payload, back :: below⟩ :=
                  List.mem_append_right _
                    (List.mem_flatMap.2 ⟨back, List.mem_cons_self, hhands.summons? htask⟩)
                exact hlater ht₀ hmem' htask
      | starts haction ht₀ hturn hborn =>
          simp [(Thread.turning hturn).born_summons hborn hmem] at htask

/-- Who offers the node an exit that is accepted has told the node a value before. -/
theorem Accepts.exists_tells {exit : Exit (Outcome H.Data H.Fn)} (h : r.Accepts n t id exit) :
    ∃ m promise subscriber v, m < n ∧ r.Tells promise m t subscriber v ∧
      subscriber.target? = some (.node id) := by
  obtain ⟨v, rfl, -⟩ := accepts_eq_promised hstart himmediate hhides hcomes h
  obtain ⟨origin, handoff, ⟨-, name, stack, ht⟩, -⟩ := h
  have hmem : .deliver id (.settled (.ok v)) origin ∈
      Thread.held ⟨name, .run (.deliver id (.settled (.ok v)) origin), stack⟩ :=
    List.mem_append_left _ (List.mem_singleton_self _)
  exact exists_tells_of_held hhides hstart hcomes ht hmem rfl

end Enlisted

end Run

end Trampoline
