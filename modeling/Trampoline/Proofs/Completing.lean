import Trampoline.Proofs.Origins

/-!
The completion of a promise. Once its value is written, one thread has the rest of the completion in
hand: first it takes the subscribers, then it tells each of them. Whoever subscribes is kept until
the value is written, and from then on is told on the spot; what has been kept is what has been told
already, followed by what is still to be told.
-/

namespace Trampoline

variable {H : Host}

/-- What is left of the completion of a promise. -/
inductive Duty (D F : Type) where
  | take (v : Value D F)
  | tell (v : Value D F) (subscribers : List (Subscriber F))

/-- What a task has to do with the completion of promise `id`. -/
def Task.duty? (id : PromiseId) : Task H → Option (Duty H.Data H.Fn)
  | .take id' v => if id' = id then some (.take v) else none
  | .wake id' v subscribers => if id' = id then some (.tell v subscribers) else none
  | .notify id' v subscribers _ => if id' = id then some (.tell v subscribers) else none
  | _ => none

/-- What a thread has to do for the completion of promise `id`. -/
def Thread.duties (id : PromiseId) (thread : Thread H) : List (Duty H.Data H.Fn) :=
  thread.held.filterMap (Task.duty? id)

/-- A thread that neither sleeps before its duty nor has it behind a reply that may not come. -/
structure Thread.IsPrompt (id : PromiseId) (thread : Thread H) : Prop where
  asleep : ∀ wait woken missed, thread.control = .asleep wait woken missed →
    woken.duty? id = none ∧ missed.duty? id = none
  after : ∀ task, .after task ∈ thread.stack → task.duty? id = none

/-- What a turn leaves its thread to do for the completion of promise `id`. -/
def Turn.duties (id : PromiseId) (turn : Turn H) : List (Duty H.Data H.Fn) :=
  (turn.control.held ++ turn.pushed.flatMap Return.held).filterMap (Task.duty? id)

structure Turn.IsPrompt (id : PromiseId) (turn : Turn H) : Prop where
  asleep : ∀ wait woken missed, turn.control = .asleep wait woken missed →
    woken.duty? id = none ∧ missed.duty? id = none
  after : ∀ task, .after task ∈ turn.pushed → task.duty? id = none
  born : ∀ thread, turn.born = some thread → thread.IsPrompt id ∧ thread.duties id = []

namespace World

def duties (w : World H) (id : PromiseId) (t : ThreadId) : List (Duty H.Data H.Fn) :=
  (w.threads[t]?.map (Thread.duties id)).getD []

/-- Thread `t` has a duty for promise `id`, and nobody else has one. -/
def Owes (w : World H) (id : PromiseId) (t : ThreadId) (duty : Duty H.Data H.Fn) : Prop :=
  ∀ t', w.duties id t' = if t' = t then [duty] else []

def IsPrompt (w : World H) (id : PromiseId) : Prop :=
  ∀ (t : ThreadId) (thread : Thread H), w.threads[t]? = some thread → thread.IsPrompt id

/-- How far promise `id` is when some subscribers have been kept, a thread may have written its
value, and some subscribers have been told. -/
inductive Completion (w : World H) (id : PromiseId) (kept : List (Subscriber H.Fn)) :
    Option (ThreadId × Value H.Data H.Fn) → List (Subscriber H.Fn × Value H.Data H.Fn) → Prop where
  | missing :
      (∀ t, w.duties id t = []) → w.heap.promises[id]? = none → kept = [] →
        Completion w id kept none []
  | empty {ty : Ty} :
      (∀ t, w.duties id t = []) → w.heap.promises[id]? = some ⟨ty, none, kept.reverse⟩ →
        Completion w id kept none []
  | written {t : ThreadId} {ty : Ty} {v : Value H.Data H.Fn} :
      w.Owes id t (.take v) → w.heap.promises[id]? = some ⟨ty, some v, kept.reverse⟩ →
        Completion w id kept (some (t, v)) []
  | taken {t : ThreadId} {ty : Ty} {v : Value H.Data H.Fn} {rest : List (Subscriber H.Fn)}
      {told : List (Subscriber H.Fn × Value H.Data H.Fn)} :
      w.Owes id t (.tell v rest) → w.heap.promises[id]? = some ⟨ty, some v, []⟩ →
        kept.map (·, v) = told ++ rest.map (·, v) → Completion w id kept (some (t, v)) told
  | done {t : ThreadId} {ty : Ty} {v : Value H.Data H.Fn}
      {told : List (Subscriber H.Fn × Value H.Data H.Fn)} :
      (∀ t, w.duties id t = []) → w.heap.promises[id]? = some ⟨ty, some v, []⟩ →
        kept.map (·, v) = told → Completion w id kept (some (t, v)) told

end World

/-- Whether a promise is there and can be completed. -/
def Heap.isOpen {D F : Type} (heap : Heap D F) (id : PromiseId) : Bool :=
  match heap.promises[id]? with
  | some ⟨_, none, _⟩ => true
  | _ => false

/-- The value that a task writes to promise `id`. -/
def Task.writes? (heap : Heap H.Data H.Fn) (id : PromiseId) : Task H → Option (Value H.Data H.Fn)
  | .fill id' v => if id' = id ∧ heap.isOpen id then some v else none
  | _ => none

/-- The subscribers that a task adds to those of promise `id`. -/
def Task.keeps (heap : Heap H.Data H.Fn) (id : PromiseId) : Task H → List (Subscriber H.Fn)
  | .subscribe id' subscriber => if id' = id ∧ heap.isOpen id then [subscriber] else []
  | _ => []

/-- The subscribers of promise `id` that a task tells the value. -/
def Task.tells (id : PromiseId) : Task H → List (Subscriber H.Fn × Value H.Data H.Fn)
  | .notify id' v (subscriber :: _) _ => if id' = id then [(subscriber, v)] else []
  | _ => []

theorem Task.IsMinor.duty? {task : Task H} (h : task.IsMinor) (id : PromiseId) :
    task.duty? id = none := by
  cases task <;> first | rfl | exact h.elim

/-- A duty comes from the call that completes the promise, or from another duty. -/
theorem Task.Hands.duty? {heap : Heap H.Data H.Fn} {task task' : Task H} {id : PromiseId}
    (h : task.Hands heap task') (hfill : ∀ v, task ≠ .fill id v) (htask : task.duty? id = none) :
    task'.duty? id = none := by
  cases h with
  | minor hminor => exact hminor.duty? id
  | request hq => cases hq <;> rfl
  | @fill id' v promise hpromise hvalue =>
      refine if_neg ?_
      rintro rfl
      exact hfill v rfl
  | take hpromise =>
      simp only [Task.duty?, ite_eq_right_iff, reduceCtorEq, imp_false] at htask ⊢
      exact htask
  | wake =>
      simp only [Task.duty?, ite_eq_right_iff, reduceCtorEq, imp_false] at htask ⊢
      exact htask
  | rest =>
      simp only [Task.duty?, ite_eq_right_iff, reduceCtorEq, imp_false] at htask ⊢
      exact htask
  | _ => rfl

/-- A turn that brings nothing to do for promise `id`. -/
theorem Turn.isPrompt_of_free {turn : Turn H} {id : PromiseId}
    (h : ∀ task ∈ turn.held, task.duty? id = none) : turn.IsPrompt id ∧ turn.duties id = [] := by
  have hcontrol {task : Task H} (hmem : task ∈ turn.control.held) : task.duty? id = none :=
    h task (by simp [held, hmem])
  have hpushed {task : Task H} (hmem : task ∈ turn.pushed.flatMap Return.held) :
      task.duty? id = none := h task (by simp only [held, List.mem_append, hmem, or_true, true_or])
  have hborn {thread : Thread H} (hthread : turn.born = some thread) {task : Task H}
      (hmem : task ∈ thread.held) : task.duty? id = none :=
    h task (by simp [held, hthread, hmem])
  refine ⟨⟨fun wait woken missed hasleep => ?_, fun task hafter => ?_, fun thread hthread => ?_⟩,
    ?_⟩
  · exact ⟨hcontrol (by simp [hasleep, Control.held]), hcontrol (by simp [hasleep, Control.held])⟩
  · exact hpushed (List.mem_flatMap.2 ⟨.after task, hafter, by simp [Return.held]⟩)
  · refine ⟨⟨fun wait woken missed hasleep => ?_, fun task hafter => ?_⟩, ?_⟩
    · exact ⟨hborn hthread (by simp [Thread.held, hasleep, Control.held]),
        hborn hthread (by simp [Thread.held, hasleep, Control.held])⟩
    · refine hborn hthread (List.mem_append_right _ (List.mem_flatMap.2 ⟨.after task, hafter, ?_⟩))
      simp [Return.held]
    · exact List.filterMap_eq_nil_iff.2 fun task hmem => hborn hthread hmem
  · refine List.filterMap_eq_nil_iff.2 fun task hmem => ?_
    rcases List.mem_append.1 hmem with hmem | hmem
    · exact hcontrol hmem
    · exact hpushed hmem

theorem Thread.IsPrompt.heard {thread : Thread H} {id : PromiseId} (h : thread.IsPrompt id)
    (notified : Option Gate) : (thread.heard notified).IsPrompt id ∧
      (thread.heard notified).duties id = thread.duties id := by
  cases notified with
  | none => exact ⟨h, rfl⟩
  | some gate =>
      obtain ⟨name, control, stack⟩ := thread
      simp only [Thread.heard]
      unfold Thread.notified
      split
      · rename_i heq
        obtain ⟨rfl, rfl, rfl⟩ := Thread.mk.inj heq
        split
        · obtain ⟨hwoken, hmissed⟩ := h.asleep _ _ _ rfl
          refine ⟨⟨by simp, h.after⟩, ?_⟩
          simp [duties, held, Control.held, hwoken, hmissed]
        · exact ⟨h, rfl⟩
      · exact ⟨h, rfl⟩

theorem Thread.duties_mk (id : PromiseId) (name : Option String) (control : Control H)
    (pushed stack : List (Return H)) :
    Thread.duties id ⟨name, control, pushed ++ stack⟩ =
      (control.held ++ pushed.flatMap Return.held).filterMap (Task.duty? id) ++
        (stack.flatMap Return.held).filterMap (Task.duty? id) := by
  simp [duties, held]

variable {heap : Heap H.Data H.Fn}

/-- Going back to a return keeps the duty that is in hand there. -/
theorem Return.resume_duties {back : Return H} {id : PromiseId}
    (hback : ∀ task, back = .after task → task.duty? id = none) (v : Value H.Data H.Fn) :
    (back.resume heap v).IsPrompt id ∧
      (back.resume heap v).duties id = back.held.filterMap (Task.duty? id) := by
  by_cases hnotifying : ∃ id' w subscribers first, back = .notifying id' w subscribers first
  · obtain ⟨id', w, subscribers, first, rfl⟩ := hnotifying
    exact ⟨⟨by simp [resume, Turn.run], by simp [resume, Turn.run], by simp [resume, Turn.run]⟩,
      rfl⟩
  · have hfree : ∀ task ∈ (back.resume heap v).held, task.duty? id = none := by
      intro task hmem
      cases back.resume_hands v hmem with
      | minor hminor => exact hminor.duty? id
      | answering => rfl
      | after => exact hback _ rfl
      | notifying => exact absurd ⟨_, _, _, _, rfl⟩ hnotifying
    have hheld : back.held.filterMap (Task.duty? id) = [] := by
      cases back with
      | after task => simp [Return.held, hback task rfl]
      | notifying id' w subscribers first => exact absurd ⟨_, _, _, _, rfl⟩ hnotifying
      | _ => rfl
    rw [hheld]
    exact Turn.isPrompt_of_free hfree

theorem Return.unwind_duties {back : Return H} {id : PromiseId}
    (hback : ∀ task, back = .after task → task.duty? id = none) (payload : Payload) :
    (back.unwind heap payload).IsPrompt id ∧
      (back.unwind heap payload).duties id = back.held.filterMap (Task.duty? id) := by
  by_cases hnotifying : ∃ id' w subscribers first, back = .notifying id' w subscribers first
  · obtain ⟨id', w, subscribers, first, rfl⟩ := hnotifying
    exact ⟨⟨by simp [unwind, Turn.run], by simp [unwind, Turn.run], by simp [unwind, Turn.run]⟩,
      rfl⟩
  · have hfree : ∀ task ∈ (back.unwind heap payload).held, task.duty? id = none := by
      intro task hmem
      cases back.unwind_hands payload hmem with
      | minor hminor => exact hminor.duty? id
      | answering => rfl
      | notifying => exact absurd ⟨_, _, _, _, rfl⟩ hnotifying
      | guarding => rfl
    have hheld : back.held.filterMap (Task.duty? id) = [] := by
      cases back with
      | after task => simp [Return.held, hback task rfl]
      | notifying id' w subscribers first => exact absurd ⟨_, _, _, _, rfl⟩ hnotifying
      | _ => rfl
    rw [hheld]
    exact Turn.isPrompt_of_free hfree

namespace World

variable {w w' : World H} {t : ThreadId} {name : Option String} {control : Control H}
  {stack rest : List (Return H)} {turn : Turn H} {state : H.State} {id : PromiseId}

/-- A prompt turn keeps threads prompt, and changes the duties of its thread only. -/
theorem Ordered.duties_apply (state : H.State) (hw : w.Ordered) (hprompt : w.IsPrompt id)
    (ht : w.threads[t]? = some ⟨name, control, stack⟩) (hrest : ∀ back ∈ rest, back ∈ stack)
    (hturn : turn.IsPrompt id) :
    (World.apply state w.threads w.next t name rest turn).IsPrompt id ∧
      ∀ t', (World.apply state w.threads w.next t name rest turn).duties id t' =
        if t' = t then turn.duties id ++ (rest.flatMap Return.held).filterMap (Task.duty? id)
        else w.duties id t' := by
  have hnew : Thread.IsPrompt id ⟨name, turn.control, turn.pushed ++ rest⟩ := by
    refine ⟨hturn.asleep, fun task hafter => ?_⟩
    rcases List.mem_append.1 hafter with hafter | hafter
    · exact hturn.after task hafter
    · exact (hprompt t _ ht).after task (hrest _ hafter)
  refine ⟨fun t' thread' ht' => ?_, fun t' => ?_⟩
  · rw [hw.threads_apply ht] at ht'
    split at ht'
    · obtain rfl := Option.some.inj ht'
      exact (hnew.heard _).1
    · split at ht'
      · exact (hturn.born thread' ht').1
      · obtain ⟨other, hother, rfl⟩ := Option.map_eq_some_iff.1 ht'
        exact ((hprompt t' other hother).heard _).1
  · simp only [duties]
    rw [hw.threads_apply ht]
    split
    · rw [Option.map_some, Option.getD_some, (hnew.heard _).2]
      exact Thread.duties_mk id name turn.control turn.pushed rest
    · split
      · rename_i heq
        subst heq
        rw [hw.numbered _ (Nat.le_refl _)]
        cases hborn : turn.born with
        | none => rfl
        | some thread => exact (hturn.born thread hborn).2
      · cases hother : w.threads[t']? with
        | none => rfl
        | some other => exact ((hprompt t' other hother).heard _).2

theorem duties_of_thread (ht : w.threads[t]? = some ⟨name, control, stack⟩) :
    w.duties id t = control.held.filterMap (Task.duty? id) ++
      (stack.flatMap Return.held).filterMap (Task.duty? id) := by
  simp [duties, ht, Thread.duties, Thread.held]

/-- A free turn of a thread without a duty in hand changes nobody's duties. -/
theorem Ordered.duties_of_free (hw : w.Ordered) (hprompt : w.IsPrompt id)
    (ht : w.threads[t]? = some ⟨name, control, stack⟩)
    (hcontrol : control.held.filterMap (Task.duty? id) = [])
    (hturn : ∀ task ∈ turn.held, task.duty? id = none) :
    (World.apply state w.threads w.next t name stack turn).IsPrompt id ∧
      ∀ t', (World.apply state w.threads w.next t name stack turn).duties id t' =
        w.duties id t' := by
  obtain ⟨hturn', hnothing⟩ := Turn.isPrompt_of_free hturn
  obtain ⟨hprompt', hduties⟩ := hw.duties_apply state hprompt ht (fun _ hmem => hmem) hturn'
  refine ⟨hprompt', fun t' => ?_⟩
  rw [hduties]
  split
  · rename_i heq
    rw [heq, duties_of_thread ht, hcontrol, hnothing]
  · rfl

/-- A reply, a panic, and whatever else does no step of a task leave all duties where they are. -/
theorem Ordered.duties_of_idle {a : Action} (hw : w.Ordered) (hprompt : w.IsPrompt id)
    (h : w.does a = some w') (hidle : w.task? a = none) :
    w'.IsPrompt id ∧ ∀ t, w'.duties id t = w.duties id t := by
  have hback {t : ThreadId} {name : Option String} {control : Control H} {back : Return H}
      {rest : List (Return H)} {turn : Turn H}
      (ht : w.threads[t]? = some ⟨name, control, back :: rest⟩) (hcontrol : control.held = [])
      (hturn : turn.IsPrompt id ∧ turn.duties id = back.held.filterMap (Task.duty? id)) :
      (World.apply w.state w.threads w.next t name rest turn).IsPrompt id ∧
        ∀ t', (World.apply w.state w.threads w.next t name rest turn).duties id t' =
          w.duties id t' := by
    obtain ⟨hprompt', hduties⟩ :=
      hw.duties_apply w.state hprompt ht (fun _ => List.mem_cons_of_mem _) hturn.1
    refine ⟨hprompt', fun t' => ?_⟩
    rw [hduties]
    split
    · rename_i heq
      rw [heq, duties_of_thread ht, hcontrol, hturn.2, List.flatMap_cons, List.filterMap_append]
      rfl
    · rfl
  cases a with
  | time n =>
      obtain rfl := Option.some.inj h
      exact ⟨hprompt, fun _ => rfl⟩
  | forget keep =>
      obtain rfl := Option.some.inj h
      refine ⟨fun t thread ht => hprompt t thread (thread_of_forget ht), fun t => ?_⟩
      · simp only [duties, threads_forget]
        rcases hthread : w.threads[t]? with _ | thread
        · rfl
        · cases hkeep : keep t || !thread.ended with
          | true => simp [Option.filter, hkeep]
          | false =>
              have hended : thread.duties id = [] := by
                obtain ⟨name, control, stack⟩ := thread
                cases stack with
                | cons back rest => cases control <;> simp [Thread.ended] at hkeep
                | nil => cases control <;> simp [Thread.ended] at hkeep <;> rfl
              simp [Option.filter, hkeep, hended]
  | thread t =>
      rcases step_cases h with
        ⟨name, wait, woken, missed, stack, arrived, ht, rfl⟩ | ⟨thread, ht, hawake, hallows, rfl⟩
      · obtain ⟨hwoken, hmissed⟩ := (hprompt t _ ht).asleep _ _ _ rfl
        have hduty : (if arrived then woken else missed).duty? id = none := by
          cases arrived <;> assumption
        refine ⟨fun t' thread' ht' => ?_, fun t' => ?_⟩
        · rw [threads_rouse arrived ht] at ht'
          split at ht'
          · obtain rfl := Option.some.inj ht'
            exact ⟨by simp, (hprompt t _ ht).after⟩
          · exact hprompt t' thread' ht'
        · simp only [duties, threads_rouse arrived ht]
          split
          · rename_i heq
            subst heq
            simp [ht, Thread.duties, Thread.held, Control.held, hduty, hwoken, hmissed]
          · rfl
      · obtain ⟨name, control, stack⟩ := thread
        cases control with
        | asleep wait woken missed => exact absurd rfl (hawake wait woken missed)
        | run task =>
            rw [task?_of_run ht] at hidle
            contradiction
        | ret v =>
            cases stack with
            | nil => exact absurd hallows (by simp [allows])
            | cons back rest =>
                refine hback ht rfl (Return.resume_duties (fun task heq => ?_) v)
                exact (hprompt t _ ht).after task (by simp [heq])
        | raise payload =>
            cases stack with
            | nil => exact absurd hallows (by simp [allows])
            | cons back rest =>
                refine hback ht rfl (Return.unwind_duties (fun task heq => ?_) payload)
                exact (hprompt t _ ht).after task (by simp [heq])

theorem does_run {task : Task H} (ht : w.threads[t]? = some ⟨name, .run task, stack⟩)
    (h : w.does (.thread t) = some w') : w' = w.act t ⟨name, .run task, stack⟩ :=
  (Option.some.inj ((step_run ht).symm.trans h)).symm

/-- A task that neither completes promise `id` nor has a duty for it leaves all duties where they
are. -/
theorem Ordered.duties_of_task {task : Task H} (hw : w.Ordered) (hprompt : w.IsPrompt id)
    (ht : w.threads[t]? = some ⟨name, .run task, stack⟩) (h : w.does (.thread t) = some w')
    (hfill : ∀ v, task ≠ .fill id v) (hduty : task.duty? id = none) :
    w'.IsPrompt id ∧ ∀ t', w'.duties id t' = w.duties id t' := by
  have hcontrol : (Control.run task).held.filterMap (Task.duty? id) = [] := by
    simp [Control.held, hduty]
  rw [does_run ht h]
  by_cases huser : ∃ code reply, task = .user code reply
  · obtain ⟨code, reply, rfl⟩ := huser
    exact hw.duties_of_free hprompt ht hcontrol fun task hmem => (Move.turn_hands _ hmem).duty? id
  · rw [act_run fun code reply heq => huser ⟨code, reply, heq⟩]
    exact hw.duties_of_free hprompt ht hcontrol fun task' hmem =>
      (Task.turn_hands task task' hmem).duty? hfill hduty

/-- A turn of a task that goes on completing promise `id`. -/
theorem Ordered.duties_of_duty {task : Task H} (hw : w.Ordered) (hprompt : w.IsPrompt id)
    (ht : w.threads[t]? = some ⟨name, .run task, stack⟩) (h : w.does (.thread t) = some w')
    (huser : ∀ code reply, task ≠ .user code reply) {turn : Turn H}
    (hturn : task.turn ⟨t, name⟩ stack w.heap = turn) (hturn' : turn.IsPrompt id) :
    ∃ below, w.duties id t = (task.duty? id).toList ++ below ∧ w'.heap = turn.heap ∧
      w'.IsPrompt id ∧ ∀ t', w'.duties id t' =
        if t' = t then turn.duties id ++ below else w.duties id t' := by
  subst hturn
  rw [does_run ht h, act_run huser]
  obtain ⟨hprompt', hduties⟩ :=
    hw.duties_apply w.state hprompt ht (fun _ hmem => hmem) hturn'
  refine ⟨_, ?_, heap_apply, hprompt', hduties⟩
  rw [duties_of_thread ht]
  simp only [Control.held, List.filterMap_cons, List.filterMap_nil]
  cases task.duty? id <;> rfl

end World

namespace World.Completion

variable {w w' : World H} {t : ThreadId} {id : PromiseId} {kept : List (Subscriber H.Fn)}
  {writer : Option (ThreadId × Value H.Data H.Fn)}
  {told : List (Subscriber H.Fn × Value H.Data H.Fn)} {ty : Ty} {v : Value H.Data H.Fn}
  {subscribers rest : List (Subscriber H.Fn)} {below : List (Duty H.Data H.Fn)}

theorem of_same (h : w.Completion id kept writer told)
    (hduties : ∀ t, w'.duties id t = w.duties id t)
    (hpromise : w'.heap.promises[id]? = w.heap.promises[id]?) :
      w'.Completion id kept writer told := by
  cases h with
  | missing hnobody hnone hkept =>
      exact .missing (fun t => (hduties t).trans (hnobody t)) (hpromise.trans hnone) hkept
  | empty hnobody hopen =>
      exact .empty (fun t => (hduties t).trans (hnobody t)) (hpromise.trans hopen)
  | written howes hwritten =>
      exact .written (fun t => (hduties t).trans (howes t)) (hpromise.trans hwritten)
  | taken howes hwritten hall =>
      exact .taken (fun t => (hduties t).trans (howes t)) (hpromise.trans hwritten) hall
  | done hnobody hwritten hall =>
      exact .done (fun t => (hduties t).trans (hnobody t)) (hpromise.trans hwritten) hall

theorem of_new (h : w.Completion id kept writer told)
    (hduties : ∀ t, w'.duties id t = w.duties id t)
    (hnone : w.heap.promises[id]? = none) (hnew : w'.heap.promises[id]? = some (.empty ty)) :
    w'.Completion id kept writer told := by
  cases h with
  | missing hnobody _ hkept =>
      subst hkept
      exact .empty (fun t => (hduties t).trans (hnobody t)) hnew
  | empty hnobody hopen => simp [hnone] at hopen
  | written howes hwritten => simp [hnone] at hwritten
  | taken howes hwritten hall => simp [hnone] at hwritten
  | done hnobody hwritten hall => simp [hnone] at hwritten

theorem of_kept {subscriber : Subscriber H.Fn} (h : w.Completion id kept writer told)
    (hduties : ∀ t, w'.duties id t = w.duties id t)
    (hold : w.heap.promises[id]? = some ⟨ty, none, subscribers⟩)
    (hnew : w'.heap.promises[id]? = some ⟨ty, none, subscriber :: subscribers⟩) :
    w'.Completion id (kept ++ [subscriber]) writer told := by
  cases h with
  | missing hnobody hnone hkept => simp [hnone] at hold
  | empty hnobody hopen =>
      simp only [hopen, Option.some.injEq, Promise.mk.injEq, true_and] at hold
      obtain ⟨rfl, rfl⟩ := hold
      rw [← List.singleton_append, ← List.reverse_singleton, ← List.reverse_append] at hnew
      exact .empty (fun t => (hduties t).trans (hnobody t)) hnew
  | written howes hwritten => simp [hwritten] at hold
  | taken howes hwritten hall => simp [hwritten] at hold
  | done hnobody hwritten hall => simp [hwritten] at hold

/-- The first call that completes the promise has the rest of it in hand. -/
theorem of_write (h : w.Completion id kept writer told)
    (hduties : ∀ t', w'.duties id t' =
      if t' = t then .take v :: w.duties id t else w.duties id t')
    (hold : w.heap.promises[id]? = some ⟨ty, none, subscribers⟩)
    (hnew : w'.heap.promises[id]? = some ⟨ty, some v, subscribers⟩) :
    w'.Completion id kept (writer.or (some (t, v))) told := by
  cases h with
  | missing hnobody hnone hkept => simp [hnone] at hold
  | empty hnobody hopen =>
      simp only [hopen, Option.some.injEq, Promise.mk.injEq, true_and] at hold
      obtain ⟨rfl, rfl⟩ := hold
      refine .written (fun t' => ?_) hnew
      rw [hduties, hnobody, hnobody]
  | written howes hwritten => simp [hwritten] at hold
  | taken howes hwritten hall => simp [hwritten] at hold
  | done hnobody hwritten hall => simp [hwritten] at hold

theorem owes_of_duties {duty duty' : Duty H.Data H.Fn} {t₀ : ThreadId} (howes : w.Owes id t₀ duty)
    (hduty : w.duties id t = duty' :: below) : t = t₀ ∧ duty' = duty ∧ below = [] := by
  have h := howes t
  rw [hduty] at h
  split at h
  · rename_i heq
    obtain ⟨rfl, rfl⟩ := List.cons.inj h
    exact ⟨heq, rfl, rfl⟩
  · contradiction

theorem owes_of_next {duty duty' : Duty H.Data H.Fn} (howes : w.Owes id t duty)
    (hduties : ∀ t', w'.duties id t' = if t' = t then [duty'] else w.duties id t') :
    w'.Owes id t duty' := by
  intro t'
  rw [hduties]
  split
  · rfl
  · rename_i hne
    rw [howes, if_neg hne]

/-- The subscribers are taken: all that have been kept are to be told. -/
theorem of_take {value : Option (Value H.Data H.Fn)} (h : w.Completion id kept writer told)
    (hduty : w.duties id t = .take v :: below)
    (hduties : ∀ t', w'.duties id t' =
      if t' = t then .tell v subscribers.reverse :: below else w.duties id t')
    (hold : w.heap.promises[id]? = some ⟨ty, value, subscribers⟩)
    (hnew : w'.heap.promises[id]? = some ⟨ty, value, []⟩) : w'.Completion id kept writer told := by
  cases h with
  | missing hnobody => simp [hnobody] at hduty
  | empty hnobody => simp [hnobody] at hduty
  | written howes hwritten =>
      obtain ⟨rfl, hsame, rfl⟩ := owes_of_duties howes hduty
      obtain rfl := Duty.take.inj hsame
      simp only [hwritten, Option.some.injEq, Promise.mk.injEq] at hold
      obtain ⟨rfl, rfl, rfl⟩ := hold
      exact .taken (owes_of_next howes hduties) hnew (by simp)
  | taken howes hwritten hall =>
      obtain ⟨-, hsame, -⟩ := owes_of_duties howes hduty
      contradiction
  | done hnobody => simp [hnobody] at hduty

theorem of_tell {subscriber : Subscriber H.Fn} (h : w.Completion id kept writer told)
    (hduty : w.duties id t = .tell v (subscriber :: rest) :: below)
    (hduties : ∀ t', w'.duties id t' =
      if t' = t then .tell v rest :: below else w.duties id t')
    (hpromise : w'.heap.promises[id]? = w.heap.promises[id]?) :
    w'.Completion id kept writer (told ++ [(subscriber, v)]) := by
  cases h with
  | missing hnobody => simp [hnobody] at hduty
  | empty hnobody => simp [hnobody] at hduty
  | written howes hwritten =>
      obtain ⟨-, hsame, -⟩ := owes_of_duties howes hduty
      contradiction
  | taken howes hwritten hall =>
      obtain ⟨rfl, hsame, rfl⟩ := owes_of_duties howes hduty
      obtain ⟨rfl, rfl⟩ := Duty.tell.inj hsame
      exact .taken (owes_of_next howes hduties) (hpromise.trans hwritten) (by simp [hall])
  | done hnobody => simp [hnobody] at hduty

/-- A step of the completion that tells nobody. -/
theorem of_wake (h : w.Completion id kept writer told)
    (hduty : w.duties id t = .tell v rest :: below)
    (hduties : ∀ t', w'.duties id t' =
      if t' = t then .tell v rest :: below else w.duties id t')
    (hpromise : w'.heap.promises[id]? = w.heap.promises[id]?) :
    w'.Completion id kept writer told := by
  refine h.of_same (fun t' => ?_) hpromise
  rw [hduties]
  split
  · rename_i heq
    rw [heq, hduty]
  · rfl

/-- The last subscriber has been told. -/
theorem of_end (h : w.Completion id kept writer told)
    (hduty : w.duties id t = .tell v [] :: below)
    (hduties : ∀ t', w'.duties id t' = if t' = t then below else w.duties id t')
    (hpromise : w'.heap.promises[id]? = w.heap.promises[id]?) :
    w'.Completion id kept writer told := by
  cases h with
  | missing hnobody => simp [hnobody] at hduty
  | empty hnobody => simp [hnobody] at hduty
  | written howes hwritten =>
      obtain ⟨-, hsame, -⟩ := owes_of_duties howes hduty
      contradiction
  | taken howes hwritten hall =>
      obtain ⟨rfl, hsame, rfl⟩ := owes_of_duties howes hduty
      obtain ⟨rfl, rfl⟩ := Duty.tell.inj hsame
      refine .done (fun t' => ?_) (hpromise.trans hwritten) (by simpa using hall)
      rw [hduties]
      split
      · rfl
      · rename_i hne
        rw [howes, if_neg hne]
  | done hnobody => simp [hnobody] at hduty

end World.Completion

/-- What a task's turn makes of one promise. -/
theorem Task.Alters.promise {heap heap' : Heap H.Data H.Fn} {task : Task H}
    (h : task.Alters heap heap') (id : PromiseId) :
    heap'.promises[id]? = heap.promises[id]? ∨
      (heap.promises[id]? = none ∧ ∃ ty, heap'.promises[id]? = some (.empty ty)) ∨
      (∃ v, task = .fill id v) ∨ (∃ v, task = .take id v) ∨
      ∃ subscriber, task = .subscribe id subscriber ∧ heap.isOpen id = true := by
  have hset {id' : PromiseId} {p : Promise H.Data H.Fn}
      (hpromises : heap'.promises = heap.promises.setIfInBounds id' p) (hne : id' ≠ id) :
      heap'.promises[id]? = heap.promises[id]? := by
    rw [hpromises, Array.getElem?_setIfInBounds_ne hne]
  cases h with
  | nothing hpromises => exact .inl (by rw [hpromises])
  | newChannel hpromises => exact .inl (by rw [hpromises])
  | send _ hpromises => exact .inl (by rw [hpromises])
  | close _ hpromises => exact .inl (by rw [hpromises])
  | @newPromise _ _ ty hpromises =>
      rw [hpromises, Array.getElem?_push]
      split
      · rename_i heq
        exact .inr (.inl ⟨by simp [heq], ty, rfl⟩)
      · exact .inl rfl
  | @write id' v ty subscribers _ hold hpromises =>
      by_cases heq : id' = id
      · subst heq
        exact .inr (.inr (.inl ⟨v, rfl⟩))
      · exact .inl (hset hpromises heq)
  | @take id' v ty value subscribers _ hold hpromises =>
      by_cases heq : id' = id
      · subst heq
        exact .inr (.inr (.inr (.inl ⟨v, rfl⟩)))
      · exact .inl (hset hpromises heq)
  | @keep id' subscriber ty subscribers _ hold hpromises =>
      by_cases heq : id' = id
      · subst heq
        exact .inr (.inr (.inr (.inr ⟨subscriber, rfl, by simp [Heap.isOpen, hold]⟩)))
      · exact .inl (hset hpromises heq)

namespace World

/-- The value that an action writes to promise `id`, with the thread that writes it. -/
def writes? (w : World H) (id : PromiseId) : Action → Option (ThreadId × Value H.Data H.Fn)
  | .thread t => ((w.task? (.thread t)).bind (Task.writes? w.heap id)).map (t, ·)
  | _ => none

/-- The subscribers that an action adds to those of promise `id`. -/
def keeps (w : World H) (id : PromiseId) (a : Action) : List (Subscriber H.Fn) :=
  ((w.task? a).map (Task.keeps w.heap id)).getD []

/-- The subscribers of promise `id` that an action tells the value. -/
def tells (w : World H) (id : PromiseId) (a : Action) :
    List (Subscriber H.Fn × Value H.Data H.Fn) :=
  ((w.task? a).map (Task.tells id)).getD []

variable {w w' : World H} {t : ThreadId} {name : Option String} {stack : List (Return H)}
  {id : PromiseId} {kept : List (Subscriber H.Fn)}
  {writer : Option (ThreadId × Value H.Data H.Fn)}
  {told : List (Subscriber H.Fn × Value H.Data H.Fn)} {v : Value H.Data H.Fn}

namespace Completion

theorem after_idle {a : Action} (hc : w.Completion id kept writer told) (hw : w.Ordered)
    (hprompt : w.IsPrompt id) (h : w.does a = some w') (hidle : w.task? a = none) :
    w'.IsPrompt id ∧ w'.Completion id kept writer told := by
  obtain ⟨hprompt', hduties⟩ := hw.duties_of_idle hprompt h hidle
  refine ⟨hprompt', hc.of_same hduties ?_⟩
  rcases alters_of_does h with ⟨hpromises, -⟩ | ⟨t, name, task, stack, rfl, ht, -⟩
  · rw [hpromises]
  · rw [task?_of_run ht] at hidle
    contradiction

theorem after_task {task : Task H} (hc : w.Completion id kept writer told) (hw : w.Ordered)
    (hprompt : w.IsPrompt id) (ht : w.threads[t]? = some ⟨name, .run task, stack⟩)
    (h : w.does (.thread t) = some w') (hfill : ∀ v, task ≠ .fill id v)
    (hduty : task.duty? id = none)
    (hsubscribe : ∀ subscriber, task = .subscribe id subscriber → w.heap.isOpen id = false) :
    w'.IsPrompt id ∧ w'.Completion id kept writer told := by
  obtain ⟨hprompt', hduties⟩ := hw.duties_of_task hprompt ht h hfill hduty
  refine ⟨hprompt', ?_⟩
  rcases alters_of_does h with ⟨hpromises, -⟩ | ⟨t', name', task', stack', heq, ht', halters⟩
  · exact hc.of_same hduties (by rw [hpromises])
  · obtain rfl := Action.thread.inj heq
    obtain ⟨rfl, hcontrol, rfl⟩ := Thread.mk.inj (Option.some.inj (ht.symm.trans ht'))
    obtain rfl := Control.run.inj hcontrol
    rcases halters.promise id with
      hsame | ⟨hnone, ty, hnew⟩ | ⟨v, rfl⟩ | ⟨v, rfl⟩ | ⟨subscriber, heq, hopen⟩
    · exact hc.of_same hduties hsame
    · exact hc.of_new hduties hnone hnew
    · exact absurd rfl (hfill v)
    · simp [Task.duty?] at hduty
    · simp [hsubscribe subscriber heq] at hopen

theorem after_fill (hc : w.Completion id kept writer told) (hw : w.Ordered)
    (hprompt : w.IsPrompt id) (ht : w.threads[t]? = some ⟨name, .run (.fill id v), stack⟩)
    (h : w.does (.thread t) = some w') :
    w'.IsPrompt id ∧ w'.Completion id kept
      (writer.or (if w.heap.isOpen id then some (t, v) else none)) told := by
  have hrejected {turn : Turn H} (hturn : (Task.fill id v).turn ⟨t, name⟩ stack w.heap = turn)
      (hfree : turn.held = []) (hheap : turn.heap = w.heap) :
      w'.IsPrompt id ∧ w'.Completion id kept writer told := by
    have hfree' : ∀ task ∈ turn.held, task.duty? id = none := by simp [hfree]
    obtain ⟨hturn', hnothing⟩ := Turn.isPrompt_of_free hfree'
    obtain ⟨below, hduty, hheap', hprompt', hduties⟩ :=
      hw.duties_of_duty hprompt ht h (by simp) hturn hturn'
    refine ⟨hprompt', hc.of_same (fun t' => ?_) (by rw [hheap', hheap])⟩
    rw [hduties, hnothing]
    split
    · rename_i heq
      rw [heq, hduty]
      rfl
    · rfl
  rcases hpromise : w.heap.promises[id]? with _ | ⟨ty, value, subscribers⟩
  · simpa [Heap.isOpen, hpromise] using
      hrejected (by simp only [Task.turn, hpromise]; rfl) rfl rfl
  · cases value with
    | some v' =>
        simpa [Heap.isOpen, hpromise] using
          hrejected (by simp only [Task.turn, hpromise]; rfl) rfl rfl
    | none =>
        have hopen : w.heap.isOpen id = true := by simp [Heap.isOpen, hpromise]
        rw [if_pos hopen]
        obtain ⟨below, hduty, hheap, hprompt', hduties⟩ :=
          hw.duties_of_duty hprompt ht h (by simp)
            (show _ = .run (w.heap.setPromise id ⟨ty, some v, subscribers⟩) (.take id v) by
              simp only [Task.turn, hpromise]; rfl)
            ⟨by simp [Turn.run], by simp [Turn.run], by simp [Turn.run]⟩
        have hnew : w'.heap.promises[id]? = some ⟨ty, some v, subscribers⟩ := by
          obtain ⟨hlt, -⟩ := Array.getElem?_eq_some_iff.1 hpromise
          rw [hheap]
          simp [Turn.run, Heap.setPromise, hlt]
        refine ⟨hprompt', hc.of_write (t := t) (fun t' => ?_) hpromise hnew⟩
        rw [hduties, hduty]
        simp [Turn.duties, Turn.run, Control.held, Task.duty?]

theorem after_take (hc : w.Completion id kept writer told) (hw : w.Ordered)
    (hprompt : w.IsPrompt id) (ht : w.threads[t]? = some ⟨name, .run (.take id v), stack⟩)
    (h : w.does (.thread t) = some w') : w'.IsPrompt id ∧ w'.Completion id kept writer told := by
  have hduty? : (Task.take (H := H) id v).duty? id = some (.take v) := if_pos rfl
  rcases hpromise : w.heap.promises[id]? with _ | ⟨ty, value, subscribers⟩
  · -- There is no duty for a promise that is not there.
    have hsome : w.duties id t ≠ [] := by
      rw [duties_of_thread ht]
      simp [Control.held, hduty?]
    cases hc with
    | missing hnobody => exact absurd (hnobody t) hsome
    | empty hnobody => exact absurd (hnobody t) hsome
    | done hnobody => exact absurd (hnobody t) hsome
    | written _ hwritten => simp [hpromise] at hwritten
    | taken _ hwritten => simp [hpromise] at hwritten
  · obtain ⟨below, hduty, hheap, hprompt', hduties⟩ :=
      hw.duties_of_duty hprompt ht h (by simp)
        (show _ = .run (w.heap.setPromise id ⟨ty, value, []⟩) (.wake id v subscribers.reverse) by
          simp only [Task.turn, hpromise]; rfl)
        ⟨by simp [Turn.run], by simp [Turn.run], by simp [Turn.run]⟩
    have hnew : w'.heap.promises[id]? = some ⟨ty, value, []⟩ := by
      obtain ⟨hlt, -⟩ := Array.getElem?_eq_some_iff.1 hpromise
      rw [hheap]
      simp [Turn.run, Heap.setPromise, hlt]
    rw [hduty?] at hduty
    refine ⟨hprompt', hc.of_take hduty (fun t' => ?_) hpromise hnew⟩
    rw [hduties]
    simp [Turn.duties, Turn.run, Control.held, Task.duty?]

theorem after_wake {subscribers : List (Subscriber H.Fn)} (hc : w.Completion id kept writer told)
    (hw : w.Ordered) (hprompt : w.IsPrompt id)
    (ht : w.threads[t]? = some ⟨name, .run (.wake id v subscribers), stack⟩)
    (h : w.does (.thread t) = some w') : w'.IsPrompt id ∧ w'.Completion id kept writer told := by
  have hduty? : (Task.wake (H := H) id v subscribers).duty? id = some (.tell v subscribers) :=
    if_pos rfl
  obtain ⟨below, hduty, hheap, hprompt', hduties⟩ :=
    hw.duties_of_duty hprompt ht h (by simp) rfl ⟨by simp [Task.turn], by simp [Task.turn],
      by simp [Task.turn]⟩
  rw [hduty?] at hduty
  refine ⟨hprompt', hc.of_wake hduty (fun t' => ?_) (by rw [hheap]; rfl)⟩
  rw [hduties]
  simp [Task.turn, Turn.duties, Control.held, Task.duty?]

theorem after_notify {subscribers : List (Subscriber H.Fn)} {first : Option Payload}
    (hc : w.Completion id kept writer told) (hw : w.Ordered) (hprompt : w.IsPrompt id)
    (ht : w.threads[t]? = some ⟨name, .run (.notify id v subscribers first), stack⟩)
    (h : w.does (.thread t) = some w') :
    w'.IsPrompt id ∧
      w'.Completion id kept writer
        (told ++ Task.tells id (.notify (H := H) id v subscribers first)) := by
  have hduty? : (Task.notify (H := H) id v subscribers first).duty? id =
      some (.tell v subscribers) := if_pos rfl
  cases subscribers with
  | cons subscriber rest =>
      obtain ⟨below, hduty, hheap, hprompt', hduties⟩ :=
        hw.duties_of_duty hprompt ht h (by simp) rfl ⟨by simp [Task.turn, Turn.call],
          by simp [Task.turn, Turn.call], by simp [Task.turn, Turn.call]⟩
      rw [hduty?] at hduty
      simp only [Task.tells, if_true]
      have hnext : [Task.tell (H := H) subscriber v, .notify id v rest first].filterMap
          (Task.duty? id) = [.tell v rest] := by
        have hrest : (Task.notify (H := H) id v rest first).duty? id = some (.tell v rest) :=
          if_pos rfl
        rw [List.filterMap_cons_none rfl, List.filterMap_cons_some hrest, List.filterMap_nil]
      refine ⟨hprompt', hc.of_tell hduty (fun t' => ?_) (by rw [hheap]; rfl)⟩
      rw [hduties]
      simp [Task.turn, Turn.call, Turn.duties, Control.held, Return.held, hnext]
  | nil =>
      have hfree :
          ((Task.notify (H := H) id v [] first).turn ⟨t, name⟩ stack w.heap).held = [] := by
        cases first <;> rfl
      have hheap? :
          ((Task.notify (H := H) id v [] first).turn ⟨t, name⟩ stack w.heap).heap.promises =
            w.heap.promises := by cases first <;> rfl
      have hfree' :
          ∀ task ∈ ((Task.notify (H := H) id v [] first).turn ⟨t, name⟩ stack w.heap).held,
            task.duty? id = none := by simp [hfree]
      obtain ⟨hturn', hnothing⟩ := Turn.isPrompt_of_free hfree'
      obtain ⟨below, hduty, hheap, hprompt', hduties⟩ :=
        hw.duties_of_duty hprompt ht h (by simp) rfl hturn'
      rw [hduty?] at hduty
      simp only [Task.tells, List.append_nil]
      refine ⟨hprompt', hc.of_end hduty (fun t' => ?_) (by rw [hheap, hheap?])⟩
      rw [hduties, hnothing]
      rfl

theorem after_subscribe {subscriber : Subscriber H.Fn} (hc : w.Completion id kept writer told)
    (hw : w.Ordered) (hprompt : w.IsPrompt id)
    (ht : w.threads[t]? = some ⟨name, .run (.subscribe id subscriber), stack⟩)
    (h : w.does (.thread t) = some w') (hopen : w.heap.isOpen id = true) :
    w'.IsPrompt id ∧ w'.Completion id (kept ++ [subscriber]) writer told := by
  obtain ⟨hprompt', hduties⟩ := hw.duties_of_task hprompt ht h (by simp) rfl
  unfold Heap.isOpen at hopen
  split at hopen
  · rename_i ty subscribers hpromise
    refine ⟨hprompt', hc.of_kept hduties hpromise ?_⟩
    obtain ⟨hlt, -⟩ := Array.getElem?_eq_some_iff.1 hpromise
    rw [does_run ht h, act_run (by simp), heap_apply]
    simp only [Task.turn, hpromise]
    simp [Promise.subscribe, Turn.ret, Heap.setPromise, hlt]
  · contradiction

/-- One action takes the completion of a promise one step further: it adds subscribers, or it tells
those that have been kept. -/
theorem of_does {a : Action} (hc : w.Completion id kept writer told) (hw : w.Ordered)
    (hprompt : w.IsPrompt id) (h : w.does a = some w') :
    w'.IsPrompt id ∧
      w'.Completion id (kept ++ w.keeps id a) (writer.or (w.writes? id a))
        (told ++ w.tells id a) := by
  unfold keeps tells
  cases htask : w.task? a with
  | none =>
      have hwrites : w.writes? id a = none := by
        cases a with
        | thread t => simp [writes?, htask]
        | _ => rfl
      simpa [hwrites] using hc.after_idle hw hprompt h htask
  | some task =>
      obtain ⟨t, name, stack, rfl, ht⟩ := task?_eq_some htask
      have hother (hfill : ∀ v, task ≠ .fill id v) (hduty : task.duty? id = none)
          (hwrites : task.writes? w.heap id = none) (hkeeps : task.keeps w.heap id = [])
          (htells : task.tells id = []) :
          w'.IsPrompt id ∧ w'.Completion id (kept ++ task.keeps w.heap id)
            (writer.or ((task.writes? w.heap id).map (t, ·))) (told ++ task.tells id) := by
        rw [hwrites, hkeeps, htells, Option.map_none, Option.or_none, List.append_nil,
          List.append_nil]
        refine hc.after_task hw hprompt ht h hfill hduty fun subscriber heq => ?_
        subst heq
        simpa [Task.keeps] using hkeeps
      simp only [writes?, htask, Option.map_some, Option.getD_some, Option.bind_some]
      cases task with
      | fill id' v =>
          by_cases heq : id' = id
          · subst heq
            have hwritten := hc.after_fill hw hprompt ht h
            cases hopen : w.heap.isOpen id' <;>
              simpa [Task.writes?, Task.keeps, Task.tells, hopen] using hwritten
          · exact hother (by simp [heq]) rfl (by simp [Task.writes?, heq]) rfl rfl
      | take id' v =>
          by_cases heq : id' = id
          · subst heq
            simpa [Task.writes?, Task.keeps, Task.tells] using hc.after_take hw hprompt ht h
          · exact hother (by simp) (if_neg heq) rfl rfl rfl
      | wake id' v subscribers =>
          by_cases heq : id' = id
          · subst heq
            simpa [Task.writes?, Task.keeps, Task.tells] using hc.after_wake hw hprompt ht h
          · exact hother (by simp) (if_neg heq) rfl rfl rfl
      | notify id' v subscribers first =>
          by_cases heq : id' = id
          · subst heq
            have hkeeps : Task.keeps w.heap id' (.notify id' v subscribers first) = [] := rfl
            have hwrites : Task.writes? w.heap id' (.notify id' v subscribers first) = none := rfl
            rw [hkeeps, hwrites, Option.map_none, Option.or_none, List.append_nil]
            exact hc.after_notify hw hprompt ht h
          · refine hother (by simp) (if_neg heq) rfl rfl ?_
            cases subscribers with
            | nil => rfl
            | cons subscriber rest => exact if_neg heq
      | subscribe id' subscriber =>
          by_cases heq : id' = id ∧ w.heap.isOpen id = true
          · obtain ⟨rfl, hopen⟩ := heq
            simpa [Task.writes?, Task.keeps, Task.tells, hopen] using
              hc.after_subscribe hw hprompt ht h hopen
          · exact hother (by simp) rfl rfl (if_neg heq) rfl
      | _ => exact hother (by simp) rfl rfl rfl rfl

end Completion

end World

end Trampoline
