import Trampoline.Proofs.Agreement
import Trampoline.Proofs.Beginnings
import Trampoline.Proofs.Channels

/-!
Where things come from. A task that is in hand has been brought there by a turn, a unit of work has
been made by a turn, and an interpretation under way has begun. What concerns a meeting point or a
promise of which the host has no handle can be traced back to the async node that was reached.
-/

namespace Trampoline

variable {H : Host}

/-- Whether a task comes into hand by the turns of other tasks only. -/
def Task.IsPassedOn : Task H → Prop
  | .submit _ _ => True
  | .perform _ => True
  | .register _ _ => True
  | .invoke _ _ => True
  | .fill _ _ => True
  | .subscribe _ _ => True
  | .tell _ _ => True
  | _ => False

/-- The tasks that make a unit of work. -/
inductive Task.Makes (heap : Heap H.Data H.Fn) : Task H → Work H.Data H.Fn → Prop where
  | registration {i : Interpretation H.Data H.Fn} {last : Kept} {finish : Finish H.Fn}
      {register : Register H.Fn} {scheduler : SchedulerId} {frames : List (Frame H.Data H.Fn)} :
      i.step = .suspend register scheduler frames →
        Makes heap (.drive i last finish) (.register register heap.handoffs.size)
  | fork {value error : Ty} {source : Node H.Data H.Fn} {scheduler : SchedulerId} :
      Makes heap (.answer (.fork value error source scheduler))
        (.interpret source (.fiber value error heap.promises.size scheduler))
  | runFiber {value error : Ty} {node : Node H.Data H.Fn} {scheduler : SchedulerId} :
      Makes heap (.request (.runFiber value error node scheduler))
        (.interpret node (.fiber value error heap.promises.size scheduler))
  | request {q : Request H.Data H.Fn} {work : Work H.Data H.Fn} :
      q.work? = some work → Makes heap (.request q) work

namespace Kept

@[simp] theorem mem_onto {x : Ref} (kept : Kept) (refs : List Ref) :
    x ∈ kept.onto refs ↔ x ∈ kept ∨ x ∈ refs := by
  have hfoldl (l refs : List Ref) :
      x ∈ l.foldl (fun refs y => y :: refs) refs ↔ x ∈ l ∨ x ∈ refs := by
    induction l generalizing refs with
    | nil => simp
    | cons y l ih =>
        rw [List.foldl_cons, ih]
        simp [or_left_comm, or_assoc]
  rw [onto, Std.TreeSet.foldl_eq_foldl_toList, hfoldl, Std.TreeSet.mem_toList]

end Kept

theorem Request.mem_refs_of_work {D F : Type} {q : Request D F} {work : Work D F} {x : Ref}
    (h : q.work? = some work) (hx : x ∈ work.kept) : x ∈ q.refs [] := by
  cases q with
  | submit scheduler work' =>
      obtain rfl := Option.some.inj h
      simp [refs, hx]
  | perform work' =>
      obtain rfl := Option.some.inj h
      simp [refs, hx]
  | _ => contradiction

/-- The callback that a subscriber completes. -/
def Subscriber.target? {F : Type} : Subscriber F → Option (Callback F)
  | .user _ => none
  | .join _ _ target => some target
  | .observe _ _ target => some target

namespace Run

variable {r : Run H} {n m : Nat} {t t' : ThreadId} {task : Task H} {work : Work H.Data H.Fn}

/-- Some thread has the task in hand. -/
def Has (r : Run H) (n : Nat) (task : Task H) : Prop :=
  ∃ (t : ThreadId) (thread : Thread H), (r.world n).threads[t]? = some thread ∧ task ∈ thread.held

theorem Does.has (h : r.Does n t task) : r.Has n task := by
  obtain ⟨-, name, stack, ht⟩ := h
  exact ⟨t, _, ht, by simp [Thread.held, Control.held]⟩

/-- What is in hand and is not minor has been brought there by a turn of a thread, at a time when
nobody had it. -/
theorem Has.exists_hands (hstart : (r.world 0).Starting) (h : r.Has n task)
    (hminor : ¬task.IsMinor) :
    ∃ m t thread, m < n ∧ ¬r.Has m task ∧ r.action m = .thread t ∧
      (r.world m).threads[t]? = some thread ∧ thread.Hands (r.world m).heap task := by
  induction n with
  | zero =>
      obtain ⟨t, thread, ht, hmem⟩ := h
      obtain ⟨name, code, rfl⟩ := hstart.threads t thread ht
      obtain rfl := by simpa [Thread.held, Thread.starting, Control.held] using hmem
      exact absurd trivial hminor
  | succ n ih =>
      by_cases hbefore : r.Has n task
      · obtain ⟨m, t, thread, hm, hnew⟩ := ih hbefore
        exact ⟨m, t, thread, Nat.lt_succ_of_lt hm, hnew⟩
      · obtain ⟨t, thread, ht, hmem⟩ := h
        rcases (r.ordered n).held_of_does (r.step n) ht hmem with
          ⟨thread', ht', hheld⟩ | ⟨t', thread', haction, ht', hhands⟩
        · exact absurd ⟨t, thread', ht', hheld⟩ hbefore
        · exact ⟨n, t', thread', Nat.lt_succ_self n, hbefore, haction, ht', hhands⟩

theorem Has.exists_does (hstart : (r.world 0).Starting) (h : r.Has n task)
    (htask : task.IsPassedOn) :
    ∃ m t task', m < n ∧ r.Does m t task' ∧ task'.Hands (r.world m).heap task := by
  have hminor : ¬task.IsMinor := by
    cases task with
    | submit scheduler work => exact id
    | perform work => exact id
    | register register target => exact id
    | invoke target outcome => exact id
    | fill id v => exact not_false
    | subscribe id subscriber => exact not_false
    | tell subscriber v => exact not_false
    | _ => exact htask.elim
  obtain ⟨m, t, thread, hm, hnew, haction, ht, hhands⟩ := h.exists_hands hstart hminor
  have hback {v : Except Payload (Value H.Data H.Fn)} {back : Return H} (hback : back.Hands v task)
      (hmem : back ∈ thread.stack) : False := by
    cases hback with
    | minor h => exact hminor h
    | after =>
        refine hnew ⟨t, thread, ht, ?_⟩
        exact List.mem_append_right _ (List.mem_flatMap.2 ⟨_, hmem, by simp [Return.held]⟩)
    | _ => exact htask
  cases hhands with
  | minor h => exact absurd h hminor
  | @task name task' _ stack hhands =>
      exact ⟨m, t, task', hm, ⟨haction, name, stack, ht⟩, hhands⟩
  | ret h => exact (hback h (by simp)).elim
  | raise h => exact (hback h (by simp)).elim

/-- A unit of work that is in hand has been made before. -/
theorem exists_makes (hstart : (r.world 0).Starting)
    (h : r.Has n (.perform work) ∨ ∃ scheduler, r.Has n (.submit scheduler work)) :
    ∃ m t task, m < n ∧ r.Does m t task ∧ task.Makes (r.world m).heap work := by
  have hsubmit {n : Nat} {scheduler : SchedulerId} (h : r.Has n (.submit scheduler work)) :
      ∃ m t task, m < n ∧ r.Does m t task ∧ task.Makes (r.world m).heap work := by
    obtain ⟨m, t, task, hm, hdoes, hhands⟩ := h.exists_does hstart trivial
    refine ⟨m, t, task, hm, hdoes, ?_⟩
    cases hhands with
    | minor h => exact h.elim
    | suspend hstep => exact .registration hstep
    | fork => exact .fork
    | request h =>
        cases h with
        | runFiber => exact .runFiber
        | submit => exact .request rfl
  rcases h with h | ⟨scheduler, h⟩
  · obtain ⟨m, t, task, hm, hdoes, hhands⟩ := h.exists_does hstart trivial
    cases hhands with
    | minor h => exact h.elim
    | submit =>
        obtain ⟨k, t', task', hk, hmade⟩ := hsubmit hdoes.has
        exact ⟨k, t', task', Nat.lt_trans hk hm, hmade⟩
    | request h =>
        cases h with
        | perform => exact ⟨m, t, _, hm, hdoes, .request rfl⟩
  · exact hsubmit h

/-- An interpretation under way has begun, and has been at its places since. -/
theorem exists_begins {q : Place} {stage : Stage H.Data H.Fn} {finish : Finish H.Fn}
    (h : (r.world n).pendingAt q = some (stage, finish)) :
    ∃ k j p node, n = k + 1 + j ∧
      (r.world k).Begins (r.world (k + 1)) (r.action k) p node finish ∧
        r.place (k + 1) p j = some q := by
  induction n generalizing q stage with
  | zero =>
      rw [r.initial.pendingAt] at h
      contradiction
  | succ n ih =>
      rcases (r.sound n).origin (r.step n) h with ⟨p', stage', hold, hnext⟩ | ⟨node, -, hbegins⟩
      · obtain ⟨k, j, p, node, rfl, hbegins, hplace⟩ := ih hold
        refine ⟨k, j + 1, p, node, rfl, hbegins, ?_⟩
        rw [place, hplace]
        exact hnext
      · exact ⟨n, 0, q, node, rfl, hbegins, rfl⟩

/-- No request of the host names an object. -/
def Hides (r : Run H) (object : Ref) : Prop :=
  ∀ n t q, r.Does n t (.request q) → object ∉ q.refs []

/-- At time `n` thread `t` comes to an async node, the meeting point of which is `id`. -/
def ComesTo (r : Run H) (n : Nat) (t : ThreadId) (register : Register H.Fn)
    (scheduler : SchedulerId) (id : HandoffId) : Prop :=
  ∃ i last finish frames, r.Does n t (.drive i last finish) ∧
    i.step = .suspend register scheduler frames ∧ id = (r.world n).heap.handoffs.size

theorem ComesTo.unique {register register' : Register H.Fn} {s s' : SchedulerId} {id : HandoffId}
    (h : r.ComesTo n t register s id) (h' : r.ComesTo m t' register' s' id) :
    n = m ∧ t = t' ∧ register = register' ∧ s = s' := by
  obtain ⟨i, last, finish, frames, hdoes, hstep, hid⟩ := h
  obtain ⟨i', last', finish', frames', hdoes', hstep', hid'⟩ := h'
  obtain ⟨haction, name, stack, ht⟩ := hdoes
  obtain ⟨haction', name', stack', ht'⟩ := hdoes'
  obtain ⟨rfl, -⟩ := Suspends.unique
    ⟨t, name, i, last, stack, register, s, haction, ht, hstep, hid⟩
    ⟨t', name', i', last', stack', register', s', haction', ht', hstep', hid'⟩
  obtain ⟨rfl, htask⟩ := Does.unique ⟨haction, name, stack, ht⟩ ⟨haction', name', stack', ht'⟩
  obtain ⟨rfl, -, -⟩ := Task.drive.inj htask
  obtain ⟨rfl, rfl, -⟩ := Progress.suspend.inj (hstep.symm.trans hstep')
  exact ⟨rfl, rfl, rfl, rfl⟩

theorem promised?_of_le {id : PromiseId} {v : Value H.Data H.Fn} (hstart : (r.world 0).Starting)
    (h : (r.world n).heap.promised? id = some v) (hnm : n ≤ m) :
    (r.world m).heap.promised? id = some v := by
  obtain ⟨k, t, hk, hwrites⟩ := (promised?_eq_some hstart).1 h
  exact (promised?_eq_some hstart).2 ⟨k, t, Nat.lt_of_lt_of_le hk hnm, hwrites⟩

-- A node whose meeting point the host does not name.
section Node

variable {k : Nat} {s : ThreadId} {registration : Register H.Fn} {scheduler : SchedulerId}
  {id : HandoffId} (hstart : (r.world 0).Starting) (hhides : r.Hides (.handoff id))
  (hcomes : r.ComesTo k s registration scheduler id)

include hstart hhides hcomes

theorem register_eq {register : Register H.Fn}
    (h : r.Has n (.perform (.register register id)) ∨
      ∃ scheduler, r.Has n (.submit scheduler (.register register id))) :
    k < n ∧ register = registration := by
  obtain ⟨m, t, task, hm, hdoes, hmakes⟩ := exists_makes hstart h
  cases hmakes with
  | registration hstep =>
      obtain ⟨rfl, -, rfl, -⟩ := ComesTo.unique hcomes ⟨_, _, _, _, hdoes, hstep, rfl⟩
      exact ⟨hm, rfl⟩
  | request hwork =>
      exact absurd (Request.mem_refs_of_work hwork (by simp [Work.kept])) (hhides m t _ hdoes)

theorem registered_eq {register : Register H.Fn} (h : r.Has n (.register register (.node id))) :
    k < n ∧ register = registration := by
  obtain ⟨m, t, task, hm, hdoes, hhands⟩ := h.exists_does hstart trivial
  cases hhands with
  | minor h => exact h.elim
  | request h => cases h
  | register =>
      obtain ⟨hk, rfl⟩ := register_eq hstart hhides hcomes (.inl hdoes.has)
      exact ⟨Nat.lt_trans hk hm, rfl⟩

/-- Who subscribes for the node joins the fiber for it. -/
theorem subscriber_eq {promise : PromiseId} {subscriber : Subscriber H.Fn}
    (h : r.Has n (.subscribe promise subscriber)) (htarget : subscriber.target? = some (.node id)) :
    ∃ value error, registration = .join value error promise ∧
      subscriber = .join value error (.node id) := by
  obtain ⟨m, t, task, hm, hdoes, hhands⟩ := h.exists_does hstart trivial
  cases hhands with
  | minor h => exact h.elim
  | request h =>
      cases h with
      | subscribe => contradiction
      | observe =>
          obtain rfl := Option.some.inj htarget
          exact absurd (by simp [Request.refs, Callback.kept]) (hhides m t _ hdoes)
  | join =>
      obtain rfl := Option.some.inj htarget
      obtain ⟨-, rfl⟩ := registered_eq hstart hhides hcomes hdoes.has
      exact ⟨_, _, rfl, rfl⟩

omit hcomes in
/-- No interpretation is finished by the callback of the node. -/
theorem finish_ne_callback {q : Place} {stage : Stage H.Data H.Fn} {value' error' : Ty} :
    (r.world n).pendingAt q ≠ some (stage, .callback value' error' (.node id)) := by
  intro h
  obtain ⟨m, -, -, node, -, ⟨⟨t, name, task, stack, -, haction, -, ht, hstarts⟩, -⟩, -⟩ :=
    exists_begins h
  have hdoes : r.Does m t task := ⟨haction, name, stack, ht⟩
  cases hstarts with
  | runWith => exact absurd (by simp [Request.refs, Callback.kept]) (hhides m t _ hdoes)
  | interpret =>
      obtain ⟨m', t', task', -, hdoes', hmakes⟩ := exists_makes hstart (.inl hdoes.has)
      cases hmakes with
      | request hwork =>
          refine absurd (Request.mem_refs_of_work hwork ?_) (hhides m' t' _ hdoes')
          simp [Work.kept, Finish.kept, Callback.kept]

theorem told_eq {subscriber : Subscriber H.Fn} {v : Value H.Data H.Fn}
    (h : r.Has n (.tell subscriber v)) (htarget : subscriber.target? = some (.node id)) :
    ∃ value error fiber, registration = .join value error fiber ∧
      subscriber = .join value error (.node id) ∧ (r.world n).heap.promised? fiber = some v := by
  obtain ⟨m, t, task, hm, hdoes, hhands⟩ := h.exists_does hstart trivial
  have htells : ∃ promise, r.Tells promise m t subscriber v := by
    cases hhands with
    | minor h => exact h.elim
    | request h => cases h
    | tell => exact ⟨_, .kept hdoes⟩
    | subscribe hpromised => exact ⟨_, .late hdoes hpromised⟩
  obtain ⟨promise, htells⟩ := htells
  obtain ⟨⟨k', t', hk', hwrites⟩, n', hserves⟩ := htells.serves hstart
  have hsubscribes : ∃ t, r.Subscribes promise n' t subscriber := by
    cases hserves with
    | onTheSpot hsubscribes => exact ⟨_, hsubscribes⟩
    | later hsubscribes => exact ⟨_, hsubscribes⟩
  obtain ⟨t'', hsubscribes⟩ := hsubscribes
  obtain ⟨value, error, hjoin, hsubscriber⟩ :=
    subscriber_eq hstart hhides hcomes hsubscribes.1.has htarget
  exact ⟨value, error, promise, hjoin, hsubscriber,
    (promised?_eq_some hstart).2 ⟨k', t', Nat.lt_trans hk' hm, hwrites⟩⟩

/-- The callback of the node is invoked at the end of a sleep, or with the value of the promise of
the fiber that the node joins. -/
theorem invoked_eq {outcome : Outcome H.Data H.Fn} (h : r.Has n (.invoke (.node id) outcome)) :
    (∃ nanoseconds, registration = .sleep nanoseconds ∧ outcome = .ok .unit) ∨
      ∃ value error fiber v, registration = .join value error fiber ∧ outcome = .ok v ∧
        (r.world n).heap.promised? fiber = some v := by
  obtain ⟨m, t, task, hm, hdoes, hhands⟩ := h.exists_does hstart trivial
  cases hhands with
  | minor h => exact h.elim
  | request h =>
      cases h with
      | complete => exact absurd (by simp [Request.refs, Callback.kept]) (hhides m t _ hdoes)
  | callback =>
      obtain ⟨haction, name, stack, ht⟩ := hdoes
      exact absurd (World.pendingAt_run ht) (finish_ne_callback hstart hhides)
  | sleep =>
      obtain ⟨-, rfl⟩ := registered_eq hstart hhides hcomes hdoes.has
      exact .inl ⟨_, rfl, rfl⟩
  | joined =>
      obtain ⟨value, error, fiber, hjoin, -, hpromised⟩ :=
        told_eq hstart hhides hcomes hdoes.has rfl
      exact .inr ⟨value, error, fiber, _, hjoin, rfl,
        promised?_of_le hstart hpromised (Nat.le_of_lt hm)⟩
  | observed =>
      obtain ⟨_, _, _, -, heq, -⟩ := told_eq hstart hhides hcomes hdoes.has rfl
      contradiction

end Node

theorem promises_size_le (hnm : n ≤ m) :
    (r.world n).heap.promises.size ≤ (r.world m).heap.promises.size := by
  induction hnm with
  | refl => exact Nat.le_refl _
  | @step m _ ih =>
      refine Nat.le_trans ih ?_
      rcases World.alters_of_does (r.step m) with ⟨hsame, -⟩ | ⟨_, _, _, _, -, -, halters⟩
      · exact Nat.le_of_eq (by rw [hsame])
      · cases halters <;> simp_all

/-- A promise is made once. -/
theorem eq_of_promises_size {id : PromiseId} (hn : (r.world n).heap.promises.size = id)
    (hn' : (r.world (n + 1)).heap.promises.size = id + 1)
    (hm : (r.world m).heap.promises.size = id)
    (hm' : (r.world (m + 1)).heap.promises.size = id + 1) : n = m := by
  have hlate {n m : Nat} (hn' : (r.world (n + 1)).heap.promises.size = id + 1)
      (hm : (r.world m).heap.promises.size = id) : ¬n < m := by
    intro hlt
    have hle := promises_size_le (r := r) hlt
    rw [hn', hm] at hle
    exact Nat.not_succ_le_self id hle
  exact Nat.le_antisymm (Nat.le_of_not_lt (hlate hm' hn)) (Nat.le_of_not_lt (hlate hn' hm))

theorem Does.promises_size (h : r.Does n t task) (huser : ∀ code reply, task ≠ .user code reply)
    {ty : Ty} (hpush : ∀ here stack, (task.turn here stack (r.world n).heap).heap.promises =
      (r.world n).heap.promises.push (.empty ty)) :
    (r.world (n + 1)).heap.promises.size = (r.world n).heap.promises.size + 1 := by
  obtain ⟨name, stack, -, happly⟩ := h.turn huser
  rw [happly, World.heap_apply, hpush, Array.size_push]

end Run

end Trampoline
