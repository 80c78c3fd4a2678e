import Trampoline.Proofs.Beginnings

/-!
What comes through the channel of a blocked caller or of a future. The channel is made together with
the interpretation that ends into it, and no other one ever does; so what is received is the exit of
that interpretation.
-/

namespace Trampoline

variable {H : Host}

/-- The channel into which an exit goes. -/
def Finish.channel? {F : Type} : Finish F → Option ChannelId
  | .channel _ _ id => some id
  | _ => none

/-- The unit of work that a request hands in. -/
def Request.work? {D F : Type} : Request D F → Option (Work D F)
  | .submit _ work => some work
  | .perform work => some work
  | _ => none

/-- The unit of work that a task has in hand. -/
def Task.work? : Task H → Option (Work H.Data H.Fn)
  | .submit _ work => some work
  | .perform work => some work
  | .request q => q.work?
  | _ => none

/-- Whether a unit of work interprets an effect whose exit goes into a channel. -/
def Work.IsInto {D F : Type} (id : ChannelId) : Work D F → Prop
  | .interpret _ finish => finish.channel? = some id
  | _ => False

/-- A unit of work that ends into a channel is handed on, or has been handed in by a request. -/
theorem Task.Hands.work {heap : Heap H.Data H.Fn} {task task' : Task H}
    {work : Work H.Data H.Fn} {id : ChannelId} (h : task.Hands heap task')
    (hwork : task'.work? = some work) (hinto : work.IsInto id)
    (hrequest : ∀ q, task' ≠ .request q) : task.work? = some work := by
  cases h with
  | minor hminor =>
      cases task' with
      | request q => exact absurd rfl (hrequest q)
      | submit scheduler work' => exact hminor.elim
      | perform work' => exact hminor.elim
      | _ => contradiction
  | request hq =>
      cases hq with
      | submit => exact hwork
      | perform => exact hwork
      | runFiber =>
          obtain rfl := Option.some.inj hwork
          simp [Work.IsInto, Finish.channel?] at hinto
      | _ => contradiction
  | suspend =>
      obtain rfl := Option.some.inj hwork
      exact hinto.elim
  | fork =>
      obtain rfl := Option.some.inj hwork
      simp [Work.IsInto, Finish.channel?] at hinto
  | submit => exact hwork
  | _ => contradiction

theorem Return.Hands.work {r : Except Payload (Value H.Data H.Fn)} {back : Return H}
    {task : Task H} {work : Work H.Data H.Fn} (h : back.Hands r task)
    (hwork : task.work? = some work) (hrequest : ∀ q, task ≠ .request q) : task ∈ back.held := by
  cases h with
  | minor hminor =>
      cases task with
      | request q => exact absurd rfl (hrequest q)
      | submit scheduler work' => exact hminor.elim
      | perform work' => exact hminor.elim
      | _ => contradiction
  | after => exact List.mem_singleton_self task
  | _ => contradiction

/-- A slot of the futures after one of them has been changed, unless it runs then. -/
theorem Heap.futures_setFuture {D F : Type} {heap : Heap D F} {future future' : FutureId}
    {x : Future D F} {id : ChannelId} (hx : ∀ id, x ≠ .running id)
    (h : (heap.setFuture future' x).futures[future]? = some (.running id)) :
    heap.futures[future]? = some (.running id) := by
  simp only [setFuture, Array.getElem?_setIfInBounds] at h
  split at h
  · split at h
    · exact absurd (Option.some.inj h) (hx id)
    · contradiction
  · exact h

variable {here : Here} {stack : List (Return H)} {heap : Heap H.Data H.Fn} {future : FutureId}
  {id : ChannelId}

theorem Request.turn_futures (q : Request H.Data H.Fn)
    (h : (q.turn (H := H) stack heap).heap.futures[future]? = some (.running id)) :
    heap.futures[future]? = some (.running id) ∨
      (∃ value error, q = .poll value error future) ∧ id = heap.channels.size ∧
        (q.turn (H := H) stack heap).heap.channels = heap.channels.push .empty := by
  cases q with
  | runAsync value error node =>
      simp only [turn, Heap.newFuture, Turn.ret, Array.getElem?_push] at h
      split at h
      · cases h
      · exact .inl h
  | poll value error future' =>
      simp only [turn] at h ⊢
      split at h
      · simp only [Turn.call, Heap.setFuture, Heap.newChannel,
          Array.getElem?_setIfInBounds] at h
        split at h
        · rename_i heq
          subst heq
          split at h
          · obtain rfl := Future.running.inj (Option.some.inj h)
            exact .inr ⟨⟨value, error, rfl⟩, rfl, rfl⟩
          · contradiction
        · exact .inl h
      · exact .inl h
      · exact .inl h
      · exact .inl h
      · exact .inl h
  | dropFuture future' =>
      simp only [turn] at h
      split at h
      · exact .inl (Heap.futures_setFuture (by simp) h)
      · exact .inl (Heap.futures_setFuture (by simp) h)
  | blockOn value error node =>
      simp only [turn] at h
      split at h
      · exact .inl h
      · exact .inl h
  | awaitFor promise nanoseconds =>
      simp only [turn] at h
      split at h
      · exact .inl h
      · exact .inl h
  | awaitFiberFor fiber nanoseconds =>
      simp only [turn] at h
      split at h
      · exact .inl h
      · exact .inl h
  | spawn name f =>
      simp only [turn] at h
      split at h
      · exact .inl h
      · exact .inl h
  | _ => exact .inl h

theorem Task.turn_futures (task : Task H)
    (h : (task.turn here stack heap).heap.futures[future]? = some (.running id)) :
    heap.futures[future]? = some (.running id) ∨
      (∃ value error, task = .request (.poll value error future)) ∧ id = heap.channels.size ∧
        (task.turn here stack heap).heap.channels = heap.channels.push .empty := by
  by_cases hlocal : task.IsLocal
  · exact .inl (by rwa [hlocal.isLike.futures] at h)
  cases task with
  | request q =>
      rcases q.turn_futures h with hold | ⟨⟨value, error, rfl⟩, hid, hchannels⟩
      · exact .inl hold
      · exact .inr ⟨⟨value, error, rfl⟩, hid, hchannels⟩
  | submit scheduler work =>
      simp only [turn, submitTurn] at h
      repeat' split at h
      all_goals exact .inl h
  | report scheduler failure =>
      simp only [turn, reportTurn] at h
      repeat' split at h
      all_goals exact .inl h
  | collect value error future' channel =>
      simp only [turn] at h
      split at h
      · exact .inl (Heap.futures_setFuture (by simp) h)
      · exact .inl (Heap.futures_setFuture (by simp) h)
      · exact .inl h
  | hang value error future' channel =>
      simp only [turn] at h
      split at h
      · exact .inl h
      · exact .inl (Heap.futures_setFuture (by simp) h)
  | _ => exact absurd trivial hlocal

/-- What a task makes of a channel that exists. -/
theorem Task.Alters.channel {heap heap' : Heap H.Data H.Fn} {task : Task H} {id : ChannelId}
    {c : Channel H.Data H.Fn} (h : task.Alters heap heap') (hc : heap.channels[id]? = some c) :
    heap'.channels[id]? = some c ∨
      (∃ future, task = .request (.dropFuture future) ∧
        heap.futures[future]? = some (.running id) ∧ heap'.channels[id]? = some .closed) ∨
      ∃ value error exit exit', task = .conclude exit (.channel value error id) ∧
        (∀ payload, exit = .panicked payload → exit' = .panicked payload) ∧
          heap'.channels[id]? = some (c.send exit') := by
  obtain ⟨hlt, hget⟩ := Array.getElem?_eq_some_iff.1 hc
  have hsame (hchannels : heap'.channels = heap.channels) : heap'.channels[id]? = some c := by
    rw [hchannels, hc]
  cases h with
  | nothing _ hchannels => exact .inl (hsame hchannels)
  | newPromise _ hchannels => exact .inl (hsame hchannels)
  | newChannel _ hchannels => exact .inl (by rw [hchannels, Array.getElem?_push_lt hlt, hget])
  | write _ _ hchannels => exact .inl (hsame hchannels)
  | take _ _ hchannels => exact .inl (hsame hchannels)
  | keep _ _ hchannels => exact .inl (hsame hchannels)
  | @send value error id' exit exit' _ hsent _ hchannels =>
      by_cases hid : id' = id
      · subst hid
        refine .inr (.inr ⟨value, error, exit, exit', rfl, fun payload hpanicked => ?_, ?_⟩)
        · subst hpanicked
          rcases hsent with ⟨payload', heq, rfl⟩ | ⟨outcome, hrestore, -⟩
          · exact heq.symm
          · contradiction
        · rw [hchannels, Array.getElem?_modify, if_pos rfl, hc, Option.map_some]
      · exact .inl (by rw [hchannels, Array.getElem?_modify, if_neg hid, hc])
  | @close future id' _ hfuture _ hchannels =>
      by_cases hid : id' = id
      · subst hid
        refine .inr (.inl ⟨future, rfl, hfuture, ?_⟩)
        rw [hchannels, Array.getElem?_setIfInBounds_self_of_lt hlt]
      · exact .inl (by rw [hchannels, Array.getElem?_setIfInBounds_ne hid, hc])

/-- An interpretation that is started by a request and ends into a channel comes with a new one,
unless the request panics. -/
theorem Task.Starts.channels (here : Here) (stack : List (Return H)) {heap : Heap H.Data H.Fn}
    {task : Task H} {node : Node H.Data H.Fn} {value error : Ty} {id : ChannelId}
    (h : task.Starts heap node (.channel value error id))
    (hwork : task ≠ .perform (.interpret node (.channel value error id))) :
    id = heap.channels.size ∧ task.pending? = none ∧ (∀ code reply, task ≠ .user code reply) ∧
      ((task.turn here stack heap).heap.channels = heap.channels.push .empty ∨
        ∃ payload, task.turn here stack heap = .raise heap payload) := by
  cases h with
  | runBlocking => exact ⟨rfl, rfl, by simp, .inl rfl⟩
  | poll hfuture =>
      refine ⟨rfl, rfl, by simp, .inl ?_⟩
      simp [turn, Request.turn, hfuture, Turn.call, Heap.setFuture, Heap.newChannel]
  | @blockOn _ _ node =>
      refine ⟨rfl, rfl, by simp, ?_⟩
      by_cases hnested : stack.any Return.isDriving
      · exact .inr ⟨drivenWithin, by simp [turn, Request.turn, hnested]⟩
      · exact .inl (by simp [turn, Request.turn, hnested, Heap.newChannel])
  | interpret => exact absurd rfl hwork

namespace Run

variable {r : Run H} {id : ChannelId} {n m k : Nat} {t : ThreadId} {task task' : Task H}
  {p q : Place}

/-- No unit of work that a request hands in ends into the channel. The library makes no such unit of
work, and others cannot be made. -/
def IsPrivate (r : Run H) (id : ChannelId) : Prop :=
  ∀ n t q work, r.Does n t (.request q) → q.work? = some work → ¬work.IsInto id

/-- A future whose effect ends into the channel is dropped. -/
def Drops (r : Run H) (n : Nat) (id : ChannelId) : Prop :=
  ∃ t future, r.Does n t (.request (.dropFuture future)) ∧
    (r.world n).heap.futures[future]? = some (.running id)

/-- The interpretation at `q` ends into the channel. -/
def EndsInto (r : Run H) (n : Nat) (q : Place) (id : ChannelId) : Prop :=
  ∃ stage value error, (r.world n).pendingAt q = some (stage, .channel value error id)

/-- A request makes the channel. -/
def Opens (r : Run H) (n : Nat) (q : Request H.Data H.Fn) (id : ChannelId) : Prop :=
  (∃ t, r.Does n t (.request q)) ∧ (r.world n).heap.channels.size = id ∧
    (r.world (n + 1)).heap.channels.size = id + 1

theorem channel_next {c : Channel H.Data H.Fn} (h : (r.world n).heap.channels[id]? = some c) :
    (r.world (n + 1)).heap.channels[id]? = some c ∨
      r.Drops n id ∧ (r.world (n + 1)).heap.channels[id]? = some .closed ∨
      ∃ t value error exit exit', r.Does n t (.conclude exit (.channel value error id)) ∧
        (∀ payload, exit = .panicked payload → exit' = .panicked payload) ∧
          (r.world (n + 1)).heap.channels[id]? = some (c.send exit') := by
  rcases World.alters_of_does (r.step n) with
    ⟨-, hchannels⟩ | ⟨t, name, task, stack, haction, ht, halters⟩
  · exact .inl (by rw [hchannels, h])
  · rcases halters.channel h with hsame | ⟨future, rfl, hfuture, hclosed⟩ |
      ⟨value, error, exit, exit', rfl, hexit, hsent⟩
    · exact .inl hsame
    · exact .inr (.inl ⟨⟨t, future, ⟨haction, name, stack, ht⟩, hfuture⟩, hclosed⟩)
    · exact .inr (.inr ⟨t, value, error, exit, exit', ⟨haction, name, stack, ht⟩, hexit, hsent⟩)

theorem channels_size_le (hnm : n ≤ m) :
    (r.world n).heap.channels.size ≤ (r.world m).heap.channels.size := by
  induction hnm with
  | refl => exact Nat.le_refl _
  | @step m _ ih =>
      refine Nat.le_trans ih (Nat.le_of_not_lt fun hlt => ?_)
      rcases channel_next (Array.getElem?_eq_getElem hlt) with
        hsame | ⟨-, hclosed⟩ | ⟨_, _, _, _, _, -, -, hsent⟩
      · simp at hsame
      · simp at hclosed
      · simp at hsent

theorem Opens.unique {q q' : Request H.Data H.Fn}
    (h : r.Opens n q id) (h' : r.Opens m q' id) : n = m ∧ q = q' := by
  have hlate {n m : Nat} {q q' : Request H.Data H.Fn} (h : r.Opens n q id)
      (h' : r.Opens m q' id) : ¬n < m := by
    intro hlt
    have hle := channels_size_le (r := r) hlt
    rw [h.2.2, h'.2.1] at hle
    exact Nat.not_succ_le_self id hle
  obtain rfl := Nat.le_antisymm (Nat.le_of_not_lt (hlate h' h)) (Nat.le_of_not_lt (hlate h h'))
  obtain ⟨⟨t, hdoes⟩, -⟩ := h
  obtain ⟨⟨t', hdoes'⟩, -⟩ := h'
  exact ⟨rfl, Task.request.inj (hdoes.unique hdoes').2⟩

/-- A future that runs on a channel has been polled when the channel was made. -/
theorem exists_opens_of_running (hstart : (r.world 0).Starting) {future : FutureId}
    (h : (r.world n).heap.futures[future]? = some (.running id)) :
    ∃ k value error, k < n ∧ r.Opens k (.poll value error future) id := by
  induction n with
  | zero => simp [hstart.futures] at h
  | succ n ih =>
      have hearlier (hold : (r.world n).heap.futures[future]? = some (.running id)) :
          ∃ k value error, k < n + 1 ∧ r.Opens k (.poll value error future) id := by
        obtain ⟨k, value, error, hk, hopens⟩ := ih hold
        exact ⟨k, value, error, Nat.lt_succ_of_lt hk, hopens⟩
      rcases World.heap_of_does (r.step n) with
        ⟨clock, -, hheap⟩ | ⟨t, name, payload, value, error, future', channel, rest, -, -, hheap⟩ |
        ⟨t, name, task, stack, haction, ht, hheap⟩
      · rw [hheap] at h
        exact hearlier h
      · rw [hheap] at h
        exact hearlier (Heap.futures_setFuture (by simp) h)
      · rw [hheap] at h
        rcases task.turn_futures h with hold | ⟨⟨value, error, rfl⟩, hid, hchannels⟩
        · exact hearlier hold
        · refine ⟨n, value, error, Nat.lt_succ_self n, ⟨t, haction, name, stack, ht⟩, hid.symm, ?_⟩
          rw [hheap, hchannels, Array.size_push, hid]

/-- Only a channel that was made for a future is dropped. -/
theorem Drops.exists_opens (hstart : (r.world 0).Starting) (h : r.Drops n id) :
    ∃ k value error future, r.Opens k (.poll value error future) id := by
  obtain ⟨t, future, -, hfuture⟩ := h
  obtain ⟨k, value, error, -, hopens⟩ := exists_opens_of_running hstart hfuture
  exact ⟨k, value, error, future, hopens⟩

theorem Opens.not_drops {q : Request H.Data H.Fn} (hstart : (r.world 0).Starting)
    (h : r.Opens k q id) (hpoll : ∀ value error future, q ≠ .poll value error future) (n : Nat) :
    ¬r.Drops n id := by
  intro hdrops
  obtain ⟨j, value, error, future, hopens⟩ := hdrops.exists_opens hstart
  exact hpoll value error future (h.unique hopens).2

/-- No unit of work that ends into the channel is ever in hand, except in a request. -/
theorem IsPrivate.not_isInto (hprivate : r.IsPrivate id) (hstart : (r.world 0).Starting)
    {thread : Thread H} (ht : (r.world n).threads[t]? = some thread) (hmem : task ∈ thread.held)
    (hrequest : ∀ q, task ≠ .request q) {work : Work H.Data H.Fn}
    (hwork : task.work? = some work) : ¬work.IsInto id := by
  intro hinto
  induction n generalizing t thread task with
  | zero =>
      obtain ⟨name, code, rfl⟩ := hstart.threads t thread ht
      obtain rfl := by simpa [Thread.held, Thread.starting, Control.held] using hmem
      contradiction
  | succ n ih =>
      rcases (r.ordered n).held_of_does (r.step n) ht hmem with
        ⟨thread', ht', hold⟩ | ⟨t', thread', haction, ht', hhands⟩
      · exact ih ht' hold hrequest hwork
      · have hminor (hminor : task.IsMinor) : False := by
          cases task with
          | request q => exact hrequest q rfl
          | submit scheduler work' => exact hminor.elim
          | perform work' => exact hminor.elim
          | _ => contradiction
        cases hhands with
        | minor h => exact hminor h
        | @task name task₀ _ stack hhands =>
            have hwork₀ := hhands.work hwork hinto hrequest
            by_cases hq : ∃ q, task₀ = .request q
            · obtain ⟨q, rfl⟩ := hq
              exact hprivate n t' q work ⟨haction, name, stack, ht'⟩ hwork₀ hinto
            · exact ih ht' (by simp [Thread.held, Control.held]) (fun q heq => hq ⟨q, heq⟩) hwork₀
        | ret hhands =>
            have hback := hhands.work hwork hrequest
            exact ih ht' (by simp [Thread.held, hback]) hrequest hwork
        | raise hhands =>
            have hback := hhands.work hwork hrequest
            exact ih ht' (by simp [Thread.held, hback]) hrequest hwork

section Private

variable (hstart : (r.world 0).Starting) (hprivate : r.IsPrivate id)

include hstart hprivate

/-- An interpretation that starts and ends into the channel comes with it. -/
theorem opened_of_begins {node : Node H.Data H.Fn} {value error : Ty}
    (h : (r.world n).Begins (r.world (n + 1)) (r.action n) q node (.channel value error id)) :
    id = (r.world n).heap.channels.size ∧
      (r.world (n + 1)).heap.channels = (r.world n).heap.channels.push .empty := by
  obtain ⟨t, name, task, stack, l, haction, rfl, ht, hstarts⟩ := h.starts
  have hwork : task ≠ .perform (.interpret node (.channel value error id)) := by
    intro heq
    have hmem : task ∈ (⟨name, .run task, stack⟩ : Thread H).held := by
      simp [Thread.held, Control.held]
    have hinto : (Work.interpret node (.channel value error id)).IsInto id := rfl
    exact hprivate.not_isInto hstart ht hmem (by simp [heq]) (by rw [heq]; rfl) hinto
  obtain ⟨hid, hpending, huser, hturn⟩ := hstarts.channels ⟨t, name⟩ stack hwork
  refine ⟨hid, ?_⟩
  have hdoes : r.Does n t task := ⟨haction, name, stack, ht⟩
  obtain ⟨name', stack', ht', happly⟩ := hdoes.turn huser
  obtain ⟨rfl, -, rfl⟩ := Thread.mk.inj (Option.some.inj (ht.symm.trans ht'))
  rcases hturn with hpush | ⟨payload, hraise⟩
  · rw [happly, World.heap_apply, hpush]
  · -- A request that panics starts nothing.
    rw [hraise] at happly
    have hafter := ((r.ordered n).changes_apply ht (.raise payload) (r.world n).heap).thread
    obtain ⟨name₁, stack₁, ht₁, hnext⟩ := hafter
    obtain ⟨rfl, -, rfl⟩ := Thread.mk.inj (Option.some.inj (ht.symm.trans ht₁))
    have hat := h.puts.pendingAt
    have hfree := h.free
    have hbefore : (Control.run task).pending? = none := hpending
    rw [World.pendingAt, ht, Option.bind_some, Thread.pendingAt_of_control hbefore] at hfree
    rw [happly] at hat
    change (World.apply _ _ _ _ _ _ ⟨_, [], .raise payload, none, none⟩).pendingAt _ = _ at hat
    rw [World.pendingAt, hnext, Option.bind_some, Thread.pendingAt_of_control rfl, hfree] at hat
    contradiction

theorem EndsInto.back (h : r.EndsInto (n + 1) q id) :
    (∃ p, r.EndsInto n p id ∧ (r.world n).next? (r.action n) p = some q) ∨
      (r.world n).heap.channels.size = id ∧
        (r.world (n + 1)).heap.channels = (r.world n).heap.channels.push .empty ∧
          ∀ q', r.EndsInto (n + 1) q' id → q' = q ∨ r.EndsInto n q' id := by
  obtain ⟨stage, value, error, hq⟩ := h
  rcases (r.sound n).origin (r.step n) hq with ⟨p, stage₀, hp, hnext⟩ | ⟨node, rfl, hbegins⟩
  · exact .inl ⟨p, ⟨stage₀, value, error, hp⟩, hnext⟩
  · obtain ⟨hid, hchannels⟩ := opened_of_begins hstart hprivate hbegins
    refine .inr ⟨hid.symm, hchannels, ?_⟩
    rintro q' ⟨stage', value', error', hq'⟩
    rcases hbegins.puts.of_pendingAt hq' with ⟨heq, -⟩ | ⟨-, -, hold⟩
    · exact .inl heq
    · exact .inr ⟨stage', value', error', hold⟩

theorem EndsInto.lt (h : r.EndsInto n q id) : id < (r.world n).heap.channels.size := by
  induction n generalizing q with
  | zero =>
      obtain ⟨stage, value, error, hq⟩ := h
      rw [hstart.initial.pendingAt] at hq
      contradiction
  | succ n ih =>
      rcases h.back hstart hprivate with ⟨p, hp, -⟩ | ⟨hid, hchannels, -⟩
      · exact Nat.lt_of_lt_of_le (ih hp) (channels_size_le (Nat.le_succ n))
      · rw [hchannels, Array.size_push, hid]
        exact Nat.lt_succ_self id

/-- At most one interpretation ends into the channel. -/
theorem EndsInto.unique (hp : r.EndsInto n p id) (hq : r.EndsInto n q id) : p = q := by
  induction n generalizing p q with
  | zero => exact absurd (hp.lt hstart hprivate) (by simp [hstart.channels])
  | succ n ih =>
      rcases hp.back hstart hprivate with ⟨p₀, hp₀, hnext⟩ | ⟨hid, -, hothers⟩
      · rcases hq.back hstart hprivate with ⟨q₀, hq₀, hnext'⟩ | ⟨hid, -, -⟩
        · obtain rfl := ih hp₀ hq₀
          exact Option.some.inj (hnext.symm.trans hnext')
        · exact absurd (hp₀.lt hstart hprivate) (by simp [hid])
      · rcases hothers q hq with rfl | hq₀
        · rfl
        · exact absurd (hq₀.lt hstart hprivate) (by simp [hid])

/-- It is the same one over time. -/
theorem EndsInto.place {b : Nat} (hp : r.EndsInto b p id) (hq : r.EndsInto (b + n) q id) :
    r.place b p n = some q := by
  induction n generalizing q with
  | zero => exact congrArg some (hp.unique hstart hprivate hq)
  | succ n ih =>
      have hq' : r.EndsInto (b + n + 1) q id := hq
      rcases hq'.back hstart hprivate with ⟨q₀, hq₀, hnext⟩ | ⟨hid, -, -⟩
      · rw [Run.place, ih hq₀, Option.bind_some, hnext]
      · have hle := channels_size_le (r := r) (Nat.le_add_right b n)
        exact absurd (Nat.lt_of_lt_of_le (hp.lt hstart hprivate) hle) (by simp [hid])

/-- While the interpretation is under way, nothing has come through the channel. -/
theorem EndsInto.channel (h : r.EndsInto n q id) :
    (r.world n).heap.channels[id]? = some .empty ∨
      (r.world n).heap.channels[id]? = some .closed ∧ ∃ k, k < n ∧ r.Drops k id := by
  induction n generalizing q with
  | zero => exact absurd (h.lt hstart hprivate) (by simp [hstart.channels])
  | succ n ih =>
      rcases h.back hstart hprivate with ⟨p, hp, hnext⟩ | ⟨hid, hchannels, -⟩
      · have hsends {t : ThreadId} {value error : Ty} {exit : Exit (Outcome H.Data H.Fn)} :
            ¬r.Does n t (.conclude exit (.channel value error id)) := by
          rintro ⟨haction, name, stack, ht⟩
          obtain rfl := EndsInto.unique hstart hprivate hp
            ⟨_, value, error, World.pendingAt_run ht⟩
          simp [haction, World.next?, World.shift_thread ht, World.turnShift] at hnext
        rcases ih hp with hempty | ⟨hclosed, k, hk, hdrops⟩
        · rcases channel_next hempty with hsame | ⟨hdrops, hclosed⟩ | ⟨_, _, _, _, _, hsend, -⟩
          · exact .inl hsame
          · exact .inr ⟨hclosed, n, Nat.lt_succ_self n, hdrops⟩
          · exact absurd hsend hsends
        · rcases channel_next hclosed with hsame | ⟨-, hclosed'⟩ | ⟨_, _, _, _, _, hsend, -⟩
          · exact .inr ⟨hsame, k, Nat.lt_succ_of_lt hk, hdrops⟩
          · exact .inr ⟨hclosed', k, Nat.lt_succ_of_lt hk, hdrops⟩
          · exact absurd hsend hsends
      · exact .inl (by rw [hchannels, ← hid, Array.getElem?_push_size])

/-- Nobody can receive anything before the interpretation has ended. -/
theorem EndsInto.received_eq_none (h : r.EndsInto n q id) (hmn : m ≤ n) :
    (r.world m).heap.received? id = none := by
  induction n generalizing q with
  | zero => exact absurd (h.lt hstart hprivate) (by simp [hstart.channels])
  | succ n ih =>
      rcases Nat.eq_or_lt_of_le hmn with rfl | hlt
      · rcases h.channel hstart hprivate with hempty | ⟨hclosed, -⟩
        · simp [Heap.received?, hempty]
        · simp [Heap.received?, hclosed]
      · have hmn' := Nat.le_of_lt_succ hlt
        rcases h.back hstart hprivate with ⟨p, hp, -⟩ | ⟨hid, -, -⟩
        · exact ih hp hmn'
        · have hnew : (r.world m).heap.channels.size ≤ id := hid ▸ channels_size_le hmn'
          simp [Heap.received?, Array.getElem?_eq_none hnew]

/-- What ends the interpretation is in the channel then, unless its receiver is gone. -/
theorem Does.fills {value error : Ty} {exit exit' : Exit (Outcome H.Data H.Fn)}
    (h : r.Does n t (.conclude exit (.channel value error id)))
    (hsends : Task.concludeTurn (r.world n).heap exit (.channel value error id) =
      .ret (H := H) ((r.world n).heap.send id exit') .unit) (hkept : ∀ k, k < n → ¬r.Drops k id) :
    (r.world (n + 1)).heap.channels[id]? = some (.full exit') := by
  have hdoes := h
  obtain ⟨-, name, stack, ht⟩ := hdoes
  have hinto : r.EndsInto n (.thread t stack.length) id :=
    ⟨_, value, error, World.pendingAt_run ht⟩
  rcases hinto.channel hstart hprivate with hempty | ⟨-, k, hk, hdrops⟩
  · rw [(h.changes (by simp) fun _ _ => hsends).heap]
    simp only [Heap.send, Array.getElem?_modify, if_true, hempty, Option.map_some]
    rfl
  · exact absurd hdrops (hkept k hk)

omit hstart hprivate in
/-- What is in a channel stays there, unless the receiver goes. -/
theorem full_of_le {exit : Exit (Outcome H.Data H.Fn)}
    (h : (r.world n).heap.channels[id]? = some (.full exit)) (hnm : n ≤ m)
    (hkept : ∀ k, k < m → ¬r.Drops k id) :
    (r.world m).heap.channels[id]? = some (.full exit) := by
  induction hnm with
  | refl => exact h
  | @step m hnm ih =>
      have hfull := ih fun k hk => hkept k (Nat.lt_succ_of_lt hk)
      rcases channel_next hfull with hsame | ⟨hdrops, -⟩ | ⟨_, _, _, _, _, -, -, hsent⟩
      · exact hsame
      · exact absurd hdrops (hkept m (Nat.lt_succ_self m))
      · exact hsent

/-- A panic that ends the interpretation is in the channel from then on, unless its receiver is
gone. -/
theorem Does.received {value error : Ty} {payload : Payload}
    (h : r.Does n t (.conclude (.panicked payload) (.channel value error id))) (hnm : n < m)
    (hkept : ∀ k, k < m → ¬r.Drops k id) :
    (r.world m).heap.channels[id]? = some (.full (.panicked payload)) :=
  full_of_le (h.fills hstart hprivate rfl fun k hk => hkept k (Nat.lt_trans hk hnm)) hnm hkept

end Private

end Run

end Trampoline
