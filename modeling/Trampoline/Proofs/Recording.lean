import Trampoline.Proofs.Laws
import Trampoline.Proofs.Memoising

/-!
What is recorded in a fiber. All that completes a fiber are calls by hand, the exit of an
interpretation into it and the mark of a panic there. Whoever writes first decides what is recorded;
every other write changes nothing, and a call by hand gets its own outcome back.
-/

namespace Trampoline

variable {H : Host}

/-- What a slot lets its readers have has these tags. -/
def Slot.HasTags {D F : Type} (value error : Ty) (slot : Slot D F) : Prop :=
  ∀ o, slot.read = .ok o → Outcome.HasTags value error o

theorem Slot.hasTags_ofOutcome {D F : Type} {value error : Ty} {o : Outcome D F}
    (h : Outcome.HasTags value error o) : (ofOutcome o).HasTags value error := by
  intro o' ho
  rw [read_ofOutcome] at ho
  exact Except.ok.inj ho ▸ h

theorem Slot.hasTags_panicked {D F : Type} (value error : Ty) (report : WorkFailure) :
    (panicked report : Slot D F).HasTags value error := by
  intro o ho
  contradiction

theorem Exit.restore_eq_ok {D F : Type} {value error : Ty} {o o' : Outcome D F}
    (h : (Exit.settled o).restore value error = .ok o') :
    o' = o ∧ Outcome.HasTags value error o := by
  cases o with
  | ok v =>
      by_cases hv : v.ty = value
      · simp only [restore, if_pos hv, Except.ok.injEq] at h
        exact ⟨h.symm, hv⟩
      · simp [restore, if_neg hv] at h
  | error v =>
      by_cases hv : v.ty = error
      · simp only [restore, if_pos hv, Except.ok.injEq] at h
        exact ⟨h.symm, hv⟩
      · simp [restore, if_neg hv] at h

/-- A slot lets its readers have an outcome, or makes them panic with the text of its report. -/
theorem Slot.read_cases {D F : Type} (slot : Slot D F) :
    (∃ o, slot = .ofOutcome o ∧ slot.panicked? = none ∧ slot.outcome? = some o ∧
        slot.read = .ok o) ∨
      ∃ report, slot = .panicked report ∧ slot.panicked? = some report ∧ slot.outcome? = none ∧
        slot.read = .error (.text report.message) := by
  cases slot with
  | ok v => exact .inl ⟨.ok v, rfl, rfl, rfl, rfl⟩
  | err v => exact .inl ⟨.error v, rfl, rfl, rfl, rfl⟩
  | panicked report => exact .inr ⟨report, rfl, rfl, rfl, rfl⟩

/-- No task changes the type of a promise. -/
theorem Task.Alters.ty {heap heap' : Heap H.Data H.Fn} {task : Task H} {id : PromiseId}
    {promise : Promise H.Data H.Fn} (h : task.Alters heap heap')
    (hold : heap.promises[id]? = some promise) :
    ∃ promise', heap'.promises[id]? = some promise' ∧ promise'.ty = promise.ty := by
  have hset {id' : PromiseId} {before after : Promise H.Data H.Fn}
      (hbefore : heap.promises[id']? = some before)
      (hpromises : heap'.promises = heap.promises.setIfInBounds id' after)
      (hty : after.ty = before.ty) :
      ∃ promise', heap'.promises[id]? = some promise' ∧ promise'.ty = promise.ty := by
    rw [hpromises]
    by_cases heq : id' = id
    · subst heq
      obtain rfl := Option.some.inj (hbefore.symm.trans hold)
      obtain ⟨hlt, -⟩ := Array.getElem?_eq_some_iff.1 hold
      exact ⟨after, Array.getElem?_setIfInBounds_self_of_lt hlt, hty⟩
    · exact ⟨promise, (Array.getElem?_setIfInBounds_ne heq).trans hold, rfl⟩
  cases h with
  | nothing hpromises => exact ⟨promise, hpromises ▸ hold, rfl⟩
  | newChannel hpromises => exact ⟨promise, hpromises ▸ hold, rfl⟩
  | send _ hpromises => exact ⟨promise, hpromises ▸ hold, rfl⟩
  | close _ hpromises => exact ⟨promise, hpromises ▸ hold, rfl⟩
  | newPromise hpromises =>
      obtain ⟨hlt, -⟩ := Array.getElem?_eq_some_iff.1 hold
      refine ⟨promise, ?_, rfl⟩
      rw [hpromises, Array.getElem?_push_lt hlt, ← Array.getElem?_eq_getElem hlt, hold]
  | write hbefore hpromises => exact hset hbefore hpromises rfl
  | take hbefore hpromises => exact hset hbefore hpromises rfl
  | keep hbefore hpromises => exact hset hbefore hpromises rfl

namespace Run

variable {r : Run H} {k n m : Nat} {t : ThreadId} {task : Task H} {value error value' error' : Ty}
  {fiber : PromiseId} {slot : Slot H.Data H.Fn} {v : Value H.Data H.Fn}
  {o : Outcome H.Data H.Fn} {stack : List (Return H)}

/-- At time `n` thread `t` goes back to a stack with a reply or a panic. -/
def GoesBack (r : Run H) (n : Nat) (t : ThreadId) (reply : Except Payload (Value H.Data H.Fn))
    (stack : List (Return H)) : Prop :=
  ∃ name, (r.world n).threads[t]? = some ⟨name, .replied reply, stack⟩

/-- A thread that is let is at its next turn as its last turn has left it. -/
theorem Turns.next {control control' : Control H} {stack' : List (Return H)}
    (h : r.Turns n t control stack) (hnext : r.NextTurn t n m)
    (hturn : ∀ name, ∃ state rest turn,
      Thread.turn? t (r.world n).heap (r.world n).state ⟨name, control, stack⟩ =
          some (state, rest, turn) ∧ turn.control = control' ∧ turn.pushed ++ rest = stack')
    (hready : ∀ name, Thread.IsReady ⟨name, control', stack'⟩) : r.Turns m t control' stack' := by
  obtain ⟨haction, name, ht⟩ := h
  obtain ⟨state, rest, turn, hnow, rfl, rfl⟩ := hturn name
  obtain ⟨-, hthread⟩ := next_of_action haction ht hnow
  rw [(hready name).heard] at hthread
  exact ⟨hnext.next, name, thread_of_others hthread (hready name) hnext.lt hnext.between⟩

section Types

variable {promise : Promise H.Data H.Fn} {id : PromiseId}

/-- A promise keeps its type. -/
theorem promise_of_le (h : (r.world n).heap.promises[id]? = some promise) (hnm : n ≤ m) :
    ∃ promise', (r.world m).heap.promises[id]? = some promise' ∧ promise'.ty = promise.ty := by
  induction hnm with
  | refl => exact ⟨promise, h, rfl⟩
  | @step m _ ih =>
      obtain ⟨promise', hpromise, hty⟩ := ih
      rcases World.alters_of_does (r.step m) with ⟨hsame, -⟩ | ⟨_, _, _, _, -, -, halters⟩
      · exact ⟨promise', hsame ▸ hpromise, hty⟩
      · obtain ⟨later, hlater, hty'⟩ := halters.ty hpromise
        exact ⟨later, hlater, hty'.trans hty⟩

theorem ty_unique {promise' : Promise H.Data H.Fn}
    (h : (r.world n).heap.promises[id]? = some promise)
    (h' : (r.world m).heap.promises[id]? = some promise') : promise.ty = promise'.ty := by
  rcases Nat.le_total n m with hnm | hmn
  · obtain ⟨later, hlater, hty⟩ := promise_of_le h hnm
    obtain rfl := Option.some.inj (hlater.symm.trans h')
    exact hty.symm
  · obtain ⟨later, hlater, hty⟩ := promise_of_le h' hmn
    obtain rfl := Option.some.inj (hlater.symm.trans h)
    exact hty

/-- A task that makes a promise. -/
theorem Does.makes_promise {ty : Ty} (h : r.Does n t task)
    (huser : ∀ code reply, task ≠ .user code reply)
    (hpush : ∀ here stack, (task.turn here stack (r.world n).heap).heap.promises =
      (r.world n).heap.promises.push (.empty ty)) :
    (r.world (n + 1)).heap.promises[(r.world n).heap.promises.size]? = some (.empty ty) := by
  obtain ⟨name, stack, -, happly⟩ := h.turn huser
  rw [happly, World.heap_apply, hpush, Array.getElem?_push_size]

end Types

/-- A promise is a fiber of these types, and the host treats it as one: it gives it outcomes of
these types only, hands in no work into it at other types, and has no callback of a node that joins
it. -/
structure IsFiber (r : Run H) (fiber : PromiseId) (value error : Ty) : Prop where
  made : ∃ n promise, (r.world n).heap.promises[fiber]? = some promise ∧
    promise.ty = .slot value error
  fill : ∀ n t v, ¬r.Does n t (.request (.fill fiber v))
  byHand : ∀ n t value' error' o, r.Does n t (.request (.fillFiber value' error' fiber o)) →
    value' = value ∧ error' = error ∧ Outcome.HasTags value error o
  completed : ∀ n t o, r.Does n t (.request (.completedFiber value error o)) →
    (r.world n).heap.promises.size = fiber → Outcome.HasTags value error o
  work : ∀ n t q value' error' node s, r.Does n t (.request q) →
    q.work? = some (launched value' error' node s fiber) → value' = value ∧ error' = error
  nodes : ∀ n t id, r.ComesTo n t (.join value error fiber) immediateId id → r.Hides (.handoff id)

namespace IsFiber

variable (hfiber : r.IsFiber fiber value error)

include hfiber

theorem ty {promise : Promise H.Data H.Fn}
    (h : (r.world n).heap.promises[fiber]? = some promise) : promise.ty = .slot value error := by
  obtain ⟨_, _, hmade, hty⟩ := hfiber.made
  exact (ty_unique h hmade).trans hty

/-- Whoever makes the fiber makes it at its types. -/
theorem types_of_makes (h : r.Does n t task) (huser : ∀ code reply, task ≠ .user code reply)
    (hsize : (r.world n).heap.promises.size = fiber)
    (hpush : ∀ here stack, (task.turn here stack (r.world n).heap).heap.promises =
      (r.world n).heap.promises.push (.empty (.slot value' error'))) :
    value' = value ∧ error' = error := by
  have hmade := h.makes_promise huser hpush
  rw [hsize] at hmade
  exact Ty.slot.inj (hfiber.ty hmade)

variable (hstart : (r.world 0).Starting)

include hstart

theorem types_of_work {node : Node H.Data H.Fn} {s : SchedulerId}
    (h : r.Has n (.perform (launched value' error' node s fiber)) ∨
      ∃ scheduler, r.Has n (.submit scheduler (launched value' error' node s fiber))) :
    value' = value ∧ error' = error := by
  obtain ⟨m, t, task, -, hdoes, hmakes⟩ := exists_makes hstart h
  generalize hwork : launched value' error' node s fiber = work at hmakes
  cases hmakes with
  | registration => contradiction
  | fork =>
      obtain ⟨-, hfinish⟩ := Work.interpret.inj hwork
      obtain ⟨rfl, rfl, hsize, -⟩ := Finish.fiber.inj hfinish
      exact hfiber.types_of_makes hdoes (by simp) hsize.symm fun _ _ => rfl
  | runFiber =>
      obtain ⟨-, hfinish⟩ := Work.interpret.inj hwork
      obtain ⟨rfl, rfl, hsize, -⟩ := Finish.fiber.inj hfinish
      exact hfiber.types_of_makes hdoes (by simp) hsize.symm fun _ _ => rfl
  | request h =>
      subst hwork
      exact hfiber.work m t _ _ _ _ _ hdoes h

theorem types_of_pending {q : Place} {stage : Stage H.Data H.Fn} {s : SchedulerId}
    (h : (r.world n).pendingAt q = some (stage, .fiber value' error' fiber s)) :
    value' = value ∧ error' = error := by
  obtain ⟨m, j, _, _, rfl, hbegins, -⟩ := exists_begins h
  obtain ⟨t, name, task, stack, -, haction, -, ht, hstarts⟩ := hbegins.starts
  cases hstarts with
  | interpret =>
      have hdoes : r.Does m t (.perform (launched value' error' _ s fiber)) :=
        ⟨haction, name, stack, ht⟩
      exact hfiber.types_of_work hstart (.inl hdoes.has)

/-- All that completes the fiber are its slots: an outcome given by hand or when it is made, the
exit of an interpretation into it, or the mark of a panic there. -/
theorem filled (h : r.Has n (.fill fiber v)) :
    ∃ slot, v = .slot value error slot ∧ slot.HasTags value error := by
  obtain ⟨m, t, task, -, hdoes, hhands⟩ := h.exists_does hstart trivial
  generalize hid : fiber = id at hhands
  cases hhands with
  | minor h => exact h.elim
  | request hrequest =>
      cases hrequest with
      | fill => exact (hfiber.fill m t v (hid ▸ hdoes)).elim
      | fillFiber =>
          obtain ⟨rfl, rfl, htags⟩ := hfiber.byHand m t _ _ _ (hid ▸ hdoes)
          exact ⟨_, rfl, Slot.hasTags_ofOutcome htags⟩
      | completedFiber =>
          obtain ⟨rfl, rfl⟩ := hfiber.types_of_makes hdoes (by simp) hid.symm fun _ _ => rfl
          exact ⟨_, rfl, Slot.hasTags_ofOutcome (hfiber.completed m t _ hdoes hid.symm)⟩
  | mark =>
      subst hid
      obtain ⟨-, name, stack, ht⟩ := hdoes
      obtain ⟨rfl, rfl⟩ := hfiber.types_of_pending hstart (World.pendingAt_run ht)
      exact ⟨_, rfl, Slot.hasTags_panicked _ _ _⟩
  | record hrestore =>
      subst hid
      obtain ⟨-, name, stack, ht⟩ := hdoes
      obtain ⟨rfl, rfl⟩ := hfiber.types_of_pending hstart (World.pendingAt_run ht)
      obtain ⟨rfl, htags⟩ := Exit.restore_eq_ok hrestore
      exact ⟨_, rfl, Slot.hasTags_ofOutcome htags⟩

theorem written (h : r.Writes fiber n t v) :
    ∃ slot, v = .slot value error slot ∧ slot.HasTags value error :=
  hfiber.filled hstart h.1.1.has

theorem promised (h : (r.world n).heap.promised? fiber = some v) :
    ∃ slot, v = .slot value error slot ∧ (r.world n).heap.slot? fiber = some slot ∧
      slot.HasTags value error := by
  obtain ⟨m, t, -, hwrites⟩ := (promised?_eq_some hstart).1 h
  obtain ⟨slot, rfl, htags⟩ := hfiber.written hstart hwrites
  exact ⟨slot, rfl, Heap.slot?_eq_some.2 ⟨_, _, h⟩, htags⟩

theorem promised?_eq (h : (r.world n).heap.slot? fiber = some slot) :
    (r.world n).heap.promised? fiber = some (.slot value error slot) := by
  obtain ⟨_, _, hpromised⟩ := Heap.slot?_eq_some.1 h
  obtain ⟨_, heq, -, -⟩ := hfiber.promised hstart hpromised
  obtain ⟨rfl, rfl, -⟩ := Value.slot.inj heq
  exact hpromised

/-- What is recorded is what was written first. -/
theorem slot?_eq_some :
    (r.world n).heap.slot? fiber = some slot ↔
      ∃ m t, m < n ∧ r.Writes fiber m t (.slot value error slot) := by
  rw [← promised?_eq_some hstart]
  exact ⟨hfiber.promised?_eq hstart, fun h => Heap.slot?_eq_some.2 ⟨_, _, h⟩⟩

theorem slot_of_promised (n : Nat) (v : Value H.Data H.Fn)
    (h : (r.world n).heap.promised? fiber = some v) : ∃ slot, v = .slot value error slot := by
  obtain ⟨slot, rfl, -⟩ := hfiber.promised hstart h
  exact ⟨slot, rfl⟩

theorem hasTags (h : (r.world n).heap.slot? fiber = some slot) : slot.HasTags value error := by
  obtain ⟨_, heq, -, htags⟩ := hfiber.promised hstart (hfiber.promised?_eq hstart h)
  obtain ⟨-, -, rfl⟩ := Value.slot.inj heq
  exact htags

theorem promised?_eq_none (h : (r.world n).heap.slot? fiber = none) :
    (r.world n).heap.promised? fiber = none := by
  cases hpromised : (r.world n).heap.promised? fiber with
  | none => rfl
  | some v =>
      obtain ⟨slot, -, hslot, -⟩ := hfiber.promised hstart hpromised
      rw [h] at hslot
      contradiction

theorem writes (hslot : (r.world n).heap.slot? fiber = none)
    (hlt : fiber < (r.world n).heap.promises.size)
    (h : r.Turns n t (.run (.fill fiber v)) stack) : r.Writes fiber n t v := by
  obtain ⟨haction, name, ht⟩ := h
  have hcompletes : r.Completes fiber n t v := ⟨⟨haction, name, stack, ht⟩, hlt⟩
  exact hcompletes.writes hstart (hfiber.promised?_eq_none hstart hslot)

/-- A write to a fiber in which something is recorded, whoever makes it, changes nothing. -/
theorem rejected (hslot : (r.world n).heap.slot? fiber = some slot)
    (h : r.Turns n t (.run (.fill fiber v)) stack) :
    (r.world (n + 1)).heap = (r.world n).heap ∧
      r.GoesBack (n + 1) t (.ok (.err .unit (.slot value error) v)) stack := by
  obtain ⟨haction, name, ht⟩ := h
  have hpromised := hfiber.promised?_eq hstart hslot
  unfold Heap.promised? at hpromised
  split at hpromised
  · rename_i promise hpromise
    have hturn : Thread.turn? t (r.world n).heap (r.world n).state
        ⟨name, .run (.fill fiber v), stack⟩ = some ((r.world n).state, stack,
          .ret (r.world n).heap (.err .unit (.slot value error) v)) := by
      simp only [Thread.turn?, Task.turn, hpromise, ← hfiber.ty hpromise, Promise.write, hpromised]
    obtain ⟨hheap, hthread⟩ := next_of_action haction ht hturn
    exact ⟨hheap, name, hthread⟩
  · contradiction

end IsFiber

/-- The write of thread `t` at time `n`, of an outcome given by hand, changes nothing, and its call
ends with this outcome as the error. -/
structure GivesBack (r : Run H) (n : Nat) (t : ThreadId) (value error : Ty)
    (o : Outcome H.Data H.Fn) (stack : List (Return H)) : Prop where
  unchanged : (r.world (n + 1)).heap = (r.world n).heap
  comes : r.Fair → ∃ m, r.NextTurn t n m
  returns {m : Nat} : r.NextTurn t n m →
    r.GoesBack (m + 1) t (.ok (.err .unit (.result value error) (.ofOutcome value error o))) stack

theorem giveBack_slot (value error : Ty) (o : Outcome H.Data H.Fn) :
    Return.giveBack (.err .unit (.slot value error) (.slot value error (.ofOutcome o))) =
      .err .unit (.result value error) (.ofOutcome value error o) := by
  cases o <;> rfl

/-- A call that completes a fiber by hand writes first, or gets its own outcome back. -/
theorem IsFiber.completes (hfiber : r.IsFiber fiber value error) (hstart : (r.world 0).Starting)
    (h : r.Turns k t (.run (.request (.fillFiber value error fiber o))) stack)
    (hlt : fiber < (r.world k).heap.promises.size) (hnext : r.NextTurn t k n) :
    ((r.world n).heap.slot? fiber = none ∧
        r.Writes fiber n t (.slot value error (.ofOutcome o))) ∨
      (∃ slot, (r.world n).heap.slot? fiber = some slot) ∧
        r.GivesBack n t value error o stack := by
  have hturns : r.Turns n t (.run (.fill fiber (.slot value error (.ofOutcome o))))
      (.givingBack :: stack) :=
    h.next hnext (fun _ => ⟨_, _, _, rfl, rfl, rfl⟩) fun _ => trivial
  cases hslot : (r.world n).heap.slot? fiber with
  | none =>
      have hlt' := Nat.lt_of_lt_of_le hlt (promises_size_le (Nat.le_of_lt hnext.lt))
      exact .inl ⟨rfl, hfiber.writes hstart hslot hlt' hturns⟩
  | some slot =>
      obtain ⟨hheap, name, hthread⟩ := hfiber.rejected hstart hslot hturns
      have hready : Thread.IsReady (H := H) ⟨name, .ret (.err .unit (.slot value error)
          (.slot value error (.ofOutcome o))), .givingBack :: stack⟩ := List.cons_ne_nil _ _
      refine .inr ⟨⟨slot, rfl⟩, hheap, fun hfair => ?_, fun hlast => ?_⟩
      · obtain ⟨m, hm, -⟩ := hfair.exists_nextTurn hturns.1 hthread hready
        exact ⟨m, hm⟩
      · have ht := thread_of_others hthread hready hlast.lt hlast.between
        obtain ⟨-, hback⟩ := next_of_action hlast.next ht rfl
        rw [← giveBack_slot]
        exact ⟨name, hback⟩

end Run

end Trampoline
