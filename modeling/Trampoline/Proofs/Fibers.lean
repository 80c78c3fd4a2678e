import Trampoline.Proofs.Provenance

/-!
What becomes of an effect that is launched on a scheduler. Its work is made once, so all that is
interpreted into its fiber is the effect, and all that completes the fiber is the exit of that
interpretation or an outcome that the host has filled in by hand. Work that is performed once is
interpreted once, and concluded once.
-/

namespace Trampoline

variable {H : Host}

/-- The tasks that launch an effect on a scheduler. -/
inductive Task.Launches (value error : Ty) (x : Node H.Data H.Fn) (s : SchedulerId) :
    Task H → Prop where
  | fork : Launches value error x s (.answer (.fork value error x s))
  | runFiber : Launches value error x s (.request (.runFiber value error x s))

/-- What an exit records in a fiber. An exit at other types than the fiber's records nothing. -/
def Exit.slot? {D F : Type} (value error : Ty) : Exit (Outcome D F) → Option (Slot D F)
  | .panicked payload => some (.panicked (.ofPanic "fiber" payload))
  | .settled outcome =>
      match (Exit.settled outcome).restore value error with
      | .ok outcome => some (.ofOutcome outcome)
      | .error _ => none

theorem Exit.ty_of_slot? {D F : Type} {value error : Ty} {exit : Exit (Outcome D F)}
    {v : Value D F} (h : exit.slot? value error = some (.ok v)) : v.ty = value := by
  cases exit with
  | panicked payload => simp [Exit.slot?] at h
  | settled outcome =>
      cases outcome with
      | ok w =>
          by_cases hw : w.ty = value
          · simp only [Exit.slot?, restore, if_pos hw, Slot.ofOutcome, Option.some.injEq,
              Slot.ok.injEq] at h
            exact h ▸ hw
          · simp [Exit.slot?, restore, if_neg hw] at h
      | error w =>
          by_cases hw : w.ty = error
          · simp [Exit.slot?, restore, hw, Slot.ofOutcome] at h
          · simp [Exit.slot?, restore, hw] at h

namespace Run

variable {r : Run H} {k n m : Nat} {t t' : ThreadId} {value error value' error' : Ty}
  {x node : Node H.Data H.Fn} {s s' : SchedulerId} {fiber : PromiseId} {q q' : Place}
  {exit exit' : Exit (Outcome H.Data H.Fn)} {v : Value H.Data H.Fn}

/-- At time `k` an effect is launched, into a new fiber. -/
structure Launches (r : Run H) (k : Nat) (value error : Ty) (x : Node H.Data H.Fn)
    (s : SchedulerId) (fiber : PromiseId) : Prop where
  does : ∃ t task, r.Does k t task ∧ task.Launches value error x s
  fiber : (r.world k).heap.promises.size = fiber

/-- The work of an effect that has been launched. -/
def launched (value error : Ty) (x : Node H.Data H.Fn) (s : SchedulerId) (fiber : PromiseId) :
    Work H.Data H.Fn :=
  .interpret x (.fiber value error fiber s)

/-- The host has no work into a fiber but this one, and none before the fiber is there, and it does
not take the fiber for a promise of its own. -/
structure IsSealed (r : Run H) (fiber : PromiseId) (work : Work H.Data H.Fn) : Prop where
  work : ∀ n t q value error s node, r.Does n t (.request q) →
    q.work? = some (launched value error node s fiber) →
      launched value error node s fiber = work ∧ fiber < (r.world n).heap.promises.size
  fill : ∀ n t v, ¬r.Does n t (.request (.fill fiber v))

/-- A unit of work is performed at one time at most. -/
def PerformsOnce (r : Run H) (work : Work H.Data H.Fn) : Prop :=
  ∀ n m t t', r.Does n t (.perform work) → r.Does m t' (.perform work) → n = m

/-- The host completes a fiber by hand. -/
def FillsByHand (r : Run H) (n : Nat) (t : ThreadId) (fiber : PromiseId) (v : Value H.Data H.Fn) :
    Prop :=
  ∃ value error outcome, r.Does n t (.request (.fillFiber value error fiber outcome)) ∧
    v = .slot value error (.ofOutcome outcome)

theorem Launches.size_succ (h : r.Launches k value error x s fiber) :
    (r.world (k + 1)).heap.promises.size = fiber + 1 := by
  obtain ⟨t, task, hdoes, hlaunches⟩ := h.does
  rw [← h.fiber]
  cases hlaunches with
  | fork => exact hdoes.promises_size (by simp) fun _ _ => rfl
  | runFiber => exact hdoes.promises_size (by simp) fun _ _ => rfl

/-- A fiber is made by one launch. -/
theorem Launches.unique (h : r.Launches k value error x s fiber)
    (h' : r.Launches m value' error' node s' fiber) :
    k = m ∧ value = value' ∧ error = error' ∧ x = node ∧ s = s' := by
  obtain rfl := eq_of_promises_size h.fiber h.size_succ h'.fiber h'.size_succ
  obtain ⟨t, task, hdoes, hlaunches⟩ := h.does
  obtain ⟨t', task', hdoes', hlaunches'⟩ := h'.does
  obtain ⟨-, rfl⟩ := hdoes.unique hdoes'
  cases hlaunches with
  | fork => cases hlaunches' with | fork => exact ⟨rfl, rfl, rfl, rfl, rfl⟩
  | runFiber => cases hlaunches' with | runFiber => exact ⟨rfl, rfl, rfl, rfl, rfl⟩

section Sealed

variable (hstart : (r.world 0).Starting) (hlaunch : r.Launches k value error x s fiber)
  (hsealed : r.IsSealed fiber (launched value error x s fiber))

include hstart hlaunch hsealed

/-- Whoever has work into the fiber has the work of the effect that has been launched. -/
theorem work_eq_launched
    (h : r.Has n (.perform (launched value' error' node s' fiber)) ∨
      ∃ scheduler, r.Has n (.submit scheduler (launched value' error' node s' fiber))) :
    k < n ∧ node = x ∧ value' = value ∧ error' = error ∧ s' = s := by
  obtain ⟨m, t, task, hm, hdoes, hmakes⟩ := exists_makes hstart h
  have hlaunches (hlaunch' : r.Launches m value' error' node s' fiber) :
      k < n ∧ node = x ∧ value' = value ∧ error' = error ∧ s' = s := by
    obtain ⟨rfl, rfl, rfl, rfl, rfl⟩ := hlaunch.unique hlaunch'
    exact ⟨hm, rfl, rfl, rfl, rfl⟩
  generalize hwork : launched value' error' node s' fiber = work at hmakes
  cases hmakes with
  | registration => contradiction
  | fork =>
      obtain ⟨rfl, hfinish⟩ := Work.interpret.inj hwork
      obtain ⟨rfl, rfl, hsize, rfl⟩ := Finish.fiber.inj hfinish
      exact hlaunches ⟨⟨t, _, hdoes, .fork⟩, hsize.symm⟩
  | runFiber =>
      obtain ⟨rfl, hfinish⟩ := Work.interpret.inj hwork
      obtain ⟨rfl, rfl, hsize, rfl⟩ := Finish.fiber.inj hfinish
      exact hlaunches ⟨⟨t, _, hdoes, .runFiber⟩, hsize.symm⟩
  | request h =>
      subst hwork
      obtain ⟨hwork, hthere⟩ := hsealed.work m t _ _ _ _ _ hdoes h
      obtain ⟨rfl, hfinish⟩ := Work.interpret.inj hwork
      obtain ⟨rfl, rfl, -, rfl⟩ := Finish.fiber.inj hfinish
      refine ⟨Nat.lt_of_le_of_lt (Nat.le_of_lt (Nat.lt_of_not_le fun hmk => ?_)) hm, rfl, rfl, rfl,
        rfl⟩
      have hle := promises_size_le (r := r) hmk
      rw [hlaunch.fiber] at hle
      exact Nat.not_lt_of_le hle hthere

/-- What is interpreted into the fiber is the effect, and it is its work that is performed. -/
theorem begins_eq_launched
    (h : (r.world n).Begins (r.world (n + 1)) (r.action n) q node
      (.fiber value' error' fiber s')) :
    (k < n ∧ node = x ∧ value' = value ∧ error' = error ∧ s' = s) ∧
      ∃ t, r.Does n t (.perform (launched value error x s fiber)) := by
  obtain ⟨t, name, task, stack, -, haction, -, ht, hstarts⟩ := h.starts
  have hdoes : r.Does n t task := ⟨haction, name, stack, ht⟩
  cases hstarts with
  | interpret =>
      obtain ⟨hk, rfl, rfl, rfl, rfl⟩ := work_eq_launched hstart hlaunch hsealed (.inl hdoes.has)
      exact ⟨⟨hk, rfl, rfl, rfl, rfl⟩, t, hdoes⟩

theorem finish_eq_launched {stage : Stage H.Data H.Fn}
    (h : (r.world n).pendingAt q = some (stage, .fiber value' error' fiber s')) :
    k < n ∧ value' = value ∧ error' = error ∧ s' = s := by
  obtain ⟨m, j, _, _, rfl, hbegins, -⟩ := exists_begins h
  obtain ⟨⟨hk, -, hfinish⟩, -⟩ := begins_eq_launched hstart hlaunch hsealed hbegins
  exact ⟨by omega, hfinish⟩

theorem concludes_eq_launched (h : r.Does n t (.conclude exit (.fiber value' error' fiber s'))) :
    k < n ∧ value' = value ∧ error' = error ∧ s' = s := by
  obtain ⟨-, name, stack, ht⟩ := h
  exact finish_eq_launched hstart hlaunch hsealed (World.pendingAt_run ht)

/-- What completes the fiber is the exit of the effect, or an outcome that the host fills in. -/
theorem filled_of_launched (h : r.Has n (.fill fiber v)) :
    (∃ m t, m < n ∧ r.FillsByHand m t fiber v) ∨
      ∃ m t exit slot, m < n ∧ r.Does m t (.conclude exit (.fiber value error fiber s)) ∧
        exit.slot? value error = some slot ∧ v = .slot value error slot := by
  obtain ⟨m, t, task, hm, hdoes, hhands⟩ := h.exists_does hstart trivial
  generalize hid : fiber = id at hhands
  cases hhands with
  | minor h => exact h.elim
  | request hrequest =>
      cases hrequest with
      | fill => exact (hsealed.fill m t v (hid ▸ hdoes)).elim
      | fillFiber => exact .inl ⟨m, t, hm, _, _, _, hid ▸ hdoes, rfl⟩
      | completedFiber =>
          have hmade := hdoes.promises_size (by simp) fun _ _ => rfl
          obtain rfl := eq_of_promises_size hlaunch.fiber hlaunch.size_succ hid.symm (hid ▸ hmade)
          obtain ⟨t', task', hdoes', hlaunches⟩ := hlaunch.does
          obtain ⟨-, rfl⟩ := hdoes.unique hdoes'
          cases hlaunches
  | mark =>
      subst hid
      obtain ⟨-, rfl, rfl, rfl⟩ := concludes_eq_launched hstart hlaunch hsealed hdoes
      exact .inr ⟨m, t, _, _, hm, hdoes, rfl, rfl⟩
  | record hrestore =>
      subst hid
      obtain ⟨-, rfl, rfl, rfl⟩ := concludes_eq_launched hstart hlaunch hsealed hdoes
      exact .inr ⟨m, t, _, _, hm, hdoes, by simp [Exit.slot?, hrestore], rfl⟩

variable (honce : r.PerformsOnce (launched value error x s fiber))

include honce

/-- The effect is interpreted into the fiber at one time and place at most. -/
theorem begins_once {node' : Node H.Data H.Fn} {value'' error'' : Ty} {s'' : SchedulerId}
    (h : (r.world n).Begins (r.world (n + 1)) (r.action n) q node
      (.fiber value' error' fiber s'))
    (h' : (r.world m).Begins (r.world (m + 1)) (r.action m) q' node'
      (.fiber value'' error'' fiber s'')) : n = m ∧ q = q' := by
  obtain ⟨-, t, hdoes⟩ := begins_eq_launched hstart hlaunch hsealed h
  obtain ⟨-, t', hdoes'⟩ := begins_eq_launched hstart hlaunch hsealed h'
  obtain rfl := honce n m t t' hdoes hdoes'
  refine ⟨rfl, Decidable.byContradiction fun hne => ?_⟩
  have hputs' := h'.puts q'
  rw [h.puts q', if_neg (Ne.symm hne), if_neg (Ne.symm hne), if_pos rfl, h'.free] at hputs'
  contradiction

/-- Whatever is under way into the fiber is one interpretation. -/
theorem place_of_launched {stage stage' : Stage H.Data H.Fn} {value'' error'' : Ty}
    {s'' : SchedulerId}
    (h : (r.world n).pendingAt q = some (stage, .fiber value' error' fiber s'))
    (h' : (r.world m).pendingAt q' = some (stage', .fiber value'' error'' fiber s'')) :
    ∃ c p j j', n = c + j ∧ m = c + j' ∧ r.place c p j = some q ∧ r.place c p j' = some q' ∧
      ∃ stage₀, (r.world c).pendingAt p = some (stage₀, .fiber value' error' fiber s') := by
  obtain ⟨c, j, p, node, rfl, hbegins, hplace⟩ := exists_begins h
  obtain ⟨c', j', p', node', rfl, hbegins', hplace'⟩ := exists_begins h'
  obtain ⟨rfl, rfl⟩ := begins_once hstart hlaunch hsealed honce hbegins hbegins'
  exact ⟨c + 1, p, j, j', rfl, rfl, hplace, hplace', _, (hbegins.puts p).trans (if_pos rfl)⟩

/-- It ends once. -/
theorem concludes_once {value'' error'' : Ty} {s'' : SchedulerId}
    (h : r.Does n t (.conclude exit (.fiber value' error' fiber s')))
    (h' : r.Does m t' (.conclude exit' (.fiber value'' error'' fiber s''))) :
    n = m ∧ t = t' ∧ exit = exit' := by
  have hnot {n m : Nat} {t t' : ThreadId} {exit exit' : Exit (Outcome H.Data H.Fn)}
      {value' error' value'' error'' : Ty} {s' s'' : SchedulerId}
      (h : r.Does n t (.conclude exit (.fiber value' error' fiber s')))
      (h' : r.Does m t' (.conclude exit' (.fiber value'' error'' fiber s''))) : ¬n < m := by
    obtain ⟨haction, name, stack, ht⟩ := h
    obtain ⟨-, name', stack', ht'⟩ := h'
    obtain ⟨c, p, j, j', rfl, rfl, hplace, hplace', stage₀, hp⟩ := place_of_launched hstart hlaunch
      hsealed honce (World.pendingAt_run ht) (World.pendingAt_run ht')
    intro hlt
    have hshift : (r.world (c + j)).shift (r.action (c + j)) =
        .moved (.thread t stack.length) [.finish exit] none := by
      rw [haction, World.shift_thread ht]
      rfl
    have hgone : r.place c p (j + 1) = none := by simp [place, hplace, World.next?, hshift]
    have hnone := r.place_eq_none hp (r.stage_eq_none_of_le hp
      (show r.stage c p (j + 1) = none by simp [stage, hgone])
      (show j + 1 ≤ j' from Nat.succ_le_of_lt (Nat.lt_of_add_lt_add_left hlt)))
    rw [hnone] at hplace'
    contradiction
  obtain rfl := Nat.le_antisymm (Nat.le_of_not_lt (hnot h' h)) (Nat.le_of_not_lt (hnot h h'))
  obtain ⟨rfl, htask⟩ := h.unique h'
  exact ⟨rfl, rfl, (Task.conclude.inj htask).1⟩

end Sealed

end Run

end Trampoline
