import Trampoline.Proofs.Tracing
import Trampoline.Proofs.Transfer

/-!
The events of suspensions. An interpretation has one event recorded when it is parked at an async
node and another one when it goes on from there, each with the number of continuations that are
pending, whatever the threads are that park and resume it. The two alternate, and each resuming has
the number of the parking before it. Where an exit is there before the stack has been parked nothing
is recorded, and an exit that comes too late is recorded as such and changes nothing else.
-/

namespace Trampoline

/-- What an event says of a suspended interpretation, with so many continuations pending: it was
parked at an async node, or went on from there. -/
inductive Suspension where
  | parked (frames : Nat)
  | resumed (frames : Nat)
  deriving DecidableEq, Repr

/-- The suspension that an event is about. -/
def Event.suspension? (event : Event) : Option Suspension :=
  match event.fields.lookup "message", event.fields.lookup "frames" with
  | some (.text message), some (.count frames) =>
      if message = "parking effect at async boundary" then some (.parked frames)
      else if message = "resuming parked effect" then some (.resumed frames)
      else none
  | _, _ => none

section Events

@[simp] theorem Event.suspension?_parking (frames : Nat) :
    (parking frames).suspension? = some (.parked frames) := by
  simp [parking, plain, suspension?, List.lookup_cons]

@[simp] theorem Event.suspension?_resuming (frames : Nat) :
    (resuming frames).suspension? = some (.resumed frames) := by
  simp [resuming, plain, suspension?, List.lookup_cons]

/-- An event without a number of continuations is about no suspension. -/
theorem Event.suspension?_of_lookup {event : Event} (h : event.fields.lookup "frames" = none) :
    event.suspension? = none := by
  simp only [suspension?, h]
  split <;> simp_all

@[simp] theorem Event.suspension?_ignoredCompletion : ignoredCompletion.suspension? = none :=
  suspension?_of_lookup rfl

@[simp] theorem Event.suspension?_forkPanicked (message : String) :
    (forkPanicked message).suspension? = none :=
  suspension?_of_lookup rfl

@[simp] theorem Event.suspension?_workPanicked (failure : WorkFailure) :
    (workPanicked failure).suspension? = none :=
  suspension?_of_lookup rfl

@[simp] theorem Event.suspension?_subscriberPanicked : subscriberPanicked.suspension? = none :=
  suspension?_of_lookup rfl

theorem Event.IsOfEffect.suspension? {event : Event} (h : event.IsOfEffect) :
    event.suspension? = none := by
  cases h <;> exact suspension?_of_lookup rfl

theorem Event.IsWarning.suspension? {event : Event} (h : event.IsWarning) :
    event.suspension? = none := by
  cases h <;> exact suspension?_of_lookup rfl

end Events

namespace Suspension

/-- Suspensions each of which is over: every parking is followed by a resuming with its number. -/
inductive Paired : List Suspension → Prop where
  | nil : Paired []
  | cons (frames : Nat) {rest : List Suspension} :
      Paired rest → Paired (.parked frames :: .resumed frames :: rest)

/-- Suspensions that alternate, a parking first, where each resuming has the number of the parking
before it. -/
inductive Alternate : List Suspension → Prop where
  | nil : Alternate []
  | last (frames : Nat) : Alternate [.parked frames]
  | cons (frames : Nat) {rest : List Suspension} :
      Alternate rest → Alternate (.parked frames :: .resumed frames :: rest)

def isParking : Suspension → Bool
  | .parked _ => true
  | .resumed _ => false

@[simp] theorem isParking_parked (frames : Nat) : (parked frames).isParking = true := rfl

@[simp] theorem isParking_resumed (frames : Nat) : (resumed frames).isParking = false := rfl

variable {first rest : List Suspension} {frames : Nat}

theorem Paired.append (h : Paired first) (h' : Paired rest) : Paired (first ++ rest) := by
  induction h with
  | nil => exact h'
  | cons frames _ ih => exact .cons frames ih

theorem Paired.append_alternate (h : Paired first) (h' : Alternate rest) :
    Alternate (first ++ rest) := by
  induction h with
  | nil => exact h'
  | cons frames _ ih => exact .cons frames ih

theorem Paired.alternate (h : Paired first) : Alternate first :=
  List.append_nil first ▸ h.append_alternate .nil

/-- There are as many resumings as parkings. -/
theorem Paired.countP_eq (h : Paired first) :
    first.countP isParking = first.countP fun s => !s.isParking := by
  induction h with
  | nil => rfl
  | cons frames _ ih => simpa [List.countP_cons] using ih

end Suspension

section

variable {D F : Type}

/-- The suspensions of an interpretation that has come to a stage, or has ended: all are over, but
for the one that the interpretation is about to come back from. -/
def Stage.Fits : Option (Stage D F) → List Suspension → Prop
  | some (.parked _ frames), suspensions =>
      ∃ before, suspensions = before ++ [.parked frames.length] ∧ Suspension.Paired before
  | some (.resuming _ frames), suspensions =>
      ∃ before, suspensions = before ++ [.parked frames.length] ∧ Suspension.Paired before
  | _, suspensions => Suspension.Paired suspensions

/-- What is recorded of suspensions when an interpretation comes from one stage to the next. -/
def Stage.records : Stage D F → Option (Stage D F) → List Suspension
  | .leaving _ frames, some (.parked _ _) => [.parked frames.length]
  | .resuming _ frames, some (.driving _) => [.resumed frames.length]
  | _, _ => []

variable {s : Stage D F} {suspensions : List Suspension}

theorem Stage.records_self (s : Stage D F) : s.records (some s) = [] := by
  cases s <;> rfl

theorem Stage.records_of_waiting (h : ¬s.IsActive) (o : Option (Stage D F)) :
    s.records o = [] := by
  cases s with
  | leaving id frames => exact absurd trivial h
  | resuming exit frames => exact absurd trivial h
  | _ => cases o <;> rfl

theorem Stage.Fits.alternate {o : Option (Stage D F)} (h : Fits o suspensions) :
    Suspension.Alternate suspensions := by
  cases o with
  | none => exact Suspension.Paired.alternate h
  | some s =>
      cases s with
      | parked id frames =>
          obtain ⟨before, rfl, hpaired⟩ := h
          exact hpaired.append_alternate (.last _)
      | resuming exit frames =>
          obtain ⟨before, rfl, hpaired⟩ := h
          exact hpaired.append_alternate (.last _)
      | _ => exact Suspension.Paired.alternate h

/-- What is recorded fits the stage that an interpretation comes to. -/
theorem Stage.Goes.fits {deeds : List (Deed D F)} {o : Option (Stage D F)} (h : s.Goes deeds o)
    (hfits : Fits (some s) suspensions) : Fits o (suspensions ++ s.records o) := by
  cases h with
  | rest => simpa only [records_self, List.append_nil] using hfits
  | registered hnode => simpa only [records_self, List.append_nil] using hfits
  | step hstep =>
      cases hstep with
      | park => exact ⟨suspensions, rfl, hfits⟩
      | resume =>
          obtain ⟨before, rfl, hpaired⟩ := hfits
          simpa only [Fits, records, List.append_assoc, List.singleton_append] using
            hpaired.append (.cons _ .nil)
      | deliver =>
          simp only [records, List.append_nil]
          exact hfits
      | _ => simpa only [Fits, records, List.append_nil] using hfits

/-- The suspensions of an interpretation since it has come to an async node with these continuations
pending, up to the next node. -/
def Stage.Passes (frames : List (Frame D F)) : Option (Stage D F) → List Suspension → Prop
  | some (.submitting _ frames'), suspensions => frames' = frames ∧ suspensions = []
  | some (.leaving _ frames'), suspensions => frames' = frames ∧ suspensions = []
  | some (.parked _ frames'), suspensions =>
      frames' = frames ∧ suspensions = [.parked frames.length]
  | some (.resuming _ frames'), suspensions =>
      frames' = frames ∧ suspensions = [.parked frames.length]
  | _, suspensions =>
      suspensions = [] ∨ suspensions = [.parked frames.length, .resumed frames.length]

theorem Stage.Passes.isPrefix {frames : List (Frame D F)} {o : Option (Stage D F)}
    (h : Passes frames o suspensions) :
    suspensions <+: [.parked frames.length, .resumed frames.length] := by
  have hsettled (h : suspensions = [] ∨
      suspensions = [.parked frames.length, .resumed frames.length]) :
      suspensions <+: [.parked frames.length, .resumed frames.length] := by
    rcases h with rfl | rfl
    · exact List.nil_prefix
    · exact List.prefix_rfl
  cases o with
  | none => exact hsettled h
  | some s =>
      cases s with
      | submitting id frames' => exact hsettled (.inl h.2)
      | leaving id frames' => exact hsettled (.inl h.2)
      | parked id frames' => exact ⟨[.resumed frames.length], by rw [h.2]; rfl⟩
      | resuming exit frames' => exact ⟨[.resumed frames.length], by rw [h.2]; rfl⟩
      | _ => exact hsettled h

theorem Stage.Goes.passes {deeds : List (Deed D F)} {o : Option (Stage D F)}
    {frames : List (Frame D F)} (h : s.Goes deeds o) (hnone : ∀ d ∈ deeds, ¬d.IsSubmit)
    (hpasses : Passes frames (some s) suspensions) :
    Passes frames o (suspensions ++ s.records o) := by
  cases h with
  | rest => simpa only [records_self, List.append_nil] using hpasses
  | registered hnode => simpa only [records_self, List.append_nil] using hpasses
  | step hstep =>
      cases hstep with
      | suspend hsuspend =>
          rw [Interpretation.deeds_of_suspend hsuspend] at hnone
          exact absurd trivial (hnone _ (List.mem_singleton_self _))
      | submitted => simpa only [Passes, records, List.append_nil] using hpasses
      | lost => exact .inl (by simpa only [records, List.append_nil] using hpasses.2)
      | inline => exact .inl (by simpa only [records, List.append_nil] using hpasses.2)
      | park =>
          obtain ⟨rfl, rfl⟩ := hpasses
          exact ⟨rfl, rfl⟩
      | deliver => simpa only [Passes, records, List.append_nil] using hpasses
      | resume =>
          obtain ⟨rfl, rfl⟩ := hpasses
          exact .inr rfl
      | _ => simpa only [Passes, records, List.append_nil] using hpasses

end

variable {H : Host}

/-- Whether an action moves the interpretation at `p`. -/
def Shift.moves {D F : Type} (p : Place) : Shift D F → Bool
  | .moved q _ _ => q = p
  | _ => false

theorem Shift.exists_of_moves {D F : Type} {p : Place} {shift : Shift D F}
    (h : shift.moves p = true) : ∃ deeds o, shift = .moved p deeds o := by
  cases shift with
  | moved q deeds o =>
      obtain rfl := of_decide_eq_true h
      exact ⟨deeds, o, rfl⟩
  | _ => contradiction

theorem Shift.moves_eq_false {D F : Type} {p : Place} {shift : Shift D F}
    (h : ∀ deeds o, shift ≠ .moved p deeds o) : shift.moves p = false := by
  by_contra hmoves
  obtain ⟨deeds, o, hshift⟩ := exists_of_moves (eq_true_of_ne_false hmoves)
  exact h deeds o hshift

/-- The suspensions that are recorded when a thread goes on with an interpretation at a stage. -/
def Stage.suspensions (heap : Heap H.Data H.Fn) : Stage H.Data H.Fn → List Suspension
  | .leaving id frames =>
      match heap.handoffs[id]? with
      | some ⟨_, .early _⟩ => []
      | some _ => [.parked frames.length]
      | none => []
  | .resuming _ frames => [.resumed frames.length]
  | _ => []

theorem Task.filterMap_traces {task : Task H} {s : Stage H.Data H.Fn} {finish : Finish H.Fn}
    (h : task.pending? = some (s, finish)) (t : ThreadId) (heap : Heap H.Data H.Fn) :
    (task.traces t heap).filterMap Event.suspension? = s.suspensions heap := by
  cases task with
  | drive i last finish' =>
      obtain ⟨rfl, -⟩ := Prod.mk.inj (Option.some.inj h)
      rfl
  | park id frames last finish' =>
      obtain ⟨rfl, -⟩ := Prod.mk.inj (Option.some.inj h)
      simp only [traces, Stage.suspensions]
      rcases heap.handoffs[id]? with _ | ⟨submitter, phase⟩
      · rfl
      · cases phase <;> simp
  | resume exit frames finish' =>
      obtain ⟨rfl, -⟩ := Prod.mk.inj (Option.some.inj h)
      simp [traces, Stage.suspensions]
  | conclude exit finish' =>
      obtain ⟨rfl, -⟩ := Prod.mk.inj (Option.some.inj h)
      cases exit with
      | settled outcome => rfl
      | panicked payload =>
          cases finish' with
          | fiber value error fiber reporter =>
              simp [traces, Stage.suspensions]
          | _ => rfl
  | _ => contradiction

/-- A task that has a suspension to record goes on with an interpretation. -/
theorem Task.exists_pending_of_traces {task : Task H} (hcandid : task.IsCandid) {t : ThreadId}
    {heap : Heap H.Data H.Fn} {event : Event} {suspension : Suspension}
    (hmem : event ∈ task.traces t heap) (hevent : event.suspension? = some suspension) :
    ∃ x, task.pending? = some x := by
  have hnone (h : event.suspension? = none) : ∃ x, task.pending? = some x :=
    absurd (h.symm.trans hevent) (by simp)
  cases task with
  | drive i last finish => exact ⟨_, rfl⟩
  | park id frames last finish => exact ⟨_, rfl⟩
  | resume exit frames finish => exact ⟨_, rfl⟩
  | conclude exit finish => exact ⟨_, rfl⟩
  | answer question =>
      obtain hquestion : question.event? = some event := by simpa [traces] using hmem
      exact hnone (hcandid event hquestion).suspension?
  | lost warning =>
      obtain rfl := List.mem_singleton.1 hmem
      exact hnone (Event.IsWarning.suspension? hcandid)
  | hang value error future channel =>
      refine hnone (Event.IsWarning.suspension? ?_)
      simp only [traces] at hmem
      split at hmem
      · contradiction
      · exact List.mem_singleton.1 hmem ▸ .pendingForever
  | deliver id exit origin =>
      refine hnone ?_
      simp only [traces] at hmem
      repeat' split at hmem
      all_goals simp_all
  | report s failure =>
      refine hnone ?_
      simp only [traces] at hmem
      split at hmem <;> simp_all
  | notify id v subscribers first =>
      refine hnone ?_
      cases subscribers <;> cases first <;> simp_all [traces]
  | _ => simp [traces] at hmem

namespace World

variable {w : World H} {t : ThreadId} {name : Option String} {task : Task H}
  {stack : List (Return H)}

/-- A thread that does a task and moves an interpretation on a thread goes on with it. -/
theorem pending_of_shift {q : ThreadId} {l : Nat} {deeds : List (Deed H.Data H.Fn)}
    {o : Option Place} (ht : w.threads[t]? = some ⟨name, .run task, stack⟩)
    (h : w.shift (.thread t) = .moved (.thread q l) deeds o) :
    ∃ x, task.pending? = some x ∧ w.pendingAt (.thread q l) = some x := by
  have hplace {x : Pending H.Data H.Fn} (hx : task.pending? = some x)
      (h : Place.thread t stack.length = .thread q l) :
      ∃ x, task.pending? = some x ∧ w.pendingAt (.thread q l) = some x :=
    ⟨x, hx, h ▸ (pendingAt_run ht).trans hx⟩
  rw [shift_thread ht] at h
  cases task with
  | drive i last finish =>
      simp only [turnShift] at h
      split at h <;> exact hplace rfl (Shift.moved.inj h).1
  | park id frames last finish =>
      simp only [turnShift] at h
      split at h <;> exact hplace rfl (Shift.moved.inj h).1
  | resume exit frames finish => exact hplace rfl (Shift.moved.inj h).1
  | conclude exit finish => exact hplace rfl (Shift.moved.inj h).1
  | deliver id exit origin => exact Place.noConfusion (Shift.moved.inj h).1
  | register r target => cases target <;> contradiction
  | _ => contradiction

end World

namespace Run

variable (r : Run H)

/-- The suspensions that are recorded in the action `n` actions after time `b` when it moves the
interpretation that is at `p` at time `b`. -/
def suspended (b : Nat) (p : Place) (n : Nat) : List Suspension :=
  match r.place b p n with
  | some q =>
      if ((r.world (b + n)).shift (r.action (b + n))).moves q then
        (r.traced (b + n)).filterMap Event.suspension?
      else []
  | none => []

/-- The suspensions that are recorded of the interpretation that is at `p` at time `b`, until `n`
actions later. -/
def suspensions (b : Nat) (p : Place) : Nat → List Suspension
  | 0 => []
  | n + 1 => suspensions b p n ++ r.suspended b p n

variable {r} {b n : Nat} {p q : Place} {s : Stage H.Data H.Fn} {finish : Finish H.Fn}
  {x : Pending H.Data H.Fn}

/-- An interpretation can be looked at from a later time on. -/
theorem suspended_add (hq : r.place b p n = some q) (m : Nat) :
    r.suspended b p (n + m) = r.suspended (b + n) q m := by
  simp only [suspended, r.place_add hq, Nat.add_assoc]

theorem suspensions_add (hq : r.place b p n = some q) (m : Nat) :
    r.suspensions b p (n + m) = r.suspensions b p n ++ r.suspensions (b + n) q m := by
  induction m with
  | zero => exact (List.append_nil _).symm
  | succ m ih =>
      rw [← Nat.add_assoc, suspensions, ih, suspended_add hq, suspensions, List.append_assoc]

/-- Nothing is recorded for an interpretation that an action does not move. -/
theorem suspended_of_other (hq : r.place b p n = some q)
    (hother : ∀ deeds o, (r.world (b + n)).shift (r.action (b + n)) ≠ .moved q deeds o) :
    r.suspended b p n = [] := by
  simp [suspended, hq, Shift.moves_eq_false hother]

/-- Nothing is recorded when an interpretation gets a reply, or a submission comes back to it. -/
theorem suspended_of_waiting (hq : r.place b p n = some q)
    (hat : (r.world (b + n)).pendingAt q = some (s, finish)) (hthread : ∃ t l, q = .thread t l)
    (hwaits : ¬s.IsActive) : r.suspended b p n = [] := by
  by_cases hmoves : ((r.world (b + n)).shift (r.action (b + n))).moves q
  · obtain ⟨deeds, o, hshift⟩ := Shift.exists_of_moves hmoves
    obtain ⟨t, l, rfl⟩ := hthread
    have hnone : r.traced (b + n) = [] := by
      refine traced_of_not_does fun t' task hdoes => ?_
      obtain ⟨haction, name, stack, ht⟩ := hdoes
      rw [haction] at hshift
      obtain ⟨y, htask, hy⟩ := World.pending_of_shift ht hshift
      obtain rfl := Option.some.inj (hy.symm.trans hat)
      exact hwaits (World.isActive_of_pending htask)
    simp [suspended, hq, hnone]
  · simp [suspended, hq, hmoves]

/-- A thread that goes on with an interpretation records what the stage tells. -/
theorem suspended_of_active {t : ThreadId} {l : Nat} (hq : r.place b p n = some (.thread t l))
    (hat : (r.world (b + n)).pendingAt (.thread t l) = some (s, finish)) (hactive : s.IsActive)
    (haction : r.action (b + n) = .thread t) :
    r.suspended b p n = s.suspensions (r.world (b + n)).heap := by
  obtain ⟨t', name, task, stack, hplace, ht, htask⟩ := World.active_of_pendingAt hat hactive
  obtain ⟨rfl, rfl⟩ := Place.thread.inj hplace
  obtain ⟨deeds, o, hshift⟩ := World.shift_of_pending ht htask
  have hdoes : r.Does (b + n) t task := ⟨haction, name, stack, ht⟩
  simp only [suspended, hq, haction, hshift, Shift.moves, decide_true, if_true, hdoes.traced,
    Task.filterMap_traces htask]

/-- A stack that is parked has not found an exit at its node. -/
theorem suspensions_of_park {t : ThreadId} {l : Nat} {id : HandoffId}
    {frames : List (Frame H.Data H.Fn)}
    (hat : (r.world n).pendingAt (.thread t l) = some (.leaving id frames, finish))
    (haction : r.action n = .thread t)
    (hnext : (r.world n).next? (r.action n) (.thread t l) = some (.handoff id)) :
    (Stage.leaving id frames : Stage H.Data H.Fn).suspensions (r.world n).heap =
      [.parked frames.length] := by
  obtain ⟨t', name, task, stack, hplace, ht, htask⟩ := World.active_of_pendingAt hat trivial
  obtain ⟨rfl, rfl⟩ := Place.thread.inj hplace
  obtain ⟨-, -, handoff, -, hhandoff, -, hphase⟩ :=
    (r.sound n).parking (.thread t stack.length) id ⟨_, _, hat, rfl⟩
  obtain ⟨submitter, phase⟩ := handoff
  cases task with
  | park id' frames' last finish' =>
      obtain ⟨⟨rfl, rfl⟩, rfl⟩ := by simpa [Task.pending?] using htask
      rcases hphase with hphase | ⟨exit, hphase⟩
      · obtain rfl : phase = .submitting := hphase
        simp [Stage.suspensions, hhandoff]
      · obtain rfl : phase = .early exit := hphase
        simp [World.next?, haction, World.shift_thread ht, World.turnShift, hhandoff] at hnext
  | _ => simp [Task.pending?] at htask

/-- What is recorded of suspensions in an action is what belongs to the way from one stage to the
next. -/
theorem suspended_eq (hp : (r.world b).pendingAt p = some x) (hs : r.stage b p n = some s) :
    r.suspended b p n = s.records (r.stage b p (n + 1)) := by
  obtain ⟨q, hq, hat⟩ := (r.stage_eq_some hp).1 hs
  have hstage {q' : Place} {s' : Stage H.Data H.Fn}
      (hnext : (r.world (b + n)).next? (r.action (b + n)) q = some q')
      (hat' : (r.world (b + n + 1)).pendingAt q' = some (s', x.2)) :
      r.stage b p (n + 1) = some s' :=
    (r.stage_eq_some hp).2 ⟨q', by simp [place, hq, hnext], hat'⟩
  have hwaits {t : ThreadId} {l : Nat} (hthere : q = .thread t l) (hactive : ¬s.IsActive) :
      r.suspended b p n = s.records (r.stage b p (n + 1)) := by
    rw [suspended_of_waiting hq hat ⟨t, l, hthere⟩ hactive, Stage.records_of_waiting hactive]
  cases (r.sound (b + n)).carries (r.step (b + n)) hat with
  | stays hnext hat' hdone hother =>
      rw [hstage hnext hat', Stage.records_self, suspended_of_other hq hother]
  | @goOn t l l' s' hthere haction hnext hat' hstep hnode =>
      by_cases hactive : s.IsActive
      · subst hthere
        rw [hstage hnext hat', suspended_of_active hq hat hactive haction]
        generalize (r.world (b + n)).deeds (r.action (b + n)) (.thread t l) = deeds at hstep
        cases hstep with
        | park => exact Place.noConfusion (World.handoff_of_pendingAt hat').1
        | inline => contradiction
        | _ => rfl
      · exact hwaits hthere hactive
  | @ends t l hthere haction hnext hstep =>
      by_cases hactive : s.IsActive
      · subst hthere
        rw [suspended_of_active hq hat hactive haction]
        generalize (r.world (b + n)).deeds (r.action (b + n)) (.thread t l) = deeds at hstep
        cases hstep with
        | lost => exact hactive.elim
        | conclude => rfl
      · exact hwaits hthere hactive
  | suspend hthere haction hdriving hstep hdone hnext hat' =>
      subst hthere hdriving
      rw [suspended_of_active hq hat trivial haction]
      rfl
  | inline hthere haction hleaving hhandoff hdone hnext hat' =>
      subst hthere hleaving
      rw [hstage hnext hat', suspended_of_active hq hat trivial haction]
      simp [Stage.suspensions, Stage.records, hhandoff]
  | park hthere haction hleaving hdone hnext hat' =>
      subst hthere hleaving
      rw [hstage hnext hat', suspended_of_active hq hat trivial haction,
        suspensions_of_park hat haction hnext]
      rfl
  | accept hthere haction hparked ht hhandoff hdone hnext hat' =>
      subst hthere hparked
      have hdoes : r.Does (b + n) _ (.deliver _ _ _) := ⟨haction, _, _, ht⟩
      simp [suspended, hq, hdoes.traced, Task.traces, hhandoff, Handoff.offer, Stage.records]

theorem stage_zero (hp : (r.world b).pendingAt p = some x) : r.stage b p 0 = some x.1 :=
  (r.stage_eq_some hp).2 ⟨p, rfl, hp⟩

theorem suspensions_fits (hp : (r.world b).pendingAt p = some x)
    (hx : Stage.Fits (some x.1) []) (n : Nat) :
    Stage.Fits (r.stage b p n) (r.suspensions b p n) := by
  induction n with
  | zero =>
      rw [stage_zero hp]
      exact hx
  | succ n ih =>
      cases hs : r.stage b p n with
      | none =>
          rw [hs] at ih
          have hover := r.place_eq_none hp hs
          rw [r.stage_eq_none_of_le hp hs (Nat.le_succ n), suspensions]
          simpa [suspended, hover] using ih
      | some s =>
          rw [hs] at ih
          rw [suspensions, suspended_eq hp hs]
          exact ((r.course hp).goes n s hs).fits ih

/-- An interpretation that is under way has begun at some time. -/
theorem exists_begun (hq : (r.world n).pendingAt q = some (s, finish)) :
    ∃ b k p node, n = b + k ∧ (r.world b).pendingAt p = some (.driving (.start node), finish) ∧
      r.place b p k = some q := by
  induction n generalizing q s with
  | zero => exact absurd ((r.initial.pendingAt q).symm.trans hq) (by simp)
  | succ n ih =>
      rcases (r.sound n).origin (r.step n) hq with ⟨p, s₀, hp, hnext⟩ | ⟨node, rfl, hbegins⟩
      · obtain ⟨b, k, p₀, node, rfl, hp₀, hplace⟩ := ih hp
        exact ⟨b, k + 1, p₀, node, rfl, hp₀, by simp [place, hplace, hnext]⟩
      · exact ⟨n + 1, 0, q, node, rfl, hq, rfl⟩

/-- Every suspension in the trace is recorded of an interpretation. -/
theorem exists_suspended (hstart : (r.world 0).Starting) {event : Event} {suspension : Suspension}
    (hmem : event ∈ r.traced n) (hevent : event.suspension? = some suspension) :
    ∃ b k p node finish, n = b + k ∧
      (r.world b).pendingAt p = some (.driving (.start node), finish) ∧
        suspension ∈ r.suspended b p k := by
  by_cases hdoes : ∃ t task, r.Does n t task
  · obtain ⟨t, task, hdoes⟩ := hdoes
    have htraces := hmem
    rw [hdoes.traced] at htraces
    obtain ⟨⟨s, finish⟩, htask⟩ :=
      Task.exists_pending_of_traces (hdoes.isCandid hstart) htraces hevent
    obtain ⟨haction, name, stack, ht⟩ := hdoes
    obtain ⟨deeds, o, hshift⟩ := World.shift_of_pending ht htask
    obtain ⟨b, k, p, node, rfl, hp, hplace⟩ := exists_begun ((World.pendingAt_run ht).trans htask)
    refine ⟨b, k, p, node, finish, rfl, hp, ?_⟩
    simp only [suspended, hplace, haction, hshift, Shift.moves, decide_true, if_true]
    exact List.mem_filterMap.2 ⟨event, hmem, hevent⟩
  · rw [traced_of_not_does fun t task h => hdoes ⟨t, task, h⟩] at hmem
    contradiction

section Nodes

variable {t : ThreadId} {id : HandoffId} {frames : List (Frame H.Data H.Fn)}

theorem suspensions_passes (hp : (r.world b).pendingAt p = some (.submitting id frames, finish))
    (hnone : r.ReachesNone b p n) :
    Stage.Passes frames (r.stage b p n) (r.suspensions b p n) := by
  induction n with
  | zero =>
      rw [stage_zero hp]
      exact ⟨rfl, rfl⟩
  | succ n ih =>
      obtain ⟨hbefore, hnow⟩ := hnone.of_succ
      have ih := ih hbefore
      cases hs : r.stage b p n with
      | none =>
          rw [hs] at ih
          have hover := r.place_eq_none hp hs
          rw [r.stage_eq_none_of_le hp hs (Nat.le_succ n), suspensions]
          simpa [suspended, hover] using ih
      | some s =>
          rw [hs] at ih
          rw [suspensions, suspended_eq hp hs]
          exact ((r.course hp).goes n s hs).passes hnow ih

/-- A node whose exit has been accepted before the submitter has left is never parked at. -/
theorem Accepts.not_parked {m : Nat} {exit : Exit (Outcome H.Data H.Fn)}
    (haccepts : r.Accepts m t id exit) (hearly : ¬r.HasLeft m id) :
    ¬(r.world n).At id (· = .parked frames finish) := by
  rintro ⟨⟨submitter, phase⟩, hhandoff, rfl⟩
  rcases Nat.lt_or_ge m n with hmn | hnm
  · obtain ⟨handoff', hhandoff', hexit⟩ := hasExit_le haccepts.hasExit.2 hmn
    obtain rfl := Option.some.inj (hhandoff.symm.trans hhandoff')
    exact hexit
  · exact hearly (HasLeft.le ⟨_, hhandoff, trivial⟩ hnm)

/-- An interpretation does not wait at a node that it has been parked at, if its exit is accepted
before the submitter has left. -/
theorem stage_ne_parked {m : Nat} {exit : Exit (Outcome H.Data H.Fn)}
    (hp : (r.world b).pendingAt p = some (.submitting id frames, finish))
    (haccepts : r.Accepts m t id exit) (hearly : ¬r.HasLeft m id) (hnone : r.ReachesNone b p n)
    (id' : HandoffId) (frames' : List (Frame H.Data H.Fn)) :
    r.stage b p n ≠ some (.parked id' frames') := by
  intro hs
  obtain ⟨submitter, l, rfl, htransfers⟩ := exists_transfers r hp
  obtain ⟨phase, hsubmitter⟩ := htransfers.submitter
  obtain ⟨q, hq, hat⟩ := (r.stage_eq_some hp).1 hs
  have hleg := hnone.leg hp hsubmitter
  cases hleg with
  | @waiting q' s' hq' hat' hnode =>
      obtain rfl := Option.some.inj (hq.symm.trans hq')
      obtain ⟨rfl, -⟩ := Prod.mk.inj (Option.some.inj (hat.symm.trans hat'))
      obtain rfl := Option.some.inj hnode
      obtain ⟨-, s, hhandoff⟩ := World.handoff_of_pendingAt hat
      exact haccepts.not_parked hearly ⟨_, hhandoff, rfl⟩
  | @beyond m' t' exit' l' s' hm' haccepts' hq' hat' hnode =>
      obtain rfl := Option.some.inj (hq.symm.trans hq')
      obtain ⟨rfl, -⟩ := Prod.mk.inj (Option.some.inj (hat.symm.trans hat'))
      contradiction
  | ended hover => exact absurd (hover.symm.trans hq) (by simp)

/-- Nothing is recorded at a node whose exit is accepted before the submitter has left. -/
theorem suspensions_of_early {m : Nat} {exit : Exit (Outcome H.Data H.Fn)}
    (hp : (r.world b).pendingAt p = some (.submitting id frames, finish))
    (haccepts : r.Accepts m t id exit) (hearly : ¬r.HasLeft m id) (hnone : r.ReachesNone b p n) :
    r.suspensions b p n = [] ∧ ∀ exit' frames', r.stage b p n ≠ some (.resuming exit' frames') := by
  induction n with
  | zero => exact ⟨rfl, fun exit' frames' => by simp [stage_zero hp]⟩
  | succ n ih =>
      obtain ⟨hbefore, -⟩ := hnone.of_succ
      obtain ⟨hnothing, hunresumed⟩ := ih hbefore
      have hunparked := stage_ne_parked hp haccepts hearly hnone
      have hunparked' := stage_ne_parked hp haccepts hearly hbefore
      cases hs : r.stage b p n with
      | none =>
          have hover := r.place_eq_none hp hs
          rw [r.stage_eq_none_of_le hp hs (Nat.le_succ n), suspensions, hnothing]
          simp [suspended, hover]
      | some s =>
          have hgoes : s.Goes (r.deeds b p n) (r.stage b p (n + 1)) := (r.course hp).goes n s hs
          rw [suspensions, hnothing, suspended_eq hp hs, List.nil_append]
          rw [hs] at hunresumed hunparked'
          generalize r.deeds b p n = deeds at hgoes
          generalize r.stage b p (n + 1) = o at hgoes hunparked
          cases hgoes with
          | rest => exact ⟨Stage.records_self s, hunresumed⟩
          | registered => exact ⟨Stage.records_self s, hunresumed⟩
          | step hstep =>
              cases hstep with
              | park => exact absurd rfl (hunparked _ _)
              | deliver => exact absurd rfl (hunparked' _ _)
              | resume => exact absurd rfl (hunresumed _ _)
              | _ => exact ⟨rfl, fun _ _ => by simp⟩

end Nodes

/-- How the suspensions of the interpretation that is at `p` at time `b` are recorded. -/
structure RecordsSuspensions (r : Run H) (b : Nat) (p : Place) : Prop where
  /-- A parking is recorded when a stack is parked and a resuming when it goes on from there, and
  nothing else. -/
  exactly {n : Nat} {s : Stage H.Data H.Fn} :
    r.stage b p n = some s → r.suspended b p n = s.records (r.stage b p (n + 1))
  /-- Parkings and resumings alternate, a parking first, and each resuming has the number of pending
  continuations of the parking before it. -/
  alternate (n : Nat) : Suspension.Alternate (r.suspensions b p n)
  /-- An interpretation whose finisher has been called has been resumed as often as parked. -/
  finished {n : Nat} {exit : Exit (Outcome H.Data H.Fn)} :
    .finish exit ∈ r.history b p n →
      (r.suspensions b p n).countP Suspension.isParking =
        (r.suspensions b p n).countP fun s => !s.isParking
  /-- Up to the next node, an async node has one parking and one resuming recorded at most, with the
  number of continuations that are pending when it is reached. -/
  apart {n m : Nat} {q : Place} {id : HandoffId} {frames : List (Frame H.Data H.Fn)} :
    r.place b p n = some q → r.stage b p n = some (.submitting id frames) →
      r.ReachesNone (b + n) q m → ∃ rest, r.suspensions b p (n + m) = r.suspensions b p n ++ rest ∧
        rest <+: [.parked frames.length, .resumed frames.length]
  /-- If an exit is accepted before the submitter has left, which only the submitting thread can
  bring about, an async node has nothing recorded. -/
  inline {n m k : Nat} {q : Place} {id : HandoffId} {frames : List (Frame H.Data H.Fn)}
      {t : ThreadId} {exit : Exit (Outcome H.Data H.Fn)} :
    r.place b p n = some q → r.stage b p n = some (.submitting id frames) →
      r.Accepts k t id exit → ¬r.HasLeft k id → r.ReachesNone (b + n) q m →
        r.suspensions b p (n + m) = r.suspensions b p n

/-- How suspensions and late exits show in the trace of a run. -/
structure SuspensionsMatch (r : Run H) : Prop where
  records {b : Nat} {p : Place} {i : Interpretation H.Data H.Fn} {finish : Finish H.Fn} :
    (r.world b).pendingAt p = some (.driving i, finish) → r.RecordsSuspensions b p
  /-- Every suspension in the trace is that of an interpretation that has begun before. -/
  only {n : Nat} {event : Event} {suspension : Suspension} :
    (r.world 0).Starting → event ∈ r.traced n → event.suspension? = some suspension →
      ∃ b k p node finish, n = b + k ∧
        (r.world b).pendingAt p = some (.driving (.start node), finish) ∧
          suspension ∈ r.suspended b p k
  /-- A callback that fires after its node has got its exit records that it came too late. Nothing
  else changes, and the call goes back. -/
  ignored {n : Nat} {t : ThreadId} {id : HandoffId} {exit : Exit (Outcome H.Data H.Fn)} :
    r.Rejects n t id exit .completion → r.traced n = [.ignoredCompletion] ∧
      (r.world n).Changes (r.world (n + 1)) t (.run (.deliver id exit .completion)) (.ret .unit)
        ((r.world n).heap.emit .ignoredCompletion)
  /-- A callback that has to wait for the stack to be parked only sleeps, to offer its exit again.
  -/
  waiting {n : Nat} {t : ThreadId} {id : HandoffId} {exit : Exit (Outcome H.Data H.Fn)}
      {handoff : Handoff H.Data H.Fn} :
    r.Offers n t id exit .completion → (r.world n).heap.handoffs[id]? = some handoff →
      (handoff.offer t exit).2 = .waiting → r.traced n = [] ∧
        (r.world n).Changes (r.world (n + 1)) t (.run (.deliver id exit .completion))
          (.asleep (.gate (.handoff id) none) (.deliver id exit .completion)
            (.deliver id exit .completion))
          (r.world n).heap

theorem finish_mem_of_history (hp : (r.world b).pendingAt p = some x)
    {exit : Exit (Outcome H.Data H.Fn)} (h : .finish exit ∈ r.history b p n) :
    r.stage b p n = none := by
  by_contra hsome
  obtain ⟨s, hs⟩ := Option.ne_none_iff_exists'.1 hsome
  have hnone := Course.finishes_of_stage (c := r.course hp) hs
  rw [r.course_history hp] at hnone
  have hmem : exit ∈ Deed.finishes (r.history b p n) := List.mem_filterMap.2 ⟨_, h, rfl⟩
  rw [hnone] at hmem
  contradiction

/-- Whatever the interleaving of completions is, the events of suspensions come in pairs, one for
each time that an interpretation is parked, and late completions record that they are late. -/
theorem suspensions_match (r : Run H) : r.SuspensionsMatch where
  records {b p i finish} hp :=
    { exactly hs := suspended_eq hp hs
      alternate n := (suspensions_fits hp .nil n).alternate
      finished {n exit} hmem := by
        have hfits := suspensions_fits hp .nil n
        rw [finish_mem_of_history hp hmem] at hfits
        exact Suspension.Paired.countP_eq hfits
      apart {n m q id frames} hq hs hnone := by
        obtain ⟨q', hq', hat⟩ := (r.stage_eq_some hp).1 hs
        obtain rfl := Option.some.inj (hq.symm.trans hq')
        exact ⟨_, suspensions_add hq m, (suspensions_passes hat hnone).isPrefix⟩
      inline {n m k q id frames t exit} hq hs haccepts hearly hnone := by
        obtain ⟨q', hq', hat⟩ := (r.stage_eq_some hp).1 hs
        obtain rfl := Option.some.inj (hq.symm.trans hq')
        rw [suspensions_add hq, (suspensions_of_early hat haccepts hearly hnone).1,
          List.append_nil] }
  only hstart hmem hevent := exists_suspended hstart hmem hevent
  ignored {n t id exit} h := by
    obtain ⟨control, heap, hchanges, hgives⟩ := h.givesBack
    cases hgives with
    | late => exact ⟨traced_of_append (by rw [hchanges.heap, Heap.toList_trace_emit]), hchanges⟩
  waiting {n t id exit handoff} hoffers hhandoff hwaits := by
    have hdoes : r.Does n t (.deliver id exit .completion) := hoffers
    obtain ⟨name, stack, ht, happly⟩ := hdoes.turn (by simp)
    have hturn : (Task.deliver id exit .completion).turn ⟨t, name⟩ stack (r.world n).heap =
        .sleep (r.world n).heap (.gate (.handoff id) none) (.deliver id exit .completion)
          (.deliver id exit .completion) := by
      simp only [Task.turn, Task.deliverTurn, hhandoff]
      generalize handoff.offer t exit = offered at hwaits
      obtain ⟨handoff', offer⟩ := offered
      obtain rfl : offer = .waiting := hwaits
      rfl
    refine ⟨by simp [hdoes.traced, Task.traces, hhandoff, hwaits], ?_⟩
    rw [happly, hturn]
    exact (r.ordered n).changes_apply ht _ _

end Run

namespace Relay

/-- An effect with two continuations pending at its node, which the server completes after it has
been parked, or the registration at once. -/
def printed (direct : Bool) : Run host :=
  .ofList (start printing direct) (start_initial _ _)
    (.replicate 30 (.thread 0) ++ .replicate 30 (.thread 1))

theorem pendingAt_printed (direct : Bool) :
    ((printed direct).world 2).pendingAt (.thread 0 2) =
      some (.driving (.start printing), .callback .unit .unit receiver) := by
  cases direct <;> rfl

set_option maxRecDepth 4000 in
/-- The suspension of the two continuations is recorded, if the callback fires later. -/
theorem printed_suspensions :
    Suspension.Alternate ((printed false).suspensions 2 (.thread 0 2) 60) ∧
      (printed false).suspensions 2 (.thread 0 2) 60 = [.parked 2, .resumed 2] ∧
        (printed true).suspensions 2 (.thread 0 2) 60 = [] :=
  ⟨((Run.suspensions_match (printed false)).records (pendingAt_printed false)).alternate 60,
    by decide, by decide⟩

end Relay

end Trampoline
