import Trampoline.Proofs.Failing
import Trampoline.Proofs.Forks
import Trampoline.Proofs.Joinings

/-!
Forking and joining. A fork submits its work once, the work interprets the effect once, and what the
effect ends with is recorded once; every join reads this record, whenever and wherever it is
interpreted, and does nothing else. Two forks have fibers of their own.
-/

namespace Trampoline

variable {H : Host}

namespace Run

variable {r : Run H} {b k n m : Nat} {p q : Place} {t t' : ThreadId} {value error : Ty}
  {x node : Node H.Data H.Fn} {s : SchedulerId} {fiber : PromiseId}
  {exit : Exit (Outcome H.Data H.Fn)} {v : Value H.Data H.Fn} {slot : Slot H.Data H.Fn}
  {frames : List (Frame H.Data H.Fn)} {finish : Finish H.Fn}

/-- A scheduler runs the work of every effect that is forked on it exactly once. -/
def RunsOnce (r : Run H) (s : SchedulerId) : Prop :=
  ∀ n t value error x fiber, r.Does n t (.submit s (launched value error x s fiber)) →
    (∃ m t', r.Does m t' (.perform (launched value error x s fiber))) ∧
      r.PerformsOnce (launched value error x s fiber)

/-- The host has no handle of a fiber: it has no work into the fiber but that of the fork, does not
complete the fiber itself, and has no callback of a node that joins the fiber. -/
structure IsUntouched (r : Run H) (value error : Ty) (x : Node H.Data H.Fn) (s : SchedulerId)
    (fiber : PromiseId) : Prop extends r.IsSealed fiber (launched value error x s fiber) where
  byHand : ∀ n t v, ¬r.FillsByHand n t fiber v
  nodes : ∀ n t id, r.ComesTo n t (.join value error fiber) immediateId id → r.Hides (.handoff id)

/-- What an interpretation of the effect that joins a fiber, which is at `p` at time `b` above some
continuations, comes to. -/
structure JoinsOnce (r : Run H) (b : Nat) (p : Place) (value error : Ty) (fiber : PromiseId)
    (frames : List (Frame H.Data H.Fn)) : Prop where
  /-- It is under way and does nothing but join the fiber, until it goes on with what the slot
  says. -/
  course (n : Nat) :
    (∃ stage j, r.stage b p n = some stage ∧ r.IsJoining b p value error fiber frames n j stage) ∨
      ∃ m slot, m ≤ n ∧ r.Reads b p value error fiber frames m slot
  /-- It comes to that if the slot is there when it starts, or if the call that writes the slot
  comes to its end. -/
  comes : fiber < (r.world b).heap.promises.size →
    ((r.world b).heap.slot? fiber ≠ none ∨ ∃ k t v first, r.Ends fiber k t v first) →
      ∃ n slot, r.Reads b p value error fiber frames n slot

/-- Within `n` actions the interpretation that is at `p` at time `b` submits nothing to a scheduler,
neither a node nor a fork. -/
def SubmitsNone (r : Run H) (b : Nat) (p : Place) (s : SchedulerId) (n : Nat) : Prop :=
  (∀ register, .submit register s ∉ r.history b p n) ∧ ∀ work, (s, work) ∉ r.submitted b p n

/-- A fiber is the memory of one run of an effect that has been forked on a scheduler. -/
structure Memoises (r : Run H) (value error : Ty) (x : Node H.Data H.Fn) (s : SchedulerId)
    (fiber : PromiseId) : Prop where
  /-- The effect is interpreted into the fiber once, and nothing else is. -/
  interprets : ∃ n q,
    (r.world n).Begins (r.world (n + 1)) (r.action n) q x (.fiber value error fiber s) ∧
      ∀ n' q' node value' error' s', (r.world n').Begins (r.world (n' + 1)) (r.action n') q' node
        (.fiber value' error' fiber s') → n' = n ∧ q' = q ∧ node = x
  /-- It ends once. -/
  ends {n m : Nat} {t t' : ThreadId} {exit exit' : Exit (Outcome H.Data H.Fn)} :
    r.Does n t (.conclude exit (.fiber value error fiber s)) →
      r.Does m t' (.conclude exit' (.fiber value error fiber s)) → n = m ∧ t = t' ∧ exit = exit'
  /-- What is in the slot is what it has ended with. -/
  recorded {n : Nat} {slot : Slot H.Data H.Fn} : (r.world n).heap.slot? fiber = some slot →
    ∃ m t exit, m < n ∧ r.Does m t (.conclude exit (.fiber value error fiber s)) ∧
      exit.slot? value error = some slot
  /-- That gets into the slot, a panic as soon as it has been reported. -/
  records {n : Nat} {t : ThreadId} {exit : Exit (Outcome H.Data H.Fn)}
      {slot : Slot H.Data H.Fn} :
    r.Does n t (.conclude exit (.fiber value error fiber s)) → exit.slot? value error = some slot →
      ((∃ payload, exit = .panicked payload) → r.ReportsReturn s) →
        ∃ m, (r.world m).heap.slot? fiber = some slot
  kept {n m : Nat} {slot : Slot H.Data H.Fn} : (r.world n).heap.slot? fiber = some slot → n ≤ m →
    (r.world m).heap.slot? fiber = some slot
  /-- Every interpretation of the effect that joins the fiber, at any time and place, reads the
  slot. -/
  joins {b : Nat} {p : Place} {frames : List (Frame H.Data H.Fn)} {finish : Finish H.Fn} :
    (r.world b).pendingAt p =
        some (.driving ⟨.node (.join value error fiber), frames⟩, finish) →
      r.JoinsOnce b p value error fiber frames
  /-- It submits nothing to the scheduler of the fork until it has read the slot, unless this is the
  one that every join registers on. -/
  spares {b n : Nat} {p : Place} {frames : List (Frame H.Data H.Fn)} {finish : Finish H.Fn} :
    (r.world b).pendingAt p =
        some (.driving ⟨.node (.join value error fiber), frames⟩, finish) →
      s ≠ immediateId → (∀ m slot, m < n → ¬r.Reads b p value error fiber frames m slot) →
        r.SubmitsNone b p s n

/-- Action `n` starts the interpretation of a node at a place. -/
abbrev BeginsAt (r : Run H) (n : Nat) (p : Place) (node : Node H.Data H.Fn) (finish : Finish H.Fn) :
    Prop :=
  (r.world n).Begins (r.world (n + 1)) (r.action n) p node finish

/-- A scheduler that gets one effect, which is performed once, runs its work once. -/
theorem runsOnce_of_submits {finish : Finish H.Fn}
    (hsubmits : r.Does k t (.submit s (.interpret node finish)))
    (hperforms : r.Does m t' (.perform (.interpret node finish)))
    (honly : ∀ {n t node finish}, r.Does n t (.submit s (.interpret node finish)) → n = k)
    (honce : ∀ {n t}, r.Does n t (.perform (.interpret node finish)) → n = m) : r.RunsOnce s := by
  intro n t value error x fiber hdoes
  obtain rfl := honly hdoes
  obtain ⟨-, heq⟩ := hdoes.unique hsubmits
  obtain ⟨-, hwork⟩ := Task.submit.inj heq
  rw [hwork]
  exact ⟨⟨m, t', hperforms⟩, fun _ _ _ _ hn hm => (honce hn).trans (honce hm).symm⟩

/-- Only work starts the interpretation of a fiber's effect. -/
theorem BeginsAt.performs (h : r.BeginsAt n p node (.fiber value error fiber s)) :
    ∃ t, r.Does n t (.perform (.interpret node (.fiber value error fiber s))) := by
  obtain ⟨t, name, task, stack, -, haction, -, ht, hstarts⟩ := h.starts
  cases hstarts with
  | interpret => exact ⟨t, haction, name, stack, ht⟩

/-- A task that goes on with the interpretation of a node starts it. -/
theorem begins_of_turns {task : Task H} {name : Option String} {last : Kept}
    {stack stack' : List (Return H)} (h : r.Turns n t (.run task) stack)
    (hidle : task.pending? = none)
    (hstays : ∀ (w : World H) name, w.turnShift t ⟨name, .run task, stack⟩ = .stay)
    (hnext : (r.world (n + 1)).threads[t]? =
      some ⟨name, .run (.drive (.start node) last finish), stack'⟩)
    (hstack : stack.length ≤ stack'.length) :
    r.BeginsAt n (.thread t stack'.length) node finish := by
  obtain ⟨haction, name₀, ht⟩ := h
  have hshift : (r.world n).shift (r.action n) = .stay := by
    rw [haction, World.shift_thread ht, hstays]
  rcases (r.sound n).origin (r.step n) (World.pendingAt_run hnext) with
    ⟨p, stage, hold, hnext⟩ | ⟨node', hstage, hbegins⟩
  · -- Nothing is pending above the stack of a thread.
    simp only [World.next?, hshift, Option.some.injEq] at hnext
    subst hnext
    have hnone : (r.world n).pendingAt (.thread t stack'.length) = none := by
      rw [World.pendingAt, ht, Option.bind_some,
        Thread.pendingAt_of_control (by rw [Control.pending?, hidle])]
      exact Return.pendingAt_of_le hstack
    rw [hnone] at hold
    contradiction
  · obtain rfl := Interpretation.start_injective (Stage.driving.inj hstage)
    exact hbegins

/-- Work that interprets an effect starts its interpretation when it is performed. -/
theorem Turns.begins {stack : List (Return H)}
    (h : r.Turns n t (.run (.perform (.interpret node finish))) stack) :
    r.BeginsAt n (.thread t stack.length) node finish := by
  obtain ⟨haction, name, ht⟩ := id h
  obtain ⟨-, hthread⟩ := next_of_action haction ht rfl
  exact begins_of_turns h rfl (fun _ _ => rfl) hthread (Nat.le_refl _)

theorem Does.begins (h : r.Does n t (.perform (.interpret node finish))) :
    ∃ l, r.BeginsAt n (.thread t l) node finish := by
  obtain ⟨haction, name, stack, ht⟩ := h
  exact ⟨_, Turns.begins ⟨haction, name, ht⟩⟩

theorem slot?_of_le (hstart : (r.world 0).Starting)
    (h : (r.world n).heap.slot? fiber = some slot) (hnm : n ≤ m) :
    (r.world m).heap.slot? fiber = some slot := by
  obtain ⟨_, _, hpromised⟩ := Heap.slot?_eq_some.1 h
  exact Heap.slot?_eq_some.2 ⟨_, _, promised?_of_le hstart hpromised hnm⟩

theorem slot?_unique {slot' : Slot H.Data H.Fn} (hstart : (r.world 0).Starting)
    (h : (r.world n).heap.slot? fiber = some slot)
    (h' : (r.world m).heap.slot? fiber = some slot') : slot = slot' := by
  rcases Nat.le_total n m with hnm | hmn
  · exact Option.some.inj ((slot?_of_le hstart h hnm).symm.trans h')
  · exact Option.some.inj (h.symm.trans (slot?_of_le hstart h' hmn))

/-- Every interpretation of the effect that joins a fiber reads its slot. -/
theorem Fair.joinsOnce (hfair : r.Fair) (hstart : (r.world 0).Starting)
    (himmediate : (r.world 0).heap.schedulers[immediateId]? = some .immediate)
    (hnodes : ∀ n t id, r.ComesTo n t (.join value error fiber) immediateId id →
      r.Hides (.handoff id))
    (hslots : ∀ n v, (r.world n).heap.promised? fiber = some v → ∃ s, v = .slot value error s)
    (hp : (r.world b).pendingAt p =
      some (.driving ⟨.node (.join value error fiber), frames⟩, finish)) :
    r.JoinsOnce b p value error fiber frames := by
  refine ⟨joins_course hstart himmediate hnodes hslots hp, fun hfiber hserved => ?_⟩
  refine hfair.exists_reads hstart himmediate hnodes hslots hp hfiber ?_
  rcases hserved with hslot | ⟨k, t, v, first, hends⟩
  · obtain ⟨slot, hslot⟩ := Option.ne_none_iff_exists'.1 hslot
    obtain ⟨_, _, hpromised⟩ := Heap.slot?_eq_some.1 hslot
    exact tellsFrom_of_promised hstart hpromised
  · exact hends.tellsFrom hstart b

/-- An interpretation submits nothing while it asks nothing. -/
theorem submitted_eq_nil {y : Pending H.Data H.Fn} (hp : (r.world b).pendingAt p = some y)
    (h : ∀ k, k < n → ∃ stage, r.stage b p k = some stage ∧
      ∀ post frames, stage ≠ .asking post frames) : r.submitted b p n = [] := by
  induction n with
  | zero => rfl
  | succ n ih =>
      obtain ⟨stage, hstage, hne⟩ := h n (Nat.lt_succ_self n)
      obtain ⟨q, hq, hat⟩ := (r.stage_eq_some hp).1 hstage
      rw [submitted_succ hq, World.submits?_of_ne_asking hat hne,
        ih fun k hk => h k (Nat.lt_succ_of_lt hk)]
      rfl

section Joining

variable (h : r.JoinsOnce b p value error fiber frames)
  (hnone : ∀ m slot, m < n → ¬r.Reads b p value error fiber frames m slot)

include h hnone

theorem JoinsOnce.isJoining (hm : m < n) : ∃ stage j,
    r.stage b p m = some stage ∧ r.IsJoining b p value error fiber frames m j stage :=
  (h.course m).resolve_right fun ⟨m', slot, hm', hreads⟩ =>
    hnone m' slot (Nat.lt_of_le_of_lt hm' hm) hreads

theorem JoinsOnce.deeds : ∀ d ∈ r.history b p n, d.IsOfJoin value error fiber := by
  rcases h.course n with ⟨stage, j, -, -, hdeeds⟩ | ⟨m, slot, hm, hreads⟩
  · exact hdeeds
  · obtain rfl : m = n := (Nat.lt_or_eq_of_le hm).resolve_left fun hlt => hnone m slot hlt hreads
    exact hreads.deeds

theorem JoinsOnce.submitted {y : Pending H.Data H.Fn} (hp : (r.world b).pendingAt p = some y) :
    r.submitted b p n = [] := by
  refine submitted_eq_nil hp fun m hm => ?_
  obtain ⟨stage, j, hstage, hjoins, -⟩ := h.isJoining hnone hm
  refine ⟨stage, hstage, fun post frames heq => ?_⟩
  subst heq
  cases hjoins

/-- An interpretation that joins a fiber registers on the scheduler that runs work on the spot, and
submits nothing to any other one. -/
theorem JoinsOnce.submitsNone {y : Pending H.Data H.Fn}
    (hp : (r.world b).pendingAt p = some y) (hs : s ≠ immediateId) : r.SubmitsNone b p s n := by
  refine ⟨fun register hregister => ?_, fun work hwork => ?_⟩
  · obtain ⟨-, hscheduler⟩ := h.deeds hnone _ hregister
    exact hs hscheduler
  · rw [h.submitted hnone hp] at hwork
    exact List.not_mem_nil hwork

end Joining

section Launched

variable (hstart : (r.world 0).Starting) (hlaunch : r.Launches k value error x s fiber)
  (huntouched : r.IsUntouched value error x s fiber)

include hstart hlaunch huntouched

/-- What the fiber's promise holds is what the effect has ended with. -/
theorem IsUntouched.recorded (h : (r.world n).heap.promised? fiber = some v) :
    ∃ m t exit slot, m < n ∧ r.Does m t (.conclude exit (.fiber value error fiber s)) ∧
      exit.slot? value error = some slot ∧ v = .slot value error slot := by
  obtain ⟨m, t, hm, ⟨hdoes, -⟩, -⟩ := (promised?_eq_some hstart).1 h
  rcases filled_of_launched hstart hlaunch huntouched.toIsSealed hdoes.has with
    ⟨i, t', -, hfills⟩ | ⟨i, t', exit, slot, hi, hconcludes, hslot, rfl⟩
  · exact absurd hfills (huntouched.byHand i t' v)
  · exact ⟨i, t', exit, slot, Nat.lt_trans hi hm, hconcludes, hslot, rfl⟩

/-- Once someone completes the fiber, what the effect has ended with is there. -/
theorem IsUntouched.exists_promised (h : r.Does n t (.fill fiber v)) :
    ∃ m v, (r.world m).heap.promised? fiber = some v := by
  obtain ⟨i, t', _, _, hi, hconcludes, -⟩ :=
    (filled_of_launched hstart hlaunch huntouched.toIsSealed h.has).resolve_left
      fun ⟨i, t', _, hfills⟩ => huntouched.byHand i t' v hfills
  obtain ⟨hk, -⟩ := concludes_eq_launched hstart hlaunch huntouched.toIsSealed hconcludes
  have hsize := promises_size_le (r := r) (show k + 1 ≤ n by omega)
  rw [hlaunch.size_succ] at hsize
  have hcompletes : r.Completes fiber n t v := ⟨h, hsize⟩
  obtain ⟨⟨t₀, v₀⟩, hwritten⟩ := Option.isSome_iff_exists.1 (hcompletes.isSome hstart)
  obtain ⟨m, hm, hwrites⟩ := exists_writes hstart hwritten
  exact ⟨n + 1, v₀, (promised?_eq_some hstart).2 ⟨m, t₀, hm, hwrites⟩⟩

/-- What the effect ends with gets into the slot. -/
theorem IsUntouched.exists_slot (honce : r.PerformsOnce (launched value error x s fiber))
    (hfair : r.Fair) (h : r.Does n t (.conclude exit (.fiber value error fiber s)))
    (hslot : exit.slot? value error = some slot)
    (hreports : (∃ payload, exit = .panicked payload) → r.ReportsReturn s) :
    ∃ m, (r.world m).heap.slot? fiber = some slot := by
  obtain ⟨m, t', v, hfill⟩ : ∃ m t' v, r.Does m t' (.fill fiber v) := by
    obtain ⟨haction, name, stack, ht⟩ := h
    cases exit with
    | panicked payload =>
        obtain ⟨m, f, hfirst⟩ := hfair.exists_reportsFirst (hreports ⟨payload, rfl⟩)
          ⟨haction, name, ht⟩
        exact ⟨f, t, _, hfirst.marks.does⟩
    | settled outcome =>
        cases hrestore : (Exit.settled outcome).restore value error with
        | error payload => simp [Exit.slot?, hrestore] at hslot
        | ok outcome' =>
            have hturn : Thread.turn? t (r.world n).heap (r.world n).state
                ⟨name, .run (.conclude (.settled outcome) (.fiber value error fiber s)), stack⟩ =
                  some ((r.world n).state, stack, .discard (r.world n).heap
                    (.fill fiber (.slot value error (.ofOutcome outcome')))) := by
              simp only [Thread.turn?, Task.turn, Task.concludeTurn, hrestore]
            obtain ⟨-, hthread⟩ := next_of_action haction ht hturn
            obtain ⟨m, -, hdoes, -⟩ := hfair.exists_does hthread
            exact ⟨m, t, _, hdoes⟩
  obtain ⟨i, v', hpromised⟩ := huntouched.exists_promised hstart hlaunch hfill
  obtain ⟨_, _, exit', slot', -, hconcludes, hslot', rfl⟩ :=
    huntouched.recorded hstart hlaunch hpromised
  obtain ⟨-, -, rfl⟩ := concludes_once hstart hlaunch huntouched.toIsSealed honce h hconcludes
  obtain rfl := Option.some.inj (hslot.symm.trans hslot')
  exact ⟨i, Heap.slot?_eq_some.2 ⟨_, _, hpromised⟩⟩

variable (himmediate : (r.world 0).heap.schedulers[immediateId]? = some .immediate)

include himmediate

theorem IsUntouched.joinsOnce (hfair : r.Fair)
    (hp : (r.world b).pendingAt p =
      some (.driving ⟨.node (.join value error fiber), frames⟩, finish)) :
    r.JoinsOnce b p value error fiber frames := by
  refine hfair.joinsOnce hstart himmediate huntouched.nodes (fun n v h => ?_) hp
  obtain ⟨_, _, _, slot, -, -, -, rfl⟩ := huntouched.recorded hstart hlaunch h
  exact ⟨slot, rfl⟩

theorem IsUntouched.memory (hfair : r.Fair)
    (hperforms : ∃ m t', r.Does m t' (.perform (launched value error x s fiber)))
    (honce : r.PerformsOnce (launched value error x s fiber)) :
    r.Memoises value error x s fiber where
  interprets := by
    obtain ⟨m, t', hdoes⟩ := hperforms
    obtain ⟨l, hbegins⟩ := hdoes.begins
    refine ⟨m, .thread t' l, hbegins, fun n' q' node value' error' s' hbegins' => ?_⟩
    obtain ⟨⟨-, rfl, -⟩, -⟩ := begins_eq_launched hstart hlaunch huntouched.toIsSealed hbegins'
    obtain ⟨rfl, rfl⟩ :=
      begins_once hstart hlaunch huntouched.toIsSealed honce hbegins' hbegins
    exact ⟨rfl, rfl, rfl⟩
  ends h h' := concludes_once hstart hlaunch huntouched.toIsSealed honce h h'
  recorded h := by
    obtain ⟨_, _, hpromised⟩ := Heap.slot?_eq_some.1 h
    obtain ⟨m, t, exit, slot, hm, hconcludes, hslot, heq⟩ :=
      huntouched.recorded hstart hlaunch hpromised
    obtain ⟨-, -, rfl⟩ := Value.slot.inj heq
    exact ⟨m, t, exit, hm, hconcludes, hslot⟩
  records h hslot hreports := huntouched.exists_slot hstart hlaunch honce hfair h hslot hreports
  kept h hnm := slot?_of_le hstart h hnm
  joins hp := huntouched.joinsOnce hstart hlaunch himmediate hfair hp
  spares hp hs hnone :=
    (huntouched.joinsOnce hstart hlaunch himmediate hfair hp).submitsNone hnone hp hs

end Launched

/-- Every interpretation of the effect that forks another one on a scheduler that runs its work once
submits one unit of work and makes a fiber of its own; the effect is interpreted once into the
fiber, and every interpretation of the effect that joins the fiber reads what this run has ended
with and submits nothing but its own registration, to the scheduler that runs work on the spot. -/
theorem memoises (hstart : (r.world 0).Starting)
    (himmediate : (r.world 0).heap.schedulers[immediateId]? = some .immediate) (hfair : r.Fair)
    (honce : r.RunsOnce s)
    (hp : (r.world b).pendingAt p =
      some (.driving ⟨.node (.forking value error s x), frames⟩, finish)) :
    ∃ m c t fiber, r.StartsOnce b p frames value error x s m c t fiber ∧
      (∀ b' p' frames' value' error' x' s' m' c' t',
        r.StartsOnce b' p' frames' value' error' x' s' m' c' t' fiber →
          b' + m' = b + m ∧ r.place b' p' m' = r.place b p m) ∧
        (r.IsUntouched value error x s fiber → r.Memoises value error x s fiber) := by
  obtain ⟨m, c, t, fiber, hstarts⟩ := hfair.exists_startsOnce hp
  refine ⟨m, c, t, fiber, hstarts, fun b' p' frames' value' error' x' s' m' c' t' hstarts' => ?_,
    fun huntouched => ?_⟩
  · obtain ⟨htime, q, hq, hq'⟩ := hstarts.unique hstarts'
    exact ⟨htime.symm, hq'.trans hq.symm⟩
  · obtain ⟨hperforms, honce⟩ := honce _ _ _ _ _ _ hstarts.submits
    obtain ⟨_, _, -, hforks⟩ := hstarts.forks
    exact huntouched.memory hstart hforks.launches himmediate hfair hperforms honce

end Run

namespace Drill

section Plain

variable {script : Script} {more : List (Scheduler Nat)} {order : List ThreadId}

/-- Whether a task asks the host for nothing but an effect that has no node in it: for its result,
or for a fiber. -/
def isPlain : Task (host script) → Bool
  | .request q =>
      (match q with
        | .runBlocking .. => true
        | .runFiber .. => true
        | _ => false) &&
      (q.refs []).all fun
        | .handoff _ => false
        | _ => true
  | _ => true

section

variable (h : ∀ n < order.length, (((run script more order).world n).task?
  ((run script more order).action n)).all isPlain)

include h

theorem asks_of_isPlain {n : Nat} {t : ThreadId} {q : Request Unit Nat}
    (hdoes : (run script more order).Does n t (.request q)) :
    ((∃ value error node, q = .runBlocking value error node) ∨
      ∃ value error node s, q = .runFiber value error node s) ∧ ∀ id, .handoff id ∉ q.refs [] := by
  obtain ⟨hkind, hrefs⟩ := Bool.and_eq_true_iff.1 (check_of_does (c := fun _ => isPlain) h hdoes)
  refine ⟨?_, fun id hid => ?_⟩
  · cases q with
    | runBlocking value error node => exact .inl ⟨_, _, _, rfl⟩
    | runFiber value error node s => exact .inr ⟨_, _, _, _, rfl⟩
    | _ => contradiction
  · have hnone := List.all_eq_true.1 hrefs _ hid
    contradiction

/-- A host that only asks for the results of effects, or for their fibers, has no work to hand in,
-/
theorem isPrivate_of_isPlain (channel : ChannelId) :
    (run script more order).IsPrivate channel := by
  intro n t q work hdoes hwork
  obtain ⟨⟨_, _, _, rfl⟩ | ⟨_, _, _, _, rfl⟩, -⟩ := asks_of_isPlain h hdoes <;> contradiction

/-- and does nothing with a fiber. -/
theorem isUntouched_of_isPlain (value error : Ty) (x : Node Unit Nat) (s : SchedulerId)
    (fiber : PromiseId) : (run script more order).IsUntouched value error x s fiber := by
  refine ⟨⟨fun n t q _ _ _ _ hdoes hwork => ?_, fun n t v hdoes => ?_⟩, ?_, ?_⟩
  · obtain ⟨⟨_, _, _, rfl⟩ | ⟨_, _, _, _, rfl⟩, -⟩ := asks_of_isPlain h hdoes <;> contradiction
  · obtain ⟨⟨_, _, _, heq⟩ | ⟨_, _, _, _, heq⟩, -⟩ := asks_of_isPlain h hdoes <;> contradiction
  · rintro n t v ⟨_, _, _, hdoes, -⟩
    obtain ⟨⟨_, _, _, heq⟩ | ⟨_, _, _, _, heq⟩, -⟩ := asks_of_isPlain h hdoes <;> contradiction
  · exact fun _ _ id _ n t q hdoes => (asks_of_isPlain h hdoes).2 id

end

end Plain

section Still

variable {script : Script} {more : List (Scheduler Nat)} {order : List ThreadId}

/-- After the last turn of a run its world stays as it is. -/
theorem world_min (n : Nat) :
    (run script more order).world n = (run script more order).world (min n order.length) := by
  rcases Nat.le_total n order.length with hle | hle
  · rw [Nat.min_eq_left hle]
  · rw [Nat.min_eq_right hle, run, Run.world_ofList _ _ _ (by simpa using hle), List.length_map]

theorem slot?_eq_none {fiber : PromiseId}
    (h : ∀ n ≤ order.length, ((run script more order).world n).heap.slot? fiber = none) (n : Nat) :
    ((run script more order).world n).heap.slot? fiber = none := by
  rw [world_min]
  exact h _ (Nat.min_le_right ..)

/-- Whether a thread has a reply or a panic above so many returns. -/
def isBack (t : ThreadId) (height : Nat) (w : World (host script)) : Bool :=
  match w.threads[t]? with
  | some ⟨_, .ret _, stack⟩ => stack.length == height
  | some ⟨_, .raise _, stack⟩ => stack.length == height
  | _ => false

theorem isBack_eq_false {k height : Nat} {t : ThreadId} (hk : k < order.length)
    (h : ∀ n ≤ order.length, k < n →
      isBack t height ((run script more order).world n) = false) {n : Nat} (hn : k < n) :
    isBack t height ((run script more order).world n) = false := by
  rw [world_min]
  exact h _ (Nat.min_le_right ..) (Nat.lt_min.2 ⟨hn, hk⟩)

end Still

/-- The first thread asks for something. The third function panics, and so does the fifth one. -/
def breaking (q : Request Unit Nat) : Script
  | 0 => [.ask q]
  | 3 => [.raise (.text "bug")]
  | 5 => [.raise (.text "worse")]
  | _ => []

/-- A pool whose reports go to the fifth function. -/
def brittle : Scheduler Nat := .pool (.user ⟨5, ∅⟩)

/-- An effect that calls the third function. -/
def counted : Node Unit Nat := .thunk (.delay ⟨2, ∅⟩)

/-- The first thread forks the effect on a pool of threads, and joins it. The second
one joins it, too. -/
def sharing : Script
  | 0 => [.ask (.runBlocking .unit .unit
      (.flatMap (.forking .unit .unit 2 counted) (.flatten .unit .unit)))]
  | 1 => [.ask (.runBlocking .unit .unit (.join .unit .unit 0))]
  | _ => []

/-- The first join waits for the work, and the second one comes after it. -/
def shared : Run (host sharing) :=
  run sharing [.pool .log] (List.replicate 22 0 ++ List.replicate 26 2 ++
    List.replicate 4 0 ++ List.replicate 24 1)

theorem shared_isUntouched (x : Node Unit Nat) (s : SchedulerId) (fiber : PromiseId) :
    shared.IsUntouched .unit .unit x s fiber :=
  isUntouched_of_isPlain (by decide) ..

/-- Whether a task at a turn hands in an interpretation only if it is the given turn. -/
def submitsAt {script : Script} (k n : Nat) : Task (host script) → Bool
  | .submit _ (.interpret _ _) => n == k
  | _ => true

set_option maxRecDepth 4000 in
theorem shared_runsOnce : shared.RunsOnce 2 := by
  have hsubmits : shared.Does 5 0 (.submit 2 (.interpret _ (.fiber .unit .unit 0 2))) :=
    ⟨rfl, _, _, rfl⟩
  have hperforms : shared.Does 22 2 (.perform (.interpret _ (.fiber .unit .unit 0 2))) :=
    ⟨rfl, _, _, rfl⟩
  refine Run.runsOnce_of_submits hsubmits hperforms (fun hdoes => ?_) fun hdoes => ?_
  · simpa [submitsAt] using check_of_does (c := submitsAt 5) (by decide) hdoes
  · simpa [performsAt] using check_of_does (c := performsAt 22) (by decide) hdoes

set_option maxRecDepth 4000 in
/-- Both joins read what the one run of the effect has ended with. -/
theorem shared_memoises : ∃ m c t,
    shared.StartsOnce 3 (.thread 0 2) [.bind (.flatten .unit .unit)] .unit .unit
        counted 2 m c t 0 ∧
      shared.Memoises .unit .unit counted 2 0 ∧
        (∃ n, shared.Reads 10 (.thread 0 2) .unit .unit 0 [] n (.ok .unit)) ∧
          ∃ n, shared.Reads 54 (.thread 1 2) .unit .unit 0 [] n (.ok .unit) := by
  have hfair : shared.Fair := Run.fair_ofList (by decide)
  have hstart := start_starting sharing [.pool .log]
  obtain ⟨m, c, t, fiber, hstarts, -, hmemoises⟩ := Run.memoises hstart rfl hfair shared_runsOnce
    (show (shared.world 3).pendingAt (.thread 0 2) =
      some (.driving ⟨.node (.forking .unit .unit 2 counted),
        [.bind (.flatten .unit .unit)]⟩, .channel .unit .unit 0) from rfl)
  obtain rfl : fiber = 0 := by
    obtain ⟨_, _, -, hturns, hsize⟩ := hstarts.forks
    have hfirst := check_of_does (c := fun n => fun
      | .answer (.fork _ _ _ _) => (shared.world n).heap.promises.size == 0
      | _ => true) (by decide) hturns.does
    rw [← hsize]
    simpa using hfirst
  have hmemoises := hmemoises (shared_isUntouched _ _ _)
  have hslot : (shared.world 54).heap.slot? 0 = some (.ok .unit) := rfl
  have hreads {b : Nat} {p : Place} {frames : List (Frame Unit Nat)}
      (h : ∃ n slot, shared.Reads b p .unit .unit 0 frames n slot) :
      ∃ n, shared.Reads b p .unit .unit 0 frames n (.ok .unit) := by
    obtain ⟨n, slot, hreads⟩ := h
    exact ⟨n, Run.slot?_unique hstart hreads.slot hslot ▸ hreads⟩
  have hends : shared.Ends 0 43 2 (.slot .unit .unit (.ok .unit)) none := ⟨rfl, _, _, rfl⟩
  refine ⟨m, c, t, hstarts, hmemoises, hreads ?_, hreads ?_⟩
  · have hjoins := hmemoises.joins (show (shared.world 10).pendingAt (.thread 0 2) =
      some (.driving ⟨.node (.join .unit .unit 0), []⟩, .channel .unit .unit 0) from rfl)
    exact hjoins.comes (by decide) (.inr ⟨_, _, _, _, hends⟩)
  · have hjoins := hmemoises.joins (show (shared.world 54).pendingAt (.thread 1 2) =
      some (.driving ⟨.node (.join .unit .unit 0), []⟩, .channel .unit .unit 1) from rfl)
    exact hjoins.comes (by decide) (.inl (by rw [hslot]; simp))

/-- An effect that waits for its callback. -/
def pausing : Node Unit Nat := .async (.user .unit .unit ⟨2, ∅⟩) immediateId

/-- The first thread forks the effect on the spot and joins it for a callback that blocks forever,
and then blocks for another join. The second thread completes the effect. -/
def starving : Script
  | 0 => [.ask (.runWith .unit .unit
        (.flatMap (.forking .unit .unit immediateId pausing) (.flatten .unit .unit))
        (.user .unit .unit ⟨4, ∅⟩)),
      .ask (.runBlocking .unit .unit (.join .unit .unit 0))]
  | 1 => [.ask (.complete (.node 0) (.ok .unit))]
  | 4 => [.ask (.newPromise .unit), .ask (.await 1)]
  | _ => []

def starved : Run (host starving) := run starving [] (List.replicate 51 0 ++ List.replicate 26 1)

set_option maxRecDepth 4000 in
theorem starved_runsOnce : starved.RunsOnce immediateId := by
  have hsubmits : starved.Does 5 0
      (.submit immediateId (.interpret _ (.fiber .unit .unit 0 immediateId))) := ⟨rfl, _, _, rfl⟩
  have hperforms : starved.Does 6 0
      (.perform (.interpret _ (.fiber .unit .unit 0 immediateId))) := ⟨rfl, _, _, rfl⟩
  refine Run.runsOnce_of_submits hsubmits hperforms (fun hdoes => ?_) fun hdoes => ?_
  · simpa [submitsAt] using check_of_does (c := submitsAt 5) (by decide) hdoes
  · simpa [performsAt] using check_of_does (c := performsAt 6) (by decide) hdoes

set_option maxRecDepth 4000 in
/-- A join registers on the scheduler of the fork if that is the one that runs work on the spot; and
its caller stays blocked, though the outcome is recorded, as long as a join that has come before
keeps the thread that completes the fiber. -/
theorem starved_not_settled :
    starved.Fair ∧ starved.RunsOnce immediateId ∧
      starved.Does 5 0
        (.submit immediateId (.interpret pausing (.fiber .unit .unit 0 immediateId))) ∧
      starved.Turns 38 0 (.run (.request (.runBlocking .unit .unit (.join .unit .unit 0))))
        [.user (0, 2)] ∧
      .submit (.join .unit .unit 0) immediateId ∈ starved.history 39 (.thread 0 2) 2 ∧
      (starved.world 77).heap.slot? 0 = some (.ok .unit) ∧
        ∀ n, 38 < n → isBack 0 1 (starved.world n) = false := by
  have hhistory : starved.history 39 (.thread 0 2) 2 =
    [.push (.bind (.unslot .unit .unit)), .submit (.join .unit .unit 0) immediateId] := rfl
  refine ⟨Run.fair_ofList (by decide), starved_runsOnce, ⟨rfl, _, _, rfl⟩, ⟨rfl, _, rfl⟩, ?_, rfl,
    fun _ => isBack_eq_false (by decide) (by decide)⟩
  simp [hhistory]

end Drill

end Trampoline
