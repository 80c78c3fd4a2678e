import Trampoline.Proofs.Places

/-!
What an action of the world does to interpretations, to meeting points and to those who sleep at
them. An action moves at most one interpretation, by one step; the cases of `World.Acts` are all
that can happen.
-/

namespace Trampoline

variable {H : Host}

/-- An action of the world. -/
inductive Action where
  | thread (t : ThreadId)
  | time (n : Nat)
  | forget (keep : ThreadId → Bool)

/-- What an action does to the interpretations. -/
inductive Shift (D F : Type) where
  | stay
  | registered (r : Register F) (id : HandoffId)
  /-- The one at `p` does these deeds, and goes to `p'` or is over. -/
  | moved (p : Place) (deeds : List (Deed D F)) (p' : Option Place)

namespace World

def does (w : World H) : Action → Option (World H)
  | .thread t => w.step? t
  | .time n => some (w.passTo n)
  | .forget keep => some (w.forget keep)

theorem step_iff_does {w w' : World H} : Step w w' ↔ ∃ a, w.does a = some w' := by
  constructor
  · rintro (h | n | keep)
    · exact ⟨.thread _, h⟩
    · exact ⟨.time n, rfl⟩
    · exact ⟨.forget keep, rfl⟩
  · rintro ⟨a, h⟩
    cases a with
    | thread t => exact .thread h
    | time n =>
        obtain rfl := Option.some.inj h
        exact .time n
    | forget keep =>
        obtain rfl := Option.some.inj h
        exact .forget keep

/-- What a turn of thread `t` does to the interpretations. -/
def turnShift (w : World H) (t : ThreadId) : Thread H → Shift H.Data H.Fn
  | ⟨_, .run (.drive i _ _), stack⟩ =>
      match i.step with
      | .finish _ => .moved (.thread t stack.length) i.deeds (some (.thread t (stack.length + 1)))
      | _ => .moved (.thread t stack.length) i.deeds (some (.thread t stack.length))
  | ⟨_, .run (.park id _ _ _), stack⟩ =>
      match w.heap.handoffs[id]? with
      | some ⟨_, .early exit⟩ =>
          .moved (.thread t stack.length) [.exit exit] (some (.thread t stack.length))
      | _ => .moved (.thread t stack.length) [] (some (.handoff id))
  | ⟨_, .run (.deliver id exit _), stack⟩ =>
      .moved (.handoff id) [.exit exit] (some (.thread t stack.length))
  | ⟨_, .run (.resume _ _ _), stack⟩ =>
      .moved (.thread t stack.length) [] (some (.thread t stack.length))
  | ⟨_, .run (.conclude exit _), stack⟩ => .moved (.thread t stack.length) [.finish exit] none
  | ⟨_, .run (.register r (.node id)), _⟩ => .registered r id
  | ⟨_, .ret v, .answering post _ _ _ _ :: rest⟩ =>
      .moved (.thread t rest.length) (post.deeds (.ok v)) (some (.thread t rest.length))
  | ⟨_, .raise payload, .answering post _ _ _ _ :: rest⟩ =>
      .moved (.thread t rest.length) (post.deeds (.error payload)) (some (.thread t rest.length))
  | ⟨_, .ret _, .after (.park _ _ _ _) :: rest⟩ =>
      .moved (.thread t rest.length) [] (some (.thread t rest.length))
  | ⟨_, .raise _, .after (.park _ _ _ _) :: rest⟩ => .moved (.thread t rest.length) [] none
  | _ => .stay

def shift (w : World H) : Action → Shift H.Data H.Fn
  | .thread t =>
      match w.threads[t]? with
      | some thread => w.turnShift t thread
      | none => .stay
  | _ => .stay

theorem shift_thread {w : World H} {t : ThreadId} {thread : Thread H}
    (ht : w.threads[t]? = some thread) : w.shift (.thread t) = w.turnShift t thread := by
  simp only [shift, ht]

variable {w : World H}

/-- What an action shifts is on the thread whose turn it is, unless the thread delivers an exit or
registers a callback. -/
theorem shift_cases (w : World H) (a : Action) :
    w.shift a = .stay ∨
      (∃ t l deeds o, a = .thread t ∧ w.shift a = .moved (.thread t l) deeds o) ∨
      (∃ t name id exit origin stack, a = .thread t ∧
        w.threads[t]? = some ⟨name, .run (.deliver id exit origin), stack⟩ ∧
          w.shift a = .moved (.handoff id) [.exit exit] (some (.thread t stack.length))) ∨
      ∃ t name r id stack, a = .thread t ∧
        w.threads[t]? = some ⟨name, .run (.register r (.node id)), stack⟩ ∧
          w.shift a = .registered r id := by
  cases a with
  | thread t =>
      cases ht : w.threads[t]? with
      | none => exact .inl (by simp only [shift, ht])
      | some thread =>
          rw [shift_thread ht]
          unfold turnShift
          split
          case h_1 => split <;> exact .inr (.inl ⟨t, _, _, _, rfl, rfl⟩)
          case h_2 => split <;> exact .inr (.inl ⟨t, _, _, _, rfl, rfl⟩)
          case h_3 => exact .inr (.inr (.inl ⟨t, _, _, _, _, _, rfl, ht, rfl⟩))
          case h_6 => exact .inr (.inr (.inr ⟨t, _, _, _, _, rfl, ht, rfl⟩))
          case h_11 => exact .inl rfl
          all_goals exact .inr (.inl ⟨t, _, _, _, rfl, rfl⟩)
  | time n => exact .inl rfl
  | forget keep => exact .inl rfl

theorem action_of_shift {a : Action} {t : ThreadId} {l : Nat} {deeds : List (Deed H.Data H.Fn)}
    {o : Option Place} (h : w.shift a = .moved (.thread t l) deeds o) : a = .thread t := by
  rcases w.shift_cases a with hshift | ⟨t', _, _, _, ha, hshift⟩ |
    ⟨_, _, _, _, _, _, -, -, hshift⟩ | ⟨_, _, _, _, _, -, -, hshift⟩
  all_goals cases hshift.symm.trans h
  exact ha

theorem deliver_of_shift {a : Action} {id : HandoffId} {deeds : List (Deed H.Data H.Fn)}
    {o : Option Place} (h : w.shift a = .moved (.handoff id) deeds o) :
    ∃ t name exit origin stack, a = .thread t ∧
      w.threads[t]? = some ⟨name, .run (.deliver id exit origin), stack⟩ ∧
        deeds = [.exit exit] ∧ o = some (.thread t stack.length) := by
  rcases w.shift_cases a with hshift | ⟨_, _, _, _, -, hshift⟩ |
    ⟨t, _, _, _, _, _, ha, ht, hshift⟩ | ⟨_, _, _, _, _, -, -, hshift⟩
  all_goals cases hshift.symm.trans h
  exact ⟨t, _, _, _, _, ha, ht, rfl, rfl⟩

theorem register_of_shift {a : Action} {r : Register H.Fn} {id : HandoffId}
    (h : w.shift a = .registered r id) : ∃ t name stack, a = .thread t ∧
      w.threads[t]? = some ⟨name, .run (.register r (.node id)), stack⟩ := by
  rcases w.shift_cases a with hshift | ⟨_, _, _, _, -, hshift⟩ |
    ⟨_, _, _, _, _, _, -, -, hshift⟩ | ⟨t, _, _, _, _, ha, ht, hshift⟩
  all_goals cases hshift.symm.trans h
  exact ⟨t, _, _, ha, ht⟩

theorem parked_of_pendingAt {id : HandoffId} {stage : Stage H.Data H.Fn} {finish : Finish H.Fn}
    (h : w.pendingAt (.handoff id) = some (stage, finish)) :
    ∃ s frames, stage = .parked id frames ∧
      w.heap.handoffs[id]? = some ⟨s, .parked frames finish⟩ := by
  obtain ⟨⟨s, phase⟩, hhandoff, hpending⟩ := Option.bind_eq_some_iff.1 h
  cases phase with
  | parked frames finish' =>
      obtain ⟨rfl, rfl⟩ := Prod.mk.inj (Option.some.inj hpending)
      exact ⟨s, frames, rfl, hhandoff⟩
  | _ => contradiction

/-- What is on a thread is what the thread goes on with, or waits for a reply or a submission. -/
theorem waits_of_pendingAt {t : ThreadId} {l : Nat} {stage : Stage H.Data H.Fn}
    {finish : Finish H.Fn} (h : w.pendingAt (.thread t l) = some (stage, finish)) :
    (∃ name task stack, w.threads[t]? = some ⟨name, .run task, stack⟩ ∧ stack.length = l ∧
        task.pending? = some (stage, finish)) ∨
      (∃ post frames, stage = .asking post frames) ∨
        ∃ id frames, stage = .submitting id frames := by
  obtain ⟨name, control, stack, ht, ⟨hl, hcontrol⟩ | ⟨-, back, -, -, -, hback⟩⟩ :=
    thread_of_pendingAt h
  · cases control with
    | run task => exact .inl ⟨name, task, stack, ht, hl, hcontrol⟩
    | _ => contradiction
  · cases back with
    | answering post frames last applied finish' =>
        obtain ⟨rfl, -⟩ := Prod.mk.inj (Option.some.inj hback)
        exact .inr (.inl ⟨post, frames, rfl⟩)
    | after task =>
        cases task with
        | park id frames last finish' =>
            obtain ⟨rfl, -⟩ := Prod.mk.inj (Option.some.inj hback)
            exact .inr (.inr ⟨id, frames, rfl⟩)
        | _ => contradiction
    | _ => contradiction

theorem isActive_of_pending {task : Task H} {stage : Stage H.Data H.Fn} {finish : Finish H.Fn}
    (h : task.pending? = some (stage, finish)) : stage.IsActive := by
  cases task with
  | drive i last finish' =>
      obtain ⟨rfl, -⟩ := Prod.mk.inj (Option.some.inj h)
      trivial
  | park id frames last finish' =>
      obtain ⟨rfl, -⟩ := Prod.mk.inj (Option.some.inj h)
      trivial
  | resume exit frames finish' =>
      obtain ⟨rfl, -⟩ := Prod.mk.inj (Option.some.inj h)
      trivial
  | conclude exit finish' =>
      obtain ⟨rfl, -⟩ := Prod.mk.inj (Option.some.inj h)
      trivial
  | _ => contradiction

/-- A parked interpretation is at its node. -/
theorem handoff_of_pendingAt {p : Place} {id : HandoffId} {frames : List (Frame H.Data H.Fn)}
    {finish : Finish H.Fn} (hp : w.pendingAt p = some (.parked id frames, finish)) :
    p = .handoff id ∧ ∃ s, w.heap.handoffs[id]? = some ⟨s, .parked frames finish⟩ := by
  cases p with
  | thread t l =>
      rcases waits_of_pendingAt hp with
        ⟨name, task, stack, ht, -, htask⟩ | ⟨post, frames', hstage⟩ | ⟨id', frames', hstage⟩
      · exact (isActive_of_pending htask).elim
      · contradiction
      · contradiction
  | handoff id' =>
      obtain ⟨s, frames', hstage, hhandoff⟩ := parked_of_pendingAt hp
      obtain ⟨rfl, rfl⟩ := Stage.parked.inj hstage
      exact ⟨rfl, s, hhandoff⟩

/-- An interpretation that a thread goes on with as soon as it takes its turn. -/
theorem active_of_pendingAt {p : Place} {stage : Stage H.Data H.Fn} {finish : Finish H.Fn}
    (hp : w.pendingAt p = some (stage, finish)) (hstage : stage.IsActive) :
    ∃ t name task stack, p = .thread t stack.length ∧
      w.threads[t]? = some ⟨name, .run task, stack⟩ ∧ task.pending? = some (stage, finish) := by
  cases p with
  | handoff id =>
      obtain ⟨s, frames, rfl, -⟩ := parked_of_pendingAt hp
      exact hstage.elim
  | thread t l =>
      rcases waits_of_pendingAt hp with
        ⟨name, task, stack, ht, rfl, htask⟩ | ⟨post, frames, rfl⟩ | ⟨id, frames, rfl⟩
      · exact ⟨t, name, task, stack, rfl, ht, htask⟩
      · exact hstage.elim
      · exact hstage.elim

theorem driving_of_pendingAt {q : Place} {i : Interpretation H.Data H.Fn} {finish : Finish H.Fn}
    (hq : w.pendingAt q = some (.driving i, finish)) :
    ∃ t name last stack, q = .thread t stack.length ∧
      w.threads[t]? = some ⟨name, .run (.drive i last finish), stack⟩ := by
  obtain ⟨t, name, task, stack, hplace, ht, htask⟩ := active_of_pendingAt hq trivial
  cases task with
  | drive j last finish' =>
      obtain ⟨hdriving, rfl⟩ := Prod.mk.inj (Option.some.inj htask)
      obtain rfl := Stage.driving.inj hdriving
      exact ⟨t, name, last, stack, hplace, ht⟩
  | _ => simp [Task.pending?] at htask

theorem shift_of_pending {t : ThreadId} {name : Option String} {task : Task H}
    {stack : List (Return H)} {x : Pending H.Data H.Fn}
    (ht : w.threads[t]? = some ⟨name, .run task, stack⟩) (htask : task.pending? = some x) :
    ∃ deeds o, w.shift (.thread t) = .moved (.thread t stack.length) deeds o := by
  rw [shift_thread ht]
  cases task with
  | drive i last finish =>
      simp only [turnShift]
      split
      · exact ⟨_, _, rfl⟩
      · exact ⟨_, _, rfl⟩
  | park id frames last finish =>
      simp only [turnShift]
      split
      · exact ⟨_, _, rfl⟩
      · exact ⟨_, _, rfl⟩
  | resume exit frames finish => exact ⟨_, _, rfl⟩
  | conclude exit finish => exact ⟨_, _, rfl⟩
  | _ => contradiction

/-- Where the interpretation at `p` is after an action, unless it is over. -/
def next? (w : World H) (a : Action) (p : Place) : Option Place :=
  match w.shift a with
  | .moved q _ q' => if p = q then q' else some p
  | _ => some p

theorem next?_of_other {a : Action} {q : Place}
    (hother : ∀ deeds o, w.shift a ≠ .moved q deeds o) : w.next? a q = some q := by
  simp only [next?]
  split
  · rename_i q' deeds o hshift
    refine if_neg ?_
    rintro rfl
    exact hother deeds o hshift
  · rfl

/-- An interpretation that is nowhere after an action is ended by it. -/
theorem shift_of_next?_eq_none {a : Action} {q : Place} (h : w.next? a q = none) :
    ∃ deeds, w.shift a = .moved q deeds none := by
  simp only [next?] at h
  split at h
  · rename_i q' deeds o hshift
    split at h
    · rename_i heq
      subst heq
      exact ⟨deeds, h ▸ hshift⟩
    · contradiction
  · contradiction

/-- What the interpretation at `p` does in an action, or is done for it. -/
def deeds (w : World H) (a : Action) (p : Place) : List (Deed H.Data H.Fn) :=
  match w.shift a with
  | .moved q deeds _ => if p = q then deeds else []
  | .registered r id =>
      if ((w.pendingAt p).bind fun x => x.1.node?) = some id then [.call (.register r)] else []
  | .stay => []

end World

def Shift.IsIdle {D F : Type} : Shift D F → Prop
  | .moved _ _ _ => False
  | _ => True

def Phase.HasExit {D F : Type} : Phase D F → Prop
  | .early _ => True
  | .resumed => True
  | _ => False

namespace World

def SameSleepers (w w' : World H) : Prop := ∀ t id, w'.SleepsAt t id ↔ w.SleepsAt t id

structure Calm (w w' : World H) : Prop where
  handoffs : w'.heap.handoffs = w.heap.handoffs
  sleepers : w.SameSleepers w'

/-- The interpretation at `p` gives way to this one at `p'`; the others stay where they are. -/
def Puts (w w' : World H) (p p' : Place) (x : Pending H.Data H.Fn) : Prop :=
  ∀ q, w'.pendingAt q = if q = p' then some x else if q = p then none else w.pendingAt q

/-- All that an action can do. -/
inductive Acts (w w' : World H) : Shift H.Data H.Fn → Prop where
  | keep {shift : Shift H.Data H.Fn} :
      shift.IsIdle → w.Calm w' → (∀ q, w'.pendingAt q = w.pendingAt q) → Acts w w' shift
  | start {p : Place} {node : Node H.Data H.Fn} {finish : Finish H.Fn} :
      w.Calm w' → w.pendingAt p = none → w.Puts w' p p (.driving (.start node), finish) →
        Acts w w' .stay
  /-- An interpretation goes on by itself, or gets the reply to a question. -/
  | goOn {t : ThreadId} {l l' : Nat} {stage stage' : Stage H.Data H.Fn} {finish : Finish H.Fn}
      {deeds : List (Deed H.Data H.Fn)} :
      w.Calm w' → w.pendingAt (.thread t l) = some (stage, finish) →
        stage.Step deeds (some stage') → stage'.node? = stage.node? →
          stage'.parks? = stage.parks? → (l' = l ∨ w.pendingAt (.thread t l') = none) →
            w.Puts w' (.thread t l) (.thread t l') (stage', finish) →
              Acts w w' (.moved (.thread t l) deeds (some (.thread t l')))
  | ends {t : ThreadId} {l : Nat} {stage : Stage H.Data H.Fn} {finish : Finish H.Fn}
      {deeds : List (Deed H.Data H.Fn)} :
      w.Calm w' → w.pendingAt (.thread t l) = some (stage, finish) → stage.Step deeds none →
        (∀ q, w'.pendingAt q = if q = .thread t l then none else w.pendingAt q) →
          Acts w w' (.moved (.thread t l) deeds none)
  | suspend {t : ThreadId} {l : Nat} {i : Interpretation H.Data H.Fn} {r : Register H.Fn}
      {scheduler : SchedulerId} {frames : List (Frame H.Data H.Fn)} {finish : Finish H.Fn}
      {deeds : List (Deed H.Data H.Fn)} :
      i.step = .suspend r scheduler frames → i.deeds = deeds →
        w.pendingAt (.thread t l) = some (.driving i, finish) →
          w'.heap.handoffs = w.heap.handoffs.push (.fresh t) → w.SameSleepers w' →
            w.Puts w' (.thread t l) (.thread t l)
                (.submitting w.heap.handoffs.size frames, finish) →
              Acts w w' (.moved (.thread t l) deeds (some (.thread t l)))
  /-- The submitter has the exit of its node before it leaves. -/
  | early {t : ThreadId} {l : Nat} {id : HandoffId} {exit : Exit (Outcome H.Data H.Fn)} :
      w.heap.handoffs[id]? = some ⟨t, .submitting⟩ →
        w'.heap.handoffs = w.heap.handoffs.setIfInBounds id ⟨t, .early exit⟩ →
          w.SameSleepers w' → (∀ q, w'.pendingAt q = w.pendingAt q) →
            Acts w w' (.moved (.handoff id) [.exit exit] (some (.thread t l)))
  /-- Another thread has an exit for the node before its submitter leaves. -/
  | wait {t s : ThreadId} {l : Nat} {id : HandoffId} {exit : Exit (Outcome H.Data H.Fn)} :
      w.heap.handoffs[id]? = some ⟨s, .submitting⟩ → t ≠ s →
        w'.heap.handoffs = w.heap.handoffs →
          (∀ t' id', w'.SleepsAt t' id' ↔ w.SleepsAt t' id' ∨ t' = t ∧ id' = id) →
            (∀ q, w'.pendingAt q = w.pendingAt q) →
              Acts w w' (.moved (.handoff id) [.exit exit] (some (.thread t l)))
  | refuse {t : ThreadId} {l : Nat} {id : HandoffId} {exit : Exit (Outcome H.Data H.Fn)} :
      (∀ handoff, w.heap.handoffs[id]? = some handoff → handoff.phase.HasExit) → w.Calm w' →
        (∀ q, w'.pendingAt q = w.pendingAt q) →
          Acts w w' (.moved (.handoff id) [.exit exit] (some (.thread t l)))
  | accept {t s : ThreadId} {l : Nat} {id : HandoffId} {exit : Exit (Outcome H.Data H.Fn)}
      {frames : List (Frame H.Data H.Fn)} {finish : Finish H.Fn} :
      w.heap.handoffs[id]? = some ⟨s, .parked frames finish⟩ →
        w'.heap.handoffs = w.heap.handoffs.setIfInBounds id ⟨s, .resumed⟩ → w.SameSleepers w' →
          w.pendingAt (.thread t l) = none →
            w.Puts w' (.handoff id) (.thread t l) (.resuming exit frames, finish) →
              Acts w w' (.moved (.handoff id) [.exit exit] (some (.thread t l)))
  | inline {t s : ThreadId} {l : Nat} {id : HandoffId} {exit : Exit (Outcome H.Data H.Fn)}
      {frames : List (Frame H.Data H.Fn)} {finish : Finish H.Fn} :
      w.pendingAt (.thread t l) = some (.leaving id frames, finish) →
        w.heap.handoffs[id]? = some ⟨s, .early exit⟩ →
          w'.heap.handoffs = w.heap.handoffs.setIfInBounds id ⟨s, .resumed⟩ →
            w.SameSleepers w' →
              w.Puts w' (.thread t l) (.thread t l) (.driving (.settle exit frames), finish) →
                Acts w w' (.moved (.thread t l) [.exit exit] (some (.thread t l)))
  | park {t s : ThreadId} {l : Nat} {id : HandoffId} {frames : List (Frame H.Data H.Fn)}
      {finish : Finish H.Fn} :
      w.pendingAt (.thread t l) = some (.leaving id frames, finish) →
        w.heap.handoffs[id]? = some ⟨s, .submitting⟩ →
          w'.heap.handoffs = w.heap.handoffs.setIfInBounds id ⟨s, .parked frames finish⟩ →
            (∀ t' id', w'.SleepsAt t' id' ↔ w.SleepsAt t' id' ∧ id' ≠ id) →
              w.Puts w' (.thread t l) (.handoff id) (.parked id frames, finish) →
                Acts w w' (.moved (.thread t l) [] (some (.handoff id)))

/-- Whether the interpretation at a place waits for the submission of a node's registration. -/
def Parks (w : World H) (p : Place) (id : HandoffId) : Prop :=
  ∃ stage finish, w.pendingAt p = some (stage, finish) ∧ stage.parks? = some id

/-- Threads are in order. An interpretation that waits for the submission of a registration is on
the thread that submits it, and no other one waits for it. -/
structure Sound (w : World H) : Prop extends w.Ordered where
  parking : ∀ p id, w.Parks p id → ∃ t l handoff, p = .thread t l ∧
    w.heap.handoffs[id]? = some handoff ∧ handoff.submitter = t ∧
      (handoff.phase = .submitting ∨ ∃ exit, handoff.phase = .early exit)
  unique : ∀ p q id, w.Parks p id → w.Parks q id → p = q

end World

end Trampoline
