import Trampoline.Proofs.Handovers

/-!
Progress of interpretations. If every thread that can go on does so at some time, functions come
back, and every async node gets an exit, an interpretation never gets stuck.
-/

namespace Trampoline

variable {H : Host}

namespace World

variable {w w' : World H}

/-- Thread `t` is about to go back, with a reply, to what waits at a level of its stack. -/
def Replies (w : World H) (t : ThreadId) (l : Nat) : Prop :=
  ∃ name v back rest, w.threads[t]? = some ⟨name, .ret v, back :: rest⟩ ∧ rest.length = l

/-- Thread `t` is about to go back, with a panic, to what waits at a level of its stack. -/
def Panics (w : World H) (t : ThreadId) (l : Nat) : Prop :=
  ∃ name payload back rest, w.threads[t]? = some ⟨name, .raise payload, back :: rest⟩ ∧
    rest.length = l

instance (w : World H) (t : ThreadId) (l : Nat) : Decidable (w.Panics t l) :=
  match ht : w.threads[t]? with
  | some ⟨_, .raise _, _ :: rest⟩ =>
      decidable_of_iff (rest.length = l) (by simp [Panics, ht, and_assoc])
  | some ⟨_, .raise _, []⟩ => .isFalse (by simp [Panics, ht])
  | some ⟨_, .run _, _⟩ => .isFalse (by simp [Panics, ht])
  | some ⟨_, .ret _, _⟩ => .isFalse (by simp [Panics, ht])
  | some ⟨_, .asleep _ _ _, _⟩ => .isFalse (by simp [Panics, ht])
  | none => .isFalse (by simp [Panics, ht])

instance (w : World H) (t : ThreadId) (l : Nat) : Decidable (w.Replies t l) :=
  match ht : w.threads[t]? with
  | some ⟨_, .ret _, _ :: rest⟩ =>
      decidable_of_iff (rest.length = l) (by simp [Replies, ht, and_assoc])
  | some ⟨_, .ret _, []⟩ => .isFalse (by simp [Replies, ht])
  | some ⟨_, .run _, _⟩ => .isFalse (by simp [Replies, ht])
  | some ⟨_, .raise _, _⟩ => .isFalse (by simp [Replies, ht])
  | some ⟨_, .asleep _ _ _, _⟩ => .isFalse (by simp [Replies, ht])
  | none => .isFalse (by simp [Replies, ht])

/-- What an action of another thread leaves of a thread that does not sleep at a gate and has not
ended. -/
theorem Ordered.thread_of_other {a : Action} {t : ThreadId} {thread : Thread H} (hw : w.Ordered)
    (h : w.does a = some w') (ha : a ≠ .thread t) (ht : w.threads[t]? = some thread)
    (hheard : ∀ notified, thread.heard notified = thread) (hended : thread.ended = false) :
    w'.threads[t]? = some thread := by
  cases a with
  | time n =>
      obtain rfl := Option.some.inj h
      exact ht
  | forget keep =>
      obtain rfl := Option.some.inj h
      simp [threads_forget, ht, Option.filter, hended]
  | thread t' =>
      have hne : t ≠ t' := fun heq => ha (congrArg _ heq.symm)
      rcases step_cases h with
        ⟨name, wait, woken, missed, stack, arrived, ht', rfl⟩ | ⟨other, ht', hother, hallows, rfl⟩
      · rw [threads_rouse arrived ht', if_neg hne, ht]
      · obtain ⟨state, rest, turn, happly⟩ := act_eq_apply (t := t') hallows hother
        rw [happly, hw.threads_apply ht', if_neg hne, if_neg (Nat.ne_of_lt (hw.lt ht)), ht,
          Option.map_some, hheard]

theorem back_of_pendingAt {t : ThreadId} {l : Nat} {x : Pending H.Data H.Fn}
    {name : Option String} {control : Control H} {back : Return H} {rest : List (Return H)}
    (hx : w.pendingAt (.thread t l) = some x)
    (ht : w.threads[t]? = some ⟨name, control, back :: rest⟩) (hrest : rest.length = l)
    (hcontrol : control.pending? = none) : back.pending? = some x := by
  simp only [pendingAt, ht, Option.bind_some] at hx
  rw [Thread.pendingAt_of_control hcontrol, Return.pendingAt, if_pos hrest.symm] at hx
  exact hx

theorem shift_of_back {t : ThreadId} {name : Option String} {control : Control H}
    {back : Return H} {rest : List (Return H)} {x : Pending H.Data H.Fn}
    (ht : w.threads[t]? = some ⟨name, control, back :: rest⟩) (hback : back.pending? = some x)
    (hcontrol : (∃ v, control = .ret v) ∨ ∃ payload, control = .raise payload) :
    ∃ deeds o, w.shift (.thread t) = .moved (.thread t rest.length) deeds o := by
  rw [shift_thread ht]
  cases back with
  | answering post frames last applied finish =>
      rcases hcontrol with ⟨v, rfl⟩ | ⟨payload, rfl⟩
      · exact ⟨_, _, rfl⟩
      · exact ⟨_, _, rfl⟩
  | after task =>
      cases task with
      | park id frames last finish =>
          rcases hcontrol with ⟨v, rfl⟩ | ⟨payload, rfl⟩
          · exact ⟨_, _, rfl⟩
          · exact ⟨_, _, rfl⟩
      | _ => contradiction
  | _ => contradiction

/-- An interpretation on a thread is over when its finisher is called, or when a panic comes back
to it. -/
theorem panics_of_shift {a : Action} {t : ThreadId} {l : Nat} {deeds : List (Deed H.Data H.Fn)}
    (h : w.shift a = .moved (.thread t l) deeds none) :
    w.Panics t l ∨ ∃ exit finish, w.pendingAt (.thread t l) = some (.concluding exit, finish) := by
  obtain rfl := action_of_shift h
  simp only [shift] at h
  split at h
  · rename_i thread ht
    unfold turnShift at h
    split at h
    case h_1 => split at h <;> cases h
    case h_2 => split at h <;> cases h
    case h_5 =>
      cases h
      exact .inr ⟨_, _, pendingAt_run ht⟩
    case h_10 =>
      cases h
      exact .inl ⟨_, _, _, _, ht, rfl⟩
    all_goals cases h
  · contradiction

end World

namespace Run

variable (r : Run H)

/-- A thread that can go on does so at some time, unless it becomes unable to. -/
def Fair : Prop :=
  ∀ n t, ((r.world n).step? t).isSome →
    ∃ m, n ≤ m ∧ (r.action m = .thread t ∨ (r.world m).step? t = none)

/-- The interpretation that is at `p` at time `b` gets a reply or a panic, `n` actions later or
afterwards, at the place where it is then. -/
def ComesBack (b : Nat) (p : Place) (n : Nat) : Prop :=
  ∀ t l, r.place b p n = some (.thread t l) →
    ∃ m, n ≤ m ∧ ((r.world (b + m)).Replies t l ∨ (r.world (b + m)).Panics t l)

/-- The functions that are called for the interpretation that is at `p` at time `b` come back, with
a reply or a panic, and so does every `submit`, with a reply. -/
structure FunctionsReturn (b : Nat) (p : Place) : Prop where
  asked : ∀ n t l post frames, r.place b p n = some (.thread t l) →
    r.stage b p n = some (.asking post frames) →
      ∃ m, n ≤ m ∧ ((r.world (b + m)).Replies t l ∨ (r.world (b + m)).Panics t l)
  submitted : ∀ n t l id frames, r.place b p n = some (.thread t l) →
    r.stage b p n = some (.submitting id frames) →
      ¬(r.world (b + n)).Panics t l ∧
        ∃ m, n ≤ m ∧ ((r.world (b + m)).Replies t l ∨ (r.world (b + m)).Panics t l)

/-- Every async node that the interpretation at `p` at time `b` reaches gets an exit. -/
def Completed (b : Nat) (p : Place) : Prop :=
  ∀ n s id, r.stage b p n = some s → s.node? = some id → ∃ m t exit, r.Accepts m t id exit

/-- What the interpretation that is at `p` at time `b` waits for `n` actions later, at a stage,
comes: a reply, the end of a submission, or the exit of a node. -/
def GoesOn (b : Nat) (p : Place) (n : Nat) : Stage H.Data H.Fn → Prop
  | .asking _ _ => r.ComesBack b p n
  | .submitting _ _ => r.ComesBack b p n
  | .parked id _ => ∃ m t exit, r.Accepts m t id exit
  | _ => True

/-- The interpretation at `p` at time `b` reaches no node after some time. -/
def ReachesFinitelyMany (b : Nat) (p : Place) : Prop :=
  ∃ last, ∀ n s, last ≤ n → r.stage b p n = some s → s.AtNode →
    ¬s.Step (r.deeds b p n) (r.stage b p (n + 1))

/-- A run after whose last action no thread can go on is fair. -/
theorem fair_ofList {w : World H} {hw : w.Initial} {actions : List Action}
    (hstill : ∀ t, t < ((ofList w hw actions).world actions.length).next →
      ((ofList w hw actions).world actions.length).step? t = none) :
    (ofList w hw actions).Fair := by
  intro n t _
  refine ⟨max n actions.length, Nat.le_max_left _ _, .inr ?_⟩
  rw [world_ofList w hw actions (Nat.le_max_right _ _)]
  by_cases ht : t < ((ofList w hw actions).world actions.length).next
  · exact hstill t ht
  · have hnone := ((ofList w hw actions).ordered actions.length).numbered t (Nat.le_of_not_lt ht)
    simp [World.step?, hnone]

variable {r}

/-- A thread that no gate wakes and that can go on as long as it is as it is takes an action. -/
theorem Fair.exists_action (hfair : r.Fair) {n : Nat} {t : ThreadId} {thread : Thread H}
    (ht : (r.world n).threads[t]? = some thread)
    (hheard : ∀ notified, thread.heard notified = thread) (hended : thread.ended = false)
    (henabled : ∀ m, n ≤ m → (r.world m).threads[t]? = some thread →
      ((r.world m).step? t).isSome) :
    ∃ m, n ≤ m ∧ r.action m = .thread t ∧ (r.world m).threads[t]? = some thread := by
  -- Until the thread acts nothing changes about it, so it stays able to.
  have hkeep (k : Nat) :
      (∃ m, n ≤ m ∧ r.action m = .thread t ∧ (r.world m).threads[t]? = some thread) ∨
        (r.world (n + k)).threads[t]? = some thread := by
    induction k with
    | zero => exact .inr ht
    | succ k ih =>
        rcases ih with hacts | hk
        · exact .inl hacts
        · by_cases ha : r.action (n + k) = .thread t
          · exact .inl ⟨n + k, Nat.le_add_right n k, ha, hk⟩
          · exact .inr ((r.ordered (n + k)).thread_of_other (r.step (n + k)) ha hk hheard hended)
  obtain ⟨m, hm, hturn⟩ := hfair n t (henabled n (Nat.le_refl n) ht)
  obtain ⟨k, rfl⟩ := Nat.exists_eq_add_of_le hm
  rcases hkeep k with hearlier | hk
  · exact hearlier
  · rcases hturn with ha | hnone
    · exact ⟨n + k, hm, ha, hk⟩
    · have hsome := henabled (n + k) hm hk
      rw [hnone] at hsome
      contradiction

/-- A thread that is about to go back to a return takes its turn at some time, and is then where it
was. -/
theorem Fair.exists_turn (hfair : r.Fair) {n : Nat} {t : ThreadId} {name : Option String}
    {control : Control H} {back : Return H} {rest : List (Return H)}
    (ht : (r.world n).threads[t]? = some ⟨name, control, back :: rest⟩)
    (hcontrol : (∃ v, control = .ret v) ∨ ∃ payload, control = .raise payload) :
    ∃ m, n ≤ m ∧ r.action m = .thread t ∧
      (r.world m).threads[t]? = some ⟨name, control, back :: rest⟩ := by
  refine hfair.exists_action ht (fun notified => ?_) ?_ fun m _ h => ?_
  · rcases hcontrol with ⟨v, rfl⟩ | ⟨payload, rfl⟩
    · cases notified <;> rfl
    · cases notified <;> rfl
  · rcases hcontrol with ⟨v, rfl⟩ | ⟨payload, rfl⟩
    · rfl
    · rfl
  · rcases hcontrol with ⟨v, rfl⟩ | ⟨payload, rfl⟩
    · simp [World.step?, h, World.allows]
    · simp [World.step?, h, World.allows]

section Live

variable {b : Nat} {p : Place} {x : Pending H.Data H.Fn}

/-- In one action an interpretation stays as it is, and then nothing moves it, or takes a step. -/
theorem stays_or_step (hp : (r.world b).pendingAt p = some x) {n : Nat} {q : Place}
    {s : Stage H.Data H.Fn} (hq : r.place b p n = some q)
    (hat : (r.world (b + n)).pendingAt q = some (s, x.2)) :
    (r.place b p (n + 1) = some q ∧ (r.world (b + n + 1)).pendingAt q = some (s, x.2) ∧
        ∀ deeds o, (r.world (b + n)).shift (r.action (b + n)) ≠ .moved q deeds o) ∨
      s.Step (r.deeds b p n) (r.stage b p (n + 1)) := by
  have hdeeds : r.deeds b p n = (r.world (b + n)).deeds (r.action (b + n)) q := by
    simp [deeds, hq]
  have hplace : r.place b p (n + 1) = (r.world (b + n)).next? (r.action (b + n)) q := by
    simp [place, hq]
  cases (r.sound (b + n)).follows (r.step (b + n)) hat with
  | stays hother hnext hsame hnothing => exact .inl ⟨hplace.trans hnext, hsame, hother⟩
  | @moves q' s' hnext hat' hstep =>
      rw [hdeeds, (r.stage_eq_some hp).2 ⟨q', hplace.trans hnext, hat'⟩]
      exact .inr hstep
  | ends hnext hstep =>
      have hnone : r.stage b p (n + 1) = none := by simp [stage, hplace, hnext]
      rw [hdeeds, hnone]
      exact .inr hstep

/-- An interpretation that is about to go on stays so, or goes on. -/
theorem next_of_step {n : Nat} {q : Place} {i j : Interpretation H.Data H.Fn}
    {finish : Finish H.Fn} (hat : (r.world n).pendingAt q = some (.driving i, finish))
    (hstep : i.step = .next j) :
    ∃ q', (r.world n).next? (r.action n) q = some q' ∧
      ((r.world (n + 1)).pendingAt q' = some (.driving j, finish) ∨
        q' = q ∧ (r.world (n + 1)).pendingAt q' = some (.driving i, finish) ∧
          ∀ deeds o, (r.world n).shift (r.action n) ≠ .moved q deeds o) := by
  cases (r.sound n).follows (r.step n) hat with
  | stays hother hnext hsame => exact ⟨q, hnext, .inr ⟨rfl, hsame, hother⟩⟩
  | @moves q' s' hnext hat' hmoves =>
      generalize (r.world n).deeds (r.action n) q = deeds at hmoves
      cases hmoves with
      | next hstep' =>
          obtain rfl := Progress.next.inj (hstep'.symm.trans hstep)
          exact ⟨q', hnext, .inl hat'⟩
      | ask hstep' => simp [hstep'] at hstep
      | suspend hstep' => simp [hstep'] at hstep
      | finish hstep' => simp [hstep'] at hstep
  | ends hnext hmoves =>
      generalize (r.world n).deeds (r.action n) q = deeds at hmoves
      cases hmoves

/-- An interpretation that never takes a step again stays where it is, and nothing moves it. -/
theorem stays_of_stuck (hp : (r.world b).pendingAt p = some x) {n : Nat} {q : Place}
    {s : Stage H.Data H.Fn} (hq : r.place b p n = some q)
    (hat : (r.world (b + n)).pendingAt q = some (s, x.2))
    (hstuck : ∀ m, n ≤ m → r.stage b p m = some s →
      ¬s.Step (r.deeds b p m) (r.stage b p (m + 1))) {m : Nat} (hm : n ≤ m) :
    r.place b p m = some q ∧ (r.world (b + m)).pendingAt q = some (s, x.2) ∧
      ∀ deeds o, (r.world (b + m)).shift (r.action (b + m)) ≠ .moved q deeds o := by
  have hhere : r.place b p m = some q ∧ (r.world (b + m)).pendingAt q = some (s, x.2) := by
    induction hm with
    | refl => exact ⟨hq, hat⟩
    | @step m hm ih =>
        rcases stays_or_step hp ih.1 ih.2 with ⟨hnext, hsame, -⟩ | hstep
        · exact ⟨hnext, hsame⟩
        · exact absurd hstep (hstuck m hm ((r.stage_eq_some hp).2 ⟨q, ih⟩))
  refine ⟨hhere.1, hhere.2, ?_⟩
  rcases stays_or_step hp hhere.1 hhere.2 with ⟨-, -, hother⟩ | hstep
  · exact hother
  · exact absurd hstep (hstuck m hm ((r.stage_eq_some hp).2 ⟨q, hhere⟩))

theorem Fair.exists_shift_of_back (hfair : r.Fair) {n : Nat} {t : ThreadId} {l : Nat}
    (hat : (r.world n).pendingAt (.thread t l) = some x)
    (hback : (r.world n).Replies t l ∨ (r.world n).Panics t l) :
    ∃ m deeds o, n ≤ m ∧ (r.world m).shift (r.action m) = .moved (.thread t l) deeds o := by
  have hthread : ∃ name control back rest,
      (r.world n).threads[t]? = some ⟨name, control, back :: rest⟩ ∧ rest.length = l ∧
        ((∃ v, control = .ret v) ∨ ∃ payload, control = .raise payload) := by
    rcases hback with ⟨name, v, back, rest, ht, hl⟩ | ⟨name, payload, back, rest, ht, hl⟩
    · exact ⟨name, _, back, rest, ht, hl, .inl ⟨v, rfl⟩⟩
    · exact ⟨name, _, back, rest, ht, hl, .inr ⟨payload, rfl⟩⟩
  obtain ⟨name, control, back, rest, ht, rfl, hcontrol⟩ := hthread
  have hpending : control.pending? = none := by
    rcases hcontrol with ⟨v, rfl⟩ | ⟨payload, rfl⟩
    · rfl
    · rfl
  obtain ⟨m, hm, haction, ht'⟩ := hfair.exists_turn ht hcontrol
  obtain ⟨deeds, o, hshift⟩ := World.shift_of_back ht'
    (World.back_of_pendingAt hat ht rfl hpending) hcontrol
  exact ⟨m, deeds, o, hm, haction ▸ hshift⟩

/-- An interpretation that is to go on by itself is moved at some time. -/
theorem Fair.exists_shift_of_active (hfair : r.Fair) {n : Nat} {q : Place}
    {s : Stage H.Data H.Fn} {finish : Finish H.Fn} (hactive : s.IsActive)
    (hthere : ∀ m, n ≤ m → (r.world m).pendingAt q = some (s, finish)) :
    ∃ m deeds o, n ≤ m ∧ (r.world m).shift (r.action m) = .moved q deeds o := by
  obtain ⟨t, name, task, stack, rfl, ht, -⟩ :=
    World.active_of_pendingAt (hthere n (Nat.le_refl n)) hactive
  obtain ⟨m, hm, hturn⟩ := hfair n t (by rw [World.step_run ht]; rfl)
  obtain ⟨t', name', task', stack', hplace, ht', htask'⟩ :=
    World.active_of_pendingAt (hthere m hm) hactive
  obtain ⟨rfl, hlength⟩ := Place.thread.inj hplace
  rcases hturn with haction | hnone
  · obtain ⟨deeds, o, hshift⟩ := World.shift_of_pending ht' htask'
    rw [hlength]
    exact ⟨m, deeds, o, hm, haction ▸ hshift⟩
  · rw [World.step_run ht'] at hnone
    contradiction

/-- A parked interpretation is moved when its node gets an exit. -/
theorem Accepts.exists_shift {m : Nat} {t : ThreadId} {id : HandoffId}
    {exit : Exit (Outcome H.Data H.Fn)} (h : r.Accepts m t id exit) {n : Nat} {q : Place}
    {frames : List (Frame H.Data H.Fn)} {finish : Finish H.Fn}
    (hat : (r.world n).pendingAt q = some (.parked id frames, finish)) :
    ∃ deeds o, n ≤ m ∧ (r.world m).shift (r.action m) = .moved q deeds o := by
  obtain ⟨rfl, s, hhandoff⟩ := World.handoff_of_pendingAt hat
  -- A node that had got its exit already would not be parked.
  have hm : n ≤ m := by
    refine Nat.le_of_not_lt fun hlt => ?_
    obtain ⟨handoff, hhandoff', hexit⟩ := hasExit_le h.hasExit.2 hlt
    obtain rfl := Option.some.inj (hhandoff'.symm.trans hhandoff)
    exact hexit
  obtain ⟨origin, handoff, ⟨haction, name, stack, ht⟩, -⟩ := h
  exact ⟨_, _, hm, haction ▸ World.shift_thread ht⟩

/-- An interpretation that stays at a place is moved from there at some time. -/
theorem exists_shift (hfair : r.Fair) {n : Nat} {q : Place} {s : Stage H.Data H.Fn}
    (hgoes : r.GoesOn b p n s) (hq : r.place b p n = some q)
    (hthere : ∀ m, b + n ≤ m → (r.world m).pendingAt q = some (s, x.2)) :
    ∃ m deeds o, b + n ≤ m ∧ (r.world m).shift (r.action m) = .moved q deeds o := by
  have hat := hthere (b + n) (Nat.le_refl _)
  have hback (hcomes : r.ComesBack b p n) (hstage : ∀ id frames, s ≠ .parked id frames) :
      ∃ m deeds o, b + n ≤ m ∧ (r.world m).shift (r.action m) = .moved q deeds o := by
    cases q with
    | handoff id =>
        obtain ⟨-, frames, hparked, -⟩ := World.parked_of_pendingAt hat
        exact absurd hparked (hstage id frames)
    | thread t l =>
        obtain ⟨m, hm, hback⟩ := hcomes t l hq
        have hm' := Nat.add_le_add_left hm b
        obtain ⟨m', deeds, o, hm'', hshift⟩ := hfair.exists_shift_of_back (hthere _ hm') hback
        exact ⟨m', deeds, o, Nat.le_trans hm' hm'', hshift⟩
  cases s with
  | asking post frames => exact hback hgoes (by simp)
  | submitting id frames => exact hback hgoes (by simp)
  | parked id frames =>
      obtain ⟨m, t, exit, haccepts⟩ := hgoes
      obtain ⟨deeds, o, hm, hshift⟩ := haccepts.exists_shift hat
      exact ⟨m, deeds, o, hm, hshift⟩
  | _ => exact hfair.exists_shift_of_active (by trivial) hthere

/-- An interpretation takes a step at some time. -/
theorem exists_step (hp : (r.world b).pendingAt p = some x) (hfair : r.Fair) {n : Nat}
    {s : Stage H.Data H.Fn} (hgoes : r.GoesOn b p n s) (hs : r.stage b p n = some s) :
    ∃ m, n ≤ m ∧ r.stage b p m = some s ∧ s.Step (r.deeds b p m) (r.stage b p (m + 1)) := by
  -- Otherwise the interpretation is where it is forever, and yet it is moved from there.
  refine Classical.byContradiction fun hnever => ?_
  have hstuck (m : Nat) (hm : n ≤ m) (hsm : r.stage b p m = some s) :
      ¬s.Step (r.deeds b p m) (r.stage b p (m + 1)) := fun hstep => hnever ⟨m, hm, hsm, hstep⟩
  obtain ⟨q, hq, hat⟩ := (r.stage_eq_some hp).1 hs
  have hstays (m : Nat) (hm : b + n ≤ m) : (r.world m).pendingAt q = some (s, x.2) ∧
      ∀ deeds o, (r.world m).shift (r.action m) ≠ .moved q deeds o := by
    obtain ⟨k, rfl⟩ := Nat.exists_eq_add_of_le (Nat.le_trans (Nat.le_add_right b n) hm)
    exact (stays_of_stuck hp hq hat hstuck (Nat.le_of_add_le_add_left hm)).2
  obtain ⟨m, deeds, o, hm, hshift⟩ := exists_shift hfair hgoes hq fun m hm => (hstays m hm).1
  exact (hstays m hm).2 deeds o hshift

/-- One action leaves an interpretation as it is, or takes it to a goal or closer to it. -/
def Approaches (r : Run H) (b : Nat) (p : Place) (finish : Finish H.Fn) (goal : Nat → Prop)
    (P : Nat → Nat → Stage H.Data H.Fn → Prop) : Prop :=
  ∀ n j q s, r.place b p n = some q → (r.world (b + n)).pendingAt q = some (s, finish) → P n j s →
    goal (n + 1) ∨ ∃ q' s' j', r.place b p (n + 1) = some q' ∧
      (r.world (b + (n + 1))).pendingAt q' = some (s', finish) ∧ P (n + 1) j' s' ∧
        (j' < j ∨ j' = j ∧ q' = q ∧ s' = s ∧
          ∀ deeds o, (r.world (b + n)).shift (r.action (b + n)) ≠ .moved q deeds o)

/-- An interpretation that approaches a goal is on its way until it comes to it. -/
theorem Approaches.course {goal : Nat → Prop} {P : Nat → Nat → Stage H.Data H.Fn → Prop}
    {finish : Finish H.Fn} {s : Stage H.Data H.Fn} {j : Nat} (h : r.Approaches b p finish goal P)
    (hp : (r.world b).pendingAt p = some (s, finish)) (hs : P 0 j s) (n : Nat) :
    (∃ q s' j', r.place b p n = some q ∧ (r.world (b + n)).pendingAt q = some (s', finish) ∧
        P n j' s') ∨ ∃ m, m ≤ n ∧ goal m := by
  induction n with
  | zero => exact .inl ⟨p, s, j, rfl, hp, hs⟩
  | succ n ih =>
      rcases ih with ⟨q, s', j', hq, hat, hs'⟩ | ⟨m, hm, hgoal⟩
      · rcases h n j' q s' hq hat hs' with hgoal | ⟨q', s'', j'', hq', hat', hs'', -⟩
        · exact .inr ⟨n + 1, Nat.le_refl _, hgoal⟩
        · exact .inl ⟨q', s'', j'', hq', hat', hs''⟩
      · exact .inr ⟨m, Nat.le_succ_of_le hm, hgoal⟩

/-- An interpretation that approaches a goal comes to it if what it waits for meanwhile comes. -/
theorem Approaches.exists_goal {goal : Nat → Prop} {P : Nat → Nat → Stage H.Data H.Fn → Prop}
    {finish : Finish H.Fn} (h : r.Approaches b p finish goal P) (hfair : r.Fair)
    (hgoes : ∀ n j q s, r.place b p n = some q → (r.world (b + n)).pendingAt q = some (s, finish) →
      P n j s → r.GoesOn b p n s) {n j : Nat} {q : Place} {s : Stage H.Data H.Fn}
    (hq : r.place b p n = some q) (hat : (r.world (b + n)).pendingAt q = some (s, finish))
    (hs : P n j s) : ∃ m, goal m := by
  induction j using Nat.strongRecOn generalizing n q s with
  | ind j ih =>
      refine Classical.byContradiction fun hnever => ?_
      have hstays (d : Nat) : r.place b p (n + d) = some q ∧
          (r.world (b + (n + d))).pendingAt q = some (s, finish) ∧ P (n + d) j s ∧
            ∀ e, e < d → ∀ deeds o,
              (r.world (b + (n + e))).shift (r.action (b + (n + e))) ≠ .moved q deeds o := by
        induction d with
        | zero => exact ⟨hq, hat, hs, fun e he => absurd he (Nat.not_lt_zero e)⟩
        | succ d ihd =>
            obtain ⟨hq', hat', hs', hbefore⟩ := ihd
            rcases h _ _ _ _ hq' hat' hs' with
              hgoal | ⟨q'', s'', j', hq'', hat'', hs'', hj | ⟨rfl, rfl, rfl, hother⟩⟩
            · exact absurd ⟨_, hgoal⟩ hnever
            · exact absurd (ih j' hj hq'' hat'' hs'') hnever
            · refine ⟨hq'', hat'', hs'', fun e he => ?_⟩
              rcases Nat.lt_succ_iff_lt_or_eq.1 he with hlt | rfl
              · exact hbefore e hlt
              · exact hother
      obtain ⟨m, deeds, o, hm, hshift⟩ := exists_shift (x := (s, finish)) hfair
        (hgoes n j q s hq hat hs) hq
        fun m hm => by
          obtain ⟨d, rfl⟩ := Nat.exists_eq_add_of_le hm
          exact Nat.add_assoc b n d ▸ (hstays d).2.1
      obtain ⟨d, rfl⟩ := Nat.exists_eq_add_of_le hm
      refine (hstays (d + 1)).2.2.2 d (Nat.lt_succ_self d) deeds o ?_
      rw [← Nat.add_assoc]
      exact hshift

theorem goesOn (hreturn : r.FunctionsReturn b p) (hcompleted : r.Completed b p) {n : Nat}
    {s : Stage H.Data H.Fn} (hs : r.stage b p n = some s) : r.GoesOn b p n s := by
  cases s with
  | asking post frames => exact fun t l hq => hreturn.asked n t l post frames hq hs
  | submitting id frames => exact fun t l hq => (hreturn.submitted n t l id frames hq hs).2
  | parked id frames => exact hcompleted n _ id hs rfl
  | _ => trivial

/-- A submission that does not panic does not lose the interpretation that waits for its end. -/
theorem stage_ne_none_of_submitting (hp : (r.world b).pendingAt p = some x) {n : Nat}
    {id : HandoffId} {frames : List (Frame H.Data H.Fn)}
    (hs : r.stage b p n = some (.submitting id frames))
    (hsubmits : ∀ t l, r.place b p n = some (.thread t l) → ¬(r.world (b + n)).Panics t l) :
    r.stage b p (n + 1) ≠ none := by
  intro hnone
  obtain ⟨q, hq, hat⟩ := (r.stage_eq_some hp).1 hs
  cases q with
  | handoff id' =>
      obtain ⟨-, frames', hstage, -⟩ := World.parked_of_pendingAt hat
      contradiction
  | thread t l =>
      have hplace : r.place b p (n + 1) =
          (r.world (b + n)).next? (r.action (b + n)) (.thread t l) := by
        simp [place, hq]
      rw [r.place_eq_none hp hnone] at hplace
      obtain ⟨deeds, hshift⟩ := World.shift_of_next?_eq_none hplace.symm
      rcases World.panics_of_shift hshift with hpanics | ⟨exit, finish, hconcluding⟩
      · exact hsubmits t l hq hpanics
      · simp [hat] at hconcluding

/-- An interpretation does not get stuck, and no submission loses it. -/
theorem live (hp : (r.world b).pendingAt p = some x) (hfair : r.Fair)
    (hreturn : r.FunctionsReturn b p) (hcompleted : r.Completed b p) : (r.course hp).Live where
  moves _ _ hs := exists_step hp hfair (goesOn hreturn hcompleted hs) hs
  kept n id frames hs := stage_ne_none_of_submitting hp hs fun t l hq =>
    (hreturn.submitted n t l id frames hq hs).1

end Live

end Run

namespace Relay

/-- The client asks for the result of a node whose registration leaves the callback for the server
or completes it itself. -/
def answered (direct : Bool) : Run host :=
  .ofList (start (node false) direct) (start_initial _ _)
    (.replicate 14 (.thread 0) ++ .replicate 21 (.thread 1) ++ .replicate 25 (.thread 0))

theorem pendingAt_answered (direct : Bool) :
    ((answered direct).world 2).pendingAt (.thread 0 2) =
      some (.driving (.start (node false)), .callback .unit .unit receiver) := by
  cases direct <;> rfl

set_option maxRecDepth 4000 in
theorem answered_fair (direct : Bool) : (answered direct).Fair :=
  Run.fair_ofList (by cases direct <;> decide)

theorem lt_of_stage_answered {direct : Bool} {n : Nat} {s : Stage Unit Fn}
    (hs : (answered direct).stage 2 (.thread 0 2) n = some s) : n < 58 := by
  refine Nat.lt_of_not_le fun hle => ?_
  have hover : (answered direct).stage 2 (.thread 0 2) 58 = none := by
    cases direct <;> decide
  rw [Run.stage_eq_none_of_le _ (pendingAt_answered direct) hover hle] at hs
  contradiction

set_option maxRecDepth 2000 in
theorem answered_functionsReturn (direct : Bool) :
    (answered direct).FunctionsReturn 2 (.thread 0 2) where
  asked n t l post frames hplace hstage := by
    have hnever : ∀ n < 58, ((answered direct).stage 2 (.thread 0 2) n).all fun
        | .asking _ _ => false
        | _ => true := by cases direct <;> decide
    have hn := hnever n (lt_of_stage_answered hstage)
    simp [hstage] at hn
  submitted n t l id frames hplace hstage := by
    have hwaits : ∀ n < 58, ((answered direct).stage 2 (.thread 0 2) n).all fun
        | .submitting _ _ =>
            (answered direct).place 2 (.thread 0 2) n = some (.thread 0 2) ∧
              ¬((answered direct).world (2 + n)).Panics 0 2 ∧ n ≤ if direct then 38 else 10
        | _ => true := by cases direct <;> decide
    have hn := hwaits n (lt_of_stage_answered hstage)
    simp only [hstage, Option.all_some, decide_eq_true_eq] at hn
    obtain ⟨hthere, hpanics, hle⟩ := hn
    obtain ⟨rfl, rfl⟩ := Place.thread.inj (Option.some.inj (hplace.symm.trans hthere))
    refine ⟨hpanics, _, hle, .inl ?_⟩
    cases direct with
    | false => exact ⟨_, _, _, _, rfl, rfl⟩
    | true => exact ⟨_, _, _, _, rfl, rfl⟩

set_option maxRecDepth 2000 in
theorem answered_completed (direct : Bool) : (answered direct).Completed 2 (.thread 0 2) := by
  intro n s id hstage hnode
  have hfirst : ∀ n < 58, (((answered direct).stage 2 (.thread 0 2) n).bind Stage.node?).all
      (· = 0) := by cases direct <;> decide
  have hn := hfirst n (lt_of_stage_answered hstage)
  simp only [hstage, Option.bind_some, hnode, Option.all_some, decide_eq_true_eq] at hn
  subst hn
  cases direct with
  | false =>
      exact ⟨19, 1, .settled (.ok .unit), .completion, _, ⟨rfl, _, _, rfl⟩, rfl, trivial⟩
  | true =>
      exact ⟨10, 0, .settled (.ok .unit), .completion, _, ⟨rfl, _, _, rfl⟩, rfl, trivial⟩

end Relay

end Trampoline
