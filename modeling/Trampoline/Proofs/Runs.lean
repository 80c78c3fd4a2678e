import Trampoline.Proofs.Soundness

/-!
Runs of the world from its start, with the actions in any order, and the interpretations in them. An
interpretation is known by the time and the place at which it starts; from there on it has a course.
-/

namespace Trampoline

variable {H : Host}

/-- A world in which nothing has happened yet: no async node has been reached, and no thread holds
an interpretation. -/
structure World.Initial (w : World H) : Prop where
  handoffs : w.heap.handoffs = #[]
  numbered : ∀ t : ThreadId, w.next ≤ t → w.threads[t]? = none
  idle : ∀ (t : ThreadId) (thread : Thread H), w.threads[t]? = some thread → thread.Idle

theorem World.Initial.pendingAt {w : World H} (hw : w.Initial) (p : Place) :
    w.pendingAt p = none := by
  cases p with
  | handoff id => simp [World.pendingAt, Heap.pendingAt, hw.handoffs]
  | thread t level =>
      rcases ht : w.threads[t]? with _ | thread
      · simp [World.pendingAt, ht]
      · simp [World.pendingAt, ht, (hw.idle t thread ht).pendingAt level]

theorem World.Initial.sound {w : World H} (hw : w.Initial) : w.Sound where
  numbered := hw.numbered
  threads t thread ht := (hw.idle t thread ht).toSound
  parking p id hp := by
    obtain ⟨stage, finish, hat, -⟩ := hp
    rw [hw.pendingAt] at hat
    contradiction
  unique p q id hp _ := by
    obtain ⟨stage, finish, hat, -⟩ := hp
    rw [hw.pendingAt] at hat
    contradiction

/-- A world at its very start: nothing has been made, and every thread is about to run host code. -/
structure World.Starting (w : World H) : Prop where
  handoffs : w.heap.handoffs = #[]
  promises : w.heap.promises = #[]
  channels : w.heap.channels = #[]
  futures : w.heap.futures = #[]
  numbered : ∀ t : ThreadId, w.next ≤ t → w.threads[t]? = none
  threads : ∀ (t : ThreadId) (thread : Thread H), w.threads[t]? = some thread →
    ∃ name code, thread = .starting name (.user code .start) []

theorem World.Starting.initial {w : World H} (hw : w.Starting) : w.Initial where
  handoffs := hw.handoffs
  numbered := hw.numbered
  idle t thread ht := by
    obtain ⟨name, code, rfl⟩ := hw.threads t thread ht
    exact Thread.idle_starting name rfl (by simp)

/-- A run: the worlds at all times, and the actions between them. -/
structure Run (H : Host) where
  world : Nat → World H
  action : Nat → Action
  initial : (world 0).Initial
  step : ∀ n, (world n).does (action n) = some (world (n + 1))

namespace Run

variable (r : Run H)

theorem sound (n : Nat) : (r.world n).Sound := by
  induction n with
  | zero => exact r.initial.sound
  | succ n ih => exact ih.of_does (r.step n)

theorem ordered (n : Nat) : (r.world n).Ordered := (r.sound n).toOrdered

theorem acts (n : Nat) : (r.world n).Acts (r.world (n + 1)) ((r.world n).shift (r.action n)) :=
  ((r.sound n).does (r.step n)).2

theorem reaches (n : Nat) : (r.world 0).Reaches (r.world n) := by
  induction n with
  | zero => exact .refl
  | succ n ih => exact .tail ih (World.step_iff_does.2 ⟨r.action n, r.step n⟩)

/-- What a world does when it is told to take an action: it lets no time pass instead if it cannot
take it. -/
def enabled (w : World H) (a : Action) : Action := if (w.does a).isSome then a else .time 0

def after (w : World H) (a : Action) : World H := (w.does (enabled w a)).getD w

theorem does_after (w : World H) (a : Action) : w.does (enabled w a) = some (after w a) := by
  unfold after enabled
  split
  · rename_i h
    obtain ⟨w', hw'⟩ := Option.isSome_iff_exists.1 h
    rw [hw', Option.getD_some]
  · rfl

def worlds (w : World H) (pick : Nat → Action) : Nat → World H
  | 0 => w
  | n + 1 => after (worlds w pick n) (pick n)

def ofActions (w : World H) (hw : w.Initial) (pick : Nat → Action) : Run H where
  world := worlds w pick
  action n := enabled (worlds w pick n) (pick n)
  initial := hw
  step n := does_after (worlds w pick n) (pick n)

/-- The run that takes the actions of a list, after which nothing happens. -/
def ofList (w : World H) (hw : w.Initial) (actions : List Action) : Run H :=
  ofActions w hw fun n => actions[n]?.getD (.time 0)

theorem after_time_zero (w : World H) : after w (.time 0) = w := by
  change w.passTo 0 = w
  simp [World.passTo]

theorem world_ofList (w : World H) (hw : w.Initial) (actions : List Action) {n : Nat}
    (hn : actions.length ≤ n) :
    (ofList w hw actions).world n = (ofList w hw actions).world actions.length := by
  induction hn with
  | refl => rfl
  | @step n hn ih =>
      rw [← ih]
      change after ((ofList w hw actions).world n) (actions[n]?.getD (.time 0)) = _
      rw [List.getElem?_eq_none hn, Option.getD_none, after_time_zero]

theorem action_ofList (w : World H) (hw : w.Initial) (actions : List Action) {n : Nat}
    (hn : actions.length ≤ n) : (ofList w hw actions).action n = .time 0 := by
  change enabled _ (actions[n]?.getD (.time 0)) = _
  rw [List.getElem?_eq_none hn, Option.getD_none]
  rfl

/-- Where the interpretation that is at `p` at time `b` is `n` actions later, while it is under
way. -/
def place (b : Nat) (p : Place) : Nat → Option Place
  | 0 => some p
  | n + 1 => (place b p n).bind ((r.world (b + n)).next? (r.action (b + n)))

/-- How far the interpretation that is at `p` at time `b` is `n` actions later. -/
def stage (b : Nat) (p : Place) (n : Nat) : Option (Stage H.Data H.Fn) :=
  ((r.place b p n).bind (r.world (b + n)).pendingAt).map Prod.fst

/-- What the interpretation that is at `p` at time `b` does in the action `n` actions later. -/
def deeds (b : Nat) (p : Place) (n : Nat) : List (Deed H.Data H.Fn) :=
  ((r.place b p n).map ((r.world (b + n)).deeds (r.action (b + n)))).getD []

/-- Everything that the interpretation that is at `p` at time `b` has done until `n` actions
later. -/
def history (b : Nat) (p : Place) : Nat → List (Deed H.Data H.Fn)
  | 0 => []
  | n + 1 => history b p n ++ r.deeds b p n

/-- While it has a place, an interpretation is there, with its finisher. -/
theorem pendingAt_place {b : Nat} {p : Place} {x : Pending H.Data H.Fn}
    (hp : (r.world b).pendingAt p = some x) {n : Nat} {q : Place} (hq : r.place b p n = some q) :
    ∃ stage, (r.world (b + n)).pendingAt q = some (stage, x.2) := by
  induction n generalizing q with
  | zero =>
      obtain rfl := Option.some.inj hq
      exact ⟨x.1, hp⟩
  | succ n ih =>
      obtain ⟨q₀, hq₀, hnext⟩ := Option.bind_eq_some_iff.1 hq
      obtain ⟨stage, hstage⟩ := ih hq₀
      cases (r.sound (b + n)).follows (r.step (b + n)) hstage with
      | stays hother hq₁ hstage' hdeeds =>
          obtain rfl := Option.some.inj (hq₁.symm.trans hnext)
          exact ⟨stage, hstage'⟩
      | @moves q₁ stage' hq₁ hstage' hstep =>
          obtain rfl := Option.some.inj (hq₁.symm.trans hnext)
          exact ⟨stage', hstage'⟩
      | ends hnone hstep =>
          rw [hnone] at hnext
          contradiction

theorem stage_eq_some {b : Nat} {p : Place} {x : Pending H.Data H.Fn}
    (hp : (r.world b).pendingAt p = some x) {n : Nat} {s : Stage H.Data H.Fn} :
    r.stage b p n = some s ↔
      ∃ q, r.place b p n = some q ∧ (r.world (b + n)).pendingAt q = some (s, x.2) := by
  simp only [stage, Option.map_eq_some_iff, Option.bind_eq_some_iff]
  constructor
  · rintro ⟨⟨s', finish⟩, ⟨q, hq, hat⟩, rfl⟩
    obtain ⟨s'', hat'⟩ := r.pendingAt_place hp hq
    obtain ⟨rfl, rfl⟩ := Prod.mk.inj (Option.some.inj (hat.symm.trans hat'))
    exact ⟨q, hq, hat⟩
  · rintro ⟨q, hq, hat⟩
    exact ⟨(s, x.2), ⟨q, hq, hat⟩, rfl⟩

theorem place_eq_none {b : Nat} {p : Place} {x : Pending H.Data H.Fn}
    (hp : (r.world b).pendingAt p = some x) {n : Nat} (h : r.stage b p n = none) :
    r.place b p n = none := by
  cases hq : r.place b p n with
  | none => rfl
  | some q =>
      obtain ⟨s, hat⟩ := r.pendingAt_place hp hq
      rw [(r.stage_eq_some hp).2 ⟨q, hq, hat⟩] at h
      contradiction

theorem stage_eq_none_of_le {b : Nat} {p : Place} {x : Pending H.Data H.Fn}
    (hp : (r.world b).pendingAt p = some x) {n m : Nat} (hn : r.stage b p n = none)
    (hnm : n ≤ m) : r.stage b p m = none := by
  induction hnm with
  | refl => exact hn
  | @step m _ ih =>
      have hplace := r.place_eq_none hp ih
      simp [stage, place, hplace]

/-- The course of the interpretation that is at `p` at time `b`. -/
def course {b : Nat} {p : Place} {x : Pending H.Data H.Fn}
    (hp : (r.world b).pendingAt p = some x) : Course H.Data H.Fn where
  stage := r.stage b p
  deeds := r.deeds b p
  goes n s hs := by
    obtain ⟨q, hq, hat⟩ := (r.stage_eq_some hp).1 hs
    have hdeeds : r.deeds b p n = (r.world (b + n)).deeds (r.action (b + n)) q := by
      simp [deeds, hq]
    have hplace : r.place b p (n + 1) = (r.world (b + n)).next? (r.action (b + n)) q := by
      simp [place, hq]
    rw [hdeeds]
    cases (r.sound (b + n)).follows (r.step (b + n)) hat with
    | stays hother hnext hat' hdeeds' =>
        rw [(r.stage_eq_some hp).2 ⟨q, hplace.trans hnext, hat'⟩]
        rcases hdeeds' with hnothing | ⟨reg, id, hnode, hcall⟩
        · rw [hnothing]
          exact .rest
        · rw [hcall]
          exact .registered hnode
    | @moves q' s' hnext hat' hstep =>
        rw [(r.stage_eq_some hp).2 ⟨q', hplace.trans hnext, hat'⟩]
        exact .step hstep
    | ends hnext hstep =>
        have hnone : r.stage b p (n + 1) = none := by simp [stage, hplace, hnext]
        rw [hnone]
        exact .step hstep
  ended n hn := by
    have hplace := r.place_eq_none hp hn
    exact ⟨by simp [stage, place, hplace], by simp [deeds, hplace]⟩

theorem course_history {b : Nat} {p : Place} {x : Pending H.Data H.Fn}
    (hp : (r.world b).pendingAt p = some x) (n : Nat) :
    (r.course hp).history n = r.history b p n := by
  induction n with
  | zero => rfl
  | succ n ih =>
      rw [Course.history, history, ih]
      rfl

/-- An interpretation can be looked at from a later time on. -/
theorem place_add {b : Nat} {p q : Place} {n : Nat} (hq : r.place b p n = some q) (m : Nat) :
    r.place b p (n + m) = r.place (b + n) q m := by
  induction m with
  | zero => exact hq
  | succ m ih =>
      rw [← Nat.add_assoc, place, ih, place, Nat.add_assoc]

theorem stage_add {b : Nat} {p q : Place} {n : Nat} (hq : r.place b p n = some q) (m : Nat) :
    r.stage b p (n + m) = r.stage (b + n) q m := by
  rw [stage, stage, r.place_add hq, Nat.add_assoc]

theorem deeds_add {b : Nat} {p q : Place} {n : Nat} (hq : r.place b p n = some q) (m : Nat) :
    r.deeds b p (n + m) = r.deeds (b + n) q m := by
  rw [deeds, deeds, r.place_add hq, Nat.add_assoc]

theorem history_add {b : Nat} {p q : Place} {n : Nat} (hq : r.place b p n = some q) (m : Nat) :
    r.history b p (n + m) = r.history b p n ++ r.history (b + n) q m := by
  induction m with
  | zero => simp [history]
  | succ m ih => rw [← Nat.add_assoc, history, ih, List.append_assoc, history, r.deeds_add hq]

end Run

end Trampoline
