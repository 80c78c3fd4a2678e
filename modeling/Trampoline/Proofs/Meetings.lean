import Trampoline.Proofs.Relay

/-!
What happens at the meeting point of an async node over a run. A node gets one exit at most, its
stack is handed over once at most, and both come about whatever the order of the threads is.
-/

namespace Trampoline

variable {H : Host}

/-- Whether the exit that is offered is accepted. -/
def Offer.IsAccepted {D F : Type} : Offer D F → Prop
  | .kept => True
  | .accepted _ _ => True
  | _ => False

/-- Whether the submitter has left the meeting point, with an exit or without one. -/
def Phase.IsLeft {D F : Type} : Phase D F → Prop
  | .parked _ _ => True
  | .resumed => True
  | _ => False

instance {D F : Type} (phase : Phase D F) : Decidable phase.IsLeft :=
  match phase with
  | .parked _ _ => .isTrue trivial
  | .resumed => .isTrue trivial
  | .submitting => .isFalse not_false
  | .early _ => .isFalse not_false

instance {D F : Type} (phase : Phase D F) : Decidable phase.HasExit :=
  match phase with
  | .early _ => .isTrue trivial
  | .resumed => .isTrue trivial
  | .submitting => .isFalse not_false
  | .parked _ _ => .isFalse not_false

namespace World

variable {w w' : World H}

/-- What an action does at the meeting point `id`, the submitter of which is `s`. -/
inductive Turns (w : World H) (id : HandoffId) (s : ThreadId) :
    Shift H.Data H.Fn → Phase H.Data H.Fn → Phase H.Data H.Fn → Prop where
  | same {shift : Shift H.Data H.Fn} {phase : Phase H.Data H.Fn} : Turns w id s shift phase phase
  | early {l : Nat} {exit : Exit (Outcome H.Data H.Fn)} :
      Turns w id s (.moved (.handoff id) [.exit exit] (some (.thread s l))) .submitting
        (.early exit)
  | park {t : ThreadId} {l : Nat} {frames : List (Frame H.Data H.Fn)} {finish : Finish H.Fn} :
      w.pendingAt (.thread t l) = some (.leaving id frames, finish) →
        Turns w id s (.moved (.thread t l) [] (some (.handoff id))) .submitting
          (.parked frames finish)
  | accept {t : ThreadId} {l : Nat} {exit : Exit (Outcome H.Data H.Fn)}
      {frames : List (Frame H.Data H.Fn)} {finish : Finish H.Fn} :
      Turns w id s (.moved (.handoff id) [.exit exit] (some (.thread t l)))
        (.parked frames finish) .resumed
  | inline {t : ThreadId} {l : Nat} {exit : Exit (Outcome H.Data H.Fn)}
      {frames : List (Frame H.Data H.Fn)} {finish : Finish H.Fn} :
      w.pendingAt (.thread t l) = some (.leaving id frames, finish) →
        Turns w id s (.moved (.thread t l) [.exit exit] (some (.thread t l))) (.early exit)
          .resumed

theorem Acts.turns {shift : Shift H.Data H.Fn} (h : w.Acts w' shift) {id : HandoffId}
    {s : ThreadId} {phase : Phase H.Data H.Fn} (hid : w.heap.handoffs[id]? = some ⟨s, phase⟩) :
    ∃ phase', w'.heap.handoffs[id]? = some ⟨s, phase'⟩ ∧ w.Turns id s shift phase phase' := by
  obtain ⟨hlt, hget⟩ := Array.getElem?_eq_some_iff.1 hid
  have hkeep (hsame : w'.heap.handoffs = w.heap.handoffs) :
      ∃ phase', w'.heap.handoffs[id]? = some ⟨s, phase'⟩ ∧ w.Turns id s shift phase phase' :=
    ⟨phase, hsame ▸ hid, .same⟩
  -- Another meeting point changes, or this one.
  have hset {id' : HandoffId} {s' : ThreadId} {before after : Phase H.Data H.Fn}
      (hid' : w.heap.handoffs[id']? = some ⟨s', before⟩)
      (hhandoffs : w'.heap.handoffs = w.heap.handoffs.setIfInBounds id' ⟨s', after⟩)
      (hturn : w.Turns id' s' shift before after) :
      ∃ phase', w'.heap.handoffs[id]? = some ⟨s, phase'⟩ ∧ w.Turns id s shift phase phase' := by
    by_cases heq : id' = id
    · subst heq
      obtain ⟨rfl, rfl⟩ := Handoff.mk.inj (Option.some.inj (hid.symm.trans hid'))
      exact ⟨after, by rw [hhandoffs, Array.getElem?_setIfInBounds_self_of_lt hlt], hturn⟩
    · exact ⟨phase, by rw [hhandoffs, Array.getElem?_setIfInBounds_ne heq, hid], .same⟩
  cases h with
  | keep hidle hcalm hsame => exact hkeep hcalm.handoffs
  | start hcalm hfree hputs => exact hkeep hcalm.handoffs
  | goOn hcalm => exact hkeep hcalm.handoffs
  | ends hcalm => exact hkeep hcalm.handoffs
  | suspend hstep hdeeds hat hhandoffs hsleepers hputs =>
      refine ⟨phase, ?_, .same⟩
      rw [hhandoffs, Array.getElem?_push_lt hlt, hget]
  | early hhandoff hhandoffs hsleepers hsame => exact hset hhandoff hhandoffs .early
  | wait hhandoff hne hhandoffs hsleepers hsame => exact hkeep hhandoffs
  | refuse hexit hcalm hsame => exact hkeep hcalm.handoffs
  | accept hhandoff hhandoffs hsleepers hfree hputs => exact hset hhandoff hhandoffs .accept
  | inline hat hhandoff hhandoffs hsleepers hputs => exact hset hhandoff hhandoffs (.inline hat)
  | park hat hhandoff hhandoffs hsleepers hputs => exact hset hhandoff hhandoffs (.park hat)

def At (w : World H) (id : HandoffId) (test : Phase H.Data H.Fn → Prop) : Prop :=
  ∃ handoff, w.heap.handoffs[id]? = some handoff ∧ test handoff.phase

instance (w : World H) (id : HandoffId) (test : Phase H.Data H.Fn → Prop) [DecidablePred test] :
    Decidable (w.At id test) :=
  match hid : w.heap.handoffs[id]? with
  | some handoff => decidable_of_iff (test handoff.phase) (by simp [At, hid])
  | none => .isFalse (by simp [At, hid])

/-- A node that has got an exit keeps it. -/
theorem Acts.hasExit {shift : Shift H.Data H.Fn} (h : w.Acts w' shift) {id : HandoffId}
    (hid : w.At id Phase.HasExit) : w'.At id Phase.HasExit := by
  obtain ⟨⟨s, phase⟩, hhandoff, hphase⟩ := hid
  obtain ⟨phase', hhandoff', hturns⟩ := h.turns hhandoff
  refine ⟨⟨s, phase'⟩, hhandoff', ?_⟩
  cases hturns with
  | same => exact hphase
  | inline => trivial
  | accept => trivial
  | early => exact hphase.elim
  | park => exact hphase.elim

/-- A node that the submitter has left is never about to be left again. -/
theorem Acts.isLeft {shift : Shift H.Data H.Fn} (h : w.Acts w' shift) {id : HandoffId}
    (hid : w.At id Phase.IsLeft) : w'.At id Phase.IsLeft := by
  obtain ⟨⟨s, phase⟩, hhandoff, hphase⟩ := hid
  obtain ⟨phase', hhandoff', hturns⟩ := h.turns hhandoff
  refine ⟨⟨s, phase'⟩, hhandoff', ?_⟩
  cases hturns with
  | same => exact hphase
  | accept => trivial
  | park => trivial
  | inline => trivial
  | early => exact hphase.elim

/-- A meeting point is new, and nobody has been there, or it was there before. -/
theorem Acts.turned {shift : Shift H.Data H.Fn} (h : w.Acts w' shift) {id : HandoffId}
    {s : ThreadId} {phase' : Phase H.Data H.Fn}
    (hid : w'.heap.handoffs[id]? = some ⟨s, phase'⟩) :
    phase' = .submitting ∨
      ∃ phase, w.heap.handoffs[id]? = some ⟨s, phase⟩ ∧ w.Turns id s shift phase phase' := by
  rcases hold : w.heap.handoffs[id]? with _ | ⟨s₀, phase⟩
  · have hsize : w.heap.handoffs.size ≤ id := Array.getElem?_eq_none_iff.1 hold
    have hnone (hsame : w'.heap.handoffs.size = w.heap.handoffs.size) : phase' = .submitting := by
      rw [Array.getElem?_eq_none_iff.2 (hsame ▸ hsize)] at hid
      contradiction
    refine .inl ?_
    cases h with
    | keep hidle hcalm => exact hnone (by rw [hcalm.handoffs])
    | start hcalm => exact hnone (by rw [hcalm.handoffs])
    | goOn hcalm => exact hnone (by rw [hcalm.handoffs])
    | ends hcalm => exact hnone (by rw [hcalm.handoffs])
    | suspend hstep hdeeds hat hhandoffs hsleepers hputs =>
        rw [hhandoffs, Array.getElem?_push] at hid
        split at hid
        · exact (Handoff.mk.inj (Option.some.inj hid)).2.symm
        · rw [hold] at hid
          contradiction
    | refuse hexit hcalm => exact hnone (by rw [hcalm.handoffs])
    | wait hhandoff hne hhandoffs => exact hnone (by rw [hhandoffs])
    | early hhandoff hhandoffs => exact hnone (by rw [hhandoffs, Array.size_setIfInBounds])
    | accept hhandoff hhandoffs => exact hnone (by rw [hhandoffs, Array.size_setIfInBounds])
    | inline hat hhandoff hhandoffs => exact hnone (by rw [hhandoffs, Array.size_setIfInBounds])
    | park hat hhandoff hhandoffs => exact hnone (by rw [hhandoffs, Array.size_setIfInBounds])
  · obtain ⟨phase₁, hphase₁, hturns⟩ := h.turns hold
    obtain ⟨rfl, rfl⟩ := Handoff.mk.inj (Option.some.inj (hphase₁.symm.trans hid))
    exact .inr ⟨phase, rfl, hturns⟩

/-- Nobody falls asleep at a meeting point that the submitter has left, and nobody wakes up
there. -/
theorem Acts.sleepsAt {shift : Shift H.Data H.Fn} (h : w.Acts w' shift) {id : HandoffId}
    (hid : w.At id Phase.IsLeft) (t : ThreadId) : w'.SleepsAt t id ↔ w.SleepsAt t id := by
  obtain ⟨handoff, hhandoff, hleft⟩ := hid
  cases h with
  | keep hidle hcalm => exact hcalm.sleepers t id
  | start hcalm => exact hcalm.sleepers t id
  | goOn hcalm => exact hcalm.sleepers t id
  | ends hcalm => exact hcalm.sleepers t id
  | refuse hexit hcalm => exact hcalm.sleepers t id
  | suspend hstep hdeeds hat hhandoffs hsleepers => exact hsleepers t id
  | early hhandoff' hhandoffs hsleepers => exact hsleepers t id
  | accept hhandoff' hhandoffs hsleepers => exact hsleepers t id
  | inline hat hhandoff' hhandoffs hsleepers => exact hsleepers t id
  | @wait t' s l id' exit hhandoff' hne hhandoffs hsleepers =>
      have hother : id ≠ id' := by
        rintro rfl
        obtain rfl := Option.some.inj (hhandoff.symm.trans hhandoff')
        exact hleft
      rw [hsleepers t id]
      simp [hother]
  | @park t' s l id' frames finish hat hhandoff' hhandoffs hsleepers =>
      have hother : id ≠ id' := by
        rintro rfl
        obtain rfl := Option.some.inj (hhandoff.symm.trans hhandoff')
        exact hleft
      rw [hsleepers t id]
      simp [hother]

/-- When the submitter leaves a meeting point without an exit it wakes everybody who sleeps there,
and when it leaves with an exit it wakes nobody. -/
theorem Acts.sleepsAt_of_leaving {shift : Shift H.Data H.Fn} (h : w.Acts w' shift)
    {id : HandoffId} {s : ThreadId} {phase : Phase H.Data H.Fn}
    (hid : w.heap.handoffs[id]? = some ⟨s, phase⟩) (hbefore : ¬phase.IsLeft)
    (hafter : w'.At id Phase.IsLeft) (t : ThreadId) :
    w'.SleepsAt t id ↔ (∃ exit, phase = .early exit) ∧ w.SleepsAt t id := by
  obtain ⟨⟨s', phase'⟩, hid', hphase'⟩ := hafter
  have hsame (h : w'.heap.handoffs[id]? = some ⟨s, phase⟩) : False := by
    obtain ⟨-, rfl⟩ := Handoff.mk.inj (Option.some.inj (hid'.symm.trans h))
    exact hbefore hphase'
  obtain ⟨hlt, hget⟩ := Array.getElem?_eq_some_iff.1 hid
  cases h with
  | keep hidle hcalm => exact (hsame (by rw [hcalm.handoffs, hid])).elim
  | start hcalm => exact (hsame (by rw [hcalm.handoffs, hid])).elim
  | goOn hcalm => exact (hsame (by rw [hcalm.handoffs, hid])).elim
  | ends hcalm => exact (hsame (by rw [hcalm.handoffs, hid])).elim
  | refuse hexit hcalm => exact (hsame (by rw [hcalm.handoffs, hid])).elim
  | wait hhandoff hne hhandoffs => exact (hsame (by rw [hhandoffs, hid])).elim
  | suspend hstep hdeeds hat hhandoffs =>
      exact (hsame (by rw [hhandoffs, Array.getElem?_push_lt hlt, hget])).elim
  | @early t' l id' exit hhandoff hhandoffs =>
      by_cases heq : id' = id
      · subst heq
        rw [hhandoffs, Array.getElem?_setIfInBounds_self_of_lt hlt] at hid'
        obtain ⟨-, rfl⟩ := Handoff.mk.inj (Option.some.inj hid')
        exact hphase'.elim
      · exact (hsame (by rw [hhandoffs, Array.getElem?_setIfInBounds_ne heq, hid])).elim
  | @accept t' s₀ l id' exit frames finish hhandoff hhandoffs =>
      by_cases heq : id' = id
      · subst heq
        obtain ⟨-, rfl⟩ := Handoff.mk.inj (Option.some.inj (hid.symm.trans hhandoff))
        exact absurd trivial hbefore
      · exact (hsame (by rw [hhandoffs, Array.getElem?_setIfInBounds_ne heq, hid])).elim
  | @inline t' s₀ l id' exit frames finish hat hhandoff hhandoffs hsleepers =>
      by_cases heq : id' = id
      · subst heq
        obtain ⟨-, rfl⟩ := Handoff.mk.inj (Option.some.inj (hid.symm.trans hhandoff))
        rw [hsleepers t id']
        exact ⟨fun hsleeps => ⟨⟨exit, rfl⟩, hsleeps⟩, And.right⟩
      · exact (hsame (by rw [hhandoffs, Array.getElem?_setIfInBounds_ne heq, hid])).elim
  | @park t' s₀ l id' frames finish hat hhandoff hhandoffs hsleepers =>
      by_cases heq : id' = id
      · subst heq
        obtain ⟨-, rfl⟩ := Handoff.mk.inj (Option.some.inj (hid.symm.trans hhandoff))
        rw [hsleepers t id']
        simp
      · exact (hsame (by rw [hhandoffs, Array.getElem?_setIfInBounds_ne heq, hid])).elim

end World

namespace Run

variable (r : Run H)

/-- At time `n` the submitter of an async node, back from `submit`, leaves the meeting point. -/
def Leaves (n : Nat) (id : HandoffId) : Prop :=
  ∃ t name frames last finish stack, r.action n = .thread t ∧
    (r.world n).threads[t]? = some ⟨name, .run (.park id frames last finish), stack⟩

/-- At time `n` the submitter of an async node leaves the meeting point with an exit that has been
there before the stack was parked. -/
def PicksUp (n : Nat) (id : HandoffId) : Prop :=
  r.Leaves n id ∧ (r.world n).At id fun phase => ∃ exit, phase = .early exit

/-- Whether the submitter of an async node has left the meeting point by time `n`. -/
def HasLeft (n : Nat) (id : HandoffId) : Prop := (r.world n).At id Phase.IsLeft

instance (n : Nat) (id : HandoffId) : Decidable (r.HasLeft n id) :=
  inferInstanceAs (Decidable ((r.world n).At id Phase.IsLeft))

variable {r}

theorem hasLeft_succ {n : Nat} {id : HandoffId} (h : r.HasLeft (n + 1) id) :
    r.HasLeft n id ∨ r.Leaves n id := by
  obtain ⟨⟨s, phase'⟩, hhandoff', hphase'⟩ := h
  have hleaves {t : ThreadId} {l : Nat} {frames : List (Frame H.Data H.Fn)} {finish : Finish H.Fn}
      {deeds : List (Deed H.Data H.Fn)} {o : Option Place}
      (hat : (r.world n).pendingAt (.thread t l) = some (.leaving id frames, finish))
      (hshift : (r.world n).shift (r.action n) = .moved (.thread t l) deeds o) :
      r.Leaves n id := by
    obtain ⟨t', name, task, stack, heq, ht, htask⟩ := World.active_of_pendingAt hat trivial
    obtain ⟨rfl, -⟩ := Place.thread.inj heq
    cases task with
    | park id' frames' last finish' =>
        obtain ⟨heq, rfl⟩ := Prod.mk.inj (Option.some.inj htask)
        obtain ⟨rfl, rfl⟩ := Stage.leaving.inj heq
        exact ⟨t, name, _, last, _, stack, World.action_of_shift hshift, ht⟩
    | drive => simp [Task.pending?] at htask
    | resume => simp [Task.pending?] at htask
    | conclude => simp [Task.pending?] at htask
    | _ => contradiction
  have hacts := r.acts n
  generalize hshift : (r.world n).shift (r.action n) = shift at hacts
  rcases hacts.turned hhandoff' with rfl | ⟨phase, hhandoff, hturns⟩
  · exact hphase'.elim
  · cases hturns with
    | same => exact .inl ⟨_, hhandoff, hphase'⟩
    | early => exact hphase'.elim
    | park hat => exact .inr (hleaves hat hshift)
    | accept => exact .inl ⟨_, hhandoff, trivial⟩
    | inline hat => exact .inr (hleaves hat hshift)

theorem HasLeft.le {n m : Nat} {id : HandoffId} (h : r.HasLeft n id) (hnm : n ≤ m) :
    r.HasLeft m id := by
  induction hnm with
  | refl => exact h
  | step _ ih => exact (r.acts _).isLeft ih

theorem exists_leaves {n : Nat} {id : HandoffId} (h : r.HasLeft n id) :
    ∃ k, k < n ∧ ¬r.HasLeft k id ∧ r.Leaves k id ∧ r.HasLeft (k + 1) id := by
  induction n with
  | zero =>
      obtain ⟨handoff, hhandoff, -⟩ := h
      simp [r.initial.handoffs] at hhandoff
  | succ n ih =>
      by_cases hn : r.HasLeft n id
      · obtain ⟨k, hk, hrest⟩ := ih hn
        exact ⟨k, Nat.lt_succ_of_lt hk, hrest⟩
      · refine ⟨n, Nat.lt_succ_self n, hn, ?_, h⟩
        exact (hasLeft_succ h).resolve_left hn

/-- Once the submitter has left a meeting point, exactly those threads sleep there, and sleep on
forever, that slept there when it picked up an exit: leaving with an exit wakes nobody, leaving
without one wakes everybody, and nobody falls asleep there afterwards. -/
theorem sleepsAt_iff_of_hasLeft (r : Run H) {n : Nat} {id : HandoffId} (h : r.HasLeft n id) :
    ∃ k, k < n ∧ r.Leaves k id ∧
      ∀ m, k < m → ∀ t, (r.world m).SleepsAt t id ↔
        r.PicksUp k id ∧ (r.world k).SleepsAt t id := by
  obtain ⟨k, hk, hbefore, hleaves, hafter⟩ := exists_leaves h
  refine ⟨k, hk, hleaves, ?_⟩
  -- Leaving decides who sleeps there, and every later action keeps it so.
  have hleaving (t : ThreadId) :
      (r.world (k + 1)).SleepsAt t id ↔ r.PicksUp k id ∧ (r.world k).SleepsAt t id := by
    obtain ⟨⟨s, phase'⟩, hhandoff', hphase'⟩ := hafter
    rcases (r.acts k).turned hhandoff' with rfl | ⟨phase, hhandoff, -⟩
    · exact hphase'.elim
    · have hleft : ¬phase.IsLeft := fun hphase => hbefore ⟨_, hhandoff, hphase⟩
      rw [(r.acts k).sleepsAt_of_leaving hhandoff hleft ⟨_, hhandoff', hphase'⟩ t]
      refine and_congr_left fun _ => ⟨fun hearly => ⟨hleaves, _, hhandoff, hearly⟩, ?_⟩
      rintro ⟨-, handoff, hat, hearly⟩
      obtain rfl := Option.some.inj (hat.symm.trans hhandoff)
      exact hearly
  intro m hm t
  induction hm with
  | refl => exact hleaving t
  | @step m hm ih =>
      rw [(r.acts m).sleepsAt (HasLeft.le hafter hm) t]
      exact ih

end Run

namespace Relay

/-- The registration leaves the callback and panics. The server offers its exit before the client
catches the panic, and the client leaves the node with the panic as the exit. -/
def lost : Run host :=
  .ofList (start (node true) false) (start_initial _ _)
    (.replicate 9 (.thread 0) ++ .replicate 6 (.thread 1) ++ .replicate 6 (.thread 0))

/-- The server sleeps at the node forever. -/
theorem sleepsAt_lost : lost.HasLeft 21 0 ∧ ∀ m, 20 < m → (lost.world m).SleepsAt 1 0 := by
  have hleft : lost.HasLeft 21 0 := by decide +kernel
  have hsleeps : (lost.world 21).SleepsAt 1 0 := by decide +kernel
  obtain ⟨k, hk, -, hiff⟩ := Run.sleepsAt_iff_of_hasLeft lost hleft
  refine ⟨hleft, fun m hm => ?_⟩
  exact (hiff m (Nat.lt_of_lt_of_le hk hm) 1).2 ((hiff 21 hk 1).1 hsleeps)

/-- A thread can be left asleep at a node that its submitter has left. -/
theorem exists_sleepsAt_of_isLeft :
    ¬∀ (H : Host) (w w' : World H) (t : ThreadId) (id : HandoffId),
      w.Initial → w.Reaches w' → w'.At id Phase.IsLeft → ¬w'.SleepsAt t id := by
  intro h
  have hleft : (lost.world 21).At 0 Phase.IsLeft := by decide +kernel
  have hsleeps : (lost.world 21).SleepsAt 1 0 := by decide +kernel
  exact h host (lost.world 0) (lost.world 21) 1 0 lost.initial (lost.reaches 21) hleft hsleeps

end Relay

end Trampoline
