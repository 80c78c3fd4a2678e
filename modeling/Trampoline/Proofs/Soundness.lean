import Trampoline.Proofs.Inversion

/-!
What every reachable world keeps to: its threads are in order, and at most one interpretation, on
the submitting thread, is about to leave an async node.
-/

namespace Trampoline

variable {H : Host}

namespace World

variable {w w' : World H}

theorem Puts.of_pendingAt {p p' q : Place} {x y : Pending H.Data H.Fn} (h : w.Puts w' p p' x)
    (hq : w'.pendingAt q = some y) :
    q = p' ∧ y = x ∨ q ≠ p' ∧ q ≠ p ∧ w.pendingAt q = some y := by
  rw [h q] at hq
  split at hq
  · rename_i heq
    exact .inl ⟨heq, (Option.some.inj hq).symm⟩
  · rename_i hne
    split at hq
    · contradiction
    · rename_i hne'
      exact .inr ⟨hne, hne', hq⟩

/-- An interpretation that does not wait for a submission takes the place of another one. -/
theorem Puts.parks {p p' q : Place} {id : HandoffId} {x : Pending H.Data H.Fn}
    (h : w.Puts w' p p' x) (hx : x.1.parks? = none) (hq : w'.Parks q id) :
    w.Parks q id ∧ q ≠ p := by
  obtain ⟨stage, finish, hat, hparks⟩ := hq
  rcases h.of_pendingAt hat with ⟨-, rfl⟩ | ⟨-, hne, hold⟩
  · rw [hx] at hparks
    contradiction
  · exact ⟨⟨stage, finish, hold, hparks⟩, hne⟩

theorem parks_congr (h : ∀ q, w'.pendingAt q = w.pendingAt q) {q : Place} {id : HandoffId} :
    w'.Parks q id ↔ w.Parks q id := by
  simp only [Parks, h]

/-- Nothing new waits for a submission, and the meeting points of what still waits are the same. -/
theorem Sound.of_fewer (hw : w.Sound) (hordered : w'.Ordered)
    (h : ∀ q id, w'.Parks q id →
      w.Parks q id ∧ w'.heap.handoffs[id]? = w.heap.handoffs[id]?) : w'.Sound where
  toOrdered := hordered
  parking q id hq := by
    obtain ⟨hold, hhandoff⟩ := h q id hq
    rw [hhandoff]
    exact hw.parking q id hold
  unique p q id hp hq := hw.unique p q id (h p id hp).1 (h q id hq).1

/-- One meeting point changes, and nothing waits for a submission there any more. -/
theorem Sound.of_set {id : HandoffId} {handoff : Handoff H.Data H.Fn} (hw : w.Sound)
    (hordered : w'.Ordered)
    (hhandoffs : w'.heap.handoffs = w.heap.handoffs.setIfInBounds id handoff)
    (h : ∀ q id', w'.Parks q id' → w.Parks q id' ∧ id ≠ id') : w'.Sound :=
  hw.of_fewer hordered fun q id' hq =>
    ⟨(h q id' hq).1, by rw [hhandoffs, Array.getElem?_setIfInBounds_ne (h q id' hq).2]⟩

/-- An interpretation goes on and waits for the same submission as before, or for none. -/
theorem Sound.of_moved {t : ThreadId} {l l' : Nat} {stage stage' : Stage H.Data H.Fn}
    {finish : Finish H.Fn} (hw : w.Sound) (hordered : w'.Ordered)
    (hhandoffs : w'.heap.handoffs = w.heap.handoffs)
    (hat : w.pendingAt (.thread t l) = some (stage, finish))
    (hparks : stage'.parks? = stage.parks?)
    (hputs : w.Puts w' (.thread t l) (.thread t l') (stage', finish)) : w'.Sound := by
  have hback (q : Place) (id : HandoffId) (hq : w'.Parks q id) :
      ∃ p, w.Parks p id ∧ (q = .thread t l' ∧ p = .thread t l ∨ q = p ∧ p ≠ .thread t l) := by
    obtain ⟨stage₁, finish₁, hq, hid⟩ := hq
    rcases hputs.of_pendingAt hq with ⟨rfl, heq⟩ | ⟨-, hne, hold⟩
    · obtain ⟨rfl, rfl⟩ := Prod.mk.inj heq
      exact ⟨.thread t l, ⟨stage, _, hat, hparks ▸ hid⟩, .inl ⟨rfl, rfl⟩⟩
    · exact ⟨q, ⟨stage₁, finish₁, hold, hid⟩, .inr ⟨rfl, hne⟩⟩
  refine ⟨hordered, fun q id hq => ?_, fun q q' id hq hq' => ?_⟩
  · obtain ⟨p, hp, hplace⟩ := hback q id hq
    obtain ⟨t', m, handoff, rfl, hhandoff, hsubmitter, hphase⟩ := hw.parking p id hp
    rw [hhandoffs]
    rcases hplace with ⟨rfl, heq⟩ | ⟨rfl, -⟩
    · obtain ⟨rfl, -⟩ := Place.thread.inj heq
      exact ⟨t', l', handoff, rfl, hhandoff, hsubmitter, hphase⟩
    · exact ⟨t', m, handoff, rfl, hhandoff, hsubmitter, hphase⟩
  · obtain ⟨p, hp, hplace⟩ := hback q id hq
    obtain ⟨p', hp', hplace'⟩ := hback q' id hq'
    obtain rfl := hw.unique p p' id hp hp'
    rcases hplace with ⟨rfl, rfl⟩ | ⟨rfl, hne⟩
    · rcases hplace' with ⟨rfl, -⟩ | ⟨-, hne⟩
      · rfl
      · exact absurd rfl hne
    · rcases hplace' with ⟨-, heq⟩ | ⟨heq, -⟩
      · exact absurd heq hne
      · exact heq.symm

/-- An interpretation reaches an async node and waits for the submission of its registration. -/
theorem Sound.of_suspended {t : ThreadId} {l : Nat} {frames : List (Frame H.Data H.Fn)}
    {finish : Finish H.Fn} (hw : w.Sound) (hordered : w'.Ordered)
    (hhandoffs : w'.heap.handoffs = w.heap.handoffs.push (.fresh t))
    (hputs : w.Puts w' (.thread t l) (.thread t l)
      (.submitting w.heap.handoffs.size frames, finish)) : w'.Sound := by
  have hback (q : Place) (id : HandoffId) (hq : w'.Parks q id) :
      q = .thread t l ∧ id = w.heap.handoffs.size ∨ w.Parks q id := by
    obtain ⟨stage₁, finish₁, hq, hid⟩ := hq
    rcases hputs.of_pendingAt hq with ⟨rfl, heq⟩ | ⟨-, -, hold⟩
    · obtain ⟨rfl, rfl⟩ := Prod.mk.inj heq
      exact .inl ⟨rfl, (Option.some.inj hid).symm⟩
    · exact .inr ⟨stage₁, finish₁, hold, hid⟩
  -- The new node has a number that no node had.
  have hfresh (q : Place) : ¬w.Parks q w.heap.handoffs.size := by
    intro hq
    obtain ⟨-, -, handoff, -, hhandoff, -⟩ := hw.parking q _ hq
    simp at hhandoff
  refine ⟨hordered, fun q id hq => ?_, fun q q' id hq hq' => ?_⟩
  · rw [hhandoffs]
    rcases hback q id hq with ⟨rfl, rfl⟩ | hold
    · exact ⟨t, l, .fresh t, rfl, Array.getElem?_push_size, rfl, .inl rfl⟩
    · obtain ⟨t', m, handoff, rfl, hhandoff, hsubmitter, hphase⟩ := hw.parking q id hold
      refine ⟨t', m, handoff, rfl, ?_, hsubmitter, hphase⟩
      obtain ⟨hlt, heq⟩ := Array.getElem?_eq_some_iff.1 hhandoff
      rw [Array.getElem?_push_lt hlt, heq]
  · rcases hback q id hq with ⟨rfl, rfl⟩ | hold
    · rcases hback q' _ hq' with ⟨rfl, -⟩ | hold'
      · rfl
      · exact absurd hold' (hfresh q')
    · rcases hback q' id hq' with ⟨rfl, rfl⟩ | hold'
      · exact absurd hold (hfresh q)
      · exact hw.unique q q' id hold hold'

/-- A meeting point gets an exit while its submitter is there. -/
theorem Sound.of_early {s : ThreadId} {id : HandoffId} {exit : Exit (Outcome H.Data H.Fn)}
    (hw : w.Sound) (hordered : w'.Ordered)
    (hhandoff : w.heap.handoffs[id]? = some ⟨s, .submitting⟩)
    (hhandoffs : w'.heap.handoffs = w.heap.handoffs.setIfInBounds id ⟨s, .early exit⟩)
    (hsame : ∀ q, w'.pendingAt q = w.pendingAt q) : w'.Sound := by
  refine ⟨hordered, fun q id' hq => ?_, fun q q' id hq hq' => ?_⟩
  · obtain ⟨t, l, handoff, rfl, hhandoff', hsubmitter, hphase⟩ :=
      hw.parking q id' ((parks_congr hsame).1 hq)
    rw [hhandoffs]
    by_cases heq : id = id'
    · subst heq
      obtain rfl := Option.some.inj (hhandoff'.symm.trans hhandoff)
      obtain ⟨hlt, -⟩ := Array.getElem?_eq_some_iff.1 hhandoff
      exact ⟨t, l, ⟨s, .early exit⟩, rfl, Array.getElem?_setIfInBounds_self_of_lt hlt,
        hsubmitter, .inr ⟨exit, rfl⟩⟩
    · rw [Array.getElem?_setIfInBounds_ne heq]
      exact ⟨t, l, handoff, rfl, hhandoff', hsubmitter, hphase⟩
  · exact hw.unique q q' id ((parks_congr hsame).1 hq) ((parks_congr hsame).1 hq')

/-- Interpretations at two places wait for two submissions. -/
theorem Sound.ne_of_parks {p q : Place} {id id' : HandoffId} {stage : Stage H.Data H.Fn}
    {finish : Finish H.Fn} (hw : w.Sound) (hat : w.pendingAt p = some (stage, finish))
    (hparks : stage.parks? = some id) (hq : w.Parks q id') (hne : q ≠ p) : id ≠ id' := by
  rintro rfl
  exact hne (hw.unique q p id hq ⟨stage, finish, hat, hparks⟩)

theorem Sound.of_acts {shift : Shift H.Data H.Fn} (hw : w.Sound) (hordered : w'.Ordered)
    (h : w.Acts w' shift) : w'.Sound := by
  cases h with
  | keep hidle hcalm hsame =>
      exact hw.of_fewer hordered fun q id hq => ⟨(parks_congr hsame).1 hq, by rw [hcalm.handoffs]⟩
  | start hcalm hfree hputs =>
      exact hw.of_fewer hordered fun q id hq => ⟨(hputs.parks rfl hq).1, by rw [hcalm.handoffs]⟩
  | goOn hcalm hat hstep hnode hparks hfree hputs =>
      exact hw.of_moved hordered hcalm.handoffs hat hparks hputs
  | ends hcalm hat hstep hclears =>
      refine hw.of_fewer hordered fun q id hq => ⟨?_, by rw [hcalm.handoffs]⟩
      obtain ⟨stage, finish, hq, hid⟩ := hq
      rw [hclears q] at hq
      split at hq
      · contradiction
      · exact ⟨stage, finish, hq, hid⟩
  | suspend hstep hdeeds hat hhandoffs hsleepers hputs =>
      exact hw.of_suspended hordered hhandoffs hputs
  | early hhandoff hhandoffs hsleepers hsame =>
      exact hw.of_early hordered hhandoff hhandoffs hsame
  | wait hhandoff hne hhandoffs hsleepers hsame =>
      exact hw.of_fewer hordered fun q id hq => ⟨(parks_congr hsame).1 hq, by rw [hhandoffs]⟩
  | refuse hexit hcalm hsame =>
      exact hw.of_fewer hordered fun q id hq => ⟨(parks_congr hsame).1 hq, by rw [hcalm.handoffs]⟩
  | @accept t s l id exit frames finish hhandoff hhandoffs hsleepers hfree hputs =>
      refine hw.of_set hordered hhandoffs fun q id' hq => ?_
      obtain ⟨hold, -⟩ := hputs.parks rfl hq
      refine ⟨hold, ?_⟩
      obtain ⟨-, -, handoff, -, hhandoff', -, hphase⟩ := hw.parking q id' hold
      rintro rfl
      obtain rfl := Option.some.inj (hhandoff'.symm.trans hhandoff)
      simp at hphase
  | inline hat hhandoff hhandoffs hsleepers hputs =>
      refine hw.of_set hordered hhandoffs fun q id' hq => ?_
      obtain ⟨hold, hne⟩ := hputs.parks rfl hq
      exact ⟨hold, hw.ne_of_parks hat rfl hold hne⟩
  | park hat hhandoff hhandoffs hsleepers hputs =>
      refine hw.of_set hordered hhandoffs fun q id' hq => ?_
      obtain ⟨hold, hne⟩ := hputs.parks rfl hq
      exact ⟨hold, hw.ne_of_parks hat rfl hold hne⟩

theorem Sound.of_does {a : Action} (hw : w.Sound) (h : w.does a = some w') : w'.Sound := by
  obtain ⟨hordered, hacts⟩ := hw.does h
  exact hw.of_acts hordered hacts

/-- An interpretation that gives way to another one at a place that was free is what is there now,
and the others are where they were. -/
theorem Puts.follow {p p' q : Place} {x : Pending H.Data H.Fn} (h : w.Puts w' p p' x)
    (hfree : p' = p ∨ w.pendingAt p' = none) {y : Pending H.Data H.Fn}
    (hq : w.pendingAt q = some y) :
    w'.pendingAt (if q = p then p' else q) = some (if q = p then x else y) := by
  by_cases heq : q = p
  · rw [if_pos heq, if_pos heq, h p', if_pos rfl]
  · have hne : q ≠ p' := by
      rintro rfl
      rcases hfree with rfl | hnone
      · exact heq rfl
      · rw [hq] at hnone
        contradiction
    rw [if_neg heq, if_neg heq, h q, if_neg hne, if_neg heq, hq]

/-- What an action does to the interpretation at `p`, which is in a stage and has a finisher. -/
inductive Follows (w w' : World H) (a : Action) (p : Place) (stage : Stage H.Data H.Fn)
    (finish : Finish H.Fn) : Prop where
  /-- Another one is moved, or none. -/
  | stays :
      (∀ deeds o, w.shift a ≠ .moved p deeds o) → w.next? a p = some p →
        w'.pendingAt p = some (stage, finish) →
          (w.deeds a p = [] ∨
              ∃ r id, stage.node? = some id ∧ w.deeds a p = [.call (.register r)]) →
            Follows w w' a p stage finish
  | moves {q : Place} {stage' : Stage H.Data H.Fn} :
      w.next? a p = some q → w'.pendingAt q = some (stage', finish) →
        stage.Step (w.deeds a p) (some stage') → Follows w w' a p stage finish
  | ends : w.next? a p = none → stage.Step (w.deeds a p) none → Follows w w' a p stage finish

section Follow

variable {a : Action} {p : Place} {stage : Stage H.Data H.Fn} {finish : Finish H.Fn}

/-- An action that moves another interpretation, or tries to. -/
theorem Follows.of_other {q : Place} {ds : List (Deed H.Data H.Fn)} {o : Option Place}
    (hshift : w.shift a = .moved q ds o) (hne : p ≠ q)
    (hsame : w'.pendingAt p = some (stage, finish)) : w.Follows w' a p stage finish := by
  refine .stays ?_ ?_ hsame (.inl ?_)
  · intro deeds o' heq
    rw [hshift] at heq
    exact hne (Shift.moved.inj heq).1.symm
  · simp only [next?, hshift, hne, if_false]
  · simp only [deeds, hshift, hne, if_false]

/-- An action that moves an interpretation from one place to another that is free. -/
theorem Follows.of_puts {q q' : Place} {x stage₀ : Stage H.Data H.Fn} {finish₀ : Finish H.Fn}
    {ds : List (Deed H.Data H.Fn)} (hp : w.pendingAt p = some (stage, finish))
    (hshift : w.shift a = .moved q ds (some q')) (hat : w.pendingAt q = some (stage₀, finish₀))
    (hfree : q' = q ∨ w.pendingAt q' = none) (hputs : w.Puts w' q q' (x, finish₀))
    (hstep : stage₀.Step ds (some x)) : w.Follows w' a p stage finish := by
  have hfollow := hputs.follow hfree hp
  by_cases heq : p = q
  · subst heq
    obtain ⟨rfl, rfl⟩ := Prod.mk.inj (Option.some.inj (hp.symm.trans hat))
    rw [if_pos rfl, if_pos rfl] at hfollow
    refine .moves ?_ hfollow ?_
    · simp only [next?, hshift, if_true]
    · simp only [deeds, hshift, if_true]
      exact hstep
  · rw [if_neg heq, if_neg heq] at hfollow
    exact .of_other hshift heq hfollow

/-- An action that tries to move an interpretation where there is none. -/
theorem Follows.of_refused {q : Place} {ds : List (Deed H.Data H.Fn)} {o : Option Place}
    (hp : w.pendingAt p = some (stage, finish)) (hshift : w.shift a = .moved q ds o)
    (hnone : w.pendingAt q = none) (hsame : w'.pendingAt p = w.pendingAt p) :
    w.Follows w' a p stage finish := by
  refine .of_other hshift ?_ (hsame.trans hp)
  rintro rfl
  rw [hp] at hnone
  contradiction

theorem Follows.of_idle (hp : w.pendingAt p = some (stage, finish)) (hidle : (w.shift a).IsIdle)
    (hsame : w'.pendingAt p = some (stage, finish)) : w.Follows w' a p stage finish := by
  cases hshift : w.shift a with
  | stay =>
      refine .stays (by simp [hshift]) ?_ hsame (.inl ?_)
      · simp only [next?, hshift]
      · simp only [deeds, hshift]
  | registered r id =>
      refine .stays (by simp [hshift]) ?_ hsame ?_
      · simp only [next?, hshift]
      · simp only [deeds, hshift, hp, Option.bind_some]
        split
        · rename_i hnode
          exact .inr ⟨r, id, hnode, rfl⟩
        · exact .inl rfl
  | moved q ds o =>
      rw [hshift] at hidle
      exact hidle.elim

theorem pendingAt_handoff_eq_none {id : HandoffId}
    (h : ∀ s frames finish, w.heap.handoffs[id]? ≠ some ⟨s, .parked frames finish⟩) :
    w.pendingAt (.handoff id) = none := by
  simp only [pendingAt, Heap.pendingAt]
  rcases hhandoff : w.heap.handoffs[id]? with _ | ⟨s, phase⟩
  · rfl
  · cases phase with
    | parked frames finish => exact absurd hhandoff (h s frames finish)
    | _ => rfl

/-- Every action follows the interpretation at every place. -/
theorem Sound.follows (hw : w.Sound) (h : w.does a = some w')
    (hp : w.pendingAt p = some (stage, finish)) : w.Follows w' a p stage finish := by
  obtain ⟨-, hacts⟩ := hw.does h
  generalize hshift : w.shift a = shift at hacts
  cases hacts with
  | keep hidle hcalm hsame => exact .of_idle hp (hshift ▸ hidle) ((hsame p).trans hp)
  | start hcalm hfree hputs =>
      refine .of_idle hp (hshift ▸ trivial) ?_
      have hfollow := hputs.follow (.inl rfl) hp
      have hne : ∀ {q}, w.pendingAt q = none → p ≠ q := by
        rintro q hnone rfl
        rw [hp] at hnone
        contradiction
      rwa [if_neg (hne hfree), if_neg (hne hfree)] at hfollow
  | goOn hcalm hat hstep hnode hparks hfree hputs =>
      refine .of_puts hp hshift hat (hfree.imp_left fun heq => ?_) hputs hstep
      rw [heq]
  | @ends t l stage₀ finish₀ ds hcalm hat hstep hclears =>
      by_cases heq : p = .thread t l
      · subst heq
        obtain ⟨rfl, rfl⟩ := Prod.mk.inj (Option.some.inj (hp.symm.trans hat))
        refine .ends ?_ ?_
        · simp only [next?, hshift, if_true]
        · simp only [deeds, hshift, if_true]
          exact hstep
      · refine .of_other hshift heq ?_
        rw [hclears p, if_neg heq, hp]
  | suspend hstep hdeeds hat hhandoffs hsleepers hputs =>
      exact .of_puts hp hshift hat (.inl rfl) hputs (hdeeds ▸ .suspend hstep)
  | early hhandoff hhandoffs hsleepers hsame =>
      exact .of_refused hp hshift (pendingAt_handoff_eq_none (by simp [hhandoff])) (hsame p)
  | wait hhandoff hne hhandoffs hsleepers hsame =>
      exact .of_refused hp hshift (pendingAt_handoff_eq_none (by simp [hhandoff])) (hsame p)
  | refuse hexit hcalm hsame =>
      refine .of_refused hp hshift (pendingAt_handoff_eq_none ?_) (hsame p)
      intro s frames finish hhandoff
      exact hexit _ hhandoff
  | @accept t s l id exit frames finish₀ hhandoff hhandoffs hsleepers hfree hputs =>
      have hat : w.pendingAt (.handoff id) = some (.parked id frames, finish₀) := by
        simp only [pendingAt, Heap.pendingAt, hhandoff]
        rfl
      exact .of_puts hp hshift hat (.inr hfree) hputs .deliver
  | inline hat hhandoff hhandoffs hsleepers hputs =>
      exact .of_puts hp hshift hat (.inl rfl) hputs .inline
  | park hat hhandoff hhandoffs hsleepers hputs =>
      exact .of_puts hp hshift hat (.inr (pendingAt_handoff_eq_none (by simp [hhandoff]))) hputs
        .park

end Follow

end World

end Trampoline
