import Trampoline.Proofs.Meetings

/-!
The exit of an async node and the stack that waits for it, over a run. At most one of the exits that
are offered is accepted, and the stack that was suspended goes on with it at one place: where the
submitter leaves the node, or where the exit is delivered, whichever comes later.
-/

namespace Trampoline

variable {H : Host}

theorem Handoff.isAccepted_iff {D F : Type} (h : Handoff D F) (t : ThreadId)
    (exit : Exit (Outcome D F)) :
    (h.offer t exit).2.IsAccepted ↔
      h.phase = .submitting ∧ t = h.submitter ∨
        ∃ frames finish, h.phase = .parked frames finish := by
  obtain ⟨s, phase⟩ := h
  cases phase with
  | submitting =>
      by_cases hs : t = s
      · simp [offer, hs, Offer.IsAccepted]
      · simp [offer, hs, Offer.IsAccepted]
  | early exit' => simp [offer, Offer.IsAccepted]
  | parked frames finish => simp [offer, Offer.IsAccepted]
  | resumed => simp [offer, Offer.IsAccepted]

namespace World

variable {w w' : World H} {t : ThreadId} {l : Nat} {id : HandoffId}
  {frames : List (Frame H.Data H.Fn)} {finish : Finish H.Fn} {exit : Exit (Outcome H.Data H.Fn)}

theorem Puts.pendingAt {p p' : Place} {x : Pending H.Data H.Fn} (h : w.Puts w' p p' x) :
    w'.pendingAt p' = some x := by
  rw [h p', if_pos rfl]

/-- The submitter leaves a node with the exit that is there, on the spot. -/
theorem Acts.of_inline (h : w.Acts w' (.moved (.thread t l) [.exit exit] (some (.thread t l))))
    (hat : w.pendingAt (.thread t l) = some (.leaving id frames, finish)) :
    w'.At id (· = .resumed) ∧
      w'.pendingAt (.thread t l) = some (.driving (.settle exit frames), finish) := by
  cases h with
  | keep hidle => exact hidle.elim
  | goOn hcalm hat' hstep hnode =>
      obtain ⟨rfl, rfl⟩ := Prod.mk.inj (Option.some.inj (hat.symm.trans hat'))
      cases hstep with
      | inline => contradiction
  | suspend hstep hdeeds hat' => simp [hat] at hat'
  | inline hat' hhandoff hhandoffs hsleepers hputs =>
      obtain ⟨heq, rfl⟩ := Prod.mk.inj (Option.some.inj (hat.symm.trans hat'))
      obtain ⟨rfl, rfl⟩ := Stage.leaving.inj heq
      obtain ⟨hlt, -⟩ := Array.getElem?_eq_some_iff.1 hhandoff
      refine ⟨?_, hputs.pendingAt⟩
      exact ⟨_, by rw [hhandoffs, Array.getElem?_setIfInBounds_self_of_lt hlt], rfl⟩

/-- The submitter leaves a node without an exit: the stack waits there. -/
theorem Acts.of_park (h : w.Acts w' (.moved (.thread t l) [] (some (.handoff id))))
    (hat : w.pendingAt (.thread t l) = some (.leaving id frames, finish)) :
    w'.At id (· = .parked frames finish) := by
  cases h with
  | keep hidle => exact hidle.elim
  | park hat' hhandoff hhandoffs hsleepers hputs =>
      obtain ⟨heq, rfl⟩ := Prod.mk.inj (Option.some.inj (hat.symm.trans hat'))
      obtain ⟨-, rfl⟩ := Stage.leaving.inj heq
      obtain ⟨hlt, -⟩ := Array.getElem?_eq_some_iff.1 hhandoff
      exact ⟨_, by rw [hhandoffs, Array.getElem?_setIfInBounds_self_of_lt hlt], rfl⟩

/-- An exit for a parked stack takes it along. -/
theorem Acts.of_accept (h : w.Acts w' (.moved (.handoff id) [.exit exit] (some (.thread t l))))
    (hat : w.At id (· = .parked frames finish)) :
    w'.At id (· = .resumed) ∧
      w'.pendingAt (.thread t l) = some (.resuming exit frames, finish) := by
  obtain ⟨⟨s, phase⟩, hhandoff, rfl⟩ := hat
  cases h with
  | keep hidle => exact hidle.elim
  | early hhandoff' => simp [hhandoff] at hhandoff'
  | wait hhandoff' => simp [hhandoff] at hhandoff'
  | refuse hexit => exact (hexit _ hhandoff).elim
  | accept hhandoff' hhandoffs hsleepers hfree hputs =>
      have heq := Option.some.inj (hhandoff.symm.trans hhandoff')
      simp only [Handoff.mk.injEq, Phase.parked.injEq] at heq
      obtain ⟨rfl, rfl, rfl⟩ := heq
      obtain ⟨hlt, -⟩ := Array.getElem?_eq_some_iff.1 hhandoff
      refine ⟨?_, hputs.pendingAt⟩
      exact ⟨_, by rw [hhandoffs, Array.getElem?_setIfInBounds_self_of_lt hlt], rfl⟩

theorem Acts.of_suspend {i : Interpretation H.Data H.Fn} {register : Register H.Fn}
    {scheduler : SchedulerId} {o : Option Place}
    (h : w.Acts w' (.moved (.thread t l) i.deeds o))
    (hat : w.pendingAt (.thread t l) = some (.driving i, finish))
    (hstep : i.step = .suspend register scheduler frames) :
    w'.heap.handoffs = w.heap.handoffs.push (.fresh t) := by
  have hdriving {stage : Stage H.Data H.Fn} {finish' : Finish H.Fn}
      (hat' : w.pendingAt (.thread t l) = some (stage, finish')) : stage = .driving i :=
    (Prod.mk.inj (Option.some.inj (hat'.symm.trans hat))).1
  generalize hdeeds : i.deeds = deeds at h
  cases h with
  | keep hidle => exact hidle.elim
  | goOn hcalm hat' hstep' hnode =>
      obtain rfl := hdriving hat'
      cases hstep' with
      | suspend => contradiction
      | _ => simp_all
  | ends hcalm hat' hstep' =>
      obtain rfl := hdriving hat'
      cases hstep'
  | suspend hstep' hdeeds' hat' hhandoffs => exact hhandoffs
  | inline hat' => exact absurd (hdriving hat') (by simp)
  | park hat' => exact absurd (hdriving hat') (by simp)

/-- Those that wait for the exit of a node did so before, or have just reached the node. -/
theorem Acts.waited {shift : Shift H.Data H.Fn} {q : Place} {stage' : Stage H.Data H.Fn}
    (h : w.Acts w' shift) (hq : w'.pendingAt q = some (stage', finish))
    (hnode : stage'.node? = some id) (hframes : stage'.frames? = some frames) :
    (∃ p stage, w.pendingAt p = some (stage, finish) ∧ stage.node? = some id ∧
        stage.frames? = some frames) ∨
      ∃ t l i register scheduler deeds o, shift = .moved (.thread t l) deeds o ∧
        w.pendingAt (.thread t l) = some (.driving i, finish) ∧
          i.step = .suspend register scheduler frames ∧ id = w.heap.handoffs.size := by
  have hstays (hsame : w.pendingAt q = some (stage', finish)) :
      ∃ p stage, w.pendingAt p = some (stage, finish) ∧ stage.node? = some id ∧
        stage.frames? = some frames := ⟨q, stage', hsame, hnode, hframes⟩
  cases h with
  | keep hidle hcalm hsame => exact .inl (hstays ((hsame q).symm.trans hq))
  | early hhandoff hhandoffs hsleepers hsame => exact .inl (hstays ((hsame q).symm.trans hq))
  | wait hhandoff hne hhandoffs hsleepers hsame => exact .inl (hstays ((hsame q).symm.trans hq))
  | refuse hexit hcalm hsame => exact .inl (hstays ((hsame q).symm.trans hq))
  | ends hcalm hat hstep hclears =>
      rw [hclears q] at hq
      split at hq
      · contradiction
      · exact .inl (hstays hq)
  | start hcalm hfree hputs =>
      rcases hputs.of_pendingAt hq with ⟨-, heq⟩ | ⟨-, -, hold⟩
      · obtain ⟨rfl, -⟩ := Prod.mk.inj heq
        contradiction
      · exact .inl (hstays hold)
  | goOn hcalm hat hstep hsame hparks hfree hputs =>
      rcases hputs.of_pendingAt hq with ⟨-, heq⟩ | ⟨-, -, hold⟩
      · obtain ⟨rfl, rfl⟩ := Prod.mk.inj heq
        -- A step that stays at its node keeps the stack.
        refine .inl ⟨_, _, hat, hsame ▸ hnode, ?_⟩
        generalize hmid : some stage' = o at hstep
        cases hstep <;> cases hmid <;> first | exact hframes | contradiction
      · exact .inl (hstays hold)
  | suspend hstep hdeeds hat hhandoffs hsleepers hputs =>
      rcases hputs.of_pendingAt hq with ⟨-, heq⟩ | ⟨-, -, hold⟩
      · obtain ⟨rfl, rfl⟩ := Prod.mk.inj heq
        obtain rfl := Option.some.inj hnode
        obtain rfl := Option.some.inj hframes
        exact .inr ⟨_, _, _, _, _, _, _, rfl, hat, hstep, rfl⟩
      · exact .inl (hstays hold)
  | accept hhandoff hhandoffs hsleepers hfree hputs =>
      rcases hputs.of_pendingAt hq with ⟨-, heq⟩ | ⟨-, -, hold⟩
      · obtain ⟨rfl, -⟩ := Prod.mk.inj heq
        contradiction
      · exact .inl (hstays hold)
  | inline hat hhandoff hhandoffs hsleepers hputs =>
      rcases hputs.of_pendingAt hq with ⟨-, heq⟩ | ⟨-, -, hold⟩
      · obtain ⟨rfl, -⟩ := Prod.mk.inj heq
        contradiction
      · exact .inl (hstays hold)
  | park hat hhandoff hhandoffs hsleepers hputs =>
      rcases hputs.of_pendingAt hq with ⟨-, heq⟩ | ⟨-, -, hold⟩
      · obtain ⟨rfl, rfl⟩ := Prod.mk.inj heq
        exact .inl ⟨_, _, hat, hnode, hframes⟩
      · exact .inl (hstays hold)

/-- Thread `t` gets another control and the heap becomes `heap`; nothing else changes. -/
structure Changes (w w' : World H) (t : ThreadId) (before after : Control H)
    (heap : Heap H.Data H.Fn) : Prop where
  thread : ∃ name stack, w.threads[t]? = some ⟨name, before, stack⟩ ∧
    w'.threads[t]? = some ⟨name, after, stack⟩
  others : ∀ t', t' ≠ t → w'.threads[t']? = w.threads[t']?
  heap : w'.heap = heap
  state : w'.state = w.state
  next : w'.next = w.next

theorem Ordered.changes_apply (hw : w.Ordered) {name : Option String} {before : Control H}
    {stack : List (Return H)} (ht : w.threads[t]? = some ⟨name, before, stack⟩)
    (after : Control H) (heap : Heap H.Data H.Fn) :
    w.Changes (World.apply w.state w.threads w.next t name stack ⟨heap, [], after, none, none⟩)
      t before after heap where
  thread := by
    refine ⟨name, stack, ht, ?_⟩
    rw [hw.threads_apply ht, if_pos rfl]
    rfl
  others t' hne := by
    rw [hw.threads_apply ht, if_neg hne]
    split
    · rename_i heq
      rw [heq, hw.numbered _ (Nat.le_refl _)]
    · rcases w.threads[t']? with _ | thread
      · rfl
      · rfl
  heap := heap_apply
  state := state_apply
  next := rfl

end World

/-- What comes of a rejected exit: the guard of a registration goes on with its panic, and a
callback records that it came too late. -/
inductive Origin.GivesBack (heap : Heap H.Data H.Fn) :
    Origin → Exit (Outcome H.Data H.Fn) → Control H → Heap H.Data H.Fn → Prop where
  | panic {payload : Payload} :
      GivesBack heap .registration (.panicked payload) (.raise payload) heap
  | late {origin : Origin} {exit : Exit (Outcome H.Data H.Fn)} :
      (origin = .completion ∨ ∃ outcome, exit = .settled outcome) →
        GivesBack heap origin exit (.ret .unit) (heap.emit .ignoredCompletion)

namespace Run

variable (r : Run H)

/-- At time `n` thread `t` runs a call that offers an exit to an async node. -/
def Offers (n : Nat) (t : ThreadId) (id : HandoffId) (exit : Exit (Outcome H.Data H.Fn))
    (origin : Origin) : Prop :=
  r.action n = .thread t ∧ ∃ name stack,
    (r.world n).threads[t]? = some ⟨name, .run (.deliver id exit origin), stack⟩

/-- The offer is accepted: it is kept for the submitter, or it takes the parked stack. -/
def Accepts (n : Nat) (t : ThreadId) (id : HandoffId) (exit : Exit (Outcome H.Data H.Fn)) : Prop :=
  ∃ origin handoff, r.Offers n t id exit origin ∧ (r.world n).heap.handoffs[id]? = some handoff ∧
    (handoff.offer t exit).2.IsAccepted

def Rejects (n : Nat) (t : ThreadId) (id : HandoffId) (exit : Exit (Outcome H.Data H.Fn))
    (origin : Origin) : Prop :=
  r.Offers n t id exit origin ∧ ∃ handoff, (r.world n).heap.handoffs[id]? = some handoff ∧
    (handoff.offer t exit).2 = .rejected

/-- At time `n` an interpretation reaches an async node, with these frames and this finisher. -/
def Suspends (n : Nat) (id : HandoffId) (frames : List (Frame H.Data H.Fn))
    (finish : Finish H.Fn) : Prop :=
  ∃ t name i last stack register scheduler, r.action n = .thread t ∧
    (r.world n).threads[t]? = some ⟨name, .run (.drive i last finish), stack⟩ ∧
      i.step = .suspend register scheduler frames ∧ id = (r.world n).heap.handoffs.size

/-- At time `n` the frames and the finisher that wait for an async node go on with an exit at a
place: where the submitter leaves the node, or where an exit is delivered. -/
inductive HandsOver (n : Nat) (id : HandoffId) : List (Frame H.Data H.Fn) → Finish H.Fn →
    Exit (Outcome H.Data H.Fn) → Place → Prop where
  | inline {t : ThreadId} {name : Option String} {frames : List (Frame H.Data H.Fn)} {last : Kept}
      {finish : Finish H.Fn} {stack : List (Return H)} {handoff : Handoff H.Data H.Fn}
      {exit : Exit (Outcome H.Data H.Fn)} :
      r.action n = .thread t →
        (r.world n).threads[t]? = some ⟨name, .run (.park id frames last finish), stack⟩ →
          (r.world n).heap.handoffs[id]? = some handoff →
            (handoff.leave frames finish).2 = some exit →
              HandsOver n id frames finish exit (.thread t stack.length)
  | resume {t : ThreadId} {name : Option String} {frames : List (Frame H.Data H.Fn)}
      {finish : Finish H.Fn} {stack : List (Return H)} {handoff : Handoff H.Data H.Fn}
      {exit : Exit (Outcome H.Data H.Fn)} {origin : Origin} :
      r.action n = .thread t →
        (r.world n).threads[t]? = some ⟨name, .run (.deliver id exit origin), stack⟩ →
          (r.world n).heap.handoffs[id]? = some handoff →
            (handoff.offer t exit).2 = .accepted frames finish →
              HandsOver n id frames finish exit (.thread t stack.length)

variable {r}

theorem Offers.acts {n : Nat} {t : ThreadId} {id : HandoffId} {exit : Exit (Outcome H.Data H.Fn)}
    {origin : Origin} (h : r.Offers n t id exit origin) :
    ∃ l, (r.world n).Acts (r.world (n + 1)) (.moved (.handoff id) [.exit exit]
      (some (.thread t l))) := by
  obtain ⟨haction, name, stack, ht⟩ := h
  have hacts := r.acts n
  rw [haction, World.shift_thread ht] at hacts
  exact ⟨stack.length, hacts⟩

theorem Offers.eq {n : Nat} {t t' : ThreadId} {id : HandoffId}
    {exit exit' : Exit (Outcome H.Data H.Fn)} {origin origin' : Origin}
    (h : r.Offers n t id exit origin) (h' : r.Offers n t' id exit' origin') :
    t = t' ∧ exit = exit' := by
  obtain ⟨haction, name, stack, ht⟩ := h
  obtain ⟨haction', name', stack', ht'⟩ := h'
  obtain rfl := Action.thread.inj (haction.symm.trans haction')
  have heq := Option.some.inj (ht.symm.trans ht')
  simp only [Thread.mk.injEq, Control.run.injEq, Task.deliver.injEq] at heq
  exact ⟨rfl, heq.2.1.2.1⟩

theorem Accepts.hasExit {n : Nat} {t : ThreadId} {id : HandoffId}
    {exit : Exit (Outcome H.Data H.Fn)} (h : r.Accepts n t id exit) :
    ¬(r.world n).At id Phase.HasExit ∧ (r.world (n + 1)).At id Phase.HasExit := by
  obtain ⟨origin, handoff, hoffers, hhandoff, haccepted⟩ := h
  obtain ⟨l, hacts⟩ := hoffers.acts
  obtain ⟨hlt, -⟩ := Array.getElem?_eq_some_iff.1 hhandoff
  have hphase := (handoff.isAccepted_iff t exit).1 haccepted
  refine ⟨?_, ?_⟩
  · rintro ⟨handoff', hhandoff', hexit⟩
    obtain rfl := Option.some.inj (hhandoff'.symm.trans hhandoff)
    rcases hphase with ⟨hphase, -⟩ | ⟨frames, finish, hphase⟩
    · rw [hphase] at hexit
      exact hexit
    · rw [hphase] at hexit
      exact hexit
  · cases hacts with
    | keep hidle => exact hidle.elim
    | early hhandoff' hhandoffs =>
        refine ⟨⟨t, .early exit⟩, ?_, trivial⟩
        rw [hhandoffs, Array.getElem?_setIfInBounds_self_of_lt hlt]
    | wait hhandoff' hne =>
        obtain rfl := Option.some.inj (hhandoff.symm.trans hhandoff')
        rcases hphase with ⟨-, heq⟩ | ⟨frames, finish, hphase⟩
        · exact absurd heq hne
        · contradiction
    | refuse hexit =>
        have hsettled := hexit _ hhandoff
        rcases hphase with ⟨hphase, -⟩ | ⟨frames, finish, hphase⟩
        · rw [hphase] at hsettled
          exact hsettled.elim
        · rw [hphase] at hsettled
          exact hsettled.elim
    | @accept _ s _ _ _ frames finish hhandoff' hhandoffs =>
        refine ⟨⟨s, .resumed⟩, ?_, trivial⟩
        rw [hhandoffs, Array.getElem?_setIfInBounds_self_of_lt hlt]

theorem hasExit_le {n m : Nat} {id : HandoffId} (h : (r.world n).At id Phase.HasExit)
    (hnm : n ≤ m) : (r.world m).At id Phase.HasExit := by
  induction hnm with
  | refl => exact h
  | step _ ih => exact (r.acts _).hasExit ih

theorem Accepts.unique {n m : Nat} {t t' : ThreadId} {id : HandoffId}
    {exit exit' : Exit (Outcome H.Data H.Fn)} (h : r.Accepts n t id exit)
    (h' : r.Accepts m t' id exit') : n = m ∧ t = t' ∧ exit = exit' := by
  -- An accepted offer finds no exit and leaves one, and a node keeps its exit.
  rcases Nat.lt_trichotomy n m with hlt | rfl | hgt
  · exact absurd (hasExit_le h.hasExit.2 hlt) h'.hasExit.1
  · obtain ⟨origin, handoff, hoffers, -⟩ := h
    obtain ⟨origin', handoff', hoffers', -⟩ := h'
    exact ⟨rfl, hoffers.eq hoffers'⟩
  · exact absurd (hasExit_le h'.hasExit.2 hgt) h.hasExit.1

/-- A stack is handed over once, since the meeting point is over then: what was suspended goes on
with the exit. -/
theorem HandsOver.spec {n : Nat} {id : HandoffId} {frames : List (Frame H.Data H.Fn)}
    {finish : Finish H.Fn} {exit : Exit (Outcome H.Data H.Fn)} {p : Place}
    (h : r.HandsOver n id frames finish exit p) :
    ¬(r.world n).At id (· = .resumed) ∧ (r.world (n + 1)).At id (· = .resumed) ∧
      ∃ stage, (r.world (n + 1)).pendingAt p = some (stage, finish) ∧
        (stage = .driving (.settle exit frames) ∨ stage = .resuming exit frames) := by
  have hbefore {s : ThreadId} {phase : Phase H.Data H.Fn}
      (hhandoff : (r.world n).heap.handoffs[id]? = some ⟨s, phase⟩) (hphase : phase ≠ .resumed) :
      ¬(r.world n).At id (· = .resumed) := by
    rintro ⟨handoff, hhandoff', hresumed⟩
    obtain rfl := Option.some.inj (hhandoff'.symm.trans hhandoff)
    exact hphase hresumed
  have hacts := r.acts n
  cases h with
  | @inline t name _ last _ stack handoff _ haction ht hhandoff hleave =>
      obtain ⟨s, phase⟩ := handoff
      cases phase with
      | early exit' =>
          obtain rfl := Option.some.inj hleave
          rw [haction, World.shift_thread ht] at hacts
          simp only [World.turnShift, hhandoff] at hacts
          obtain ⟨hresumed, hat⟩ := hacts.of_inline (World.pendingAt_run ht)
          exact ⟨hbefore hhandoff (by simp), hresumed, _, hat, .inl rfl⟩
      | _ => contradiction
  | @resume t name _ _ stack handoff _ origin haction ht hhandoff haccepted =>
      obtain ⟨s, phase⟩ := handoff
      rw [haction, World.shift_thread ht] at hacts
      cases phase with
      | parked frames' finish' =>
          obtain ⟨rfl, rfl⟩ := Offer.accepted.inj haccepted
          obtain ⟨hresumed, hat⟩ := hacts.of_accept ⟨_, hhandoff, rfl⟩
          exact ⟨hbefore hhandoff (by simp), hresumed, _, hat, .inr rfl⟩
      | submitting =>
          simp only [Handoff.offer] at haccepted
          split at haccepted <;> contradiction
      | _ => contradiction

theorem isResumed_le {n m : Nat} {id : HandoffId} (h : (r.world n).At id (· = .resumed))
    (hnm : n ≤ m) : (r.world m).At id (· = .resumed) := by
  induction hnm with
  | refl => exact h
  | @step m _ ih =>
      obtain ⟨⟨s, phase⟩, hhandoff, rfl⟩ := ih
      obtain ⟨phase', hhandoff', hturns⟩ := (r.acts m).turns hhandoff
      refine ⟨_, hhandoff', ?_⟩
      generalize (r.world m).shift (r.action m) = shift at hturns
      cases hturns
      rfl

theorem HandsOver.unique {n m : Nat} {id : HandoffId} {frames frames' : List (Frame H.Data H.Fn)}
    {finish finish' : Finish H.Fn} {exit exit' : Exit (Outcome H.Data H.Fn)} {p p' : Place}
    (h : r.HandsOver n id frames finish exit p) (h' : r.HandsOver m id frames' finish' exit' p') :
    n = m ∧ frames = frames' ∧ finish = finish' ∧ exit = exit' ∧ p = p' := by
  rcases Nat.lt_trichotomy n m with hlt | rfl | hgt
  · exact absurd (isResumed_le h.spec.2.1 hlt) h'.spec.1
  · refine ⟨rfl, ?_⟩
    cases h with
    | inline haction ht hhandoff hleave =>
        cases h' with
        | inline haction' ht' hhandoff' hleave' =>
            obtain rfl := Action.thread.inj (haction.symm.trans haction')
            have heq := Option.some.inj (ht.symm.trans ht')
            simp only [Thread.mk.injEq, Control.run.injEq, Task.park.injEq, true_and] at heq
            obtain ⟨-, ⟨rfl, -, rfl⟩, rfl⟩ := heq
            obtain rfl := Option.some.inj (hhandoff.symm.trans hhandoff')
            exact ⟨rfl, rfl, Option.some.inj (hleave.symm.trans hleave'), rfl⟩
        | resume haction' ht' =>
            obtain rfl := Action.thread.inj (haction.symm.trans haction')
            simp [ht] at ht'
    | resume haction ht hhandoff haccepted =>
        cases h' with
        | inline haction' ht' =>
            obtain rfl := Action.thread.inj (haction.symm.trans haction')
            simp [ht] at ht'
        | resume haction' ht' hhandoff' haccepted' =>
            obtain rfl := Action.thread.inj (haction.symm.trans haction')
            have heq := Option.some.inj (ht.symm.trans ht')
            simp only [Thread.mk.injEq, Control.run.injEq, Task.deliver.injEq, true_and] at heq
            obtain ⟨-, ⟨rfl, -⟩, rfl⟩ := heq
            obtain rfl := Option.some.inj (hhandoff.symm.trans hhandoff')
            obtain ⟨rfl, rfl⟩ := Offer.accepted.inj (haccepted.symm.trans haccepted')
            exact ⟨rfl, rfl, rfl, rfl⟩
  · exact absurd (isResumed_le h'.spec.2.1 hgt) h.spec.1

/-- An exit that is kept for the submitter has been accepted. -/
theorem exists_accepts_of_early {n : Nat} {id : HandoffId} {s : ThreadId}
    {exit : Exit (Outcome H.Data H.Fn)}
    (h : (r.world n).heap.handoffs[id]? = some ⟨s, .early exit⟩) :
    ∃ m, m < n ∧ r.Accepts m s id exit := by
  induction n with
  | zero => simp [r.initial.handoffs] at h
  | succ n ih =>
      have hacts := r.acts n
      generalize hshift : (r.world n).shift (r.action n) = shift at hacts
      rcases hacts.turned h with hphase | ⟨phase, hhandoff, hturns⟩
      · contradiction
      · cases hturns with
        | same =>
            obtain ⟨m, hm, haccepts⟩ := ih hhandoff
            exact ⟨m, Nat.lt_succ_of_lt hm, haccepts⟩
        | early =>
            obtain ⟨t, name, exit', origin, stack, haction, ht, hdeeds, hplace⟩ :=
              World.deliver_of_shift hshift
            obtain rfl := (Place.thread.inj (Option.some.inj hplace)).1
            simp only [List.cons.injEq, Deed.exit.injEq, and_true] at hdeeds
            subst hdeeds
            refine ⟨n, Nat.lt_succ_self n, origin, _, ⟨haction, name, stack, ht⟩, hhandoff, ?_⟩
            simp [Handoff.offer, Offer.IsAccepted]

/-- What waits for the exit of a node was suspended there. -/
theorem exists_suspends {n : Nat} {q : Place} {stage : Stage H.Data H.Fn} {finish : Finish H.Fn}
    {id : HandoffId} {frames : List (Frame H.Data H.Fn)}
    (hq : (r.world n).pendingAt q = some (stage, finish)) (hnode : stage.node? = some id)
    (hframes : stage.frames? = some frames) : ∃ k, k < n ∧ r.Suspends k id frames finish := by
  induction n generalizing q stage with
  | zero =>
      rw [r.initial.pendingAt] at hq
      contradiction
  | succ n ih =>
      rcases (r.acts n).waited hq hnode hframes with
        ⟨p, stage', hp, hnode', hframes'⟩ |
          ⟨t, l, i, register, scheduler, deeds, o, hshift, hat, hstep, hid⟩
      · obtain ⟨k, hk, hsuspends⟩ := ih hp hnode' hframes'
        exact ⟨k, Nat.lt_succ_of_lt hk, hsuspends⟩
      · refine ⟨n, Nat.lt_succ_self n, ?_⟩
        obtain ⟨t', name, task, stack, hplace, ht, htask⟩ := World.active_of_pendingAt hat trivial
        obtain ⟨rfl, -⟩ := Place.thread.inj hplace
        cases task with
        | drive i' last finish' =>
            obtain ⟨heq, rfl⟩ := Prod.mk.inj (Option.some.inj htask)
            obtain rfl := Stage.driving.inj heq
            exact ⟨t, name, _, last, stack, register, scheduler, World.action_of_shift hshift, ht,
              hstep, hid⟩
        | park => simp [Task.pending?] at htask
        | resume => simp [Task.pending?] at htask
        | conclude => simp [Task.pending?] at htask
        | _ => contradiction

theorem handoffs_size_le {n m : Nat} (hnm : n ≤ m) :
    (r.world n).heap.handoffs.size ≤ (r.world m).heap.handoffs.size := by
  induction hnm with
  | refl => exact Nat.le_refl _
  | @step m _ ih =>
      refine Nat.le_trans ih (Nat.le_of_not_lt fun hlt => ?_)
      obtain ⟨phase', hhandoff', -⟩ := (r.acts m).turns (Array.getElem?_eq_getElem hlt)
      simp at hhandoff'

theorem Suspends.unique {n m : Nat} {id : HandoffId} {frames frames' : List (Frame H.Data H.Fn)}
    {finish finish' : Finish H.Fn} (h : r.Suspends n id frames finish)
    (h' : r.Suspends m id frames' finish') : n = m ∧ frames = frames' ∧ finish = finish' := by
  have hlate {n m : Nat} {frames frames' : List (Frame H.Data H.Fn)} {finish finish' : Finish H.Fn}
      (h : r.Suspends n id frames finish) (h' : r.Suspends m id frames' finish') : ¬n < m := by
    intro hlt
    obtain ⟨t, name, i, last, stack, register, scheduler, haction, ht, hstep, rfl⟩ := h
    obtain ⟨t', name', i', last', stack', register', scheduler', -, -, -, hid'⟩ := h'
    have hacts := r.acts n
    rw [haction, World.shift_thread ht] at hacts
    simp only [World.turnShift, hstep] at hacts
    have hpush := hacts.of_suspend (World.pendingAt_run ht) hstep
    have hsize := handoffs_size_le (r := r) hlt
    rw [hpush, Array.size_push, ← hid'] at hsize
    exact absurd hsize (Nat.not_succ_le_self _)
  -- A node has the number of nodes reached before it, which grows when it is reached.
  rcases Nat.lt_trichotomy n m with hlt | rfl | hgt
  · exact absurd hlt (hlate h h')
  · obtain ⟨t, name, i, last, stack, register, scheduler, haction, ht, hstep, -⟩ := h
    obtain ⟨t', name', i', last', stack', register', scheduler', haction', ht', hstep', -⟩ := h'
    obtain rfl := Action.thread.inj (haction.symm.trans haction')
    have heq := Option.some.inj (ht.symm.trans ht')
    simp only [Thread.mk.injEq, Control.run.injEq, Task.drive.injEq] at heq
    obtain ⟨-, ⟨rfl, -, rfl⟩, -⟩ := heq
    obtain ⟨-, -, rfl⟩ := Progress.suspend.inj (hstep.symm.trans hstep')
    exact ⟨rfl, rfl, rfl⟩
  · exact absurd hgt (hlate h' h)

/-- What is handed over is what was suspended at the node, and the exit is the one that was
accepted. -/
theorem HandsOver.exists_suspends {n : Nat} {id : HandoffId}
    {frames : List (Frame H.Data H.Fn)} {finish : Finish H.Fn}
    {exit : Exit (Outcome H.Data H.Fn)} {p : Place} (h : r.HandsOver n id frames finish exit p) :
    (∃ k, k < n ∧ r.Suspends k id frames finish) ∧ ∃ m t, m ≤ n ∧ r.Accepts m t id exit := by
  cases h with
  | @inline t name _ last _ stack handoff _ haction ht hhandoff hleave =>
      refine ⟨Run.exists_suspends (World.pendingAt_run ht) rfl rfl, ?_⟩
      obtain ⟨s, phase⟩ := handoff
      cases phase with
      | early exit' =>
          obtain rfl := Option.some.inj hleave
          obtain ⟨m, hm, haccepts⟩ := exists_accepts_of_early hhandoff
          exact ⟨m, s, Nat.le_of_lt hm, haccepts⟩
      | _ => contradiction
  | @resume t name _ _ stack handoff _ origin haction ht hhandoff haccepted =>
      obtain ⟨s, phase⟩ := handoff
      cases phase with
      | parked frames' finish' =>
          obtain ⟨rfl, rfl⟩ := Offer.accepted.inj haccepted
          have hat : (r.world n).pendingAt (.handoff id) =
              some (.parked id frames', finish') := by
            simp only [World.pendingAt, Heap.pendingAt, hhandoff]
            rfl
          exact ⟨Run.exists_suspends hat rfl rfl, n, t, Nat.le_refl n, origin, _,
            ⟨haction, name, stack, ht⟩, hhandoff, trivial⟩
      | submitting =>
          simp only [Handoff.offer] at haccepted
          split at haccepted <;> contradiction
      | _ => contradiction

/-- A stack that has been parked stays parked while the node has no exit. -/
theorem isParked_le {n m : Nat} {id : HandoffId} {frames : List (Frame H.Data H.Fn)}
    {finish : Finish H.Fn} (h : (r.world n).At id (· = .parked frames finish)) (hnm : n ≤ m)
    (hm : ¬(r.world m).At id Phase.HasExit) : (r.world m).At id (· = .parked frames finish) := by
  induction hnm with
  | refl => exact h
  | @step m _ ih =>
      have hbefore : ¬(r.world m).At id Phase.HasExit := fun hexit => hm ((r.acts m).hasExit hexit)
      obtain ⟨⟨s, phase⟩, hhandoff, rfl⟩ := ih hbefore
      obtain ⟨phase', hhandoff', hturns⟩ := (r.acts m).turns hhandoff
      generalize (r.world m).shift (r.action m) = shift at hturns
      cases hturns with
      | same => exact ⟨_, hhandoff', rfl⟩
      | accept => exact absurd ⟨_, hhandoff', trivial⟩ hm

/-- The stack of a node that its submitter has left and that has got an exit is handed over, as soon
as both have come about. -/
theorem exists_handsOver {k n m : Nat} {id : HandoffId} {frames : List (Frame H.Data H.Fn)}
    {finish : Finish H.Fn} {t : ThreadId} {exit : Exit (Outcome H.Data H.Fn)}
    (hsuspends : r.Suspends k id frames finish) (hleaves : r.Leaves n id)
    (haccepts : r.Accepts m t id exit) : ∃ p, r.HandsOver (max n m) id frames finish exit p := by
  obtain ⟨t₀, name, frames', last, finish', stack, haction, ht⟩ := hleaves
  have hat := World.pendingAt_run ht
  obtain ⟨k', -, hsuspends'⟩ := Run.exists_suspends hat rfl rfl
  obtain ⟨-, rfl, rfl⟩ := hsuspends.unique hsuspends'
  obtain ⟨-, -, ⟨s, phase⟩, -, hhandoff, -, hphase⟩ := (r.sound n).parking _ id ⟨_, _, hat, rfl⟩
  rcases hphase with rfl | ⟨exit', rfl⟩
  · -- The exit comes after the submitter has parked the stack.
    have hlt : n < m := by
      rcases Nat.lt_trichotomy n m with hlt | rfl | hgt
      · exact hlt
      · obtain ⟨origin, handoff, ⟨haction', name', stack', ht'⟩, -⟩ := haccepts
        obtain rfl := Action.thread.inj (haction.symm.trans haction')
        simp [ht] at ht'
      · obtain ⟨handoff, hhandoff', hexit⟩ := hasExit_le haccepts.hasExit.2 hgt
        obtain rfl := Option.some.inj (hhandoff'.symm.trans hhandoff)
        exact hexit.elim
    have hacts := r.acts n
    rw [haction, World.shift_thread ht] at hacts
    simp only [World.turnShift, hhandoff] at hacts
    obtain ⟨⟨s', phase⟩, hparked, rfl⟩ := isParked_le (hacts.of_park hat) hlt haccepts.hasExit.1
    obtain ⟨origin, handoff, ⟨haction', name', stack', ht'⟩, -⟩ := haccepts
    rw [Nat.max_eq_right (Nat.le_of_lt hlt)]
    exact ⟨_, .resume haction' ht' hparked rfl⟩
  · -- The submitter finds the exit when it leaves.
    obtain ⟨m', hm', haccepts'⟩ := exists_accepts_of_early hhandoff
    obtain ⟨rfl, -, rfl⟩ := haccepts.unique haccepts'
    rw [Nat.max_eq_left (Nat.le_of_lt hm')]
    exact ⟨_, .inline haction ht hhandoff rfl⟩

/-- A rejected exit changes nothing, and its thread gets it back. -/
theorem Rejects.givesBack {n : Nat} {t : ThreadId} {id : HandoffId}
    {exit : Exit (Outcome H.Data H.Fn)} {origin : Origin} (h : r.Rejects n t id exit origin) :
    ∃ control heap,
      (r.world n).Changes (r.world (n + 1)) t (.run (.deliver id exit origin)) control heap ∧
        Origin.GivesBack (r.world n).heap origin exit control heap := by
  obtain ⟨⟨haction, name, stack, ht⟩, handoff, hhandoff, hrejected⟩ := h
  have hchanges {heap : Heap H.Data H.Fn} {control : Control H}
      (hturn : Task.deliverTurn ⟨t, name⟩ (r.world n).heap id exit origin =
        ⟨heap, [], control, none, none⟩) :
      (r.world n).Changes (r.world (n + 1)) t (.run (.deliver id exit origin)) control heap := by
    have hstep := r.step n
    rw [haction] at hstep
    have hact := Option.some.inj ((World.step_run ht).symm.trans hstep)
    have happly : r.world (n + 1) = World.apply (r.world n).state (r.world n).threads
        (r.world n).next t name stack ⟨heap, [], control, none, none⟩ := by
      rw [← hact, ← hturn]
      rfl
    rw [happly]
    exact (r.ordered n).changes_apply ht control heap
  have hoffer : handoff.offer t exit = (handoff, .rejected) :=
    Prod.ext (Handoff.offer_eq_of_rejected hrejected) hrejected
  have hlate (horigin : origin = .completion ∨ ∃ outcome, exit = .settled outcome) :
      Task.deliverTurn (H := H) ⟨t, name⟩ (r.world n).heap id exit origin =
        ⟨(r.world n).heap.emit .ignoredCompletion, [], .ret .unit, none, none⟩ := by
    rcases horigin with rfl | ⟨outcome, rfl⟩
    · simp only [Task.deliverTurn, hhandoff, hoffer]
      rfl
    · cases origin with
      | completion =>
          simp only [Task.deliverTurn, hhandoff, hoffer]
          rfl
      | registration =>
          simp only [Task.deliverTurn, hhandoff, hoffer]
          rfl
  cases origin with
  | completion => exact ⟨_, _, hchanges (hlate (.inl rfl)), .late (.inl rfl)⟩
  | registration =>
      cases exit with
      | settled outcome =>
          exact ⟨_, _, hchanges (hlate (.inr ⟨outcome, rfl⟩)), .late (.inr ⟨outcome, rfl⟩)⟩
      | panicked payload =>
          refine ⟨.raise payload, (r.world n).heap, hchanges ?_, .panic⟩
          simp only [Task.deliverTurn, hhandoff, hoffer]
          rfl

end Run

end Trampoline
