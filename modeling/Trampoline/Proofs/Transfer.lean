import Trampoline.Proofs.Progress

/-!
The thread on which an interpretation goes on. Only the thread that has it takes it further, and it
changes threads at async nodes only: what waits at a node goes on where the accepted exit was
delivered, up to the next node.
-/

namespace Trampoline

variable {H : Host}

namespace Deed

variable {D F : Type}

/-- Whether a deed is the call of a registration, which whoever has been handed it makes. -/
def IsRegistration : Deed D F → Prop
  | .call (.register _) => True
  | _ => False

/-- Whether an async node is reached. -/
def IsSubmit : Deed D F → Prop
  | .submit _ _ => True
  | _ => False

end Deed

namespace World

/-- What an action does to the interpretation at `p`, and on which thread. -/
inductive Carries (w w' : World H) (a : Action) (p : Place) (stage : Stage H.Data H.Fn)
    (finish : Finish H.Fn) : Prop where
  | stays :
      w.next? a p = some p → w'.pendingAt p = some (stage, finish) →
        (w.deeds a p = [] ∨
            ∃ r id, stage.node? = some id ∧ w.deeds a p = [.call (.register r)]) →
          (∀ deeds o, w.shift a ≠ .moved p deeds o) → Carries w w' a p stage finish
  | goOn {t : ThreadId} {l l' : Nat} {stage' : Stage H.Data H.Fn} :
      p = .thread t l → a = .thread t → w.next? a p = some (.thread t l') →
        w'.pendingAt (.thread t l') = some (stage', finish) →
          stage.Step (w.deeds a p) (some stage') → stage'.node? = stage.node? →
            Carries w w' a p stage finish
  | ends {t : ThreadId} {l : Nat} :
      p = .thread t l → a = .thread t → w.next? a p = none → stage.Step (w.deeds a p) none →
        Carries w w' a p stage finish
  | suspend {t : ThreadId} {l : Nat} {i : Interpretation H.Data H.Fn} {r : Register H.Fn}
      {scheduler : SchedulerId} {frames : List (Frame H.Data H.Fn)} :
      p = .thread t l → a = .thread t → stage = .driving i →
        i.step = .suspend r scheduler frames → w.deeds a p = i.deeds →
          w.next? a p = some (.thread t l) →
            w'.pendingAt (.thread t l) =
                some (.submitting w.heap.handoffs.size frames, finish) →
              Carries w w' a p stage finish
  | inline {t s : ThreadId} {l : Nat} {id : HandoffId} {exit : Exit (Outcome H.Data H.Fn)}
      {frames : List (Frame H.Data H.Fn)} :
      p = .thread t l → a = .thread t → stage = .leaving id frames →
        w.heap.handoffs[id]? = some ⟨s, .early exit⟩ → w.deeds a p = [.exit exit] →
          w.next? a p = some (.thread t l) →
            w'.pendingAt (.thread t l) = some (.driving (.settle exit frames), finish) →
              Carries w w' a p stage finish
  | park {t : ThreadId} {l : Nat} {id : HandoffId} {frames : List (Frame H.Data H.Fn)} :
      p = .thread t l → a = .thread t → stage = .leaving id frames → w.deeds a p = [] →
        w.next? a p = some (.handoff id) →
          w'.pendingAt (.handoff id) = some (.parked id frames, finish) →
            Carries w w' a p stage finish
  | accept {t s : ThreadId} {id : HandoffId} {name : Option String}
      {exit : Exit (Outcome H.Data H.Fn)} {origin : Origin} {stack : List (Return H)}
      {frames : List (Frame H.Data H.Fn)} :
      p = .handoff id → a = .thread t → stage = .parked id frames →
        w.threads[t]? = some ⟨name, .run (.deliver id exit origin), stack⟩ →
          w.heap.handoffs[id]? = some ⟨s, .parked frames finish⟩ → w.deeds a p = [.exit exit] →
            w.next? a p = some (.thread t stack.length) →
              w'.pendingAt (.thread t stack.length) = some (.resuming exit frames, finish) →
                Carries w w' a p stage finish

variable {w w' : World H} {a : Action} {p : Place} {stage : Stage H.Data H.Fn}
  {finish : Finish H.Fn}

/-- An interpretation that an action does not move stays as it is. -/
theorem Carries.of_other (hp : w.pendingAt p = some (stage, finish))
    (hother : ∀ deeds o, w.shift a ≠ .moved p deeds o)
    (hsame : w'.pendingAt p = some (stage, finish)) : w.Carries w' a p stage finish := by
  have hne {q : Place} {deeds : List (Deed H.Data H.Fn)} {o : Option Place}
      (hshift : w.shift a = .moved q deeds o) : p ≠ q := by
    rintro rfl
    exact hother deeds o hshift
  refine .stays (next?_of_other hother) hsame ?_ hother
  simp only [deeds]
  split
  · rename_i q deeds o hshift
    exact .inl (if_neg (hne hshift))
  · rename_i r id hshift
    simp only [hp, Option.bind_some]
    split
    · rename_i hnode
      exact .inr ⟨r, id, hnode, rfl⟩
    · exact .inl rfl
  · exact .inl rfl

/-- What an action does not move is the same afterwards. -/
theorem Sound.pendingAt_of_other (hw : w.Sound) (h : w.does a = some w')
    (hp : w.pendingAt p = some (stage, finish))
    (hother : ∀ deeds o, w.shift a ≠ .moved p deeds o) :
    w'.pendingAt p = some (stage, finish) := by
  obtain ⟨-, hacts⟩ := hw.does h
  generalize w.shift a = shift at hacts hother
  have hne {q : Place} {deeds : List (Deed H.Data H.Fn)} {o : Option Place}
      (hshift : shift = .moved q deeds o) : p ≠ q := by
    rintro rfl
    exact hother deeds o hshift
  -- The place that another one takes is free, so it is not `p`.
  have hputs {q q' : Place} {x : Pending H.Data H.Fn} {deeds : List (Deed H.Data H.Fn)}
      (hshift : shift = .moved q deeds (some q')) (hfree : q' = q ∨ w.pendingAt q' = none)
      (hputs : w.Puts w' q q' x) : w'.pendingAt p = some (stage, finish) := by
    have hfollow := hputs.follow hfree hp
    rwa [if_neg (hne hshift), if_neg (hne hshift)] at hfollow
  cases hacts with
  | keep hidle hcalm hsame => exact (hsame p).trans hp
  | start hcalm hfree hstarts =>
      have hfollow := hstarts.follow (.inl rfl) hp
      have hthere {q : Place} (hnone : w.pendingAt q = none) : p ≠ q := by
        rintro rfl
        rw [hp] at hnone
        contradiction
      rwa [if_neg (hthere hfree), if_neg (hthere hfree)] at hfollow
  | goOn hcalm hat hstep hnode hparks hfree hgoes =>
      exact hputs rfl (hfree.imp_left (congrArg _)) hgoes
  | ends hcalm hat hstep hclears =>
      rw [hclears p, if_neg (hne rfl), hp]
  | suspend hstep hdeeds hat hhandoffs hsleepers hgoes => exact hputs rfl (.inl rfl) hgoes
  | early hhandoff hhandoffs hsleepers hsame => exact (hsame p).trans hp
  | wait hhandoff hne hhandoffs hsleepers hsame => exact (hsame p).trans hp
  | refuse hexit hcalm hsame => exact (hsame p).trans hp
  | accept hhandoff hhandoffs hsleepers hfree hgoes => exact hputs rfl (.inr hfree) hgoes
  | inline hat hhandoff hhandoffs hsleepers hgoes => exact hputs rfl (.inl rfl) hgoes
  | park hat hhandoff hhandoffs hsleepers hgoes =>
      exact hputs rfl (.inr (pendingAt_handoff_eq_none (by simp [hhandoff]))) hgoes

/-- Every action carries the interpretation at every place. -/
theorem Sound.carries (hw : w.Sound) (h : w.does a = some w')
    (hp : w.pendingAt p = some (stage, finish)) : w.Carries w' a p stage finish := by
  by_cases hmoved : ∃ deeds o, w.shift a = .moved p deeds o
  · obtain ⟨ds, o, hshift⟩ := hmoved
    have hnext : w.next? a p = o := by simp only [next?, hshift, if_true]
    have hdeeds : w.deeds a p = ds := by simp only [deeds, hshift, if_true]
    obtain ⟨-, hacts⟩ := hw.does h
    rw [hshift] at hacts
    cases hacts with
    | keep hidle => exact hidle.elim
    | goOn hcalm hat hstep hnode hparks hfree hputs =>
        obtain ⟨rfl, rfl⟩ := Prod.mk.inj (Option.some.inj (hp.symm.trans hat))
        exact .goOn rfl (action_of_shift hshift) hnext hputs.pendingAt (hdeeds ▸ hstep) hnode
    | ends hcalm hat hstep =>
        obtain ⟨rfl, rfl⟩ := Prod.mk.inj (Option.some.inj (hp.symm.trans hat))
        exact .ends rfl (action_of_shift hshift) hnext (hdeeds ▸ hstep)
    | suspend hstep hsubmits hat hhandoffs hsleepers hputs =>
        obtain ⟨rfl, rfl⟩ := Prod.mk.inj (Option.some.inj (hp.symm.trans hat))
        exact .suspend rfl (action_of_shift hshift) rfl hstep (hdeeds.trans hsubmits.symm) hnext
          hputs.pendingAt
    | early hhandoff =>
        rw [pendingAt_handoff_eq_none (by simp [hhandoff])] at hp
        contradiction
    | wait hhandoff =>
        rw [pendingAt_handoff_eq_none (by simp [hhandoff])] at hp
        contradiction
    | refuse hexit =>
        rw [pendingAt_handoff_eq_none fun s frames finish hhandoff => hexit _ hhandoff] at hp
        contradiction
    | accept hhandoff hhandoffs hsleepers hfree hputs =>
        obtain ⟨s', frames', rfl, hhandoff'⟩ := parked_of_pendingAt hp
        have heq := Option.some.inj (hhandoff.symm.trans hhandoff')
        simp only [Handoff.mk.injEq, Phase.parked.injEq] at heq
        obtain ⟨rfl, rfl, rfl⟩ := heq
        obtain ⟨t, name, exit, origin, stack, haction, ht, hexit, hplace⟩ :=
          deliver_of_shift hshift
        obtain ⟨rfl, rfl⟩ := Place.thread.inj (Option.some.inj hplace)
        obtain rfl := Deed.exit.inj (List.cons.inj hexit).1
        exact .accept rfl haction rfl ht hhandoff hdeeds hnext hputs.pendingAt
    | inline hat hhandoff hhandoffs hsleepers hputs =>
        obtain ⟨rfl, rfl⟩ := Prod.mk.inj (Option.some.inj (hp.symm.trans hat))
        exact .inline rfl (action_of_shift hshift) rfl hhandoff hdeeds hnext hputs.pendingAt
    | park hat hhandoff hhandoffs hsleepers hputs =>
        obtain ⟨rfl, rfl⟩ := Prod.mk.inj (Option.some.inj (hp.symm.trans hat))
        exact .park rfl (action_of_shift hshift) rfl hdeeds hnext hputs.pendingAt
  · have hother (deeds : List (Deed H.Data H.Fn)) (o : Option Place) :
        w.shift a ≠ .moved p deeds o := fun hshift => hmoved ⟨deeds, o, hshift⟩
    exact .of_other hp hother (hw.pendingAt_of_other h hp hother)

end World

/-- A step that stays at an async node does nothing. -/
theorem Stage.Step.deeds_of_node {D F : Type} {s s' : Stage D F} {deeds : List (Deed D F)}
    {id : HandoffId} (h : s.Step deeds (some s')) (hs : s.node? = some id)
    (hs' : s'.node? = some id) : deeds = [] := by
  cases h with
  | submitted => rfl
  | park => rfl
  | inline => contradiction
  | deliver => contradiction
  | _ => contradiction

theorem Stage.Step.deeds_of_lost {D F : Type} {s : Stage D F} {deeds : List (Deed D F)}
    {id : HandoffId} (h : s.Step deeds none) (hs : s.node? = some id) : deeds = [] := by
  cases h with
  | lost => rfl
  | conclude => contradiction

namespace Run

variable (r : Run H)

/-- In `n` actions, the interpretation that is at `p` at time `b` reaches no async node. -/
def ReachesNone (b : Nat) (p : Place) (n : Nat) : Prop := ∀ d ∈ r.history b p n, ¬d.IsSubmit

/-- How control is transferred at an async node, at which the interpretation at level `l` of thread
`s` waits at time `b`. -/
structure Transfers (b : Nat) (s : ThreadId) (l : Nat) (id : HandoffId)
    (frames : List (Frame H.Data H.Fn)) (finish : Finish H.Fn) : Prop where
  /-- The thread is the one that submits the registration. -/
  submitter : ∃ phase, (r.world b).heap.handoffs[id]? = some ⟨s, phase⟩
  /-- Until an exit has been accepted, nothing but the registration is called. -/
  waits {n : Nat} : (∀ m t exit, r.Accepts m t id exit → b + n ≤ m) →
    ∀ d ∈ r.history b (.thread s l) n, d.IsRegistration
  /-- As soon as an exit has been accepted and the submitter has left, the stack and the finisher go
  on with it on the thread that has delivered it. -/
  goesOn {n m : Nat} {t : ThreadId} {exit : Exit (Outcome H.Data H.Fn)} :
    r.Leaves n id → r.Accepts m t id exit →
      ∃ l', r.HandsOver (max n m) id frames finish exit (.thread t l')
  /-- Up to the next node, everything is done by this thread. -/
  runs {n m : Nat} {t : ThreadId} {exit : Exit (Outcome H.Data H.Fn)}
      {d : Deed H.Data H.Fn} :
    r.Accepts m t id exit → r.ReachesNone b (.thread s l) n → d ∈ r.deeds b (.thread s l) n →
      ¬d.IsRegistration → r.action (b + n) = .thread t
  /-- Up to the next node, the interpretation is nowhere but on this thread once it has left the
  node, with the functions that it calls above it. -/
  stays {n m : Nat} {t : ThreadId} {exit : Exit (Outcome H.Data H.Fn)} {q : Place}
      {stage : Stage H.Data H.Fn} :
    r.Accepts m t id exit → r.ReachesNone b (.thread s l) n →
      r.place b (.thread s l) n = some q → r.stage b (.thread s l) n = some stage →
        stage.node? = none → ∃ l', q = .thread t l'
  /-- The exit of another thread is not accepted before the submitter has left, and then nothing is
  done on the submitting thread. -/
  foreign {m : Nat} {t : ThreadId} {exit : Exit (Outcome H.Data H.Fn)} :
    r.Accepts m t id exit → t ≠ s → r.HasLeft m id ∧
      ∀ n, r.ReachesNone b (.thread s l) n → r.action (b + n) = .thread s →
        ∀ d ∈ r.deeds b (.thread s l) n, d.IsRegistration

variable {r}

theorem handoff_le {n m : Nat} {id : HandoffId} {s : ThreadId} {phase : Phase H.Data H.Fn}
    (h : (r.world n).heap.handoffs[id]? = some ⟨s, phase⟩) (hnm : n ≤ m) :
    ∃ phase', (r.world m).heap.handoffs[id]? = some ⟨s, phase'⟩ := by
  induction hnm with
  | refl => exact ⟨phase, h⟩
  | @step m _ ih =>
      obtain ⟨phase', hhandoff⟩ := ih
      obtain ⟨phase'', hhandoff', -⟩ := (r.acts m).turns hhandoff
      exact ⟨phase'', hhandoff'⟩

/-- A node has one submitter. -/
theorem submitter_unique {n m : Nat} {id : HandoffId} {s s' : ThreadId}
    {phase phase' : Phase H.Data H.Fn}
    (h : (r.world n).heap.handoffs[id]? = some ⟨s, phase⟩)
    (h' : (r.world m).heap.handoffs[id]? = some ⟨s', phase'⟩) : s = s' := by
  rcases Nat.le_total n m with hnm | hmn
  · obtain ⟨phase'', h''⟩ := handoff_le h hnm
    exact (Handoff.mk.inj (Option.some.inj (h''.symm.trans h'))).1
  · obtain ⟨phase'', h''⟩ := handoff_le h' hmn
    exact (Handoff.mk.inj (Option.some.inj (h.symm.trans h''))).1

/-- Where the interpretation at `p` at time `b`, which waits at an async node, is `n` actions later,
if it has reached no other node since. -/
inductive Leg (r : Run H) (b : Nat) (p : Place) (s : ThreadId) (id : HandoffId)
    (finish : Finish H.Fn) (n : Nat) : Prop where
  | waiting {q : Place} {stage : Stage H.Data H.Fn} :
      r.place b p n = some q → (r.world (b + n)).pendingAt q = some (stage, finish) →
        stage.node? = some id → ((∃ l, q = .thread s l) ∨ q = .handoff id) →
          Leg r b p s id finish n
  | beyond {m : Nat} {t : ThreadId} {exit : Exit (Outcome H.Data H.Fn)} {l : Nat}
      {stage : Stage H.Data H.Fn} :
      m < b + n → r.Accepts m t id exit → r.place b p n = some (.thread t l) →
        (r.world (b + n)).pendingAt (.thread t l) = some (stage, finish) → stage.node? = none →
          Leg r b p s id finish n
  | ended : r.place b p n = none → Leg r b p s id finish n

section Leg

variable {b : Nat} {p : Place} {s : ThreadId} {id : HandoffId} {finish : Finish H.Fn} {n : Nat}

/-- One action takes a leg further, and what it does it does on the thread whose exit has been
accepted. -/
theorem Leg.next {phase : Phase H.Data H.Fn}
    (hsubmitter : (r.world b).heap.handoffs[id]? = some ⟨s, phase⟩)
    (h : r.Leg b p s id finish n) :
    ((∀ d ∈ r.deeds b p n, ¬d.IsSubmit) → r.Leg b p s id finish (n + 1)) ∧
      ∀ d ∈ r.deeds b p n, d.IsRegistration ∨ ∃ m t exit, m ≤ b + n ∧
        r.Accepts m t id exit ∧ r.action (b + n) = .thread t := by
  have hplace {q : Place} (hq : r.place b p n = some q) :
      r.place b p (n + 1) = (r.world (b + n)).next? (r.action (b + n)) q := by
    simp [place, hq]
  have hdeeds {q : Place} (hq : r.place b p n = some q) :
      r.deeds b p n = (r.world (b + n)).deeds (r.action (b + n)) q := by
    simp [deeds, hq]
  cases h with
  | ended hover =>
      have hnothing : r.deeds b p n = [] := by simp [deeds, hover]
      exact ⟨fun _ => .ended (by simp [place, hover]), by simp [hnothing]⟩
  | @waiting q stage hq hat hnode hwhere =>
      have hcarries := (r.sound (b + n)).carries (r.step (b + n)) hat
      rw [hdeeds hq]
      cases hcarries with
      | stays hnext hat' hdone =>
          refine ⟨fun _ => .waiting ((hplace hq).trans hnext) hat' hnode hwhere, ?_⟩
          rcases hdone with hnothing | ⟨register, id', -, hcall⟩
          · simp [hnothing]
          · simp [hcall, Deed.IsRegistration]
      | @goOn t l l' stage' hthere haction hnext hat' hstep hsame =>
          have hnothing := hstep.deeds_of_node hnode (hsame.trans hnode)
          refine ⟨fun _ => ?_, by simp [hnothing]⟩
          refine .waiting ((hplace hq).trans hnext) hat' (hsame.trans hnode) (.inl ⟨l', ?_⟩)
          rcases hwhere with ⟨l₀, rfl⟩ | rfl
          · rw [(Place.thread.inj hthere).1]
          · contradiction
      | ends hthere haction hnext hstep =>
          exact ⟨fun _ => .ended ((hplace hq).trans hnext), by simp [hstep.deeds_of_lost hnode]⟩
      | suspend hthere haction hdriving =>
          subst hdriving
          contradiction
      | @inline t s' l id' exit frames hthere haction hleaving hhandoff hexit hnext hat' =>
          subst hleaving
          obtain rfl := Option.some.inj hnode
          obtain rfl := submitter_unique hsubmitter hhandoff
          obtain ⟨m, hm, haccepts⟩ := exists_accepts_of_early hhandoff
          have ht : t = s := by
            rcases hwhere with ⟨l₀, rfl⟩ | rfl
            · exact (Place.thread.inj hthere).1.symm
            · contradiction
          subst ht
          refine ⟨fun _ => ?_, fun d _ => ?_⟩
          · exact .beyond (Nat.lt_succ_of_lt hm) haccepts ((hplace hq).trans hnext) hat' rfl
          · exact .inr ⟨m, t, exit, Nat.le_of_lt hm, haccepts, haction⟩
      | park hthere haction hleaving hnothing hnext hat' =>
          subst hleaving
          obtain rfl := Option.some.inj hnode
          exact ⟨fun _ => .waiting ((hplace hq).trans hnext) hat' rfl (.inr rfl),
            by simp [hnothing]⟩
      | @accept t s' id' name exit origin stack frames hthere haction hparked ht hhandoff hexit
          hnext hat' =>
          subst hparked
          obtain rfl := Option.some.inj hnode
          have haccepts : r.Accepts (b + n) t id' exit :=
            ⟨origin, _, ⟨haction, name, stack, ht⟩, hhandoff, trivial⟩
          refine ⟨fun _ => ?_, fun d _ => ?_⟩
          · exact .beyond (Nat.lt_succ_self _) haccepts ((hplace hq).trans hnext) hat' rfl
          · exact .inr ⟨b + n, t, exit, Nat.le_refl _, haccepts, haction⟩
  | @beyond m t exit l stage hm haccepts hq hat hnode =>
      have hcarries := (r.sound (b + n)).carries (r.step (b + n)) hat
      have hdone {t' : ThreadId} {l' : Nat} (hthere : Place.thread t l = .thread t' l')
          (haction : r.action (b + n) = .thread t') (d : Deed H.Data H.Fn) :
          d.IsRegistration ∨ ∃ m t exit, m ≤ b + n ∧ r.Accepts m t id exit ∧
            r.action (b + n) = .thread t := by
        obtain ⟨rfl, rfl⟩ := Place.thread.inj hthere
        exact .inr ⟨m, t, exit, Nat.le_of_lt hm, haccepts, haction⟩
      rw [hdeeds hq]
      cases hcarries with
      | stays hnext hat' hrest =>
          refine ⟨fun _ => .beyond (Nat.lt_succ_of_lt hm) haccepts ((hplace hq).trans hnext) hat'
            hnode,
            ?_⟩
          rcases hrest with hnothing | ⟨register, id', hnode', -⟩
          · simp [hnothing]
          · simp [hnode] at hnode'
      | goOn hthere haction hnext hat' hstep hsame =>
          refine ⟨fun _ => ?_, fun d _ => hdone hthere haction d⟩
          obtain ⟨rfl, rfl⟩ := Place.thread.inj hthere
          exact .beyond (Nat.lt_succ_of_lt hm) haccepts ((hplace hq).trans hnext) hat'
            (hsame.trans hnode)
      | ends hthere haction hnext hstep =>
          exact ⟨fun _ => .ended ((hplace hq).trans hnext), fun d _ => hdone hthere haction d⟩
      | @suspend t' l' i register scheduler frames hthere haction hdriving hstep hsubmits =>
          refine ⟨fun hnone => ?_, fun d _ => hdone hthere haction d⟩
          rw [hsubmits, Interpretation.deeds_of_suspend hstep] at hnone
          exact absurd trivial (hnone (.submit register scheduler) (List.mem_singleton_self _))
      | inline hthere haction hleaving =>
          subst hleaving
          contradiction
      | park hthere haction hleaving =>
          subst hleaving
          contradiction
      | accept hthere => contradiction

theorem ReachesNone.of_succ (h : r.ReachesNone b p (n + 1)) :
    r.ReachesNone b p n ∧ ∀ d ∈ r.deeds b p n, ¬d.IsSubmit :=
  ⟨fun d hd => h d (List.mem_append_left _ hd), fun d hd => h d (List.mem_append_right _ hd)⟩

variable {l : Nat} {frames : List (Frame H.Data H.Fn)} {phase : Phase H.Data H.Fn}

theorem ReachesNone.leg
    (hp : (r.world b).pendingAt (.thread s l) = some (.submitting id frames, finish))
    (hsubmitter : (r.world b).heap.handoffs[id]? = some ⟨s, phase⟩)
    (h : r.ReachesNone b (.thread s l) n) : r.Leg b (.thread s l) s id finish n := by
  induction n with
  | zero => exact .waiting rfl hp rfl (.inl ⟨l, rfl⟩)
  | succ n ih =>
      obtain ⟨hbefore, hnone⟩ := h.of_succ
      exact ((ih hbefore).next hsubmitter).1 hnone

/-- Nothing but the registration is called while no exit has been accepted. -/
theorem isRegistration_of_mem_history
    (hp : (r.world b).pendingAt (.thread s l) = some (.submitting id frames, finish))
    (hsubmitter : (r.world b).heap.handoffs[id]? = some ⟨s, phase⟩)
    (hlate : ∀ m t exit, r.Accepts m t id exit → b + n ≤ m) :
    ∀ d ∈ r.history b (.thread s l) n, d.IsRegistration := by
  induction n with
  | zero => simp [history]
  | succ n ih =>
      have hbefore := ih fun m t exit haccepts => Nat.le_of_succ_le (hlate m t exit haccepts)
      have hnone : r.ReachesNone b (.thread s l) n := by
        intro d hd hsubmit
        have hregistration := hbefore d hd
        cases d <;> contradiction
      intro d hd
      rcases List.mem_append.1 hd with hd | hd
      · exact hbefore d hd
      · rcases ((hnone.leg hp hsubmitter).next hsubmitter).2 d hd with
          hregistration | ⟨m, t, exit, hm, haccepts, -⟩
        · exact hregistration
        · exact absurd (hlate m t exit haccepts) (Nat.not_le_of_lt (Nat.lt_succ_of_le hm))

end Leg

theorem Accepts.of_offer {n : Nat} {t : ThreadId} {id : HandoffId} {name : Option String}
    {exit : Exit (Outcome H.Data H.Fn)} {origin : Origin} {stack : List (Return H)}
    {handoff : Handoff H.Data H.Fn} {frames : List (Frame H.Data H.Fn)} {finish : Finish H.Fn}
    (haction : r.action n = .thread t)
    (ht : (r.world n).threads[t]? = some ⟨name, .run (.deliver id exit origin), stack⟩)
    (hhandoff : (r.world n).heap.handoffs[id]? = some handoff)
    (haccepted : (handoff.offer t exit).2 = .accepted frames finish) : r.Accepts n t id exit :=
  ⟨origin, handoff, ⟨haction, name, stack, ht⟩, hhandoff, by rw [haccepted]; trivial⟩

/-- A stack is handed over to the thread whose exit has been accepted. -/
theorem HandsOver.thread {n m : Nat} {id : HandoffId} {frames : List (Frame H.Data H.Fn)}
    {finish : Finish H.Fn} {t : ThreadId} {exit exit' : Exit (Outcome H.Data H.Fn)} {p : Place}
    (h : r.HandsOver n id frames finish exit p) (haccepts : r.Accepts m t id exit') :
    ∃ l, p = .thread t l := by
  cases h with
  | @inline t' name _ last _ stack handoff _ haction ht hhandoff hleave =>
      have hat := World.pendingAt_run ht
      obtain ⟨s, l, handoff', hthere, hhandoff', hsubmitter, -⟩ :=
        (r.sound n).parking _ id ⟨_, _, hat, rfl⟩
      obtain rfl := Option.some.inj (hhandoff.symm.trans hhandoff')
      obtain ⟨s', phase⟩ := handoff
      cases phase with
      | early exit'' =>
          obtain ⟨k, -, haccepts'⟩ := exists_accepts_of_early hhandoff
          obtain ⟨-, rfl, -⟩ := haccepts.unique haccepts'
          have ht' : t' = t := (Place.thread.inj hthere).1.trans hsubmitter.symm
          exact ⟨stack.length, by rw [ht']⟩
      | _ => contradiction
  | @resume t' name _ _ stack handoff _ origin haction ht hhandoff haccepted =>
      obtain ⟨-, rfl, -⟩ := haccepts.unique (.of_offer haction ht hhandoff haccepted)
      exact ⟨stack.length, rfl⟩

/-- An exit that is accepted from another thread than the submitter comes after the submitter has
left. -/
theorem Accepts.hasLeft {n b : Nat} {t s : ThreadId} {id : HandoffId}
    {exit : Exit (Outcome H.Data H.Fn)} {phase : Phase H.Data H.Fn} (h : r.Accepts n t id exit)
    (hsubmitter : (r.world b).heap.handoffs[id]? = some ⟨s, phase⟩) (hne : t ≠ s) :
    r.HasLeft n id := by
  obtain ⟨origin, handoff, -, hhandoff, haccepted⟩ := h
  rcases (handoff.isAccepted_iff t exit).1 haccepted with ⟨-, heq⟩ | ⟨frames, finish, hphase⟩
  · exact absurd (heq.trans (submitter_unique hhandoff hsubmitter)) hne
  · exact ⟨handoff, hhandoff, by rw [hphase]; trivial⟩

/-- Whatever the order of the threads is, what comes after an async node runs on the thread that has
delivered the accepted exit, and on no other one. -/
theorem exists_transfers (r : Run H) {b : Nat} {p : Place} {id : HandoffId}
    {frames : List (Frame H.Data H.Fn)} {finish : Finish H.Fn}
    (hp : (r.world b).pendingAt p = some (.submitting id frames, finish)) :
    ∃ s l, p = .thread s l ∧ r.Transfers b s l id frames finish := by
  obtain ⟨s, l, ⟨s', phase⟩, rfl, hsubmitter, rfl, -⟩ := (r.sound b).parking p id ⟨_, _, hp, rfl⟩
  have hruns {n m : Nat} {t : ThreadId} {exit : Exit (Outcome H.Data H.Fn)}
      {d : Deed H.Data H.Fn} (haccepts : r.Accepts m t id exit)
      (hnone : r.ReachesNone b (.thread s' l) n) (hd : d ∈ r.deeds b (.thread s' l) n)
      (hregistration : ¬d.IsRegistration) : r.action (b + n) = .thread t := by
    obtain ⟨m', t', exit', -, haccepts', haction⟩ :=
      (((hnone.leg hp hsubmitter).next hsubmitter).2 d hd).resolve_left hregistration
    obtain ⟨-, rfl, -⟩ := haccepts.unique haccepts'
    exact haction
  refine ⟨s', l, rfl, ⟨⟨phase, hsubmitter⟩, ?_, ?_, hruns, ?_, ?_⟩⟩
  · exact isRegistration_of_mem_history hp hsubmitter
  · intro n m t exit hleaves haccepts
    obtain ⟨k, -, hsuspends⟩ := exists_suspends hp rfl rfl
    obtain ⟨q, hhands⟩ := exists_handsOver hsuspends hleaves haccepts
    obtain ⟨l', rfl⟩ := hhands.thread haccepts
    exact ⟨l', hhands⟩
  · intro n m t exit q stage haccepts hnone hq hstage hnode
    obtain ⟨q', hq', hat⟩ := (r.stage_eq_some hp).1 hstage
    obtain rfl := Option.some.inj (hq.symm.trans hq')
    cases hnone.leg hp hsubmitter with
    | waiting hq₀ hat₀ hnode₀ =>
        obtain rfl := Option.some.inj (hq.symm.trans hq₀)
        obtain ⟨rfl, -⟩ := Prod.mk.inj (Option.some.inj (hat.symm.trans hat₀))
        simp [hnode] at hnode₀
    | @beyond m' t' exit' l' stage' hm haccepts' hq₀ =>
        obtain ⟨-, rfl, -⟩ := haccepts.unique haccepts'
        exact ⟨l', Option.some.inj (hq.symm.trans hq₀)⟩
    | ended hover => simp [hq] at hover
  · intro m t exit haccepts hne
    refine ⟨haccepts.hasLeft hsubmitter hne, fun n hnone haction d hd => ?_⟩
    refine Classical.byContradiction fun hregistration => ?_
    have hthere := hruns haccepts hnone hd hregistration
    exact hne (Action.thread.inj (hthere.symm.trans haction))

end Run

namespace Relay

/-- The server offers its exit before the client is back from `submit`, and sleeps until the client
has left the node. -/
def raced : Run host :=
  .ofList (start (node false) false) (start_initial _ _)
    (.replicate 9 (.thread 0) ++ .replicate 6 (.thread 1) ++ .replicate 5 (.thread 0) ++
      .replicate 15 (.thread 1))

set_option maxRecDepth 2000 in
/-- The effect goes on on the server's thread, and never again on the client's. -/
theorem raced_transfers :
    raced.Offers 14 1 0 (.settled (.ok .unit)) .completion ∧ ¬raced.HasLeft 14 0 ∧
      (∃ l, raced.HandsOver 20 0 [] (.callback .unit .unit receiver) (.settled (.ok .unit))
        (.thread 1 l)) ∧
        ∀ n, raced.ReachesNone 3 (.thread 0 2) n → raced.action (3 + n) = .thread 0 →
          ∀ d ∈ raced.deeds 3 (.thread 0 2) n, d.IsRegistration := by
  have hp : (raced.world 3).pendingAt (.thread 0 2) =
      some (.submitting 0 [], .callback .unit .unit receiver) := rfl
  obtain ⟨s, l, hthere, htransfers⟩ := Run.exists_transfers raced hp
  obtain ⟨rfl, rfl⟩ := Place.thread.inj hthere
  have hleaves : raced.Leaves 19 0 := ⟨_, _, _, _, _, _, rfl, rfl⟩
  have haccepts : raced.Accepts 20 1 0 (.settled (.ok .unit)) :=
    ⟨.completion, _, ⟨rfl, _, _, rfl⟩, rfl, trivial⟩
  refine ⟨⟨rfl, _, _, rfl⟩, by decide, htransfers.goesOn hleaves haccepts, ?_⟩
  exact (htransfers.foreign haccepts (by decide)).2

end Relay

end Trampoline
