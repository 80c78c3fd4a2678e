import Trampoline.Proofs.Fibers
import Trampoline.Proofs.Gathering
import Trampoline.Proofs.Joined

/-!
Interpretations of the effect that joins a fiber. Such an interpretation does nothing but register
at the fiber and read the slot that is recorded there; it goes on with what the slot says, and comes
to that if the fiber has its slot and serves its subscribers.
-/

namespace Trampoline

variable {H : Host}

theorem Heap.slot?_eq_some {D F : Type} {heap : Heap D F} {fiber : PromiseId} {s : Slot D F} :
    heap.slot? fiber = some s ↔
      ∃ value error, heap.promised? fiber = some (.slot value error s) := by
  unfold slot? promised?
  split
  · unfold Promise.slot?
    split <;> simp_all
  · simp

/-- What an interpretation of the effect that joins a fiber does: it hands the registration to the
scheduler that runs work on the spot, and reads the slot. -/
def Deed.IsOfJoin {D F : Type} (value error : Ty) (fiber : PromiseId) : Deed D F → Prop
  | .push frame => frame = .bind (.unslot value error)
  | .pop frame => frame = .bind (.unslot value error)
  | .submit register scheduler => register = .join value error fiber ∧ scheduler = immediateId
  | .call (.register register) => register = .join value error fiber
  | .call (.bind b v) => b = .unslot value error ∧ ∃ s, v = .slot value error s
  | .exit x => ∃ s, x = .settled (.ok (.slot value error s))
  | _ => False

/-- A join goes on by itself with the node, the end of a submission or the slot. -/
theorem Joining.of_step {D F : Type} {value error : Ty} {slot : PromiseId → Option (Slot D F)}
    {came : HandoffId → PromiseId → Prop} {fiber : PromiseId} {frames : List (Frame D F)} {j : Nat}
    {stage stage' : Stage D F} {deeds : List (Deed D F)}
    (h : Joining value error slot came fiber frames j stage)
    (hstep : stage.Step deeds (some stage')) (hnode : stage'.node? = stage.node?) :
    (∀ d ∈ deeds, d.IsOfJoin value error fiber) ∧
      ((∃ j', j' < j ∧ Joining value error slot came fiber frames j' stage') ∨
        ∃ s, slot fiber = some s ∧ stage' = .driving (.settle s.exit frames)) := by
  cases h with
  | opening =>
      cases hstep with
      | next hstep =>
          cases hstep
          refine ⟨fun d hd => ?_, .inl ⟨_, Nat.lt_succ_self _, .coming⟩⟩
          obtain rfl := List.mem_singleton.1 hd
          rfl
      | _ => contradiction
  | coming => cases hstep <;> contradiction
  | submitting hid =>
      cases hstep with
      | submitted => exact ⟨by simp, .inl ⟨_, Nat.lt_succ_self _, .leaving hid⟩⟩
  | leaving hid =>
      cases hstep with
      | inline => contradiction
      | park => exact ⟨by simp, .inl ⟨_, Nat.lt_succ_self _, .parked hid⟩⟩
  | parked hid =>
      cases hstep with
      | deliver => contradiction
  | resuming hs =>
      cases hstep with
      | resume => exact ⟨by simp, .inl ⟨_, Nat.lt_succ_self _, .reading hs⟩⟩
  | @reading s hs =>
      have hread := step_unslot value error s frames
      cases hstep with
      | next hstep =>
          obtain rfl := Progress.next.inj (hstep.symm.trans hread)
          refine ⟨?_, .inr ⟨s, hs, rfl⟩⟩
          rw [deeds_unslot]
          simp [Deed.IsOfJoin]
      | ask hstep => simp [hstep] at hread
      | suspend hstep => simp [hstep] at hread
      | finish hstep => simp [hstep] at hread

namespace Run

variable {r : Run H} {b n : Nat} {p q : Place} {t : ThreadId} {value error : Ty}
  {fiber : PromiseId} {id : HandoffId} {j l : Nat} {stage : Stage H.Data H.Fn}
  {frames : List (Frame H.Data H.Fn)} {finish : Finish H.Fn}

/-- Since time `b` and before time `n`, a thread has come to a node that joins a fiber. -/
def CameTo (r : Run H) (value error : Ty) (b n : Nat) (id : HandoffId) (fiber : PromiseId) : Prop :=
  ∃ k t, b ≤ k ∧ k < n ∧ r.ComesTo k t (.join value error fiber) immediateId id

/-- How far an interpretation that joins a fiber since time `b` is at time `n`. -/
abbrev Joins (r : Run H) (value error : Ty) (fiber : PromiseId) (frames : List (Frame H.Data H.Fn))
    (b n : Nat) : Nat → Stage H.Data H.Fn → Prop :=
  Joining value error (r.world n).heap.slot? (r.CameTo value error b n) fiber frames

theorem CameTo.succ (h : r.CameTo value error b n id fiber) :
    r.CameTo value error b (n + 1) id fiber := by
  obtain ⟨k, t, hb, hk, hcomes⟩ := h
  exact ⟨k, t, hb, Nat.lt_succ_of_lt hk, hcomes⟩

section Join

variable (hstart : (r.world 0).Starting)
  (himmediate : (r.world 0).heap.schedulers[immediateId]? = some .immediate)
  (hhides : ∀ n t id, r.ComesTo n t (.join value error fiber) immediateId id →
    r.Hides (.handoff id))
  (hslots : ∀ n v, (r.world n).heap.promised? fiber = some v → ∃ s, v = .slot value error s)

section Registering

variable {k : Nat} {s : ThreadId} (hcomes : r.ComesTo k s (.join value error fiber) immediateId id)

include himmediate hcomes

/-- An interpretation waits for the end of the submission as long as its thread registers the
join. -/
theorem registering_of_submitting
    (hat : (r.world n).pendingAt (.thread t l) = some (.submitting id frames, finish)) :
    ∃ name control above last rest j, (r.world n).threads[t]? =
        some ⟨name, control, above ++ .after (.park id frames last finish) :: rest⟩ ∧
      rest.length = l ∧ Registering value error fiber id j control above := by
  induction n generalizing t l with
  | zero =>
      rw [r.initial.pendingAt] at hat
      contradiction
  | succ n ih =>
      obtain ⟨p, stage, hold, hnext⟩ := ((r.sound n).origin (r.step n) hat).resolve_right
        fun ⟨_, heq, _⟩ => by contradiction
      cases (r.sound n).carries (r.step n) hold with
      | stays hsame hat' =>
          obtain rfl := Option.some.inj (hsame.symm.trans hnext)
          obtain ⟨rfl, -⟩ := Prod.mk.inj (Option.some.inj (hat'.symm.trans hat))
          obtain ⟨name, control, above, last, rest, j, ht, rfl, hregistering⟩ := ih hold
          by_cases hj : j = 0
          · cases hregistering with
            | @back above v habove =>
                obtain rfl := List.eq_nil_of_length_eq_zero hj
                rcases next_of_turn ht rfl with ⟨-, hthread⟩ | ⟨-, -, hthread⟩
                · exact ⟨_, _, [], _, _, _, hthread, rfl, .back habove⟩
                · have hleaving : (r.world (n + 1)).pendingAt (.thread t rest.length) =
                      some (.leaving id frames, finish) := World.pendingAt_run hthread
                  simp [hat] at hleaving
            | _ => simp at hj
          · obtain ⟨heap, pushed, rest', control', above', j', hturn, hpushed, -, hregistering'⟩ :=
              hregistering.turn (immediate himmediate n) (handoff_of_submitting ht) hj
            rcases next_of_turn ht hturn with ⟨-, hthread⟩ | ⟨-, -, hthread⟩
            · exact ⟨_, _, _, _, _, _, hthread, rfl, hregistering⟩
            · rw [hpushed] at hthread
              exact ⟨_, _, _, _, _, _, hthread, rfl, hregistering'⟩
      | goOn _ _ hsame hat' hstep hnode =>
          obtain ⟨rfl, rfl⟩ := Place.thread.inj (Option.some.inj (hsame.symm.trans hnext))
          obtain ⟨rfl, -⟩ := Prod.mk.inj (Option.some.inj (hat'.symm.trans hat))
          generalize (r.world n).deeds (r.action n) p = deeds at hstep
          cases hstep with
          | suspend => contradiction
      | ends _ _ hnone =>
          rw [hnone] at hnext
          contradiction
      | @suspend t₁ l₁ i register scheduler frames' hthere haction hdriving hstep _ hsame hat' =>
          subst hdriving
          obtain ⟨rfl, rfl⟩ := Place.thread.inj (Option.some.inj (hsame.symm.trans hnext))
          obtain ⟨t, name, last, stack, hplace, ht⟩ := World.driving_of_pendingAt hold
          obtain ⟨rfl, rfl⟩ := Place.thread.inj (hplace.symm.trans hthere)
          obtain ⟨heq, -⟩ := Prod.mk.inj (Option.some.inj (hat'.symm.trans hat))
          obtain ⟨rfl, rfl⟩ := Stage.submitting.inj heq
          have hcomes' : r.ComesTo n t register scheduler (r.world n).heap.handoffs.size :=
            ⟨i, last, finish, _, ⟨haction, name, stack, ht⟩, hstep, rfl⟩
          obtain ⟨-, -, rfl, rfl⟩ := hcomes'.unique hcomes
          have hturn : Thread.turn? t (r.world n).heap (r.world n).state
              ⟨name, .run (.drive i last finish), stack⟩ = some ((r.world n).state, stack,
                .seq ((r.world n).heap.newHandoff t).1
                  (.submit immediateId
                    (.register (.join value error fiber) (r.world n).heap.handoffs.size))
                  (.park (r.world n).heap.handoffs.size frames' (i.latest last) finish)) := by
            simp only [Thread.turn?, Task.turn, Task.driveTurn, hstep]
            rfl
          obtain ⟨-, hthread⟩ := next_of_action haction ht hturn
          exact ⟨_, _, [], _, _, _, hthread, rfl, .submit⟩
      | inline _ _ _ _ _ hsame hat' =>
          obtain ⟨rfl, rfl⟩ := Place.thread.inj (Option.some.inj (hsame.symm.trans hnext))
          simp [hat] at hat'
      | park _ _ _ _ hsame hat' => simp [hsame] at hnext
      | accept _ _ _ _ _ _ hsame hat' =>
          obtain ⟨rfl, rfl⟩ := Place.thread.inj (Option.some.inj (hsame.symm.trans hnext))
          simp [hat] at hat'

/-- The end of the submission does not end the interpretation. -/
theorem next?_of_submitting
    (hat : (r.world n).pendingAt (.thread t l) = some (.submitting id frames, finish)) :
    (r.world n).next? (r.action n) (.thread t l) ≠ none := by
  intro hnone
  obtain ⟨deeds, hshift⟩ := World.shift_of_next?_eq_none hnone
  obtain ⟨name, control, above, last, rest, j, ht, -, hregistering⟩ :=
    registering_of_submitting himmediate hcomes hat
  rcases World.panics_of_shift hshift with ⟨_, _, _, _, ht', -⟩ | ⟨_, _, hat'⟩
  · obtain ⟨-, rfl, -⟩ := Thread.mk.inj (Option.some.inj (ht.symm.trans ht'))
    cases hregistering
  · simp [hat] at hat'

omit hcomes in
/-- A thread that registers a join comes back to the interpretation that waits below. -/
theorem Fair.exists_registered (hfair : r.Fair) {name : Option String} {control : Control H}
    {above rest : List (Return H)} {last : Kept}
    (ht : (r.world n).threads[t]? =
      some ⟨name, control, above ++ .after (.park id frames last finish) :: rest⟩)
    (hregistering : Registering value error fiber id j control above) :
    ∃ m v, n ≤ m ∧ (r.world m).threads[t]? =
      some ⟨name, .ret v, .after (.park id frames last finish) :: rest⟩ := by
  induction j using Nat.strongRecOn generalizing n control above with
  | ind j ih =>
      by_cases hj : j = 0
      · cases hregistering with
        | @back above v habove =>
            obtain rfl := List.eq_nil_of_length_eq_zero hj
            exact ⟨n, v, Nat.le_refl n, ht⟩
        | _ => simp at hj
      · have hready : Thread.IsReady (H := H)
            ⟨name, control, above ++ .after (.park id frames last finish) :: rest⟩ := by
          obtain ⟨heap, pushed, rest', control', above', j', hturn, -⟩ :=
            hregistering.turn (immediate himmediate n) (handoff_of_submitting ht) hj
          exact .of_turn hturn
        obtain ⟨m, hm, haction, ht'⟩ := hfair.exists_ready ht hready
        obtain ⟨heap, pushed, rest', control', above', j', hturn, hpushed, hj', hregistering'⟩ :=
          hregistering.turn (immediate himmediate m) (handoff_of_submitting ht') hj
        obtain ⟨-, hthread⟩ := next_of_action haction ht' hturn
        rw [hpushed] at hthread
        obtain ⟨i, v, hi, hback⟩ := ih j' hj' hthread hregistering'
        exact ⟨i, v, by omega, hback⟩

/-- The submission of a join comes to its end. -/
theorem Fair.exists_replies (hfair : r.Fair)
    (hat : (r.world n).pendingAt (.thread t l) = some (.submitting id frames, finish)) :
    ∃ m, n ≤ m ∧ (r.world m).Replies t l := by
  obtain ⟨name, control, above, last, rest, j, ht, hrest, hregistering⟩ :=
    registering_of_submitting himmediate hcomes hat
  obtain ⟨m, v, hm, hback⟩ := hfair.exists_registered himmediate ht hregistering
  exact ⟨m, hm, name, v, _, rest, hback, hrest⟩

omit hcomes in
/-- A thread that submits the registration of a join subscribes to the fiber. -/
theorem Fair.exists_registers (hfair : r.Fair) {name : Option String} {below : List (Return H)}
    (ht : (r.world n).threads[t]? =
      some ⟨name, .run (.submit immediateId (.register (.join value error fiber) id)), below⟩) :
    ∃ m, n < m ∧ (r.world m).threads[t]? =
      some ⟨name, .run (.subscribe fiber (.join value error (.node id))),
        .guarding id (.join value error fiber) :: .guarded immediateId :: below⟩ := by
  have hsubmit (m : Nat) : Thread.turn? t (r.world m).heap (r.world m).state
      ⟨name, .run (.submit immediateId (.register (.join value error fiber) id)), below⟩ =
        some ((r.world m).state, below, .call (r.world m).heap
          (.perform (.register (.join value error fiber) id)) (.guarded immediateId)) := by
    simp only [Thread.turn?, Task.turn, Task.submitTurn, immediate himmediate m]
  obtain ⟨m₁, hm₁, ht₁⟩ := hfair.exists_next
    ⟨name, .run (.perform (.register (.join value error fiber) id)), .guarded immediateId :: below⟩
    trivial ht fun m _ => ⟨_, _, _, hsubmit m, rfl⟩
  obtain ⟨m₂, hm₂, ht₂⟩ := hfair.exists_next
    ⟨name, .run (.register (.join value error fiber) (.node id)),
      .guarding id (.join value error fiber) :: .guarded immediateId :: below⟩
    trivial ht₁ fun _ _ => ⟨_, _, _, rfl, rfl⟩
  obtain ⟨m₃, hm₃, ht₃⟩ := hfair.exists_next
    ⟨name, .run (.subscribe fiber (.join value error (.node id))),
      .guarding id (.join value error fiber) :: .guarded immediateId :: below⟩
    trivial ht₂ fun _ _ => ⟨_, _, _, rfl, rfl⟩
  exact ⟨m₃, by omega, ht₃⟩

/-- The node subscribes to the fiber. -/
theorem Fair.exists_subscribes (hfair : r.Fair) (hfiber : fiber < (r.world k).heap.promises.size) :
    ∃ m, k < m ∧ r.Subscribes fiber m s (.join value error (.node id)) := by
  have hturns := hcomes
  obtain ⟨_, _, _, _, ⟨haction, name, stack, ht⟩, -⟩ := hturns
  obtain ⟨heap, frames, last, finish, hturn⟩ := hcomes.turn ht
  obtain ⟨-, ht₁⟩ := next_of_action haction ht hturn
  obtain ⟨m, hm, ht'⟩ := hfair.exists_registers himmediate ht₁
  obtain ⟨m', hm', hdoes, -⟩ := hfair.exists_does ht'
  exact ⟨m', by omega, hdoes,
    Nat.lt_of_lt_of_le hfiber (promises_size_le (show k ≤ m' by omega))⟩

end Registering

include himmediate in
/-- A node that joins a fiber gets an exit if the fiber's subscribers are told the slot. -/
theorem Fair.exists_accepts_of_cameTo (hfair : r.Fair)
    (hfiber : fiber < (r.world b).heap.promises.size) (htells : r.TellsFrom b fiber)
    (hcame : r.CameTo value error b n id fiber) (hleaves : ∃ k, r.HasLeft k id) :
    ∃ m t exit, r.Accepts m t id exit := by
  obtain ⟨k, s, hbk, -, hcomes⟩ := hcame
  obtain ⟨m, hm, hsubscribes⟩ := hfair.exists_subscribes himmediate hcomes
    (Nat.lt_of_lt_of_le hfiber (promises_size_le hbk))
  obtain ⟨m', t', v, hm', htold⟩ := htells m s _ (Nat.le_trans hbk (Nat.le_of_lt hm)) hsubscribes
  exact htold.exists_accepts hfair (hcomes.exists_handoff (Nat.lt_of_lt_of_le hm hm')) hleaves

include himmediate in
/-- What an interpretation that joins a fiber waits for comes if the fiber's subscribers are told
the slot. -/
theorem Fair.goesOn_of_joins (hfair : r.Fair) (hfiber : fiber < (r.world b).heap.promises.size)
    (htells : r.TellsFrom b fiber) (hq : r.place b p n = some q)
    (hat : (r.world (b + n)).pendingAt q = some (stage, finish))
    (h : r.Joins value error fiber frames b (b + n) j stage) : r.GoesOn b p n stage := by
  cases h with
  | submitting hid =>
      intro t l hthere
      obtain rfl := Option.some.inj (hq.symm.trans hthere)
      obtain ⟨k, s, -, -, hcomes⟩ := hid
      obtain ⟨m, hm, hreplies⟩ := hfair.exists_replies himmediate hcomes hat
      obtain ⟨d, rfl⟩ := Nat.exists_eq_add_of_le (Nat.le_trans (Nat.le_add_right b n) hm)
      exact ⟨d, Nat.le_of_add_le_add_left hm, .inl hreplies⟩
  | @parked id hid =>
      obtain ⟨-, s, hhandoff⟩ := World.handoff_of_pendingAt hat
      exact hfair.exists_accepts_of_cameTo himmediate hfiber htells hid
        ⟨b + n, _, hhandoff, trivial⟩
  | _ => trivial

include hstart hhides

/-- The only registration that is called for a join is its own. -/
theorem deeds_of_stays (hat : (r.world n).pendingAt q = some (stage, finish))
    (h : r.Joins value error fiber frames b n j stage)
    (hother : ∀ deeds o, (r.world n).shift (r.action n) ≠ .moved q deeds o) :
    ∀ d ∈ (r.world n).deeds (r.action n) q, d.IsOfJoin value error fiber := by
  intro d hd
  simp only [World.deeds] at hd
  split at hd
  · rename_i q' deeds o hshift
    split at hd
    · rename_i heq
      exact absurd (heq ▸ hshift) (hother deeds o)
    · contradiction
  · rename_i register id hshift
    split at hd
    · rename_i hnode
      obtain rfl := List.mem_singleton.1 hd
      rw [hat, Option.bind_some] at hnode
      obtain ⟨k, t, -, -, hcomes⟩ := h.hasCome hnode
      obtain ⟨t', name, stack, haction, ht⟩ := World.register_of_shift hshift
      have hdoes : r.Does n t' (.register register (.node id)) := ⟨haction, name, stack, ht⟩
      exact (registered_eq hstart (hhides k t id hcomes) hcomes hdoes.has).2
    · contradiction
  · contradiction


include himmediate hslots

/-- The exit of the node is the slot of the fiber. -/
theorem exit_of_accepts {exit : Exit (Outcome H.Data H.Fn)} {m : Nat}
    (hcame : r.CameTo value error b n id fiber) (h : r.Accepts m t id exit) (hmn : m ≤ n) :
    ∃ s, exit = .settled (.ok (.slot value error s)) ∧
      (r.world n).heap.slot? fiber = some s := by
  obtain ⟨k, t₀, -, -, hcomes⟩ := hcame
  obtain ⟨v, rfl, hpromised⟩ :=
    accepts_eq_promised hstart himmediate (hhides k t₀ id hcomes) hcomes h
  obtain ⟨s, rfl⟩ := hslots m v hpromised
  exact ⟨s, rfl, Heap.slot?_eq_some.2 ⟨_, _, promised?_of_le hstart hpromised hmn⟩⟩

/-- An interpretation that joins a fiber stays as it is, goes on, or goes on with what the slot
says. -/
theorem joins_next (hbn : b ≤ n) (hat : (r.world n).pendingAt q = some (stage, finish))
    (h : r.Joins value error fiber frames b n j stage) :
    (∀ d ∈ (r.world n).deeds (r.action n) q, d.IsOfJoin value error fiber) ∧
      ∃ q' stage', (r.world n).next? (r.action n) q = some q' ∧
        (r.world (n + 1)).pendingAt q' = some (stage', finish) ∧
          ((∃ j', r.Joins value error fiber frames b (n + 1) j' stage' ∧
              (j' < j ∨ j' = j ∧ q' = q ∧ stage' = stage ∧
                ∀ deeds o, (r.world n).shift (r.action n) ≠ .moved q deeds o)) ∨
            ∃ s, (r.world (n + 1)).heap.slot? fiber = some s ∧
              stage' = .driving (.settle s.exit frames)) := by
  have hslot (fiber : PromiseId) (s : Slot H.Data H.Fn)
      (hs : (r.world n).heap.slot? fiber = some s) :
      (r.world (n + 1)).heap.slot? fiber = some s := by
    obtain ⟨_, _, hpromised⟩ := Heap.slot?_eq_some.1 hs
    exact Heap.slot?_eq_some.2 ⟨_, _, promised?_of_le hstart hpromised (Nat.le_succ n)⟩
  have hcame (id : HandoffId) (fiber : PromiseId) (h : r.CameTo value error b n id fiber) :
      r.CameTo value error b (n + 1) id fiber := h.succ
  cases (r.sound n).carries (r.step n) hat with
  | stays hnext hat' _ hother =>
      exact ⟨deeds_of_stays hstart hhides hat h hother, q, stage, hnext, hat',
        .inl ⟨j, h.mono hslot hcame, .inr ⟨rfl, rfl, rfl, hother⟩⟩⟩
  | @goOn t l l' stage' hthere haction hnext hat' hstep hnode =>
      obtain ⟨hdeeds, hnow⟩ := (h.mono hslot hcame).of_step hstep hnode
      refine ⟨hdeeds, _, stage', hnext, hat', hnow.imp_left ?_⟩
      rintro ⟨j', hj, h'⟩
      exact ⟨j', h', .inl hj⟩
  | @ends t l hthere haction hnone hstep =>
      subst hthere
      generalize (r.world n).deeds (r.action n) (.thread t l) = deeds at hstep
      cases h with
      | @submitting id hid =>
          obtain ⟨k, t₀, -, -, hcomes⟩ := hid
          exact absurd hnone (next?_of_submitting himmediate hcomes hat)
      | _ => cases hstep
  | @suspend t l i register scheduler frames' hthere haction hdriving hstep hdeeds hnext hat' =>
      cases h with
      | opening =>
          obtain rfl := Stage.driving.inj hdriving
          contradiction
      | coming =>
          obtain rfl := Stage.driving.inj hdriving
          obtain ⟨rfl, rfl, rfl⟩ := Progress.suspend.inj hstep
          obtain ⟨t', name, last, stack, hplace, ht⟩ := World.driving_of_pendingAt hat
          obtain ⟨rfl, -⟩ := Place.thread.inj (hthere.symm.trans hplace)
          have hcomes : r.CameTo value error b (n + 1) (r.world n).heap.handoffs.size fiber :=
            ⟨n, t, hbn, Nat.lt_succ_self n, _, last, finish, _, ⟨haction, name, stack, ht⟩, rfl,
              rfl⟩
          refine ⟨fun d hd => ?_, _, _, hnext, hat',
            .inl ⟨_, .submitting hcomes, .inl (Nat.lt_succ_self _)⟩⟩
          rw [hdeeds] at hd
          obtain rfl := List.mem_singleton.1 hd
          exact ⟨rfl, rfl⟩
      | @reading s hs =>
          obtain rfl := Stage.driving.inj hdriving
          have hread := hstep.symm.trans (step_unslot value error s frames)
          contradiction
      | _ => contradiction
  | @inline t s l id exit frames' hthere haction hleaving hhandoff hdeeds hnext hat' =>
      subst hleaving
      cases h with
      | leaving hid =>
          obtain ⟨m, hm, haccepts⟩ := exists_accepts_of_early hhandoff
          obtain ⟨s, rfl, hs⟩ := exit_of_accepts hstart himmediate hhides hslots hid haccepts
            (Nat.le_of_lt hm)
          refine ⟨?_, _, _, hnext, hat', .inl ⟨3, .reading (hslot _ _ hs), .inl (by decide)⟩⟩
          simp [hdeeds, Deed.IsOfJoin]
  | @park t l id frames' hthere haction hleaving hdeeds hnext hat' =>
      subst hleaving
      cases h with
      | leaving hid =>
          exact ⟨by simp [hdeeds], _, _, hnext, hat',
            .inl ⟨_, .parked hid.succ, .inl (Nat.lt_succ_self _)⟩⟩
  | @accept t s id name exit origin stack frames' hthere haction hparked ht hhandoff hdeeds hnext
      hat' =>
      subst hparked
      cases h with
      | parked hid =>
          have haccepts : r.Accepts n t id exit :=
            .of_offer haction ht hhandoff rfl
          obtain ⟨s, rfl, hs⟩ := exit_of_accepts hstart himmediate hhides hslots hid haccepts
            (Nat.le_refl n)
          refine ⟨?_, _, _, hnext, hat', .inl ⟨_, .resuming (hslot _ _ hs),
            .inl (Nat.lt_succ_self _)⟩⟩
          simp [hdeeds, Deed.IsOfJoin]

/-- For `n` actions the interpretation that is at `p` at time `b` does nothing but join a fiber,
above some continuations. -/
def IsJoining (r : Run H) (b : Nat) (p : Place) (value error : Ty) (fiber : PromiseId)
    (frames : List (Frame H.Data H.Fn)) (n j : Nat) (stage : Stage H.Data H.Fn) : Prop :=
  r.Joins value error fiber frames b (b + n) j stage ∧
    ∀ d ∈ r.history b p n, d.IsOfJoin value error fiber

/-- The interpretation that is at `p` at time `b` has done nothing but join a fiber when it goes on,
`n` actions later, with what the fiber's slot says. -/
structure Reads (r : Run H) (b : Nat) (p : Place) (value error : Ty) (fiber : PromiseId)
    (frames : List (Frame H.Data H.Fn)) (n : Nat) (s : Slot H.Data H.Fn) : Prop where
  slot : (r.world (b + n)).heap.slot? fiber = some s
  stage : r.stage b p n = some (.driving (.settle s.exit frames))
  deeds : ∀ d ∈ r.history b p n, d.IsOfJoin value error fiber

section Course

variable (hp : (r.world b).pendingAt p =
  some (.driving ⟨.node (.join value error fiber), frames⟩, finish))

include hp

/-- An interpretation that joins a fiber approaches what the slot says. -/
theorem joins_approaches :
    r.Approaches b p finish (fun n => ∃ s, r.Reads b p value error fiber frames n s)
      (r.IsJoining b p value error fiber frames) := by
  intro n j q stage hq hat ⟨hjoins, hhistory⟩
  obtain ⟨hdeeds, q', stage', hnext, hat', hthen⟩ :=
    joins_next hstart himmediate hhides hslots (Nat.le_add_right b n) hat hjoins
  have hplace : r.place b p (n + 1) = some q' := by simp [place, hq, hnext]
  have hhistory' : ∀ d ∈ r.history b p (n + 1), d.IsOfJoin value error fiber := by
    intro d hd
    rcases List.mem_append.1 hd with hd | hd
    · exact hhistory d hd
    · simp only [Run.deeds, hq] at hd
      exact hdeeds d hd
  rcases hthen with ⟨j', hjoins', hmeasure⟩ | ⟨s, hs, rfl⟩
  · exact .inr ⟨q', stage', j', hplace, hat', ⟨hjoins', hhistory'⟩, hmeasure⟩
  · exact .inl ⟨s, hs, (r.stage_eq_some hp).2 ⟨q', hplace, hat'⟩, hhistory'⟩

/-- It is under way, above the continuations, until it goes on with what the slot says. -/
theorem joins_course (n : Nat) :
    (∃ stage j, r.stage b p n = some stage ∧
        r.IsJoining b p value error fiber frames n j stage) ∨
      ∃ m s, m ≤ n ∧ r.Reads b p value error fiber frames m s := by
  rcases (joins_approaches hstart himmediate hhides hslots hp).course hp
    ⟨.opening, by simp [history]⟩ n with ⟨q, stage, j, hq, hat, hjoins⟩ | ⟨m, hm, s, hreads⟩
  · exact .inl ⟨stage, j, (r.stage_eq_some hp).2 ⟨q, hq, hat⟩, hjoins⟩
  · exact .inr ⟨m, s, hm, hreads⟩

/-- It comes to that if threads take their turns and the fiber's subscribers are told the slot. -/
theorem Fair.exists_reads (hfair : r.Fair) (hfiber : fiber < (r.world b).heap.promises.size)
    (htells : r.TellsFrom b fiber) :
    ∃ n s, r.Reads b p value error fiber frames n s :=
  (joins_approaches hstart himmediate hhides hslots hp).exists_goal (n := 0) hfair
    (fun _ _ _ _ hq hat h => hfair.goesOn_of_joins himmediate hfiber htells hq hat h.1) rfl hp
    ⟨.opening, by simp [history]⟩

end Course

end Join

end Run

end Trampoline
