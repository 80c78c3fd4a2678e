import Trampoline.Proofs.Channels
import Trampoline.Proofs.Recording

/-!
Threads that join a fiber. Once something is recorded in the fiber, a thread that comes to the
effect that joins it is not parked: it goes on with what is recorded. A thread that blocks for this
effect gets what is recorded, whenever that is.
-/

namespace Trampoline

variable {H : Host}

/-- What a reader of a fiber gets: the recorded outcome as a result, or a panic. -/
def Slot.reply {D F : Type} (value error : Ty) (slot : Slot D F) : Except Payload (Value D F) :=
  slot.read.map (.ofOutcome value error)

/-- An interpretation that is about to end concludes with its exit. -/
theorem Course.stage_of_finish {D F : Type} {c : Course D F} {i : Interpretation D F}
    {exit : Exit (Outcome D F)} {n m : Nat} (h : c.stage n = some (.driving i))
    (hstep : i.step = .finish exit) (hnm : n ≤ m) :
    c.stage m = some (.driving i) ∨ c.stage m = some (.concluding exit) ∨ c.stage m = none := by
  induction hnm with
  | refl => exact .inl h
  | @step m _ ih =>
      rcases ih with hdriving | hconcluding | hnone
      · have hgoes := c.goes m _ hdriving
        generalize c.stage (m + 1) = o, c.deeds m = deeds at hgoes
        cases hgoes with
        | rest => exact .inl rfl
        | registered hnode => contradiction
        | step hgoes =>
            cases hgoes with
            | finish h =>
                obtain rfl := Progress.finish.inj (h.symm.trans hstep)
                exact .inr (.inl rfl)
            | _ => simp_all
      · have hgoes := c.goes m _ hconcluding
        generalize c.stage (m + 1) = o, c.deeds m = deeds at hgoes
        cases hgoes with
        | rest => exact .inr (.inl rfl)
        | registered hnode => contradiction
        | step hgoes =>
            cases hgoes with
            | conclude => exact .inr (.inr rfl)
      · exact .inr (.inr (c.ended m hnone).1)

theorem Heap.received?_eq_some {D F : Type} {heap : Heap D F} {id : ChannelId}
    {exit : Exit (Outcome D F)} :
    heap.received? id = some exit ↔ heap.channels[id]? = some (.full exit) := by
  unfold received?
  split <;> simp_all

theorem Slot.step_exit {D F : Type} (slot : Slot D F) :
    (Interpretation.settle slot.exit []).step = .finish slot.exit := by
  cases slot <;> rfl

theorem Task.concludeTurn_channel {value error : Ty} {slot : Slot H.Data H.Fn}
    (hslot : slot.HasTags value error) (heap : Heap H.Data H.Fn) (id : ChannelId) :
    Task.concludeTurn (H := H) heap slot.exit (.channel value error id) =
      .ret (heap.send id slot.exit) .unit := by
  cases slot with
  | ok v =>
      have hty : v.ty = value := hslot (.ok v) rfl
      simp [Slot.exit, concludeTurn, Exit.restore, hty]
  | err v =>
      have hty : v.ty = error := hslot (.error v) rfl
      simp [Slot.exit, concludeTurn, Exit.restore, hty]
  | panicked report => rfl

theorem Task.turn_receive {value error : Ty} {slot : Slot H.Data H.Fn} {heap : Heap H.Data H.Fn}
    {id : ChannelId} (h : heap.received? id = some slot.exit) (warning : Event) (here : Here)
    (stack : List (Return H)) :
    (Task.receive (H := H) value error id warning).turn here stack heap =
      ⟨heap, [], .replied (slot.reply value error), none, none⟩ := by
  simp only [turn, h]
  cases slot <;> rfl

theorem Thread.turn?_of_next {i j : Interpretation H.Data H.Fn} (h : i.step = .next j)
    (t : ThreadId) (heap : Heap H.Data H.Fn) (state : H.State) (name : Option String) (last : Kept)
    (finish : Finish H.Fn) (stack : List (Return H)) :
    Thread.turn? t heap state ⟨name, .run (.drive i last finish), stack⟩ =
      some (state, stack, .run heap (.drive j (i.latest last) finish)) := by
  simp only [turn?, Task.turn, Task.driveTurn, h]

theorem Control.isReady_replied (reply : Except Payload (Value H.Data H.Fn)) (name : Option String)
    (back : Return H) (rest : List (Return H)) :
    Thread.IsReady ⟨name, .replied reply, back :: rest⟩ := by
  cases reply <;> exact List.cons_ne_nil _ _

namespace Run

variable {r : Run H} {b k n m : Nat} {t : ThreadId} {value error : Ty} {fiber : PromiseId}
  {slot : Slot H.Data H.Fn} {name : Option String} {frames : List (Frame H.Data H.Fn)} {last : Kept}
  {finish : Finish H.Fn} {below stack : List (Return H)} {id : ChannelId}

/-- A reply goes back through what only holds something. -/
theorem Fair.exists_held (hfair : r.Fair) {reply : Except Payload (Value H.Data H.Fn)}
    {refs : List Ref} (ht : (r.world n).threads[t]? =
      some ⟨name, .replied reply, .holding refs :: stack⟩) :
    ∃ m, n < m ∧ (r.world m).threads[t]? = some ⟨name, .replied reply, stack⟩ := by
  obtain ⟨m, hm, haction, ht'⟩ :=
    hfair.exists_ready ht (Control.isReady_replied reply name _ stack)
  have hturn : Thread.turn? t (r.world m).heap (r.world m).state
      ⟨name, .replied reply, .holding refs :: stack⟩ = some ((r.world m).state, stack,
        ⟨(r.world m).heap, [], .replied reply, none, none⟩) := by
    cases reply <;> rfl
  obtain ⟨-, hnext⟩ := next_of_action haction ht' hturn
  exact ⟨m + 1, Nat.lt_succ_of_le hm, hnext⟩

/-- An interpretation that ends concludes on its thread. -/
theorem Fair.exists_concludes (hfair : r.Fair) {i : Interpretation H.Data H.Fn}
    {exit : Exit (Outcome H.Data H.Fn)} (hstep : i.step = .finish exit)
    (ht : (r.world n).threads[t]? = some ⟨name, .run (.drive i last finish), stack⟩) :
    ∃ m refs, n < m ∧ (r.world m).threads[t]? =
      some ⟨name, .run (.conclude exit finish), .holding refs :: stack⟩ := by
  obtain ⟨m, hm, haction, ht'⟩ := hfair.exists_ready ht trivial
  have hturn : Thread.turn? t (r.world m).heap (r.world m).state
      ⟨name, .run (.drive i last finish), stack⟩ = some ((r.world m).state, stack,
        .call (r.world m).heap (.conclude exit finish)
          (.holding (Frame.refsAll i.frames ((i.latest last).onto [])))) := by
    simp only [Thread.turn?, Task.turn, Task.driveTurn, hstep]
  obtain ⟨-, hnext⟩ := next_of_action haction ht' hturn
  exact ⟨m + 1, _, Nat.lt_succ_of_le hm, hnext⟩

/-- A request that blocks for an effect makes a channel, into which the interpretation ends. -/
theorem opens_of_blocks {node : Node H.Data H.Fn}
    (h : r.Turns k t (.run (.request (.runBlocking value error node))) stack) :
    ∃ name, r.Opens k (.runBlocking value error node) (r.world k).heap.channels.size ∧
      (r.world (k + 1)).heap.channels[(r.world k).heap.channels.size]? = some .empty ∧
        (r.world (k + 1)).threads[t]? = some ⟨name,
          .run (.drive (.start node) ∅ (.channel value error (r.world k).heap.channels.size)),
            .after (.receive value error (r.world k).heap.channels.size .blockedForever) ::
              stack⟩ := by
  obtain ⟨haction, name, ht⟩ := h
  obtain ⟨hheap, hthread⟩ := next_of_action haction ht rfl
  have hchannels : (r.world (k + 1)).heap.channels = (r.world k).heap.channels.push .empty := by
    rw [hheap]
    rfl
  refine ⟨name, ⟨⟨t, haction, name, stack, ht⟩, rfl, ?_⟩, ?_, hthread⟩
  · rw [hchannels, Array.size_push]
  · rw [hchannels, Array.getElem?_push_size]

namespace IsFiber

variable (hfiber : r.IsFiber fiber value error) (hstart : (r.world 0).Starting)
  (himmediate : (r.world 0).heap.schedulers[immediateId]? = some .immediate)

include hfiber hstart himmediate

omit himmediate in
/-- Who subscribes to a fiber in which something is recorded is told that on the spot. -/
theorem turn_subscribe (hslot : (r.world n).heap.slot? fiber = some slot) (here : Here)
    (stack : List (Return H)) (subscriber : Subscriber H.Fn) :
    (Task.subscribe (H := H) fiber subscriber).turn here stack (r.world n).heap =
      .call (r.world n).heap (.tell subscriber (.slot value error slot))
        (.holding [.promise fiber]) := by
  have hpromised := hfiber.promised?_eq hstart hslot
  unfold Heap.promised? at hpromised
  split at hpromised
  · rename_i promise hpromise
    simp only [Task.turn, hpromise, Promise.subscribe, hpromised]
  · contradiction

/-- A thread that registers the join of a fiber in which something is recorded delivers that to its
node. -/
theorem exists_delivers {node : HandoffId} (hfair : r.Fair)
    (hslot : (r.world n).heap.slot? fiber = some slot)
    (ht : (r.world n).threads[t]? =
      some ⟨name, .run (.subscribe fiber (.join value error (.node node))),
        .guarding node (.join value error fiber) :: .guarded immediateId ::
          .after (.park node frames last finish) :: below⟩) :
    ∃ m v, n < m ∧ (r.world m).At node Phase.HasExit ∧ (r.world m).threads[t]? =
      some ⟨name, .ret v, .after (.park node frames last finish) :: below⟩ := by
  obtain ⟨m₁, hm₁, haction₁, ht₁⟩ := hfair.exists_ready ht trivial
  obtain ⟨-, ht₂⟩ := next_of_action haction₁ ht₁ rfl
  rw [hfiber.turn_subscribe hstart (slot?_of_le hstart hslot hm₁)] at ht₂
  obtain ⟨m₃, hm₃, ht₃⟩ := hfair.exists_next
    ⟨name, .run (.invoke (.node node) (.ok (.slot value error slot))),
      [.holding [.promise fiber], .guarding node (.join value error fiber), .guarded immediateId] ++
        .after (.park node frames last finish) :: below⟩
    trivial ht₂ fun _ _ => ⟨_, _, _, rfl, rfl⟩
  obtain ⟨m₄, hm₄, ht₄⟩ := hfair.exists_next
    ⟨name, .run (.deliver node (.settled (.ok (.slot value error slot))) .completion),
      [.holding [.promise fiber], .guarding node (.join value error fiber), .guarded immediateId] ++
        .after (.park node frames last finish) :: below⟩
    trivial ht₃ fun _ _ => ⟨_, _, _, rfl, rfl⟩
  obtain ⟨m₅, hm₅, haction₅, ht₅⟩ := hfair.exists_ready ht₄ trivial
  have hboundary : ∀ back ∈ ([.holding [.promise fiber], .guarding node (.join value error fiber),
      .guarded immediateId] : List (Return H)), back.IsBoundary := by
    simp [Return.IsBoundary]
  have hregistering : Registering value error fiber node _
      (.run (.deliver node (.settled (.ok (.slot value error slot))) .completion)) _ :=
    .deliver hboundary
  -- The thread delivers to a node that it has not left yet, so the exit is kept for it.
  have hexit : (r.world (m₅ + 1)).At node Phase.HasExit := by
    obtain ⟨phase, hhandoff, rfl | ⟨exit, rfl⟩⟩ := handoff_of_submitting ht₅
    · have haccepts : r.Accepts m₅ t node (.settled (.ok (.slot value error slot))) := by
        refine ⟨.completion, _, ⟨haction₅, name, _, ht₅⟩, hhandoff, ?_⟩
        simp [Handoff.offer, Offer.IsAccepted]
      exact haccepts.hasExit.2
    · exact hasExit_le ⟨_, hhandoff, trivial⟩ (Nat.le_succ m₅)
  obtain ⟨heap, pushed, rest, control, above, j, hturn₅, hpushed, -, hregistering'⟩ :=
    hregistering.turn (immediate himmediate m₅) (handoff_of_submitting ht₅)
      (Nat.succ_ne_zero _)
  obtain ⟨-, ht₆⟩ := next_of_action haction₅ ht₅ hturn₅
  rw [hpushed] at ht₆
  obtain ⟨m₇, v, hm₇, ht₇⟩ := hfair.exists_registered himmediate ht₆ hregistering'
  exact ⟨m₇, v, by omega, hasExit_le hexit hm₇, ht₇⟩

/-- A thread that comes back to such a node when this has its exit goes on with what is recorded. -/
theorem exists_leaves {node : HandoffId} {v : Value H.Data H.Fn} (hfair : r.Fair)
    (hslot : (r.world n).heap.slot? fiber = some slot)
    (hcame : r.CameTo value error 0 n node fiber) (hexit : (r.world n).At node Phase.HasExit)
    (ht : (r.world n).threads[t]? = some ⟨name, .ret v,
      .after (.park node (.bind (.unslot value error) :: frames) last finish) :: below⟩) :
    ∃ m last', n < m ∧ (r.world m).threads[t]? =
      some ⟨name, .run (.drive (.settle slot.exit frames) last' finish), below⟩ := by
  obtain ⟨k₀, t₀, hk₀, hlt, hcomes⟩ := hcame
  obtain ⟨m₁, hm₁, ht₁⟩ := hfair.exists_next
    ⟨name, .run (.park node (.bind (.unslot value error) :: frames) last finish), below⟩
    trivial ht fun _ _ => ⟨_, _, _, rfl, rfl⟩
  obtain ⟨m₂, hm₂, haction, ht₂⟩ := hfair.exists_ready ht₁ trivial
  obtain ⟨phase, hhandoff, hphase⟩ := handoff_of_parks ⟨_, _, World.pendingAt_run ht₂, rfl⟩
  obtain ⟨_, hhandoff', hthere⟩ := hasExit_le hexit (show n ≤ m₂ by omega)
  obtain rfl := Option.some.inj (hhandoff.symm.trans hhandoff')
  obtain ⟨exit, rfl⟩ := hphase.resolve_left fun heq => by
    rw [heq] at hthere
    exact hthere
  obtain ⟨k, hk, haccepts⟩ := exists_accepts_of_early hhandoff
  obtain ⟨slot', rfl, hslot'⟩ := exit_of_accepts hstart himmediate hfiber.nodes
    (hfiber.slot_of_promised hstart) ⟨k₀, t₀, hk₀, show k₀ < m₂ by omega, hcomes⟩ haccepts
    (Nat.le_of_lt hk)
  obtain rfl := slot?_unique hstart hslot' hslot
  have hturn : Thread.turn? t (r.world m₂).heap (r.world m₂).state
      ⟨name, .run (.park node (.bind (.unslot value error) :: frames) last finish), below⟩ =
        some ((r.world m₂).state, below, .run ((r.world m₂).heap.setHandoff node ⟨t, .resumed⟩)
          (.drive (.settle (.settled (.ok (.slot value error slot')))
            (.bind (.unslot value error) :: frames)) last finish)) := by
    simp only [Thread.turn?, Task.turn, Task.parkTurn, hhandoff, Handoff.leave]
  obtain ⟨-, ht₃⟩ := next_of_action haction ht₂ hturn
  obtain ⟨m₄, hm₄, ht₄⟩ := hfair.exists_next
    ⟨name, .run (.drive (.settle slot'.exit frames) last finish), below⟩ trivial ht₃
    fun _ _ => ⟨_, _, _, Thread.turn?_of_next (step_unslot value error slot' frames) ..,
      rfl⟩
  exact ⟨m₄, _, by omega, ht₄⟩

/-- A thread that comes to the effect that joins a fiber in which something is recorded is not
parked, and goes on with that. -/
theorem exists_joined (hfair : r.Fair) (hslot : (r.world n).heap.slot? fiber = some slot)
    (ht : (r.world n).threads[t]? =
      some ⟨name, .run (.drive ⟨.node (.join value error fiber), frames⟩ last finish), below⟩) :
    ∃ m last', n < m ∧ (r.world m).threads[t]? =
      some ⟨name, .run (.drive (.settle slot.exit frames) last' finish), below⟩ := by
  obtain ⟨m₁, hm₁, ht₁⟩ := hfair.exists_next
    ⟨name, .run (.drive ⟨.node (.async (.join value error fiber) immediateId),
      .bind (.unslot value error) :: frames⟩ _ finish), below⟩
    trivial ht fun _ _ => ⟨_, _, _, rfl, rfl⟩
  obtain ⟨m₂, hm₂, haction, ht₂⟩ := hfair.exists_ready ht₁ trivial
  have hcomes : r.ComesTo m₂ t (.join value error fiber) immediateId
      (r.world m₂).heap.handoffs.size :=
    ⟨_, _, _, _, ⟨haction, name, below, ht₂⟩, rfl, rfl⟩
  obtain ⟨-, ht₃⟩ := next_of_action haction ht₂ rfl
  obtain ⟨m₄, hm₄, ht₄⟩ := hfair.exists_registers himmediate ht₃
  obtain ⟨m₅, v, hm₅, hexit, ht₅⟩ := hfiber.exists_delivers hstart himmediate hfair
    (slot?_of_le hstart hslot (show n ≤ m₄ by omega)) ht₄
  obtain ⟨m₆, last', hm₆, ht₆⟩ := hfiber.exists_leaves hstart himmediate hfair
    (slot?_of_le hstart hslot (show n ≤ m₅ by omega))
    ⟨m₂, t, Nat.zero_le m₂, by omega, hcomes⟩ hexit ht₅
  exact ⟨m₆, last', by omega, ht₆⟩

omit himmediate in
/-- A caller that blocks gets what is recorded in the fiber if its interpretation ends with that. -/
theorem exists_received {warning : Event} (hfair : r.Fair) (hprivate : r.IsPrivate id)
    (hkept : ∀ k, ¬r.Drops k id) (hslot : (r.world n).heap.slot? fiber = some slot)
    (ht : (r.world n).threads[t]? = some ⟨name,
      .run (.drive (.settle slot.exit []) last (.channel value error id)),
        .after (.receive value error id warning) :: stack⟩) :
    ∃ m, n < m ∧ r.GoesBack m t (slot.reply value error) stack := by
  obtain ⟨m₁, refs, hm₁, ht₁⟩ := hfair.exists_concludes slot.step_exit ht
  obtain ⟨m₂, hm₂, hdoes, ht₂⟩ := hfair.exists_does ht₁
  have hsends := Task.concludeTurn_channel (hfiber.hasTags hstart hslot) (r.world m₂).heap id
  have hfull := hdoes.fills hstart hprivate hsends fun k _ => hkept k
  have hturn₂ : Thread.turn? t (r.world m₂).heap (r.world m₂).state
      ⟨name, .run (.conclude slot.exit (.channel value error id)),
        .holding refs :: .after (.receive value error id warning) :: stack⟩ =
        some ((r.world m₂).state,
          .holding refs :: .after (.receive value error id warning) :: stack,
            .ret ((r.world m₂).heap.send id slot.exit) .unit) := by
    simp only [Thread.turn?, Task.turn, hsends]
  obtain ⟨-, ht₃⟩ := next_of_action hdoes.1 ht₂ hturn₂
  obtain ⟨m₄, hm₄, ht₄⟩ := hfair.exists_held (show (r.world (m₂ + 1)).threads[t]? = some ⟨name,
    .replied (.ok .unit),
      .holding refs :: .after (.receive value error id warning) :: stack⟩ from ht₃)
  obtain ⟨m₅, hm₅, ht₅⟩ := hfair.exists_next
    ⟨name, .run (.receive value error id warning), stack⟩ trivial ht₄
    fun _ _ => ⟨_, _, _, rfl, rfl⟩
  obtain ⟨m₆, hm₆, haction, ht₆⟩ := hfair.exists_ready ht₅ trivial
  have hreceived : (r.world m₆).heap.received? id = some slot.exit :=
    Heap.received?_eq_some.2
      (full_of_le hfull (show m₂ + 1 ≤ m₆ by omega) fun k _ => hkept k)
  obtain ⟨-, ht₇⟩ := next_of_action haction ht₆ rfl
  rw [Task.turn_receive hreceived] at ht₇
  exact ⟨m₆ + 1, by omega, name, ht₇⟩

/-- A thread that blocks for the effect that joins a fiber in which something is recorded gets
that. -/
theorem blocks (hfair : r.Fair)
    (h : r.Turns k t (.run (.request (.runBlocking value error (.join value error fiber)))) stack)
    (hprivate : r.IsPrivate (r.world k).heap.channels.size)
    (hslot : (r.world k).heap.slot? fiber = some slot) :
    ∃ m, k < m ∧ r.GoesBack m t (slot.reply value error) stack := by
  obtain ⟨name, hopens, -, ht⟩ := opens_of_blocks h
  obtain ⟨m₁, last, hm₁, ht₁⟩ := hfiber.exists_joined hstart himmediate hfair
    (slot?_of_le hstart hslot (Nat.le_succ k)) ht
  obtain ⟨m₂, hm₂, hback⟩ := hfiber.exists_received hstart hfair hprivate
    (fun n => hopens.not_drops hstart (by simp) n)
    (slot?_of_le hstart hslot (show k ≤ m₁ by omega)) ht₁
  exact ⟨m₂, by omega, hback⟩

/-- The interpretation of the effect that joins a fiber ends with what is recorded in the fiber. -/
theorem concludes {p q : Place} {exit : Exit (Outcome H.Data H.Fn)}
    (hp : (r.world b).pendingAt p = some (.driving (.start (.join value error fiber)), finish))
    (hq : r.place b p n = some q)
    (hat : (r.world (b + n)).pendingAt q = some (.concluding exit, finish)) :
    ∃ slot, (r.world (b + n)).heap.slot? fiber = some slot ∧ exit = slot.exit := by
  have hstage : r.stage b p n = some (.concluding exit) := (r.stage_eq_some hp).2 ⟨q, hq, hat⟩
  rcases joins_course hstart himmediate hfiber.nodes (hfiber.slot_of_promised hstart) hp n with
    ⟨stage, j, hstage', hjoining, -⟩ | ⟨m, slot, hmn, hreads⟩
  · obtain rfl := Option.some.inj (hstage'.symm.trans hstage)
    cases hjoining
  · refine ⟨slot, slot?_of_le hstart hreads.slot (Nat.add_le_add_left hmn b), ?_⟩
    rcases (r.course hp).stage_of_finish hreads.stage slot.step_exit hmn with
      hdriving | hconcluding | hnone
    · have heq := Option.some.inj (hstage.symm.trans hdriving)
      contradiction
    · exact Stage.concluding.inj (Option.some.inj (hstage.symm.trans hconcluding))
    · have heq := hstage.symm.trans hnone
      contradiction

/-- A call that blocks for the effect that joins a fiber receives nothing but what is recorded in
the fiber. -/
theorem received {exit : Exit (Outcome H.Data H.Fn)}
    (hopens : r.Opens k (.runBlocking value error (.join value error fiber)) id)
    (hprivate : r.IsPrivate id) (hreceived : (r.world n).heap.received? id = some exit) :
    ∃ slot, (r.world n).heap.slot? fiber = some slot ∧ exit = slot.exit := by
  have hkept := hopens.not_drops hstart (by simp)
  obtain ⟨⟨t, haction, name, stack, ht⟩, rfl, -⟩ := hopens
  obtain ⟨name, -, hempty, ht₁⟩ := opens_of_blocks ⟨haction, name, ht⟩
  have hp := World.pendingAt_run ht₁
  obtain ⟨hlt, -⟩ := Array.getElem?_eq_some_iff.1 (Heap.received?_eq_some.1 hreceived)
  have hkn : k < n := Nat.lt_of_not_le fun hnk => Nat.not_lt_of_le (channels_size_le hnk) hlt
  obtain ⟨d, rfl⟩ := Nat.exists_eq_add_of_le hkn
  rw [Heap.received?_eq_some] at hreceived
  clear hkn hlt
  induction d with
  | zero =>
      have heq := Option.some.inj (hempty.symm.trans hreceived)
      contradiction
  | succ d ih =>
      obtain ⟨hsize, -⟩ := Array.getElem?_eq_some_iff.1 hempty
      obtain ⟨c, hc⟩ : ∃ c, (r.world (k + 1 + d)).heap.channels[(r.world k).heap.channels.size]? =
          some c := by
        have hle := channels_size_le (r := r) (Nat.le_add_right (k + 1) d)
        exact ⟨_, Array.getElem?_eq_getElem (Nat.lt_of_lt_of_le hsize hle)⟩
      rcases channel_next hc with hsame | ⟨-, hclosed⟩ | ⟨t', value', error', exit', _, hdoes, -, -⟩
      · obtain rfl := Option.some.inj (hsame.symm.trans hreceived)
        obtain ⟨slot, hslot, hexit⟩ := ih hc
        exact ⟨slot, slot?_of_le hstart hslot (Nat.le_succ _), hexit⟩
      · have heq := Option.some.inj (hclosed.symm.trans hreceived)
        contradiction
      · -- What has been sent is what the interpretation has ended with.
        obtain ⟨-, name', stack', ht'⟩ := id hdoes
        have hat := World.pendingAt_run ht'
        have hplace := EndsInto.place hstart hprivate ⟨_, value, error, hp⟩ ⟨_, value', error', hat⟩
        obtain ⟨stage, hthere⟩ := r.pendingAt_place hp hplace
        obtain ⟨-, hfinish⟩ := Prod.mk.inj (Option.some.inj (hat.symm.trans hthere))
        obtain ⟨rfl, rfl, -⟩ := Finish.channel.inj hfinish
        obtain ⟨slot, hslot, rfl⟩ := hfiber.concludes hstart himmediate hp hplace hat
        have hfull := hdoes.fills hstart hprivate
          (Task.concludeTurn_channel (hfiber.hasTags hstart hslot) _ _) fun n _ => hkept n
        exact ⟨slot, slot?_of_le hstart hslot (Nat.le_succ _),
          (Channel.full.inj (Option.some.inj (hfull.symm.trans hreceived))).symm⟩

end IsFiber

end Run

end Trampoline
