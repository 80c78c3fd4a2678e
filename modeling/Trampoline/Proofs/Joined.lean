import Trampoline.Proofs.Joins
import Trampoline.Proofs.Transfer

/-!
A node that joins a fiber gets its exit once the fiber's slot is there, if threads take their turns:
whoever has the slot for the node gets as far as delivering it, and a delivery that has to wait for
the node's submitter goes on when that one has left.
-/

namespace Trampoline

variable {H : Host}

namespace World

variable {w w' : World H} {t : ThreadId} {id : HandoffId}

/-- A thread that sleeps at a node wakes up when the submitter leaves the node. -/
theorem Acts.isLeft_of_wakes {shift : Shift H.Data H.Fn} (h : w.Acts w' shift)
    (hsleeps : w.SleepsAt t id) (hawake : ¬w'.SleepsAt t id) : w'.At id Phase.IsLeft := by
  cases h with
  | keep hidle hcalm => exact absurd ((hcalm.sleepers t id).2 hsleeps) hawake
  | start hcalm => exact absurd ((hcalm.sleepers t id).2 hsleeps) hawake
  | goOn hcalm => exact absurd ((hcalm.sleepers t id).2 hsleeps) hawake
  | ends hcalm => exact absurd ((hcalm.sleepers t id).2 hsleeps) hawake
  | suspend _ _ _ _ hsleepers => exact absurd ((hsleepers t id).2 hsleeps) hawake
  | early _ _ hsleepers => exact absurd ((hsleepers t id).2 hsleeps) hawake
  | wait _ _ _ hsleepers => exact absurd ((hsleepers t id).2 (.inl hsleeps)) hawake
  | refuse _ hcalm => exact absurd ((hcalm.sleepers t id).2 hsleeps) hawake
  | accept _ _ hsleepers => exact absurd ((hsleepers t id).2 hsleeps) hawake
  | inline _ _ _ hsleepers => exact absurd ((hsleepers t id).2 hsleeps) hawake
  | @park t' s l id' frames finish hat hhandoff hhandoffs hsleepers =>
      by_cases hid : id = id'
      · subst hid
        obtain ⟨hlt, -⟩ := Array.getElem?_eq_some_iff.1 hhandoff
        refine ⟨⟨s, .parked frames finish⟩, ?_, trivial⟩
        rw [hhandoffs, Array.getElem?_setIfInBounds_self_of_lt hlt]
      · exact absurd ((hsleepers t id).2 ⟨hsleeps, hid⟩) hawake

/-- A thread that sleeps at a node stays as it is until it wakes up. -/
theorem Ordered.thread_of_gate {a : Action} {name : Option String} {woken missed : Task H}
    {stack : List (Return H)} (hw : w.Ordered) (h : w.does a = some w')
    (ht : w.threads[t]? = some ⟨name, .asleep (.gate (.handoff id) none) woken missed, stack⟩) :
    w'.threads[t]? = some ⟨name, .asleep (.gate (.handoff id) none) woken missed, stack⟩ ∨
      w'.threads[t]? = some ⟨name, .run woken, stack⟩ := by
  rcases hw.thread_of_sleeper h ht with hsame | hwoken | ⟨hreached, -⟩
  · exact .inl hsame
  · exact .inr hwoken
  · contradiction

end World

namespace Run

variable {r : Run H} {n : Nat} {t : ThreadId} {id : HandoffId} {name : Option String}
  {stack : List (Return H)} {exit : Exit (Outcome H.Data H.Fn)} {origin : Origin}

/-- A node that has an exit has accepted it. -/
theorem exists_accepts_of_hasExit (h : (r.world n).At id Phase.HasExit) :
    ∃ m t exit, m < n ∧ r.Accepts m t id exit := by
  induction n with
  | zero =>
      obtain ⟨handoff, hhandoff, -⟩ := h
      simp [r.initial.handoffs] at hhandoff
  | succ n ih =>
      by_cases hbefore : (r.world n).At id Phase.HasExit
      · obtain ⟨m, t, exit, hm, haccepts⟩ := ih hbefore
        exact ⟨m, t, exit, Nat.lt_succ_of_lt hm, haccepts⟩
      · obtain ⟨⟨s, phase'⟩, hhandoff', hphase'⟩ := h
        have hacts := r.acts n
        generalize hshift : (r.world n).shift (r.action n) = shift at hacts
        rcases hacts.turned hhandoff' with rfl | ⟨phase, hhandoff, hturns⟩
        · exact hphase'.elim
        · cases hturns with
          | same => exact absurd ⟨_, hhandoff, hphase'⟩ hbefore
          | park => exact hphase'.elim
          | inline => exact absurd ⟨_, hhandoff, trivial⟩ hbefore
          | early =>
              obtain ⟨m, hm, haccepts⟩ := exists_accepts_of_early hhandoff'
              exact ⟨m, s, _, hm, haccepts⟩
          | accept =>
              obtain ⟨t, name, exit, origin, stack, haction, ht, -⟩ := World.deliver_of_shift hshift
              refine ⟨n, t, exit, Nat.lt_succ_self n, origin, _, ⟨haction, name, stack, ht⟩,
                hhandoff,
                ?_⟩
              simp [Handoff.offer, Offer.IsAccepted]

/-- An exit that is delivered once the submitter has left is accepted, unless there is one. -/
theorem hasExit_of_does (h : r.Does n t (.deliver id exit origin)) (hleft : r.HasLeft n id) :
    ∃ m, (r.world m).At id Phase.HasExit := by
  obtain ⟨⟨s, phase⟩, hhandoff, hphase⟩ := hleft
  obtain ⟨haction, name, stack, ht⟩ := h
  cases phase with
  | submitting => exact hphase.elim
  | early exit => exact hphase.elim
  | resumed => exact ⟨n, _, hhandoff, trivial⟩
  | parked frames finish =>
      have haccepts : r.Accepts n t id exit :=
        ⟨origin, _, ⟨haction, name, stack, ht⟩, hhandoff, by simp [Handoff.offer, Offer.IsAccepted]⟩
      exact ⟨n + 1, haccepts.hasExit.2⟩

/-- A thread that sleeps at a node is awake once the submitter has left the node, unless the node
has an exit. -/
theorem exists_awake {woken missed : Task H}
    (ht : (r.world n).threads[t]? =
      some ⟨name, .asleep (.gate (.handoff id) none) woken missed, stack⟩)
    (hhandoff : ∃ handoff, (r.world n).heap.handoffs[id]? = some handoff)
    (hbefore : ¬r.HasLeft n id) (hleaves : ∃ k, r.HasLeft k id) :
    (∃ m, (r.world m).threads[t]? = some ⟨name, .run woken, stack⟩ ∧ r.HasLeft m id) ∨
      ∃ m, (r.world m).At id Phase.HasExit := by
  have hkeep (d : Nat) :
      (∃ m, (r.world m).threads[t]? = some ⟨name, .run woken, stack⟩ ∧ r.HasLeft m id) ∨
        (r.world (n + d)).threads[t]? =
          some ⟨name, .asleep (.gate (.handoff id) none) woken missed, stack⟩ := by
    induction d with
    | zero => exact .inr ht
    | succ d ih =>
        rcases ih with hawake | hd
        · exact .inl hawake
        · rcases (r.ordered _).thread_of_gate (r.step _) hd with hsame | hwoken
          · exact .inr hsame
          · refine .inl ⟨n + d + 1, hwoken, (r.acts _).isLeft_of_wakes ⟨_, hd, rfl⟩ ?_⟩
            rintro ⟨thread, hthread, hsleeps⟩
            obtain rfl := Option.some.inj (hthread.symm.trans hwoken)
            exact hsleeps
  obtain ⟨k, hk⟩ := hleaves
  obtain ⟨i, -, hnot, -, hafter⟩ := exists_leaves hk
  have hni : n ≤ i := by
    refine Nat.le_of_not_lt fun hlt => hbefore (hafter.le hlt)
  obtain ⟨d, rfl⟩ := Nat.exists_eq_add_of_le hni
  refine (hkeep (d + 1)).imp_right fun hd => ?_
  obtain ⟨⟨s, phase⟩, hhandoff⟩ := hhandoff
  obtain ⟨phase', hphase⟩ := handoff_le hhandoff hni
  -- The submitter has left, and yet the thread sleeps: there was an exit.
  obtain ⟨⟨exit, rfl⟩, -⟩ := ((r.acts (n + d)).sleepsAt_of_leaving hphase
    (fun hleft => hnot ⟨_, hphase, hleft⟩) hafter t).1 ⟨_, hd, rfl⟩
  exact ⟨n + d, _, hphase, trivial⟩

/-- A thread that is about to deliver an exit to a node that its submitter leaves at some time gets
to do so, unless there is an exit. -/
theorem Fair.exists_hasExit (hfair : r.Fair)
    (ht : (r.world n).threads[t]? = some ⟨name, .run (.deliver id exit origin), stack⟩)
    (hhandoff : ∃ handoff, (r.world n).heap.handoffs[id]? = some handoff)
    (hleaves : ∃ k, r.HasLeft k id) : ∃ m, (r.world m).At id Phase.HasExit := by
  obtain ⟨m, hm, hdoes, ht'⟩ := hfair.exists_does ht
  obtain ⟨⟨s, phase⟩, hhandoff⟩ := hhandoff
  obtain ⟨phase', hhandoff'⟩ := handoff_le hhandoff hm
  by_cases hwaits : phase' = .submitting ∧ t ≠ s
  · obtain ⟨rfl, hs⟩ := hwaits
    have hturn : Thread.turn? t (r.world m).heap (r.world m).state
        ⟨name, .run (.deliver id exit origin), stack⟩ = some ((r.world m).state, stack,
          .sleep (r.world m).heap (.gate (.handoff id) none) (.deliver id exit origin)
            (.deliver id exit origin)) := by
      simp only [Thread.turn?, Task.turn, Task.deliverTurn, hhandoff', Handoff.offer, if_neg hs]
    obtain ⟨-, hasleep⟩ := next_of_action hdoes.1 ht' hturn
    by_cases hleft : r.HasLeft (m + 1) id
    · rcases hasLeft_succ hleft with ⟨handoff, hhandoff₀, hleft₀⟩ | hleave
      · obtain rfl := Option.some.inj (hhandoff₀.symm.trans hhandoff')
        exact hleft₀.elim
      · obtain ⟨t₀, _, _, _, _, _, haction, ht₀⟩ := hleave
        obtain ⟨-, heq⟩ := hdoes.unique ⟨haction, _, _, ht₀⟩
        contradiction
    · obtain ⟨_, hhandoff₁⟩ := handoff_le hhandoff' (Nat.le_succ m)
      rcases exists_awake hasleep ⟨_, hhandoff₁⟩ hleft hleaves with ⟨j, htj, hleftj⟩ | hexit
      · obtain ⟨i, hi, hdoes', -⟩ := hfair.exists_does htj
        exact hasExit_of_does hdoes' (hleftj.le hi)
      · exact hexit
  · by_cases hleft : r.HasLeft m id
    · exact hasExit_of_does hdoes hleft
    · cases phase' with
      | early exit' => exact ⟨m, _, hhandoff', trivial⟩
      | resumed => exact ⟨m, _, hhandoff', trivial⟩
      | parked frames finish => exact absurd ⟨_, hhandoff', trivial⟩ hleft
      | submitting =>
          have hs : t = s := Classical.byContradiction fun hne => hwaits ⟨rfl, hne⟩
          have haccepts : r.Accepts m t id exit := by
            refine ⟨origin, _, ⟨hdoes.1, _, _, ht'⟩, hhandoff', ?_⟩
            simp [Handoff.offer, hs, Offer.IsAccepted]
          exact ⟨m + 1, haccepts.hasExit.2⟩

theorem Serves.tells {promise : PromiseId} {subscriber : Subscriber H.Fn} {m : Nat}
    {v : Value H.Data H.Fn} (h : r.Serves promise n subscriber m t v) :
    r.Tells promise m t subscriber v := by
  cases h with
  | onTheSpot hsubscribes hpromised => exact .late hsubscribes.1 hpromised
  | later _ _ hdoes => exact .kept hdoes

/-- A subscription is served when it comes or later. -/
theorem Serves.le (hstart : (r.world 0).Starting) {promise : PromiseId}
    {subscriber : Subscriber H.Fn} {m : Nat} {v : Value H.Data H.Fn}
    (h : r.Serves promise n subscriber m t v) : n ≤ m := by
  cases h with
  | onTheSpot => exact Nat.le_refl n
  | later _ _ hdoes hlength =>
      refine Nat.le_of_not_lt fun hmn => ?_
      obtain ⟨hlt, -⟩ := List.getElem?_eq_some_iff.1 (hdoes.kept_of_notify hstart).2
      have hkept := ledger_prefix (fun k => (r.world k).keeps promise (r.action k))
        (Nat.le_of_lt hmn)
      rw [hlength] at hlt
      exact Nat.not_lt_of_le hkept.length_le hlt

/-- A node has its meeting point from when a thread has come to it. -/
theorem ComesTo.exists_handoff {k m : Nat} {register : Register H.Fn} {scheduler : SchedulerId}
    (h : r.ComesTo k t register scheduler id) (hkm : k < m) :
    ∃ handoff, (r.world m).heap.handoffs[id]? = some handoff := by
  obtain ⟨i, last, finish, frames, ⟨haction, name, stack, ht⟩, hstep, rfl⟩ := h
  have hshift : (r.world k).shift (r.action k) =
      .moved (.thread t stack.length) i.deeds (some (.thread t stack.length)) := by
    rw [haction, World.shift_thread ht]
    simp only [World.turnShift, hstep]
  have hacts := r.acts k
  rw [hshift] at hacts
  have hpush := hacts.of_suspend (World.pendingAt_run ht) hstep
  obtain ⟨phase, hhandoff⟩ := handoff_le (show
    (r.world (k + 1)).heap.handoffs[(r.world k).heap.handoffs.size]? = some ⟨t, .submitting⟩ by
      rw [hpush, Array.getElem?_push_size]
      rfl) hkm
  exact ⟨_, hhandoff⟩

/-- Whoever subscribes to a fiber from time `n` on is told its slot. -/
def TellsFrom (r : Run H) (n : Nat) (fiber : PromiseId) : Prop :=
  ∀ m t subscriber, n ≤ m → r.Subscribes fiber m t subscriber →
    ∃ m' t' v, m ≤ m' ∧ r.Tells fiber m' t' subscriber v

/-- Nobody subscribes to a fiber after someone else has. -/
def SubscribesOnce (r : Run H) (fiber : PromiseId) : Prop :=
  ∀ {n m : Nat} {t t' : ThreadId} {subscriber subscriber' : Subscriber H.Fn},
    r.Subscribes fiber n t subscriber → r.Subscribes fiber m t' subscriber' → n = m

section Join

variable {k m : Nat} {s t' : ThreadId} {value error : Ty} {fiber : PromiseId}
  {v : Value H.Data H.Fn} (hstart : (r.world 0).Starting)

include hstart

/-- Who subscribes once the slot is there is told it on the spot. -/
theorem tellsFrom_of_promised (hpromised : (r.world n).heap.promised? fiber = some v) :
    r.TellsFrom n fiber :=
  fun m t _ hnm hsubscribes =>
    ⟨m, t, v, Nat.le_refl m, .late hsubscribes.1 (promised?_of_le hstart hpromised hnm)⟩

/-- Everybody is told the slot if the call that writes it comes to its end. -/
theorem Ends.tellsFrom {first : Option Payload} (h : r.Ends fiber k t v first) (n : Nat) :
    r.TellsFrom n fiber := by
  intro m _ subscriber _ hsubscribes
  obtain ⟨m', t', hserves, -⟩ := hsubscribes.served hstart h
  exact ⟨m', t', v, hserves.le hstart, hserves.tells⟩

/-- A single subscriber is told the slot once it is written. -/
theorem Fair.tellsFrom (hfair : r.Fair) (honce : r.SubscribesOnce fiber)
    (hpromised : (r.world m).heap.promised? fiber = some v) (n : Nat) : r.TellsFrom n fiber := by
  intro d _ subscriber hnd hsubscribes
  obtain ⟨m₀, t₀, -, hwrites⟩ := (promised?_eq_some hstart).1 hpromised
  have hthere {i : Nat} (hi : m₀ + 1 ≤ i) : ∃ promise, (r.world i).heap.promises[fiber]? =
      some promise := by
    have hvalue := (promised?_eq_some hstart).2 ⟨m₀, t₀, hi, hwrites⟩
    unfold Heap.promised? at hvalue
    split at hvalue
    · exact ⟨_, by assumption⟩
    · contradiction
  obtain ⟨heap, ⟨⟨name, stack, -, ht⟩, -⟩, -⟩ := hwrites.accepted hstart
  obtain ⟨m₁, hm₁, haction₁, ht₁⟩ := hfair.exists_ready ht trivial
  obtain ⟨promise, hpromise⟩ := hthere hm₁
  have hturn₁ : Thread.turn? t₀ (r.world m₁).heap (r.world m₁).state
      ⟨name, .run (.take fiber v), stack⟩ = some ((r.world m₁).state, stack,
        .run ((r.world m₁).heap.setPromise fiber promise.take.1)
          (.wake fiber v promise.take.2)) := by
    simp only [Thread.turn?, Task.turn, hpromise]
  obtain ⟨-, ht₂⟩ := next_of_action haction₁ ht₁ hturn₁
  obtain ⟨m₃, hm₃, ht₃⟩ := hfair.exists_next
    ⟨name, .run (.notify fiber v promise.take.2 none), stack⟩ trivial ht₂
    fun _ _ => ⟨_, _, _, rfl, rfl⟩
  obtain ⟨m₄, hm₄, hdoes, ht₄⟩ := hfair.exists_does ht₃
  cases hsubscribers : promise.take.2 with
  | nil =>
      rw [hsubscribers] at hdoes
      exact Ends.tellsFrom hstart hdoes n d _ subscriber hnd hsubscribes
  | cons first rest =>
      rw [hsubscribers] at hdoes
      obtain ⟨i, hserves⟩ := hdoes.serves hstart
      obtain ⟨_, hfirst⟩ : ∃ t, r.Subscribes fiber i t first := by
        cases hserves with
        | onTheSpot hsubscribes' => exact ⟨_, hsubscribes'⟩
        | later hsubscribes' => exact ⟨_, hsubscribes'⟩
      obtain rfl := honce hfirst hsubscribes
      obtain ⟨-, heq⟩ := hfirst.1.unique hsubscribes.1
      obtain ⟨-, rfl⟩ := Task.subscribe.inj heq
      exact ⟨m₄, t₀, v, hserves.le hstart, .kept hdoes⟩

omit hstart in
/-- A node whose subscription to a fiber is served gets an exit. -/
theorem Tells.exists_accepts (hfair : r.Fair)
    (h : r.Tells fiber m t (.join value error (.node id)) v)
    (hhandoff : ∃ handoff, (r.world m).heap.handoffs[id]? = some handoff)
    (hleaves : ∃ k, r.HasLeft k id) : ∃ m t exit, r.Accepts m t id exit := by
  obtain ⟨⟨s, phase⟩, hhandoff₁⟩ := hhandoff
  obtain ⟨name, stack, ht₁⟩ := h.calls
  obtain ⟨m₂, hm₂, ht₂⟩ := hfair.exists_next ⟨name, .run (.invoke (.node id) (.ok v)), stack⟩
    trivial ht₁ fun _ _ => ⟨_, _, _, rfl, rfl⟩
  obtain ⟨m₃, hm₃, ht₃⟩ := hfair.exists_next
    ⟨name, .run (.deliver id (.settled (.ok v)) .completion), stack⟩ trivial ht₂
    fun _ _ => ⟨_, _, _, rfl, rfl⟩
  obtain ⟨phase', hhandoff₃⟩ := handoff_le (m := m₃) hhandoff₁ (by omega)
  obtain ⟨m₄, hexit⟩ := hfair.exists_hasExit ht₃ ⟨_, hhandoff₃⟩ hleaves
  obtain ⟨i, t', exit, -, haccepts⟩ := exists_accepts_of_hasExit hexit
  exact ⟨i, t', exit, haccepts⟩

end Join

end Run

end Trampoline
