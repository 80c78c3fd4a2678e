import Trampoline.Proofs.Handovers
import Trampoline.Proofs.Owning

/-!
Interpretations that nobody can end any more. One that is parked at an async node stays there for
all time when the node is dropped, which is when its callback is dropped and its work has returned
or is dropped; and one that the panic of a submission lets go of is gone. These are the ones that
end into a channel without a sender, but for those that have ended.
-/

namespace Trampoline

namespace Run

variable {H : Host} {r : Run H} {b n m : Nat} {p q : Place} {id : ChannelId} {value error : Ty}
  {i : Interpretation H.Data H.Fn} {exit : Exit (Outcome H.Data H.Fn)} {payload : Payload}

/-- Nobody can end the interpretation any more that is at `p` at time `b`, `n` actions later: it is
parked at an async node, which is dropped; or it has been let go. A node is kept by its callback, by
its work until this has returned, and by whoever delivers an exit to it. -/
inductive Forsaken (r : Run H) (b : Nat) (p : Place) (n : Nat) : Prop where
  | parked {node : HandoffId} :
      r.place b p n = some (.handoff node) →
        (r.world (b + n)).heap.Dropped (r.world (b + n)).roots (.handoff node) → Forsaken r b p n
  | letGo {j : Nat} {payload : Payload} : j < n → r.LetsGo b p j payload → Forsaken r b p n

/-- An interpretation that is forsaken stays so. -/
structure StaysForsaken (r : Run H) (b : Nat) (p : Place) : Prop where
  /-- A node at which the interpretation is parked has got no exit. -/
  exitless {n m : Nat} {node : HandoffId} : r.place b p n = some (.handoff node) → m ≤ b + n →
    ¬(r.world m).At node Phase.HasExit
  /-- It stays where it is once it is forsaken, nothing is done for it, -/
  stays {n m : Nat} : r.Forsaken b p n → n ≤ m →
    r.Forsaken b p m ∧ r.place b p m = r.place b p n ∧ r.deeds b p m = []
  /-- and it does not end. -/
  endless {n c : Nat} {exit : Exit (Outcome H.Data H.Fn)} : r.Forsaken b p n → ¬r.EndsAt b p c exit
  /-- No submission lets go of it if it is parked. -/
  unreleased {n j : Nat} {node : HandoffId} {payload : Payload} :
    r.place b p n = some (.handoff node) →
      (r.world (b + n)).heap.Dropped (r.world (b + n)).roots (.handoff node) →
        ¬r.LetsGo b p j payload

section Over

variable {x : Pending H.Data H.Fn} (hp : (r.world b).pendingAt p = some x)
include hp

/-- An interpretation that is over now ends with the action, or is let go. -/
theorem ends_or_letsGo (hq : r.place b p n = some q) (hover : r.place b p (n + 1) = none) :
    (∃ exit, r.EndsAt b p n exit) ∨ ∃ payload, r.LetsGo b p n payload := by
  obtain ⟨stage, hat⟩ := r.pendingAt_place hp hq
  have hnext : (r.world (b + n)).next? (r.action (b + n)) q = none := by
    rwa [place, hq] at hover
  obtain ⟨done, hshift⟩ := World.shift_of_next?_eq_none hnext
  cases q with
  | handoff node =>
      obtain ⟨_, _, _, _, _, -, -, -, ho⟩ := World.deliver_of_shift hshift
      contradiction
  | thread t level =>
      have haction := World.action_of_shift hshift
      rcases World.panics_of_shift hshift with ⟨name, payload, back, rest, ht, rfl⟩ |
        ⟨exit, finish, hconcluding⟩
      · have hback := World.back_of_pendingAt hat ht rfl rfl
        rw [haction, World.shift_thread ht] at hshift
        cases back with
        | answering => simp [World.turnShift] at hshift
        | after task =>
            cases task with
            | park node frames last finish =>
                exact .inr ⟨payload, t, node, frames, last, finish, rest, ⟨haction, name, ht⟩, hq⟩
            | _ => contradiction
        | _ => contradiction
      · obtain ⟨rfl, -⟩ := Prod.mk.inj (Option.some.inj (hat.symm.trans hconcluding))
        have hdeeds :
            r.deeds b p n = (r.world (b + n)).deeds (r.action (b + n)) (.thread t level) := by
          simp [deeds, hq]
        simp only [EndsAt, hdeeds]
        cases (r.sound (b + n)).follows (r.step (b + n)) hat with
        | ends _ hstep =>
            generalize
              (r.world (b + n)).deeds (r.action (b + n)) (.thread t level) = deeds at hstep ⊢
            cases hstep with
            | conclude => exact .inl ⟨exit, List.mem_singleton.2 rfl⟩
        | stays _ hstays =>
            rw [hstays] at hnext
            contradiction
        | moves hmoves =>
            rw [hmoves] at hnext
            contradiction

/-- An interpretation that is over has ended, or has been let go. -/
theorem ended_or_letGo (hover : r.place b p n = none) :
    ∃ j, j < n ∧ ((∃ exit, r.EndsAt b p j exit) ∨ ∃ payload, r.LetsGo b p j payload) := by
  induction n with
  | zero => simp [place] at hover
  | succ n ih =>
      cases hq : r.place b p n with
      | none =>
          obtain ⟨j, hj, h⟩ := ih hq
          exact ⟨j, Nat.lt_succ_of_lt hj, h⟩
      | some q => exact ⟨n, Nat.lt_succ_self n, ends_or_letsGo hp hq hover⟩

theorem LetsGo.place_eq_none (h : r.LetsGo b p n payload) (hnm : n < m) : r.place b p m = none := by
  obtain ⟨t, l, node, frames, -, -, -, hover⟩ := h.exists_submitting hp
  exact r.place_eq_none hp (r.stage_eq_none_of_le hp hover hnm)

/-- An interpretation is let go once. -/
theorem LetsGo.unique {payload' : Payload} (h : r.LetsGo b p n payload)
    (h' : r.LetsGo b p m payload') : n = m ∧ payload = payload' := by
  have hle {n m : Nat} {payload payload' : Payload} (h : r.LetsGo b p n payload)
      (h' : r.LetsGo b p m payload') : ¬n < m := by
    intro hlt
    obtain ⟨t, l, node, frames, hplace, -⟩ := h'.exists_submitting hp
    rw [h.place_eq_none hp hlt] at hplace
    contradiction
  obtain rfl : n = m := Nat.le_antisymm (Nat.le_of_not_lt (hle h' h)) (Nat.le_of_not_lt (hle h h'))
  obtain ⟨t, _, _, _, _, stack, ⟨haction, name, ht⟩, -⟩ := h
  obtain ⟨t', _, _, _, _, stack', ⟨haction', name', ht'⟩, -⟩ := h'
  obtain rfl := Action.thread.inj (haction.symm.trans haction')
  obtain ⟨-, hcontrol, -⟩ := Thread.mk.inj (Option.some.inj (ht.symm.trans ht'))
  exact ⟨rfl, Control.raise.inj hcontrol⟩

/-- The node at which an interpretation is parked has got no exit. -/
theorem not_hasExit_of_place {node : HandoffId} (hq : r.place b p n = some (.handoff node))
    (hm : m ≤ b + n) : ¬(r.world m).At node Phase.HasExit := by
  intro hexit
  obtain ⟨handoff, hhandoff, hphase⟩ := hasExit_le hexit hm
  obtain ⟨stage, hat⟩ := r.pendingAt_place hp hq
  obtain ⟨handoff', hhandoff', hpending⟩ := Option.bind_eq_some_iff.1 hat
  obtain rfl := Option.some.inj (hhandoff.symm.trans hhandoff')
  obtain ⟨s, phase⟩ := handoff
  cases phase <;> first | exact hphase | contradiction

end Over

namespace IsHonest

variable (hhonest : r.IsHonest)
include hhonest

/-- A thread keeps the node to which it delivers an exit, or with whose callback it calls a
registration. -/
theorem not_dropped_of_names {t : ThreadId} {thread : Thread H} {x : Ref}
    (ht : (r.world n).threads[t]? = some thread) (hx : thread.Names x) :
    ¬(r.world n).heap.Dropped (r.world n).roots x :=
  (hhonest.held_of_known (.here (World.names_of_thread ht hx))).not_dropped

section Pending

variable {x : Pending H.Data H.Fn} (hp : (r.world b).pendingAt p = some x)
include hp

/-- An interpretation that is parked at a node that has been dropped stays there, and nothing is
done for it. -/
theorem parked_next {node : HandoffId} (hq : r.place b p n = some (.handoff node))
    (hdropped : (r.world (b + n)).heap.Dropped (r.world (b + n)).roots (.handoff node)) :
    r.place b p (n + 1) = some (.handoff node) ∧ r.deeds b p n = [] ∧
      (r.world (b + n + 1)).heap.Dropped (r.world (b + n + 1)).roots (.handoff node) := by
  obtain ⟨stage, hat⟩ := r.pendingAt_place hp hq
  obtain ⟨handoff, hhandoff, hpending⟩ := Option.bind_eq_some_iff.1 hat
  have hhas : (r.world (b + n)).heap.Has (.handoff node) :=
    (Array.getElem?_eq_some_iff.1 hhandoff).1
  have hnode : stage.node? = some node := by
    obtain ⟨s, phase⟩ := handoff
    cases phase with
    | parked frames finish =>
        obtain ⟨rfl, -⟩ := Prod.mk.inj (Option.some.inj hpending)
        rfl
    | _ => contradiction
  have hmoved {deeds : List (Deed H.Data H.Fn)} {o : Option Place} :
      (r.world (b + n)).shift (r.action (b + n)) ≠ .moved (.handoff node) deeds o := by
    intro hshift
    obtain ⟨t, name, exit, origin, stack, -, ht, -⟩ := World.deliver_of_shift hshift
    exact hhonest.not_dropped_of_names ht (.inl (.inl rfl)) hdropped
  have hregistered {reg : Register H.Fn} :
      (r.world (b + n)).shift (r.action (b + n)) ≠ .registered reg node := by
    intro hshift
    obtain ⟨t, name, stack, -, ht⟩ := World.register_of_shift hshift
    exact hhonest.not_dropped_of_names ht (.inl (.inr (Kept.mem_singleton.2 rfl))) hdropped
  refine ⟨?_, ?_, hhonest.dropped_of_le hhas (fun _ => by simp) hdropped (Nat.le_succ _)⟩
  · simp only [place, hq, Option.bind_some]
    exact World.next?_of_other fun deeds o => hmoved
  · simp only [deeds, hq, Option.map_some, Option.getD_some, World.deeds]
    split
    · rename_i q' deeds o hshift
      rw [if_neg]
      rintro rfl
      exact hmoved hshift
    · rename_i reg node' hshift
      rw [if_neg]
      rw [hat, Option.bind_some, hnode]
      rintro heq
      obtain rfl := Option.some.inj heq
      exact hregistered hshift
    · rfl

/-- Nothing changes for an interpretation that nobody can end, -/
theorem forsaken_of_le (h : r.Forsaken b p n) (hnm : n ≤ m) :
    r.Forsaken b p m ∧ r.place b p m = r.place b p n ∧ r.deeds b p m = [] := by
  cases h with
  | @parked node hq hdropped =>
      have hstays : r.place b p m = some (.handoff node) ∧
          (r.world (b + m)).heap.Dropped (r.world (b + m)).roots (.handoff node) := by
        induction hnm with
        | refl => exact ⟨hq, hdropped⟩
        | step _ ih =>
            obtain ⟨hq', -, hdropped'⟩ := hhonest.parked_next hp ih.1 ih.2
            exact ⟨hq', hdropped'⟩
      exact ⟨.parked hstays.1 hstays.2, hstays.1.trans hq.symm,
        (hhonest.parked_next hp hstays.1 hstays.2).2.1⟩
  | letGo hj hgo =>
      have hm := hgo.place_eq_none hp (Nat.lt_of_lt_of_le hj hnm)
      exact ⟨.letGo (Nat.lt_of_lt_of_le hj hnm) hgo, hm.trans (hgo.place_eq_none hp hj).symm,
        by simp [deeds, hm]⟩

/-- and it never ends. -/
theorem not_endsAt_of_forsaken (h : r.Forsaken b p n) (c : Nat) : ¬r.EndsAt b p c exit := by
  intro hends
  rcases Nat.lt_or_ge c n with hcn | hnc
  · cases h with
    | parked hq =>
        obtain ⟨-, hover, -⟩ := hends.stage hp
        rw [r.place_eq_none hp (r.stage_eq_none_of_le hp hover hcn)] at hq
        contradiction
    | letGo _ hgo => exact hgo.not_endsAt hp c exit hends
  · have hmem : .finish exit ∈ r.deeds b p c := hends
    rw [(hhonest.forsaken_of_le hp h hnc).2.2] at hmem
    exact absurd hmem List.not_mem_nil

theorem not_letsGo_of_dropped {node : HandoffId} (hq : r.place b p n = some (.handoff node))
    (hdropped : (r.world (b + n)).heap.Dropped (r.world (b + n)).roots (.handoff node)) :
    ¬r.LetsGo b p m payload := by
  intro hgo
  rcases Nat.lt_or_ge m n with hmn | hnm
  · rw [hgo.place_eq_none hp hmn] at hq
    contradiction
  · obtain ⟨t, l, _, _, hplace, -⟩ := hgo.exists_submitting hp
    rw [(hhonest.forsaken_of_le hp (.parked hq hdropped) hnm).2.1, hq] at hplace
    cases hplace

theorem staysForsaken : r.StaysForsaken b p where
  exitless hplace hm := not_hasExit_of_place hp hplace hm
  stays hforsaken hnm := hhonest.forsaken_of_le hp hforsaken hnm
  endless hforsaken := hhonest.not_endsAt_of_forsaken hp hforsaken _
  unreleased hq hdropped := hhonest.not_letsGo_of_dropped hp hq hdropped

end Pending

section Channel

variable (hstart : (r.world 0).Starting)
  (hp : (r.world b).pendingAt p = some (.driving i, .channel value error id))
include hstart hp

/-- A channel has no sender when the interpretation that ends into it is over, or is parked at a
node that has been dropped. -/
theorem hasSender_eq_false_iff_place : (r.world (b + n)).hasSender id = false ↔
    r.place b p n = none ∨ ∃ node, r.place b p n = some (.handoff node) ∧
      (r.world (b + n)).heap.Dropped (r.world (b + n)).roots (.handoff node) := by
  have hprivate := hhonest.isPrivate hstart id
  have hinto : r.EndsInto b p id := ⟨_, _, _, hp⟩
  have hid : id < (r.world (b + n)).heap.channels.size :=
    Nat.lt_of_lt_of_le (hinto.lt hstart hprivate) (channels_size_le (Nat.le_add_right b n))
  rw [hhonest.hasSender_eq_false_iff hstart hid]
  constructor
  · intro hall
    cases hq : r.place b p n with
    | none => exact .inl rfl
    | some q =>
        obtain ⟨stage, hat⟩ := r.pendingAt_place hp hq
        obtain ⟨node, rfl, hdropped⟩ := hall q ⟨stage, value, error, hat⟩
        exact .inr ⟨node, rfl, hdropped⟩
  · intro h q hq
    have hplace := hinto.place hstart hprivate hq
    rcases h with hnone | ⟨node, hnode, hdropped⟩
    · rw [hnone] at hplace
      contradiction
    · exact ⟨node, Option.some.inj (hplace.symm.trans hnode), hdropped⟩

/-- The sender is there as long as the interpretation is under way to its end. -/
theorem keepsSender : r.KeepsSender b p id := by
  intro n exit hends m hbm hmn
  obtain ⟨d, rfl⟩ := Nat.exists_eq_add_of_le hbm
  by_contra hsender
  rw [Bool.not_eq_true] at hsender
  rcases (hhonest.hasSender_eq_false_iff_place hstart hp).1 hsender with
    hover | ⟨node, hq, hdropped⟩
  · have hstage : r.stage b p d = none := by simp [stage, hover]
    have hnd := hends.lt_of_over hp hstage
    omega
  · exact hhonest.not_endsAt_of_forsaken hp (.parked hq hdropped) n hends

theorem hasSender_of_forsaken (h : r.Forsaken b p n) :
    (r.world (b + n)).hasSender id = false := by
  refine (hhonest.hasSender_eq_false_iff_place hstart hp).2 ?_
  cases h with
  | parked hq hdropped => exact .inr ⟨_, hq, hdropped⟩
  | letGo hj hgo => exact .inl (hgo.place_eq_none hp hj)

variable (htyped : r.EndsTyped b p value error)
include htyped

theorem received_of_forsaken (h : r.Forsaken b p n) (m : Nat) :
    (r.world m).heap.received? id = none := by
  cases hreceived : (r.world m).heap.received? id with
  | none => rfl
  | some exit =>
      obtain ⟨c, -, hends⟩ := exists_endsAt_of_received hstart (hhonest.isPrivate hstart id) hp
        htyped hreceived
      exact absurd hends (hhonest.not_endsAt_of_forsaken hp h c)

/-- An interpretation is forsaken when its exit cannot come any more and has not come before. -/
theorem forsaken_of_hasSender (hkept : ∀ k, k < b + n → ¬r.Drops k id)
    (hsender : (r.world (b + n)).hasSender id = false)
    (hreceived : (r.world (b + n)).heap.received? id = none) : r.Forsaken b p n := by
  rcases (hhonest.hasSender_eq_false_iff_place hstart hp).1 hsender with
    hover | ⟨node, hq, hdropped⟩
  · obtain ⟨j, hj, ⟨exit, hends⟩ | ⟨payload, hgo⟩⟩ := ended_or_letGo hp hover
    · rw [hends.received hstart (hhonest.isPrivate hstart id) hp htyped hkept (by omega)]
        at hreceived
      contradiction
    · exact .letGo hj hgo
  · exact .parked hq hdropped

end Channel

end IsHonest

/-- The exit of the interpretation that is at `p` at time `b` can come through the channel until it
does: nobody gets hold of what they have not been given, or the sender is there as long as the
interpretation is under way to its end. -/
def HoldsSender (r : Run H) (b : Nat) (p : Place) (id : ChannelId) : Prop :=
  r.IsHonest ∨ r.KeepsSender b p id

theorem HoldsSender.keeps (h : r.HoldsSender b p id) (hstart : (r.world 0).Starting)
    (hp : (r.world b).pendingAt p = some (.driving i, .channel value error id)) :
    r.KeepsSender b p id :=
  h.elim (fun hhonest => hhonest.keepsSender hstart hp) fun hkeeps => hkeeps

end Run

end Trampoline
