import Trampoline.Proofs.Channels
import Trampoline.Proofs.Drill
import Trampoline.Proofs.Transfer

/-!
Panics pass every continuation. Once a function of an interpretation has panicked, or the
registration of its node has and the panic is the node's exit, the interpretation takes none of the
continuations that are pending, ends with the panic, and hands it to whoever wants the outcome.
-/

namespace Trampoline

/-- What an interpretation can still do after a panic: a reply that has been on its way comes, the
node it waits for is registered and gets its exit, and the finisher is called. -/
def Deed.Passes {D F : Type} (payload : Payload) : Deed D F → Prop
  | .reply _ => True
  | .call (.register _) => True
  | .exit x => x = .panicked payload
  | .finish x => x = .panicked payload
  | _ => False

namespace Stage

variable {D F : Type} {payload : Payload}

/-- A panic is in focus, and the continuations are still pending. -/
def PanickedBy (payload : Payload) : Stage D F → Prop
  | .driving i => i.focus = .exit (.panicked payload)
  | .resuming exit _ => exit = .panicked payload
  | .concluding exit => exit = .panicked payload
  | _ => False

theorem panickedBy_settle (frames : List (Frame D F)) :
    (driving (.settle (.panicked payload) frames)).PanickedBy payload := rfl

/-- Whatever continuations are pending, a panic in focus stays there and ends the interpretation. -/
theorem Step.of_panickedBy {s : Stage D F} {deeds : List (Deed D F)} {o : Option (Stage D F)}
    (h : s.Step deeds o) (hs : s.PanickedBy payload) :
    (∀ d ∈ deeds, d.Passes payload) ∧ ∀ s', o = some s' → s'.PanickedBy payload := by
  have hstep {i : Interpretation D F} (hi : (driving i).PanickedBy payload) :
      i.step = .finish (.panicked payload) := by
    obtain ⟨focus, frames⟩ := i
    obtain rfl : focus = .exit (.panicked payload) := hi
    exact Interpretation.step_panicked payload frames
  cases h with
  | next h => simp [hstep hs] at h
  | ask h => simp [hstep hs] at h
  | suspend h => simp [hstep hs] at h
  | finish h =>
      obtain rfl := Progress.finish.inj ((hstep hs).symm.trans h)
      rw [Interpretation.deeds_of_finish h]
      exact ⟨by simp, by rintro _ ⟨⟩; rfl⟩
  | resume => exact ⟨by simp, by rintro _ ⟨⟩; exact congrArg Focus.exit hs⟩
  | conclude =>
      refine ⟨fun d hd => ?_, by simp⟩
      obtain rfl := List.mem_singleton.1 hd
      exact hs
  | _ => contradiction

theorem Goes.of_panickedBy {s : Stage D F} {deeds : List (Deed D F)} {o : Option (Stage D F)}
    (h : s.Goes deeds o) (hs : s.PanickedBy payload) :
    (∀ d ∈ deeds, d.Passes payload) ∧ ∀ s', o = some s' → s'.PanickedBy payload := by
  cases h with
  | rest => exact ⟨by simp, by rintro _ ⟨⟩; exact hs⟩
  | registered hnode => exact ⟨by simp [Deed.Passes], by rintro _ ⟨⟩; exact hs⟩
  | step hstep => exact hstep.of_panickedBy hs

end Stage

variable {H : Host}

/-- What a thread is about to go back with. -/
def Control.going : Except Payload (Value H.Data H.Fn) → Control H
  | .ok v => .ret v
  | .error payload => .raise payload

namespace Run

/-- A panic has come up in the interpretation that is at `p` at time `b`, `n` actions later. -/
inductive Panicking (r : Run H) (b : Nat) (p : Place) (payload : Payload) (n : Nat) : Prop where
  /-- A function that has been called for it has panicked. -/
  | called {t : ThreadId} {name : Option String} {back : Return H} {rest : List (Return H)}
      {post : Post H.Data H.Fn} {frames : List (Frame H.Data H.Fn)} :
      r.place b p n = some (.thread t rest.length) → r.stage b p n = some (.asking post frames) →
        (r.world (b + n)).threads[t]? = some ⟨name, .raise payload, back :: rest⟩ →
          Panicking r b p payload n
  /-- A function has come back with what is no answer. -/
  | refused {t : ThreadId} {name : Option String} {back : Return H} {rest : List (Return H)}
      {post : Post H.Data H.Fn} {frames : List (Frame H.Data H.Fn)} {v : Value H.Data H.Fn} :
      r.place b p n = some (.thread t rest.length) → r.stage b p n = some (.asking post frames) →
        (r.world (b + n)).threads[t]? = some ⟨name, .ret v, back :: rest⟩ →
          post.answer v = .error payload → Panicking r b p payload n
  /-- The panic of a registration is the exit of the node that it waits for. -/
  | registered {stage : Stage H.Data H.Fn} {id : HandoffId} {m : Nat} {t : ThreadId} :
      r.stage b p n = some stage → stage.node? = some id →
        r.Accepts m t id (.panicked payload) → Panicking r b p payload n
  /-- A panic has been caught, or one of the library's own functions has panicked. -/
  | caught {stage : Stage H.Data H.Fn} :
      r.stage b p n = some stage → stage.PanickedBy payload → Panicking r b p payload n

variable {r : Run H} {b : Nat} {p : Place} {x : Pending H.Data H.Fn} {payload : Payload} {n m : Nat}

/-- A function that has come back is what its interpretation goes on with. -/
theorem asked_next (reply : Except Payload (Value H.Data H.Fn))
    (hp : (r.world b).pendingAt p = some x) {t : ThreadId} {name : Option String} {back : Return H}
    {rest : List (Return H)} {post : Post H.Data H.Fn} {frames : List (Frame H.Data H.Fn)}
    (hq : r.place b p n = some (.thread t rest.length))
    (hs : r.stage b p n = some (.asking post frames))
    (ht : (r.world (b + n)).threads[t]? = some ⟨name, .going reply, back :: rest⟩) :
    (r.deeds b p n = [] ∧ r.place b p (n + 1) = some (.thread t rest.length) ∧
        r.stage b p (n + 1) = some (.asking post frames) ∧
          (r.world (b + n + 1)).threads[t]? = some ⟨name, .going reply, back :: rest⟩) ∨
      r.deeds b p n = post.deeds reply ∧
        r.stage b p (n + 1) = some (.driving (.reply post frames reply)) := by
  obtain ⟨q, hq', hat⟩ := (r.stage_eq_some hp).1 hs
  obtain rfl := Option.some.inj (hq.symm.trans hq')
  have hplace : r.place b p (n + 1) =
      (r.world (b + n)).next? (r.action (b + n)) (.thread t rest.length) := by
    simp [place, hq]
  have hdeeds : r.deeds b p n =
      (r.world (b + n)).deeds (r.action (b + n)) (.thread t rest.length) := by
    simp [deeds, hq]
  have hpending : (Control.going reply : Control H).pending? = none := by cases reply <;> rfl
  by_cases haction : r.action (b + n) = .thread t
  · right
    have hback := World.back_of_pendingAt hat ht rfl hpending
    have hshift : (r.world (b + n)).shift (r.action (b + n)) =
        .moved (.thread t rest.length) (post.deeds reply) (some (.thread t rest.length)) := by
      rw [haction, World.shift_thread ht]
      cases back with
      | answering post' frames' last applied finish =>
          obtain ⟨heq, -⟩ := Prod.mk.inj (Option.some.inj hback)
          obtain ⟨rfl, rfl⟩ := Stage.asking.inj heq
          cases reply <;> rfl
      | after task => cases task <;> simp [Return.pending?] at hback
      | _ => contradiction
    have hdone : r.deeds b p n = post.deeds reply := by
      rw [hdeeds]
      simp only [World.deeds, hshift, if_true]
    refine ⟨hdone, ?_⟩
    rw [hdeeds] at hdone
    cases (r.sound (b + n)).follows (r.step (b + n)) hat with
    | stays hother => exact absurd hshift (hother _ _)
    | ends hnext hstep =>
        rw [hdone] at hstep
        generalize post.deeds reply = deeds at hstep
        cases hstep
    | @moves q' stage' hnext hat' hstep =>
        rw [(r.stage_eq_some hp).2 ⟨q', hplace.trans hnext, hat'⟩]
        rw [hdone] at hstep
        generalize hgoing : post.deeds reply = deeds at hstep
        cases hstep with
        | @reply _ _ reply' =>
            obtain rfl : reply = reply' := by
              simp only [Post.deeds, List.cons.injEq, Deed.reply.injEq] at hgoing
              exact hgoing.1
            rfl
  · left
    -- Nobody but the thread itself takes the interpretation further.
    have hstays := (r.sound (b + n)).carries (r.step (b + n)) hat
    have hother {t' : ThreadId} {l' : Nat}
        (hthere : Place.thread t rest.length = .thread t' l') :
        r.action (b + n) ≠ .thread t' := by
      obtain ⟨rfl, -⟩ := Place.thread.inj hthere
      exact haction
    have hthread : (r.world (b + n + 1)).threads[t]? =
        some ⟨name, .going reply, back :: rest⟩ := by
      refine (r.ordered (b + n)).thread_of_other (r.step (b + n)) haction ht ?_ ?_
      · rintro (_ | gate)
        · rfl
        · cases reply <;> rfl
      · cases reply <;> rfl
    cases hstays with
    | stays hnext hat' hdone =>
        refine ⟨?_, hplace.trans hnext, (r.stage_eq_some hp).2 ⟨_, hplace.trans hnext, hat'⟩,
          hthread⟩
        rw [hdeeds]
        rcases hdone with hnothing | ⟨register, id, hnode, -⟩
        · exact hnothing
        · contradiction
    | goOn hthere haction' => exact absurd haction' (hother hthere)
    | ends hthere haction' => exact absurd haction' (hother hthere)
    | suspend hthere haction' => exact absurd haction' (hother hthere)
    | inline hthere haction' => exact absurd haction' (hother hthere)
    | park hthere haction' => exact absurd haction' (hother hthere)
    | accept hthere => contradiction

/-- In one action the panic is passed on, and is still there or has ended the interpretation. -/
theorem Panicking.next (hp : (r.world b).pendingAt p = some x) (h : r.Panicking b p payload n) :
    (∀ d ∈ r.deeds b p n, d.Passes payload) ∧
      (r.stage b p (n + 1) = none ∨ r.Panicking b p payload (n + 1)) := by
  have hpass {deeds : List (Deed H.Data H.Fn)} (h : deeds = []) :
      ∀ d ∈ deeds, d.Passes payload := by simp [h]
  cases h with
  | @called t name back rest post frames hq hs ht =>
      rcases asked_next (.error payload) hp hq hs ht with
        ⟨hnothing, hq', hs', ht'⟩ | ⟨hdeeds, hs'⟩
      · exact ⟨hpass hnothing, .inr (.called hq' hs' ht')⟩
      · refine ⟨?_, .inr (.caught hs' rfl)⟩
        rw [hdeeds]
        simp [Post.deeds, Deed.Passes]
  | @refused t name back rest post frames v hq hs ht hanswer =>
      rcases asked_next (.ok v) hp hq hs ht with
        ⟨hnothing, hq', hs', ht'⟩ | ⟨hdeeds, hs'⟩
      · exact ⟨hpass hnothing, .inr (.refused hq' hs' ht' hanswer)⟩
      · refine ⟨?_, .inr (.caught hs' ?_)⟩
        · rw [hdeeds]
          simp [Post.deeds, hanswer, Deed.Passes]
        · simp [Interpretation.reply, hanswer, Stage.panickedBy_settle]
  | @caught stage hs hstage =>
      obtain ⟨hdeeds, hnext⟩ := ((r.course hp).goes n stage hs).of_panickedBy hstage
      refine ⟨hdeeds, ?_⟩
      cases hs' : r.stage b p (n + 1) with
      | none => exact .inl rfl
      | some stage' => exact .inr (.caught hs' (hnext stage' hs'))
  | @registered stage id m t hs hnode haccepts =>
      obtain ⟨q, hq, hat⟩ := (r.stage_eq_some hp).1 hs
      have hplace : r.place b p (n + 1) = (r.world (b + n)).next? (r.action (b + n)) q := by
        simp [place, hq]
      have hdeeds : r.deeds b p n = (r.world (b + n)).deeds (r.action (b + n)) q := by
        simp [deeds, hq]
      have hstage {q' : Place} {stage' : Stage H.Data H.Fn}
          (hnext : (r.world (b + n)).next? (r.action (b + n)) q = some q')
          (hat' : (r.world (b + n + 1)).pendingAt q' = some (stage', x.2)) :
          r.stage b p (n + 1) = some stage' :=
        (r.stage_eq_some hp).2 ⟨q', hplace.trans hnext, hat'⟩
      have hexit {exit : Exit (Outcome H.Data H.Fn)} {k : Nat} {t' : ThreadId}
          (haccepts' : r.Accepts k t' id exit) : exit = .panicked payload :=
        (haccepts'.unique haccepts).2.2
      rw [hdeeds]
      cases (r.sound (b + n)).carries (r.step (b + n)) hat with
      | stays hnext hat' hdone =>
          refine ⟨?_, .inr (.registered (hstage hnext hat') hnode haccepts)⟩
          rcases hdone with hnothing | ⟨register, id', -, hcall⟩
          · exact hpass hnothing
          · simp [hcall, Deed.Passes]
      | goOn hthere haction hnext hat' hstep hsame =>
          exact ⟨hpass (hstep.deeds_of_node hnode (hsame.trans hnode)),
            .inr (.registered (hstage hnext hat') (hsame.trans hnode) haccepts)⟩
      | ends hthere haction hnext hstep =>
          refine ⟨hpass (hstep.deeds_of_lost hnode), .inl ?_⟩
          simp [Run.stage, hplace, hnext]
      | suspend hthere haction hdriving =>
          subst hdriving
          contradiction
      | @inline t' s l id' exit frames hthere haction hleaving hhandoff hgets hnext hat' =>
          subst hleaving
          obtain rfl := Option.some.inj hnode
          obtain ⟨k, -, haccepts'⟩ := exists_accepts_of_early hhandoff
          obtain rfl := hexit haccepts'
          exact ⟨by simp [hgets, Deed.Passes], .inr (.caught (hstage hnext hat') rfl)⟩
      | park hthere haction hleaving hnothing hnext hat' =>
          subst hleaving
          exact ⟨hpass hnothing, .inr (.registered (hstage hnext hat') hnode haccepts)⟩
      | @accept t' s id' name exit origin stack frames hthere haction hparked ht hhandoff hgets
          hnext hat' =>
          subst hparked
          obtain rfl := Option.some.inj hnode
          obtain rfl := hexit (k := b + n)
            ⟨origin, _, ⟨haction, name, stack, ht⟩, hhandoff, trivial⟩
          exact ⟨by simp [hgets, Deed.Passes], .inr (.caught (hstage hnext hat') rfl)⟩

theorem Panicking.later (hp : (r.world b).pendingAt p = some x) (h : r.Panicking b p payload n)
    (hnm : n ≤ m) : (∃ rest, r.history b p m = r.history b p n ++ rest ∧
        ∀ d ∈ rest, d.Passes payload) ∧
      (r.stage b p m = none ∨ r.Panicking b p payload m) := by
  induction hnm with
  | refl => exact ⟨⟨[], by simp, by simp⟩, .inr h⟩
  | @step m _ ih =>
      obtain ⟨⟨rest, hrest, hpasses⟩, hm⟩ := ih
      have hgoes : (∀ d ∈ r.deeds b p m, d.Passes payload) ∧
          (r.stage b p (m + 1) = none ∨ r.Panicking b p payload (m + 1)) := by
        rcases hm with hover | hpanicking
        · obtain ⟨hnone, hnothing⟩ := (r.course hp).ended m hover
          have hnothing' : r.deeds b p m = [] := hnothing
          exact ⟨by simp [hnothing'], .inl hnone⟩
        · exact hpanicking.next hp
      refine ⟨⟨rest ++ r.deeds b p m, ?_, ?_⟩, hgoes.2⟩
      · rw [history, hrest, List.append_assoc]
      · intro d hd
        rcases List.mem_append.1 hd with hd | hd
        · exact hpasses d hd
        · exact hgoes.1 d hd

theorem Panicking.exists_stage (h : r.Panicking b p payload n) : ∃ s, r.stage b p n = some s := by
  cases h with
  | called hq hs ht => exact ⟨_, hs⟩
  | refused hq hs ht hanswer => exact ⟨_, hs⟩
  | registered hs hnode haccepts => exact ⟨_, hs⟩
  | caught hs hstage => exact ⟨_, hs⟩

/-- What goes on by itself after a panic ends at once. -/
theorem Panicking.of_driving {i : Interpretation H.Data H.Fn} (h : r.Panicking b p payload n)
    (hs : r.stage b p n = some (.driving i)) : i.focus = .exit (.panicked payload) := by
  cases h with
  | called hq hs' ht => simp [hs] at hs'
  | refused hq hs' ht hanswer => simp [hs] at hs'
  | registered hs' hnode haccepts =>
      obtain rfl := Option.some.inj (hs.symm.trans hs')
      contradiction
  | caught hs' hstage =>
      obtain rfl := Option.some.inj (hs.symm.trans hs')
      exact hstage

/-- A question that a panic has come up for has been answered. -/
theorem Panicking.of_asking {post : Post H.Data H.Fn} {frames : List (Frame H.Data H.Fn)}
    {t : ThreadId} {l : Nat} (h : r.Panicking b p payload n)
    (hs : r.stage b p n = some (.asking post frames)) (hq : r.place b p n = some (.thread t l)) :
    (r.world (b + n)).Replies t l ∨ (r.world (b + n)).Panics t l := by
  cases h with
  | @called t' name back rest _ _ hq' hs' ht =>
      obtain ⟨rfl, rfl⟩ := Place.thread.inj (Option.some.inj (hq.symm.trans hq'))
      exact .inr ⟨name, payload, back, rest, ht, rfl⟩
  | @refused t' name back rest _ _ v hq' hs' ht hanswer =>
      obtain ⟨rfl, rfl⟩ := Place.thread.inj (Option.some.inj (hq.symm.trans hq'))
      exact .inl ⟨name, v, back, rest, ht, rfl⟩
  | registered hs' hnode haccepts =>
      obtain rfl := Option.some.inj (hs.symm.trans hs')
      contradiction
  | caught hs' hstage =>
      obtain rfl := Option.some.inj (hs.symm.trans hs')
      exact hstage.elim

/-- A node at which an interpretation waits after a panic has got the panic, or will. -/
theorem Panicking.of_node {s : Stage H.Data H.Fn} {id : HandoffId} (h : r.Panicking b p payload n)
    (hs : r.stage b p n = some s) (hnode : s.node? = some id) :
    ∃ m t, r.Accepts m t id (.panicked payload) := by
  cases h with
  | called hq hs' ht =>
      obtain rfl := Option.some.inj (hs.symm.trans hs')
      contradiction
  | refused hq hs' ht hanswer =>
      obtain rfl := Option.some.inj (hs.symm.trans hs')
      contradiction
  | registered hs' hnode' haccepts =>
      obtain rfl := Option.some.inj (hs.symm.trans hs')
      obtain rfl := Option.some.inj (hnode.symm.trans hnode')
      exact ⟨_, _, haccepts⟩
  | caught hs' hstage =>
      obtain rfl := Option.some.inj (hs.symm.trans hs')
      cases s with
      | submitting id' frames => exact hstage.elim
      | leaving id' frames => exact hstage.elim
      | parked id' frames => exact hstage.elim
      | _ => contradiction

/-- No node is reached after a panic. -/
theorem Panicking.node?_eq_none (hp : (r.world b).pendingAt p = some x)
    (h : r.Panicking b p payload n) (hnone : ∀ s, r.stage b p n = some s → s.node? = none)
    (hnm : n ≤ m) : ∀ s, r.stage b p m = some s → s.node? = none := by
  induction hnm with
  | refl => exact hnone
  | @step m hnm ih =>
      intro s' hs'
      rcases (h.later hp hnm).2 with hover | hpanicking
      · have hnone' := r.stage_eq_none_of_le hp hover (Nat.le_succ m)
        simp [hs'] at hnone'
      · obtain ⟨s, hs⟩ := hpanicking.exists_stage
        have hgoes := (r.course hp).goes m s hs
        have hnext : (r.course hp).stage (m + 1) = some s' := hs'
        have hbefore := ih s hs
        rw [hnext] at hgoes
        generalize (r.course hp).deeds m = deeds at hgoes
        cases hgoes with
        | rest => exact hbefore
        | registered hnode => exact hbefore
        | step hstep =>
            cases hstep with
            | @suspend i _ _ _ _ hsuspends =>
                have hfocus := hpanicking.of_driving hs
                obtain ⟨focus, frames⟩ := i
                subst hfocus
                contradiction
            | submitted => contradiction
            | park => contradiction
            | _ => rfl

/-- An interpretation ends after a panic. If it waits for a node, the functions that submit and
register it have to come back. -/
theorem Panicking.finishes (hp : (r.world b).pendingAt p = some x)
    (h : r.Panicking b p payload n) (hfair : r.Fair)
    (hreturn : ∀ s id, r.stage b p n = some s → s.node? = some id → r.FunctionsReturn b p) :
    ∃ m, Deed.finishes (r.history b p m) = [.panicked payload] := by
  obtain ⟨s, hs⟩ := h.exists_stage
  obtain ⟨q, hq, hat⟩ := (r.stage_eq_some hp).1 hs
  -- From now on it is an interpretation of its own, which reaches no node.
  have hstage (k : Nat) : r.stage (b + n) q k = r.stage b p (n + k) := (r.stage_add hq k).symm
  have hplace (k : Nat) : r.place (b + n) q k = r.place b p (n + k) := (r.place_add hq k).symm
  have hpanicking {k : Nat} {s : Stage H.Data H.Fn} (hk : r.stage (b + n) q k = some s) :
      r.Panicking b p payload (n + k) := by
    refine (h.later hp (Nat.le_add_right n k)).2.resolve_left ?_
    rw [← hstage, hk]
    simp
  have hreturn' : r.FunctionsReturn (b + n) q := by
    refine ⟨fun k t l post frames hthere hasking => ?_,
      fun k t l id frames hthere hsubmitting => ?_⟩
    · have hback := (hpanicking hasking).of_asking (hstage k ▸ hasking) (hplace k ▸ hthere)
      rw [← Nat.add_assoc] at hback
      exact ⟨k, Nat.le_refl k, hback⟩
    · have hnode : ∃ id, s.node? = some id := by
        cases hnode : s.node? with
        | some id => exact ⟨id, rfl⟩
        | none =>
            have hnever := h.node?_eq_none hp
              (fun s' hs' => Option.some.inj (hs.symm.trans hs') ▸ hnode) (Nat.le_add_right n k)
              _ (hstage k ▸ hsubmitting)
            contradiction
      obtain ⟨id', hnode⟩ := hnode
      obtain ⟨hkept, m, hm, hback⟩ := (hreturn s id' hs hnode).submitted (n + k) t l id frames
        (hplace k ▸ hthere) (hstage k ▸ hsubmitting)
      obtain ⟨j, rfl⟩ := Nat.exists_eq_add_of_le (Nat.le_trans (Nat.le_add_right n k) hm)
      rw [← Nat.add_assoc] at hkept hback
      exact ⟨hkept, j, Nat.le_of_add_le_add_left hm, hback⟩
  have hcompleted : r.Completed (b + n) q := by
    intro k s' id hk hnode
    obtain ⟨m, t, haccepts⟩ := (hpanicking hk).of_node (hstage k ▸ hk) hnode
    exact ⟨m, t, _, haccepts⟩
  have hvisits (k : Nat) (_ : 0 ≤ k) : ¬(r.course hat).Visits k := by
    rintro ⟨s', hk, hnode, -⟩
    have hk' : r.stage (b + n) q k = some s' := hk
    cases s' with
    | driving i =>
        have hfocus := (hpanicking hk').of_driving (hstage k ▸ hk')
        obtain ⟨focus, frames⟩ := i
        subst hfocus
        exact hnode
    | _ => exact hnode
  have hhere : (r.course hat).stage 0 = some s := by
    change r.stage (b + n) q 0 = some s
    rw [hstage]
    exact hs
  obtain ⟨m, y, hy⟩ := (live hat hfair hreturn' hcompleted).finish hhere hvisits
  rw [r.course_history] at hy
  have hbefore : Deed.finishes (r.history b p n) = [] := by
    rw [← r.course_history hp]
    exact Course.finishes_of_stage (c := r.course hp) hs
  obtain ⟨⟨rest, hrest, hpasses⟩, -⟩ := h.later hp (Nat.le_add_right n m)
  rw [r.history_add hq, List.append_cancel_left_eq] at hrest
  refine ⟨n + m, ?_⟩
  rw [r.history_add hq, Deed.finishes_append, hbefore, hy, List.nil_append]
  have hmem : y ∈ Deed.finishes (r.history (b + n) q m) := by simp [hy]
  obtain ⟨d, hd, hfinish⟩ := List.mem_filterMap.1 hmem
  have hpass := hpasses d (hrest ▸ hd)
  cases d with
  | finish y' =>
      obtain rfl := Option.some.inj hfinish
      exact congrArg (fun y => [y]) hpass
  | _ => contradiction

/-- The finisher is called by the thread that takes the exit where it belongs. -/
theorem exists_does_of_finish (hp : (r.world b).pendingAt p = some x)
    {exit : Exit (Outcome H.Data H.Fn)} (h : .finish exit ∈ r.deeds b p n) :
    ∃ t, r.Does (b + n) t (.conclude exit x.2) := by
  cases hs : r.stage b p n with
  | none =>
      have hnothing : r.deeds b p n = [] := ((r.course hp).ended n hs).2
      simp [hnothing] at h
  | some s =>
      obtain ⟨q, hq, hat⟩ := (r.stage_eq_some hp).1 hs
      have hdeeds : r.deeds b p n = (r.world (b + n)).deeds (r.action (b + n)) q := by
        simp [deeds, hq]
      rw [hdeeds] at h
      have hnever {deeds : List (Deed H.Data H.Fn)} (h : .finish exit ∈ deeds)
          (hnone : Deed.finishes deeds = []) : False := by
        have hmem : exit ∈ Deed.finishes deeds := List.mem_filterMap.2 ⟨_, h, rfl⟩
        simp [hnone] at hmem
      cases (r.sound (b + n)).carries (r.step (b + n)) hat with
      | stays hnext hat' hdone =>
          rcases hdone with hnothing | ⟨register, id, -, hcall⟩
          · simp [hnothing] at h
          · simp [hcall] at h
      | goOn hthere haction hnext hat' hstep hsame => exact (hnever h hstep.finishes).elim
      | @ends t l hthere haction hnext hstep =>
          generalize (r.world (b + n)).deeds (r.action (b + n)) q = deeds at h hstep
          cases hstep with
          | lost => contradiction
          | @conclude exit' =>
              obtain rfl := Deed.finish.inj (List.mem_singleton.1 h)
              obtain ⟨t', name, task, stack, hthere', ht, htask⟩ :=
                World.active_of_pendingAt hat trivial
              obtain ⟨rfl, -⟩ := Place.thread.inj (hthere.symm.trans hthere')
              cases task with
              | conclude exit₀ finish =>
                  obtain ⟨heq, rfl⟩ := Prod.mk.inj (Option.some.inj htask)
                  obtain rfl := Stage.concluding.inj heq
                  exact ⟨t, haction, name, stack, ht⟩
              | _ => simp [Task.pending?] at htask
      | @suspend t l i _ _ _ hthere haction hdriving hstep hdone =>
          exact (hnever h (hdone ▸ i.finishes)).elim
      | inline hthere haction hleaving hhandoff hdone => simp [hdone] at h
      | park hthere haction hleaving hdone => simp [hdone] at h
      | accept hthere haction hparked ht hhandoff hdone => simp [hdone] at h

/-- The panic that has been sent into a channel at time `n` comes out of it. -/
structure Reraises (r : Run H) (id : ChannelId) (payload : Payload) (n : Nat) : Prop where
  /-- Nothing has come out of it before. -/
  before {m : Nat} : m ≤ n → (r.world m).heap.received? id = none
  /-- A caller that blocks until the outcome is there panics. -/
  received {m : Nat} {t : ThreadId} {value error : Ty} {warning : Event} :
    n < m → (∀ k, k < m → ¬r.Drops k id) → r.Does m t (.receive value error id warning) →
      (r.world m).Changes (r.world (m + 1)) t (.run (.receive value error id warning))
        (.raise payload) (r.world m).heap
  /-- So does one that polls a future, which is over then. -/
  collected {m : Nat} {t : ThreadId} {value error : Ty} {future : FutureId} :
    n < m → (∀ k, k < m → ¬r.Drops k id) → r.Does m t (.collect value error future id) →
      (r.world m).Changes (r.world (m + 1)) t (.run (.collect value error future id))
        (.raise payload) ((r.world m).heap.setFuture future .finished)
  /-- A caller that is asleep wakes up to it. -/
  woken {m : Nat} {t : ThreadId} {name : Option String} {value error : Ty} {warning : Event}
      {missed : Task H} {stack : List (Return H)} :
    r.Fair → n < m → (∀ k, ¬r.Drops k id) →
      (r.world m).threads[t]? =
        some ⟨name, .asleep (.channel id) (.receive value error id warning) missed, stack⟩ →
          ∃ k, m ≤ k ∧ r.Does k t (.receive value error id warning)
  /-- Only a future can be dropped, so that the panic is not lost for any other caller. -/
  kept {m k : Nat} {q : Request H.Data H.Fn} :
    r.Opens m q id → (∀ value error future, q ≠ .poll value error future) → ¬r.Drops k id

/-- A panic that has come up in the interpretation at `p` at time `b`, `n` actions later, bypasses
everything that is pending then, and reaches those who want the outcome. -/
structure Bypasses (r : Run H) (b : Nat) (p : Place) (finish : Finish H.Fn) (payload : Payload)
    (n : Nat) : Prop where
  /-- No continuation is taken or added any more, nothing is asked and no node is reached. -/
  quiet {m : Nat} : n ≤ m → ∃ rest, r.history b p m = r.history b p n ++ rest ∧
    ∀ d ∈ rest, d.Passes payload
  /-- The interpretation ends with the panic. If it waits for the node whose registration has
  panicked, the functions that submit and register the node have to come back. -/
  finishes : r.Fair →
    (∀ s id, r.stage b p n = some s → s.node? = some id → r.FunctionsReturn b p) →
      ∃ m, Deed.finishes (r.history b p m) = [.panicked payload]
  /-- It ends in no other way. -/
  only {m : Nat} {exit : Exit (Outcome H.Data H.Fn)} :
    exit ∈ Deed.finishes (r.history b p m) → exit = .panicked payload
  /-- A callback is not called, and the thread that would call it panics. -/
  callback {m : Nat} {value error : Ty} {target : Callback H.Fn} :
    finish = .callback value error target → .finish (.panicked payload) ∈ r.deeds b p m →
      ∃ t, (r.world (b + m)).Changes (r.world (b + m + 1)) t
        (.run (.conclude (.panicked payload) finish)) (.raise payload) (r.world (b + m)).heap
  channel {m : Nat} {value error : Ty} {id : ChannelId} :
    finish = .channel value error id → r.IsPrivate id →
      .finish (.panicked payload) ∈ r.deeds b p m → r.Reraises id payload (b + m)

theorem Does.reraises (hstart : (r.world 0).Starting) {id : ChannelId}
    (hprivate : r.IsPrivate id) {t : ThreadId} {value error : Ty}
    (h : r.Does n t (.conclude (.panicked payload) (.channel value error id))) :
    r.Reraises id payload n := by
  have hreceived {m : Nat} (hnm : n < m) (hkept : ∀ k, k < m → ¬r.Drops k id) :
      (r.world m).heap.received? id = some (.panicked payload) := by
    simp [Heap.received?, h.received hstart hprivate hnm hkept]
  refine ⟨fun hmn => ?_, fun hnm hkept hdoes => ?_, fun hnm hkept hdoes => ?_, ?_, ?_⟩
  · obtain ⟨-, name, stack, ht⟩ := h
    have hinto : r.EndsInto n (.thread t stack.length) id :=
      ⟨_, value, error, World.pendingAt_run ht⟩
    exact hinto.received_eq_none hstart hprivate hmn
  · exact hdoes.changes (by simp) fun here stack => by
      simp [Task.turn, hreceived hnm hkept, Turn.raise]
  · exact hdoes.changes (by simp) fun here stack => by
      simp [Task.turn, hreceived hnm hkept, Turn.raise]
  · intro m t name value error warning missed stack hfair hnm hkept ht
    have harrival {k : Nat} (hk : m ≤ k) : (r.world k).arrival (.channel id) = some true := by
      have hfull := hreceived (Nat.lt_of_lt_of_le hnm hk) fun j _ => hkept j
      simp [World.arrival, hfull]
    obtain ⟨k, hk, haction, ht'⟩ := hfair.exists_action ht
      (by rintro (_ | gate) <;> rfl) rfl fun k hk h => by
        simp [World.step?, h, harrival hk]
    have hstep := r.step k
    rw [haction] at hstep
    simp only [World.does, World.step?, ht', harrival hk, Option.some.injEq] at hstep
    have hawake : (r.world (k + 1)).threads[t]? =
        some ⟨name, .run (.receive value error id warning), stack⟩ := by
      rw [← hstep, World.threads_rouse true ht', if_pos rfl]
      rfl
    obtain ⟨j, hj, haction', ht''⟩ := hfair.exists_action hawake
      (by rintro (_ | gate) <;> rfl) rfl fun j _ h => by
        simp [World.step?, h, World.allows]
    exact ⟨j, Nat.le_trans (Nat.le_succ_of_le hk) hj, haction', name, stack, ht''⟩
  · exact fun hopens hpoll => hopens.not_drops hstart hpoll _

/-- Whatever continuations are pending when a panic comes up, and however many nodes have been
passed before, none of them runs; the interpretation ends with the panic, and whoever wants its
outcome panics with the same payload. -/
theorem Panicking.bypasses (hstart : (r.world 0).Starting)
    (hp : (r.world b).pendingAt p = some x) (h : r.Panicking b p payload n) :
    r.Bypasses b p x.2 payload n := by
  refine ⟨fun hnm => (h.later hp hnm).1, h.finishes hp, ?_, ?_, ?_⟩
  · intro m exit hexit
    obtain ⟨s, hs⟩ := h.exists_stage
    have hbefore : Deed.finishes (r.history b p n) = [] := by
      rw [← r.course_history hp]
      exact Course.finishes_of_stage (c := r.course hp) hs
    rcases Nat.le_total m n with hmn | hnm
    · obtain ⟨rest, hrest⟩ := Course.history_mono (c := r.course hp) hmn
      rw [r.course_history, r.course_history] at hrest
      rw [← hrest, Deed.finishes_append, List.append_eq_nil_iff] at hbefore
      simp [hbefore.1] at hexit
    · obtain ⟨⟨rest, hrest, hpasses⟩, -⟩ := h.later hp hnm
      rw [hrest, Deed.finishes_append, hbefore, List.nil_append] at hexit
      obtain ⟨d, hd, hfinish⟩ := List.mem_filterMap.1 hexit
      have hpass := hpasses d hd
      cases d with
      | finish exit' =>
          obtain rfl := Option.some.inj hfinish
          exact hpass
      | _ => contradiction
  · intro m value error target hfinish hdeed
    obtain ⟨t, hdoes⟩ := exists_does_of_finish hp hdeed
    refine ⟨t, hdoes.changes (by simp) fun here stack => ?_⟩
    rw [hfinish]
    rfl
  · intro m value error id hfinish hprivate hdeed
    obtain ⟨t, hdoes⟩ := exists_does_of_finish hp hdeed
    rw [hfinish] at hdoes
    exact hdoes.reraises hstart hprivate

end Run

namespace Drill

/-- The first thread blocks on an effect whose async node the second one completes. The continuation
of the node panics below a recovery. -/
def bursting : Script
  | 0 => [.ask (.runBlocking .unit .unit
      (.attempt (.flatMap (.async (.user .unit .unit ⟨2, ∅⟩) immediateId) (.map .unit ⟨3, ∅⟩))
        ⟨.unit, .unit⟩))]
  | 1 => [.ask (.complete (.node 0) (.ok .unit))]
  | 3 => [.raise (.text "bug")]
  | _ => []

def burst : Run (host bursting) :=
  run bursting [] (List.replicate 18 0 ++ List.replicate 18 1 ++ List.replicate 5 0)

theorem burst_isPrivate : burst.IsPrivate 0 := by
  intro n t q work hdoes hwork
  have hnone := check_of_does (c := fun _ => fun
    | .request q => q.work?.isNone
    | _ => true) (by decide) hdoes
  simp [hwork] at hnone

set_option maxRecDepth 4000 in
/-- The recovery does not see the panic, and the first thread panics in its place. -/
theorem burst_bypasses :
    burst.Panicking 2 (.thread 0 2) (.text "bug") 25 ∧
      (∃ m, Deed.finishes (burst.history 2 (.thread 0 2) m) = [.panicked (.text "bug")]) ∧
        (burst.world 37).Changes (burst.world 38) 0
          (.run (.receive .unit .unit 0 .blockedForever)) (.raise (.text "bug"))
          (burst.world 37).heap := by
  have hpanicking : burst.Panicking 2 (.thread 0 2) (.text "bug") 25 :=
    .called (t := 1) rfl rfl rfl
  have hbypasses := hpanicking.bypasses (start_starting bursting []) rfl
  have hfair : burst.Fair := Run.fair_ofList (by decide)
  refine ⟨hpanicking, hbypasses.finishes hfair fun s id hs hnode => ?_, ?_⟩
  · obtain rfl := Option.some.inj ((show burst.stage 2 (.thread 0 2) 25 = _ from rfl).symm.trans hs)
    contradiction
  · have hfinish : burst.deeds 2 (.thread 0 2) 27 = [.finish (.panicked (.text "bug"))] := rfl
    have hreraises := hbypasses.channel rfl burst_isPrivate (m := 27) (by simp [hfinish])
    have hopens : burst.Opens 1 (.runBlocking .unit .unit _) 0 := ⟨⟨0, rfl, _, _, rfl⟩, rfl, rfl⟩
    exact hreraises.received (by decide) (fun k _ => hreraises.kept hopens (by simp))
      ⟨rfl, _, _, rfl⟩

end Drill

end Trampoline
