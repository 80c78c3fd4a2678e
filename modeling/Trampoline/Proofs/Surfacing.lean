import Trampoline.Proofs.Moving

/-!
The panic of an effect that is run on a stack of schedulers. Each scheduler has it reported once,
the innermost one first; what comes out of a fiber is a panic with the same text, and the caller
that has blocked for the outermost effect panics with this text when all of them have had their
report.
-/

namespace Trampoline

variable {H : Host}

namespace Run

section Over

variable {r : Run H} {b n l : Nat} {p : Place} {t : ThreadId} {exit : Exit (Outcome H.Data H.Fn)}
  {x : Pending H.Data H.Fn}

/-- A submission that panics lets go of the interpretation that waits for its end. -/
theorem Fair.exists_over (hfair : r.Fair) {id : HandoffId} {frames : List (Frame H.Data H.Fn)}
    (hp : (r.world b).pendingAt p = some x) (hq : r.place b p n = some (.thread t l))
    (hs : r.stage b p n = some (.submitting id frames)) (hpanics : (r.world (b + n)).Panics t l) :
    ∃ m, r.stage b p m = some (.submitting id frames) ∧ r.stage b p (m + 1) = none := by
  obtain ⟨name, payload, back, rest, ht, rfl⟩ := hpanics
  obtain ⟨m, hnm, haction, hsame⟩ := hfair.exists_turn_at hq ht (List.cons_ne_nil _ _)
  obtain ⟨hq', -, ht'⟩ := hsame m hnm (Nat.le_refl m)
  obtain ⟨q, hq'', hat⟩ := (r.stage_eq_some hp).1 hs
  obtain rfl := Option.some.inj (hq.symm.trans hq'')
  have hback := World.back_of_pendingAt hat ht rfl rfl
  have hat' := (World.pendingAt_back (show (r.world (b + m)).threads[t]? =
    some ⟨name, .raise payload, [] ++ back :: rest⟩ from ht')).trans hback
  refine ⟨m, (r.stage_eq_some hp).2 ⟨_, hq', hat'⟩, ?_⟩
  have hshift : (r.world (b + m)).shift (r.action (b + m)) =
      .moved (.thread t rest.length) [] none := by
    rw [haction, World.shift_thread ht']
    cases back with
    | after task =>
        cases task with
        | park => rfl
        | _ => contradiction
    | answering => cases hback
    | _ => contradiction
  have hgone : r.place b p (m + 1) = none := by simp [place, hq', World.next?, hshift]
  simp [stage, hgone]

/-- An interpretation that ends is let go of by no submission. -/
theorem EndsAt.isProper {value error : Ty} (hfair : r.Fair) (hp : (r.world b).pendingAt p = some x)
    (h : r.EndsAt b p n exit) (htags : exit.HasTags value error) : r.IsProper b p value error where
  tags h' := by
    obtain ⟨-, rfl⟩ := h.unique hp h'
    exact htags
  submits i t l id frames hq hs hpanics := by
    obtain ⟨m, hsubmitting, hgone⟩ := hfair.exists_over hp hq hs hpanics
    obtain ⟨hconcluding, hended, -⟩ := h.stage hp
    have hnm := h.lt_of_over hp hgone
    rcases Nat.lt_or_eq_of_le (Nat.le_of_lt_succ hnm) with hlt | rfl
    · rw [r.stage_eq_none_of_le hp hended hlt] at hsubmitting
      contradiction
    · cases Option.some.inj (hsubmitting.symm.trans hconcluding)

end Over

section Surface

variable {r : Run H} {b b' c k n m : Nat} {p p' q : Place} {t : ThreadId} {a e : Ty}
  {s : SchedulerId} {ss : List SchedulerId} {x : Effect H.Data H.Fn a e} {message : String}
  {payload : Payload} {times : List Nat}

/-- A panic with this text ends at time `c` an effect that has been moved to some schedulers and is
interpreted at `p` from time `b` on. It has come up where the effect is interpreted in the end, and
has been reported to each of the schedulers at one of these times, the outermost first. -/
inductive Surfaces (r : Run H) (x : Effect H.Data H.Fn a e) (b' : Nat) (p' : Place)
    (message : String) : List SchedulerId → Nat → Place → Nat → List Nat → Prop where
  | here {n : Nat} {payload : Payload} :
      r.EndsAt b' p' n (.panicked payload) → payload.message = message →
        Surfaces r x b' p' message [] b' p' (b' + n) []
  | through {s : SchedulerId} {ss : List SchedulerId} {b c m n n' : Nat} {p q : Place}
      {fiber : PromiseId} {times : List Nat} :
      r.Carries b p [] a e (x.evalOns ss).node s fiber n q →
        Surfaces r x b' p' message ss (n + 1) q c times →
          r.Reported (n + 1) q a e fiber s message c m → m < b + n' →
            r.EndsAt b p n' (.panicked (.text message)) →
              Surfaces r x b' p' message (s :: ss) b p (b + n') (m :: times)

theorem Reported.lt {fiber : PromiseId} (h : r.Reported b p a e fiber s message c m) : c < m := by
  obtain ⟨_, _, _, _, -, hfirst, -⟩ := h.reports
  exact hfirst.next.lt

namespace Surfaces

variable (h : r.Surfaces x b' p' message ss b p c times)

include h

/-- There is one report for each scheduler. -/
theorem length_eq : times.length = ss.length := by
  induction h with
  | here => rfl
  | through _ _ _ _ _ ih => exact congrArg (· + 1) ih

theorem lt_of_mem : ∀ i ∈ times, i < c := by
  induction h with
  | here => simp
  | through _ _ hreported hlt _ ih =>
      have hcm := hreported.lt
      rintro i (_ | ⟨_, hi⟩)
      · exact hlt
      · have := ih i hi
        omega

/-- An inner scheduler has its report before an outer one. -/
theorem pairwise_gt : times.Pairwise (· > ·) := by
  induction h with
  | here => exact .nil
  | through _ hsurfaces hreported _ _ ih =>
      exact .cons (fun i hi => Nat.lt_trans (hsurfaces.lt_of_mem i hi) hreported.lt) ih

/-- What comes to the outermost effect is a panic with the same text. -/
theorem exists_endsAt : ∃ n payload, c = b + n ∧ r.EndsAt b p n (.panicked payload) ∧
    payload.message = message ∧ (ss ≠ [] → payload = .text message) := by
  cases h with
  | here hends hmessage => exact ⟨_, _, rfl, hends, hmessage, fun h => absurd rfl h⟩
  | through _ _ _ _ hends => exact ⟨_, _, rfl, hends, rfl, fun _ => rfl⟩

end Surfaces

/-- A panic surfaces through all the schedulers to which an effect has been moved. -/
theorem Nests.exists_surfaces (hfair : r.Fair) (h : r.Nests x ss b p [] b' p')
    {y : Pending H.Data H.Fn}
    (hp : (r.world b).pendingAt p = some y) (hreports : ∀ s ∈ ss, r.ReportsReturn s)
    (hends : r.EndsAt b' p' n (.panicked payload)) :
    ∃ c times, r.Surfaces x b' p' payload.message ss b p c times := by
  generalize hrest : ([] : List (Frame H.Data H.Fn)) = rest at h
  induction h generalizing y with
  | here => exact ⟨_, [], .here hends rfl⟩
  | @within s ss b _ n _ _ q _ fiber hcarries _ ih =>
      subst hrest
      obtain ⟨c, times, hsurfaces⟩ := ih hcarries.begins.pendingAt
        (fun s' hs' => hreports s' (List.mem_cons_of_mem _ hs')) hends rfl
      obtain ⟨n', payload', rfl, hends', hmessage, -⟩ := hsurfaces.exists_endsAt
      have hreturn := hreports s (List.mem_cons_self ..)
      obtain ⟨m, hreported⟩ := hcarries.reported hends' hreturn
      obtain ⟨j, hsettles⟩ := hcarries.comes hends' (fun o heq => by contradiction) fun _ => hreturn
      -- The mark is read when the effect that is moved settles.
      obtain ⟨-, slot, hslot, -⟩ := hcarries.relays.settled hsettles
      obtain ⟨j', hj, hends''⟩ := hsettles.exists_endsAt hfair hp
      rw [hmessage] at hreported
      refine ⟨b + j', m :: times, .through hcarries hsurfaces hreported ?_ (hmessage ▸ hends'')⟩
      exact Nat.lt_of_lt_of_le (hreported.found hslot) (Nat.add_le_add_left hj b)

/-- A panic that ends the effect for which a caller has blocked is reported to nobody. -/
theorem Moves.not_reportsFor_of_channel (hstart : (r.world 0).Starting) {id : ChannelId}
    {stage : Stage H.Data H.Fn} (hp : (r.world b).pendingAt p = some (stage, .channel a e id))
    (h : r.Moves b p n) (s : SchedulerId) (failure : WorkFailure) :
    ¬r.ReportsFor (b + n) m t s failure := by
  intro hreports
  obtain ⟨_, _, _, _, hfinish, -⟩ := h.concludes_of_reportsFor hstart hp hreports
  contradiction

/-- A caller that blocks for an effect which is moved to some schedulers panics with the text of the
panic of the effect. Each scheduler has had it reported by then, once, in the order from the
innermost to the outermost one, and nothing else is reported on the way. -/
theorem IsMoved.surfaces_through (h : r.IsMoved x ss) (hfair : r.Fair)
    (hstart : (r.world 0).Starting)
    (himmediate : (r.world 0).heap.schedulers[immediateId]? = some .immediate)
    (hreturn : ∀ s ∈ ss, r.ReportsReturn s) {stack : List (Return H)}
    (hblocks : r.Turns k t (.run (.request (.runBlocking a e (x.evalOns ss).node))) stack)
    (hprivate : r.IsPrivate (r.world k).heap.channels.size) :
    let here := .thread t (stack.length + 1)
    ∃ b' p', r.Nests x ss (k + 1) here [] b' p' ∧
      ∀ n payload, r.EndsAt b' p' n (.panicked payload) → ∃ c times payload',
        r.Surfaces x b' p' payload.message ss (k + 1) here c times ∧
          times.length = ss.length ∧ times.Pairwise (· > ·) ∧
            (∀ i m t' s failure, r.Moves (k + 1) here i →
              ¬r.ReportsFor (k + 1 + i) m t' s failure) ∧
              payload'.message = payload.message ∧ (ss ≠ [] → payload' = .text payload.message) ∧
                (r.HoldsSender (k + 1) here (r.world k).heap.channels.size →
                  ∃ m, c < m ∧ r.CallEnds k m t (.error payload') stack) := by
  obtain ⟨name, hopens, -, ht⟩ := opens_of_blocks hblocks
  have hp := (begins_of_turns hblocks rfl (fun _ _ => rfl) ht (Nat.le_succ _)).pendingAt
  obtain ⟨b', p', hnests⟩ := h.exists_nests hfair hstart himmediate hp
  refine ⟨b', p', hnests, fun n payload hends => ?_⟩
  obtain ⟨c, times, hsurfaces⟩ := hnests.exists_surfaces hfair hp hreturn hends
  obtain ⟨j, payload', rfl, hends', hmessage, htext⟩ := hsurfaces.exists_endsAt
  refine ⟨_, times, payload', hsurfaces, hsurfaces.length_eq, hsurfaces.pairwise_gt,
    fun i m t' s failure hmoves => hmoves.not_reportsFor_of_channel hstart hp s failure, hmessage,
    htext, fun hsender => ?_⟩
  have hproper : r.IsProper (k + 1) _ a e :=
    hends'.isProper hfair hp fun o heq => by contradiction
  exact callEnds hstart hprivate hp hproper hfair rfl
    (hopens.not_drops hstart (by simp)) (hsender.keeps hstart hp) ⟨_, ht, .inl (.runs rfl)⟩ hends'

end Surface

end Run

namespace Drill

set_option maxRecDepth 4000 in
/-- Both pools have the panic reported, the inner one first, before the first thread panics with its
text. -/
theorem moved_surfaces : ∃ c m outer inner,
    moved.Surfaces consultation 44 (.thread 3 1) "bug" [2, 3] 2 (.thread 0 2) c [outer, inner] ∧
      inner < outer ∧ c < m ∧ moved.CallEnds 1 m 0 (.error (.text "bug")) [.user (0, 1)] := by
  have hblocks : moved.Turns 1 0 (.run (.request (.runBlocking .unit .unit
      (consultation.evalOns [2, 3]).node))) [.user (0, 1)] := ⟨rfl, _, rfl⟩
  obtain ⟨b', p', hnests, hsurfaces⟩ := moved_isMoved.surfaces_through moved_fair
    (start_starting moving _) rfl moved_reportsReturn hblocks
      (isPrivate_of_isPlain (by decide +kernel) _)
  obtain ⟨rfl, rfl⟩ := moved_nests hnests
  have hends : moved.EndsAt 44 (.thread 3 1) 12 (.panicked (.text "bug")) := by
    rw [Run.EndsAt, show moved.deeds 44 (.thread 3 1) 12 = _ from rfl]
    exact List.mem_singleton_self _
  have hover : moved.stage 2 (.thread 0 2) 81 = none :=
    Option.isNone_iff_eq_none.1 (by decide +kernel)
  have hsender : moved.KeepsSender 2 (.thread 0 2) 0 :=
    Run.keepsSender_of_over pendingAt_moved hover (by decide +kernel)
  obtain ⟨c, times, payload, h, hlength, hpairwise, -, -, htext, hcall⟩ := hsurfaces _ _ hends
  obtain ⟨m, hm, hcall⟩ := hcall (.inr hsender)
  obtain rfl := htext (by simp)
  match times, hlength with
  | [outer, inner], _ => exact ⟨c, m, outer, inner, h, by simpa using hpairwise, hm, hcall⟩

end Drill

end Trampoline
