import Trampoline.Proofs.Forsaking
import Trampoline.Proofs.Memoising
import Trampoline.Proofs.Polls

/-!
The ways to have an effect interpreted: by a caller that blocks, as a future that is driven to its
end or polled, for a callback, and into a fiber on a scheduler. Each of them interprets the effect
once, and delivers what the effect ends with and nothing else.
-/

namespace Trampoline

variable {H : Host}

/-- A way to have an effect interpreted. -/
inductive Entry (H : Host) where
  | blocking
  /-- The future of the effect is driven to its end. -/
  | driving
  | polled (future : FutureId)
  | callback (target : Callback H.Fn)
  | fiber (s : SchedulerId)

namespace Entry

def request (value error : Ty) (x : Node H.Data H.Fn) : Entry H → Request H.Data H.Fn
  | blocking => .runBlocking value error x
  | driving => .blockOn value error x
  | polled future => .poll value error future
  | callback target => .runWith value error x target
  | fiber s => .runFiber value error x s

/-- Where the exit of an interpretation goes that is asked for. -/
def finish (heap : Heap H.Data H.Fn) (value error : Ty) : Entry H → Finish H.Fn
  | callback target => .callback value error target
  | fiber s => .fiber value error heap.promises.size s
  | _ => .channel value error heap.channels.size

end Entry

/-- What the thread of an interpretation that ends does next for a callback: it calls the callback,
or panics. -/
def Exit.calls (target : Callback H.Fn) : Exit (Outcome H.Data H.Fn) → Control H
  | .settled o => .run (.invoke target o)
  | .panicked payload => .raise payload

theorem Task.concludeTurn_callback {value error : Ty} {exit : Exit (Outcome H.Data H.Fn)}
    (hexit : exit.HasTags value error) (heap : Heap H.Data H.Fn) (target : Callback H.Fn) :
    concludeTurn heap exit (.callback value error target) =
      ⟨heap, [], exit.calls target, none, none⟩ := by
  cases exit with
  | panicked payload => rfl
  | settled o =>
      simp only [concludeTurn, Exit.restore_of_hasTags (hexit o rfl)]
      rfl

theorem Exit.exists_slot_of_hasTags {D F : Type} {value error : Ty} {exit : Exit (Outcome D F)}
    (hexit : exit.HasTags value error) : ∃ slot, exit.slot? value error = some slot := by
  cases exit with
  | panicked payload => exact ⟨_, rfl⟩
  | settled o => exact ⟨.ofOutcome o, by simp only [slot?, restore_of_hasTags (hexit o rfl)]⟩

namespace Run

variable {r : Run H} {entry : Entry H} {value error : Ty} {k n m : Nat} {p q : Place} {t : ThreadId}
  {stack : List (Return H)} {node node' : Node H.Data H.Fn} {id : ChannelId}

/-- Thread `t` asks at time `k` above a stack for the interpretation of a node. A future is driven
by nobody else, or is polled for the first time and not dropped later on; a scheduler runs its work
once, and the host leaves the fiber alone. -/
structure Enters (r : Run H) (entry : Entry H) (value error : Ty) (node : Node H.Data H.Fn)
    (k : Nat) (t : ThreadId) (stack : List (Return H)) : Prop where
  asks : r.Turns k t (.run (.request (entry.request value error node))) stack
  isPrivate : ∀ {id}, entry.finish (r.world k).heap value error = .channel value error id →
    r.IsPrivate id
  driving : entry = .driving → stack.any Return.isDriving = false
  polled : ∀ {future}, entry = .polled future →
    (r.world k).heap.futures[future]? = some (.fresh node) ∧
      ∀ n, ¬r.Drops n (r.world k).heap.channels.size
  fiber : ∀ {s}, entry = .fiber s → r.RunsOnce s ∧
    r.IsUntouched value error node s (r.world k).heap.promises.size

/-- The node is interpreted for a request, once: for a callback, which others may use too, this is
the only interpretation that the request starts. -/
structure InterpretsOnce (r : Run H) (entry : Entry H) (node : Node H.Data H.Fn)
    (finish : Finish H.Fn) (n : Nat) (p : Place) : Prop where
  begins : r.BeginsAt n p node finish
  once {n' : Nat} {p' : Place} {node' : Node H.Data H.Fn} : r.BeginsAt n' p' node' finish →
    (∀ target, entry = .callback target → n' = n) → n' = n ∧ p' = p ∧ node' = node

/-- Whoever polls a future whose interpretation has been asked for at time `k`, and ends with an
exit or with none, gets nothing; or the exit, as soon as the interpretation has ended. -/
def Collected (r : Run H) (value error : Ty) (future : FutureId) (k : Nat)
    (result : Option (Exit (Outcome H.Data H.Fn))) : Prop :=
  let id := (r.world k).heap.channels.size
  (∀ k' t stack m reply, r.Turns k' t (.run (.request (.poll value error future))) stack →
    (k' = k ∨ (r.world k').heap.futures[future]? = some (.running id)) →
      r.CallEnds k' m t reply stack → reply = .ok (.absent (.result value error)) ∨
        ∃ exit, result = some exit ∧ reply = exit.polled value error) ∧
  ∀ exit, result = some exit → ∃ c, ∀ k' t stack, c < k' →
    r.Turns k' t (.run (.request (.poll value error future))) stack →
      (r.world k').heap.futures[future]? = some (.running id) →
        ∃ m, r.CallEnds k' m t (exit.polled value error) stack

/-- A fiber on a scheduler records the exit of an interpretation, which is reported first if it is a
panic; or nothing. -/
def Records (r : Run H) (value error : Ty) (fiber : PromiseId) (s : SchedulerId) :
    Option (Exit (Outcome H.Data H.Fn)) → Prop
  | some exit => ((∃ payload, exit = .panicked payload) → r.ReportsReturn s) →
      ∃ slot, exit.slot? value error = some slot ∧
        (∃ m, (r.world m).heap.slot? fiber = some slot) ∧
          ∀ m slot', (r.world m).heap.slot? fiber = some slot' → slot' = slot
  | none => ∀ m, (r.world m).heap.slot? fiber = none

/-- The exit of the interpretation that is at `p` at time `b`, which is the only one, is taken to a
callback: it is called with an outcome, or the thread panics. -/
def Called (r : Run H) (value error : Ty) (target : Callback H.Fn) (b : Nat) (p : Place) :
    Option (Exit (Outcome H.Data H.Fn)) → Prop
  | some exit => ∃ c t, (∀ c' exit', r.EndsAt b p c' exit' ↔ c' = c ∧ exit' = exit) ∧
      (r.world (b + c)).Changes (r.world (b + c + 1)) t
        (.run (.conclude exit (.callback value error target))) (exit.calls target)
        (r.world (b + c)).heap
  | none => ∀ c exit, ¬r.EndsAt b p c exit

/-- A caller that has asked at time `k` above a stack for the interpretation that is at `p` at time
`b` gets its exit, as an outcome or a panic, or stays blocked. -/
def Answered (r : Run H) (value error : Ty) (k : Nat) (t : ThreadId) (stack : List (Return H))
    (b : Nat) (p : Place) : Option (Exit (Outcome H.Data H.Fn)) → Prop
  | some exit => r.HoldsSender b p (r.world k).heap.channels.size →
      ∃ m, r.CallEnds k m t (exit.reply value error) stack
  | none => ∀ m, k < m → r.IsAbove m t stack

/-- What comes of a request that thread `t` makes at time `k` above a stack, for the interpretation
that is at `p` at time `b`, when the effect ends with an exit or does not end. -/
def Delivers (r : Run H) (value error : Ty) (k : Nat) (t : ThreadId) (stack : List (Return H))
    (b : Nat) (p : Place) (result : Option (Exit (Outcome H.Data H.Fn))) : Entry H → Prop
  | .blocking => r.Answered value error k t stack b p result
  | .driving => r.Answered value error k t stack b p result
  | .polled future => r.Collected value error future k result
  | .callback target => r.Called value error target b p result
  | .fiber s => r.Records value error (r.world k).heap.promises.size s result

theorem BeginsAt.pendingAt {finish : Finish H.Fn} (h : r.BeginsAt n p node finish) :
    (r.world (n + 1)).pendingAt p = some (.driving (.start node), finish) :=
  h.puts.pendingAt

/-- One action starts one interpretation. -/
theorem BeginsAt.unique {finish finish' : Finish H.Fn} (h : r.BeginsAt n p node finish)
    (h' : r.BeginsAt n q node' finish') : p = q ∧ node = node' := by
  have hplace : p = q := by
    by_contra hne
    have hputs := h'.puts q
    rw [h.puts q, if_neg (Ne.symm hne), if_neg (Ne.symm hne), if_pos rfl, h'.free] at hputs
    contradiction
  subst hplace
  have hsame := h.pendingAt.symm.trans h'.pendingAt
  obtain ⟨hstage, -⟩ := Prod.mk.inj (Option.some.inj hsame)
  exact ⟨rfl, Interpretation.start_injective (Stage.driving.inj hstage)⟩

/-- An interpretation that starts and ends into a channel is the only one. -/
theorem BeginsAt.channel_unique (hstart : (r.world 0).Starting) (hprivate : r.IsPrivate id)
    (h : r.BeginsAt n p node (.channel value error id))
    (h' : r.BeginsAt m q node' (.channel value error id)) : m = n ∧ q = p ∧ node' = node := by
  have hlate {n m : Nat} {p q : Place} {node node' : Node H.Data H.Fn}
      (h : r.BeginsAt n p node (.channel value error id))
      (h' : r.BeginsAt m q node' (.channel value error id)) : ¬n < m := by
    intro hlt
    obtain ⟨hid, hpush⟩ := opened_of_begins hstart hprivate h
    obtain ⟨hid', -⟩ := opened_of_begins hstart hprivate h'
    have hle := channels_size_le (r := r) (show n + 1 ≤ m from hlt)
    rw [hpush, Array.size_push, ← hid, ← hid'] at hle
    exact Nat.not_succ_le_self id hle
  obtain rfl := Nat.le_antisymm (Nat.le_of_not_lt (hlate h h')) (Nat.le_of_not_lt (hlate h' h))
  obtain ⟨rfl, rfl⟩ := h.unique h'
  exact ⟨rfl, rfl, rfl⟩

section Deliver

variable {U σ : Type} {S : Setting H.Data H.Fn U σ} {s : σ} {x : Effect H.Data H.Fn value error}
  {name : Option String} {result : Option (Exit (Outcome H.Data H.Fn))}

/-- A blocked caller gets the exit of its interpretation, or stays blocked. -/
theorem BeginsAt.blocks (hstart : (r.world 0).Starting) (hprivate : r.IsPrivate id)
    (h : r.BeginsAt k p x.node (.channel value error id)) (hx : S.Types s x)
    (hsuits : r.Suits S s (k + 1) p) (hkept : ∀ n, ¬r.Drops n id) {warning : Event}
    (ht : (r.world (k + 1)).threads[t]? = some ⟨name,
      .run (.drive (.start x.node) ∅ (.channel value error id)),
        .after (.receive value error id warning) :: stack⟩) :
    (∀ exit, S.Ends s (.start x.node) exit → r.HoldsSender (k + 1) p id →
      ∃ m, r.CallEnds k m t (exit.reply value error) stack) ∧
    ((∀ exit, ¬S.Ends s (.start x.node) exit) → ∀ m, k < m → r.IsAbove m t stack) := by
  have hblocked : r.Blocked (k + 1) t value error id warning stack false :=
    ⟨_, ht, .inl (.runs rfl)⟩
  refine ⟨fun exit hends hsender => ?_, fun hnever m hkm => ?_⟩
  · obtain ⟨n, hn⟩ := hsuits.exists_endsAt h.pendingAt hends
    obtain ⟨m, -, hcall⟩ :=
      callEnds hstart hprivate h.pendingAt (hsuits.isProper h.pendingAt hx) hsuits.fair rfl hkept
        (hsender.keeps hstart h.pendingAt) hblocked hn
    exact ⟨m, hcall⟩
  · rcases blocked_course hstart hprivate h.pendingAt (hsuits.isProper h.pendingAt hx) rfl
        hblocked hkm with
      ⟨_, hblocked', -⟩ | ⟨_, c, exit, -, hends, -⟩
    · exact hblocked'.isAbove
    · exact absurd (hsuits.ends h.pendingAt hends) (hnever exit)

/-- A request that drives the future of an effect makes a channel, into which the interpretation
ends. -/
theorem opens_of_drives (h : r.Turns k t (.run (.request (.blockOn value error node))) stack)
    (hdriving : stack.any Return.isDriving = false) :
    ∃ name, r.Opens k (.blockOn value error node) (r.world k).heap.channels.size ∧
      (r.world (k + 1)).threads[t]? = some ⟨name,
        .run (.drive (.start node) ∅ (.channel value error (r.world k).heap.channels.size)),
          .after (.receive value error (r.world k).heap.channels.size .pendingForever) ::
            .driving :: stack⟩ := by
  obtain ⟨haction, name, ht⟩ := h
  obtain ⟨hheap, hthread⟩ := next_of_action haction ht rfl
  simp only [Task.turn, Request.turn, hdriving, Bool.false_eq_true, if_false] at hheap hthread
  refine ⟨name, ⟨⟨t, haction, name, stack, ht⟩, rfl, ?_⟩, hthread⟩
  rw [hheap, Heap.newChannel, Array.size_push]

/-- A thread that drives a future goes back through the mark that it does so. -/
theorem CallEnds.driven (hfair : r.Fair) {reply : Except Payload (Value H.Data H.Fn)}
    (h : r.CallEnds k m t reply (.driving :: stack)) : ∃ m, r.CallEnds k m t reply stack := by
  obtain ⟨name, hback⟩ := h.back
  have hready : Thread.IsReady ⟨name, .replied reply, .driving :: stack⟩ :=
    Control.isReady_replied reply name .driving stack
  obtain ⟨j, hj, haction, hothers, ht⟩ := hfair.exists_first hback hready
  have hturn : Thread.turn? t (r.world j).heap (r.world j).state
      ⟨name, .replied reply, .driving :: stack⟩ =
        some ((r.world j).state, stack, ⟨(r.world j).heap, [], .replied reply, none, none⟩) := by
    cases reply <;> rfl
  obtain ⟨-, hnext⟩ := next_of_action haction ht hturn
  refine ⟨j + 1, Nat.lt_succ_of_lt (Nat.lt_of_lt_of_le h.lt hj), fun i hki hij => ?_, name, hnext⟩
  by_cases him : i < m
  · exact (h.above i hki him).of_cons
  · have hsame := thread_of_others hback hready (Nat.le_of_not_lt him) fun l hl hli =>
      hothers l hl (Nat.lt_of_lt_of_le hli (Nat.le_of_lt_succ hij))
    exact ⟨_, hsame, [.driving], rfl, by simp⟩

theorem BeginsAt.interpretsOnce (hstart : (r.world 0).Starting) (hprivate : r.IsPrivate id)
    (h : r.BeginsAt k p node (.channel value error id)) :
    r.InterpretsOnce entry node (.channel value error id) k p where
  begins := h
  once h' _ := h.channel_unique hstart hprivate h'

/-- Whoever polls a future gets nothing, or the exit of its interpretation. -/
theorem BeginsAt.polls {future : FutureId} (hstart : (r.world 0).Starting)
    (hprivate : r.IsPrivate (r.world k).heap.channels.size)
    (h : r.BeginsAt k p x.node (.channel value error (r.world k).heap.channels.size))
    (hx : S.Types s x) (hresult : ∀ exit, S.Ends s (.start x.node) exit ↔ result = some exit)
    (hsuits : r.Suits S s (k + 1) p) (hkept : ∀ n, ¬r.Drops n (r.world k).heap.channels.size)
    (hasks : r.Turns k t (.run (.request (.poll value error future))) stack)
    (hfresh : (r.world k).heap.futures[future]? = some (.fresh x.node)) :
    r.Collected value error future k result := by
  obtain ⟨name, hopens, ht⟩ := opens_of_polls hasks hfresh
  have hproper := hsuits.isProper h.pendingAt hx
  refine ⟨fun k' t' stack' m reply hturns hpolls hcall => ?_, fun exit hexit => ?_⟩
  · have hfinds : r.Finds (k + 1) p value error (r.world k).heap.channels.size k' m reply := by
      rcases hpolls with rfl | hrunning
      · obtain ⟨rfl, -⟩ := hturns.does.unique hasks.does
        obtain ⟨-, rfl⟩ := hturns.unique hasks
        have hfirst := IsInterpreting.finds hstart hprivate h.pendingAt hproper.endsTyped rfl
          ⟨_, ht, .runs rfl⟩ hcall
        exact hfirst.resolve_right fun ⟨_, _, hletsGo, _⟩ => hproper.not_letsGo h.pendingAt hletsGo
      · exact (looks_of_polls hturns hrunning).finds hstart hprivate h.pendingAt hproper.endsTyped
          hcall
    cases hfinds with
    | pending => exact .inl rfl
    | @ended c exit hends _ =>
        exact .inr ⟨exit, (hresult exit).1 (hsuits.ends h.pendingAt hends), rfl⟩
  · obtain ⟨c, hc⟩ := hsuits.exists_endsAt h.pendingAt ((hresult exit).2 hexit)
    refine ⟨k + 1 + c, fun k' t' stack' hk' hturns hrunning => ?_⟩
    have hlooks := looks_of_polls hturns hrunning
    have hcomes := hlooks.comesBack_with hstart hprivate h.pendingAt hproper.endsTyped hsuits.fair
      hc
      hk' fun d _ => hkept d
    exact hcomes.resolve_right fun ⟨j, _, hdrops, _⟩ => hkept j hdrops

section Launched

variable {scheduler : SchedulerId} {fiber : PromiseId} {exit : Exit (Outcome H.Data H.Fn)}
  {slot : Slot H.Data H.Fn} (hstart : (r.world 0).Starting)
  (hlaunch : r.Launches k value error node scheduler fiber)
  (honce : r.PerformsOnce (launched value error node scheduler fiber))
  (h : r.BeginsAt n p node (.fiber value error fiber scheduler))

include hstart hlaunch honce h

/-- What takes the exit of a launched effect to its fiber ends the interpretation of the effect. -/
theorem BeginsAt.exists_endsAt
    (hsealed : r.IsSealed fiber (launched value error node scheduler fiber))
    (hdoes : r.Does m t (.conclude exit (.fiber value error fiber scheduler))) :
    ∃ c, m = n + 1 + c ∧ r.EndsAt (n + 1) p c exit := by
  obtain ⟨haction, name, stack, ht⟩ := hdoes
  obtain ⟨n', c, p', _, rfl, hbegins, hplace⟩ := exists_begins (World.pendingAt_run ht)
  obtain ⟨rfl, rfl⟩ := begins_once hstart hlaunch hsealed honce h hbegins
  exact ⟨c, rfl, endsAt_of_turns hplace ⟨haction, name, ht⟩⟩

variable (huntouched : r.IsUntouched value error node scheduler fiber)

include huntouched

/-- What is in the fiber the effect has ended with. -/
theorem BeginsAt.exists_endsAt_of_slot (hslot : (r.world m).heap.slot? fiber = some slot) :
    ∃ c exit, n + 1 + c < m ∧ r.EndsAt (n + 1) p c exit ∧ exit.slot? value error = some slot := by
  obtain ⟨_, _, hpromised⟩ := Heap.slot?_eq_some.1 hslot
  obtain ⟨_, _, exit, slot', hlt, hdoes, hexit, heq⟩ :=
    huntouched.recorded hstart hlaunch hpromised
  obtain ⟨-, -, rfl⟩ := Value.slot.inj heq
  obtain ⟨c, rfl, hends⟩ := h.exists_endsAt hstart hlaunch honce huntouched.toIsSealed hdoes
  exact ⟨c, exit, hlt, hends, hexit⟩

/-- What the effect ends with comes to be in the fiber. -/
theorem BeginsAt.exists_slot (hfair : r.Fair) {c : Nat} (hends : r.EndsAt (n + 1) p c exit)
    (htags : exit.HasTags value error)
    (hreports : (∃ payload, exit = .panicked payload) → r.ReportsReturn scheduler) :
    ∃ slot, exit.slot? value error = some slot ∧ ∃ m, (r.world m).heap.slot? fiber = some slot := by
  obtain ⟨slot, hslot⟩ := Exit.exists_slot_of_hasTags htags
  obtain ⟨t, hdoes⟩ := exists_does_of_finish h.pendingAt hends
  exact ⟨slot, hslot, huntouched.exists_slot hstart hlaunch honce hfair hdoes hslot hreports⟩

end Launched

/-- The fiber of an effect records the exit of its interpretation, or nothing. -/
theorem BeginsAt.records {scheduler : SchedulerId} {fiber : PromiseId}
    (hstart : (r.world 0).Starting) (hfair : r.Fair) (hx : S.Types s x)
    (hresult : ∀ exit, S.Ends s (.start x.node) exit ↔ result = some exit)
    (hlaunch : r.Launches k value error x.node scheduler fiber)
    (huntouched : r.IsUntouched value error x.node scheduler fiber)
    (honce : r.PerformsOnce (launched value error x.node scheduler fiber))
    (h : r.BeginsAt n p x.node (.fiber value error fiber scheduler))
    (hsuits : r.Suits S s (n + 1) p) : r.Records value error fiber scheduler result := by
  cases result with
  | none =>
      refine fun m => Option.eq_none_iff_forall_ne_some.2 fun slot hslot => ?_
      obtain ⟨c, exit, -, hends, -⟩ :=
        h.exists_endsAt_of_slot hstart hlaunch honce huntouched hslot
      simpa using (hresult exit).1 (hsuits.ends h.pendingAt hends)
  | some exit =>
      intro hreports
      have hends := (hresult exit).2 rfl
      obtain ⟨c, hc⟩ := hsuits.exists_endsAt h.pendingAt hends
      obtain ⟨slot, hslot, m, hm⟩ :=
        h.exists_slot hstart hlaunch honce huntouched hfair hc (hends.hasTags hx) hreports
      exact ⟨slot, hslot, ⟨m, hm⟩, fun j slot' hj => slot?_unique hstart hj hm⟩

/-- What becomes of the exit of an effect that ends or does not. -/
theorem Enters.delivers (hstart : (r.world 0).Starting) (hfair : r.Fair) (hx : S.Types s x)
    (hresult : ∀ exit, S.Ends s (.start x.node) exit ↔ result = some exit)
    (h : r.Enters entry value error x.node k t stack) :
    ∃ n p, r.InterpretsOnce entry x.node (entry.finish (r.world k).heap value error) n p ∧
      (r.Suits S s (n + 1) p → r.Delivers value error k t stack (n + 1) p result entry) := by
  cases entry with
  | blocking =>
      obtain ⟨name, hopens, -, ht⟩ := opens_of_blocks h.asks
      have hprivate := h.isPrivate rfl
      have hbegins := begins_of_turns h.asks rfl (fun _ _ => rfl) ht (Nat.le_succ _)
      refine ⟨k, _, hbegins.interpretsOnce hstart hprivate, fun hsuits => ?_⟩
      obtain ⟨hends, hnever⟩ := hbegins.blocks hstart hprivate hx hsuits
        (hopens.not_drops hstart (by simp)) ht
      cases result with
      | some exit => exact hends exit ((hresult exit).2 rfl)
      | none => exact hnever fun exit => by simp [hresult]
  | driving =>
      have hprivate := h.isPrivate rfl
      obtain ⟨name, hopens, ht⟩ := opens_of_drives h.asks (h.driving rfl)
      have hbegins := begins_of_turns h.asks rfl (fun _ _ => rfl) ht (Nat.le_add_right _ 2)
      refine ⟨k, _, hbegins.interpretsOnce hstart hprivate, fun hsuits => ?_⟩
      obtain ⟨hends, hnever⟩ := hbegins.blocks hstart hprivate hx hsuits
        (hopens.not_drops hstart (by simp)) ht
      cases result with
      | some exit =>
          intro hsender
          obtain ⟨m, hcall⟩ := hends exit ((hresult exit).2 rfl) hsender
          exact hcall.driven hfair
      | none => exact fun m hkm => (hnever (fun exit => by simp [hresult]) m hkm).of_cons
  | polled future =>
      obtain ⟨hfresh, hkept⟩ := h.polled rfl
      have hprivate := h.isPrivate rfl
      obtain ⟨name, -, ht⟩ := opens_of_polls h.asks hfresh
      have hbegins := begins_of_turns h.asks rfl (fun _ _ => rfl) ht (Nat.le_succ _)
      exact ⟨k, _, hbegins.interpretsOnce hstart hprivate, fun hsuits =>
        hbegins.polls hstart hprivate hx hresult hsuits hkept h.asks hfresh⟩
  | callback target =>
      obtain ⟨haction, name, ht⟩ := h.asks
      obtain ⟨-, hthread⟩ := next_of_action haction ht rfl
      have hbegins := begins_of_turns h.asks rfl (fun _ _ => rfl) hthread (Nat.le_succ _)
      refine ⟨k, _, ⟨hbegins, fun h' hcallback => ?_⟩, fun hsuits => ?_⟩
      · obtain rfl := hcallback target rfl
        obtain ⟨rfl, rfl⟩ := hbegins.unique h'
        exact ⟨rfl, rfl, rfl⟩
      · cases result with
        | none =>
            intro c exit hends
            simpa using (hresult exit).1 (hsuits.ends hbegins.pendingAt hends)
        | some exit =>
            have hends := (hresult exit).2 rfl
            obtain ⟨c, hc⟩ := hsuits.exists_endsAt hbegins.pendingAt hends
            obtain ⟨t', hdoes⟩ := exists_does_of_finish hbegins.pendingAt hc
            refine ⟨c, t', fun c' exit' => ⟨fun hends' => ?_, ?_⟩, ?_⟩
            · exact hends'.unique hbegins.pendingAt hc
            · rintro ⟨rfl, rfl⟩
              exact hc
            · exact hdoes.changes (by simp) fun _ _ =>
                Task.concludeTurn_callback (hends.hasTags hx) _ target
  | fiber scheduler =>
      obtain ⟨honce, huntouched⟩ := h.fiber rfl
      have hlaunch : r.Launches k value error x.node scheduler (r.world k).heap.promises.size :=
        ⟨⟨t, _, h.asks.does, .runFiber⟩, rfl⟩
      obtain ⟨haction, name, ht⟩ := h.asks
      obtain ⟨-, hthread⟩ := next_of_action haction ht rfl
      obtain ⟨j, -, hsubmits, -⟩ := hfair.exists_does hthread
      obtain ⟨⟨n, t', hperforms⟩, hperformsOnce⟩ := honce j t _ _ _ _ hsubmits
      obtain ⟨l, hbegins⟩ := hperforms.begins
      refine ⟨n, _, ⟨hbegins, fun h' _ => ?_⟩, fun hsuits => hbegins.records hstart hfair hx hresult
        hlaunch huntouched hperformsOnce hsuits⟩
      obtain ⟨rfl, rfl⟩ := begins_once hstart hlaunch huntouched.toIsSealed hperformsOnce h' hbegins
      obtain ⟨-, rfl⟩ := BeginsAt.unique h' hbegins
      exact ⟨rfl, rfl, rfl⟩

end Deliver

end Run

variable {U σ : Type}

/-- All ways to have an effect interpreted agree. In any run and from whatever entry, an effect is
interpreted once; in a setting, where the replies to its questions and the exits of its nodes do not
depend on the thread, it makes the same calls in the same order, and what is delivered is what the
effect ends with in the setting, or nothing if it does not end there. -/
theorem Setting.entries_agree (S : Setting H.Data H.Fn U σ) (s : σ) {value error : Ty}
    (x : Effect H.Data H.Fn value error) (hx : S.Types s x) :
    ∃ result : Option (Exit (Outcome H.Data H.Fn)),
      (∀ exit, S.Ends s (.start x.node) exit ↔ result = some exit) ∧
        ∀ (r : Run H) (entry : Entry H) (k : Nat) (t : ThreadId) (stack : List (Return H)),
          (r.world 0).Starting → r.Fair → r.Enters entry value error x.node k t stack →
            ∃ n p,
              r.InterpretsOnce entry x.node (entry.finish (r.world k).heap value error) n p ∧
                (r.Suits S s (n + 1) p →
                  Sight.Agree (r.shown S s (n + 1) p) (fun m => S.seen m s (.start x.node)) ∧
                    r.Delivers value error k t stack (n + 1) p result entry) := by
  obtain ⟨result, hresult⟩ : ∃ result : Option (Exit (Outcome H.Data H.Fn)),
      ∀ exit, S.Ends s (.start x.node) exit ↔ result = some exit := by
    by_cases hends : ∃ exit, S.Ends s (.start x.node) exit
    · obtain ⟨exit, hexit⟩ := hends
      refine ⟨some exit, fun exit' => ⟨fun h => by rw [hexit.unique h], fun h => ?_⟩⟩
      exact Option.some.inj h ▸ hexit
    · exact ⟨none, fun exit => ⟨fun h => absurd ⟨exit, h⟩ hends, fun h => by contradiction⟩⟩
  refine ⟨result, hresult, fun r entry k t stack hstart hfair henters => ?_⟩
  obtain ⟨n, p, honce, hdelivers⟩ := henters.delivers hstart hfair hx hresult
  exact ⟨n, p, honce, fun hsuits => ⟨hsuits.agree honce.begins.pendingAt, hdelivers hsuits⟩⟩

namespace Drill

/-- An effect that calls two functions. -/
def consultation : Effect Unit Nat .unit .unit :=
  (Effect.delay ⟨2, ∅⟩ : Effect Unit Nat .unit .unit).map ⟨3, ∅⟩

/-- The first thread blocks for the effect, and the second one runs it in a fiber. The second
function panics. -/
def consulting : Script
  | 0 => [.ask (.runBlocking .unit .unit consultation.node)]
  | 1 => [.ask (.runFiber .unit .unit consultation.node immediateId)]
  | 3 => [.raise (.text "bug")]
  | _ => []

def consulted : Run (host consulting) :=
  run consulting [] (List.replicate 20 0 ++ List.replicate 31 1)

/-- The setting of both interpretations. -/
def consultingSetting : Setting Unit Nat Nat Unit where
  reply _ question :=
    match question with
    | .call f _ => some (if f.val = 3 then .error (.text "bug") else .ok .unit, ())
    | _ => none
  calls _ question :=
    match question with
    | .call f _ => [f.val]
    | _ => []
  exit _ _ _ := none
  registers _ _ _ := []

set_option maxRecDepth 4000 in
theorem consulted_fair : consulted.Fair := Run.fair_ofList (by decide)

/-- The interpretations of the two threads. -/
theorem pendingAt_blocking : (consulted.world 2).pendingAt (.thread 0 2) =
    some (.driving (.start consultation.node), .channel .unit .unit 0) := by rfl

set_option maxRecDepth 4000 in
theorem pendingAt_fiber : (consulted.world 24).pendingAt (.thread 1 3) =
    some (.driving (.start consultation.node), .fiber .unit .unit 0 immediateId) := by rfl

/-- What both interpretations do. -/
def consultation.deeds : List (Deed Unit Nat) :=
  [.push (.bind (.map .unit ⟨3, ∅⟩)), .call (.thunk (.delay ⟨2, ∅⟩)), .ask (.call ⟨2, ∅⟩ []),
    .reply (.ok .unit), .pop (.bind (.map .unit ⟨3, ∅⟩)), .call (.bind (.map .unit ⟨3, ∅⟩) .unit),
    .ask (.call ⟨3, ∅⟩ [.unit]), .reply (.error (.text "bug")), .finish (.panicked (.text "bug"))]

theorem history_blocking : consulted.history 2 (.thread 0 2) 13 = consultation.deeds := by rfl

set_option maxRecDepth 4000 in
theorem history_fiber : consulted.history 24 (.thread 1 3) 13 = consultation.deeds := by rfl

theorem suits_blocking : consulted.Suits consultingSetting () 2 (.thread 0 2) := by
  have hcheck : ∀ n < 13, goesOn consulted 2 (.thread 0 2) [5, 10] n := by decide
  refine suits_of_check pendingAt_blocking consulted_fair (n := 13) rfl ?_ ?_ hcheck
    (by decide)
  · rw [history_blocking]
    exact ⟨trivial, trivial, trivial, ⟨_, rfl⟩, trivial, trivial, trivial, ⟨_, rfl⟩, trivial,
      trivial⟩
  · rw [history_blocking]
    rfl

set_option maxRecDepth 4000 in
theorem suits_fiber : consulted.Suits consultingSetting () 24 (.thread 1 3) := by
  have hcheck : ∀ n < 13, goesOn consulted 24 (.thread 1 3) [5, 10] n := by decide
  refine suits_of_check pendingAt_fiber consulted_fair (n := 13) rfl ?_ ?_ hcheck
    (by decide)
  · rw [history_fiber]
    exact ⟨trivial, trivial, trivial, ⟨_, rfl⟩, trivial, trivial, trivial, ⟨_, rfl⟩, trivial,
      trivial⟩
  · rw [history_fiber]
    rfl

theorem ends_consultation : consultingSetting.Ends () (.start consultation.node)
    (.panicked (.text "bug")) := by
  have hseen : consultingSetting.seen 6 () (.start consultation.node) =
      [.call 2, .call 3, .ends (.panicked (.text "bug"))] := rfl
  exact Setting.ends_of_mem_seen (n := 6) (by simp [hseen])

theorem types_consultation : consultingSetting.Types () consultation := by
  intro us o s' hsettles
  have heq := ends_consultation.unique (Setting.ends_settled_iff.2 ⟨us, s', hsettles⟩)
  contradiction

theorem consulted_isUntouched (x : Node Unit Nat) (s : SchedulerId) (fiber : PromiseId) :
    consulted.IsUntouched .unit .unit x s fiber :=
  isUntouched_of_isPlain (by decide) ..

theorem consulted_isPrivate (channel : ChannelId) : consulted.IsPrivate channel :=
  isPrivate_of_isPlain (by decide) channel

set_option maxRecDepth 4000 in
theorem consulted_runsOnce : consulted.RunsOnce immediateId := by
  have hsubmits : consulted.Does 22 1 (.submit immediateId
    (.interpret _ (.fiber .unit .unit 0 immediateId))) := ⟨rfl, _, _, rfl⟩
  have hperforms : consulted.Does 23 1 (.perform
    (.interpret _ (.fiber .unit .unit 0 immediateId))) := ⟨rfl, _, _, rfl⟩
  refine Run.runsOnce_of_submits hsubmits hperforms (fun hdoes => ?_) fun hdoes => ?_
  · simpa [submitsAt] using check_of_does (c := submitsAt 22) (by decide) hdoes
  · simpa [performsAt] using check_of_does (c := performsAt 23) (by decide) hdoes

set_option maxRecDepth 4000 in
/-- The blocked thread panics with what the fiber of the second thread is marked with, and the same
is seen of both interpretations. -/
theorem consulted_entries_agree :
    (∃ m, consulted.CallEnds 1 m 0 (.error (.text "bug")) [.user (0, 1)]) ∧
      (∃ m, (consulted.world m).heap.slot? 0 = some (.panicked ⟨"fiber", "bug"⟩)) ∧
        Sight.Agree (consulted.shown consultingSetting () 2 (.thread 0 2))
          (consulted.shown consultingSetting () 24 (.thread 1 3)) := by
  obtain ⟨result, hresult, henters⟩ := Setting.entries_agree (H := host consulting)
    consultingSetting () consultation types_consultation
  obtain rfl := (hresult _).1 ends_consultation
  have hstart := start_starting consulting []
  have hblocks : consulted.Turns 1 0
      (.run (.request (.runBlocking .unit .unit consultation.node))) [.user (0, 1)] :=
    ⟨rfl, _, rfl⟩
  have hforks : consulted.Turns 21 1
      (.run (.request (.runFiber .unit .unit consultation.node immediateId))) [.user (1, 1)] :=
    ⟨rfl, _, rfl⟩
  have hblocked : (consulted.world 2).threads[0]? = some ⟨none,
      .run (.drive (.start consultation.node) ∅ (.channel .unit .unit 0)),
      [.after (.receive .unit .unit 0 .blockedForever), .user (0, 1)]⟩ := rfl
  have hperforms : consulted.Turns 23 1 (.run (.perform (.interpret consultation.node
      (.fiber .unit .unit 0 immediateId))))
    [.guarded immediateId, .after (.give (.fiber .unit .unit 0)), .user (1, 1)] :=
    ⟨rfl, _, rfl⟩
  obtain ⟨n, p, honce, hdelivers⟩ := henters consulted .blocking 1 0 _ hstart consulted_fair
    { asks := hblocks
      isPrivate _ := consulted_isPrivate _
      driving h := by contradiction
      polled h := by contradiction
      fiber h := by contradiction }
  obtain ⟨n', p', honce', hdelivers'⟩ := henters consulted (.fiber immediateId) 21 1 _ hstart
    consulted_fair
    { asks := hforks
      isPrivate h := by contradiction
      driving h := by contradiction
      polled h := by contradiction
      fiber h := by
        cases h
        exact ⟨consulted_runsOnce, consulted_isUntouched ..⟩ }
  have hbegins := Run.begins_of_turns hblocks rfl (fun _ _ => rfl) hblocked (Nat.le_succ _)
  obtain ⟨rfl, rfl, -⟩ := honce.once hbegins fun _ h => by contradiction
  have hbegins' := hperforms.begins
  obtain ⟨rfl, rfl, -⟩ := honce'.once hbegins' fun _ h => by contradiction
  obtain ⟨hagree, hanswered⟩ := hdelivers suits_blocking
  obtain ⟨hagree', hrecords⟩ := hdelivers' suits_fiber
  have hends : consulted.EndsAt 2 (.thread 0 2) 12 (.panicked (.text "bug")) := by
    rw [Run.EndsAt, show consulted.deeds 2 (.thread 0 2) 12 = _ from rfl]
    exact List.mem_singleton_self _
  have hsender : consulted.KeepsSender 2 (.thread 0 2) 0 := by
    have hcheck : ∀ m < 15, (consulted.world m).hasSender 0 = true ∨ m < 2 := by decide
    intro n exit hends' m hm hmn
    obtain ⟨rfl, rfl⟩ := hends'.unique pendingAt_blocking hends
    exact (hcheck m (by omega)).resolve_right (by omega)
  obtain ⟨slot, hslot, hrecorded, -⟩ := hrecords fun _ => Run.reportsReturn_immediate rfl
  obtain rfl := Option.some.inj hslot
  exact ⟨hanswered (.inr hsender), hrecorded, hagree.trans hagree'.symm⟩

/-- The effect is run in a fiber, and the report of its panic panics, too. -/
def unreported : Run (host (breaking (.runFiber .unit .unit consultation.node 2))) :=
  run _ [brittle] (1 :: (List.replicate 7 0 ++ List.replicate 26 2))

set_option maxRecDepth 4000 in
theorem unreported_fair : unreported.Fair := Run.fair_ofList (by decide)

set_option maxRecDepth 4000 in
theorem unreported_runsOnce : unreported.RunsOnce 2 := by
  have hsubmits : unreported.Does 3 0 (.submit 2 (.interpret _ (.fiber .unit .unit 0 2))) :=
    ⟨rfl, _, _, rfl⟩
  have hperforms : unreported.Does 8 2 (.perform (.interpret _ (.fiber .unit .unit 0 2))) :=
    ⟨rfl, _, _, rfl⟩
  refine Run.runsOnce_of_submits hsubmits hperforms (fun hdoes => ?_) fun hdoes => ?_
  · simpa [submitsAt] using check_of_does (c := submitsAt 3) (by decide) hdoes
  · simpa [performsAt] using check_of_does (c := performsAt 8) (by decide) hdoes

set_option maxRecDepth 4000 in
theorem history_unreported : unreported.history 9 (.thread 2 1) 13 = consultation.deeds := by rfl

set_option maxRecDepth 4000 in
theorem suits_unreported : unreported.Suits consultingSetting () 9 (.thread 2 1) := by
  have hcheck : ∀ n < 13, goesOn unreported 9 (.thread 2 1) [5, 10] n := by decide
  have hp : (unreported.world 9).pendingAt (.thread 2 1) =
    some (.driving (.start consultation.node), .fiber .unit .unit 0 2) := rfl
  refine suits_of_check hp unreported_fair (n := 13) rfl ?_ ?_ hcheck (by decide)
  · rw [history_unreported]
    exact ⟨trivial, trivial, trivial, ⟨_, rfl⟩, trivial, trivial, trivial, ⟨_, rfl⟩, trivial,
      trivial⟩
  · rw [history_unreported]
    rfl

set_option maxRecDepth 4000 in
/-- The effect ends with its panic, but the fiber is never marked with it. -/
theorem unreported_not_marked :
    unreported.Fair ∧
      unreported.Enters (.fiber 2) .unit .unit consultation.node 2 0 [.user (0, 1)] ∧
      unreported.Suits consultingSetting () 9 (.thread 2 1) ∧
      consultingSetting.Ends () (.start consultation.node) (.panicked (.text "bug")) ∧
      unreported.EndsAt 9 (.thread 2 1) 12 (.panicked (.text "bug")) ∧
        ∀ n, (unreported.world n).heap.slot? 0 = none := by
  have hends : unreported.EndsAt 9 (.thread 2 1) 12 (.panicked (.text "bug")) := by
    rw [Run.EndsAt, show unreported.deeds 9 (.thread 2 1) 12 = _ from rfl]
    exact List.mem_singleton_self _
  refine ⟨unreported_fair, ⟨⟨rfl, _, rfl⟩, fun h => ?_, fun h => ?_, fun h => ?_, fun h => ?_⟩,
    suits_unreported, ends_consultation, hends, slot?_eq_none (by decide)⟩
  · contradiction
  · contradiction
  · contradiction
  · cases h
    exact ⟨unreported_runsOnce, isUntouched_of_isPlain (by decide) ..⟩

end Drill

end Trampoline
