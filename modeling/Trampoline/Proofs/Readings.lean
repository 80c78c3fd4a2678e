import Trampoline.Proofs.Blocking
import Trampoline.Proofs.Recovering
import Trampoline.Proofs.Waiting
import Trampoline.Session.Program

/-!
Who reads a fiber. Someone who looks at it, waits for it, subscribes to it, or joins it, directly or
inside an effect, gets what has been written first: the outcome, or a panic with the text of the
report. The effect that joins a fiber is as good as the result that is recorded there.
-/

namespace Trampoline

variable {H : Host}

namespace Setting

variable {D F U σ : Type} {S : Setting D F U σ} {value error : Ty} {fiber : PromiseId}
  {slot : Slot D F} {s : σ}

/-- In this state of a setting the node that joins a fiber gets a slot, which takes nothing else. -/
structure Records (S : Setting D F U σ) (s : σ) (value error : Ty) (fiber : PromiseId)
    (slot : Slot D F) : Prop where
  exit : S.exit s (.join value error fiber) immediateId =
    some (.settled (.ok (.slot value error slot)), s)
  registers : S.registers s (.join value error fiber) immediateId = []

theorem Records.leads (h : S.Records s value error fiber slot) (frames : List (Frame D F)) :
    S.Leads s ⟨.node (.join value error fiber), frames⟩ [] s (.settle slot.exit frames) := by
  have hnode : S.Moves s ⟨.node (.async (.join value error fiber) immediateId),
      .bind (.unslot value error) :: frames⟩ [] s (.settle
        (.settled (.ok (.slot value error slot))) (.bind (.unslot value error) :: frames)) := by
    have hmoves := Moves.suspend (i := ⟨.node (.async (.join value error fiber) immediateId),
      .bind (.unslot value error) :: frames⟩) rfl h.exit
    rwa [h.registers] at hmoves
  exact ((leads_source s _ _ frames).trans (.of_moves hnode)).trans
    (.of_next (step_unslot value error slot frames) .refl)

/-- Joining a fiber is as good as its result, above whatever stack. -/
theorem Records.equates {S : Setting H.Data H.Fn U σ} {o : Outcome H.Data H.Fn}
    (h : S.Records s value error fiber (.ofOutcome o)) :
    S.Equates s (Effect.join fiber : Effect H.Data H.Fn value error).node [] s
      (Effect.ofResult o : Effect H.Data H.Fn value error).node := by
  refine .of_seen fun frames => ?_
  have hresult : S.Leads s ⟨.node (Effect.ofResult o : Effect H.Data H.Fn value error).node, frames⟩
      [] s (.settle (Slot.ofOutcome o).exit frames) := by
    cases o with
    | ok v => exact leads_succeed s v frames
    | error v => exact leads_fail s v frames
  exact (h.leads frames).agree.trans hresult.agree.symm

/-- Joining a fiber whose effect has panicked panics with the text of the report. -/
theorem Records.panics {report : WorkFailure}
    (h : S.Records s value error fiber (.panicked report)) :
    S.Panics s (Effect.join fiber : Effect D F value error).node [] (.text report.message) :=
  fun frames => ⟨s, [], h.leads frames⟩

end Setting

/-- What one gets who waits for a fiber, until a deadline if there is one. -/
def Slot.answer {D F : Type} (value error : Ty) (slot : Slot D F) :
    Option Nat → Except Payload (Value D F)
  | none => slot.reply value error
  | some _ => (slot.reply value error).map (.present (.result value error))

/-- What a thread does next that tells a callback what is recorded in a fiber: it completes the
callback, or panics. -/
def Slot.delivery (slot : Slot H.Data H.Fn) (target : Callback H.Fn) : Control H :=
  match slot.read with
  | .ok o => .run (.invoke target o)
  | .error payload => .raise payload

theorem Slot.tellTurn_observe (heap : Heap H.Data H.Fn) (value error value' error' : Ty)
    (slot : Slot H.Data H.Fn) (target : Callback H.Fn) :
    Task.tellTurn (H := H) heap (.slot value error slot) (.observe value' error' target) =
      ⟨heap, [], slot.delivery target, none, none⟩ := by
  simp only [Task.tellTurn, delivery]
  cases slot.read <;> rfl

theorem Slot.readAs_answer {D F : Type} (value error : Ty) (slot : Slot D F) :
    (Value.slot value error slot).ReadAs (slot.answer value error none) := by
  unfold answer reply
  cases h : slot.read with
  | ok o => exact .outcome h
  | error payload => exact .panic h

theorem Slot.readAs_present {D F : Type} (value error ty : Ty) (slot : Slot D F) (time : Nat) :
    (Value.present ty (.slot value error slot)).ReadAs (slot.answer value error (some time)) := by
  unfold answer reply
  cases h : slot.read with
  | ok o => exact .present h
  | error payload => exact .presentPanic h

theorem Return.readTurn_absent (heap : Heap H.Data H.Fn) (ty : Ty) :
    ∃ ty', Return.readTurn (H := H) heap (.absent ty) = .ret heap (.absent ty') := by
  cases ty <;> exact ⟨_, rfl⟩

namespace Run.IsFiber

variable {r : Run H} {b k n m j : Nat} {t t' : ThreadId} {value error value' error' : Ty}
  {fiber : PromiseId} {slot : Slot H.Data H.Fn} {deadline : Option Nat} {q : Request H.Data H.Fn}
  {v : Value H.Data H.Fn} {target : Callback H.Fn} {stack : List (Return H)}
  (hfiber : r.IsFiber fiber value error) (hstart : (r.world 0).Starting)

include hfiber hstart

/-- A reader that is answered gets what is recorded or, after its deadline, nothing. -/
theorem reads (h : r.IsAnswered fiber n t deadline (.reading :: stack)) (hnext : r.NextTurn t n m) :
    (∃ slot, (r.world n).heap.slot? fiber = some slot ∧
        r.GoesBack (m + 1) t (slot.answer value error deadline) stack) ∨
      (r.world n).heap.slot? fiber = none ∧ ∃ time ty, deadline = some time ∧
        time ≤ (r.world n).heap.clock ∧ r.GoesBack (m + 1) t (.ok (.absent ty)) stack := by
  obtain ⟨-, name, v, hanswers, ht⟩ := h
  have hready : Thread.IsReady (H := H) ⟨name, .ret v, .reading :: stack⟩ := List.cons_ne_nil _ _
  have ht' := thread_of_others ht hready hnext.lt hnext.between
  obtain ⟨-, hback⟩ := next_of_action hnext.next ht' rfl
  cases hanswers with
  | value hlt hwrites =>
      obtain ⟨slot, rfl, -⟩ := hfiber.written hstart hwrites
      rw [Return.resume, (slot.readAs_answer value error).readTurn] at hback
      exact .inl ⟨slot, (hfiber.slot?_eq_some hstart).2 ⟨_, _, hlt, hwrites⟩, name, hback⟩
  | @present time _ _ ty _ hlt hwrites =>
      obtain ⟨slot, rfl, -⟩ := hfiber.written hstart hwrites
      rw [Return.resume, (slot.readAs_present value error ty time).readTurn] at hback
      exact .inl ⟨slot, (hfiber.slot?_eq_some hstart).2 ⟨_, _, hlt, hwrites⟩, name, hback⟩
  | @absent time ty hnobody htime =>
      obtain ⟨ty', hread⟩ := Return.readTurn_absent (r.world m).heap ty
      rw [Return.resume, hread] at hback
      refine .inr ⟨?_, time, ty', rfl, htime, name, hback⟩
      rw [Option.eq_none_iff_forall_ne_some]
      intro slot hslot
      obtain ⟨k, t', hlt, hwrites⟩ := (hfiber.slot?_eq_some hstart).1 hslot
      exact hnobody k t' _ hlt hwrites

/-- A reader comes to an answer if something is recorded at some time, or before its request if it
does not wait for ever. -/
theorem answered (hfair : r.Fair) (h : r.Turns k t (.run (.request q)) stack)
    (hq : q.Waits (r.world k).heap.clock fiber deadline [.reading])
    (hslot : (r.world j).heap.slot? fiber = some slot) (hj : deadline = none ∨ j ≤ k) :
    ∃ m, k < m ∧ r.GoesBack m t (slot.answer value error deadline) stack := by
  obtain ⟨haction, name, ht⟩ := h
  obtain ⟨n, hn, hanswered⟩ := hfair.exists_answered hstart (waits_of_request haction ht hq)
    (hfiber.promised?_eq hstart hslot)
  obtain ⟨haction', _, _, -, ht'⟩ := id hanswered
  obtain ⟨m, hnext, -⟩ := hfair.exists_nextTurn haction' ht' (List.cons_ne_nil _ _)
  rcases hfiber.reads hstart hanswered hnext with
    ⟨slot', hslot', hback⟩ | ⟨hnone, time, ty, hdeadline, -, -⟩
  · obtain rfl := slot?_unique hstart hslot' hslot
    exact ⟨m + 1, by have := hnext.lt; omega, hback⟩
  · rcases hj with hforever | hj
    · simp [hforever] at hdeadline
    · have hthere := slot?_of_le hstart hslot (show j ≤ n by omega)
      simp [hnone] at hthere

/-- A callback that is told gets what is recorded. -/
theorem told (h : r.Tells fiber n t (.observe value' error' target) v) (hnext : r.NextTurn t n m) :
    ∃ slot name stack, (r.world n).heap.slot? fiber = some slot ∧
      (r.world (m + 1)).threads[t]? = some ⟨name, slot.delivery target, stack⟩ := by
  obtain ⟨⟨k, t', hlt, hwrites⟩, -⟩ := h.serves hstart
  obtain ⟨slot, rfl, -⟩ := hfiber.written hstart hwrites
  obtain ⟨name, stack, ht⟩ := h.calls
  have ht' := thread_of_others ht trivial hnext.lt hnext.between
  obtain ⟨-, hthread⟩ := next_of_action hnext.next ht' rfl
  refine ⟨slot, name, stack, (hfiber.slot?_eq_some hstart).2 ⟨_, _, hlt, hwrites⟩, ?_⟩
  rw [Task.turn, Slot.tellTurn_observe] at hthread
  exact hthread

/-- A callback that subscribes once something is recorded is told that by its own thread. -/
theorem observed (hfair : r.Fair)
    (h : r.Turns k t (.run (.request (.observe value' error' fiber target))) stack)
    (hslot : (r.world k).heap.slot? fiber = some slot) :
    ∃ m name, k < m ∧ (r.world m).threads[t]? =
      some ⟨name, slot.delivery target, .holding [.promise fiber] :: stack⟩ := by
  obtain ⟨haction, name, ht⟩ := h
  obtain ⟨m₁, hm₁, ht₁⟩ := hfair.exists_next
    ⟨name, .run (.subscribe fiber (.observe value' error' target)), stack⟩ trivial ht
    fun _ _ => ⟨_, _, _, rfl, rfl⟩
  obtain ⟨m₂, hm₂, haction₂, ht₂⟩ := hfair.exists_ready ht₁ trivial
  obtain ⟨-, ht₃⟩ := next_of_action haction₂ ht₂ rfl
  rw [hfiber.turn_subscribe hstart (slot?_of_le hstart hslot (show k ≤ m₂ by omega))] at ht₃
  obtain ⟨m₄, hm₄, haction₄, ht₄⟩ := hfair.exists_ready ht₃ trivial
  obtain ⟨-, ht₅⟩ := next_of_action haction₄ ht₄ rfl
  rw [Task.turn, Slot.tellTurn_observe] at ht₅
  exact ⟨m₄ + 1, name, by omega, ht₅⟩

/-- Who blocks for the effect that joins a fiber gets what is recorded, or goes on waiting. -/
theorem blocked {id : ChannelId} {warning : Event}
    (himmediate : (r.world 0).heap.schedulers[immediateId]? = some .immediate)
    (hopens : r.Opens k (.runBlocking value error (.join value error fiber)) id)
    (hprivate : r.IsPrivate id)
    (h : r.Turns n t (.run (.receive value error id warning)) stack) :
    (r.world n).heap.received? id = none ∨ ∃ slot, (r.world n).heap.slot? fiber = some slot ∧
      r.GoesBack (n + 1) t (slot.reply value error) stack := by
  obtain ⟨haction, name, ht⟩ := h
  cases hreceived : (r.world n).heap.received? id with
  | none => exact .inl rfl
  | some exit =>
      obtain ⟨slot, hslot, rfl⟩ := hfiber.received hstart himmediate hopens hprivate hreceived
      obtain ⟨-, hback⟩ := next_of_action haction ht rfl
      rw [Task.turn_receive hreceived] at hback
      exact .inr ⟨slot, hslot, name, hback⟩

end Run.IsFiber

namespace Run

/-- All who write to a fiber or read it agree on what has been written first. -/
structure Shares (r : Run H) (fiber : PromiseId) (value error : Ty) : Prop where
  /-- What is recorded is what has been written first, and nothing else is written. -/
  decided {n : Nat} {slot : Slot H.Data H.Fn} : (r.world n).heap.slot? fiber = some slot ↔
    ∃ m t, m < n ∧ r.Writes fiber m t (.slot value error slot)
  written {n : Nat} {t : ThreadId} {v : Value H.Data H.Fn} : r.Writes fiber n t v →
    ∃ slot, v = .slot value error slot
  kept {n m : Nat} {slot : Slot H.Data H.Fn} : (r.world n).heap.slot? fiber = some slot → n ≤ m →
    (r.world m).heap.slot? fiber = some slot
  /-- It is an outcome of the fiber's types, which is what readers get, or the report of a panic,
  with the text of which they panic. -/
  shown {n : Nat} {slot : Slot H.Data H.Fn} : (r.world n).heap.slot? fiber = some slot →
    (∃ o, slot = .ofOutcome o ∧ Outcome.HasTags value error o ∧ slot.panicked? = none ∧
        slot.outcome? = some o ∧ slot.read = .ok o) ∨
      ∃ report, slot = .panicked report ∧ slot.panicked? = some report ∧ slot.outcome? = none ∧
        slot.read = .error (.text report.message)
  /-- Whoever writes when nothing is recorded writes first. -/
  writes {n : Nat} {t : ThreadId} {v : Value H.Data H.Fn} {stack : List (Return H)} :
    (r.world n).heap.slot? fiber = none → fiber < (r.world n).heap.promises.size →
      r.Turns n t (.run (.fill fiber v)) stack → r.Writes fiber n t v
  /-- A call that completes the fiber by hand writes first, or gets its own outcome back. -/
  completes {k n : Nat} {t : ThreadId} {o : Outcome H.Data H.Fn} {stack : List (Return H)} :
    r.Turns k t (.run (.request (.fillFiber value error fiber o))) stack →
      fiber < (r.world k).heap.promises.size → r.NextTurn t k n →
        ((r.world n).heap.slot? fiber = none ∧
            r.Writes fiber n t (.slot value error (.ofOutcome o))) ∨
          (∃ slot, (r.world n).heap.slot? fiber = some slot) ∧
            r.GivesBack n t value error o stack
  /-- Whatever is written later, by hand, by a run that ends or as the mark of a panic, changes
  nothing. -/
  rejects {n : Nat} {t : ThreadId} {slot : Slot H.Data H.Fn} {v : Value H.Data H.Fn}
      {stack : List (Return H)} :
    (r.world n).heap.slot? fiber = some slot → r.Turns n t (.run (.fill fiber v)) stack →
      (r.world (n + 1)).heap = (r.world n).heap ∧
        r.GoesBack (n + 1) t (.ok (.err .unit (.slot value error) v)) stack
  /-- A reader that is answered gets what is recorded or, after its deadline, nothing. -/
  reads {n m : Nat} {t : ThreadId} {deadline : Option Nat} {stack : List (Return H)} :
    r.IsAnswered fiber n t deadline (.reading :: stack) → r.NextTurn t n m →
      (∃ slot, (r.world n).heap.slot? fiber = some slot ∧
          r.GoesBack (m + 1) t (slot.answer value error deadline) stack) ∨
        (r.world n).heap.slot? fiber = none ∧ ∃ time ty, deadline = some time ∧
          time ≤ (r.world n).heap.clock ∧ r.GoesBack (m + 1) t (.ok (.absent ty)) stack
  answered {k j : Nat} {t : ThreadId} {q : Request H.Data H.Fn} {deadline : Option Nat}
      {slot : Slot H.Data H.Fn} {stack : List (Return H)} :
    r.Fair → r.Turns k t (.run (.request q)) stack →
      q.Waits (r.world k).heap.clock fiber deadline [.reading] →
        (r.world j).heap.slot? fiber = some slot → deadline = none ∨ j ≤ k →
          ∃ m, k < m ∧ r.GoesBack m t (slot.answer value error deadline) stack
  /-- A callback that is told is completed with the outcome, or the thread that tells it panics. -/
  told {n m : Nat} {t : ThreadId} {value' error' : Ty} {target : Callback H.Fn}
      {v : Value H.Data H.Fn} :
    r.Tells fiber n t (.observe value' error' target) v → r.NextTurn t n m →
      ∃ slot name stack, (r.world n).heap.slot? fiber = some slot ∧
        (r.world (m + 1)).threads[t]? = some ⟨name, slot.delivery target, stack⟩
  observed {k : Nat} {t : ThreadId} {value' error' : Ty} {target : Callback H.Fn}
      {slot : Slot H.Data H.Fn} {stack : List (Return H)} :
    r.Fair → r.Turns k t (.run (.request (.observe value' error' fiber target))) stack →
      (r.world k).heap.slot? fiber = some slot →
        ∃ m name, k < m ∧ (r.world m).threads[t]? =
          some ⟨name, slot.delivery target, .holding [.promise fiber] :: stack⟩
  /-- Who has subscribed before is told if the call that has written first comes to its end. -/
  served {k n : Nat} {t t' : ThreadId} {v : Value H.Data H.Fn} {first : Option Payload}
      {subscriber : Subscriber H.Fn} :
    r.Ends fiber k t v first → r.Subscribes fiber n t' subscriber →
      ∃ m t'', n ≤ m ∧ r.Tells fiber m t'' subscriber v
  /-- An interpretation that joins the fiber, above whatever is pending, does nothing else until it
  goes on with what is recorded. -/
  joining {b : Nat} {p : Place} {frames : List (Frame H.Data H.Fn)} {finish : Finish H.Fn} :
    (r.world b).pendingAt p =
        some (.driving ⟨.node (.join value error fiber), frames⟩, finish) →
      ∀ n, (∃ stage j, r.stage b p n = some stage ∧
          r.IsJoining b p value error fiber frames n j stage) ∨
        ∃ m slot, m ≤ n ∧ r.Reads b p value error fiber frames m slot
  /-- It comes to that if the slot is there when it starts, or if the call that has written first
  comes to its end. -/
  joined {b : Nat} {p : Place} {frames : List (Frame H.Data H.Fn)} {finish : Finish H.Fn} :
    r.Fair → (r.world b).pendingAt p =
        some (.driving ⟨.node (.join value error fiber), frames⟩, finish) →
      fiber < (r.world b).heap.promises.size →
        ((r.world b).heap.slot? fiber ≠ none ∨ ∃ k t v first, r.Ends fiber k t v first) →
          ∃ n slot, r.Reads b p value error fiber frames n slot
  /-- Who blocks for the effect that joins the fiber receives nothing but what is recorded, and
  receives it if it is there already. -/
  blocked {k n : Nat} {t : ThreadId} {id : ChannelId} {warning : Event} {stack : List (Return H)} :
    r.Opens k (.runBlocking value error (.join value error fiber)) id → r.IsPrivate id →
      r.Turns n t (.run (.receive value error id warning)) stack →
        (r.world n).heap.received? id = none ∨ ∃ slot, (r.world n).heap.slot? fiber = some slot ∧
          r.GoesBack (n + 1) t (slot.reply value error) stack
  blocks {k : Nat} {t : ThreadId} {slot : Slot H.Data H.Fn} {stack : List (Return H)} :
    r.Fair →
      r.Turns k t (.run (.request (.runBlocking value error (.join value error fiber)))) stack →
        r.IsPrivate (r.world k).heap.channels.size → (r.world k).heap.slot? fiber = some slot →
          ∃ m, k < m ∧ r.GoesBack m t (slot.reply value error) stack
  /-- Where the fiber's slot is found, the effect that joins it does what its result does, or
  panics. -/
  equates {U σ : Type} {S : Setting H.Data H.Fn U σ} {s : σ} {n : Nat}
      {slot : Slot H.Data H.Fn} :
    (r.world n).heap.slot? fiber = some slot → S.Records s value error fiber slot →
      (∃ o, slot.read = .ok o ∧
          S.Equates s (Effect.join fiber : Effect H.Data H.Fn value error).node [] s
            (Effect.ofResult o : Effect H.Data H.Fn value error).node) ∨
        ∃ payload, slot.read = .error payload ∧
          S.Panics s (Effect.join fiber : Effect H.Data H.Fn value error).node [] payload

/-- Whoever writes to a fiber first, and whatever the order of the threads and the passing of time
are, all who read the fiber agree. -/
theorem IsFiber.shares {r : Run H} {fiber : PromiseId} {value error : Ty}
    (hfiber : r.IsFiber fiber value error) (hstart : (r.world 0).Starting)
    (himmediate : (r.world 0).heap.schedulers[immediateId]? = some .immediate) :
    r.Shares fiber value error where
  decided := hfiber.slot?_eq_some hstart
  written h := (hfiber.written hstart h).imp fun _ h => h.1
  kept h hnm := slot?_of_le hstart h hnm
  shown {n slot} h := by
    rcases slot.read_cases with ⟨o, heq, hpanicked, houtcome, hread⟩ | hpanicked
    · exact .inl ⟨o, heq, hfiber.hasTags hstart h o hread, hpanicked, houtcome, hread⟩
    · exact .inr hpanicked
  writes hslot hlt h := hfiber.writes hstart hslot hlt h
  completes h hlt hnext := hfiber.completes hstart h hlt hnext
  rejects hslot h := hfiber.rejected hstart hslot h
  reads h hnext := hfiber.reads hstart h hnext
  answered hfair h hq hslot hj := hfiber.answered hstart hfair h hq hslot hj
  told h hnext := hfiber.told hstart h hnext
  observed hfair h hslot := hfiber.observed hstart hfair h hslot
  served hends h := by
    obtain ⟨m, t'', hserves, -⟩ := h.served hstart hends
    exact ⟨m, t'', hserves.le hstart, hserves.tells⟩
  joining hp := joins_course hstart himmediate hfiber.nodes (hfiber.slot_of_promised hstart) hp
  joined hfair hp := (hfair.joinsOnce hstart himmediate hfiber.nodes
    (hfiber.slot_of_promised hstart) hp).comes
  blocked hopens hprivate h := hfiber.blocked hstart himmediate hopens hprivate h
  blocks hfair h hprivate hslot := hfiber.blocks hstart himmediate hfair h hprivate hslot
  equates {U σ S s n slot} _ h := by
    rcases slot.read_cases with ⟨o, rfl, -, -, hread⟩ | ⟨report, rfl, -, -, hread⟩
    · exact .inl ⟨o, hread, h.equates⟩
    · exact .inr ⟨_, hread, h.panics⟩

end Run

/-- Once something is recorded in a fiber, a session that looks at it finds that. -/
theorem Session.readFiber_of_shares {r : Run Session.host} {fiber : PromiseId} {value error : Ty}
    {slot : Slot Datum Closure} {n m : Nat} (h : r.Shares fiber value error)
    (hslot : (r.world n).heap.slot? fiber = some slot) (hnm : n ≤ m) :
    readFiber (r.world m).heap fiber =
      match slot.read with
      | .ok o => .value (.some (.ofOutcome o))
      | .error payload => .raise payload := by
  have hthere : Heap.slot? (D := Datum) (F := Closure) (r.world m).heap fiber = some slot :=
    h.kept hslot hnm
  cases hread : slot.read <;> simp only [readFiber, hthere, hread]

namespace Drill

variable {script : Script} {more : List (Scheduler Nat)} {order : List ThreadId}

def isUnit : Outcome Unit Nat → Bool
  | .ok v => v.ty == .unit
  | .error v => v.ty == .unit

theorem hasTags_of_isUnit {o : Outcome Unit Nat} (h : isUnit o) :
    Outcome.HasTags .unit .unit o := by
  cases o <;> exact eq_of_beq h

/-- Whether a task asks for nothing that has to do with a node or with work, and completes fibers
with outcomes of their types only. -/
def isTyped : Task (host script) → Bool
  | .request q =>
      ((q.refs []).all fun
        | .handoff _ => false
        | _ => true) &&
      match q with
      | .fill _ _ => false
      | .submit _ _ => false
      | .perform _ => false
      | .completedFiber _ _ _ => false
      | .fillFiber value error _ o => value == .unit && error == .unit && isUnit o
      | _ => true
  | _ => true

section Typed

variable (h : ∀ n < order.length, (((run script more order).world n).task?
  ((run script more order).action n)).all isTyped)

include h

theorem isFiber_of_isTyped {fiber : PromiseId}
    (hmade : ∃ n promise, ((run script more order).world n).heap.promises[fiber]? = some promise ∧
      promise.ty = .slot .unit .unit) : (run script more order).IsFiber fiber .unit .unit where
  made := hmade
  fill n t v hdoes := by simpa [isTyped] using check_of_does (c := fun _ => isTyped) h hdoes
  byHand n t value' error' o hdoes := by
    have htyped := check_of_does (c := fun _ => isTyped) h hdoes
    simp only [isTyped, Bool.and_eq_true, beq_iff_eq] at htyped
    exact ⟨htyped.2.1.1, htyped.2.1.2, hasTags_of_isUnit htyped.2.2⟩
  completed n t o hdoes := by simpa [isTyped] using check_of_does (c := fun _ => isTyped) h hdoes
  work n t q value' error' node s hdoes hwork := by
    have htyped := check_of_does (c := fun _ => isTyped) h hdoes
    cases q <;> simp [isTyped, Request.work?] at htyped hwork
  nodes _ _ id _ n t q hdoes hmem := by
    have htyped := check_of_does (c := fun _ => isTyped) h hdoes
    simp only [isTyped, Bool.and_eq_true, List.all_eq_true] at htyped
    exact Bool.false_ne_true (htyped.1 _ hmem)

theorem isPrivate_of_isTyped (id : ChannelId) : (run script more order).IsPrivate id := by
  intro n t q work hdoes hwork
  have htyped := check_of_does (c := fun _ => isTyped) h hdoes
  cases q <;> simp [isTyped, Request.work?] at htyped hwork

end Typed

def observer : Callback Nat := .user .unit .unit ⟨3, ∅⟩

/-- The first thread runs an effect on a pool, waits for its fiber and observes it. The second one
completes the fiber twice and blocks for the effect that joins it, and for its result. -/
def racing : Script
  | 0 => [.ask (.runFiber .unit .unit (.thunk (.delay ⟨2, ∅⟩)) 2), .ask (.awaitFiber 0),
      .ask (.observe .unit .unit 0 observer)]
  | 1 => [.ask (.fillFiber .unit .unit 0 (.ok .unit)),
      .ask (.fillFiber .unit .unit 0 (.error .unit)),
      .ask (.runBlocking .unit .unit (Effect.join 0 : Effect Unit Nat .unit .unit).node),
      .ask (.runBlocking .unit .unit
        (Effect.ofResult (.ok .unit) : Effect Unit Nat .unit .unit).node)]
  | 2 => [.raise (.text "late")]
  | _ => []

/-- The fiber is completed by hand before the effect panics. -/
def raced : Run (host racing) :=
  run racing [.pool .log] (List.replicate 9 0 ++ List.replicate 11 1 ++ List.replicate 15 2 ++
    List.replicate 15 0 ++ List.replicate 35 1)

theorem raced_isTyped : ∀ n < 85, ((raced.world n).task? (raced.action n)).all isTyped := by
  decide

set_option maxRecDepth 4000 in
theorem raced_fair : raced.Fair := Run.fair_ofList (by decide)

/-- The setting in which the fiber is completed. -/
def recorded : Setting Unit Nat Nat Unit where
  reply _ _ := none
  calls _ _ := []
  exit _ _ _ := some (.settled (.ok (.slot .unit .unit (.ok .unit))), ())
  registers _ _ _ := []

set_option maxRecDepth 10000 in
theorem suits_join : raced.Suits recorded () 54 (.thread 1 2) := by
  have hhistory : raced.history 54 (.thread 1 2) 30 =
      [.push (.bind (.unslot .unit .unit)), .submit (.join .unit .unit 0) immediateId,
        .call (.register (.join .unit .unit 0)),
        .exit (.settled (.ok (.slot .unit .unit (.ok .unit)))),
        .pop (.bind (.unslot .unit .unit)),
        .call (.bind (.unslot .unit .unit) (.slot .unit .unit (.ok .unit))),
        .finish (.settled (.ok .unit))] := by rfl
  have hcheck : ∀ n < 30, goesOn raced 54 (.thread 1 2) [12] n := by decide
  refine suits_of_check (show (raced.world 54).pendingAt (.thread 1 2) = some (_, _) from rfl)
    raced_fair rfl ?_ ?_ hcheck (by decide)
  · rw [hhistory]
    exact ⟨trivial, trivial, rfl, ⟨_, rfl⟩, trivial, trivial, trivial, trivial⟩
  · rw [hhistory]
    rfl

set_option maxRecDepth 10000 in
theorem suits_result : raced.Suits recorded () 77 (.thread 1 2) := by
  have hhistory : raced.history 77 (.thread 1 2) 10 =
      [.call (.thunk (.succeed .unit)), .finish (.settled (.ok .unit))] := by rfl
  have hcheck : ∀ n < 10, goesOn raced 77 (.thread 1 2) [] n := by decide
  refine suits_of_check (show (raced.world 77).pendingAt (.thread 1 2) = some (_, _) from rfl)
    raced_fair rfl ?_ ?_ hcheck (by decide)
  · rw [hhistory]
    exact ⟨trivial, trivial, trivial⟩
  · rw [hhistory]
    rfl

set_option maxRecDepth 10000 in
/-- The second completion gets its outcome back, the mark of the panic changes nothing, and all
readers get the first outcome: the one that has slept, the one that blocks for the effect that joins
the fiber, and this effect itself, which shows what its result shows. -/
theorem raced_shares :
    (∀ n, 12 ≤ n → (raced.world n).heap.slot? 0 = some (.ok .unit)) ∧
      raced.GivesBack 19 1 .unit .unit (.error .unit) [.user (1, 2)] ∧
      (raced.world 31).heap = (raced.world 30).heap ∧
      (∃ m, 7 < m ∧ raced.GoesBack m 0 (.ok (.ok .unit .unit .unit)) [.user (0, 2)]) ∧
      (∃ m name, 39 < m ∧ (raced.world m).threads[0]? = some ⟨name,
        .run (.invoke observer (.ok .unit)), [.holding [.promise 0], .user (0, 3)]⟩) ∧
      (∃ m, 53 < m ∧ raced.GoesBack m 1 (.ok (.ok .unit .unit .unit)) [.user (1, 3)]) ∧
      (∃ n slot, raced.Reads 54 (.thread 1 2) .unit .unit 0 [] n slot) ∧
      Sight.Agree (raced.shown recorded () 54 (.thread 1 2))
        (raced.shown recorded () 77 (.thread 1 2)) := by
  have hfiber : raced.IsFiber 0 .unit .unit :=
    isFiber_of_isTyped (by exact raced_isTyped) ⟨2, .empty (.slot .unit .unit), rfl, rfl⟩
  have hshares := hfiber.shares (start_starting racing [.pool .log]) rfl
  have hfirst : raced.Writes 0 11 1 (.slot .unit .unit (.ok .unit)) :=
    hshares.writes rfl (by decide) ⟨rfl, _, rfl⟩
  have hslot {n : Nat} (hn : 12 ≤ n) : (raced.world n).heap.slot? 0 = some (.ok .unit) :=
    hshares.kept (hshares.decided.2 ⟨11, 1, by decide, hfirst⟩) hn
  have hsecond := hshares.completes (k := 18) (n := 19) (o := .error .unit) (t := 1) ⟨rfl, _, rfl⟩
    (by decide) ⟨by decide, rfl, rfl, by omega⟩
  have hmark := hshares.rejects (hslot (show 12 ≤ 30 by decide)) (t := 2) ⟨rfl, _, rfl⟩
  have hawaited := hshares.answered raced_fair (k := 7) (t := 0) ⟨rfl, _, rfl⟩ .awaitFiber
    (hslot (Nat.le_refl 12)) (.inl rfl)
  have hobserved := hshares.observed raced_fair (k := 39) (t := 0) ⟨rfl, _, rfl⟩
    (hslot (by decide))
  have hblocks := hshares.blocks raced_fair (k := 53) (t := 1) ⟨rfl, _, rfl⟩
    (isPrivate_of_isTyped (by exact raced_isTyped) _) (hslot (by decide))
  have hjoin : (raced.world 54).pendingAt (.thread 1 2) =
      some (.driving (.start (.join .unit .unit 0)), .channel .unit .unit 0) := rfl
  have hresult : (raced.world 77).pendingAt (.thread 1 2) =
      some (.driving (.start (.thunk (.succeed .unit))), .channel .unit .unit 1) := rfl
  have hreads := hshares.joined raced_fair hjoin (by decide)
    (.inl (by rw [hslot (by decide)]; simp))
  refine ⟨fun n hn => hslot hn, ?_, hmark.1, hawaited, hobserved, hblocks, hreads, ?_⟩
  · exact (hsecond.resolve_left fun h => by simp [hslot] at h).2
  · rcases hshares.equates (S := recorded) (s := ()) (hslot (Nat.le_refl 12)) ⟨rfl, rfl⟩ with
      ⟨o, hread, hequates⟩ | ⟨payload, hread, -⟩
    · obtain rfl := Except.ok.inj hread
      exact hequates.shown hjoin hresult suits_join suits_result
    · contradiction

/-- The first thread lets two callbacks observe a fiber and completes it. The first callback waits
for a promise that nobody completes. The second thread waits for the fiber until a time that is no
instant. -/
def waylaying : Script
  | 0 => [.ask (.newFiber .unit .unit), .ask (.observe .unit .unit 0 (.user .unit .unit ⟨2, ∅⟩)),
      .ask (.observe .unit .unit 0 observer), .ask (.fillFiber .unit .unit 0 (.ok .unit))]
  | 1 => [.ask (.awaitFiberFor 0 Heap.instants)]
  | 2 => [.ask (.newPromise .unit), .ask (.await 1)]
  | _ => []

def waylaid : Run (host waylaying) :=
  run waylaying [] (List.replicate 26 0 ++ List.replicate 4 1)

/-- Whether a task does not complete the observer. -/
def leavesObserver : Task (host waylaying) → Bool
  | .invoke (.user _ _ f) _ => !Nat.beq f.val 3
  | _ => true

set_option maxRecDepth 4000 in
/-- The second callback is not told what is recorded, as the first one keeps the thread that tells
them; and whoever waits until a time that is no instant panics, whatever is recorded. -/
theorem waylaid_not_told :
    waylaid.Fair ∧ waylaid.IsFiber 0 .unit .unit ∧
      waylaid.Turns 8 0 (.run (.request (.observe .unit .unit 0 observer))) [.user (0, 3)] ∧
      (∀ n, 14 ≤ n → (waylaid.world n).heap.slot? 0 = some (.ok .unit)) ∧
      (∀ n t o, ¬waylaid.Does n t (.invoke observer o)) ∧
      waylaid.Turns 27 1 (.run (.request (.awaitFiberFor 0 Heap.instants))) [.user (1, 1)] ∧
        waylaid.GoesBack 28 1 (.error beyondInstants) [.user (1, 1)] := by
  refine ⟨Run.fair_ofList (by decide), ?_, ⟨rfl, _, rfl⟩, fun n hn => ?_, fun n t o hdoes => ?_,
    ⟨rfl, _, rfl⟩, _, rfl⟩
  · exact isFiber_of_isTyped (by decide) ⟨2, .empty (.slot .unit .unit), rfl, rfl⟩
  · exact Run.slot?_of_le (start_starting waylaying []) (show _ = some _ from rfl) hn
  · have hleaves := check_of_does (c := fun _ => leavesObserver) (by decide) hdoes
    contradiction

end Drill

end Trampoline
