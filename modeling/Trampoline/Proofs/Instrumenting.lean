import Trampoline.Proofs.Bracketing
import Trampoline.Proofs.Looping
import Trampoline.Proofs.Matching

/-!
Instrumented effects. The start is announced before the effect is run, and the end when it has
settled, so an instrumented effect does what the effect does between two announcements. A panic
passes the second announcement, and an effect that never settles does not come to it.
-/

namespace Trampoline

variable {D F U σ : Type} {a e : Ty}

open Interpretation

/-- What is pending when an instrumented effect is run. -/
def Frame.instrumenting (a e : Ty) (span : String) : List (Frame D F) :=
  [.reify ⟨a, e⟩, .resume (.close a e span)]

/-- The end of an instrumented effect is announced, and it settles as the effect does. -/
theorem Frame.plan_close (a e : Ty) (span : String) (o : Outcome D F) :
    (Frame.resume (.close a e span)).plan (.ok (.ofOutcome a e o)) =
      .ask (.emit (.ended span o.isOk)) (.fixed (.done o)) := by
  simp [plan, Resume.plan]

namespace Setting

variable {S : Setting D F U σ} {s s₀ s₁ s' : σ} {us vs : List U} {span : String}
  {x : Effect D F a e} {o : Outcome D F}

/-- The start of an effect is announced in a span, and the time is told. -/
def AnnouncesStart (S : Setting D F U σ) (span : String) (s : σ) (us : List U) (s' : σ) : Prop :=
  us = S.calls s (.clock (.started span)) ∧
    ∃ t, S.reply s (.clock (.started span)) = some (.ok (.instant t), s')

/-- An instrumented effect comes to the effect after the announcement of its start. -/
theorem AnnouncesStart.leads (h : S.AnnouncesStart span s us s') (x : Effect D F a e)
    (frames : List (Frame D F)) :
    S.Leads s ⟨.node (x.instrument span).node, frames⟩ us s'
      ⟨.node x.node, Frame.instrumenting a e span ++ frames⟩ := by
  obtain ⟨rfl, t, hreply⟩ := h
  have hasks : S.Moves s ⟨.node (.thunk (.opened span)),
      .bind (.timed a e span (.attempt x.node ⟨a, e⟩)) :: frames⟩
        (S.calls s (.clock (.started span))) s'
          (.reply .succeed (.bind (.timed a e span (.attempt x.node ⟨a, e⟩)) :: frames)
            (.ok (.instant t))) := .ask rfl hreply
  have hleads := ((leads_source s _ _ frames).trans (.of_moves hasks)).trans
    ((leads_answer rfl frames).trans (leads_attempted s' _ _ _))
  simp only [List.nil_append, List.append_nil] at hleads
  exact hleads

/-- When the effect has settled, the end is announced. -/
theorem leads_close (htags : Outcome.HasTags a e o)
    (h : S.Announces (.ended span o.isOk) s us s') (frames : List (Frame D F)) :
    S.Leads s (settle (.settled o) (Frame.instrumenting a e span ++ frames)) us s'
      (settle (.settled o) frames) := by
  obtain ⟨rfl, v, hreply⟩ := h
  exact (leads_reify htags _).trans (leads_ask (Frame.plan_close a e span o) hreply frames)

/-- What an instrumented effect does from a state on in which its start is announced, after which it
is in state `s₀`. -/
structure Instruments (S : Setting D F U σ) (s : σ) (x : Effect D F a e) (span : String)
    (first : List U) (s₀ : σ) : Prop where
  /-- It makes the calls of the effect and settles with the same outcome, and the end is announced
  after these calls. -/
  settles {us vs : List U} {o : Outcome D F} {s₁ s₂ : σ} : S.Settles s₀ x.node us o s₁ →
    S.Announces (.ended span o.isOk) s₁ vs s₂ →
      S.Settles s (x.instrument span).node (first ++ us ++ vs) o s₂
  /-- It makes them and panics if the effect panics. -/
  panics {us : List U} {payload : Payload} : S.Panics s₀ x.node us payload →
    S.Panics s (x.instrument span).node (first ++ us) payload
  /-- It makes them and stops at the async node at which the effect stops. -/
  stops {us : List U} {register : Register F} {scheduler : SchedulerId} :
    S.Stops s₀ x.node us register scheduler →
      S.Stops s (x.instrument span).node (first ++ us) register scheduler
  /-- It looks as the effect if this does not settle, whatever is pending. -/
  unsettled : (∀ us o s', ¬S.Settles s₀ x.node us o s') → ∀ frames,
    Sight.Agree (fun n => S.seen n s ⟨.node (x.instrument span).node, frames⟩)
      fun n => first.map .call ++ S.seen n s₀ ⟨.node x.node, frames⟩

theorem AnnouncesStart.instruments (hx : S.Types s₀ x) (h : S.AnnouncesStart span s us s₀) :
    S.Instruments s x span us s₀ where
  settles {vs ws o s₁ s₂} hsettles hends frames := by
    rw [List.append_assoc]
    exact (h.leads x frames).trans
      ((hsettles _).trans (leads_close (hx _ _ _ hsettles) hends frames))
  panics hpanics frames := by
    obtain ⟨s₁, above, hleads⟩ := hpanics (Frame.instrumenting a e span ++ frames)
    rw [← List.append_assoc] at hleads
    exact ⟨s₁, _, (h.leads x frames).trans hleads⟩
  stops hstops frames := by
    obtain ⟨s₁, above, hexit, hleads⟩ := hstops (Frame.instrumenting a e span ++ frames)
    rw [← List.append_assoc] at hleads
    exact ⟨s₁, _, hexit, (h.leads x frames).trans hleads⟩
  unsettled hnever frames := by
    have hsame : S.Alike s₀ ⟨.node x.node, Frame.instrumenting a e span ++ frames⟩ s₀
        ⟨.node x.node, frames⟩ :=
      .of_settled fun us o s' hsettles => absurd hsettles (hnever us o s')
    exact (h.leads x frames).agree.trans (hsame.append _)

/-- The announcements of an instrumented effect take no calls and leave the state as it is. -/
structure Ignores (S : Setting D F U σ) (span : String) : Prop where
  start (s : σ) : S.AnnouncesStart span s [] s
  ends (s : σ) (succeeded : Bool) : S.Announces (.ended span succeeded) s [] s

/-- Where the announcements are ignored an instrumented effect does what the effect does. -/
theorem Ignores.becomes {H : Host} {S : Setting H.Data H.Fn U σ} {x : Effect H.Data H.Fn a e}
    (h : S.Ignores span) (hx : ∀ s, S.Types s x) (s : σ) :
    S.Becomes s (x.instrument span).node [] s x.node :=
  .of_above (fun frames => (h.start s).leads x frames) fun _ o s' hsettles frames =>
    leads_close (hx s _ _ _ hsettles) (h.ends s' o.isOk) frames

end Setting

/-- The reply to a question that has an event recorded, at this time of the clock. -/
def Ask.told (clock : Nat) : Ask D F → Value D F
  | .clock _ => .instant clock
  | _ => .unit

/-- A question that has an event recorded is answered at once. -/
theorem Ask.turn_of_event {H : Host} {question : Ask H.Data H.Fn} {event : Event}
    (h : question.event? = some event) (here : Here) (heap : Heap H.Data H.Fn) :
    question.turn (H := H) here heap = .ret (heap.emit event) (question.told heap.clock) := by
  cases question with
  | emit event' => cases h; rfl
  | clock event' => cases h; rfl
  | _ => contradiction

/-- The question of a step is the last thing that is done in the step. -/
theorem Interpretation.ask_mem_deeds {i : Interpretation D F} {question : Ask D F}
    {post : Post D F} {frames : List (Frame D F)} (h : i.step = .ask question post frames) :
    .ask question ∈ i.deeds := by
  have hplan {plan : Plan D F} {rest : List (Frame D F)}
      (h : follow rest plan = .ask question post frames) : .ask question ∈ plan.deeds := by
    cases plan with
    | ask question' post' => cases h; exact List.mem_singleton_self _
    | _ => contradiction
  obtain ⟨focus, rest⟩ := i
  cases focus with
  | node node =>
      cases node with
      | thunk t => exact List.mem_cons_of_mem _ (hplan h)
      | _ => contradiction
  | exit exit =>
      cases exit with
      | panicked payload => contradiction
      | settled o =>
          cases rest with
          | nil => contradiction
          | cons frame rest =>
              exact List.mem_cons_of_mem _ (List.mem_append_right _ (hplan h))

/-- Nothing is asked in a step but its question. -/
theorem Interpretation.step_of_ask_mem {i : Interpretation D F} {question : Ask D F}
    (h : .ask question ∈ i.deeds) : ∃ post frames, i.step = .ask question post frames := by
  have hplan {plan : Plan D F} (h : .ask question ∈ plan.deeds) (rest : List (Frame D F)) :
      ∃ post, follow rest plan = .ask question post rest := by
    cases plan with
    | answer next => cases next <;> simp [Plan.deeds, Next.deeds] at h
    | raise payload => contradiction
    | ask question' post =>
        obtain rfl := Deed.ask.inj (List.mem_singleton.1 h)
        exact ⟨post, rfl⟩
  obtain ⟨focus, rest⟩ := i
  cases focus with
  | node node =>
      cases node with
      | thunk t =>
          obtain ⟨post, hstep⟩ := hplan ((List.mem_cons.1 h).resolve_left (by simp)) rest
          exact ⟨post, rest, hstep⟩
      | _ => simp [deeds] at h
  | exit exit =>
      cases exit with
      | panicked payload => contradiction
      | settled o =>
          cases rest with
          | nil => contradiction
          | cons frame rest =>
              have hmem := (List.mem_cons.1 h).resolve_left (by simp)
              rcases List.mem_append.1 hmem with hcall | hask
              · simp at hcall
              · obtain ⟨post, hstep⟩ := hplan hask rest
                exact ⟨post, rest, hstep⟩

/-- What is asked among some deeds is the question of a step. -/
theorem Stage.Goes.of_ask_mem {stage : Stage D F} {deeds : List (Deed D F)}
    {next : Option (Stage D F)} {question : Ask D F} (h : stage.Goes deeds next)
    (hmem : .ask question ∈ deeds) : ∃ i post frames, stage = .driving i ∧
      i.step = .ask question post frames ∧ next = some (.asking post frames) := by
  cases h with
  | rest => contradiction
  | registered => simp at hmem
  | step hstep =>
      cases hstep with
      | ask hask =>
          obtain ⟨post, frames, hask'⟩ := step_of_ask_mem hmem
          rw [hask] at hask'
          cases hask'
          exact ⟨_, _, _, rfl, hask, rfl⟩
      | @reply post _ reply =>
          rw [Post.deeds.eq_def] at hmem
          have hmem := (List.mem_cons.1 hmem).resolve_left (by simp)
          split at hmem
          · split at hmem
            · rename_i next _
              cases next <;> simp [Next.deeds] at hmem
            · contradiction
          · contradiction
      | next hnext =>
          obtain ⟨post, frames, hask⟩ := step_of_ask_mem hmem
          rw [hnext] at hask
          contradiction
      | suspend hsuspend =>
          obtain ⟨post, frames, hask⟩ := step_of_ask_mem hmem
          rw [hsuspend] at hask
          contradiction
      | finish hfinish =>
          obtain ⟨post, frames, hask⟩ := step_of_ask_mem hmem
          rw [hfinish] at hask
          contradiction
      | _ => simp at hmem

namespace Run

variable {H : Host}

section

variable (r : Run H) (b : Nat) (p : Place)

/-- The action at time `n` adds an event to the trace and leaves the rest of the heap as it is. -/
def Emits (n : Nat) (event : Event) : Prop :=
  (r.world (n + 1)).heap = (r.world n).heap.emit event

/-- An event for which the interpretation that is at `p` at time `b` asks in the action `n` actions
later is added to the trace, and then the interpretation gets the reply, in the action `k` actions
later. -/
structure HasRecorded (question : Ask H.Data H.Fn) (post : Post H.Data H.Fn)
    (frames : List (Frame H.Data H.Fn)) (n k : Nat) (event : Event) (v : Value H.Data H.Fn) :
    Prop where
  waits : r.IsStill b p (.asking post frames) (n + 1) (k + 1)
  emits : ∃ m, n < m ∧ m < k ∧ r.Emits (b + m) event ∧
    v = question.told (r.world (b + m)).heap.clock
  deeds : r.deeds b p k = post.deeds (.ok v)
  replies : r.stage b p (k + 1) = some (.driving (.reply post frames (.ok v)))

/-- What a thread is at after `m` actions that is to have an event recorded for an interpretation,
which has asked for it in the action `n` actions later. -/
inductive IsRecording (question : Ask H.Data H.Fn) (post : Post H.Data H.Fn)
    (frames : List (Frame H.Data H.Fn)) (event : Event) (finish : Finish H.Fn) (n m : Nat) :
    Prop where
  | asked {t : ThreadId} {name : Option String} {last applied : Kept} {below : List (Return H)} :
      r.place b p m = some (.thread t below.length) →
        (r.world (b + m)).threads[t]? = some ⟨name, .run (.answer question),
          .answering post frames last applied finish :: below⟩ →
            IsRecording question post frames event finish n m
  | recorded {t : ThreadId} {name : Option String} {last applied : Kept} {below : List (Return H)}
      {j : Nat} :
      n < j → j < m → r.Emits (b + j) event →
        r.place b p m = some (.thread t below.length) →
          (r.world (b + m)).threads[t]? =
            some ⟨name, .ret (question.told (r.world (b + j)).heap.clock),
              .answering post frames last applied finish :: below⟩ →
                IsRecording question post frames event finish n m

end

variable {r : Run H} {b n m : Nat} {p : Place} {i : Interpretation H.Data H.Fn}
  {question : Ask H.Data H.Fn} {post : Post H.Data H.Fn} {frames : List (Frame H.Data H.Fn)}
  {event : Event} {finish : Finish H.Fn} {z : Pending H.Data H.Fn} {now : Stage H.Data H.Fn}

theorem place_of_other {t : ThreadId} {l : Nat} (hplace : r.place b p n = some (.thread t l))
    (hother : r.action (b + n) ≠ .thread t) : r.place b p (n + 1) = some (.thread t l) := by
  have hshift (deeds : List (Deed H.Data H.Fn)) (o : Option Place) :
      (r.world (b + n)).shift (r.action (b + n)) ≠ .moved (.thread t l) deeds o :=
    fun hshift => hother (World.action_of_shift hshift)
  simp [place, hplace, World.next?_of_other hshift]

theorem IsRecording.stage (hp : (r.world b).pendingAt p = some (now, finish))
    (h : r.IsRecording b p question post frames event finish n m) :
    r.stage b p m = some (.asking post frames) := by
  cases h with
  | asked hplace ht =>
      exact (r.stage_eq_some hp).2 ⟨_, hplace, World.pendingAt_top ht⟩
  | recorded _ _ _ hplace ht =>
      exact (r.stage_eq_some hp).2 ⟨_, hplace, World.pendingAt_top ht⟩

/-- The event is recorded, and then the interpretation gets the reply. -/
theorem IsRecording.next (hp : (r.world b).pendingAt p = some (now, finish))
    (hevent : question.event? = some event)
    (hstill : r.IsStill b p (.asking post frames) (n + 1) (m + 1))
    (h : r.IsRecording b p question post frames event finish n m) (hnm : n < m) :
    r.IsRecording b p question post frames event finish n (m + 1) ∨
      ∃ v, r.HasRecorded b p question post frames n m event v := by
  cases h with
  | @asked t name last applied below hplace ht =>
      have hturn : Thread.turn? t (r.world (b + m)).heap (r.world (b + m)).state
          ⟨name, .run (.answer question), .answering post frames last applied finish :: below⟩ =
            some ((r.world (b + m)).state, .answering post frames last applied finish :: below,
              .ret ((r.world (b + m)).heap.emit event)
                (question.told (r.world (b + m)).heap.clock)) := by
        simp only [Thread.turn?, Task.turn, Ask.turn_of_event hevent]
      rcases next_of_turn ht hturn with ⟨hother, hsame⟩ | ⟨haction, hheap, hthread⟩
      · exact .inl (.asked (place_of_other hplace hother) hsame)
      · have hshift := World.shift_ne_below [] ht (by simp [Control.held]) (r.action (b + m))
        have hplace' : r.place b p (m + 1) = some (.thread t below.length) := by
          simp [place, hplace, World.next?_of_other hshift]
        exact .inl (.recorded hnm (Nat.lt_succ_self m) hheap hplace' hthread)
  | @recorded t name last applied below j hj hjm hemits hplace ht =>
      by_cases haction : r.action (b + m) = .thread t
      · obtain ⟨hplace', -, hat⟩ := next_of_reply hplace haction ht (.inl ⟨_, rfl, rfl⟩)
        refine .inr ⟨_, hstill, ⟨j, hj, hjm, hemits, rfl⟩, ?_,
          (r.stage_eq_some hp).2 ⟨_, hplace', hat⟩⟩
        simp [deeds, hplace, World.deeds, haction, World.shift_thread ht, World.turnShift]
      · exact .inl (.recorded hj (Nat.lt_succ_of_lt hjm) hemits (place_of_other hplace haction)
          (thread_of_other ht (List.cons_ne_nil _ _) haction))

/-- Nothing happens to an interpretation that waits for a reply until it gets it. -/
theorem deeds_of_asking (hp : (r.world b).pendingAt p = some z)
    (hs : r.stage b p n = some (.asking post frames))
    (hs' : r.stage b p (n + 1) = some (.asking post frames)) : r.deeds b p n = [] := by
  have hgoes := goes_to hp hs hs'
  generalize r.deeds b p n = deeds at hgoes
  cases hgoes with
  | rest => rfl
  | registered hnode => contradiction
  | step hstep => cases hstep

/-- An event for which an interpretation asks is recorded before the interpretation goes on. -/
theorem recorded (hp : (r.world b).pendingAt p = some z)
    (hask : .ask question ∈ r.deeds b p n) (hevent : question.event? = some event) :
    ∃ i post frames, r.stage b p n = some (.driving i) ∧ i.step = .ask question post frames ∧
      ∀ m, n < m → r.IsStill b p (.asking post frames) (n + 1) (m + 1) ∨
        ∃ k v, k < m ∧ r.HasRecorded b p question post frames n k event v := by
  cases hs : r.stage b p n with
  | none =>
      have hover : r.deeds b p n = [] := ((r.course hp).ended n hs).2
      rw [hover] at hask
      contradiction
  | some now =>
      obtain ⟨i, post, frames, rfl, hstep, hasks⟩ := (goes_of_stage hp hs).of_ask_mem hask
      refine ⟨i, post, frames, rfl, hstep, fun m hnm => ?_⟩
      obtain ⟨q, hplace, hat⟩ := (r.stage_eq_some hp).1 hs
      obtain ⟨t, name, last, stack, rfl, -⟩ := World.driving_of_pendingAt hat
      obtain ⟨hplace', -, ⟨-, hsame⟩ | ⟨-, name, last, applied, below, hl, ht⟩⟩ :=
        next_of_ask hplace hat hstep
      · rw [(r.stage_eq_some hp).2 ⟨_, hplace', hsame⟩] at hasks
        simp at hasks
      · rw [← hl] at hplace'
        suffices hsteps : (r.IsStill b p (.asking post frames) (n + 1) (m + 1) ∧
            r.IsRecording b p question post frames event z.2 n m) ∨
              ∃ k v, k < m ∧ r.HasRecorded b p question post frames n k event v from
          hsteps.imp_left And.left
        induction hnm with
        | refl => exact .inl ⟨.one hasks, .asked hplace' ht⟩
        | @step m hnm ih =>
            rcases ih with ⟨hstill, hrecording⟩ | ⟨k, v, hk, hrecorded⟩
            · rcases hrecording.next hp hevent hstill hnm with hnext | ⟨v, hrecorded⟩
              · exact .inl ⟨hstill.snoc (hnext.stage hp), hnext⟩
              · exact .inr ⟨m, v, Nat.lt_succ_self m, hrecorded⟩
            · exact .inr ⟨k, v, Nat.lt_succ_of_lt hk, hrecorded⟩

end Run

/-- The continuation of an instrumented effect, above which its start is announced. -/
abbrev Bind.timing (a e : Ty) (span : String) (x : Node D F) : Bind D F :=
  .timed a e span (.attempt x ⟨a, e⟩)

namespace Deed

/-- What an interpretation does at an instrumented effect until it asks for the start to be
announced. -/
def announcing (a e : Ty) (span : String) (x : Node D F) : List (Deed D F) :=
  [.push (.bind (.timing a e span x)), .call (.thunk (.opened span)),
    .ask (.clock (.started span))]

/-- What it does then until it comes to the effect. It has been told the time. -/
def starting (a e : Ty) (span : String) (x : Node D F) (clock : Nat) : List (Deed D F) :=
  [.reply (.ok (.instant clock)), .pop (.bind (.timing a e span x)),
    .call (.bind (.timing a e span x) (.instant clock)), .push (.resume (.close a e span)),
      .push (.reify ⟨a, e⟩)]

/-- What it does from the outcome of the effect on, until it goes on with the outcome. -/
def reporting (a e : Ty) (span : String) (o : Outcome D F) : List (Deed D F) :=
  [.pop (.reify ⟨a, e⟩), .call (.reify ⟨a, e⟩ o), .pop (.resume (.close a e span)),
    .call (.resume (.close a e span) (.ofOutcome a e o)), .ask (.emit (.ended span o.isOk)),
      .reply (.ok .unit)]

end Deed

namespace Interpretation

/-- When an instrumented effect has settled, its outcome is made a value. -/
theorem settled_instrumenting {o : Outcome D F} (span : String) (base : List (Frame D F))
    (h : Outcome.HasTags a e o) :
    (settle (.settled o) (Frame.instrumenting a e span ++ base)).step =
        .next (settle (.settled (.ok (.ofOutcome a e o))) (.resume (.close a e span) :: base)) ∧
      (settle (.settled o) (Frame.instrumenting a e span ++ base)).deeds =
        (Deed.reporting a e span o).take 2 := by
  have hplan := Frame.plan_reify h
  constructor
  · rw [Frame.instrumenting, List.cons_append, step_settled_cons, hplan]
    rfl
  · simp only [Frame.instrumenting, List.cons_append, settle, Interpretation.deeds, hplan]
    rfl

/-- The end is announced then. -/
theorem settled_close (span : String) (base : List (Frame D F)) (o : Outcome D F) :
    (settle (.settled (.ok (.ofOutcome a e o))) (.resume (.close a e span) :: base)).step =
        .ask (.emit (.ended span o.isOk)) (.fixed (.done o)) base ∧
      (settle (.settled (.ok (.ofOutcome a e o))) (.resume (.close a e span) :: base)).deeds =
        ((Deed.reporting a e span o).take 5).drop 2 := by
  have hplan := Frame.plan_close (F := F) a e span o
  constructor
  · rw [step_settled_cons, hplan]
    rfl
  · simp only [settle, Interpretation.deeds, hplan]
    rfl

end Interpretation

namespace Run

variable {H : Host}

section

variable (r : Run H) (b : Nat) (p : Place)

/-- The interpretation that is at `p` at time `b` is at a stage after `n` actions, and this is all
that it has done until then. -/
structure HasDone (deeds : List (Deed H.Data H.Fn)) (stage : Stage H.Data H.Fn) (n : Nat) :
    Prop where
  history : r.history b p n = deeds
  stage : r.stage b p n = some stage

/-- It has asked something in the action `l` actions later, and waits for the reply after `n`
actions. -/
structure HasAsked (question : Ask H.Data H.Fn) (post : Post H.Data H.Fn)
    (frames : List (Frame H.Data H.Fn)) (l n : Nat) : Prop where
  lt : l < n
  asks : .ask question ∈ r.deeds b p l
  waits : r.IsStill b p (.asking post frames) (l + 1) (n + 1)

variable (a e : Ty) (span : String) (x : Node H.Data H.Fn) (base : List (Frame H.Data H.Fn))

/-- Before the action `n` actions later the start of an instrumented effect has been announced, when
the clock showed this time. -/
def IsAnnounced (clock n : Nat) : Prop :=
  ∃ l k, k < n ∧ r.HasRecorded b p (.clock (.started span)) .succeed
    (.bind (.timing a e span x) :: base) l k (.started span) (.instant clock)

/-- After `m` actions the interpretation has announced the start of an instrumented effect and done
nothing more than to come to the effect. -/
structure HasStarted (clock m : Nat) : Prop where
  announced : r.IsAnnounced b p a e span x base clock m
  history : r.history b p m = Deed.announcing a e span x ++ Deed.starting a e span x clock

/-- The instrumented effect has started after `m` actions, and has settled for the first time after
`l` actions. -/
structure HasSettled (m l : Nat) (o : Outcome H.Data H.Fn) : Prop where
  started : ∃ clock, r.HasStarted b p a e span x base clock m
  evaluates : r.Evaluates b p x (Frame.instrumenting a e span ++ base) m l o

/-- What an interpretation that is at an instrumented effect at first is at after `n` actions. -/
inductive Instrumenting (n : Nat) : Prop where
  /-- It has done nothing. -/
  | enters :
      r.HasDone b p [] (.driving
        ⟨.node (.flatMap (.thunk (.opened span)) (.timing a e span x)), base⟩) n → Instrumenting n
  | opens :
      r.HasDone b p ((Deed.announcing a e span x).take 1) (.driving
        ⟨.node (.thunk (.opened span)), .bind (.timing a e span x) :: base⟩) n → Instrumenting n
  /-- It has asked for the start to be announced. -/
  | announces {l : Nat} :
      r.HasAsked b p (.clock (.started span)) .succeed (.bind (.timing a e span x) :: base) l n →
        r.history b p n = Deed.announcing a e span x → Instrumenting n
  /-- It has been told the time. -/
  | announced {clock : Nat} :
      r.IsAnnounced b p a e span x base clock n →
        r.HasDone b p (Deed.announcing a e span x ++ (Deed.starting a e span x clock).take 1)
          (.driving (.settle (.settled (.ok (.instant clock)))
            (.bind (.timing a e span x) :: base))) n → Instrumenting n
  | starts {clock : Nat} :
      r.IsAnnounced b p a e span x base clock n →
        r.HasDone b p (Deed.announcing a e span x ++ (Deed.starting a e span x clock).take 4)
          (.driving ⟨.node (.attempt x ⟨a, e⟩), .resume (.close a e span) :: base⟩) n →
            Instrumenting n
  /-- It runs the effect. -/
  | running {clock m : Nat} :
      r.HasStarted b p a e span x base clock m → m ≤ n →
        r.IsRunning b p x (Frame.instrumenting a e span ++ base) m (n + 1) → Instrumenting n
  /-- The effect has settled. -/
  | settled {m l : Nat} {o : Outcome H.Data H.Fn} :
      r.HasSettled b p a e span x base m l o → l ≤ n →
        r.HasDone b p (r.history b p l) (.driving
          (.settle (.settled o) (Frame.instrumenting a e span ++ base))) n → Instrumenting n
  | closes {m l : Nat} {o : Outcome H.Data H.Fn} :
      r.HasSettled b p a e span x base m l o → l ≤ n →
        r.HasDone b p (r.history b p l ++ (Deed.reporting a e span o).take 2) (.driving
          (.settle (.settled (.ok (.ofOutcome a e o))) (.resume (.close a e span) :: base))) n →
            Instrumenting n
  /-- It has asked for the end to be announced. -/
  | reports {m l j : Nat} {o : Outcome H.Data H.Fn} :
      r.HasSettled b p a e span x base m l o → l ≤ j →
        r.HasAsked b p (.emit (.ended span o.isOk)) (.fixed (.done o)) base j n →
          r.history b p n = r.history b p l ++ (Deed.reporting a e span o).take 5 → Instrumenting n

/-- How an interpretation has come out of an instrumented effect after `n` actions. -/
inductive Instrumented (n : Nat) : Prop where
  /-- The effect has settled, its end has been announced, and it goes on with the outcome. -/
  | settles {m l j k : Nat} {o : Outcome H.Data H.Fn} :
      r.HasSettled b p a e span x base m l o → l ≤ j → k < n →
        r.HasRecorded b p (.emit (.ended span o.isOk)) (.fixed (.done o)) base j k
          (.ended span o.isOk) .unit →
            r.HasDone b p (r.history b p l ++ Deed.reporting a e span o)
              (.driving (.settle (.settled o) base)) n → Instrumented n
  /-- The effect has panicked, and it is over. -/
  | panics {clock m : Nat} {payload : Payload} :
      r.HasStarted b p a e span x base clock m → m < n →
        r.IsRunning b p x (Frame.instrumenting a e span ++ base) m n →
          r.stage b p n = some (.concluding (.panicked payload)) → Instrumented n

end

variable {r : Run H} {b n m l : Nat} {p : Place} {i j : Interpretation H.Data H.Fn}
  {question : Ask H.Data H.Fn} {post : Post H.Data H.Fn} {frames base : List (Frame H.Data H.Fn)}
  {event : Event} {finish : Finish H.Fn} {z : Pending H.Data H.Fn} {now : Stage H.Data H.Fn}
  {done : List (Deed H.Data H.Fn)} {span : String} {x : Node H.Data H.Fn}

theorem IsAnnounced.succ {clock : Nat} (h : r.IsAnnounced b p a e span x base clock n) :
    r.IsAnnounced b p a e span x base clock (n + 1) := by
  obtain ⟨l, k, hk, hrecorded⟩ := h
  exact ⟨l, k, Nat.lt_succ_of_lt hk, hrecorded⟩

section

variable (hp : (r.world b).pendingAt p = some z)

include hp

/-- An interpretation that goes on by itself has done nothing more after an action, or its step. -/
theorem HasDone.next (h : r.HasDone b p done (.driving i) n) (hstep : i.step = .next j)
    (hs : r.stage b p (n + 1) = some now) :
    r.HasDone b p done (.driving i) (n + 1) ∨
      r.HasDone b p (done ++ i.deeds) (.driving j) (n + 1) := by
  have hhistory : r.history b p (n + 1) = done ++ r.deeds b p n := by
    rw [← h.history]
    rfl
  have hgoes := goes_to hp h.stage hs
  generalize r.deeds b p n = deeds at hhistory hgoes
  cases hgoes with
  | rest => exact .inl ⟨by simpa using hhistory, hs⟩
  | registered hnode => contradiction
  | step h =>
      cases h with
      | next hnext =>
          rw [hstep] at hnext
          cases hnext
          exact .inr ⟨hhistory, hs⟩
      | _ => simp_all

/-- An interpretation that asks something has done nothing more after an action, or waits for the
reply. -/
theorem HasDone.ask (h : r.HasDone b p done (.driving i) n)
    (hstep : i.step = .ask question post frames) (hs : r.stage b p (n + 1) = some now) :
    r.HasDone b p done (.driving i) (n + 1) ∨
      r.HasAsked b p question post frames n (n + 1) ∧
        r.history b p (n + 1) = done ++ i.deeds := by
  have hhistory : r.history b p (n + 1) = done ++ r.deeds b p n := by
    rw [← h.history]
    rfl
  have hgoes := goes_to hp h.stage hs
  generalize hdeeds : r.deeds b p n = deeds at hhistory hgoes
  cases hgoes with
  | rest => exact .inl ⟨by simpa using hhistory, hs⟩
  | registered hnode => contradiction
  | step h =>
      cases h with
      | ask hask =>
          rw [hstep] at hask
          cases hask
          exact .inr ⟨⟨Nat.lt_succ_self n, hdeeds ▸ ask_mem_deeds hstep, .one hs⟩, hhistory⟩
      | _ => simp_all

/-- An interpretation that has asked for an event to be recorded waits on, or gets the reply after
the event has been recorded. -/
theorem HasAsked.next (h : r.HasAsked b p question post frames l n)
    (hevent : question.event? = some event) (hs : r.stage b p (n + 1) = some now) :
    (r.HasAsked b p question post frames l (n + 1) ∧ r.history b p (n + 1) = r.history b p n) ∨
      ∃ v, r.HasRecorded b p question post frames l n event v := by
  obtain ⟨i, post', frames', -, -, hrecords⟩ := recorded hp h.asks hevent
  have hasks := h.waits (l + 1) (Nat.le_refl _) (Nat.succ_lt_succ h.lt)
  rcases hrecords (n + 1) (Nat.lt_succ_of_lt h.lt) with hstill | ⟨k, v, hk, hrecorded⟩
  · have heq := hasks.symm.trans (hstill (l + 1) (Nat.le_refl _) (by have := h.lt; omega))
    obtain ⟨rfl, rfl⟩ := Stage.asking.inj (Option.some.inj heq)
    refine .inl ⟨⟨Nat.lt_succ_of_lt h.lt, h.asks, hstill⟩, ?_⟩
    have hnone : r.deeds b p n = [] :=
      deeds_of_asking hp (h.waits n h.lt (Nat.lt_succ_self n))
        (hstill (n + 1) (Nat.le_succ_of_le h.lt) (Nat.lt_succ_self _))
    simp [Run.history, hnone]
  · obtain ⟨m, hm, hmk, -⟩ := hrecorded.emits
    have heq := hasks.symm.trans (hrecorded.waits (l + 1) (Nat.le_refl _) (by omega))
    obtain ⟨rfl, rfl⟩ := Stage.asking.inj (Option.some.inj heq)
    rcases Nat.lt_succ_iff_lt_or_eq.1 hk with hlt | rfl
    · have hcontra := (h.waits (k + 1) (by omega) (Nat.succ_lt_succ hlt)).symm.trans
        hrecorded.replies
      simp at hcontra
    · exact .inr ⟨v, hrecorded⟩

omit hp in
/-- Where the host program keeps to types, the effect settles with what is of its types. -/
theorem Evaluates.hasTags {y : Pending H.Data H.Fn} {o : Outcome H.Data H.Fn} {l : Nat}
    (h : r.Evaluates b p x (Frame.instrumenting a e span ++ base) m l o) (htyped : r.IsTyped)
    (hp : (r.world b).pendingAt p = some y) : Outcome.HasTags a e o := by
  obtain ⟨T, -, htypes⟩ := htyped.types
  obtain ⟨L, _, _, _, _, ho, hframe⟩ := hasTypes_of_settled htypes hp h.settles
  cases hframe with
  | reify => exact ho.hasTags

/-- What an interpretation at an instrumented effect does next. -/
theorem Instrumenting.next
    (htags : ∀ m l o, r.Evaluates b p x (Frame.instrumenting a e span ++ base) m l o →
      Outcome.HasTags a e o)
    (h : r.Instrumenting b p a e span x base n) (hs : r.stage b p (n + 1) = some now) :
    r.Instrumenting b p a e span x base (n + 1) ∨ r.Instrumented b p a e span x base (n + 1) := by
  cases h with
  | enters hdone =>
      rcases hdone.next hp rfl hs with hstays | hnext
      · exact .inl (.enters hstays)
      · exact .inl (.opens hnext)
  | opens hdone =>
      rcases hdone.ask hp rfl hs with hstays | ⟨hasked, hhistory⟩
      · exact .inl (.opens hstays)
      · exact .inl (.announces hasked hhistory)
  | announces hasked hhistory =>
      rcases hasked.next hp rfl hs with ⟨hstays, hsame⟩ | ⟨v, hrecorded⟩
      · exact .inl (.announces hstays (hsame.trans hhistory))
      · obtain ⟨m, -, -, -, rfl⟩ := id hrecorded.emits
        refine .inl (.announced ⟨_, _, Nat.lt_succ_self n, hrecorded⟩ ⟨?_, hrecorded.replies⟩)
        rw [history, hhistory, hrecorded.deeds]
        rfl
  | @announced clock hannounced hdone =>
      rcases hdone.next hp rfl hs with hstays | hnext
      · exact .inl (.announced hannounced.succ hstays)
      · exact .inl (.starts hannounced.succ hnext)
  | @starts clock hannounced hdone =>
      rcases hdone.next hp rfl hs with hstays | hnext
      · exact .inl (.starts hannounced.succ hstays)
      · exact .inl (.running ⟨hannounced.succ, hnext.history⟩ (Nat.le_refl _) (.one hnext.stage))
  | @running clock m hstarted hm hrunning =>
      rcases hrunning.next hp hm hs with hstays | ⟨o, hevaluates⟩ | ⟨payload, rfl⟩
      · exact .inl (.running hstarted (Nat.le_succ_of_le hm) hstays)
      · exact .inl (.settled ⟨⟨clock, hstarted⟩, hevaluates⟩ (Nat.le_refl _)
          ⟨rfl, hevaluates.settles⟩)
      · exact .inr (.panics hstarted (Nat.lt_succ_of_le hm) hrunning hs)
  | @settled m l o hsettled hl hdone =>
      obtain ⟨hstep, hdeeds⟩ := settled_instrumenting span base
        (htags _ _ _ hsettled.evaluates)
      rcases hdone.next hp hstep hs with hstays | hnext
      · exact .inl (.settled hsettled (Nat.le_succ_of_le hl) hstays)
      · rw [hdeeds] at hnext
        exact .inl (.closes hsettled (Nat.le_succ_of_le hl) hnext)
  | @closes m l o hsettled hl hdone =>
      obtain ⟨hstep, hdeeds⟩ := settled_close span base o
      rcases hdone.ask hp hstep hs with hstays | ⟨hasked, hhistory⟩
      · exact .inl (.closes hsettled (Nat.le_succ_of_le hl) hstays)
      · rw [hdeeds, List.append_assoc] at hhistory
        exact .inl (.reports hsettled hl hasked hhistory)
  | @reports m l j o hsettled hl hasked hhistory =>
      rcases hasked.next hp rfl hs with ⟨hstays, hsame⟩ | ⟨v, hrecorded⟩
      · exact .inl (.reports hsettled hl hstays (hsame.trans hhistory))
      · obtain ⟨m, -, -, -, rfl⟩ := id hrecorded.emits
        refine .inr (.settles hsettled hl (Nat.lt_succ_self n) hrecorded ⟨?_, hrecorded.replies⟩)
        rw [history, hhistory, hrecorded.deeds, List.append_assoc]
        rfl

end

/-- As long as it is under way, an interpretation that has come to an instrumented effect announces
the start, runs the effect and announces the end, or has come out of that. -/
theorem instrumenting_or_instrumented
    (hp : (r.world b).pendingAt p = some (.driving ⟨.node (.flatMap (.thunk (.opened span))
      (.timing a e span x)), base⟩, finish))
    (htags : ∀ m l o, r.Evaluates b p x (Frame.instrumenting a e span ++ base) m l o →
      Outcome.HasTags a e o) (hs : r.stage b p n = some now) :
    r.Instrumenting b p a e span x base n ∨
      ∃ m, m ≤ n ∧ r.Instrumented b p a e span x base m := by
  induction n generalizing now with
  | zero => exact .inl (.enters ⟨rfl, (r.stage_eq_some hp).2 ⟨p, rfl, hp⟩⟩)
  | succ n ih =>
      cases hbefore : r.stage b p n with
      | none =>
          rw [r.stage_eq_none_of_le hp hbefore (Nat.le_succ n)] at hs
          contradiction
      | some before =>
          rcases ih hbefore with hinstrumenting | ⟨m, hm, hinstrumented⟩
          · rcases hinstrumenting.next hp htags hs with hnext | hnext
            · exact .inl hnext
            · exact .inr ⟨n + 1, Nat.le_refl _, hnext⟩
          · exact .inr ⟨m, Nat.le_succ_of_le hm, hinstrumented⟩

/-- Until an instrumented effect has settled, its opening bracket is the only one that stays open of
those that have been announced before, whatever the effect announces itself. -/
structure KeepsOpen (r : Run H) (b : Nat) (p : Place) (a e : Ty) (span : String)
    (x : Node H.Data H.Fn) (base : List (Frame H.Data H.Fn)) : Prop where
  running {clock m n : Nat} : r.HasStarted b p a e span x base clock m → m ≤ n →
    r.IsRunning b p x (Frame.instrumenting a e span ++ base) m n →
      ∃ inner rest, r.brackets b p n = .opens span :: inner ∧ Bracket.Nested (inner ++ rest)
  settled {m l : Nat} {o : Outcome H.Data H.Fn} : r.HasSettled b p a e span x base m l o →
    ∃ inner, r.brackets b p l = .opens span :: inner ∧ Bracket.Nested inner

/-- The start of an instrumented effect is its opening bracket. -/
theorem HasStarted.brackets {clock : Nat} (h : r.HasStarted b p a e span x base clock m) :
    r.brackets b p m = [.opens span] := by
  rw [Run.brackets, h.history]
  simp [Deed.announcing, Deed.starting, Deed.bracket?, Ask.bracket?, Ask.event?]

/-- The brackets of an instrumented effect are the opening one and those of the effect itself, which
are nested. -/
theorem HasStarted.nests {clock : Nat} (hp : (r.world b).pendingAt p = some z) (hx : x.IsBuilt)
    (hbuilt : r.ReceivesBuilt b p) (h : r.HasStarted b p a e span x base clock m) (hmn : m ≤ n)
    (hrunning : r.IsRunning b p x (Frame.instrumenting a e span ++ base) m n) :
    ∃ q, r.place b p m = some q ∧
      r.NestsBrackets (b + m) q (Frame.instrumenting a e span ++ base) ∧
        r.StaysAbove (b + m) q (Frame.instrumenting a e span ++ base) (n - m) ∧
          r.brackets b p n = .opens span :: r.brackets (b + m) q (n - m) := by
  obtain ⟨q, hplace, hat⟩ := (r.stage_eq_some hp).1 hrunning.begins
  have hlater : r.ReceivesBuilt (b + m) q := fun k => r.deeds_add hplace k ▸ hbuilt (m + k)
  refine ⟨q, hplace, nestsBrackets hx hat hlater, fun k hk i hi hleaves => ?_, ?_⟩
  · obtain ⟨o, rfl⟩ := hleaves.2
    obtain ⟨stage, hstage, -, hsettled⟩ := hrunning.within (Nat.le_add_right m k) (by omega)
    rw [r.stage_add hplace, hi] at hstage
    exact hsettled o (Option.some.inj hstage).symm
  · obtain ⟨d, rfl⟩ := Nat.exists_eq_add_of_le hmn
    rw [Run.brackets, r.history_add hplace, Deed.brackets_append, Nat.add_sub_cancel_left]
    exact congrArg (· ++ _) h.brackets

theorem keepsOpen (hp : (r.world b).pendingAt p = some z) (hx : x.IsBuilt)
    (hbuilt : r.ReceivesBuilt b p) : r.KeepsOpen b p a e span x base where
  running hstarted hmn hrunning := by
    obtain ⟨q, -, hnests, hstays, hbrackets⟩ := hstarted.nests hp hx hbuilt hmn hrunning
    obtain ⟨rest, hrest⟩ := hnests.opens hstays
    exact ⟨_, rest, hbrackets, hrest⟩
  settled {m l o} hsettled := by
    obtain ⟨clock, hstarted⟩ := hsettled.started
    have hevaluates := hsettled.evaluates
    obtain ⟨q, hplace, hnests, hstays, hbrackets⟩ :=
      hstarted.nests hp hx hbuilt hevaluates.le hevaluates.toIsRunning
    have hlast : r.stage (b + m) q (l - m) =
        some (.driving (.settle (.settled o) (Frame.instrumenting a e span ++ base))) := by
      rw [← r.stage_add hplace, Nat.add_sub_cancel' hevaluates.le]
      exact hevaluates.settles
    exact ⟨_, hbrackets, hnests.settled hstays hlast⟩

/-- Every event for which an interpretation asks is added to the trace, before the interpretation
goes on. -/
def RecordsEvents (r : Run H) (b : Nat) (p : Place) : Prop :=
  ∀ n question event, .ask question ∈ r.deeds b p n → question.event? = some event →
    ∃ post frames, ∀ m, n < m → r.IsStill b p (.asking post frames) (n + 1) (m + 1) ∨
      ∃ k v, k < m ∧ r.HasRecorded b p question post frames n k event v

end Run

namespace Effect

variable {H : Host}

/-- An instrumented effect does what the effect does, whatever is pending, between the announcements
of its start and of its end. In whatever run, the start is announced before anything else is done,
and the end when the effect has settled, before its outcome goes on to what is pending; there is no
second announcement for an effect that panics or has not settled. The brackets of an interpretation
are nested, however the instrumented effects are, and all of them are closed when it settles. -/
theorem instrument_brackets (x : Effect H.Data H.Fn a e) (span : String) :
    (∀ S : Setting H.Data H.Fn U σ, (∀ s, S.Types s x) →
      (S.Ignores span → ∀ s, S.Becomes s (x.instrument span).node [] s x.node) ∧
        ∀ s us s₀, S.AnnouncesStart span s us s₀ → S.Instruments s x span us s₀) ∧
      (∀ (r : Run H) b p base finish,
        (r.world b).pendingAt p = some (.driving ⟨.node (x.instrument span).node, base⟩, finish) →
          ((r.IsTyped ∨ ∀ m l o,
              r.Evaluates b p x.node (Frame.instrumenting a e span ++ base) m l o →
                Outcome.HasTags a e o) → ∀ n stage, r.stage b p n = some stage →
            r.Instrumenting b p a e span x.node base n ∨
              ∃ m, m ≤ n ∧ r.Instrumented b p a e span x.node base m) ∧
            (x.node.IsBuilt → r.ReceivesBuilt b p →
              r.KeepsOpen b p a e span x.node base)) ∧
        ∀ (r : Run H) b p (y : Node H.Data H.Fn) base finish,
          (r.world b).pendingAt p = some (.driving ⟨.node y, base⟩, finish) →
            r.RecordsEvents b p ∧
              (y.IsBuilt → r.ReceivesBuilt b p → r.NestsBrackets b p base) := by
  refine ⟨fun S hx => ⟨fun hignores => hignores.becomes hx, fun s us s₀ hannounces =>
    hannounces.instruments (hx s₀)⟩, fun r b p base finish hp => ⟨fun htyped n stage hs => ?_,
      Run.keepsOpen hp⟩, fun r b p y base finish hp => ?_⟩
  · refine Run.instrumenting_or_instrumented hp (fun m l o hevaluates => ?_) hs
    rcases htyped with htyped | htags
    · exact hevaluates.hasTags htyped hp
    · exact htags m l o hevaluates
  refine ⟨fun n question event hask hevent => ?_, fun hy => Run.nestsBrackets hy hp⟩
  obtain ⟨i, post, frames, -, -, hrecords⟩ := Run.recorded hp hask hevent
  exact ⟨post, frames, hrecords⟩

end Effect

namespace Drill

/-- An effect that waits for a list, in a span. -/
def watched : Effect Unit Nat (.list .unit) .unit := entry.instrument "inner"

/-- One thread interprets it in another span, and the other thread completes its node. -/
def watching : Script
  | 0 => [.ask (.runAsync (.list .unit) .unit (watched.instrument "outer").node),
      .ask (.poll (.list .unit) .unit 0)]
  | 1 => [.ask (.complete (.node 0) (.ok blank))]
  | _ => []

def watch : Run (host watching) := run watching [] (List.replicate 31 0 ++ List.replicate 24 1)

/-- The announcements are answered, and every node gets the empty list. -/
def watchSetting : Setting Unit Nat Nat Unit where
  reply _ question :=
    match question with
    | .clock _ => some (.ok (.instant 0), ())
    | .emit _ => some (.ok .unit, ())
    | _ => none
  calls _ _ := []
  exit _ _ _ := some (.settled (.ok blank), ())
  registers _ _ _ := [2]

theorem watchSetting_ignores (span : String) : watchSetting.Ignores span where
  start _ := ⟨rfl, 0, rfl⟩
  ends _ _ := ⟨rfl, .unit, rfl⟩

theorem types_watched (s : Unit) : watchSetting.Types s watched := by
  have hentry (s : Unit) : watchSetting.Settles s entry.node [2] (.ok blank) () :=
    fun _ => .of_moves (.suspend rfl rfl)
  have htypes : watchSetting.Types s entry := by
    intro us o s' hsettles
    obtain ⟨-, rfl, -⟩ := hsettles.unique (hentry s)
    rfl
  have hignores := watchSetting_ignores "inner"
  have hinstruments := (hignores.start s).instruments htypes
  have hwatched := hinstruments.settles (hentry s) (hignores.ends () true)
  intro us o s' hsettles
  obtain ⟨-, rfl, -⟩ := hsettles.unique hwatched
  rfl

set_option maxRecDepth 4000 in
theorem pendingAt_watched : (watch.world 5).pendingAt (.thread 0 2) =
    some (.driving ⟨.node (watched.instrument "outer").node, []⟩,
      .channel (.list .unit) .unit 0) := by rfl

/-- Whether an outcome that is to be made a value has the tags for it. -/
def isTagged : Stage Unit Nat → Bool
  | .driving ⟨.exit (.settled (.ok v)), .reify reify :: _⟩ => v.ty = reify.value
  | .driving ⟨.exit (.settled (.error v)), .reify reify :: _⟩ => v.ty = reify.error
  | _ => true

/-- Whether a time, nothing or an empty list comes from the surroundings, if anything. -/
def bringsPlain : Deed Unit Nat → Bool
  | .reply (.ok (.instant _)) => true
  | .reply (.ok .unit) => true
  | .exit (.settled (.ok (.list _ .empty))) => true
  | .reply _ => false
  | .exit _ => false
  | _ => true

theorem isBuilt_of_bringsPlain {deed : Deed Unit Nat} (h : bringsPlain deed) : deed.IsBuilt := by
  unfold bringsPlain at h
  split at h
  · exact Value.IsBuilt.instant
  · exact Value.IsBuilt.unit
  · exact Value.IsBuilt.list .empty
  · contradiction
  · contradiction
  · cases deed <;> simp_all [Deed.IsBuilt]

section

variable {script : Script} {r : Run (host script)} {b : Nat} {p : Place} {x : Pending Unit Nat}
  (last : Nat) (hp : (r.world b).pendingAt p = some x) (hover : r.stage b p last = none)

include hp hover

theorem hasTags_of_check (hcheck : ∀ n < last, (r.stage b p n).all isTagged) {a e : Ty}
    {span : String} {y : Node Unit Nat} {base : List (Frame Unit Nat)} {m l : Nat}
    {o : Outcome Unit Nat}
    (h : r.Evaluates b p y (Frame.instrumenting a e span ++ base) m l o) :
    Outcome.HasTags a e o := by
  by_cases hl : l < last
  · have htagged := hcheck l hl
    rw [h.settles] at htagged
    cases o with
    | ok v =>
        have hv : v.ty = a := of_decide_eq_true htagged
        exact hv
    | error v =>
        have hv : v.ty = e := of_decide_eq_true htagged
        exact hv
  · have hsettles := h.settles
    rw [r.stage_eq_none_of_le hp hover (Nat.le_of_not_lt hl)] at hsettles
    contradiction

theorem receivesBuilt_of_check (hcheck : ∀ n < last, (r.deeds b p n).all bringsPlain) :
    r.ReceivesBuilt b p := by
  intro n deed hdeed
  by_cases hn : n < last
  · exact isBuilt_of_bringsPlain (List.all_eq_true.1 (hcheck n hn) deed hdeed)
  · have hnone : r.deeds b p n = [] :=
      ((r.course hp).ended n (r.stage_eq_none_of_le hp hover (Nat.le_of_not_lt hn))).2
    rw [hnone] at hdeed
    contradiction

end

set_option maxRecDepth 10000 in
/-- The starts are announced by one thread, and the ends by the other one. -/
theorem watch_nests_brackets :
    (watchSetting.Becomes (H := host watching) () (watched.instrument "outer").node [] ()
        watched.node ∧
      watchSetting.Instruments () watched "outer" [] ()) ∧
      ((∀ n stage, watch.stage 5 (.thread 0 2) n = some stage →
          watch.Instrumenting 5 (.thread 0 2) (.list .unit) .unit "outer" watched.node [] n ∨
            ∃ m, m ≤ n ∧
              watch.Instrumented 5 (.thread 0 2) (.list .unit) .unit "outer" watched.node [] m) ∧
        watch.KeepsOpen 5 (.thread 0 2) (.list .unit) .unit "outer" watched.node [] ∧
          watch.stage 5 (.thread 0 2) 39 = some (.driving (.settle (.settled (.ok blank)) []))) ∧
        watch.RecordsEvents 5 (.thread 0 2) ∧ watch.NestsBrackets 5 (.thread 0 2) [] ∧
          watch.brackets 5 (.thread 0 2) 41 =
            [.opens "outer", .opens "inner", .closes "inner" true, .closes "outer" true] := by
  obtain ⟨hsettings, hruns, hall⟩ := Effect.instrument_brackets (H := host watching) (U := Nat)
    (σ := Unit) watched "outer"
  obtain ⟨hbecomes, hinstruments⟩ := hsettings watchSetting types_watched
  have hover : watch.stage 5 (.thread 0 2) 41 = none := rfl
  have hbuilt : watch.ReceivesBuilt 5 (.thread 0 2) :=
    receivesBuilt_of_check 41 pendingAt_watched hover (by decide +kernel)
  have hinner : watched.node.IsBuilt := .instrument .async
  obtain ⟨hphases, hopen⟩ := hruns watch _ _ _ _ pendingAt_watched
  obtain ⟨hrecords, hnests⟩ := hall watch _ _ _ _ _ pendingAt_watched
  have hignores := watchSetting_ignores "outer"
  exact ⟨⟨hbecomes hignores (), hinstruments _ _ _ (hignores.start ())⟩,
    ⟨hphases (.inr fun m l o => hasTags_of_check 41 pendingAt_watched hover (by decide +kernel)),
      hopen hinner hbuilt, rfl⟩, hrecords, hnests (.instrument hinner) hbuilt, rfl⟩

end Drill

end Trampoline
