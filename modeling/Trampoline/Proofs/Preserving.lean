import Trampoline.Proofs.Erasure
import Trampoline.Proofs.Threads

/-!
Types that the machine keeps. Shared objects hold what is of the types at which they have been made,
a return goes on with replies of the type that it takes, and what threads are about to do replies
with such a value. Given a host program whose functions keep to the types that it declares, every
action keeps it so.
-/

namespace Trampoline

section Objects

variable {D F : Type} (T : Signature D F) (L : Types)

/-- What a phase of a node at these types holds. -/
inductive Phase.HasTypes : Phase D F → Ty → Ty → Prop where
  | submitting {a e : Ty} : HasTypes .submitting a e
  | early {a e : Ty} {exit : Exit (Outcome D F)} : exit.HasTypes T L a e →
      HasTypes (.early exit) a e
  | parked {a e v r : Ty} {frames : List (Frame D F)} {finish : Finish F} :
      Frame.HaveTypes T L frames a e v r → finish.HasTypes T L v r →
        HasTypes (.parked frames finish) a e
  | resumed {a e : Ty} : HasTypes .resumed a e

/-- A subscriber that takes values of a type. -/
inductive Subscriber.Takes : Subscriber F → Ty → Prop where
  | user {a reply : Ty} {f : Owned F} : T.function L f.val [a] reply → Takes (.user f) a
  | join {a e d : Ty} {target : Callback F} :
      target.HasTypes T L (.slot a e) d → Takes (.join a e target) (.slot a e)
  | observe {a e : Ty} {target : Callback F} :
      target.HasTypes T L a e → Takes (.observe a e target) (.slot a e)

structure Promise.HasType (p : Promise D F) (a : Ty) : Prop where
  ty : p.ty = a
  value : ∀ v, p.value = some v → v.HasType T L a
  subscribers : ∀ s ∈ p.subscribers, s.Takes T L a

inductive Channel.HasTypes : Channel D F → Ty → Ty → Prop where
  | empty {a e : Ty} : HasTypes .empty a e
  | full {a e : Ty} {exit : Exit (Outcome D F)} : exit.HasTypes T L a e → HasTypes (.full exit) a e
  | closed {a e : Ty} : HasTypes .closed a e

inductive Future.HasTypes : Future D F → Ty → Ty → Prop where
  | fresh {a e : Ty} {node : Node D F} : node.HasTypes T L a e → HasTypes (.fresh node) a e
  | running {a e : Ty} {id : ChannelId} :
      L.channels[id]? = some (a, e) → HasTypes (.running id) a e
  | hung {a e : Ty} : HasTypes .hung a e
  | finished {a e : Ty} : HasTypes .finished a e

inductive Hook.IsTyped : Hook F → Prop where
  | log : IsTyped .log
  | user {reply : Ty} {f : Owned F} : T.function L f.val [.failure] reply → IsTyped (.user f)

/-- The functions of a scheduler take reports and units of work. -/
structure Scheduler.IsTyped (s : Scheduler F) : Prop where
  hook : ∀ hook, s.hook? = some hook → hook.IsTyped T L
  submit : ∀ f hook, s = .custom f hook → ∃ reply, T.function L f.val [.work] reply

/-- Each object holds what is of the types at which it has been made. -/
structure Agree {α τ : Type} (P : α → τ → Prop) (objects : Array α) (types : List τ) : Prop where
  size : objects.size = types.length
  holds : ∀ (id : Nat) x ty, objects[id]? = some x → types[id]? = some ty → P x ty

structure Heap.IsTyped (heap : Heap D F) : Prop where
  handoffs : Agree (fun h ty => h.phase.HasTypes T L ty.1 ty.2) heap.handoffs L.handoffs
  promises : Agree (Promise.HasType T L) heap.promises L.promises
  channels : Agree (fun c ty => c.HasTypes T L ty.1 ty.2) heap.channels L.channels
  futures : Agree (fun f ty => f.HasTypes T L ty.1 ty.2) heap.futures L.futures
  schedulers : ∀ (id : Nat) s, heap.schedulers[id]? = some s → s.IsTyped T L

end Objects

namespace Agree

variable {α τ : Type} {P Q : α → τ → Prop} {objects : Array α} {types : List τ} {id : Nat} {x : α}
  {ty : τ}

theorem exists_object (h : Agree P objects types) (hty : types[id]? = some ty) :
    ∃ x, objects[id]? = some x ∧ P x ty := by
  have hlt : id < objects.size := h.size ▸ (List.getElem?_eq_some_iff.1 hty).1
  exact ⟨objects[id], Array.getElem?_eq_getElem hlt,
    h.holds id _ _ (Array.getElem?_eq_getElem hlt) hty⟩

theorem exists_type (h : Agree P objects types) (hx : objects[id]? = some x) :
    ∃ ty, types[id]? = some ty ∧ P x ty := by
  have hlt : id < types.length := h.size ▸ (Array.getElem?_eq_some_iff.1 hx).1
  exact ⟨types[id], List.getElem?_eq_getElem hlt, h.holds id _ _ hx (List.getElem?_eq_getElem hlt)⟩

theorem empty : Agree P #[] [] := ⟨rfl, fun id x ty hx _ => by simp at hx⟩

theorem imp (h : Agree P objects types) (himp : ∀ x ty, P x ty → Q x ty) : Agree Q objects types :=
  ⟨h.size, fun id x ty hx hty => himp x ty (h.holds id x ty hx hty)⟩

theorem push (h : Agree P objects types) (hx : P x ty) :
    Agree P (objects.push x) (types ++ [ty]) where
  size := by simp [h.size]
  holds id y ty' hy hty := by
    rcases Nat.lt_trichotomy id objects.size with hlt | rfl | hlt
    · rw [Array.getElem?_push_lt hlt, ← Array.getElem?_eq_getElem hlt] at hy
      rw [List.getElem?_append_left (h.size ▸ hlt)] at hty
      exact h.holds id y ty' hy hty
    · rw [Array.getElem?_push_size] at hy
      rw [h.size, List.getElem?_concat_length] at hty
      obtain rfl := Option.some.inj hy
      obtain rfl := Option.some.inj hty
      exact hx
    · rw [Array.getElem?_eq_none (by rw [Array.size_push]; exact hlt)] at hy
      contradiction

theorem set (h : Agree P objects types) (hx : ∀ ty, types[id]? = some ty → P x ty) :
    Agree P (objects.setIfInBounds id x) types where
  size := by simp [h.size]
  holds id' y ty' hy hty := by
    rw [Array.getElem?_setIfInBounds] at hy
    split at hy
    · next heq =>
        subst heq
        split at hy
        · obtain rfl := Option.some.inj hy
          exact hx ty' hty
        · contradiction
    · exact h.holds id' y ty' hy hty

theorem modify {change : α → α} (h : Agree P objects types)
    (hchange : ∀ x ty, types[id]? = some ty → P x ty → P (change x) ty) :
    Agree P (objects.modify id change) types where
  size := by simp [h.size]
  holds id' y ty' hy hty := by
    rw [Array.getElem?_modify] at hy
    split at hy
    · next heq =>
        subst heq
        obtain ⟨x, hx, rfl⟩ := Option.map_eq_some_iff.1 hy
        exact hchange x ty' hty (h.holds _ x ty' hx hty)
    · exact h.holds id' y ty' hy hty

end Agree

section Extends

variable {D F : Type} {T : Signature D F} {L L' : Types} {a e : Ty} (hle : L.Extends L')
include hle

theorem Phase.HasTypes.extends {phase : Phase D F} (h : phase.HasTypes T L a e) :
    phase.HasTypes T L' a e := by
  cases h with
  | submitting => exact .submitting
  | early hexit => exact .early (hexit.extends hle)
  | parked hframes hfinish => exact .parked (hframes.extends hle) (hfinish.extends hle)
  | resumed => exact .resumed

theorem Subscriber.Takes.extends {s : Subscriber F} (h : s.Takes T L a) : s.Takes T L' a := by
  cases h with
  | user hf => exact .user (T.function_extends hle hf)
  | join htarget => exact .join (htarget.extends hle)
  | observe htarget => exact .observe (htarget.extends hle)

theorem Promise.HasType.extends {p : Promise D F} (h : p.HasType T L a) : p.HasType T L' a :=
  ⟨h.ty, fun v hv => (h.value v hv).extends hle, fun s hs => (h.subscribers s hs).extends hle⟩

theorem Channel.HasTypes.extends {c : Channel D F} (h : c.HasTypes T L a e) :
    c.HasTypes T L' a e := by
  cases h with
  | empty => exact .empty
  | full hexit => exact .full (hexit.extends hle)
  | closed => exact .closed

theorem Future.HasTypes.extends {f : Future D F} (h : f.HasTypes T L a e) :
    f.HasTypes T L' a e := by
  cases h with
  | fresh hnode => exact .fresh (hnode.extends hle)
  | running hid => exact .running (hle.channel hid)
  | hung => exact .hung
  | finished => exact .finished

theorem Hook.IsTyped.extends {hook : Hook F} (h : hook.IsTyped T L) : hook.IsTyped T L' := by
  cases h with
  | log => exact .log
  | user hf => exact .user (T.function_extends hle hf)

theorem Scheduler.IsTyped.extends {s : Scheduler F} (h : s.IsTyped T L) : s.IsTyped T L' where
  hook hook hhook := (h.hook hook hhook).extends hle
  submit f hook hs := (h.submit f hook hs).imp fun _ hf => T.function_extends hle hf

end Extends

section Schedulers

variable {D F : Type} {T : Signature D F} {L : Types} {s : Scheduler F}

theorem Scheduler.IsTyped.of_hook {s' : Scheduler F} (h : s.IsTyped T L)
    (hhook : s'.hook? = s.hook?) (hsubmit : ∀ f hook, s' = .custom f hook → s = .custom f hook) :
    s'.IsTyped T L :=
  ⟨fun hook hs => h.hook hook (hhook ▸ hs), fun f hook hs => h.submit f hook (hsubmit f hook hs)⟩

/-- A scheduler of the library that logs its reports calls no function. -/
theorem Scheduler.IsTyped.of_log (hhook : s.hook? = some .log)
    (hsubmit : ∀ f hook, s ≠ .custom f hook) : s.IsTyped T L where
  hook hook h := by
    obtain rfl := Option.some.inj (hhook.symm.trans h)
    exact .log
  submit f hook h := absurd h (hsubmit f hook)

theorem Scheduler.IsTyped.counted (h : s.IsTyped T L) : s.counted.IsTyped T L := by
  cases s <;> exact h.of_hook rfl fun _ _ heq => by first | contradiction | exact heq

theorem Scheduler.IsTyped.reported {failure : WorkFailure} (h : s.IsTyped T L) :
    (s.reported failure).IsTyped T L := by
  cases s <;> exact h.of_hook rfl fun _ _ heq => by first | contradiction | exact heq

end Schedulers

namespace Heap.IsTyped

variable {D F : Type} {T : Signature D F} {L : Types} {heap : Heap D F} {a e : Ty}

/-- Further events, lines and time change no object. -/
theorem congr {heap' : Heap D F} (h : heap.IsTyped T L) (hhandoffs : heap'.handoffs = heap.handoffs)
    (hpromises : heap'.promises = heap.promises) (hchannels : heap'.channels = heap.channels)
    (hfutures : heap'.futures = heap.futures) (hschedulers : heap'.schedulers = heap.schedulers) :
    heap'.IsTyped T L := by
  obtain ⟨handoffs, promises, channels, futures, schedulers⟩ := h
  exact ⟨hhandoffs ▸ handoffs, hpromises ▸ promises, hchannels ▸ channels, hfutures ▸ futures,
    hschedulers ▸ schedulers⟩

theorem emit (h : heap.IsTyped T L) (event : Event) : (heap.emit event).IsTyped T L :=
  h.congr rfl rfl rfl rfl rfl

theorem print (h : heap.IsTyped T L) (line : String) : (heap.print line).IsTyped T L :=
  h.congr rfl rfl rfl rfl rfl

section Changes

theorem setHandoff {id : HandoffId} {handoff : Handoff D F} (h : heap.IsTyped T L)
    (hid : L.handoffs[id]? = some (a, e)) (hhandoff : handoff.phase.HasTypes T L a e) :
    (heap.setHandoff id handoff).IsTyped T L :=
  { h with
    handoffs := h.handoffs.set fun ty hty => by
      obtain rfl := Option.some.inj (hid.symm.trans hty)
      exact hhandoff }

theorem setPromise {id : PromiseId} {p : Promise D F} (h : heap.IsTyped T L)
    (hid : L.promises[id]? = some a) (hp : p.HasType T L a) :
    (heap.setPromise id p).IsTyped T L :=
  { h with
    promises := h.promises.set fun ty hty => by
      obtain rfl := Option.some.inj (hid.symm.trans hty)
      exact hp }

theorem setFuture {id : FutureId} {future : Future D F} (h : heap.IsTyped T L)
    (hfuture : ∀ a e, L.futures[id]? = some (a, e) → future.HasTypes T L a e) :
    (heap.setFuture id future).IsTyped T L :=
  { h with futures := h.futures.set fun _ hty => hfuture _ _ hty }

theorem setChannel {id : ChannelId} {c : Channel D F} (h : heap.IsTyped T L)
    (hc : ∀ a e, L.channels[id]? = some (a, e) → c.HasTypes T L a e) :
    (heap.setChannel id c).IsTyped T L :=
  { h with channels := h.channels.set fun _ hty => hc _ _ hty }

theorem send {id : ChannelId} {exit : Exit (Outcome D F)} (h : heap.IsTyped T L)
    (hid : L.channels[id]? = some (a, e)) (hexit : exit.HasTypes T L a e) :
    (heap.send id exit).IsTyped T L :=
  { h with
    channels := h.channels.modify fun c ty hty hc => by
      obtain rfl := Option.some.inj (hid.symm.trans hty)
      cases hc with
      | empty => exact .full hexit
      | full hbefore => exact .full hbefore
      | closed => exact .closed }

theorem modifyScheduler {id : SchedulerId} {change : Scheduler F → Scheduler F}
    (h : heap.IsTyped T L) (hchange : ∀ s : Scheduler F, s.IsTyped T L → (change s).IsTyped T L) :
    (heap.modifyScheduler id change).IsTyped T L :=
  { h with
    schedulers := fun id' s hs => by
      simp only [Heap.modifyScheduler, Array.getElem?_modify] at hs
      split at hs
      · obtain ⟨s', hs', rfl⟩ := Option.map_eq_some_iff.1 hs
        exact hchange s' (h.schedulers _ s' hs')
      · exact h.schedulers id' s hs }

end Changes

section News

/-- What there is keeps its types when a further meeting point has been made. -/
theorem exists_newHandoff (h : heap.IsTyped T L) (a e : Ty) (thread : ThreadId) :
    ∃ L', L.Extends L' ∧ (heap.newHandoff thread).1.IsTyped T L' ∧
      L'.handoffs[(heap.newHandoff thread).2]? = some (a, e) := by
  have hle : L.Extends { L with handoffs := L.handoffs ++ [(a, e)] } :=
    { Types.Extends.refl L with handoffs := List.prefix_append _ _ }
  refine ⟨_, hle, ⟨?_, ?_, ?_, ?_, ?_⟩, ?_⟩
  · exact (h.handoffs.imp fun _ _ hx => hx.extends hle).push .submitting
  · exact h.promises.imp fun _ _ hx => hx.extends hle
  · exact h.channels.imp fun _ _ hx => hx.extends hle
  · exact h.futures.imp fun _ _ hx => hx.extends hle
  · exact fun id s hs => (h.schedulers id s hs).extends hle
  · simp [Heap.newHandoff, h.handoffs.size]

theorem exists_newPromise (h : heap.IsTyped T L) (a : Ty) :
    ∃ L', L.Extends L' ∧ (heap.newPromise a).1.IsTyped T L' ∧
      L'.promises[(heap.newPromise a).2]? = some a := by
  have hle : L.Extends { L with promises := L.promises ++ [a] } :=
    { Types.Extends.refl L with promises := List.prefix_append _ _ }
  refine ⟨_, hle, ⟨?_, ?_, ?_, ?_, ?_⟩, ?_⟩
  · exact h.handoffs.imp fun _ _ hx => hx.extends hle
  · exact (h.promises.imp fun _ _ hx => hx.extends hle).push
      ⟨rfl, fun _ hv => by contradiction, fun _ hs => by contradiction⟩
  · exact h.channels.imp fun _ _ hx => hx.extends hle
  · exact h.futures.imp fun _ _ hx => hx.extends hle
  · exact fun id s hs => (h.schedulers id s hs).extends hle
  · simp [Heap.newPromise, h.promises.size]

theorem exists_newChannel (h : heap.IsTyped T L) (a e : Ty) :
    ∃ L', L.Extends L' ∧ heap.newChannel.1.IsTyped T L' ∧
      L'.channels[heap.newChannel.2]? = some (a, e) := by
  have hle : L.Extends { L with channels := L.channels ++ [(a, e)] } :=
    { Types.Extends.refl L with channels := List.prefix_append _ _ }
  refine ⟨_, hle, ⟨?_, ?_, ?_, ?_, ?_⟩, ?_⟩
  · exact h.handoffs.imp fun _ _ hx => hx.extends hle
  · exact h.promises.imp fun _ _ hx => hx.extends hle
  · exact (h.channels.imp fun _ _ hx => hx.extends hle).push .empty
  · exact h.futures.imp fun _ _ hx => hx.extends hle
  · exact fun id s hs => (h.schedulers id s hs).extends hle
  · simp [Heap.newChannel, h.channels.size]

theorem exists_newFuture {node : Node D F} (h : heap.IsTyped T L) (hnode : node.HasTypes T L a e) :
    ∃ L', L.Extends L' ∧ (heap.newFuture node).1.IsTyped T L' ∧
      L'.futures[(heap.newFuture node).2]? = some (a, e) := by
  have hle : L.Extends { L with futures := L.futures ++ [(a, e)] } :=
    { Types.Extends.refl L with futures := List.prefix_append _ _ }
  refine ⟨_, hle, ⟨?_, ?_, ?_, ?_, ?_⟩, ?_⟩
  · exact h.handoffs.imp fun _ _ hx => hx.extends hle
  · exact h.promises.imp fun _ _ hx => hx.extends hle
  · exact h.channels.imp fun _ _ hx => hx.extends hle
  · exact (h.futures.imp fun _ _ hx => hx.extends hle).push (.fresh (hnode.extends hle))
  · exact fun id s hs => (h.schedulers id s hs).extends hle
  · simp [Heap.newFuture, h.futures.size]

end News

end Heap.IsTyped

section Machine

variable {H : Host}

/-- A request whose objects have the types that it names, and all replies to which are of types that
are taken. -/
inductive Request.IsSafe (T : Signature H.Data H.Fn) (L : Types) (takes : Ty → Prop) :
    Request H.Data H.Fn → Prop where
  | runBlocking {a e : Ty} {node : Node H.Data H.Fn} :
      node.HasTypes T L a e → takes (.result a e) → IsSafe T L takes (.runBlocking a e node)
  | runWith {a e : Ty} {node : Node H.Data H.Fn} {target : Callback H.Fn} :
      node.HasTypes T L a e → target.HasTypes T L a e → takes .unit →
        IsSafe T L takes (.runWith a e node target)
  | runFiber {a e : Ty} {node : Node H.Data H.Fn} {s : SchedulerId} :
      node.HasTypes T L a e → takes (.fiber a e) → IsSafe T L takes (.runFiber a e node s)
  | runAsync {a e : Ty} {node : Node H.Data H.Fn} :
      node.HasTypes T L a e → takes (.future a e) → IsSafe T L takes (.runAsync a e node)
  | poll {a e : Ty} {future : FutureId} :
      L.futures[future]? = some (a, e) → takes (.option (.result a e)) →
        IsSafe T L takes (.poll a e future)
  | dropFuture {future : FutureId} : takes .unit → IsSafe T L takes (.dropFuture future)
  | blockOn {a e : Ty} {node : Node H.Data H.Fn} :
      node.HasTypes T L a e → takes (.result a e) → IsSafe T L takes (.blockOn a e node)
  | complete {a e : Ty} {target : Callback H.Fn} {o : Outcome H.Data H.Fn} :
      target.HasTypes T L a e → Outcome.HasTypes T L o a e → takes .unit →
        IsSafe T L takes (.complete target o)
  | newPromise {a : Ty} : takes (.promise a) → IsSafe T L takes (.newPromise a)
  | fill {a : Ty} {promise : PromiseId} {v : Value H.Data H.Fn} :
      L.promises[promise]? = some a → v.HasType T L a → takes (.result .unit a) →
        IsSafe T L takes (.fill promise v)
  | await {a : Ty} {promise : PromiseId} :
      L.promises[promise]? = some a → takes a → IsSafe T L takes (.await promise)
  | awaitFor {a : Ty} {promise : PromiseId} {nanoseconds : Nat} :
      L.promises[promise]? = some a → takes (.option a) →
        IsSafe T L takes (.awaitFor promise nanoseconds)
  | subscribe {a reply : Ty} {promise : PromiseId} {f : Owned H.Fn} :
      L.promises[promise]? = some a → T.function L f.val [a] reply → takes .unit →
        IsSafe T L takes (.subscribe promise f)
  | newFiber {a e : Ty} : takes (.fiber a e) → IsSafe T L takes (.newFiber a e)
  | completedFiber {a e : Ty} {o : Outcome H.Data H.Fn} :
      Outcome.HasTypes T L o a e → takes (.fiber a e) → IsSafe T L takes (.completedFiber a e o)
  /-- The reply is the slot's own, or the rejected outcome. -/
  | fillFiber {a e : Ty} {fiber : PromiseId} {o : Outcome H.Data H.Fn} :
      L.promises[fiber]? = some (.slot a e) → Outcome.HasTypes T L o a e →
        takes (.result .unit (.slot a e)) → takes (.result .unit (.result a e)) →
          IsSafe T L takes (.fillFiber a e fiber o)
  | awaitFiber {a e : Ty} {fiber : PromiseId} :
      L.promises[fiber]? = some (.slot a e) → takes (.result a e) →
        IsSafe T L takes (.awaitFiber fiber)
  | awaitFiberFor {a e : Ty} {fiber : PromiseId} {nanoseconds : Nat} :
      L.promises[fiber]? = some (.slot a e) → takes (.option (.result a e)) →
        IsSafe T L takes (.awaitFiberFor fiber nanoseconds)
  | observe {a e : Ty} {fiber : PromiseId} {target : Callback H.Fn} :
      L.promises[fiber]? = some (.slot a e) → target.HasTypes T L a e → takes .unit →
        IsSafe T L takes (.observe a e fiber target)
  | submit {s : SchedulerId} {work : Work H.Data H.Fn} :
      work.IsTyped T L → takes .unit → IsSafe T L takes (.submit s work)
  | report {s : SchedulerId} {failure : WorkFailure} :
      takes .unit → IsSafe T L takes (.report s failure)
  | perform {work : Work H.Data H.Fn} :
      work.IsTyped T L → takes .unit → IsSafe T L takes (.perform work)
  | spawn {reply : Ty} {name : Option String} {f : Owned H.Fn} :
      T.function L f.val [] reply → takes .unit → IsSafe T L takes (.spawn name f)

/-- A move of host code that ends with a reply of a type. `code` tells with replies of which types
code ends that goes on with what it is told. -/
inductive Move.HasType (T : Signature H.Data H.Fn)
    (code : Types → H.Code → Reply H.Data H.Fn → Ty → Prop) (L : Types) (a : Ty) :
    Move H.Data H.Fn H.Code H.Condition → Prop where
  | run {c : H.Code} : code L c .start a → HasType T code L a (.run c)
  | ret {v : Value H.Data H.Fn} : v.HasType T L a → HasType T code L a (.ret v)
  | raise {payload : Payload} : T.panics payload → HasType T code L a (.raise payload)
  | ask {q : Request H.Data H.Fn} {c : H.Code} :
      q.IsSafe T L (fun b => ∀ L' v, L.Extends L' → v.HasType T L' b → code L' c (.value v) a) →
        (∀ L' payload, L.Extends L' → T.panics payload → code L' c (.raised payload) a) →
          HasType T code L a (.ask q c)
  | wait {condition : H.Condition} {deadline : Option Nat} {c : H.Code} :
      code L c .held a → code L c .timedOut a → HasType T code L a (.wait condition deadline c)

/-- What a host program declares about the types of its functions, its code and its state, and keeps
to: what its code does next is of the declared types. -/
structure Host.Typing (H : Host) extends Signature H.Data H.Fn where
  /-- Code that is told something ends with a reply of a type. -/
  code : Types → H.Code → Reply H.Data H.Fn → Ty → Prop
  state : Types → H.State → Prop
  code_extends {L L' : Types} {c : H.Code} {reply : Reply H.Data H.Fn} {a : Ty} :
    L.Extends L' → code L c reply a → code L' c reply a
  state_extends {L L' : Types} {s : H.State} : L.Extends L' → state L s → state L' s
  /-- The library panics on behalf of its callers. -/
  panics_drivenWithin : panics drivenWithin
  panics_polledAgain : panics polledAgain
  panics_beyondInstants : panics beyondInstants
  panics_refusal {name : String} {payload : Payload} :
    Scheduler.refusal? name = some payload → panics payload
  enter {L : Types} {f : H.Fn} {tys : List Ty} {a : Ty} {args : List (Value H.Data H.Fn)} :
    function L f tys a → List.Forall₂ (Value.HasType toSignature L) args tys →
      code L (H.enter f args) .start a
  advance {L : Types} {c : H.Code} {reply : Reply H.Data H.Fn} {a : Ty} {here : Here}
      {heap : Heap H.Data H.Fn} {s : H.State} :
    code L c reply a → state L s → heap.IsTyped toSignature L →
      state L (H.advance here heap s c reply).1 ∧
        Move.HasType toSignature code L a (H.advance here heap s c reply).2

variable (T : H.Typing) (L : Types)

/-- A task whose parts have their types, and that replies with a value of a type that is taken. -/
inductive Task.IsSafe (takes : Ty → Prop) : Task H → Prop where
  | give {a : Ty} {v : Value H.Data H.Fn} :
      v.HasType T.toSignature L a → takes a → IsSafe takes (.give v)
  | user {a : Ty} {c : H.Code} {reply : Reply H.Data H.Fn} :
      T.code L c reply a → takes a → IsSafe takes (.user c reply)
  | call {a : Ty} {tys : List Ty} {f : Owned H.Fn} {args : List (Value H.Data H.Fn)} :
      T.function L f.val tys a → List.Forall₂ (Value.HasType T.toSignature L) args tys → takes a →
        IsSafe takes (.call f args)
  | request {q : Request H.Data H.Fn} : q.IsSafe T.toSignature L takes → IsSafe takes (.request q)
  | drive {v r : Ty} {i : Interpretation H.Data H.Fn} {last : Kept} {finish : Finish H.Fn} :
      i.HasTypes T.toSignature L v r → finish.HasTypes T.toSignature L v r → takes .unit →
        IsSafe takes (.drive i last finish)
  | answer {a : Ty} {question : Ask H.Data H.Fn} :
      question.HasType T.toSignature L a → takes a → IsSafe takes (.answer question)
  | park {a e v r : Ty} {id : HandoffId} {frames : List (Frame H.Data H.Fn)} {last : Kept}
      {finish : Finish H.Fn} :
      L.handoffs[id]? = some (a, e) → Frame.HaveTypes T.toSignature L frames a e v r →
        finish.HasTypes T.toSignature L v r → takes .unit →
          IsSafe takes (.park id frames last finish)
  | deliver {a e : Ty} {id : HandoffId} {exit : Exit (Outcome H.Data H.Fn)} {origin : Origin} :
      L.handoffs[id]? = some (a, e) → exit.HasTypes T.toSignature L a e → takes .unit →
        IsSafe takes (.deliver id exit origin)
  | resume {a e v r : Ty} {exit : Exit (Outcome H.Data H.Fn)} {frames : List (Frame H.Data H.Fn)}
      {finish : Finish H.Fn} :
      exit.HasTypes T.toSignature L a e → Frame.HaveTypes T.toSignature L frames a e v r →
        finish.HasTypes T.toSignature L v r → takes .unit →
          IsSafe takes (.resume exit frames finish)
  | conclude {a e : Ty} {exit : Exit (Outcome H.Data H.Fn)} {finish : Finish H.Fn} :
      exit.HasTypes T.toSignature L a e → finish.HasTypes T.toSignature L a e → takes .unit →
        IsSafe takes (.conclude exit finish)
  | submit {s : SchedulerId} {work : Work H.Data H.Fn} :
      work.IsTyped T.toSignature L → takes .unit → IsSafe takes (.submit s work)
  | perform {work : Work H.Data H.Fn} :
      work.IsTyped T.toSignature L → takes .unit → IsSafe takes (.perform work)
  | report {s : SchedulerId} {failure : WorkFailure} : takes .unit →
      IsSafe takes (.report s failure)
  | register {a e : Ty} {register : Register H.Fn} {target : Callback H.Fn} :
      register.HasTypes T.toSignature L a e → target.HasTypes T.toSignature L a e → takes .unit →
        IsSafe takes (.register register target)
  | invoke {a e : Ty} {target : Callback H.Fn} {o : Outcome H.Data H.Fn} :
      target.HasTypes T.toSignature L a e → Outcome.HasTypes T.toSignature L o a e → takes .unit →
        IsSafe takes (.invoke target o)
  | fill {a : Ty} {id : PromiseId} {v : Value H.Data H.Fn} :
      L.promises[id]? = some a → v.HasType T.toSignature L a → takes (.result .unit a) →
        IsSafe takes (.fill id v)
  | take {a : Ty} {id : PromiseId} {v : Value H.Data H.Fn} :
      L.promises[id]? = some a → v.HasType T.toSignature L a → takes (.result .unit a) →
        IsSafe takes (.take id v)
  | wake {a : Ty} {id : PromiseId} {v : Value H.Data H.Fn} {subscribers : List (Subscriber H.Fn)} :
      v.HasType T.toSignature L a → (∀ s ∈ subscribers, s.Takes T.toSignature L a) →
        takes (.result .unit a) → IsSafe takes (.wake id v subscribers)
  | notify {a : Ty} {id : PromiseId} {v : Value H.Data H.Fn} {subscribers : List (Subscriber H.Fn)}
      {first : Option Payload} :
      v.HasType T.toSignature L a → (∀ s ∈ subscribers, s.Takes T.toSignature L a) →
        (∀ payload, first = some payload → T.panics payload) → takes (.result .unit a) →
          IsSafe takes (.notify id v subscribers first)
  | tell {a : Ty} {subscriber : Subscriber H.Fn} {v : Value H.Data H.Fn} :
      subscriber.Takes T.toSignature L a → v.HasType T.toSignature L a → takes .unit →
        IsSafe takes (.tell subscriber v)
  | subscribe {a : Ty} {id : PromiseId} {subscriber : Subscriber H.Fn} :
      L.promises[id]? = some a → subscriber.Takes T.toSignature L a → takes .unit →
        IsSafe takes (.subscribe id subscriber)
  | await {a : Ty} {id : PromiseId} : L.promises[id]? = some a → takes a → IsSafe takes (.await id)
  | awaitUntil {a : Ty} {id : PromiseId} {time : Nat} :
      L.promises[id]? = some a → takes (.option a) → IsSafe takes (.awaitUntil id time)
  | peek {a : Ty} {id : PromiseId} :
      L.promises[id]? = some a → takes (.option a) → IsSafe takes (.peek id)
  | receive {a e : Ty} {id : ChannelId} {warning : Event} :
      L.channels[id]? = some (a, e) → takes (.result a e) → IsSafe takes (.receive a e id warning)
  /-- There is no reply. -/
  | lost {a : Ty} {warning : Event} : takes a → IsSafe takes (.lost warning)
  | collect {a e : Ty} {future : FutureId} {id : ChannelId} :
      L.channels[id]? = some (a, e) → takes (.option (.result a e)) →
        IsSafe takes (.collect a e future id)
  | hang {a e : Ty} {future : FutureId} {id : ChannelId} :
      L.channels[id]? = some (a, e) → takes (.option (.result a e)) →
        IsSafe takes (.hang a e future id)

/-- What a stack takes as a reply: all goes on with it at its types, and so does a panic. -/
def Return.Take : List (Return H) → Ty → Prop
  | [], _ => True
  | .user c :: rest, a => ∃ b,
      (∀ L' v, L.Extends L' → v.HasType T.toSignature L' a → T.code L' c (.value v) b) ∧
        (∀ L' payload, L.Extends L' → T.panics payload → T.code L' c (.raised payload) b) ∧
          Take rest b
  | .answering post frames _ _ finish :: rest, a => ∃ b e v r,
      post.HasTypes T.toSignature L a b e ∧ Frame.HaveTypes T.toSignature L frames b e v r ∧
        finish.HasTypes T.toSignature L v r ∧ Take rest .unit
  | .guarded _ :: rest, _ => Take rest .unit
  | .guarding id _ :: rest, _ => (∃ a e, L.handoffs[id]? = some (a, e)) ∧ Take rest .unit
  | .holding _ :: rest, a => Take rest a
  | .driving :: rest, a => Take rest a
  | .after task :: rest, _ => task.IsSafe T L (Take rest) ∧ ∃ b, Take rest b
  | .polling a e _ id :: rest, _ =>
      L.channels[id]? = some (a, e) ∧ Take rest (.option (.result a e))
  | .notifying _ v subscribers first :: rest, _ => ∃ b, v.HasType T.toSignature L b ∧
      (∀ s ∈ subscribers, s.Takes T.toSignature L b) ∧
        (∀ payload, first = some payload → T.panics payload) ∧ Take rest (.result .unit b)
  | .reading :: rest, a => ∃ b e, (a = .slot b e ∧ Take rest (.result b e)) ∨
      a = .option (.slot b e) ∧ Take rest (.option (.result b e))
  | .givingBack :: rest, a => ∃ b e, a = .result .unit (.slot b e) ∧
      Take rest (.result .unit (.slot b e)) ∧ Take rest (.result .unit (.result b e))

/-- What a thread does next above a stack is of the types that the stack takes. Who sleeps forever
does nothing. -/
inductive Control.IsSafe (stack : List (Return H)) : Control H → Prop where
  | run {task : Task H} : task.IsSafe T L (Return.Take T L stack) → IsSafe stack (.run task)
  | ret {a : Ty} {v : Value H.Data H.Fn} :
      v.HasType T.toSignature L a → Return.Take T L stack a → IsSafe stack (.ret v)
  | raise {a : Ty} {payload : Payload} :
      T.panics payload → Return.Take T L stack a → IsSafe stack (.raise payload)
  | asleep {wait : Wait H} {woken missed : Task H} :
      woken.IsSafe T L (Return.Take T L stack) → missed.IsSafe T L (Return.Take T L stack) →
        IsSafe stack (.asleep wait woken missed)
  | forever {a : Ty} {woken missed : Task H} :
      Return.Take T L stack a → IsSafe stack (.asleep .forever woken missed)

def Thread.IsSafe (thread : Thread H) : Prop := thread.control.IsSafe T L thread.stack

/-- What a turn comes to above a stack is of the types at which objects have been made by then. -/
structure Turn.IsSafe (stack : List (Return H)) (turn : Turn H) : Prop where
  heap : turn.heap.IsTyped T.toSignature L
  control : turn.control.IsSafe T L (turn.pushed ++ stack)
  born : ∀ thread, turn.born = some thread → thread.IsSafe T L

/-- Shared objects, the state of the host and all threads keep to their types. -/
structure World.IsTyped (w : World H) : Prop where
  heap : w.heap.IsTyped T.toSignature L
  state : T.state L w.state
  threads : ∀ (t : ThreadId) (thread : Thread H), w.threads[t]? = some thread → thread.IsSafe T L

section Extends

variable {T L} {L' : Types} {takes takes' : Ty → Prop}

theorem Request.IsSafe.extends {S : Signature H.Data H.Fn} {q : Request H.Data H.Fn}
    (h : q.IsSafe S L takes) (hle : L.Extends L') (htakes : ∀ a, takes a → takes' a) :
    q.IsSafe S L' takes' := by
  cases h with
  | runBlocking hnode ht => exact .runBlocking (hnode.extends hle) (htakes _ ht)
  | runWith hnode htarget ht =>
      exact .runWith (hnode.extends hle) (htarget.extends hle) (htakes _ ht)
  | runFiber hnode ht => exact .runFiber (hnode.extends hle) (htakes _ ht)
  | runAsync hnode ht => exact .runAsync (hnode.extends hle) (htakes _ ht)
  | poll hid ht => exact .poll (hle.future hid) (htakes _ ht)
  | dropFuture ht => exact .dropFuture (htakes _ ht)
  | blockOn hnode ht => exact .blockOn (hnode.extends hle) (htakes _ ht)
  | complete htarget ho ht =>
      exact .complete (htarget.extends hle) (ho.extends hle) (htakes _ ht)
  | newPromise ht => exact .newPromise (htakes _ ht)
  | fill hid hv ht => exact .fill (hle.promise hid) (hv.extends hle) (htakes _ ht)
  | await hid ht => exact .await (hle.promise hid) (htakes _ ht)
  | awaitFor hid ht => exact .awaitFor (hle.promise hid) (htakes _ ht)
  | subscribe hid hf ht =>
      exact .subscribe (hle.promise hid) (S.function_extends hle hf) (htakes _ ht)
  | newFiber ht => exact .newFiber (htakes _ ht)
  | completedFiber ho ht => exact .completedFiber (ho.extends hle) (htakes _ ht)
  | fillFiber hid ho ht ht' =>
      exact .fillFiber (hle.promise hid) (ho.extends hle) (htakes _ ht) (htakes _ ht')
  | awaitFiber hid ht => exact .awaitFiber (hle.promise hid) (htakes _ ht)
  | awaitFiberFor hid ht => exact .awaitFiberFor (hle.promise hid) (htakes _ ht)
  | observe hid htarget ht =>
      exact .observe (hle.promise hid) (htarget.extends hle) (htakes _ ht)
  | submit hwork ht => exact .submit (hwork.extends hle) (htakes _ ht)
  | report ht => exact .report (htakes _ ht)
  | perform hwork ht => exact .perform (hwork.extends hle) (htakes _ ht)
  | spawn hf ht => exact .spawn (S.function_extends hle hf) (htakes _ ht)

theorem Task.IsSafe.extends {task : Task H} (h : task.IsSafe T L takes) (hle : L.Extends L')
    (htakes : ∀ a, takes a → takes' a) : task.IsSafe T L' takes' := by
  cases h with
  | give hv ht => exact .give (hv.extends hle) (htakes _ ht)
  | user hc ht => exact .user (T.code_extends hle hc) (htakes _ ht)
  | call hf hargs ht =>
      exact .call (T.function_extends hle hf) (Value.forall₂_extends hle hargs) (htakes _ ht)
  | request hq => exact .request (hq.extends hle htakes)
  | drive hi hfinish ht => exact .drive (hi.extends hle) (hfinish.extends hle) (htakes _ ht)
  | answer hquestion ht => exact .answer (hquestion.extends hle) (htakes _ ht)
  | park hid hframes hfinish ht =>
      exact .park (hle.handoff hid) (hframes.extends hle) (hfinish.extends hle) (htakes _ ht)
  | deliver hid hexit ht => exact .deliver (hle.handoff hid) (hexit.extends hle) (htakes _ ht)
  | resume hexit hframes hfinish ht =>
      exact .resume (hexit.extends hle) (hframes.extends hle) (hfinish.extends hle) (htakes _ ht)
  | conclude hexit hfinish ht =>
      exact .conclude (hexit.extends hle) (hfinish.extends hle) (htakes _ ht)
  | submit hwork ht => exact .submit (hwork.extends hle) (htakes _ ht)
  | perform hwork ht => exact .perform (hwork.extends hle) (htakes _ ht)
  | report ht => exact .report (htakes _ ht)
  | register hregister htarget ht =>
      exact .register (hregister.extends hle) (htarget.extends hle) (htakes _ ht)
  | invoke htarget ho ht => exact .invoke (htarget.extends hle) (ho.extends hle) (htakes _ ht)
  | fill hid hv ht => exact .fill (hle.promise hid) (hv.extends hle) (htakes _ ht)
  | take hid hv ht => exact .take (hle.promise hid) (hv.extends hle) (htakes _ ht)
  | wake hv hs ht =>
      exact .wake (hv.extends hle) (fun s hmem => (hs s hmem).extends hle) (htakes _ ht)
  | notify hv hs hfirst ht =>
      exact .notify (hv.extends hle) (fun s hmem => (hs s hmem).extends hle) hfirst (htakes _ ht)
  | tell hs hv ht => exact .tell (hs.extends hle) (hv.extends hle) (htakes _ ht)
  | subscribe hid hs ht => exact .subscribe (hle.promise hid) (hs.extends hle) (htakes _ ht)
  | await hid ht => exact .await (hle.promise hid) (htakes _ ht)
  | awaitUntil hid ht => exact .awaitUntil (hle.promise hid) (htakes _ ht)
  | peek hid ht => exact .peek (hle.promise hid) (htakes _ ht)
  | receive hid ht => exact .receive (hle.channel hid) (htakes _ ht)
  | lost ht => exact .lost (htakes _ ht)
  | collect hid ht => exact .collect (hle.channel hid) (htakes _ ht)
  | hang hid ht => exact .hang (hle.channel hid) (htakes _ ht)

variable (hle : L.Extends L')
include hle

theorem Return.Take.extends {stack : List (Return H)} {a : Ty} (h : Return.Take T L stack a) :
    Return.Take T L' stack a := by
  induction stack generalizing a with
  | nil => trivial
  | cons back rest ih =>
      cases back with
      | user c =>
          obtain ⟨b, hvalue, hraised, hrest⟩ := h
          exact ⟨b, fun L'' v hle' => hvalue L'' v (hle.trans hle'),
            fun L'' payload hle' => hraised L'' payload (hle.trans hle'), ih hrest⟩
      | answering post frames last applied finish =>
          obtain ⟨b, e, v, r, hpost, hframes, hfinish, hrest⟩ := h
          exact ⟨b, e, v, r, hpost.extends hle, hframes.extends hle, hfinish.extends hle, ih hrest⟩
      | guarded s => exact ih (a := .unit) h
      | guarding id register =>
          obtain ⟨⟨b, e, hid⟩, hrest⟩ := h
          exact ⟨⟨b, e, hle.handoff hid⟩, ih hrest⟩
      | holding refs => exact ih (a := a) h
      | driving => exact ih (a := a) h
      | after task =>
          obtain ⟨htask, b, hrest⟩ := h
          exact ⟨htask.extends hle fun _ => ih, b, ih hrest⟩
      | polling a e future id =>
          obtain ⟨hid, hrest⟩ := h
          exact ⟨hle.channel hid, ih hrest⟩
      | notifying id v subscribers first =>
          obtain ⟨b, hv, hs, hfirst, hrest⟩ := h
          exact ⟨b, hv.extends hle, fun s hmem => (hs s hmem).extends hle, hfirst, ih hrest⟩
      | reading =>
          obtain ⟨b, e, ⟨heq, hrest⟩ | ⟨heq, hrest⟩⟩ := h
          · exact ⟨b, e, .inl ⟨heq, ih hrest⟩⟩
          · exact ⟨b, e, .inr ⟨heq, ih hrest⟩⟩
      | givingBack =>
          obtain ⟨b, e, heq, hslot, hresult⟩ := h
          exact ⟨b, e, heq, ih hslot, ih hresult⟩

theorem Thread.IsSafe.extends {thread : Thread H} (h : thread.IsSafe T L) :
    thread.IsSafe T L' := by
  obtain ⟨name, control, stack⟩ := thread
  have htake (a : Ty) (h : Return.Take T L stack a) : Return.Take T L' stack a := h.extends hle
  cases (h : control.IsSafe T L stack) with
  | run htask => exact .run (htask.extends hle htake)
  | ret hv hstack => exact .ret (hv.extends hle) (htake _ hstack)
  | raise hpanics hstack => exact .raise hpanics (htake _ hstack)
  | asleep hwoken hmissed =>
      exact .asleep (hwoken.extends hle htake) (hmissed.extends hle htake)
  | forever hstack => exact .forever (htake _ hstack)

end Extends

end Machine

end Trampoline
