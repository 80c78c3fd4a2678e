import Mathlib.Data.Set.Basic
import Trampoline.Proofs.Provenance
import Trampoline.Proofs.Transfer

/-!
Threads that wait for one another at meeting points. A thread that completes the callback of a node
sleeps while the node is being submitted by another thread, and that one may be asleep for the same
reason. When callbacks are left among what the threads share, by the registrations of their nodes
only, and are taken from there, each thread of a circle waits for one that has left its own callback
first and has come to complete another one then.
-/

namespace Trampoline

variable {H : Host}

/-- A thread sleeps at one node at a time. -/
theorem Control.SleepsAt.unique {control : Control H} {id id' : HandoffId}
    (h : control.SleepsAt id) (h' : control.SleepsAt id') : id = id' := by
  cases control with
  | asleep wait woken missed =>
      cases wait with
      | gate gate deadline =>
          cases gate with
          | handoff id'' => exact Eq.trans (Eq.symm h) h'
          | promise id'' => exact h.elim
      | _ => exact h.elim
  | _ => exact h.elim

namespace World

/-- Thread `s` has yet to finish submitting the registration of the node, and to leave the node. -/
def Submits (w : World H) (s : ThreadId) (id : HandoffId) : Prop :=
  ∃ l, w.Parks (.thread s l) id

/-- Thread `t` sleeps at a node until another thread has submitted the node's registration. -/
structure WaitsFor (w : World H) (t s : ThreadId) (id : HandoffId) : Prop where
  ne : s ≠ t
  sleeps : w.SleepsAt t id
  submits : w.Submits s id

/-- Each of some threads waits for another one of them. -/
def Deadlocked (w : World H) (threads : Set ThreadId) : Prop :=
  threads.Nonempty ∧ ∀ t ∈ threads, ∃ s ∈ threads, ∃ id, w.WaitsFor t s id

theorem Sound.submitter {w : World H} (hw : w.Sound) {s : ThreadId} {id : HandoffId}
    (h : w.Submits s id) :
    ∃ phase, w.heap.handoffs[id]? = some ⟨s, phase⟩ ∧ ¬phase.IsLeft := by
  obtain ⟨l, hparks⟩ := h
  obtain ⟨t, l', ⟨s', phase⟩, hplace, hhandoff, rfl, hphase⟩ := hw.parking _ _ hparks
  obtain ⟨rfl, -⟩ := Place.thread.inj hplace
  refine ⟨phase, hhandoff, ?_⟩
  rcases hphase with hphase | ⟨exit, hphase⟩
  · simp only at hphase
    subst hphase
    exact not_false
  · simp only at hphase
    subst hphase
    exact not_false

theorem SleepsAt.unique {w : World H} {t : ThreadId} {id id' : HandoffId} (h : w.SleepsAt t id)
    (h' : w.SleepsAt t id') : id = id' := by
  obtain ⟨thread, ht, hsleeps⟩ := h
  obtain ⟨thread', ht', hsleeps'⟩ := h'
  obtain rfl := Option.some.inj (ht'.symm.trans ht)
  exact hsleeps.unique hsleeps'

/-- A thread falls asleep at a node when it offers the node an exit. -/
theorem Acts.deliver_of_sleepsAt {w w' : World H} {a : Action} (h : w.Acts w' (w.shift a))
    {t : ThreadId} {id : HandoffId} (hsleeps : w'.SleepsAt t id) (hawake : ¬w.SleepsAt t id) :
    ∃ name exit origin stack, a = .thread t ∧
      w.threads[t]? = some ⟨name, .run (.deliver id exit origin), stack⟩ := by
  generalize hshift : w.shift a = shift at h
  cases h with
  | keep hidle hcalm => exact absurd ((hcalm.sleepers t id).1 hsleeps) hawake
  | start hcalm => exact absurd ((hcalm.sleepers t id).1 hsleeps) hawake
  | goOn hcalm => exact absurd ((hcalm.sleepers t id).1 hsleeps) hawake
  | ends hcalm => exact absurd ((hcalm.sleepers t id).1 hsleeps) hawake
  | suspend _ _ _ _ hsleepers => exact absurd ((hsleepers t id).1 hsleeps) hawake
  | early _ _ hsleepers => exact absurd ((hsleepers t id).1 hsleeps) hawake
  | refuse _ hcalm => exact absurd ((hcalm.sleepers t id).1 hsleeps) hawake
  | accept _ _ hsleepers => exact absurd ((hsleepers t id).1 hsleeps) hawake
  | inline _ _ _ hsleepers => exact absurd ((hsleepers t id).1 hsleeps) hawake
  | park _ _ _ hsleepers => exact absurd ((hsleepers t id).1 hsleeps).1 hawake
  | @wait t' s l id' exit' _ _ _ hsleepers =>
      rcases (hsleepers t id).1 hsleeps with hbefore | ⟨rfl, rfl⟩
      · exact absurd hbefore hawake
      · obtain ⟨t', name, exit, origin, stack, haction, ht, -, hplace⟩ := deliver_of_shift hshift
        obtain ⟨rfl, -⟩ := Place.thread.inj (Option.some.inj hplace)
        exact ⟨name, exit, origin, stack, haction, ht⟩

end World

namespace Run

variable {r : Run H} {n m k : Nat} {t s : ThreadId} {id : HandoffId}

/-- A thread that sleeps at a node has offered it an exit, and has slept there since. -/
theorem exists_offers_of_sleepsAt (h : (r.world n).SleepsAt t id) :
    ∃ k exit origin, k < n ∧ r.Offers k t id exit origin ∧
      ∀ j, k < j → j ≤ n → (r.world j).SleepsAt t id := by
  induction n with
  | zero =>
      obtain ⟨thread, ht, hsleeps⟩ := h
      exact absurd hsleeps ((r.initial.idle t thread ht).awake id)
  | succ n ih =>
      by_cases hbefore : (r.world n).SleepsAt t id
      · obtain ⟨k, exit, origin, hk, hoffers, hsince⟩ := ih hbefore
        refine ⟨k, exit, origin, Nat.lt_succ_of_lt hk, hoffers, fun j hkj hj => ?_⟩
        rcases Nat.lt_or_eq_of_le hj with hlt | rfl
        · exact hsince j hkj (Nat.le_of_lt_succ hlt)
        · exact h
      · obtain ⟨name, exit, origin, stack, haction, ht⟩ := (r.acts n).deliver_of_sleepsAt h hbefore
        refine ⟨n, exit, origin, Nat.lt_succ_self n, ⟨haction, name, stack, ht⟩, fun j hnj hj => ?_⟩
        obtain rfl := Nat.le_antisymm hj hnj
        exact h

/-- A thread that sleeps at a node takes no turn. -/
theorem action_ne_of_sleepsAt (h : (r.world n).SleepsAt t id) : r.action n ≠ .thread t := by
  intro haction
  obtain ⟨⟨name, control, stack⟩, ht, hsleeps⟩ := h
  cases control with
  | asleep wait woken missed =>
      cases wait with
      | gate gate deadline =>
          cases gate with
          | handoff id' =>
              have hstep := r.step n
              rw [haction] at hstep
              have hnone := (r.ordered n).step_gate ht rfl
              rw [World.does, hnone] at hstep
              contradiction
          | promise id' => exact hsleeps
      | _ => exact hsleeps
  | _ => exact hsleeps

variable (r)

/-- At time `n` thread `s` puts the callback of a node where the threads share it. -/
structure Stores (n : Nat) (s : ThreadId) (id : HandoffId) : Prop where
  action : r.action n = .thread s
  before : .handoff id ∉ H.stateRefs (r.world n).state []
  after : .handoff id ∈ H.stateRefs (r.world (n + 1)).state []

/-- The callback of a node has been shared by time `n`. -/
def HasStored (n : Nat) (id : HandoffId) : Prop := ∃ m s, m < n ∧ r.Stores m s id

/-- Thread `s` sleeps at a node, and had shared the callback of the node `id` before it came to
complete the callback of the one where it sleeps. -/
def SharesFirst (n : Nat) (s : ThreadId) (id : HandoffId) : Prop :=
  ∃ m k id' exit, m < k ∧ k < n ∧ r.Stores m s id ∧ r.Offers k s id' exit .completion ∧
    ∀ j, k < j → j ≤ n → (r.world j).SleepsAt s id'

/-- A request has named the node by time `n`. -/
def Names (n : Nat) (id : HandoffId) : Prop :=
  ∃ m t q, m < n ∧ r.Does m t (.request q) ∧ .handoff id ∈ q.refs []

end Run

/-- The moves of a registration that does nothing but share its callback, complete callbacks of
nodes and return. -/
def Move.isTrade {D F Code Condition : Type} : Move D F Code Condition → Bool
  | .run _ => true
  | .ret _ => true
  | .ask (.complete (.node _) _) _ => true
  | _ => false

namespace Run

/-- The functions of the program exchange callbacks. Their registrations are run inline and do
nothing but share their own callbacks, complete others that have been shared, and return. -/
structure Exchanges (r : Run H) : Prop where
  register {n : Nat} {t : ThreadId} {register : Register H.Fn} {scheduler : SchedulerId}
      {id : HandoffId} : r.ComesTo n t register scheduler id →
    (∃ value error f, register = .user value error f) ∧
      ∃ entry, (r.world n).heap.schedulers[scheduler]? = some entry ∧ entry.isInline
  /-- What code does that has been called as a registration. -/
  trades {n : Nat} {t : ThreadId} {name : Option String} {code : H.Code}
      {reply : Reply H.Data H.Fn} {id : HandoffId} {register : Register H.Fn}
      {rest : List (Return H)} : r.action n = .thread t →
    (r.world n).threads[t]? = some ⟨name, .run (.user code reply),
      .after (.give .unit) :: .guarding id register :: rest⟩ →
        (H.advance ⟨t, name⟩ (r.world n).heap (r.world n).state code reply).2.isTrade
  /-- No registration panics, so none offers its node an exit but by its callback. -/
  returns {n : Nat} {t : ThreadId} {id : HandoffId} {exit : Exit (Outcome H.Data H.Fn)} :
    ¬r.Offers n t id exit .registration
  /-- A callback is shared while the registration of its node is submitted. -/
  own {n : Nat} {s : ThreadId} {id : HandoffId} : r.Stores n s id → (r.world n).Submits s id
  /-- Callbacks come from where they are shared. -/
  shared {n : Nat} {t : ThreadId} {q : Request H.Data H.Fn} {id : HandoffId} :
    r.Does n t (.request q) → .handoff id ∈ q.refs [] → r.HasStored n id

variable {r : Run H} {n m k : Nat} {t s : ThreadId} {id : HandoffId}

theorem Names.mono (h : r.Names n id) (hnm : n ≤ m) : r.Names m id := by
  obtain ⟨k, t, q, hk, hdoes, hmem⟩ := h
  exact ⟨k, t, q, Nat.lt_of_lt_of_le hk hnm, hdoes, hmem⟩

/-- What is told has been subscribed before. -/
theorem Does.exists_subscribes {promise : PromiseId} {v : Value H.Data H.Fn}
    {subscriber : Subscriber H.Fn} {rest : List (Subscriber H.Fn)} {first : Option Payload}
    (hstart : (r.world 0).Starting)
    (h : r.Does n t (.notify promise v (subscriber :: rest) first)) :
    ∃ m t', m < n ∧ r.Subscribes promise m t' subscriber := by
  obtain ⟨m, hserves⟩ := h.serves hstart
  obtain ⟨-, hkept⟩ := h.kept_of_notify hstart
  obtain ⟨hlt, -⟩ := List.getElem?_eq_some_iff.1 hkept
  cases hserves with
  | onTheSpot hsubscribes =>
      obtain ⟨-, heq⟩ := hsubscribes.1.unique h
      contradiction
  | @later t' _ _ _ _ _ hsubscribes _ _ hlength =>
      refine ⟨m, t', Nat.lt_of_not_le fun hle => ?_, hsubscribes⟩
      have hprefix : r.kept promise n <+: r.kept promise m := ledger_prefix _ hle
      have hle' := hprefix.length_le
      omega

-- Where the callback of a node comes from when the registrations are functions of the program.
section Callback

variable (hstart : (r.world 0).Starting)
  (huser : ∀ n t register scheduler id, r.ComesTo n t register scheduler id →
    ∃ value error f, register = .user value error f)

include hstart huser

theorem register_isUser_or_names {register : Register H.Fn}
    (h : r.Has n (.perform (.register register id)) ∨
      ∃ scheduler, r.Has n (.submit scheduler (.register register id))) :
    (∃ value error f, register = .user value error f) ∨ r.Names n id := by
  obtain ⟨m, t, task, hm, hdoes, hmakes⟩ := exists_makes hstart h
  cases hmakes with
  | registration hstep => exact .inl (huser m t _ _ _ ⟨_, _, _, _, hdoes, hstep, rfl⟩)
  | request hwork =>
      exact .inr ⟨m, t, _, hm, hdoes, Request.mem_refs_of_work hwork (by simp [Work.kept])⟩

theorem registered_isUser_or_names {register : Register H.Fn}
    (h : r.Has n (.register register (.node id))) :
    (∃ value error f, register = .user value error f) ∨ r.Names n id := by
  obtain ⟨m, t, task, hm, hdoes, hhands⟩ := h.exists_does hstart trivial
  cases hhands with
  | minor h => exact h.elim
  | request h => cases h
  | register =>
      exact (register_isUser_or_names hstart huser (.inl hdoes.has)).imp_right
        (Names.mono · (Nat.le_of_lt hm))

theorem names_of_subscribe {promise : PromiseId} {subscriber : Subscriber H.Fn}
    (h : r.Has n (.subscribe promise subscriber))
    (htarget : subscriber.target? = some (.node id)) : r.Names n id := by
  obtain ⟨m, t, task, hm, hdoes, hhands⟩ := h.exists_does hstart trivial
  cases hhands with
  | minor h => exact h.elim
  | request h =>
      cases h with
      | subscribe => contradiction
      | observe =>
          obtain rfl := Option.some.inj htarget
          exact ⟨m, t, _, hm, hdoes, by simp [Request.refs, Callback.kept]⟩
  | join =>
      obtain rfl := Option.some.inj htarget
      rcases registered_isUser_or_names hstart huser hdoes.has with ⟨_, _, _, heq⟩ | hnames
      · contradiction
      · exact hnames.mono (Nat.le_of_lt hm)

omit huser in
theorem names_of_finish {q : Place} {stage : Stage H.Data H.Fn} {value error : Ty}
    (h : (r.world n).pendingAt q = some (stage, .callback value error (.node id))) :
    r.Names n id := by
  obtain ⟨m, j, -, node, rfl, ⟨⟨t, name, task, stack, -, haction, -, ht, hstarts⟩, -⟩, -⟩ :=
    exists_begins h
  have hdoes : r.Does m t task := ⟨haction, name, stack, ht⟩
  have hm : m < m + 1 + j := by omega
  cases hstarts with
  | runWith => exact ⟨m, t, _, hm, hdoes, by simp [Request.refs, Callback.kept]⟩
  | interpret =>
      obtain ⟨m', t', task', hm', hdoes', hmakes⟩ := exists_makes hstart (.inl hdoes.has)
      cases hmakes with
      | request hwork =>
          refine ⟨m', t', _, Nat.lt_trans hm' hm, hdoes', Request.mem_refs_of_work hwork ?_⟩
          simp [Work.kept, Finish.kept, Callback.kept]

theorem names_of_tell {subscriber : Subscriber H.Fn} {v : Value H.Data H.Fn}
    (h : r.Has n (.tell subscriber v)) (htarget : subscriber.target? = some (.node id)) :
    r.Names n id := by
  obtain ⟨m, t, task, hm, hdoes, hhands⟩ := h.exists_does hstart trivial
  cases hhands with
  | minor h => exact h.elim
  | request h => cases h
  | subscribe => exact (names_of_subscribe hstart huser hdoes.has htarget).mono (Nat.le_of_lt hm)
  | tell =>
      obtain ⟨k, t', hk, hsubscribes⟩ := hdoes.exists_subscribes hstart
      exact (names_of_subscribe hstart huser hsubscribes.1.has htarget).mono
        (Nat.le_of_lt (Nat.lt_trans hk hm))

theorem names_of_invoke {outcome : Outcome H.Data H.Fn}
    (h : r.Has n (.invoke (.node id) outcome)) : r.Names n id := by
  obtain ⟨m, t, task, hm, hdoes, hhands⟩ := h.exists_does hstart trivial
  refine Names.mono ?_ (Nat.succ_le_of_lt hm)
  cases hhands with
  | minor h => exact h.elim
  | request h =>
      cases h with
      | complete =>
          exact ⟨m, t, _, Nat.lt_succ_self m, hdoes, by simp [Request.refs, Callback.kept]⟩
  | callback =>
      obtain ⟨haction, name, stack, ht⟩ := hdoes
      exact (names_of_finish hstart (World.pendingAt_run ht)).mono (Nat.le_succ m)
  | sleep =>
      rcases registered_isUser_or_names hstart huser hdoes.has with ⟨_, _, _, heq⟩ | hnames
      · contradiction
      · exact hnames.mono (Nat.le_succ m)
  | joined => exact (names_of_tell hstart huser hdoes.has rfl).mono (Nat.le_succ m)
  | observed => exact (names_of_tell hstart huser hdoes.has rfl).mono (Nat.le_succ m)

/-- Whoever has an exit for a node by its callback has been given the callback by a request. -/
theorem names_of_deliver {exit : Exit (Outcome H.Data H.Fn)}
    (h : r.Has n (.deliver id exit .completion)) : r.Names n id := by
  obtain ⟨m, t, thread, hm, hnew, haction, ht, hhands⟩ := h.exists_hands hstart not_false
  cases hhands with
  | minor h => exact h.elim
  | @task name task' _ stack hhands =>
      have hdoes : r.Does m t task' := ⟨haction, name, stack, ht⟩
      cases hhands with
      | minor h => exact h.elim
      | request h => cases h
      | deliver => exact absurd hdoes.has hnew
      | invoke => exact (names_of_invoke hstart huser hdoes.has).mono (Nat.le_of_lt hm)
  | ret hback =>
      cases hback with
      | minor h => exact h.elim
      | after => exact absurd ⟨t, _, ht, by simp [Thread.held, Return.held]⟩ hnew
  | raise hback =>
      cases hback with
      | minor h => exact h.elim

end Callback

namespace Exchanges

variable (hstart : (r.world 0).Starting) (h : r.Exchanges)

include hstart h

/-- A callback that is completed has been shared before. -/
theorem hasStored_of_offers {exit : Exit (Outcome H.Data H.Fn)} {origin : Origin}
    (hoffers : r.Offers n t id exit origin) : origin = .completion ∧ r.HasStored n id := by
  cases origin with
  | registration => exact absurd hoffers h.returns
  | completion =>
      have hhas : r.Has n (.deliver id exit .completion) := Does.has hoffers
      obtain ⟨m, t', q, hm, hdoes, hmem⟩ :=
        names_of_deliver hstart (fun _ _ _ _ _ hcomes => (h.register hcomes).1) hhas
      obtain ⟨k, s, hk, hstores⟩ := h.shared hdoes hmem
      exact ⟨rfl, k, s, Nat.lt_trans hk hm, hstores⟩

/-- The thread for which another one waits has shared its own callback before it came to complete
the one at whose node it sleeps. -/
theorem sharesFirst {id' : HandoffId} (hwaits : (r.world n).WaitsFor t s id)
    (hsleeps : (r.world n).SleepsAt s id') : r.SharesFirst n s id := by
  obtain ⟨k, exit, origin, hk, hoffers, hsince⟩ := exists_offers_of_sleepsAt hsleeps
  obtain ⟨rfl, -⟩ := h.hasStored_of_offers hstart hoffers
  obtain ⟨k', exit', origin', hk', hoffers', -⟩ := exists_offers_of_sleepsAt hwaits.sleeps
  obtain ⟨-, m, s', hm, hstores⟩ := h.hasStored_of_offers hstart hoffers'
  -- The callback has been shared by the thread that still submits the node.
  obtain ⟨phase, hhandoff, -⟩ := (r.sound n).submitter hwaits.submits
  obtain ⟨phase', hhandoff', -⟩ := (r.sound m).submitter (h.own hstores)
  obtain rfl := submitter_unique hhandoff' hhandoff
  refine ⟨m, k, id', exit, ?_, hk, hstores, hoffers, hsince⟩
  -- Completing a callback shares nothing, and neither does a thread that sleeps.
  rcases Nat.lt_trichotomy m k with hlt | rfl | hgt
  · exact hlt
  · have hstate : (r.world (m + 1)).state = (r.world m).state := by
      obtain ⟨name, stack, -, happly⟩ := Does.turn hoffers nofun
      rw [happly, World.state_apply]
    have hafter := hstores.after
    rw [hstate] at hafter
    exact absurd hafter hstores.before
  · have hasleep := hsince m hgt (Nat.le_of_lt (Nat.lt_trans hm hk'))
    exact absurd hstores.action (action_ne_of_sleepsAt hasleep)

/-- If no thread that has shared a callback completes another one before it has left the node, no
threads wait for one another. -/
theorem not_deadlocked {threads : Set ThreadId}
    (hlast : ∀ m k s id id' exit, m < k → r.Stores m s id → r.Offers k s id' exit .completion →
      id' ≠ id → r.HasLeft k id) : ¬(r.world n).Deadlocked threads := by
  rintro ⟨⟨t, ht⟩, hwaits⟩
  obtain ⟨s, hs, id, hts⟩ := hwaits t ht
  obtain ⟨s', -, id'', hss'⟩ := hwaits s hs
  obtain ⟨m, k, id', exit, hmk, hkn, hstores, hoffers, hsince⟩ :=
    h.sharesFirst hstart hts hss'.sleeps
  obtain rfl := (hsince n hkn (Nat.le_refl n)).unique hss'.sleeps
  obtain ⟨phase, hhandoff, hthere⟩ := (r.sound n).submitter hts.submits
  have hne : id' ≠ id := by
    rintro rfl
    obtain ⟨phase', hhandoff', -⟩ := (r.sound n).submitter hss'.submits
    exact hss'.ne (submitter_unique hhandoff' hhandoff)
  obtain ⟨handoff, hhandoff', hleft⟩ :=
    (hlast m k s id id' exit hmk hstores hoffers hne).le (Nat.le_of_lt hkn)
  obtain rfl := Option.some.inj (hhandoff'.symm.trans hhandoff)
  exact hthere hleft

/-- Each of the threads that wait for one another waits for one that has shared its own callback
before it came to complete the one at whose node it sleeps. -/
theorem sharesFirst_of_deadlocked {threads : Set ThreadId}
    (hdeadlocked : (r.world n).Deadlocked threads) :
    ∀ t ∈ threads, ∃ s ∈ threads, ∃ id, (r.world n).WaitsFor t s id ∧ r.SharesFirst n s id := by
  intro t ht
  obtain ⟨-, hwaits⟩ := hdeadlocked
  obtain ⟨s, hs, id, hts⟩ := hwaits t ht
  obtain ⟨s', -, id', hss'⟩ := hwaits s hs
  exact ⟨s, hs, id, hts, h.sharesFirst hstart hts hss'.sleeps⟩

end Exchanges

end Run

/-!
Two threads that interpret async nodes, the registrations of which share their callbacks and
complete those of each other.
-/

namespace Barter

inductive Fn where
  /-- Shares a callback, on one of two places, and completes the one on the other place. -/
  | register (place : Bool)
  | receive

/-- What the threads share. -/
structure Shelf where
  left : Option (Callback Fn)
  right : Option (Callback Fn)

namespace Shelf

def get (shelf : Shelf) : Bool → Option (Callback Fn)
  | false => shelf.left
  | true => shelf.right

def put (shelf : Shelf) (target : Callback Fn) : Bool → Shelf
  | false => { shelf with left := some target }
  | true => { shelf with right := some target }

def refs (shelf : Shelf) (refs : List Ref) : List Ref :=
  (shelf.left.toList ++ shelf.right.toList).foldl (fun refs target => target.kept.onto refs) refs

end Shelf

inductive Code where
  | client (place : Bool)
  | share (place : Bool) (target : Callback Fn)
  | complete (place : Bool)
  | done

/-- An async node whose registration shares its callback on a place. -/
def node (place : Bool) : Node Unit Fn :=
  .async (.user .unit .unit ⟨.register place, ∅⟩) immediateId

def receiver : Callback Fn := .user .unit .unit ⟨.receive, ∅⟩

def advance (shelf : Shelf) : Code → Shelf × Move Unit Fn Code Unit
  | .client place => (shelf, .ask (.runWith .unit .unit (node place) receiver) .done)
  | .share place target => (shelf.put target place, .run (.complete place))
  | .complete place =>
      match shelf.get !place with
      | some target => (shelf, .ask (.complete target (.ok .unit)) .done)
      | none => (shelf, .ret .unit)
  | .done => (shelf, .ret .unit)

def host : Host where
  Data := Unit
  Fn := Fn
  Code := Code
  State := Shelf
  Condition := Unit
  enter
    | .register place, [.callback _ _ target] => .share place target
    | _, _ => .done
  advance _ _ shelf code _ := advance shelf code
  holds _ _ _ := false
  codeRefs _ refs := refs
  stateRefs := Shelf.refs

def start : World host where
  heap := .initial []
  state := ⟨none, none⟩
  threads := (∅ : Threads host)
    |>.insert 0 (.starting none (.user (.client false) .start) [])
    |>.insert 1 (.starting none (.user (.client true) .start) [])
  next := 2

theorem threads_start (t : ThreadId) :
    start.threads[t]? =
      if t = 1 then some (.starting none (.user (.client true) .start) [])
      else if t = 0 then some (.starting none (.user (.client false) .start) [])
      else none := by
  simp only [start, Std.TreeMap.getElem?_insert, Nat.compare_eq_eq, eq_comm (b := t)]
  rfl

theorem start_starting : start.Starting where
  handoffs := rfl
  promises := rfl
  channels := rfl
  futures := rfl
  numbered t ht := by
    have hlt {k : Nat} (hk : k < 2) : t ≠ k := Nat.ne_of_gt (Nat.lt_of_lt_of_le hk ht)
    rw [threads_start, if_neg (hlt (by decide)), if_neg (hlt (by decide))]
  threads t thread ht := by
    rw [threads_start] at ht
    split at ht
    · obtain rfl := Option.some.inj ht
      exact ⟨none, _, rfl⟩
    · split at ht
      · obtain rfl := Option.some.inj ht
        exact ⟨none, _, rfl⟩
      · contradiction

/-- Both registrations share their callbacks before they complete those of each other. -/
def crossed : Run host :=
  .ofList start start_starting.initial
    (.replicate 8 (.thread 0) ++ .replicate 12 (.thread 1) ++ .replicate 4 (.thread 0))

def shelved (n : Nat) : List Ref := host.stateRefs (crossed.world n).state []

theorem shelved_same : ∀ n < 24, n ≠ 7 → n ≠ 15 → shelved (n + 1) = shelved n := by decide

theorem shelved_left {id : HandoffId} (h : .handoff id ∈ shelved 8) : id = 0 := by
  have heq : shelved 8 = [.handoff 0] := by decide
  simpa [heq] using h

set_option maxRecDepth 4000 in
theorem shelved_right {id : HandoffId} (h : .handoff id ∈ shelved 16) : id = 1 ∨ id = 0 := by
  have heq : shelved 16 = [.handoff 1, .handoff 0] := by decide
  simpa [heq] using h

/-- Both threads have shared their callbacks when they come to complete the other ones. -/
theorem crossed_stores : crossed.Stores 7 0 0 ∧ crossed.Stores 15 1 1 :=
  ⟨⟨rfl, by decide, by decide⟩, ⟨rfl, by decide, by decide⟩⟩

theorem crossed_submits :
    (crossed.world 7).Submits 0 0 ∧ (crossed.world 15).Submits 1 1 ∧
      (crossed.world 24).Submits 0 0 ∧ (crossed.world 24).Submits 1 1 :=
  ⟨⟨2, _, _, rfl, rfl⟩, ⟨2, _, _, rfl, rfl⟩, ⟨2, _, _, rfl, rfl⟩, ⟨2, _, _, rfl, rfl⟩⟩

/-- The thread that takes its turn. -/
def acting (n : Nat) : Option (Thread host) :=
  match crossed.action n with
  | .thread t => (crossed.world n).threads[t]?
  | _ => none

theorem lt_of_action {n : Nat} {t : ThreadId} (h : crossed.action n = .thread t) : n < 24 := by
  refine Nat.lt_of_not_le fun hle => ?_
  rw [crossed, Run.action_ofList _ _ _ (by simpa using hle)] at h
  contradiction

/-- What all threads pass that take their turns, every thread passes that takes its turn. -/
theorem check_of_action {c : Nat → Thread host → Bool} (hcheck : ∀ n < 24, (acting n).all (c n))
    {n : Nat} {t : ThreadId} {thread : Thread host} (h : crossed.action n = .thread t)
    (ht : (crossed.world n).threads[t]? = some thread) : c n thread := by
  have hn := hcheck n (lt_of_action h)
  rw [acting, h] at hn
  simpa [ht] using hn

/-- Whether the node that is reached, if one is, has a function's registration for an inline
scheduler. -/
def reaches (n : Nat) : Thread host → Bool
  | ⟨_, .run (.drive i _ _), _⟩ =>
      match i.step with
      | .suspend (.user _ _ _) scheduler _ =>
          (crossed.world n).heap.schedulers[scheduler]?.any Scheduler.isInline
      | .suspend _ _ _ => false
      | _ => true
  | _ => true

/-- Whether code that has been called does nothing but trade. -/
def trades (n : Nat) : Thread host → Bool
  | ⟨_, .run (.user code _), _ :: _⟩ => (advance (crossed.world n).state code).2.isTrade
  | _ => true

def returns : Thread host → Bool
  | ⟨_, .run (.deliver _ _ .registration), _⟩ => false
  | _ => true

/-- Whether a request names none but the callbacks that have been shared. -/
def takes (n : Nat) : Thread host → Bool
  | ⟨_, .run (.request q), _⟩ =>
      q.refs [] = [] || n = 17 && q.refs [] = [.handoff 0] || n = 21 && q.refs [] = [.handoff 1]
  | _ => true

set_option maxRecDepth 4000 in
theorem crossed_exchanges : crossed.Exchanges where
  register {n t register scheduler id} hcomes := by
    obtain ⟨i, last, finish, frames, ⟨haction, name, stack, ht⟩, hstep, -⟩ := hcomes
    have hreaches := check_of_action (c := reaches) (by decide) haction ht
    simp only [reaches, hstep] at hreaches
    cases register with
    | user value error f =>
        refine ⟨⟨value, error, f, rfl⟩, ?_⟩
        simpa [Option.any_eq_true] using hreaches
    | _ => contradiction
  trades haction ht := check_of_action (c := trades) (by decide) haction ht
  returns := by
    rintro n t id exit ⟨haction, name, stack, ht⟩
    have hreturns := check_of_action (c := fun _ => returns) (by decide) haction ht
    contradiction
  own {n s id} hstores := by
    obtain ⟨haction, hbefore, hafter⟩ := hstores
    by_cases hleft : n = 7
    · subst hleft
      obtain rfl := Action.thread.inj (crossed_stores.1.action.symm.trans haction)
      obtain rfl := shelved_left hafter
      exact crossed_submits.1
    by_cases hright : n = 15
    · subst hright
      obtain rfl := Action.thread.inj (crossed_stores.2.action.symm.trans haction)
      rcases shelved_right hafter with rfl | rfl
      · exact crossed_submits.2.1
      · exact absurd (by decide) hbefore
    · have hsame := shelved_same n (lt_of_action haction) hleft hright
      simp only [shelved] at hsame
      rw [hsame] at hafter
      exact absurd hafter hbefore
  shared {n t q id} hdoes hmem := by
    obtain ⟨haction, name, stack, ht⟩ := hdoes
    have htakes := check_of_action (c := takes) (by decide) haction ht
    simp only [takes, Bool.or_eq_true, Bool.and_eq_true, decide_eq_true_eq] at htakes
    rcases htakes with (hnone | ⟨rfl, hleft⟩) | ⟨rfl, hright⟩
    · simp [hnone] at hmem
    · obtain rfl := by simpa [hleft] using hmem
      exact ⟨7, 0, by decide, crossed_stores.1⟩
    · obtain rfl := by simpa [hright] using hmem
      exact ⟨15, 1, by decide, crossed_stores.2⟩

set_option maxRecDepth 4000 in
theorem crossed_deadlocked : (crossed.world 24).Deadlocked {0, 1} := by
  obtain ⟨-, -, hleft, hright⟩ := crossed_submits
  refine ⟨⟨0, .inl rfl⟩, ?_⟩
  rintro t (rfl | rfl)
  · exact ⟨1, .inr rfl, 1, by decide, by decide, hright⟩
  · exact ⟨0, .inl rfl, 0, by decide, by decide, hleft⟩

/-- Threads can come to wait for one another. -/
theorem exists_deadlocked :
    ¬∀ (H : Host) (r : Run H), (r.world 0).Starting → r.Exchanges →
      ∀ n threads, ¬(r.world n).Deadlocked threads :=
  fun h => h host crossed start_starting crossed_exchanges 24 {0, 1} crossed_deadlocked

/-- Each of the two threads has shared its callback first. -/
theorem crossed_sharesFirst :
    (crossed.world 0).Starting ∧ crossed.Exchanges ∧ (crossed.world 24).Deadlocked {0, 1} ∧
      ∀ t ∈ ({0, 1} : Set ThreadId), ∃ s ∈ ({0, 1} : Set ThreadId), ∃ id,
        (crossed.world 24).WaitsFor t s id ∧ crossed.SharesFirst 24 s id :=
  ⟨start_starting, crossed_exchanges, crossed_deadlocked,
    Run.Exchanges.sharesFirst_of_deadlocked start_starting crossed_exchanges crossed_deadlocked⟩

end Barter

end Trampoline
