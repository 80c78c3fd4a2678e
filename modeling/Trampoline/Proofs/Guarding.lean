import Trampoline.Proofs.Bypass
import Trampoline.Proofs.Causes
import Trampoline.Proofs.Joined
import Trampoline.Proofs.Provenance

/-!
The panic of a registration. The guard around the registration offers it to the async node. If the
offer is accepted, the panic is the node's exit and the guard is done; if another exit has been
accepted, the guard panics with it again, and the boundary within which the registration is
performed reports it to the scheduler.
-/

namespace Trampoline

variable {H : Host}

/-- A thread offers a panic to node `id` for the guard of its registration. -/
inductive Control.Offers (id : HandoffId) (payload : Payload) : Control H → Prop where
  | awake : Offers id payload (.run (.deliver id (.panicked payload) .registration))
  | asleep :
      Offers id payload (.asleep (.gate (.handoff id) none)
        (.deliver id (.panicked payload) .registration)
        (.deliver id (.panicked payload) .registration))

/-- The stack of a guard that offers a panic: the registration is kept meanwhile. -/
def Register.onto (register : Register H.Fn) (stack : List (Return H)) : List (Return H) :=
  .holding (register.kept.onto []) :: stack

namespace Run

variable {r : Run H} {n m k : Nat} {t : ThreadId} {name : Option String} {id : HandoffId}
  {payload : Payload} {register : Register H.Fn} {stack : List (Return H)}
  {work : Work H.Data H.Fn}

/-- Who performs a unit of work: the boundary of a scheduler to which it has been submitted, or host
code that has been handed it. -/
inductive Performs (r : Run H) (n : Nat) (work : Work H.Data H.Fn) : Return H → Prop where
  | boundary {m : Nat} {t : ThreadId} {s : SchedulerId} :
      m < n → r.Does m t (.submit s work) → Performs r n work (.guarded s)
  | host {m : Nat} {t : ThreadId} {code : H.Code} :
      m < n → r.Does m t (.request (.perform work)) → Performs r n work (.user code)

theorem Performs.le {back : Return H} (h : r.Performs n work back) (hnm : n ≤ m) :
    r.Performs m work back := by
  cases h with
  | boundary hm hdoes => exact .boundary (Nat.lt_of_lt_of_le hm hnm) hdoes
  | host hm hdoes => exact .host (Nat.lt_of_lt_of_le hm hnm) hdoes

theorem exists_performer (hstart : (r.world 0).Starting)
    (ht : (r.world n).threads[t]? = some ⟨name, .run (.perform work), stack⟩) :
    ∃ back rest, stack = back :: rest ∧ r.Performs n work back := by
  have hperform : (Task.perform work : Task H).IsUrgent := trivial
  obtain ⟨m, hm, hurged, -⟩ := exists_urged hstart hperform ht
  cases hurged with
  | start hdoes htask hstack =>
      obtain rfl := Task.perform.inj htask
      exact ⟨_, [], hstack, .boundary hm hdoes⟩
  | turn haction ht₀ hurges =>
      cases hurges with
      | submit => exact ⟨_, _, rfl, .boundary hm ⟨haction, _, _, ht₀⟩⟩
      | perform =>
          have hrequest : (Task.request (.perform work) : Task H).IsUrgent := trivial
          obtain ⟨m', -, hurged', -⟩ := exists_urged hstart hrequest ht₀
          cases hurged' with
          | start _ htask => contradiction
          | turn _ _ hurges' =>
              cases hurges' with
              | host => exact ⟨_, _, rfl, .host hm ⟨haction, _, _, ht₀⟩⟩

end Run

/-- What is on a stack stays above what it is above until it is taken off. -/
theorem suffix_of_append {α : Type} {x : α} {below pushed rest : List α}
    (h : x :: below <:+ pushed ++ rest) (hx : x ∉ pushed) : x :: below <:+ rest := by
  induction pushed with
  | nil => exact h
  | cons y pushed ih =>
      rcases List.suffix_cons_iff.1 h with heq | hsuffix
      · obtain ⟨rfl, -⟩ := List.cons.inj heq
        exact absurd List.mem_cons_self hx
      · exact ih hsuffix fun hmem => hx (List.mem_cons_of_mem _ hmem)

/-- The guard of a registration is set up where the registration is performed. -/
theorem Thread.Turning.guarding {thread : Thread H} {t : ThreadId} {heap : Heap H.Data H.Fn}
    {state state' : H.State} {rest : List (Return H)} {turn : Turn H} {id : HandoffId}
    (h : thread.Turning t heap state state' rest turn) (hguards : id ∈ turn.guards) :
    ∃ register, thread.control = .run (.perform (.register register id)) ∧ rest = thread.stack ∧
      turn.pushed = [.guarding id register] ∧ turn.born = none := by
  cases h with
  | move => simp [Move.turn_guards] at hguards
  | ret => simp [Return.resume_guards] at hguards
  | raise => simp [Return.unwind_guards] at hguards
  | @task name task stack =>
      rw [Task.turn_guards] at hguards
      unfold Task.guards at hguards
      split at hguards
      · obtain rfl := List.mem_singleton.1 hguards
        exact ⟨_, rfl, rfl, rfl, rfl⟩
      · simp at hguards

namespace Run

variable {r : Run H} {n m k : Nat} {t : ThreadId} {name : Option String} {id : HandoffId}
  {payload : Payload} {register : Register H.Fn} {stack : List (Return H)}
  {work : Work H.Data H.Fn}

/-- The guard of a registration is directly above the one who performs the registration. -/
theorem performs_of_guarding (hstart : (r.world 0).Starting) {thread : Thread H}
    {below : List (Return H)} (ht : (r.world n).threads[t]? = some thread)
    (hstack : .guarding id register :: below <:+ thread.stack) :
    ∃ back rest, below = back :: rest ∧ r.Performs n (.register register id) back := by
  induction n generalizing t thread with
  | zero =>
      obtain ⟨name, code, rfl⟩ := hstart.threads t thread ht
      simp [Thread.starting] at hstack
  | succ n ih =>
      have hbefore {t₀ : ThreadId} {before : Thread H}
          (ht₀ : (r.world n).threads[t₀]? = some before)
          (hstack : .guarding id register :: below <:+ before.stack) :
          ∃ back rest, below = back :: rest ∧ r.Performs (n + 1) (.register register id) back := by
        obtain ⟨back, rest, hbelow, hperforms⟩ := ih ht₀ hstack
        exact ⟨back, rest, hbelow, hperforms.le (Nat.le_succ n)⟩
      cases (r.ordered n).becomes (r.step n) ht with
      | waits ht₀ hsame => exact hbefore ht₀ (hsame ▸ hstack)
      | @acts before state rest turn haction ht₀ hturn heq =>
          subst heq
          rw [Thread.stack_heard] at hstack
          by_cases hmem : .guarding id register ∈ turn.pushed
          · have hguards : id ∈ turn.guards :=
              List.mem_filterMap.2 ⟨_, List.mem_append_left _ hmem, rfl⟩
            obtain ⟨register', hcontrol, rfl, hpushed, -⟩ := (Thread.turning hturn).guarding hguards
            rw [hpushed] at hstack hmem
            obtain ⟨-, rfl⟩ := Return.guarding.inj (List.mem_singleton.1 hmem)
            rcases List.suffix_cons_iff.1 hstack with heq | hsuffix
            · obtain ⟨-, rfl⟩ := List.cons.inj heq
              obtain ⟨name, control, stack⟩ := before
              obtain rfl : control = _ := hcontrol
              obtain ⟨back, rest, hbelow, hperforms⟩ := exists_performer hstart ht₀
              exact ⟨back, rest, hbelow, hperforms.le (Nat.le_succ n)⟩
            · exact hbefore ht₀ hsuffix
          · exact hbefore ht₀ ((suffix_of_append hstack hmem).trans (Thread.turning hturn).suffix)
      | @starts t₀ before state rest turn haction ht₀ hturn hborn =>
          have hguards : id ∈ turn.guards := by
            refine List.mem_filterMap.2 ⟨.guarding id register, List.mem_append_right _ ?_, rfl⟩
            simpa [hborn] using hstack.subset List.mem_cons_self
          obtain ⟨-, -, -, -, hnone⟩ := (Thread.turning hturn).guarding hguards
          rw [hnone] at hborn
          contradiction

/-- The boundary of a node's scheduler performs the registration, unless the host hands it in. -/
theorem Performs.eq_guarded {back : Return H} {t₀ : ThreadId} {register' : Register H.Fn}
    {s : SchedulerId} (hstart : (r.world 0).Starting)
    (h : r.Performs n (.register register id) back) (hcomes : r.ComesTo k t₀ register' s id)
    (hrequest : ∀ m t q register, r.Does m t (.request q) →
      q.work? ≠ some (.register register id)) :
    back = .guarded s := by
  cases h with
  | host _ hdoes => exact absurd rfl (hrequest _ _ _ _ hdoes)
  | boundary _ hdoes =>
      obtain ⟨m, t, task, -, hdoes', hhands⟩ := hdoes.has.exists_does hstart trivial
      cases hhands with
      | minor hminor => exact hminor.elim
      | suspend hstep =>
          obtain ⟨-, -, -, rfl⟩ := ComesTo.unique hcomes ⟨_, _, _, _, hdoes', hstep, rfl⟩
          rfl
      | request hhands =>
          cases hhands with
          | submit => exact absurd rfl (hrequest _ _ _ _ hdoes')

/-- From time `n` until time `m` thread `t` offers a panic to node `id` for the guard of its
registration. -/
def IsOffering (r : Run H) (n m : Nat) (t : ThreadId) (id : HandoffId) (payload : Payload)
    (stack : List (Return H)) : Prop :=
  n < m ∧ ∀ j, n < j → j ≤ m → ∃ name control,
    (r.world j).threads[t]? = some ⟨name, control, stack⟩ ∧ control.Offers id payload

/-- The offer of a guard goes on, or is accepted or rejected when it is made. -/
theorem offers_next {control : Control H}
    (hhandoff : ∃ handoff, (r.world n).heap.handoffs[id]? = some handoff)
    (ht : (r.world n).threads[t]? = some ⟨name, control, stack⟩)
    (hoffers : control.Offers id payload) :
    (∃ control', (r.world (n + 1)).threads[t]? = some ⟨name, control', stack⟩ ∧
        control'.Offers id payload) ∨
      r.Accepts n t id (.panicked payload) ∨
        r.Rejects n t id (.panicked payload) .registration := by
  cases hoffers with
  | asleep =>
      rcases (r.ordered n).thread_of_gate (r.step n) ht with hsame | hwoken
      · exact .inl ⟨_, hsame, .asleep⟩
      · exact .inl ⟨_, hwoken, .awake⟩
  | awake =>
      rcases next_of_turn ht rfl with ⟨-, hsame⟩ | ⟨haction, -, hnext⟩
      · exact .inl ⟨_, hsame, .awake⟩
      obtain ⟨handoff, hhandoff⟩ := hhandoff
      have hoffer : r.Offers n t id (.panicked payload) .registration := ⟨haction, name, stack, ht⟩
      rcases hresult : handoff.offer t (.panicked payload) with ⟨handoff', offer⟩
      cases offer with
      | waiting =>
          simp only [Task.turn, Task.deliverTurn, hhandoff, hresult] at hnext
          exact .inl ⟨_, hnext, .asleep⟩
      | kept => exact .inr (.inl ⟨_, _, hoffer, hhandoff, by simp [hresult, Offer.IsAccepted]⟩)
      | accepted frames finish =>
          exact .inr (.inl ⟨_, _, hoffer, hhandoff, by simp [hresult, Offer.IsAccepted]⟩)
      | rejected => exact .inr (.inr ⟨hoffer, _, hhandoff, by simp [hresult]⟩)

/-- When the offer of a guard is accepted, its call returns, or its thread goes on with the stack
that has been parked. -/
theorem Accepts.next_of_offers {control : Control H} (h : r.Accepts n t id (.panicked payload))
    (ht : (r.world n).threads[t]? = some ⟨name, control, stack⟩) :
    (r.world (n + 1)).threads[t]? = some ⟨name, .ret .unit, stack⟩ ∨
      ∃ frames finish, (r.world n).At id (· = .parked frames finish) ∧
        (r.world (n + 1)).threads[t]? =
          some ⟨name, .run (.resume (.panicked payload) frames finish), stack⟩ := by
  obtain ⟨origin, ⟨s, phase⟩, ⟨haction, name', stack', ht'⟩, hhandoff, haccepted⟩ := h
  obtain ⟨rfl, rfl, rfl⟩ := Thread.mk.inj (Option.some.inj (ht'.symm.trans ht))
  obtain ⟨-, hnext⟩ := next_of_action haction ht rfl
  cases phase with
  | submitting =>
      by_cases hs : t = s
      · simp only [Task.turn, Task.deliverTurn, hhandoff, Handoff.offer, if_pos hs] at hnext
        exact .inl hnext
      · simp [Handoff.offer, hs, Offer.IsAccepted] at haccepted
  | parked frames finish =>
      simp only [Task.turn, Task.deliverTurn, hhandoff, Handoff.offer] at hnext
      exact .inr ⟨frames, finish, ⟨_, hhandoff, rfl⟩, hnext⟩
  | early exit => exact haccepted.elim
  | resumed => exact haccepted.elim

/-- When the offer of a guard is rejected, the guard panics with it. -/
theorem Rejects.next_of_offers {control : Control H}
    (h : r.Rejects n t id (.panicked payload) .registration)
    (ht : (r.world n).threads[t]? = some ⟨name, control, stack⟩) :
    (r.world (n + 1)).threads[t]? = some ⟨name, .raise payload, stack⟩ := by
  obtain ⟨⟨haction, name', stack', ht'⟩, handoff, hhandoff, hrejected⟩ := h
  obtain ⟨rfl, rfl, rfl⟩ := Thread.mk.inj (Option.some.inj (ht'.symm.trans ht))
  obtain ⟨-, hnext⟩ := next_of_action haction ht rfl
  rcases hresult : handoff.offer t (.panicked payload) with ⟨handoff', offer⟩
  simp only [hresult] at hrejected
  subst hrejected
  simp only [Task.turn, Task.deliverTurn, hhandoff, hresult] at hnext
  exact hnext

/-- What is offered once more has been neither accepted nor rejected. -/
theorem IsOffering.not_decided (h : r.IsOffering n m t id payload stack) (hnk : n < k)
    (hkm : k < m) : ¬r.Accepts k t id (.panicked payload) ∧
      ¬r.Rejects k t id (.panicked payload) .registration := by
  obtain ⟨name, control, ht, -⟩ := h.2 k hnk (Nat.le_of_lt hkm)
  obtain ⟨name', control', ht', hoffers⟩ := h.2 (k + 1) (Nat.lt_succ_of_lt hnk) hkm
  constructor
  · intro haccepts
    rcases haccepts.next_of_offers ht with hret | ⟨frames, finish, -, hresume⟩
    · obtain ⟨-, rfl, -⟩ := Thread.mk.inj (Option.some.inj (hret.symm.trans ht'))
      cases hoffers
    · obtain ⟨-, rfl, -⟩ := Thread.mk.inj (Option.some.inj (hresume.symm.trans ht'))
      cases hoffers
  · intro hrejects
    obtain ⟨-, rfl, -⟩ := Thread.mk.inj
      (Option.some.inj ((hrejects.next_of_offers ht).symm.trans ht'))
    cases hoffers

/-- No exit but the guard's own panic is offered by its thread meanwhile. -/
theorem IsOffering.exit_eq {exit : Exit (Outcome H.Data H.Fn)}
    (h : r.IsOffering n m t id payload stack) (hnk : n < k) (hkm : k ≤ m)
    (haccepts : r.Accepts k t id exit) : exit = .panicked payload := by
  obtain ⟨name, control, ht, hoffers⟩ := h.2 k hnk hkm
  obtain ⟨origin, handoff, ⟨-, name', stack', ht'⟩, -, -⟩ := haccepts
  obtain ⟨-, rfl, -⟩ := Thread.mk.inj (Option.some.inj (ht'.symm.trans ht))
  cases hoffers
  rfl

theorem Rejects.not_accepts {exit : Exit (Outcome H.Data H.Fn)} {origin : Origin}
    (h : r.Rejects n t id exit origin) : ¬r.Accepts n t id exit := by
  rintro ⟨origin', handoff', -, hhandoff', haccepted⟩
  obtain ⟨-, handoff, hhandoff, hrejected⟩ := h
  obtain rfl := Option.some.inj (hhandoff.symm.trans hhandoff')
  rw [hrejected] at haccepted
  exact haccepted

/-- A guard goes on offering its panic until the offer is accepted or rejected. -/
theorem isOffering_or_decided
    (hhandoff : ∀ j, n < j → ∃ handoff, (r.world j).heap.handoffs[id]? = some handoff)
    (hfirst : (r.world (n + 1)).threads[t]? =
      some ⟨name, .run (.deliver id (.panicked payload) .registration), stack⟩) (hnm : n < m) :
    r.IsOffering n m t id payload stack ∨ ∃ k, k < m ∧ r.IsOffering n k t id payload stack ∧
      (r.Accepts k t id (.panicked payload) ∨
        r.Rejects k t id (.panicked payload) .registration) := by
  induction hnm with
  | refl =>
      refine .inl ⟨Nat.lt_succ_self n, fun j hj hjm => ?_⟩
      obtain rfl := Nat.le_antisymm hjm hj
      exact ⟨name, _, hfirst, .awake⟩
  | @step m hnm ih =>
      rcases ih with hoffering | ⟨k, hkm, hdecided⟩
      · obtain ⟨name', control, ht, hoffers⟩ := hoffering.2 m hnm (Nat.le_refl m)
        rcases offers_next (hhandoff m hnm) ht hoffers with ⟨control', ht', hoffers'⟩ | hdecided
        · refine .inl ⟨Nat.lt_succ_of_lt hnm, fun j hj hjm => ?_⟩
          rcases Nat.le_succ_iff.1 hjm with hle | rfl
          · exact hoffering.2 j hj hle
          · exact ⟨name', control', ht', hoffers'⟩
        · exact .inr ⟨m, Nat.lt_succ_self m, hoffering, hdecided⟩
      · exact .inr ⟨k, Nat.lt_succ_of_lt hkm, hdecided⟩

/-- The offer that the guard of a registration has made since time `n` is accepted at time `m`. -/
structure IsTaken (r : Run H) (b : Nat) (p : Place) (finish : Finish H.Fn) (id : HandoffId)
    (payload : Payload) (n m : Nat) (t : ThreadId) (stack : List (Return H)) : Prop where
  offering : r.IsOffering n m t id payload stack
  accepts : r.Accepts m t id (.panicked payload)
  /-- The panic is the node's exit, and no other exit is accepted. -/
  exit {k : Nat} {t' : ThreadId} {exit' : Exit (Outcome H.Data H.Fn)} :
    r.Accepts k t' id exit' → k = m ∧ t' = t ∧ exit' = .panicked payload
  /-- The interpretation that waits for the node ends with the panic. -/
  ends : r.Bypasses b p finish payload 0
  /-- The guard panics with nothing: it is done, or its thread goes on with the interpretation and
  hands the panic to the finisher. -/
  quiet :
    (∃ name, (r.world (m + 1)).threads[t]? = some ⟨name, .ret .unit, stack⟩) ∨
      ∃ name frames, (r.world (m + 1)).threads[t]? =
          some ⟨name, .run (.resume (.panicked payload) frames finish), stack⟩ ∧
        (r.Fair → ∃ j₁ j₂ j₃ refs, r.NextTurn t m j₁ ∧ r.NextTurn t j₁ j₂ ∧ r.NextTurn t j₂ j₃ ∧
          r.Turns j₃ t (.run (.conclude (.panicked payload) finish)) (.holding refs :: stack))

/-- The offer that the guard of a registration has made since time `n` is rejected at time `m`. -/
structure IsRethrown (r : Run H) (id : HandoffId) (payload : Payload) (n m : Nat) (t : ThreadId)
    (stack : List (Return H)) : Prop where
  offering : r.IsOffering n m t id payload stack
  rejects : r.Rejects m t id (.panicked payload) .registration
  /-- Another exit has been accepted before. -/
  other : ∃ k t' exit, k < m ∧ r.Accepts k t' id exit ∧ (n < k → t' ≠ t)
  raises : ∃ name, (r.world (m + 1)).threads[t]? = some ⟨name, .raise payload, stack⟩

/-- The panic with which thread `t` comes back to the guard of the registration of node `id` at time
`n` is accounted for. An interpretation with this finisher waits for the node at `p` at time `b`. -/
structure Accounts (r : Run H) (b : Nat) (p : Place) (finish : Finish H.Fn) (id : HandoffId)
    (register : Register H.Fn) (payload : Payload) (n : Nat) (t : ThreadId)
    (stack : List (Return H)) : Prop where
  /-- The guard still offers the panic to the node, or its offer has been accepted or rejected. -/
  decided {m : Nat} : n < m → r.IsOffering n m t id payload (register.onto stack) ∨
    ∃ k, k < m ∧ (r.IsTaken b p finish id payload n k t (register.onto stack) ∨
      r.IsRethrown id payload n k t (register.onto stack))
  exclusive {k k' : Nat} : r.IsTaken b p finish id payload n k t (register.onto stack) →
    ¬r.IsRethrown id payload n k' t (register.onto stack)
  /-- Whatever panic the guard ends with comes out of the work unchanged, -/
  escapes {m : Nat} {name : Option String} {q : Payload} : r.Fair →
    (r.world m).threads[t]? = some ⟨name, .raise q, register.onto stack⟩ →
      ∃ j k, m ≤ j ∧ r.Turns j t (.raise q) (register.onto stack) ∧ r.NextTurn t j k ∧
        r.Turns k t (.raise q) stack
  /-- and is reported once to the scheduler within whose boundary the work is performed, -/
  reported {m : Nat} {s : SchedulerId} {rest : List (Return H)} {q : Payload} : r.Fair →
    stack = .guarded s :: rest → r.Turns m t (.raise q) stack →
      r.ReportsOnce m t s (.ofPanic ((r.world m).heap.reportName s) q) rest
  /-- or told to the host code that performs it. -/
  told {m : Nat} {code : H.Code} {rest : List (Return H)} {q : Payload} : r.Fair →
    stack = .user code :: rest → r.Turns m t (.raise q) stack →
      ∃ k, r.NextTurn t m k ∧ r.Turns k t (.run (.user code (.raised q))) rest
  performer : ∃ back rest, stack = back :: rest ∧ r.Performs n (.register register id) back
  /-- The host performs the work only if it hands it in, and the scheduler is the node's one
  otherwise. -/
  scheduler {k : Nat} {t₀ : ThreadId} {register' : Register H.Fn} {s : SchedulerId} :
    r.ComesTo k t₀ register' s id →
      (∀ m t q register, r.Does m t (.request q) → q.work? ≠ some (.register register id)) →
        ∃ rest, stack = .guarded s :: rest

section Account

variable {b : Nat} {p : Place} {finish : Finish H.Fn} {frames : List (Frame H.Data H.Fn)}

theorem IsOffering.isTaken (hstart : (r.world 0).Starting)
    (hp : (r.world b).pendingAt p = some (.submitting id frames, finish))
    (h : r.IsOffering n m t id payload stack) (haccepts : r.Accepts m t id (.panicked payload)) :
    r.IsTaken b p finish id payload n m t stack where
  offering := h
  accepts := haccepts
  exit h' := h'.unique haccepts
  ends := by
    have hstage : r.stage b p 0 = some (.submitting id frames) :=
      (r.stage_eq_some hp).2 ⟨p, rfl, hp⟩
    exact (Panicking.registered hstage rfl haccepts).bypasses hstart hp
  quiet := by
    obtain ⟨name, control, ht, -⟩ := h.2 m h.1 (Nat.le_refl m)
    rcases haccepts.next_of_offers ht with hret |
      ⟨frames', finish', ⟨⟨s, phase⟩, hhandoff, rfl⟩, hresume⟩
    · exact .inl ⟨name, hret⟩
    have hparked : (r.world m).pendingAt (.handoff id) = some (.parked id frames', finish') := by
      simp [World.pendingAt, Heap.pendingAt, hhandoff, Handoff.pending?]
    obtain ⟨k, -, hsuspends⟩ := exists_suspends hp rfl rfl
    obtain ⟨k', -, hsuspends'⟩ := exists_suspends hparked rfl rfl
    obtain ⟨-, -, rfl⟩ := hsuspends.unique hsuspends'
    refine .inr ⟨name, frames', hresume, fun hfair => ?_⟩
    obtain ⟨origin, handoff, ⟨haction, -⟩, -, -⟩ := haccepts
    obtain ⟨j₁, hnext₁, ht₁⟩ := hfair.exists_nextTurn haction hresume trivial
    obtain ⟨j₂, hnext₂, hturns₂⟩ := hfair.exists_turns ⟨hnext₁.next, name, ht₁⟩
      (fun name => ⟨_, _, _, rfl, rfl, rfl⟩) fun name => trivial
    obtain ⟨j₃, hnext₃, hturns₃⟩ := hfair.exists_turns hturns₂
      (fun name => ⟨_, _, _, rfl, rfl, rfl⟩) fun name => trivial
    exact ⟨j₁, j₂, j₃, _, hnext₁, hnext₂, hnext₃, hturns₃⟩

theorem IsOffering.isRethrown (h : r.IsOffering n m t id payload stack)
    (hrejects : r.Rejects m t id (.panicked payload) .registration) :
    r.IsRethrown id payload n m t stack where
  offering := h
  rejects := hrejects
  other := by
    have hexit : (r.world m).At id Phase.HasExit := by
      obtain ⟨-, ⟨s, phase⟩, hhandoff, hrejected⟩ := hrejects
      refine ⟨_, hhandoff, ?_⟩
      cases phase with
      | submitting =>
          by_cases hs : t = s <;> simp [Handoff.offer, hs] at hrejected
      | parked frames finish => simp [Handoff.offer] at hrejected
      | early exit => trivial
      | resumed => trivial
    obtain ⟨k, t', exit, hk, haccepts⟩ := exists_accepts_of_hasExit hexit
    refine ⟨k, t', exit, hk, haccepts, ?_⟩
    rintro hnk rfl
    obtain rfl := h.exit_eq hnk (Nat.le_of_lt hk) haccepts
    exact (h.not_decided hnk hk).1 haccepts
  raises := by
    obtain ⟨name, control, ht, -⟩ := h.2 m h.1 (Nat.le_refl m)
    exact ⟨name, hrejects.next_of_offers ht⟩

/-- The panic of a registration is the exit of its node, or comes out of the work unchanged, and
never both: whatever the order of the threads is. -/
theorem accounts (hstart : (r.world 0).Starting)
    (hp : (r.world b).pendingAt p = some (.submitting id frames, finish)) (hbn : b ≤ n)
    (h : r.Turns n t (.raise payload) (.guarding id register :: stack)) :
    r.Accounts b p finish id register payload n t stack where
  decided {m} hnm := by
    obtain ⟨haction, name, ht⟩ := h
    have hfirst : (r.world (n + 1)).threads[t]? =
        some ⟨name, .run (.deliver id (.panicked payload) .registration), register.onto stack⟩ := by
      rcases next_of_turn ht rfl with ⟨hother, -⟩ | ⟨-, -, hnext⟩
      · exact absurd haction hother
      · exact hnext
    obtain ⟨t', l, ⟨s, phase⟩, -, hhandoff, -⟩ := (r.sound b).parking p id ⟨_, _, hp, rfl⟩
    have hthere (j : Nat) (hj : n < j) :
        ∃ handoff, (r.world j).heap.handoffs[id]? = some handoff := by
      obtain ⟨phase', hhandoff'⟩ := handoff_le hhandoff (Nat.le_trans hbn (Nat.le_of_lt hj))
      exact ⟨_, hhandoff'⟩
    rcases isOffering_or_decided hthere hfirst hnm with
      hoffering | ⟨k, hk, hoffering, haccepts | hrejects⟩
    · exact .inl hoffering
    · exact .inr ⟨k, hk, .inl (hoffering.isTaken hstart hp haccepts)⟩
    · exact .inr ⟨k, hk, .inr (hoffering.isRethrown hrejects)⟩
  exclusive {k k'} htaken hrethrown := by
    rcases Nat.lt_trichotomy k k' with hlt | rfl | hlt
    · exact (hrethrown.offering.not_decided htaken.offering.1 hlt).1 htaken.accepts
    · exact hrethrown.rejects.not_accepts htaken.accepts
    · exact (htaken.offering.not_decided hrethrown.offering.1 hlt).2 hrethrown.rejects
  escapes {m name q} hfair ht := by
    obtain ⟨j, hj, haction, -, ht'⟩ := hfair.exists_first ht (List.cons_ne_nil _ _)
    obtain ⟨back, rest, rfl, -⟩ := performs_of_guarding hstart h.2.choose_spec List.suffix_rfl
    obtain ⟨k, hnext, hturns⟩ := hfair.exists_turns ⟨haction, name, ht'⟩
      (fun name => ⟨_, _, _, rfl, rfl, rfl⟩) fun name => List.cons_ne_nil _ _
    exact ⟨j, k, hj, ⟨haction, name, ht'⟩, hnext, hturns⟩
  reported hfair hstack hturns := hfair.reports_escaped (hstack ▸ hturns)
  told hfair hstack hturns := hfair.exists_turns (hstack ▸ hturns)
    (fun name => ⟨_, _, _, rfl, rfl, rfl⟩) fun name => trivial
  performer := performs_of_guarding hstart h.2.choose_spec List.suffix_rfl
  scheduler hcomes hrequest := by
    obtain ⟨back, rest, rfl, hperforms⟩ :=
      performs_of_guarding hstart h.2.choose_spec List.suffix_rfl
    rw [hperforms.eq_guarded hstart hcomes hrequest]
    exact ⟨rest, rfl⟩

end Account

end Run

namespace Drill

/-- The registration completes its own callback, and panics then. -/
def belated : Script
  | 0 => [.ask (.runBlocking .unit .unit (.async (.user .unit .unit ⟨2, ∅⟩) immediateId))]
  | 2 => [.ask (.complete (.node 0) (.ok .unit)), .raise (.text "late")]
  | _ => []

def late : Run (host belated) := run belated [] (1 :: List.replicate 30 0)

set_option maxRecDepth 4000 in
/-- The panic comes after the node has got its exit, so it is reported to the scheduler. -/
theorem late_accounts : ∃ register rest,
    late.Turns 17 0 (.raise (.text "late"))
        (.guarding 0 register :: .guarded immediateId :: rest) ∧
      (∃ k, late.IsRethrown 0 (.text "late") 17 k 0
        (register.onto (.guarded immediateId :: rest))) ∧
        (∀ k, ¬late.IsTaken 4 (.thread 0 2) (.channel .unit .unit 0) 0 (.text "late") 17 k 0
          (register.onto (.guarded immediateId :: rest))) ∧
          late.ReportsOnce 20 0 immediateId ⟨"immediate", "late"⟩ rest := by
  obtain ⟨register, rest, hturns, hraises, hboundary⟩ : ∃ register rest,
      late.Turns 17 0 (.raise (.text "late"))
          (.guarding 0 register :: .guarded immediateId :: rest) ∧
        (late.world 19).threads[0]? = some ⟨none, .raise (.text "late"),
            register.onto (.guarded immediateId :: rest)⟩ ∧
          late.Turns 20 0 (.raise (.text "late")) (.guarded immediateId :: rest) :=
    ⟨_, _, ⟨rfl, _, rfl⟩, rfl, ⟨rfl, _, rfl⟩⟩
  have haccounts : late.Accounts 4 (.thread 0 2) (.channel .unit .unit 0) 0 register (.text "late")
      17 0 (.guarded immediateId :: rest) :=
    Run.accounts (start_starting belated []) rfl (by decide) hturns
  have hrethrown : ∃ k, late.IsRethrown 0 (.text "late") 17 k 0
      (register.onto (.guarded immediateId :: rest)) := by
    rcases haccounts.decided (m := 19) (by decide) with hoffering | ⟨k, hk, htaken | hrethrown⟩
    · obtain ⟨name, control, ht, hoffers⟩ := hoffering.2 19 (by decide) (Nat.le_refl _)
      obtain ⟨-, rfl, -⟩ := Thread.mk.inj (Option.some.inj (hraises.symm.trans ht))
      cases hoffers
    · have hbefore := htaken.offering.1
      obtain rfl : k = 18 := by omega
      rcases htaken.quiet with ⟨name, ht⟩ | ⟨name, frames, ht, -⟩
      · cases hraises.symm.trans ht
      · cases hraises.symm.trans ht
    · exact ⟨k, hrethrown⟩
  have hfair : late.Fair := Run.fair_ofList (by decide)
  refine ⟨register, rest, hturns, hrethrown, fun k htaken => ?_, ?_⟩
  · obtain ⟨k', hrethrown⟩ := hrethrown
    exact haccounts.exclusive htaken hrethrown
  · exact haccounts.reported hfair rfl hboundary

end Drill

end Trampoline
