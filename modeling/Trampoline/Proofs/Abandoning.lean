import Trampoline.Proofs.Drill
import Trampoline.Proofs.Hanging

/-!
Dropped callbacks. A caller that blocks for the exit of an effect, or the next poll of its future,
warns exactly when the interpretation has been forsaken, once, and is never answered; and there are
no other warnings.
-/

namespace Trampoline

variable {H : Host} {warning : Event}

/-- Whether a task waits for an exit, or warns that it cannot come. -/
def Task.IsWait (warning : Event) (task : Task H) : Prop :=
  (∃ value error id, task = .receive value error id warning) ∨ task = .lost warning

section Turns

variable {heap : Heap H.Data H.Fn} {here : Here} {stack : List (Return H)}

/-- A request that makes its caller wait for an exit blocks for it, or drives a future. -/
theorem Request.leadsTo_wait {thread : Thread H} {Q : List (Return H) → Prop}
    {q : Request H.Data H.Fn} (hq : q.Expects)
    (hblocks : ∀ value error node, q = .runBlocking value error node →
      warning = .blockedForever → Q stack)
    (hdrives : ∀ value error node, q = .blockOn value error node → warning = .pendingForever →
      stack.any Return.isDriving = false → Q (.driving :: stack)) :
    thread.LeadsTo (Task.IsWait warning) Q stack (q.turn stack heap) := by
  cases q with
  | runBlocking value error node =>
      by_cases hwarning : warning = .blockedForever
      · exact .later rfl (by simp) (by simp [turn, Turn.seq, Turn.call, Control.held, Task.IsWait])
          rfl (hblocks value error node rfl hwarning)
      · refine .nowhere ?_
        simp [turn, Turn.seq, Turn.call, Turn.held, Control.held, Return.held, Task.IsWait,
          eq_comm (b := warning), hwarning]
  | blockOn value error node =>
      simp only [turn]
      split
      · exact .nowhere (by simp [Turn.raise, Turn.held, Control.held])
      · rename_i hdriving
        by_cases hwarning : warning = .pendingForever
        · exact .later rfl (by simp [Return.held]) (by simp [Control.held, Task.IsWait]) rfl
            (hdrives value error node rfl hwarning (by simpa using hdriving))
        · refine .nowhere ?_
          simp [Turn.held, Control.held, Return.held, Task.IsWait, eq_comm (b := warning), hwarning]
  | poll value error future =>
      simp only [turn]
      split
      all_goals exact .nowhere (by simp [Turn.call, Turn.run, Turn.ret, Turn.raise, Turn.held,
        Control.held, Return.held, Task.IsWait])
  | _ => exact hq.elim

theorem Task.turn_not_isWait {task : Task H} (hexpects : task.Expects)
    (hwait : ¬task.IsWait warning) :
    ∀ task' ∈ (task.turn here stack heap).held, ¬task'.IsWait warning := by
  cases task with
  | receive =>
      simp only [turn]
      split <;> simp_all [Turn.ret, Turn.raise, Turn.sleep, Turn.held, Control.held, IsWait]
  | lost => simp [turn, Turn.sleep, Turn.held, Control.held, IsWait]
  | collect =>
      simp only [turn]
      split <;> simp [Turn.ret, Turn.raise, Turn.sleep, Turn.held, Control.held, IsWait]
  | hang =>
      simp only [turn]
      split <;> simp [Turn.run, Turn.ret, Turn.held, Control.held, IsWait]
  | _ => exact hexpects.elim

/-- The tasks that record a warning are those of callers whose exit cannot come. -/
theorem Task.of_warning {t : ThreadId} {task : Task H} (hcandid : task.IsCandid)
    (hwarning : warning.IsWarning) (h : warning ∈ task.traces t heap) : task = .lost warning ∨
      ∃ value error future id, task = .hang value error future id ∧ warning = .pendingForever ∧
        heap.received? id = none := by
  cases task with
  | lost event => exact .inl (congrArg _ (List.mem_singleton.1 h).symm)
  | hang value error future id =>
      simp only [traces] at h
      split at h
      · contradiction
      · rename_i hreceived
        exact .inr ⟨_, _, _, _, rfl, List.mem_singleton.1 h, by simpa using hreceived⟩
  | answer question =>
      have heffect := hcandid warning (by simpa [traces] using h)
      cases hwarning <;> cases heffect
  | conclude exit finish =>
      cases exit <;> cases finish <;> simp only [traces, List.not_mem_nil, List.mem_singleton] at h
      subst h
      cases hwarning
  | notify id v subscribers first =>
      cases subscribers <;> cases first <;>
        simp only [traces, List.not_mem_nil, List.mem_singleton] at h
      subst h
      cases hwarning
  | _ =>
      simp only [traces] at h
      repeat' split at h
      all_goals first
        | contradiction
        | (cases List.mem_singleton.1 h; cases hwarning)

end Turns

namespace Run

variable {r : Run H} {n : Nat} {t : ThreadId} {thread : Thread H} {stack : List (Return H)}
  {event : Event}

/-- A thread that waits for an exit has made a call that blocks for it. -/
theorem exists_blocks (hstart : (r.world 0).Starting)
    (ht : (r.world n).threads[t]? = some thread) (h : thread.Minds (Task.IsWait warning) stack) :
    ∃ k, k < n ∧ (∃ value error node, r.Blocks k t value error node warning stack) ∧
      ∀ j, k < j → j ≤ n → r.IsAbove j t stack := by
  refine exists_leads hstart (P := Task.IsWait warning)
    (Q := fun k t stack => ∃ value error node, r.Blocks k t value error node warning stack)
    (by simp [Task.IsWait]) (fun k t before state rest turn haction ht hturn => ?_) ht h
  refine (Thread.turning hturn).leadsTo ?_ (fun name q hbefore hq => ?_)
    fun _ _ _ => Task.turn_not_isWait
  · rintro task (⟨_, _, _, rfl⟩ | rfl) <;> trivial
  · subst hbefore
    refine Request.leadsTo_wait hq ?_ ?_
    · rintro value error node rfl rfl
      exact ⟨value, error, node, .calls ⟨haction, name, ht⟩⟩
    · rintro value error node rfl rfl hdriving
      exact ⟨value, error, node, .drives ⟨haction, name, ht⟩ hdriving⟩

/-- Whoever warns that an exit cannot come is a call that blocks for it, or a poll of a future. -/
theorem exists_warnsFor_or_hangsFor (hstart : (r.world 0).Starting) (h : event ∈ r.traced n)
    (hwarning : event.IsWarning) :
    (∃ k t value error node stack, r.Blocks k t value error node event stack ∧
      r.WarnsFor k n t event stack) ∨
    event = .pendingForever ∧ ∃ k t value error future id stack,
      r.HangsFor k n t value error future id stack := by
  have hdoes : ∃ t task, r.Does n t task := by
    by_contra hnone
    rw [traced_of_not_does fun t task hdoes => hnone ⟨t, task, hdoes⟩] at h
    contradiction
  obtain ⟨t, task, hdoes⟩ := hdoes
  have hcandid := hdoes.isCandid hstart
  rw [hdoes.traced] at h
  obtain ⟨haction, name, stack, ht⟩ := hdoes
  rcases Task.of_warning hcandid hwarning h with rfl | ⟨_, _, _, _, rfl, rfl, hreceived⟩
  · have hwaits : Task.IsWait event (.lost event : Task H) := .inr rfl
    obtain ⟨k, hkn, ⟨_, _, _, hblocks⟩, habove⟩ := exists_blocks hstart ht
      (.inr ⟨rfl, _, List.mem_singleton_self _, hwaits⟩)
    exact .inl ⟨k, t, _, _, _, stack, hblocks, hkn, habove, haction, name, ht⟩
  · obtain ⟨k, hpolling⟩ := (hasPolled hstart ht).held (List.mem_singleton_self _) (.inr rfl)
    exact .inr ⟨rfl, k, t, _, _, _, _, stack, hpolling, ⟨haction, name, ht⟩, hreceived⟩

/-- Who warns in a run that the exit of an effect cannot come any more, and when. -/
structure WarnsOfLoss (r : Run H) : Prop where
  /-- A call that blocks for the exit of an effect does, -/
  calls {k : Nat} {t : ThreadId} {value error : Ty} {node : Node H.Data H.Fn} {warning : Event}
      {stack : List (Return H)} : r.Blocks k t value error node warning stack →
    r.IsTyped ∨ r.EndsTyped (k + 1) (.thread t (stack.length + 1)) value error →
      r.IsWarned k t warning stack (.thread t (stack.length + 1))
  /-- and so does a poll of a future. -/
  polls {m k : Nat} {t : ThreadId} {value error : Ty} {node : Node H.Data H.Fn} {future : FutureId}
      {id : ChannelId} {stack : List (Return H)} :
    r.PollsFirst m k t value error node future id stack → r.PollsAt value error future →
      r.PollsAlone value error future id →
        r.IsTyped ∨ r.EndsTyped (k + 1) (.thread t (stack.length + 1)) value error →
          r.PollsWarned k value error future id (.thread t (stack.length + 1))
  /-- Nobody else does, whatever becomes of an exit. -/
  only {n : Nat} {event : Event} : event ∈ r.traced n → event.IsWarning →
    (∃ k t value error node stack, r.Blocks k t value error node event stack ∧
      r.WarnsFor k n t event stack) ∨
    event = .pendingForever ∧ ∃ k t value error future id stack,
      r.HangsFor k n t value error future id stack
  /-- Whatever is to become of the exit of an interpretation, the interpretation stays as it is when
  it has been forsaken. -/
  stays {b : Nat} {p : Place} {x : Pending H.Data H.Fn} : (r.world b).pendingAt p = some x →
    r.StaysForsaken b p

/-- Effects that have dropped their callback without completing are warned of. -/
theorem IsHonest.warnsOfLoss (hhonest : r.IsHonest) (hstart : (r.world 0).Starting) :
    r.WarnsOfLoss where
  calls hblocks htyped := by
    refine hblocks.isWarned hhonest hstart ?_
    rcases htyped with htyped | htyped
    · exact htyped.endsTyped (hblocks.calling hstart).1
    · exact htyped
  polls hfirst hpolled halone htyped := by
    refine hfirst.pollsWarned hhonest hstart hpolled halone ?_
    rcases htyped with htyped | htyped
    · exact htyped.endsTyped (hfirst.begins hstart).pendingAt
    · exact htyped
  only htraced hwarning := exists_warnsFor_or_hangsFor hstart htraced hwarning
  stays hp := hhonest.staysForsaken hp

end Run

namespace Drill

variable {script : Script} {more : List (Scheduler Nat)} {order : List ThreadId}

/-- What a line of a script names. -/
def Line.Names : Line → Ref → Prop
  | .ask q, x => q.Names x
  | .ret v, x => x ∈ v.kept
  | .raise _, _ => False
  | .echo, _ => False

theorem names_of_echo {reply : Reply Unit Nat} {x : Ref}
    (h : Move.Names (H := host script) (echo reply) x) : reply.Names x := by
  cases reply with
  | value v => exact h
  | _ => simp [echo, Move.Names, Value.kept] at h

theorem names_of_advance {f k : Nat} {reply : Reply Unit Nat} {x : Ref}
    (h : Move.Names (H := host script) (advance script f k reply) x) :
    (∃ line ∈ script f, line.Names x) ∨ reply.Names x := by
  have hnone : x ∉ (host script).codeRefs (f, k + 1) [] := List.not_mem_nil
  cases reply with
  | raised payload => exact h.elim
  | _ =>
      simp only [advance] at h
      split at h
      · rename_i q hline
        exact .inl ⟨_, List.mem_of_getElem? hline, h.resolve_right hnone⟩
      · rename_i v hline
        exact .inl ⟨_, List.mem_of_getElem? hline, h⟩
      · exact h.elim
      · exact .inr (names_of_echo h)
      · simp [Move.Names, Value.kept] at h

/-- A host that names no objects never gets hold of any. -/
theorem isHonest (hroots : (start script more).roots = [])
    (hscript : ∀ f, ∀ line ∈ script f, ∀ x, ¬line.Names x) :
    (run script more order).IsHonest where
  front := ⟨fun _ _ => rfl, fun _ _ => rfl⟩
  start := hroots
  honest n := by
    constructor
    · intro t name f args stack x _ _ hx
      cases hx
    · intro t name code reply stack state move x _ _ hadvance hx
      obtain ⟨-, rfl⟩ := Prod.mk.inj hadvance
      rcases names_of_advance (hx.resolve_left List.not_mem_nil) with ⟨line, hline, hnames⟩ | hreply
      · exact absurd hnames (hscript _ line hline x)
      · exact .here (.inr (.inr hreply))

/-- One thread blocks for the exit of a node. -/
def blocking (node : Node Unit Nat) : Script
  | 0 => [.ask (.runBlocking .unit .unit node)]
  | _ => []

theorem blocking_isHonest {node : Node Unit Nat} (hnode : ∀ x, x ∉ node.kept)
    (hroots : (start (blocking node) more).roots = []) :
    (run (blocking node) more order).IsHonest := by
  refine isHonest hroots fun f line hline x hx => ?_
  unfold blocking at hline
  split at hline
  · obtain rfl := List.mem_singleton.1 hline
    simp [Line.Names, Request.Names, Request.refs, hnode] at hx
  · contradiction

/-- The callback of the effect is dropped at once. -/
def forgotten : Run (host (blocking (Effect.never : Effect Unit Nat .unit .unit).node)) :=
  run (blocking _) [] (1 :: List.replicate 14 0)

set_option maxRecDepth 4000 in
/-- It is warned, and never comes back. -/
theorem forgotten_warnsOfLoss : forgotten.WarnsOfLoss ∧
    (∃ m, forgotten.WarnsFor 2 m 0 .blockedForever [.user (0, 1)] ∧
      forgotten.traced m = [.blockedForever]) ∧
    ∀ m, 2 < m → forgotten.IsAbove m 0 [.user (0, 1)] := by
  have hhonest : forgotten.IsHonest :=
    blocking_isHonest (fun x => by simp [Effect.never, Node.kept, Register.kept]) rfl
  have hwarns := hhonest.warnsOfLoss (start_starting _ [])
  have hblocks : forgotten.Blocks 2 0 .unit .unit Effect.never.node .blockedForever
      [.user (0, 1)] := .calls ⟨rfl, _, rfl⟩
  have hp : (forgotten.world 3).pendingAt (.thread 0 2) =
      some (.driving (.start Effect.never.node), .channel .unit .unit 0) := rfl
  have hdropped : (forgotten.world 11).heap.Dropped (forgotten.world 11).roots (.handoff 0) :=
    Heap.dropped_of_holders (by decide) (by decide)
  have hforsaken : forgotten.Forsaken 3 (.thread 0 2) 8 := .parked rfl hdropped
  have htyped : forgotten.EndsTyped 3 (.thread 0 2) .unit .unit :=
    fun _ _ hends => absurd hends ((hwarns.stays hp).endless hforsaken)
  have hwarned := hwarns.calls hblocks (.inr htyped)
  obtain ⟨⟨m, hm⟩, habove⟩ := hwarned.parked (n := 8) (Run.fair_ofList (by decide)) rfl hdropped
  exact ⟨hwarns, ⟨m, hm, hwarned.traced hm⟩, habove⟩

/-- An effect on a scheduler. -/
def scheduled : Node Unit Nat := (Effect.asyncOn 2 ⟨2, ∅⟩ : Effect Unit Nat .unit .unit).node

/-- No thread can be started on the scheduler. -/
def declined : Run (host (blocking scheduled)) :=
  run (blocking scheduled) [.ofThreads "a\x00b" none .log] (1 :: List.replicate 10 0)

/-- Whether a task delivers no exit to an async node. -/
def keepsExits : Task (host (blocking scheduled)) → Bool
  | .deliver _ _ _ => false
  | _ => true

set_option maxRecDepth 4000 in
/-- It comes back with the panic of the submission, and is not warned, although the callback has
been dropped with the work, and no exit is ever delivered. -/
theorem declined_not_warned :
    declined.Fair ∧
    declined.Blocks 2 0 .unit .unit scheduled .blockedForever [.user (0, 1)] ∧
    (declined.world 6).heap.Has (.handoff 0) ∧
    (declined.world 6).heap.Dropped (declined.world 6).roots (.handoff 0) ∧
    (∀ n t exit origin, ¬declined.Does n t (.deliver 0 exit origin)) ∧
    (∀ m, ¬declined.WarnsFor 2 m 0 .blockedForever [.user (0, 1)]) ∧
    ∃ m payload, declined.CallEnds 2 m 0 (.error payload) [.user (0, 1)] := by
  have hhonest : declined.IsHonest := blocking_isHonest
    (fun x => by simp [scheduled, Effect.asyncOn, Node.kept, Register.kept]) rfl
  have hfair : declined.Fair := Run.fair_ofList (by decide +kernel)
  have hstart : (declined.world 0).Starting := start_starting _ _
  have hblocks : declined.Blocks 2 0 .unit .unit scheduled .blockedForever [.user (0, 1)] :=
    .calls ⟨rfl, _, rfl⟩
  have hp : (declined.world 3).pendingAt (.thread 0 2) =
      some (.driving (.start scheduled), .channel .unit .unit 0) := rfl
  obtain ⟨payload, hpayload⟩ := refusal_of_nul
  obtain ⟨last, hsubmits⟩ : ∃ last, (declined.world 4).threads[0]? = some
      ⟨none, .run (.submit 2 (.register (.user .unit .unit ⟨(2 : Nat), ∅⟩) 0)),
        [.after (.park 0 [] last (.channel .unit .unit 0)),
          .after (.receive .unit .unit 0 .blockedForever), .user (0, 1)]⟩ := ⟨_, rfl⟩
  have hscheduler : (declined.world 4).heap.schedulers[2]? =
    some (.ofThreads "a\x00b" none .log) := rfl
  obtain ⟨-, hraises⟩ := Run.next_of_action rfl hsubmits rfl
  simp only [Task.turn, Task.submitTurn, hscheduler, Scheduler.ofThreads, hpayload] at hraises
  have hraises : (declined.world 5).threads[0]? = some ⟨none, .raise payload,
      [.after (.park 0 [] last (.channel .unit .unit 0)),
        .after (.receive .unit .unit 0 .blockedForever), .user (0, 1)]⟩ := hraises
  have haction : declined.action 5 = .thread 0 := action_of_turn rfl hraises rfl
  have hgo : declined.LetsGo 3 (.thread 0 2) 2 payload :=
    ⟨0, 0, [], last, _, _, ⟨haction, none, hraises⟩, rfl⟩
  have hwarned := hblocks.isWarned hhonest hstart fun _ _ hends =>
    absurd hends (hgo.not_endsAt hp _ _)
  refine ⟨hfair, hblocks, show 0 < (declined.world 6).heap.handoffs.size by decide +kernel,
    Heap.dropped_of_holders (by decide +kernel) (by decide +kernel),
    fun n t exit origin hdoes => ?_,
    fun m hwarns => ?_, ?_⟩
  · have hkeeps := check_of_does (c := fun _ => keepsExits) (by decide +kernel) hdoes
    cases hkeeps
  · exact ((hwarned.iff hfair).1 ⟨m, hwarns⟩).2 ⟨2, payload, hgo, haction⟩
  · obtain ⟨m, hends⟩ := hwarned.refused hfair hgo haction
    exact ⟨m, payload, hends⟩

end Drill

end Trampoline
