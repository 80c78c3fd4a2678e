import Trampoline.Proofs.RecursiveReading
import Trampoline.Proofs.Relay

/-!
A thread that takes turns while no other thread does. If the functions of an effect come back to it,
and the callbacks of its async nodes fire on it before their submissions return, it goes on with the
effect as the recursive reading says.
-/

namespace Trampoline

variable {H : Host}

/-- The turn of a thread, unless it sleeps or has ended: the state of the host after it, the returns
that stay on the stack, and what is done. -/
def Thread.turn? (t : ThreadId) (heap : Heap H.Data H.Fn) (state : H.State) :
    Thread H → Option (H.State × List (Return H) × Turn H)
  | ⟨name, .run (.user code reply), stack⟩ =>
      let (state, move) := H.advance ⟨t, name⟩ heap state code reply
      some (state, stack, move.turn heap)
  | ⟨name, .run task, stack⟩ => some (state, stack, task.turn ⟨t, name⟩ stack heap)
  | ⟨_, .ret v, back :: rest⟩ => some (state, rest, back.resume heap v)
  | ⟨_, .raise payload, back :: rest⟩ => some (state, rest, back.unwind heap payload)
  | _ => none

/-- Whether an action neither moves the interpretation at `p` nor calls a registration. -/
def Shift.Spares {D F : Type} (p : Place) : Shift D F → Prop
  | .stay => True
  | .registered _ _ => False
  | .moved q _ _ => p ≠ q

namespace World

variable {w w₁ w' v v' : World H} {t : ThreadId} {thread thread₁ thread' : Thread H}
  {p p₁ : Place} {o : Option Place} {deeds deeds' : List (Deed H.Data H.Fn)}

theorem act_of_turn {state : H.State} {rest : List (Return H)} {turn : Turn H}
    (h : thread.turn? t w.heap w.state = some (state, rest, turn)) :
    w.act t thread = World.apply state w.threads w.next t thread.name rest turn ∧
      w.allows thread := by
  obtain ⟨name, control, stack⟩ := thread
  cases control with
  | run task =>
      cases task <;>
        · obtain ⟨rfl, rfl, rfl⟩ := by simpa only [Option.some.injEq, Prod.mk.injEq] using h
          exact ⟨rfl, rfl⟩
  | ret v =>
      cases stack with
      | nil => contradiction
      | cons back rest' =>
          obtain ⟨rfl, rfl, rfl⟩ := by simpa only [Option.some.injEq, Prod.mk.injEq] using h
          exact ⟨rfl, rfl⟩
  | raise payload =>
      cases stack with
      | nil => contradiction
      | cons back rest' =>
          obtain ⟨rfl, rfl, rfl⟩ := by simpa only [Option.some.injEq, Prod.mk.injEq] using h
          exact ⟨rfl, rfl⟩
  | asleep wait woken missed => contradiction

theorem step_of_turn (ht : w.threads[t]? = some thread) {state : H.State}
    {rest : List (Return H)} {turn : Turn H}
    (h : thread.turn? t w.heap w.state = some (state, rest, turn)) :
    w.step? t = some (w.act t thread) := by
  obtain ⟨-, hallows⟩ := act_of_turn h
  obtain ⟨name, control, stack⟩ := thread
  cases control with
  | asleep wait woken missed => contradiction
  | _ => simp [step?, ht, hallows]

/-- `v` is `w`, except for thread `t`, which is `thread`. -/
structure Has (w v : World H) (t : ThreadId) (thread : Thread H) : Prop where
  ordered : v.Ordered
  heap : v.heap = w.heap
  state : v.state = w.state
  next : v.next = w.next
  thread : v.threads[t]? = some thread
  others : ∀ t', t' ≠ t → v.threads[t']? = w.threads[t']?

theorem Has.act (h : w.Has v t thread) {state : H.State} {rest : List (Return H)} {turn : Turn H}
    (hturn : thread.turn? t w.heap w.state = some (state, rest, turn))
    (hnotified : turn.notified = none) (hborn : turn.born = none) :
    Has { w with heap := turn.heap, state := state } (v.act t thread) t
      ⟨thread.name, turn.control, turn.pushed ++ rest⟩ := by
  rw [← h.heap, ← h.state] at hturn
  have hordered := h.ordered.act h.thread
  rw [(act_of_turn hturn).1] at hordered ⊢
  refine ⟨hordered, heap_apply, state_apply, ?_, ?_, fun t' hne => ?_⟩
  · obtain ⟨heap, pushed, control, notified, born⟩ := turn
    obtain rfl := hborn
    exact h.next
  · rw [h.ordered.threads_apply h.thread, if_pos rfl, hnotified]
    rfl
  · rw [h.ordered.threads_apply h.thread, if_neg hne, ← h.others t' hne, hborn, hnotified]
    split
    · rename_i heq
      rw [heq, h.ordered.numbered _ (Nat.le_refl _)]
    · cases v.threads[t']? <;> rfl

/-- Thread `t` takes turns and no other thread does. The interpretation that is at `p` does these
deeds meanwhile, and goes to `o` or is over. -/
inductive Alone (t : ThreadId) :
    World H → Place → List (Deed H.Data H.Fn) → World H → Option Place → Prop where
  | refl {w : World H} {p : Place} : Alone t w p [] w (some p)
  | step {w w₁ w' : World H} {p p₁ : Place} {o : Option Place}
      {deeds : List (Deed H.Data H.Fn)} :
      w.step? t = some w₁ → w.next? (.thread t) p = some p₁ → Alone t w₁ p₁ deeds w' o →
        Alone t w p (w.deeds (.thread t) p ++ deeds) w' o
  | last {w w' : World H} {p : Place} :
      w.step? t = some w' → w.next? (.thread t) p = none →
        Alone t w p (w.deeds (.thread t) p) w' none

theorem Alone.trans (h : Alone t w p deeds w₁ (some p₁)) (h' : Alone t w₁ p₁ deeds' w' o) :
    Alone t w p (deeds ++ deeds') w' o := by
  generalize ho : some p₁ = o₁ at h
  induction h with
  | refl =>
      obtain rfl := Option.some.inj ho
      exact h'
  | step hstep hnext _ ih =>
      rw [List.append_assoc]
      exact .step hstep hnext (ih h' ho)
  | last => contradiction

/-- Alone, thread `t` comes from one state of its own to another, and what is around it from `w` to
`w'`. -/
def Takes (w : World H) (t : ThreadId) (thread : Thread H) (p : Place)
    (deeds : List (Deed H.Data H.Fn)) (w' : World H) (thread' : Thread H) (o : Option Place) :
    Prop :=
  ∀ v, w.Has v t thread → ∃ v', w'.Has v' t thread' ∧ Alone t v p deeds v' o

theorem Takes.refl : w.Takes t thread p [] w thread (some p) :=
  fun v h => ⟨v, h, .refl⟩

theorem Takes.trans (h : w.Takes t thread p deeds w₁ thread₁ (some p₁))
    (h' : w₁.Takes t thread₁ p₁ deeds' w' thread' o) :
    w.Takes t thread p (deeds ++ deeds') w' thread' o := by
  intro v hv
  obtain ⟨v₁, hv₁, hfirst⟩ := h v hv
  obtain ⟨v', hv', hrest⟩ := h' v₁ hv₁
  exact ⟨v', hv', hfirst.trans hrest⟩

theorem Takes.of_turn {state : H.State} {rest : List (Return H)} {turn : Turn H}
    (hturn : thread.turn? t w.heap w.state = some (state, rest, turn))
    (hnotified : turn.notified = none) (hborn : turn.born = none)
    (hw' : w' = { w with heap := turn.heap, state := state })
    (hthread' : thread' = ⟨thread.name, turn.control, turn.pushed ++ rest⟩)
    (hdeeds : ∀ v, w.Has v t thread →
      v.deeds (.thread t) p = deeds ∧ v.next? (.thread t) p = o) :
    w.Takes t thread p deeds w' thread' o := by
  intro v hv
  subst hw'
  subst hthread'
  have hv' := hv.act hturn hnotified hborn
  rw [← hv.heap, ← hv.state] at hturn
  have hstep := step_of_turn hv.thread hturn
  obtain ⟨rfl, hnext⟩ := hdeeds v hv
  refine ⟨v.act t thread, hv', ?_⟩
  cases o with
  | none => exact .last hstep hnext
  | some p₁ =>
      have hmove := Alone.step hstep hnext .refl
      rwa [List.append_nil] at hmove

theorem Takes.of_moved {state : H.State} {rest : List (Return H)} {turn : Turn H}
    (hturn : thread.turn? t w.heap w.state = some (state, rest, turn))
    (hnotified : turn.notified = none) (hborn : turn.born = none)
    (hw' : w' = { w with heap := turn.heap, state := state })
    (hthread' : thread' = ⟨thread.name, turn.control, turn.pushed ++ rest⟩)
    (hshift : ∀ v : World H, v.heap = w.heap → v.turnShift t thread = .moved p deeds o) :
    w.Takes t thread p deeds w' thread' o := by
  refine .of_turn hturn hnotified hborn hw' hthread' fun v hv => ?_
  simp only [World.deeds, next?, shift_thread hv.thread, hshift v hv.heap, if_true, and_self]

/-- A turn that neither moves the interpretation nor calls a registration, and then further ones. -/
theorem Takes.of_spared {state : H.State} {rest : List (Return H)} {turn : Turn H}
    (hturn : thread.turn? t w.heap w.state = some (state, rest, turn))
    (hnotified : turn.notified = none) (hborn : turn.born = none)
    (hshift : ∀ v : World H, v.heap = w.heap → (v.turnShift t thread).Spares p)
    (hrest : Takes { w with heap := turn.heap, state := state } t
      ⟨thread.name, turn.control, turn.pushed ++ rest⟩ p deeds w' thread' o) :
    w.Takes t thread p deeds w' thread' o := by
  have hfirst : w.Takes t thread p [] { w with heap := turn.heap, state := state }
      ⟨thread.name, turn.control, turn.pushed ++ rest⟩ (some p) := by
    refine .of_turn hturn hnotified hborn rfl rfl fun v hv => ?_
    have hspares := hshift v hv.heap
    rw [← shift_thread hv.thread] at hspares
    simp only [World.deeds, next?]
    generalize v.shift (.thread t) = shift at hspares
    cases shift with
    | stay => exact ⟨rfl, rfl⟩
    | registered r id => exact hspares.elim
    | moved q deeds q' => exact ⟨if_neg hspares, if_neg hspares⟩
  exact hfirst.trans hrest

end World

/-- The control of a thread that goes back with a reply, or with a panic. -/
def Control.replied : Except Payload (Value H.Data H.Fn) → Control H
  | .ok v => .ret v
  | .error payload => .raise payload

/-- What an interpretation on thread `t`, above some returns, finds around it while no other thread
takes a turn. A question gets the reply with which the thread comes back. An async node gets the
exit that the thread has delivered to it when its submission returns, and its registration has been
called once by then. -/
def Surroundings.alone (t : ThreadId) (name : Option String) (below : List (Return H)) :
    Surroundings H.Data H.Fn (World H) where
  Reply w question r w' :=
    ∀ (post : Post H.Data H.Fn) (frames : List (Frame H.Data H.Fn)) (last applied : Kept)
      (finish : Finish H.Fn),
      let stack := .answering post frames last applied finish :: below
      w.Takes t ⟨name, .run (.answer question), stack⟩ (.thread t below.length) [] w'
        ⟨name, .replied r, stack⟩ (some (.thread t below.length))
  Complete w r scheduler exit w' :=
    let id := w.heap.handoffs.size
    ∃ (v : Value H.Data H.Fn) (w₁ : World H), w₁.heap.handoffs[id]? = some ⟨t, .early exit⟩ ∧
      w' = { w₁ with heap := w₁.heap.setHandoff id ⟨t, .resumed⟩ } ∧
        ∀ (frames : List (Frame H.Data H.Fn)) (last : Kept) (finish : Finish H.Fn),
          let stack := .after (.park id frames last finish) :: below
          World.Takes { w with heap := (w.heap.newHandoff t).1 } t
            ⟨name, .run (.submit scheduler (.register r id)), stack⟩ (.thread t below.length)
            [.call (.register r)] w₁ ⟨name, .ret v, stack⟩ (some (.thread t below.length))

namespace World

variable {t : ThreadId} {name : Option String} {below : List (Return H)} {w w' : World H}
  {frames : List (Frame H.Data H.Fn)} {finish : Finish H.Fn}

/-- The thread goes back to a question with its reply. -/
theorem Takes.of_replied (post : Post H.Data H.Fn) (r : Except Payload (Value H.Data H.Fn))
    (last applied : Kept) :
    w.Takes t ⟨name, .replied r, .answering post frames last applied finish :: below⟩
      (.thread t below.length) (post.deeds r) w
      ⟨name, .run (.drive (.reply post frames r) last finish), below⟩
      (some (.thread t below.length)) := by
  cases r with
  | ok v => exact .of_moved rfl rfl rfl rfl rfl fun _ _ => rfl
  | error payload => exact .of_moved rfl rfl rfl rfl rfl fun _ _ => rfl

/-- The submission of a node's registration returns when the node has its exit. -/
theorem Takes.of_returned {id : HandoffId} {exit : Exit (Outcome H.Data H.Fn)}
    (hearly : w.heap.handoffs[id]? = some ⟨t, .early exit⟩) (v : Value H.Data H.Fn) (last : Kept) :
    w.Takes t ⟨name, .ret v, .after (.park id frames last finish) :: below⟩
      (.thread t below.length) [.exit exit]
      { w with heap := w.heap.setHandoff id ⟨t, .resumed⟩ }
      ⟨name, .run (.drive (.settle exit frames) last finish), below⟩
      (some (.thread t below.length)) := by
  have hback : w.Takes t ⟨name, .ret v, .after (.park id frames last finish) :: below⟩
      (.thread t below.length) [] w ⟨name, .run (.park id frames last finish), below⟩
      (some (.thread t below.length)) := .of_moved rfl rfl rfl rfl rfl fun _ _ => rfl
  have hturn : Thread.turn? t w.heap w.state ⟨name, .run (.park id frames last finish), below⟩ =
      some (w.state, below, .run (w.heap.setHandoff id ⟨t, .resumed⟩)
        (.drive (.settle exit frames) last finish)) := by
    simp only [Thread.turn?, Task.turn, Task.parkTurn, hearly, Handoff.leave]
  have hleave : w.Takes t ⟨name, .run (.park id frames last finish), below⟩
      (.thread t below.length) [.exit exit]
      { w with heap := w.heap.setHandoff id ⟨t, .resumed⟩ }
      ⟨name, .run (.drive (.settle exit frames) last finish), below⟩
      (some (.thread t below.length)) := by
    refine .of_moved hturn rfl rfl rfl rfl fun v hheap => ?_
    simp only [turnShift, hheap, hearly]
  exact hback.trans hleave

/-- One turn with an interpretation that does not end. -/
theorem Takes.of_drive (below : List (Return H)) {i : Interpretation H.Data H.Fn} {last : Kept}
    {turn : Turn H}
    (hdrive : Task.driveTurn ⟨t, name⟩ w.heap i last finish = turn)
    (hnotified : turn.notified = none) (hborn : turn.born = none)
    (hgoes : ∀ exit, i.step ≠ .finish exit) :
    w.Takes t ⟨name, .run (.drive i last finish), below⟩ (.thread t below.length) i.deeds
      { w with heap := turn.heap } ⟨name, turn.control, turn.pushed ++ below⟩
      (some (.thread t below.length)) := by
  have hturn : Thread.turn? t w.heap w.state ⟨name, .run (.drive i last finish), below⟩ =
      some (w.state, below, turn) := by
    rw [← hdrive]
    rfl
  refine .of_moved hturn hnotified hborn rfl rfl fun v _ => ?_
  cases hstep : i.step with
  | finish exit => exact absurd hstep (hgoes exit)
  | _ => simp only [turnShift, hstep]

/-- The thread goes on with an interpretation as the stack machine does. -/
theorem Takes.of_drives {i j : Interpretation H.Data H.Fn} {deeds : List (Deed H.Data H.Fn)}
    (h : (Surroundings.alone t name below).Drives w i deeds w' j) (last : Kept)
    (finish : Finish H.Fn) :
    ∃ last', w.Takes t ⟨name, .run (.drive i last finish), below⟩ (.thread t below.length) deeds w'
      ⟨name, .run (.drive j last' finish), below⟩ (some (.thread t below.length)) := by
  induction h generalizing last with
  | refl => exact ⟨last, .refl⟩
  | @next w w' i j k deeds hstep _ ih =>
      obtain ⟨last', hrest⟩ := ih (i.latest last)
      have hdrive : Task.driveTurn ⟨t, name⟩ w.heap i last finish =
          .run w.heap (.drive j (i.latest last) finish) := by
        simp only [Task.driveTurn, hstep]
      have hmove := Takes.of_drive below hdrive rfl rfl (by simp [hstep])
      exact ⟨last', hmove.trans hrest⟩
  | @ask w w₁ w' i k question post frames r deeds hstep hreply _ ih =>
      obtain ⟨last', hrest⟩ := ih (i.latest last)
      have hdrive : Task.driveTurn ⟨t, name⟩ w.heap i last finish =
          .call w.heap (.answer question)
            (.answering post frames (i.latest last) i.applied finish) := by
        simp only [Task.driveTurn, hstep]
      have hmove := Takes.of_drive below hdrive rfl rfl (by simp [hstep])
      have hcall := hmove.trans (hreply post frames (i.latest last) i.applied finish)
      rw [List.append_nil] at hcall
      exact ⟨last', hcall.trans ((Takes.of_replied post r _ _).trans hrest)⟩
  | @suspend w w₁ w' i k r scheduler frames exit deeds hstep hcomplete _ ih =>
      obtain ⟨last', hrest⟩ := ih (i.latest last)
      obtain ⟨v, w₂, hearly, rfl, hsubmit⟩ := hcomplete
      have hdrive : Task.driveTurn ⟨t, name⟩ w.heap i last finish =
          .seq (w.heap.newHandoff t).1 (.submit scheduler (.register r w.heap.handoffs.size))
            (.park w.heap.handoffs.size frames (i.latest last) finish) := by
        simp only [Task.driveTurn, hstep]
        rfl
      have hmove := Takes.of_drive below hdrive rfl rfl (by simp [hstep])
      have hreturn := (hsubmit frames (i.latest last) finish).trans
        ((Takes.of_returned hearly v (i.latest last)).trans hrest)
      exact ⟨last', hmove.trans hreturn⟩

/-- An interpretation that has an exit and no continuations calls its finisher with it. -/
theorem Takes.of_finish {i : Interpretation H.Data H.Fn} {exit : Exit (Outcome H.Data H.Fn)}
    (hstep : i.step = .finish exit) (last : Kept) :
    ∃ w' thread', w.Takes t ⟨name, .run (.drive i last finish), below⟩ (.thread t below.length)
      [.finish exit] w' thread' none := by
  have hturn : Thread.turn? t w.heap w.state ⟨name, .run (.drive i last finish), below⟩ =
      some (w.state, below, .call w.heap (.conclude exit finish)
        (.holding (Frame.refsAll i.frames ((i.latest last).onto [])))) := by
    simp only [Thread.turn?, Task.turn, Task.driveTurn, hstep]
  have hmove : w.Takes t ⟨name, .run (.drive i last finish), below⟩ (.thread t below.length) [] w
      ⟨name, .run (.conclude exit finish),
        .holding (Frame.refsAll i.frames ((i.latest last).onto [])) :: below⟩
      (some (.thread t (below.length + 1))) := by
    refine .of_moved hturn rfl rfl rfl rfl fun v _ => ?_
    simp only [turnShift, hstep, i.deeds_of_finish hstep]
  obtain ⟨hnotified, hborn⟩ := Task.concludeTurn_silent w.heap exit finish
  exact ⟨_, _, hmove.trans (.of_moved rfl hnotified hborn rfl rfl fun _ _ => rfl)⟩

/-- If the recursive reading of a node ends, the thread makes the same calls and goes on, whatever
continuations are pending, with the exit that the reading came to. Without continuations it calls
the finisher once, with that exit. -/
theorem Takes.of_reads {node : Node H.Data H.Fn} {calls : List (Call H.Data H.Fn)}
    {exit : Exit (Outcome H.Data H.Fn)}
    (h : (Surroundings.alone t name below).Reads w node calls exit w') (last : Kept)
    (finish : Finish H.Fn) :
    (∀ frames, ∃ deeds j last',
      w.Takes t ⟨name, .run (.drive ⟨.node node, frames⟩ last finish), below⟩
          (.thread t below.length) deeds w' ⟨name, .run (.drive j last' finish), below⟩
          (some (.thread t below.length)) ∧
        j.Settles exit frames ∧ Deed.calls deeds = calls ∧ Deed.finishes deeds = []) ∧
      ∃ deeds w'' thread'',
        w.Takes t ⟨name, .run (.drive (.start node) last finish), below⟩ (.thread t below.length)
            deeds w'' thread'' none ∧
          Deed.calls deeds = calls ∧ Deed.finishes deeds = [exit] := by
  have hdrives (frames : List (Frame H.Data H.Fn)) : ∃ deeds j last',
      w.Takes t ⟨name, .run (.drive ⟨.node node, frames⟩ last finish), below⟩
          (.thread t below.length) deeds w' ⟨name, .run (.drive j last' finish), below⟩
          (some (.thread t below.length)) ∧
        j.Settles exit frames ∧ Deed.calls deeds = calls ∧ Deed.finishes deeds = [] := by
    obtain ⟨deeds, j, hdrives, hsettles, hcalls, hfinishes⟩ := h.comes frames
    obtain ⟨last', htakes⟩ := Takes.of_drives hdrives last finish
    exact ⟨deeds, j, last', htakes, hsettles, hcalls, hfinishes⟩
  refine ⟨hdrives, ?_⟩
  obtain ⟨deeds, j, last', htakes, hsettles, hcalls, hfinishes⟩ := hdrives []
  have hfinish : j.step = .finish exit := by
    rw [hsettles.step]
    cases exit <;> rfl
  obtain ⟨w'', thread'', hlast⟩ := Takes.of_finish (w := w') hfinish last'
  refine ⟨deeds ++ [.finish exit], w'', thread'', htakes.trans hlast, ?_, ?_⟩
  · rw [Deed.calls_append, hcalls]
    exact List.append_nil _
  · rw [Deed.finishes_append, hfinishes]
    rfl

end World

theorem Surroundings.alone_print (t : ThreadId) (name : Option String) (below : List (Return H))
    (w : World H) (line : String) :
    (Surroundings.alone t name below).Reply w (.print line) (.ok .unit)
      { w with heap := w.heap.print line } :=
  fun _ _ _ _ _ => .of_spared rfl rfl rfl (fun _ _ => trivial) .refl

namespace Relay

/-- A registration that leaves its callback, or completes it itself. -/
def register : Register Fn := .user .unit .unit ⟨.register false, ∅⟩

def print : Bind Unit Fn := .next .unit (.thunk (.print "done"))

def printing : Node Unit Fn := .attempt (.flatMap (node false) print) ⟨.unit, .unit⟩

def asked : Run host := .ofList (start printing true) (start_initial _ _) [.thread 0, .thread 0]

def below : List (Return host) := [.after (.give .unit), .user (.leaving false)]

def completed : World host :=
  { asked.world 2 with heap := { (asked.world 2).heap with handoffs := #[⟨0, .resumed⟩] } }

theorem complete_asked :
    (Surroundings.alone 0 none below).Complete (asked.world 2) register immediateId
      (.settled (.ok .unit)) completed := by
  refine ⟨.unit, { asked.world 2 with
    heap := { (asked.world 2).heap with handoffs := #[⟨0, .early (.settled (.ok .unit))⟩] } },
    rfl, rfl, fun frames last finish => ?_⟩
  have hregistered {v w : World host} {thread : Thread host} (hv : w.Has v 0 thread)
      (hthread : thread = ⟨none, .run (.register register (.node 0)),
        .guarding 0 register :: .guarded 0 :: .after (.park 0 frames last finish) :: below⟩) :
      v.deeds (.thread 0) (.thread 0 2) = [.call (.register register)] ∧
        v.next? (.thread 0) (.thread 0 2) = some (.thread 0 2) := by
    subst hthread
    simp only [World.deeds, World.next?, World.shift_thread hv.thread, World.pendingAt, hv.thread]
    exact ⟨rfl, rfl⟩
  -- The work is submitted and performed, the registration runs and completes its callback.
  iterate 2 refine World.Takes.of_spared rfl rfl rfl (fun _ _ => trivial) ?_
  refine World.Takes.trans (.of_turn rfl rfl rfl rfl rfl fun v hv => hregistered hv rfl) ?_
  iterate 4 refine World.Takes.of_spared rfl rfl rfl (fun _ _ => trivial) ?_
  refine World.Takes.of_spared rfl rfl rfl (fun _ _ => Place.noConfusion) ?_
  -- The thread goes back to where the work was submitted.
  iterate 8 refine World.Takes.of_spared rfl rfl rfl (fun _ _ => trivial) ?_
  exact .refl

theorem reads_printing :
    (Surroundings.alone 0 none below).Reads (asked.world 2) printing
      [.register register, .bind print .unit, .thunk (.print "done"),
        .reify ⟨.unit, .unit⟩ (.ok .unit)]
      (.settled (.ok (.ok .unit .unit .unit)))
      { completed with heap := completed.heap.print "done" } :=
  .attempt
    (.flatMap (.async complete_asked)
      (.bind .answer
        (.run (.thunk (.reply (Surroundings.alone_print 0 none below _ "done")) .done))))
    (.reify .answer .done)

/-- Alone, the client makes the calls of the reading and has its result received once. -/
theorem alone_asked : ∃ deeds v, World.Alone 0 (asked.world 2) (.thread 0 2) deeds v none ∧
    Deed.calls deeds = [.register register, .bind print .unit, .thunk (.print "done"),
      .reify ⟨.unit, .unit⟩ (.ok .unit)] ∧
    Deed.finishes deeds = [.settled (.ok (.ok .unit .unit .unit))] := by
  obtain ⟨-, deeds, w', thread', htakes, hcalls, hfinishes⟩ :=
    World.Takes.of_reads reads_printing ∅ (.callback .unit .unit receiver)
  have hclient : (asked.world 2).Has (asked.world 2) 0
      ⟨none, .run (.drive (.start printing) ∅ (.callback .unit .unit receiver)), below⟩ :=
    ⟨asked.ordered 2, rfl, rfl, rfl, rfl, fun _ _ => rfl⟩
  obtain ⟨v, -, halone⟩ := htakes _ hclient
  exact ⟨deeds, v, halone, hcalls, hfinishes⟩

end Relay

end Trampoline
