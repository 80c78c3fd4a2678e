import Trampoline.Proofs.Stages

/-!
The places where interpretations are. An interpretation on a thread is told apart from others by
the level of the stack at which it goes on or waits; while it waits at an async node without a
thread, its place is the meeting point. A turn of a thread keeps the places on other threads.
-/

namespace Trampoline

/-- A place where an interpretation can be: a level of the stack of a thread, or the meeting point
of an async node. -/
inductive Place where
  | thread (t : ThreadId) (level : Nat)
  | handoff (id : HandoffId)
  deriving DecidableEq

variable {H : Host}

/-- The interpretation that waits at a level of a stack. -/
def Return.pendingAt : List (Return H) → Nat → Option (Pending H.Data H.Fn)
  | [], _ => none
  | back :: rest, level => if level = rest.length then back.pending? else pendingAt rest level

def Thread.pendingAt (thread : Thread H) (level : Nat) : Option (Pending H.Data H.Fn) :=
  if level = thread.stack.length then thread.control.pending?
  else Return.pendingAt thread.stack level

def Handoff.pending? {D F : Type} (id : HandoffId) : Handoff D F → Option (Pending D F)
  | ⟨_, .parked frames finish⟩ => some (.parked id frames, finish)
  | _ => none

def Heap.pendingAt (heap : Heap H.Data H.Fn) (id : HandoffId) : Option (Pending H.Data H.Fn) :=
  heap.handoffs[id]?.bind (Handoff.pending? id)

theorem Heap.pendingAt_congr {heap heap' : Heap H.Data H.Fn}
    (h : heap'.handoffs = heap.handoffs) (id : HandoffId) :
    heap'.pendingAt id = heap.pendingAt id := by
  simp only [pendingAt, h]

theorem Heap.pendingAt_newHandoff (heap : Heap H.Data H.Fn) (t : ThreadId) (id : HandoffId) :
    (heap.newHandoff t).1.pendingAt id = heap.pendingAt id := by
  simp only [pendingAt, newHandoff, Array.getElem?_push]
  split
  · rename_i heq
    rw [heq, Array.getElem?_size]
    rfl
  · rfl

theorem Heap.pendingAt_set {heap heap' : Heap H.Data H.Fn} {id : HandoffId}
    {handoff handoff' : Handoff H.Data H.Fn} (h : heap.handoffs[id]? = some handoff)
    (h' : heap'.handoffs = heap.handoffs.setIfInBounds id handoff') (id' : HandoffId) :
    heap'.pendingAt id' = if id' = id then handoff'.pending? id else heap.pendingAt id' := by
  obtain ⟨hlt, -⟩ := Array.getElem?_eq_some_iff.1 h
  simp only [pendingAt, h', Array.getElem?_setIfInBounds]
  by_cases heq : id' = id
  · simp [heq, hlt]
  · simp [heq, Ne.symm heq]

theorem Heap.pendingAt_set_of_none {heap : Heap H.Data H.Fn} {id : HandoffId}
    {handoff handoff' : Handoff H.Data H.Fn} (h : heap.handoffs[id]? = some handoff)
    (hnone : handoff.pending? id = none) (hnone' : handoff'.pending? id = none)
    (id' : HandoffId) : (heap.setHandoff id handoff').pendingAt id' = heap.pendingAt id' := by
  rw [pendingAt_set h rfl, hnone']
  split
  · rename_i heq
    rw [heq, pendingAt, h, Option.bind_some, hnone]
  · rfl

def World.pendingAt (w : World H) : Place → Option (Pending H.Data H.Fn)
  | .thread t level => w.threads[t]?.bind fun thread => thread.pendingAt level
  | .handoff id => w.heap.pendingAt id

theorem Return.pendingAt_of_le {stack : List (Return H)} {level : Nat}
    (h : stack.length ≤ level) : Return.pendingAt stack level = none := by
  induction stack with
  | nil => rfl
  | cons back rest ih =>
      simp only [List.length_cons] at h
      rw [Return.pendingAt, if_neg (by omega), ih (by omega)]

theorem Return.exists_of_pendingAt {stack : List (Return H)} {level : Nat}
    {x : Pending H.Data H.Fn} (h : Return.pendingAt stack level = some x) :
    ∃ above back rest, stack = above ++ back :: rest ∧ rest.length = level ∧
      back.pending? = some x := by
  induction stack with
  | nil => contradiction
  | cons back rest ih =>
      rw [Return.pendingAt] at h
      split at h
      · rename_i heq
        exact ⟨[], back, rest, rfl, heq.symm, h⟩
      · obtain ⟨above, back', rest', rfl, hlevel, hback⟩ := ih h
        exact ⟨back :: above, back', rest', rfl, hlevel, hback⟩

@[simp] theorem Return.pendingAt_length (stack : List (Return H)) :
    Return.pendingAt stack stack.length = none :=
  pendingAt_of_le (Nat.le_refl _)

theorem Return.pendingAt_append {pushed stack : List (Return H)}
    (h : ∀ back ∈ pushed, back.pending? = none) (level : Nat) :
    Return.pendingAt (pushed ++ stack) level = Return.pendingAt stack level := by
  induction pushed with
  | nil => rfl
  | cons back rest ih =>
      rw [List.cons_append, Return.pendingAt]
      split
      · rename_i heq
        rw [h back (by simp), Return.pendingAt_of_le (by simp [heq])]
      · exact ih fun back hback => h back (List.mem_cons_of_mem _ hback)

theorem Return.pendingAt_back (above rest : List (Return H)) (back : Return H) :
    Return.pendingAt (above ++ back :: rest) rest.length = back.pending? := by
  induction above with
  | nil => exact if_pos rfl
  | cons first above ih =>
      rw [List.cons_append, Return.pendingAt, if_neg, ih]
      simp only [List.length_append, List.length_cons]
      omega

theorem Thread.pendingAt_of_control {name : Option String} {control : Control H}
    (h : control.pending? = none) (stack : List (Return H)) (level : Nat) :
    Thread.pendingAt ⟨name, control, stack⟩ level = Return.pendingAt stack level := by
  simp only [pendingAt, h]
  split
  · rename_i heq
    rw [heq, Return.pendingAt_length]
  · rfl

theorem Thread.pendingAt_cons {name : Option String} {control : Control H} {back : Return H}
    (h : control.pending? = none) (hback : back.pending? = none) (rest : List (Return H))
    (level : Nat) :
    Thread.pendingAt ⟨name, control, back :: rest⟩ level = Return.pendingAt rest level := by
  rw [Thread.pendingAt_of_control h, ← List.singleton_append]
  exact Return.pendingAt_append (by simpa using hback) level

theorem Thread.pendingAt_of_ended {thread : Thread H} (h : thread.ended = true) (level : Nat) :
    thread.pendingAt level = none := by
  obtain ⟨name, control, stack⟩ := thread
  cases stack with
  | cons back rest => cases control <;> simp [Thread.ended] at h
  | nil =>
      cases control with
      | ret v => exact Thread.pendingAt_of_control rfl _ level
      | raise payload => exact Thread.pendingAt_of_control rfl _ level
      | _ => simp [Thread.ended] at h

def Thread.heard (notified : Option Gate) (thread : Thread H) : Thread H :=
  match notified with
  | some gate => thread.notified gate
  | none => thread

theorem Thread.pendingAt_heard {thread : Thread H} (h : thread.control.Sound)
    (notified : Option Gate) (level : Nat) :
    (thread.heard notified).pendingAt level = thread.pendingAt level := by
  cases notified with
  | none => rfl
  | some gate =>
      obtain ⟨name, control, stack⟩ := thread
      simp only [heard]
      unfold Thread.notified
      split
      · rename_i heq
        obtain ⟨rfl, rfl, rfl⟩ := Thread.mk.inj heq
        split
        · simp only [pendingAt, Control.pending?, h.1]
        · rfl
      · rfl

theorem Thread.Sound.heard {thread : Thread H} (h : thread.Sound) (notified : Option Gate) :
    (thread.heard notified).Sound := by
  cases notified with
  | none => exact h
  | some gate =>
      obtain ⟨name, control, stack⟩ := thread
      simp only [Thread.heard]
      unfold Thread.notified
      split
      · rename_i heq
        obtain ⟨rfl, rfl, rfl⟩ := Thread.mk.inj heq
        split
        · exact ⟨trivial, h.stack⟩
        · exact h
      · exact h

theorem Thread.Idle.pendingAt {thread : Thread H} (h : thread.Idle) (level : Nat) :
    thread.pendingAt level = none := by
  rw [Thread.pendingAt_of_control h.control_pending, ← List.append_nil thread.stack]
  exact Return.pendingAt_append h.stack_pending level

theorem Thread.sleepsAt_heard (thread : Thread H) (notified : Option Gate) (id : HandoffId) :
    (thread.heard notified).control.SleepsAt id ↔
      thread.control.SleepsAt id ∧ notified ≠ some (.handoff id) := by
  cases notified with
  | none => simp [heard]
  | some gate =>
      obtain ⟨name, control, stack⟩ := thread
      simp only [heard]
      unfold Thread.notified
      split
      · rename_i g deadline woken missed stack' heq
        obtain ⟨rfl, rfl, rfl⟩ := Thread.mk.inj heq
        split
        · rename_i hgate
          subst hgate
          cases g with
          | handoff id' => simp [Control.SleepsAt, eq_comm]
          | promise id' => simp [Control.SleepsAt]
        · rename_i hgate
          cases g with
          | handoff id' =>
              simp only [Control.SleepsAt]
              constructor
              · rintro rfl
                exact ⟨rfl, fun heq => hgate (Option.some.inj heq).symm⟩
              · rintro ⟨rfl, -⟩
                rfl
          | promise id' => simp [Control.SleepsAt]
      · rename_i hcontrol
        constructor
        · intro hsleeps
          refine ⟨hsleeps, ?_⟩
          rintro heq
          cases control with
          | asleep wait woken missed =>
              cases wait with
              | gate g deadline => exact hcontrol _ _ _ _ _ _ rfl
              | _ => exact hsleeps
          | _ => exact hsleeps
        · exact And.left

namespace World

variable {state : H.State} {threads : Threads H} {next t : ThreadId} {name : Option String}
  {stack : List (Return H)} {turn : Turn H}

@[simp] theorem heap_apply : (apply state threads next t name stack turn).heap = turn.heap := by
  obtain ⟨heap, pushed, control, notified, born⟩ := turn
  cases born <;> rfl

@[simp] theorem state_apply :
    (apply state threads next t name stack turn).state = state := by
  obtain ⟨heap, pushed, control, notified, born⟩ := turn
  cases born <;> rfl

/-- The threads after a turn: the one that took it, the others, and perhaps one that starts. -/
theorem threads_apply (hnext : threads[next]? = none) (ht : t ≠ next) (t' : ThreadId) :
    (apply state threads next t name stack turn).threads[t']? =
      if t' = t then
        some (Thread.heard turn.notified ⟨name, turn.control, turn.pushed ++ stack⟩)
      else if t' = next then turn.born
      else threads[t']?.map (Thread.heard turn.notified) := by
  obtain ⟨heap, pushed, control, notified, born⟩ := turn
  have hnone (o : Option (Thread H)) : o.map (Thread.heard none) = o := by cases o <;> rfl
  have hself {a : ThreadId} : compare a a = .eq := Nat.compare_eq_eq.2 rfl
  have hother {a b : ThreadId} (h : b ≠ a) : compare a b ≠ .eq := fun heq =>
    h (Nat.compare_eq_eq.1 heq).symm
  by_cases htt : t' = t
  · subst htt
    cases notified <;> cases born <;>
      simp only [apply, Std.TreeMap.getElem?_insert, Std.TreeMap.getElem?_map, hself, hother ht,
        if_true, if_false, Option.map_some] <;> rfl
  · by_cases htn : t' = next
    · subst htn
      cases notified <;> cases born <;>
        simp only [apply, Std.TreeMap.getElem?_insert, Std.TreeMap.getElem?_map, hself,
          hother htt, if_true, if_false, htt, hnext, Option.map_none]
    · cases notified <;> cases born <;>
        simp only [apply, Std.TreeMap.getElem?_insert, Std.TreeMap.getElem?_map, hother htt,
          hother htn, if_false, htt, htn, hnone] <;> rfl

/-- Threads are numbered in the order in which they start, and they are sound. -/
structure Ordered (w : World H) : Prop where
  numbered : ∀ t : ThreadId, w.next ≤ t → w.threads[t]? = none
  threads : ∀ (t : ThreadId) (thread : Thread H), w.threads[t]? = some thread → thread.Sound

def SleepsAt (w : World H) (t : ThreadId) (id : HandoffId) : Prop :=
  ∃ thread, w.threads[t]? = some thread ∧ thread.control.SleepsAt id

instance (w : World H) (t : ThreadId) (id : HandoffId) : Decidable (w.SleepsAt t id) :=
  match ht : w.threads[t]? with
  | some thread =>
      decidable_of_iff (thread.control.SleepsAt id) (by simp [SleepsAt, ht])
  | none => .isFalse (by simp [SleepsAt, ht])

theorem Ordered.lt {w : World H} (hw : w.Ordered) {t : ThreadId} {thread : Thread H}
    (ht : w.threads[t]? = some thread) : t < w.next := by
  refine Nat.lt_of_not_le fun hle => ?_
  rw [hw.numbered t hle] at ht
  contradiction

theorem pendingAt_run {w : World H} {t : ThreadId} {name : Option String} {task : Task H}
    {stack : List (Return H)} (ht : w.threads[t]? = some ⟨name, .run task, stack⟩) :
    w.pendingAt (.thread t stack.length) = task.pending? := by
  simp only [pendingAt, ht, Option.bind_some, Thread.pendingAt, if_true]
  rfl

/-- What waits in a return is at the level of the return. -/
theorem pendingAt_back {w : World H} {t : ThreadId} {name : Option String} {control : Control H}
    {above rest : List (Return H)} {back : Return H}
    (ht : w.threads[t]? = some ⟨name, control, above ++ back :: rest⟩) :
    w.pendingAt (.thread t rest.length) = back.pending? := by
  have hlevel : rest.length ≠ (above ++ back :: rest).length := by
    simp only [List.length_append, List.length_cons]
    omega
  simp only [pendingAt, ht, Option.bind_some, Thread.pendingAt, if_neg hlevel,
    Return.pendingAt_back]

theorem pendingAt_top {w : World H} {t : ThreadId} {name : Option String} {control : Control H}
    {back : Return H} {rest : List (Return H)}
    (ht : w.threads[t]? = some ⟨name, control, back :: rest⟩) :
    w.pendingAt (.thread t rest.length) = back.pending? :=
  pendingAt_back (show w.threads[t]? = some ⟨name, control, [] ++ back :: rest⟩ from ht)

theorem step_run {w : World H} {t : ThreadId} {name : Option String} {task : Task H}
    {stack : List (Return H)} (ht : w.threads[t]? = some ⟨name, .run task, stack⟩) :
    w.step? t = some (w.act t ⟨name, .run task, stack⟩) := by
  simp [step?, ht, allows]

/-- An interpretation on a thread is what the thread goes on with, or waits in a return. -/
theorem thread_of_pendingAt {w : World H} {t : ThreadId} {level : Nat}
    {x : Pending H.Data H.Fn} (h : w.pendingAt (.thread t level) = some x) :
    ∃ name control stack, w.threads[t]? = some ⟨name, control, stack⟩ ∧
      (stack.length = level ∧ control.pending? = some x ∨
        ∃ above back rest, stack = above ++ back :: rest ∧ rest.length = level ∧
          back.pending? = some x) := by
  obtain ⟨⟨name, control, stack⟩, ht, hthread⟩ := Option.bind_eq_some_iff.1 h
  refine ⟨name, control, stack, ht, ?_⟩
  simp only [Thread.pendingAt] at hthread
  split at hthread
  · rename_i heq
    exact .inl ⟨heq.symm, hthread⟩
  · exact .inr (Return.exists_of_pendingAt hthread)

section Apply

variable {w : World H} {thread : Thread H}

theorem Ordered.threads_apply (hw : w.Ordered) (ht : w.threads[t]? = some thread)
    (state : H.State) (name : Option String) (rest : List (Return H)) (turn : Turn H)
    (t' : ThreadId) :
    (apply state w.threads w.next t name rest turn).threads[t']? =
      if t' = t then some (Thread.heard turn.notified ⟨name, turn.control, turn.pushed ++ rest⟩)
      else if t' = w.next then turn.born
      else w.threads[t']?.map (Thread.heard turn.notified) :=
  World.threads_apply (hw.numbered _ (Nat.le_refl _)) (Nat.ne_of_lt (hw.lt ht)) t'

theorem next_le_apply (state : H.State) (threads : Threads H) (next t : ThreadId)
    (name : Option String) (rest : List (Return H)) (turn : Turn H) :
    next ≤ (apply state threads next t name rest turn).next ∧
      (turn.born.isSome → next < (apply state threads next t name rest turn).next) := by
  obtain ⟨heap, pushed, control, notified, born⟩ := turn
  cases born <;> simp [apply]

theorem Ordered.apply (hw : w.Ordered) (ht : w.threads[t]? = some thread) (state : H.State)
    (name : Option String) {rest : List (Return H)} (hrest : ∀ back ∈ rest, back.Sound)
    {turn : Turn H} (hturn : turn.Tidy) :
    (World.apply state w.threads w.next t name rest turn).Ordered where
  numbered t' hle := by
    obtain ⟨hnext, hborn⟩ := next_le_apply state w.threads w.next t name rest turn
    have hlt : t < t' := Nat.lt_of_lt_of_le (hw.lt ht) (Nat.le_trans hnext hle)
    rw [hw.threads_apply ht, if_neg (Nat.ne_of_gt hlt)]
    split
    · rename_i heq
      rcases hb : turn.born with _ | b
      · rfl
      · have hlate := Nat.lt_of_lt_of_le (hborn (by simp [hb])) hle
        exact absurd heq (Nat.ne_of_gt hlate)
    · rw [hw.numbered t' (Nat.le_trans hnext hle), Option.map_none]
  threads t' thread' h := by
    rw [hw.threads_apply ht] at h
    split at h
    · obtain rfl := Option.some.inj h
      refine Thread.Sound.heard ⟨hturn.sound, ?_⟩ _
      intro back hback
      rcases List.mem_append.1 hback with hmem | hmem
      · exact hturn.pushed_sound back hmem
      · exact hrest back hmem
    · split at h
      · exact (hturn.born thread' h).toSound
      · obtain ⟨other, hother, rfl⟩ := Option.map_eq_some_iff.1 h
        exact (hw.threads t' other hother).heard _

/-- A tidy turn leaves the interpretations of other threads where they are. -/
theorem Ordered.pendingAt_apply (hw : w.Ordered) (ht : w.threads[t]? = some thread)
    (state : H.State) (name : Option String) (rest : List (Return H)) {turn : Turn H}
    (hturn : turn.Tidy) (t' : ThreadId) (level : Nat) :
    (World.apply state w.threads w.next t name rest turn).pendingAt (.thread t' level) =
      if t' = t then Thread.pendingAt ⟨name, turn.control, turn.pushed ++ rest⟩ level
      else w.pendingAt (.thread t' level) := by
  simp only [pendingAt]
  rw [hw.threads_apply ht]
  split
  · exact Thread.pendingAt_heard hturn.sound _ level
  · split
    · rename_i heq
      subst heq
      rw [hw.numbered _ (Nat.le_refl _)]
      rcases hb : turn.born with _ | b
      · rfl
      · exact (hturn.born b hb).pendingAt level
    · rcases hother : w.threads[t']? with _ | other
      · rfl
      · exact Thread.pendingAt_heard (hw.threads t' other hother).control _ level

/-- After a turn, a thread sleeps at the gate of an async node if it did so before or has just
fallen asleep there, and the turn has not notified the gate. -/
theorem Ordered.sleepsAt_apply (hw : w.Ordered) (ht : w.threads[t]? = some thread)
    (state : H.State) (name : Option String) (rest : List (Return H)) {turn : Turn H}
    (hturn : turn.Tidy) (t' : ThreadId) (id : HandoffId) :
    (World.apply state w.threads w.next t name rest turn).SleepsAt t' id ↔
      (if t' = t then turn.control.SleepsAt id else w.SleepsAt t' id) ∧
        turn.notified ≠ some (.handoff id) := by
  simp only [SleepsAt]
  rw [hw.threads_apply ht]
  split
  · simp only [Option.some.injEq, exists_eq_left']
    exact Thread.sleepsAt_heard _ _ _
  · split
    · rename_i heq
      subst heq
      rw [hw.numbered _ (Nat.le_refl _)]
      constructor
      · rintro ⟨b, hb, hsleeps⟩
        exact absurd hsleeps ((hturn.born b hb).awake id)
      · rintro ⟨⟨other, hother, -⟩, -⟩
        contradiction
    · constructor
      · rintro ⟨thread', h, hsleeps⟩
        obtain ⟨other, hother, rfl⟩ := Option.map_eq_some_iff.1 h
        obtain ⟨hsleeps, hnotified⟩ := (Thread.sleepsAt_heard _ _ _).1 hsleeps
        exact ⟨⟨other, hother, hsleeps⟩, hnotified⟩
      · rintro ⟨⟨other, hother, hsleeps⟩, hnotified⟩
        exact ⟨_, Option.map_eq_some_iff.2 ⟨other, hother, rfl⟩,
          (Thread.sleepsAt_heard _ _ _).2 ⟨hsleeps, hnotified⟩⟩

end Apply

end World

end Trampoline
