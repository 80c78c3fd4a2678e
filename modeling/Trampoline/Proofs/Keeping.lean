import Trampoline.Proofs.Counting
import Trampoline.Proofs.Naming

/-!
What tasks name, and what turns pass on. A turn names nothing but what its task has named, what can
be got hold of from there through objects, and objects that it has made; and the same is put into
objects. The sender of a channel is in the hands of the interpretation that ends into the channel,
so it is not counted among the named objects.
-/

namespace Trampoline

/-- What the place names into which an exit goes, except the sender of a channel. -/
@[simp] def Finish.Names {F : Type} : Finish F → Ref → Prop
  | .callback _ _ target, x => x ∈ target.kept
  | .channel _ _ _, _ => False
  | .fiber _ _ target _, x => x = .promise target

/-- The exit goes into a channel through a sender. -/
@[simp] def Finish.Sends {F : Type} : Finish F → Ref → Prop
  | .channel _ _ id, x => x = .sender id
  | _, _ => False

theorem Finish.mem_kept {F : Type} {finish : Finish F} {x : Ref} :
    x ∈ finish.kept ↔ finish.Names x ∨ finish.Sends x := by
  cases finish <;> simp [kept, eq_comm (b := x)]

variable {H : Host} {x y : Ref}

@[simp] def Task.Names : Task H → Ref → Prop
  | .give v, x => x ∈ v.kept
  | .user code reply, x => x ∈ H.codeRefs code [] ∨ reply.Names x
  | .call f args, x => x ∈ f.kept ∨ ∃ v ∈ args, x ∈ v.kept
  | .request q, x => q.Names x
  | .drive i last finish, x => i.Names last x ∨ finish.Names x
  | .answer question, x => question.Names x
  | .park handoff frames last finish, x =>
      x = .handoff handoff ∨ Frame.SomeKeeps frames x ∨ x ∈ last ∨ finish.Names x
  | .deliver handoff exit _, x => x = .handoff handoff ∨ exit.Names x
  | .resume exit frames finish, x => exit.Names x ∨ Frame.SomeKeeps frames x ∨ finish.Names x
  | .conclude exit finish, x => exit.Names x ∨ finish.Names x
  | .submit _ work, x => x ∈ work.kept
  | .perform work, x => x ∈ work.kept
  | .report _ _, _ => False
  | .register r target, x => x ∈ r.kept ∨ x ∈ target.kept
  | .invoke target outcome, x => x ∈ target.kept ∨ Outcome.Names outcome x
  | .fill promise v, x => x = .promise promise ∨ x ∈ v.kept
  | .take promise v, x => x = .promise promise ∨ x ∈ v.kept
  | .wake promise v subscribers, x =>
      x = .promise promise ∨ x ∈ v.kept ∨ ∃ s ∈ subscribers, s.Names x
  | .notify promise v subscribers _, x =>
      x = .promise promise ∨ x ∈ v.kept ∨ ∃ s ∈ subscribers, s.Names x
  | .tell subscriber v, x => subscriber.Names x ∨ x ∈ v.kept
  | .subscribe promise subscriber, x => x = .promise promise ∨ subscriber.Names x
  | .await promise, x => x = .promise promise
  | .awaitUntil promise _, x => x = .promise promise
  | .peek promise, x => x = .promise promise
  | .receive _ _ channel _, x => x = .receiver channel
  | .lost _, _ => False
  | .collect _ _ future channel, x => x = .future future ∨ x = .receiver channel
  | .hang _ _ future channel, x => x = .future future ∨ x = .receiver channel

/-- The interpretation ends into the channel of a sender. -/
def Pending.Sends {D F : Type} (pending : Option (Pending D F)) (x : Ref) : Prop :=
  ∃ stage finish, pending = some (stage, finish) ∧ finish.Sends x

@[simp] theorem Pending.sends_none {D F : Type} : ¬Sends (none : Option (Pending D F)) x := by
  simp [Sends]

@[simp] theorem Pending.sends_some {D F : Type} {stage : Stage D F} {finish : Finish F} :
    Sends (some (stage, finish)) x ↔ finish.Sends x := by
  simp [Sends]

@[simp] def Return.Names : Return H → Ref → Prop
  | .user code, x => x ∈ H.codeRefs code []
  | .answering post frames last applied finish, x =>
      post.Names x ∨ Frame.SomeKeeps frames x ∨ x ∈ last ∨ x ∈ applied ∨ finish.Names x
  | .guarded _, _ => False
  | .guarding handoff r, x => x = .handoff handoff ∨ x ∈ r.kept
  | .holding held, x => x ∈ held
  | .driving, _ => False
  | .after task, x => task.Names x
  | .polling _ _ future channel, x => x = .future future ∨ x = .receiver channel
  | .notifying promise v subscribers _, x =>
      x = .promise promise ∨ x ∈ v.kept ∨ ∃ s ∈ subscribers, s.Names x
  | .reading, _ => False
  | .givingBack, _ => False

@[simp] def Control.Names : Control H → Ref → Prop
  | .run task, x => task.Names x
  | .ret v, x => x ∈ v.kept
  | .raise _, _ => False
  | .asleep _ woken missed, x => woken.Names x ∨ missed.Names x

def Thread.Names (thread : Thread H) (x : Ref) : Prop :=
  thread.control.Names x ∨ ∃ back ∈ thread.stack, back.Names x

def Turn.Names (turn : Turn H) (x : Ref) : Prop :=
  turn.control.Names x ∨ (∃ back ∈ turn.pushed, back.Names x) ∨
    ∃ thread, turn.born = some thread ∧ thread.Names x

@[simp] def Handoff.Names {D F : Type} : Handoff D F → Ref → Prop
  | ⟨_, .early exit⟩, x => exit.Names x
  | ⟨_, .parked frames finish⟩, x => Frame.SomeKeeps frames x ∨ finish.Names x
  | ⟨_, .submitting⟩, _ => False
  | ⟨_, .resumed⟩, _ => False

@[simp] def Promise.Names {D F : Type} (p : Promise D F) (x : Ref) : Prop :=
  (∃ v, p.value = some v ∧ x ∈ v.kept) ∨ ∃ s ∈ p.subscribers, s.Names x

@[simp] def Channel.Names {D F : Type} : Channel D F → Ref → Prop
  | .full exit, x => exit.Names x
  | _, _ => False

@[simp] def Future.Names {D F : Type} : Future D F → Ref → Prop
  | .fresh node, x => x ∈ node.kept
  | .running channel, x => x = .receiver channel
  | _, _ => False

namespace Heap

/-- What an object names. -/
@[simp] def Names {D F : Type} (heap : Heap D F) : Ref → Ref → Prop
  | .handoff id, x => ∃ h, heap.handoffs[id]? = some h ∧ h.Names x
  | .promise id, x => ∃ p, heap.promises[id]? = some p ∧ p.Names x
  | .sender _, _ => False
  | .receiver id, x => ∃ c, heap.channels[id]? = some c ∧ c.Names x
  | .future id, x => ∃ future, heap.futures[id]? = some future ∧ future.Names x

/-- An object keeps what it names, and the sender of the channel into which an interpretation ends
that is parked there. -/
theorem mem_kept {heap : Heap H.Data H.Fn} : x ∈ heap.kept y ↔ heap.Names y x ∨
    ∃ id, y = .handoff id ∧ Pending.Sends (heap.pendingAt id) x := by
  cases y with
  | handoff id =>
      simp only [kept, Names]
      cases hid : heap.handoffs[id]? with
      | none => simp [Heap.pendingAt, hid]
      | some h =>
          obtain ⟨submitter, phase⟩ := h
          cases phase <;> simp [Heap.pendingAt, Handoff.pending?, Finish.mem_kept, hid, or_assoc]
  | promise id =>
      simp only [kept, Names]
      cases heap.promises[id]? with
      | none => simp
      | some p =>
          obtain ⟨ty, value, subscribers⟩ := p
          cases value <;> simp [or_comm]
  | sender id => simp [kept]
  | receiver id =>
      simp only [kept, Names]
      cases heap.channels[id]? with
      | none => simp
      | some c => cases c <;> simp
  | future id =>
      simp only [kept, Names]
      cases heap.futures[id]? with
      | none => simp
      | some future => cases future <;> simp

end Heap

/-- The references in the code and in the state of the host stand in front of others. -/
structure Host.ListsInFront (H : Host) : Prop where
  code (code : H.Code) (refs : List Ref) : H.codeRefs code refs = H.codeRefs code [] ++ refs
  state (state : H.State) (refs : List Ref) : H.stateRefs state refs = H.stateRefs state [] ++ refs

/-- The references that are put in front of others one after the other. -/
theorem Ref.mem_foldl {α : Type} {f : List Ref → α → List Ref} {P : α → Prop} (l : List α)
    (hf : ∀ a ∈ l, ∀ refs, x ∈ f refs a ↔ P a ∨ x ∈ refs) (refs : List Ref) :
    x ∈ l.foldl f refs ↔ (∃ a ∈ l, P a) ∨ x ∈ refs := by
  induction l generalizing refs with
  | nil => simp
  | cons a l ih =>
      rw [List.foldl_cons, ih fun b hb => hf b (List.mem_cons_of_mem _ hb),
        hf a List.mem_cons_self, List.exists_mem_cons_iff]
      grind

section References

variable {refs : List Ref} (hfront : H.ListsInFront)

include hfront

/-- The references in a task are those that it names, and the sender of a channel. -/
theorem Task.mem_refs {task : Task H} :
    x ∈ task.refs refs ↔ task.Names x ∨ Pending.Sends task.pending? x ∨ x ∈ refs := by
  cases task with
  | user code reply =>
      simp [Task.refs, Task.pending?, hfront.code code (reply.refs refs), or_assoc]
  | drive i last finish => simp [Task.refs, Task.pending?, Finish.mem_kept, or_assoc]
  | park handoff frames last finish =>
      simp [Task.refs, Task.pending?, Finish.mem_kept, or_assoc]
  | resume exit frames finish => simp [Task.refs, Task.pending?, Finish.mem_kept, or_assoc]
  | conclude exit finish => simp [Task.refs, Task.pending?, Finish.mem_kept, or_assoc]
  | request q => simp [Task.refs, Task.pending?, Request.mem_refs]
  | _ => simp [Task.refs, Task.pending?, or_assoc]

theorem Return.mem_refs {back : Return H} (hback : back.Sound) :
    x ∈ back.refs refs ↔ back.Names x ∨ Pending.Sends back.pending? x ∨ x ∈ refs := by
  cases back with
  | user code => simp [Return.refs, Return.pending?, hfront.code code refs]
  | answering post frames last applied finish =>
      simp [Return.refs, Return.pending?, Finish.mem_kept, or_assoc]
  | after task =>
      rw [Return.refs, Task.mem_refs hfront]
      cases task with
      | park handoff frames last finish => simp [Task.pending?, Return.pending?]
      | _ =>
          have hnone : Task.pending? _ = none := hback
          simp [hnone, Return.pending?]
  | _ => simp [Return.refs, Return.pending?, or_assoc]

/-- The references in a thread are those that it names, and the senders of the channels into which
interpretations on the thread end. -/
theorem Thread.mem_refs {thread : Thread H} (hthread : thread.Sound) :
    x ∈ thread.refs refs ↔
      thread.Names x ∨ (∃ level, Pending.Sends (thread.pendingAt level) x) ∨ x ∈ refs := by
  obtain ⟨name, control, stack⟩ := thread
  have hstack : x ∈ stack.foldl (fun refs back => back.refs refs) refs ↔
      (∃ back ∈ stack, back.Names x ∨ Pending.Sends back.pending? x) ∨ x ∈ refs :=
    Ref.mem_foldl stack (fun back hback _ => by
      rw [Return.mem_refs hfront (hthread.stack back hback), or_assoc]) refs
  have hlevels : (∃ level, Pending.Sends (Thread.pendingAt ⟨name, control, stack⟩ level) x) ↔
      Pending.Sends control.pending? x ∨ ∃ back ∈ stack, Pending.Sends back.pending? x := by
    constructor
    · rintro ⟨level, stage, finish, hat, hsends⟩
      simp only [Thread.pendingAt] at hat
      split at hat
      · exact .inl ⟨stage, finish, hat, hsends⟩
      · obtain ⟨above, back, rest, rfl, -, hback⟩ := Return.exists_of_pendingAt hat
        exact .inr ⟨back, by simp, stage, finish, hback, hsends⟩
    · rintro (hcontrol | ⟨back, hback, hsends⟩)
      · exact ⟨stack.length, by simpa [Thread.pendingAt] using hcontrol⟩
      · obtain ⟨above, rest, rfl⟩ := List.append_of_mem hback
        refine ⟨rest.length, ?_⟩
        rw [Thread.pendingAt, if_neg (by simp; omega), Return.pendingAt_back]
        exact hsends
  rw [hlevels]
  have hcontrol : x ∈ Thread.refs ⟨name, control, stack⟩ refs ↔
      control.Names x ∨ Pending.Sends control.pending? x ∨
        x ∈ stack.foldl (fun refs back => back.refs refs) refs := by
    cases control with
    | run task => exact Task.mem_refs hfront
    | ret v => simp [Thread.refs, Control.pending?]
    | raise payload => simp [Thread.refs, Control.pending?]
    | asleep wait woken missed =>
        obtain ⟨hwoken, hmissed, -⟩ := hthread.control
        simp [Thread.refs, Control.pending?, Task.mem_refs hfront, hwoken, hmissed, or_assoc]
  rw [hcontrol, hstack, Thread.Names]
  grind

end References

end Trampoline
