import Trampoline.Proofs.Preserving

/-!
Turns keep to types. What a task or a return comes to is of the types that the stack takes; an
object that is made gets the types of what will be kept in it.
-/

namespace Trampoline

variable {H : Host} {T : H.Typing} {L : Types} {heap : Heap H.Data H.Fn}
  {stack rest : List (Return H)} {a b e v r : Ty} {payload : Payload}

theorem Task.IsSafe.weaken {task : Task H} {takes takes' : Ty → Prop} (h : task.IsSafe T L takes)
    (htakes : ∀ a, takes a → takes' a) : task.IsSafe T L takes' := h.extends (.refl L) htakes

namespace Turn.IsSafe

variable {task next : Task H} (hheap : heap.IsTyped T.toSignature L)
include hheap

theorem ret {w : Value H.Data H.Fn} (hw : w.HasType T.toSignature L a)
    (htake : Return.Take T L stack a) : (Turn.ret heap w).IsSafe T L stack :=
  ⟨hheap, .ret hw htake, fun _ h => by contradiction⟩

theorem raise (hpanics : T.panics payload) (htake : Return.Take T L stack a) :
    (Turn.raise heap payload).IsSafe T L stack :=
  ⟨hheap, .raise hpanics htake, fun _ h => by contradiction⟩

theorem run (htask : task.IsSafe T L (Return.Take T L stack)) :
    (Turn.run heap task).IsSafe T L stack :=
  ⟨hheap, .run htask, fun _ h => by contradiction⟩

theorem call {back : Return H} (htask : task.IsSafe T L (Return.Take T L (back :: stack))) :
    (Turn.call heap task back).IsSafe T L stack :=
  ⟨hheap, .run htask, fun _ h => by contradiction⟩

theorem seq (htask : task.IsSafe T L fun _ => True)
    (hnext : next.IsSafe T L (Return.Take T L stack)) (htake : Return.Take T L stack a) :
    (Turn.seq heap task next).IsSafe T L stack :=
  call hheap (htask.weaken fun _ _ => ⟨hnext, a, htake⟩)

theorem discard (htask : task.IsSafe T L fun _ => True) (htake : Return.Take T L stack .unit) :
    (Turn.discard heap task).IsSafe T L stack :=
  seq hheap htask (.give .unit htake) htake

theorem sleep {wait : Wait H} {woken missed : Task H}
    (hwoken : woken.IsSafe T L (Return.Take T L stack))
    (hmissed : missed.IsSafe T L (Return.Take T L stack)) :
    (Turn.sleep heap wait woken missed).IsSafe T L stack :=
  ⟨hheap, .asleep hwoken hmissed, fun _ h => by contradiction⟩

end Turn.IsSafe

section Tasks

variable (hheap : heap.IsTyped T.toSignature L)
include hheap

/-- What an answer to a question comes to. A fork makes a fiber. -/
theorem Ask.HasType.turn {question : Ask H.Data H.Fn} (h : question.HasType T.toSignature L a)
    (htake : Return.Take T L stack a) (here : Here) :
    ∃ L', L.Extends L' ∧ (question.turn here heap).IsSafe T L' stack := by
  have hrefl := Types.Extends.refl L
  cases h with
  | call hf hargs => exact ⟨L, hrefl, .run hheap (.call hf hargs htake)⟩
  | @fork a e source s hsource =>
      obtain ⟨L', hle, hheap', hid⟩ := hheap.exists_newPromise (.slot a e)
      exact ⟨L', hle, .seq hheap' (.submit (.interpret (hsource.extends hle) (.fiber hid)) trivial)
        (.give (.effect (.join hid)) (htake.extends hle)) (htake.extends hle)⟩
  | print => exact ⟨L, hrefl, .ret (hheap.print _) .unit htake⟩
  | threadName => exact ⟨L, hrefl, .ret hheap .text htake⟩
  | emit => exact ⟨L, hrefl, .ret (hheap.emit _) .unit htake⟩
  | clock => exact ⟨L, hrefl, .ret (hheap.emit _) .instant htake⟩

theorem Heap.IsTyped.promised {id : PromiseId} {w : Value H.Data H.Fn}
    (hid : L.promises[id]? = some a) (hw : heap.promised? id = some w) :
    w.HasType T.toSignature L a := by
  obtain ⟨p, hp, htype⟩ := hheap.promises.exists_object hid
  rw [Heap.promised?, hp] at hw
  exact htype.value w hw

theorem Heap.IsTyped.received {id : ChannelId} {exit : Exit (Outcome H.Data H.Fn)}
    (hid : L.channels[id]? = some (a, e)) (hexit : heap.received? id = some exit) :
    exit.HasTypes T.toSignature L a e := by
  obtain ⟨c, hc, htypes⟩ := hheap.channels.exists_object hid
  rw [Heap.received?, hc] at hexit
  cases htypes with
  | full hexit' =>
      obtain rfl := Option.some.inj hexit
      exact hexit'
  | _ => contradiction

/-- What a request comes to. An effect that is run settles at its types in the object that is made
for it. -/
theorem Request.IsSafe.turn {q : Request H.Data H.Fn}
    (h : q.IsSafe T.toSignature L (Return.Take T L stack)) :
    ∃ L', L.Extends L' ∧ (q.turn stack heap).IsSafe T L' stack := by
  have hrefl := Types.Extends.refl L
  cases h with
  | @runBlocking a e node hnode htake =>
      obtain ⟨L', hle, hheap', hid⟩ := hheap.exists_newChannel a e
      exact ⟨L', hle, .seq hheap'
        (.drive (.node (hnode.extends hle) .nil) (.channel hid) trivial)
        (.receive hid (htake.extends hle)) (htake.extends hle)⟩
  | runWith hnode htarget htake =>
      exact ⟨L, hrefl, .discard hheap (.drive (.node hnode .nil) (.callback htarget) trivial) htake⟩
  | @runFiber a e node s hnode htake =>
      obtain ⟨L', hle, hheap', hid⟩ := hheap.exists_newPromise (.slot a e)
      exact ⟨L', hle, .seq hheap' (.submit (.interpret (hnode.extends hle) (.fiber hid)) trivial)
        (.give (.fiber hid) (htake.extends hle)) (htake.extends hle)⟩
  | runAsync hnode htake =>
      obtain ⟨L', hle, hheap', hid⟩ := hheap.exists_newFuture hnode
      exact ⟨L', hle, .ret hheap' (.future hid) (htake.extends hle)⟩
  | @poll a e future hid htake =>
      obtain ⟨f, hf, htypes⟩ := hheap.futures.exists_object hid
      cases htypes with
      | fresh hnode =>
          obtain ⟨L', hle, hheap', hchannel⟩ := hheap.exists_newChannel a e
          have hfuture (a' e' : Ty) (hid' : L'.futures[future]? = some (a', e')) :
              Future.HasTypes T.toSignature L' (.running heap.newChannel.2) a' e' := by
            obtain ⟨rfl, rfl⟩ := Prod.mk.inj (Option.some.inj ((hle.future hid).symm.trans hid'))
            exact .running hchannel
          simp only [Request.turn, hf]
          exact ⟨L', hle, .call (hheap'.setFuture hfuture)
            (.drive (.node (hnode.extends hle) .nil) (.channel hchannel)
              ⟨hchannel, htake.extends hle⟩)⟩
      | running hchannel =>
          simp only [Request.turn, hf]
          exact ⟨L, hrefl, .run hheap (.collect hchannel htake)⟩
      | hung =>
          simp only [Request.turn, hf]
          exact ⟨L, hrefl, .ret hheap .absent htake⟩
      | finished =>
          simp only [Request.turn, hf]
          exact ⟨L, hrefl, .raise hheap T.panics_polledAgain htake⟩
  | dropFuture htake =>
      refine ⟨L, hrefl, ?_⟩
      rw [Request.turn]
      split
      · exact .ret ((hheap.setChannel fun _ _ _ => .closed).setFuture fun _ _ _ => .finished) .unit
          htake
      · exact .ret (hheap.setFuture fun _ _ _ => .finished) .unit htake
  | @blockOn a e node hnode htake =>
      rw [Request.turn]
      split
      · exact ⟨L, hrefl, .raise hheap T.panics_drivenWithin htake⟩
      · obtain ⟨L', hle, hheap', hid⟩ := hheap.exists_newChannel a e
        have hreceive {warning : Event} :
            Task.IsSafe T L' (Return.Take T L' stack) (.receive a e heap.newChannel.2 warning) :=
          .receive hid (htake.extends hle)
        exact ⟨L', hle, hheap', .run (.drive (.node (hnode.extends hle) .nil) (.channel hid)
          ⟨hreceive, _, htake.extends hle⟩), fun _ h => by contradiction⟩
  | complete htarget ho htake =>
      exact ⟨L, hrefl, .discard hheap (.invoke htarget ho trivial) htake⟩
  | newPromise htake =>
      obtain ⟨L', hle, hheap', hid⟩ := hheap.exists_newPromise _
      exact ⟨L', hle, .ret hheap' (.promise hid) (htake.extends hle)⟩
  | fill hid hv htake => exact ⟨L, hrefl, .run hheap (.fill hid hv htake)⟩
  | await hid htake => exact ⟨L, hrefl, .run hheap (.await hid htake)⟩
  | awaitFor hid htake =>
      rw [Request.turn]
      split
      · exact ⟨L, hrefl, .run hheap (.awaitUntil hid htake)⟩
      · exact ⟨L, hrefl, .raise hheap T.panics_beyondInstants htake⟩
  | subscribe hid hf htake => exact ⟨L, hrefl, .run hheap (.subscribe hid (.user hf) htake)⟩
  | newFiber htake =>
      obtain ⟨L', hle, hheap', hid⟩ := hheap.exists_newPromise _
      exact ⟨L', hle, .ret hheap' (.fiber hid) (htake.extends hle)⟩
  | completedFiber ho htake =>
      obtain ⟨L', hle, hheap', hid⟩ := hheap.exists_newPromise _
      exact ⟨L', hle, .seq hheap' (.fill hid (.slot (.ofOutcome (ho.extends hle))) trivial)
        (.give (.fiber hid) (htake.extends hle)) (htake.extends hle)⟩
  | fillFiber hid ho hslot hresult =>
      exact ⟨L, hrefl, .call hheap (.fill hid (.slot (.ofOutcome ho)) ⟨_, _, rfl, hslot, hresult⟩)⟩
  | awaitFiber hid htake =>
      exact ⟨L, hrefl, .call hheap (.await hid ⟨_, _, .inl ⟨rfl, htake⟩⟩)⟩
  | awaitFiberFor hid htake =>
      rw [Request.turn]
      split
      · exact ⟨L, hrefl, .call hheap (.awaitUntil hid ⟨_, _, .inr ⟨rfl, htake⟩⟩)⟩
      · exact ⟨L, hrefl, .raise hheap T.panics_beyondInstants htake⟩
  | observe hid htarget htake =>
      exact ⟨L, hrefl, .run hheap (.subscribe hid (.observe htarget) htake)⟩
  | submit hwork htake => exact ⟨L, hrefl, .run hheap (.submit hwork htake)⟩
  | report htake => exact ⟨L, hrefl, .run hheap (.report htake)⟩
  | perform hwork htake => exact ⟨L, hrefl, .run hheap (.perform hwork htake)⟩
  | spawn hf htake =>
      rw [Request.turn]
      split
      · next hrefusal =>
          obtain ⟨name, -, hname⟩ := Option.bind_eq_some_iff.1 hrefusal
          exact ⟨L, hrefl, .raise hheap (T.panics_refusal hname) htake⟩
      · refine ⟨L, hrefl, hheap, .ret .unit htake, fun thread hborn => ?_⟩
        obtain rfl := Option.some.inj hborn
        exact .run (.call hf .nil trivial)

theorem Work.IsTyped.submitTurn {s : SchedulerId} {work : Work H.Data H.Fn}
    (h : work.IsTyped T.toSignature L) (htake : Return.Take T L stack .unit) :
    (Task.submitTurn heap s work).IsSafe T L stack := by
  have hcounted : (heap.modifyScheduler s .counted).IsTyped T.toSignature L :=
    hheap.modifyScheduler fun _ => Scheduler.IsTyped.counted
  have hguarded {heap' : Heap H.Data H.Fn} {name : Option String}
      (hheap' : heap'.IsTyped T.toSignature L) :
      Turn.IsSafe T L stack
        ⟨heap', [], .ret .unit, none, some (.starting name (.perform work) [.guarded s])⟩ := by
    refine ⟨hheap', .ret .unit htake, fun thread hborn => ?_⟩
    obtain rfl := Option.some.inj hborn
    exact .run (.perform h trivial)
  unfold Task.submitTurn
  split
  · exact .call hheap (.perform h htake)
  · exact .call hcounted (.perform h htake)
  · dsimp only
    split
    · next hrefusal => exact .raise hcounted (T.panics_refusal hrefusal) htake
    · split
      · exact .run hcounted (.report htake)
      · exact hguarded hcounted
  · exact hguarded hheap
  · next hs =>
      obtain ⟨reply, hf⟩ := (hheap.schedulers _ _ hs).submit _ _ rfl
      exact .discard hheap (.call hf (.cons (.work h) .nil) trivial) htake
  · exact .ret hheap .unit htake

theorem Turn.IsSafe.reportTurn {s : SchedulerId} {failure : WorkFailure}
    (htake : Return.Take T L stack .unit) : (Task.reportTurn heap s failure).IsSafe T L stack := by
  unfold Task.reportTurn
  split
  · next scheduler hs =>
      have htyped := hheap.schedulers _ _ hs
      split
      · exact .ret (hheap.emit _) .unit htake
      · next hhook =>
          cases htyped.hook _ hhook with
          | user hf => exact .discard hheap (.call hf (.cons .failure .nil) trivial) htake
      · exact .ret (hheap.modifyScheduler fun _ => Scheduler.IsTyped.reported) .unit htake
  · exact .ret hheap .unit htake

/-- An exit of the types of a place is taken there. -/
theorem Exit.HasTypes.concludeTurn {exit : Exit (Outcome H.Data H.Fn)} {finish : Finish H.Fn}
    (h : exit.HasTypes T.toSignature L a e) (hfinish : finish.HasTypes T.toSignature L a e)
    (htake : Return.Take T L stack .unit) :
    (Task.concludeTurn heap exit finish).IsSafe T L stack := by
  cases h with
  | @panicked _ _ payload hpanics =>
      cases hfinish with
      | callback => exact .raise hheap hpanics htake
      | channel hid => exact .ret (hheap.send hid (.panicked hpanics)) .unit htake
      | fiber hid =>
          have hgive : Task.IsSafe T L (Return.Take T L stack) (.give .unit) := .give .unit htake
          have hmark : Task.IsSafe T L (Return.Take T L (.after (.give .unit) :: stack))
              (.fill _ (.slot a e (.panicked (.ofPanic "fiber" payload)))) :=
            .fill hid (.slot (.panicked (T.panics_text hpanics))) ⟨hgive, _, htake⟩
          exact ⟨hheap.emit _, .run (.report ⟨hmark, .unit, hgive, _, htake⟩),
            fun _ h => by contradiction⟩
  | settled ho =>
      cases hfinish with
      | callback htarget =>
          simp only [Task.concludeTurn, ho.restore]
          exact .run hheap (.invoke htarget ho htake)
      | channel hid =>
          simp only [Task.concludeTurn, ho.restore]
          exact .ret (hheap.send hid (.settled ho)) .unit htake
      | fiber hid =>
          simp only [Task.concludeTurn, ho.restore]
          exact .discard hheap (.fill hid (.slot (.ofOutcome ho)) trivial) htake

theorem Exit.HasTypes.deliverTurn {exit : Exit (Outcome H.Data H.Fn)} {id : HandoffId}
    (h : exit.HasTypes T.toSignature L a e) (hid : L.handoffs[id]? = some (a, e)) (here : Here)
    (origin : Origin) (htake : Return.Take T L stack .unit) :
    (Task.deliverTurn here heap id exit origin).IsSafe T L stack := by
  obtain ⟨⟨submitter, phase⟩, hhandoff, htypes⟩ := hheap.handoffs.exists_object hid
  have hdeliver : Task.IsSafe T L (Return.Take T L stack) (.deliver id exit origin) :=
    .deliver hid h htake
  simp only [Task.deliverTurn, hhandoff]
  cases htypes with
  | submitting =>
      by_cases hsubmitter : here.thread = submitter
      · simp only [Handoff.offer, if_pos hsubmitter]
        exact .ret (hheap.setHandoff hid (.early h)) .unit htake
      · simp only [Handoff.offer, if_neg hsubmitter]
        exact .sleep hheap hdeliver hdeliver
  | parked hframes hfinish =>
      exact .run (hheap.setHandoff hid .resumed) (.resume h hframes hfinish htake)
  | early | resumed =>
      simp only [Handoff.offer]
      split
      · cases h with
        | panicked hpanics => exact .raise hheap hpanics htake
      · exact .ret (hheap.emit _) .unit htake

theorem Frame.HaveTypes.parkTurn {id : HandoffId} {frames : List (Frame H.Data H.Fn)}
    {last : Kept} {finish : Finish H.Fn} (hframes : Frame.HaveTypes T.toSignature L frames a e v r)
    (hid : L.handoffs[id]? = some (a, e)) (hfinish : finish.HasTypes T.toSignature L v r)
    (htake : Return.Take T L stack .unit) :
    (Task.parkTurn heap id frames last finish).IsSafe T L stack := by
  obtain ⟨⟨submitter, phase⟩, hhandoff, htypes⟩ := hheap.handoffs.exists_object hid
  have hparked : Turn.IsSafe T L stack
      ⟨(heap.emit (.parking frames.length)).setHandoff id ⟨submitter, .parked frames finish⟩, [],
        .ret .unit, some (.handoff id), none⟩ :=
    ⟨(hheap.emit _).setHandoff hid (.parked hframes hfinish), .ret .unit htake,
      fun _ h => by contradiction⟩
  simp only [Task.parkTurn, hhandoff]
  cases htypes with
  | early hexit =>
      exact .run (hheap.setHandoff hid .resumed) (.drive (.exit hexit hframes) hfinish htake)
  | submitting | parked | resumed => exact hparked

/-- An interpretation goes on at its types. An async node gets a meeting point of its own types. -/
theorem Interpretation.HasTypes.driveTurn {i : Interpretation H.Data H.Fn} {finish : Finish H.Fn}
    (h : i.HasTypes T.toSignature L v r) (hfinish : finish.HasTypes T.toSignature L v r)
    (htake : Return.Take T L stack .unit) (here : Here) (last : Kept) :
    ∃ L', L.Extends L' ∧ (Task.driveTurn here heap i last finish).IsSafe T L' stack := by
  have hrefl := Types.Extends.refl L
  have hprogress := h.step
  generalize hstep : i.step = progress at hprogress
  cases hprogress with
  | next hi =>
      simp only [Task.driveTurn, hstep]
      exact ⟨L, hrefl, .run hheap (.drive hi hfinish htake)⟩
  | ask hquestion hpost hframes =>
      simp only [Task.driveTurn, hstep]
      exact ⟨L, hrefl, .call hheap (.answer hquestion ⟨_, _, _, _, hpost, hframes, hfinish, htake⟩)⟩
  | suspend hregister hframes =>
      obtain ⟨L', hle, hheap', hid⟩ := hheap.exists_newHandoff _ _ here.thread
      simp only [Task.driveTurn, hstep]
      exact ⟨L', hle, .seq hheap' (.submit (.register (hregister.extends hle) hid) trivial)
        (.park hid (hframes.extends hle) (hfinish.extends hle) (htake.extends hle))
        (htake.extends hle)⟩
  | finish hexit =>
      simp only [Task.driveTurn, hstep]
      exact ⟨L, hrefl, .call hheap (.conclude hexit hfinish htake)⟩

theorem Register.HasTypes.registerTurn {r : Register H.Fn} {target : Callback H.Fn}
    (h : r.HasTypes T.toSignature L a e) (htarget : target.HasTypes T.toSignature L a e)
    (htake : Return.Take T L stack .unit) :
    (Task.registerTurn heap target r).IsSafe T L stack := by
  cases h with
  | user hf => exact .discard hheap (.call hf (.cons (.callback htarget) .nil) trivial) htake
  | join hid => exact .run hheap (.subscribe hid (.join htarget) htake)
  | sleep =>
      exact .sleep hheap (.invoke htarget (.ok .unit) htake) (.invoke htarget (.ok .unit) htake)
  | never => exact .ret hheap .unit htake

/-- A subscriber is told a value of the type that it takes. -/
theorem Subscriber.Takes.tellTurn {s : Subscriber H.Fn} {w : Value H.Data H.Fn}
    (h : s.Takes T.toSignature L a) (hw : w.HasType T.toSignature L a)
    (htake : Return.Take T L stack .unit) : (Task.tellTurn heap w s).IsSafe T L stack := by
  cases h with
  | user hf => exact .discard hheap (.call hf (.cons hw .nil) trivial) htake
  | join htarget => exact .run hheap (.invoke htarget (.ok hw) htake)
  | observe htarget =>
      cases hw with
      | slot hs =>
          rcases hs.read with ⟨o, hread, ho⟩ | ⟨report, rfl, hreport⟩
          · simp only [Task.tellTurn, hread]
            exact .run hheap (.invoke htarget ho htake)
          · exact .raise hheap hreport htake

/-- What a task comes to keeps to the types that the stack takes. -/
theorem Task.IsSafe.turn {task : Task H} (h : task.IsSafe T L (Return.Take T L stack))
    (here : Here) : ∃ L', L.Extends L' ∧ (task.turn here stack heap).IsSafe T L' stack := by
  have hrefl := Types.Extends.refl L
  cases h with
  | give hv htake => exact ⟨L, hrefl, .ret hheap hv htake⟩
  | user hc htake => exact ⟨L, hrefl, .run hheap (.user hc htake)⟩
  | call hf hargs htake => exact ⟨L, hrefl, .run hheap (.user (T.enter hf hargs) htake)⟩
  | request hq => exact hq.turn hheap
  | drive hi hfinish htake => exact hi.driveTurn hheap hfinish htake here _
  | answer hquestion htake => exact hquestion.turn hheap htake here
  | park hid hframes hfinish htake => exact ⟨L, hrefl, hframes.parkTurn hheap hid hfinish htake⟩
  | deliver hid hexit htake => exact ⟨L, hrefl, hexit.deliverTurn hheap hid here _ htake⟩
  | resume hexit hframes hfinish htake =>
      exact ⟨L, hrefl, .run (hheap.emit _) (.drive (.exit hexit hframes) hfinish htake)⟩
  | conclude hexit hfinish htake => exact ⟨L, hrefl, hexit.concludeTurn hheap hfinish htake⟩
  | submit hwork htake => exact ⟨L, hrefl, hwork.submitTurn hheap htake⟩
  | perform hwork htake =>
      cases hwork with
      | register hregister hid =>
          exact ⟨L, hrefl, .call hheap (.register hregister (.node hid) ⟨⟨_, _, hid⟩, htake⟩)⟩
      | interpret hnode hfinish =>
          exact ⟨L, hrefl, .run hheap (.drive (.node hnode .nil) hfinish htake)⟩
      | user hf => exact ⟨L, hrefl, .discard hheap (.call hf .nil trivial) htake⟩
  | report htake => exact ⟨L, hrefl, .reportTurn hheap htake⟩
  | register hregister htarget htake =>
      exact ⟨L, hrefl, hregister.registerTurn hheap htarget htake⟩
  | invoke htarget ho htake =>
      cases htarget with
      | node hid => exact ⟨L, hrefl, .run hheap (.deliver hid (.settled ho) htake)⟩
      | user hf =>
          exact ⟨L, hrefl, .discard hheap (.call hf (.cons (.ofOutcome ho) .nil) trivial) htake⟩
  | fill hid hv htake =>
      obtain ⟨p, hp, htype⟩ := hheap.promises.exists_object hid
      simp only [Task.turn, hp, Promise.write]
      cases hvalue : p.value with
      | none =>
          have hp' : Promise.HasType T.toSignature L { p with value := some _ } _ :=
            ⟨htype.ty, fun _ heq => Option.some.inj heq ▸ hv, htype.subscribers⟩
          exact ⟨L, hrefl, .run (hheap.setPromise hid hp') (.take hid hv htake)⟩
      | some w => exact ⟨L, hrefl, .ret hheap (htype.ty ▸ .err hv) (htype.ty ▸ htake)⟩
  | take hid hv htake =>
      obtain ⟨p, hp, htype⟩ := hheap.promises.exists_object hid
      have hp' : Promise.HasType T.toSignature L { p with subscribers := [] } _ :=
        ⟨htype.ty, htype.value, fun _ hmem => by contradiction⟩
      simp only [Task.turn, hp, Promise.take]
      exact ⟨L, hrefl, .run (hheap.setPromise hid hp')
        (.wake hv (fun s hmem => htype.subscribers s (List.mem_reverse.1 hmem)) htake)⟩
  | wake hv hs htake =>
      exact ⟨L, hrefl, hheap, .run (.notify hv hs (fun _ h => by contradiction) htake),
        fun _ h => by contradiction⟩
  | @notify a id w subscribers first hv hs hfirst htake =>
      cases subscribers with
      | nil =>
          cases first with
          | none => exact ⟨L, hrefl, .ret hheap (hv.ty_eq ▸ .ok .unit) (hv.ty_eq ▸ htake)⟩
          | some payload => exact ⟨L, hrefl, .raise (hheap.emit _) (hfirst payload rfl) htake⟩
      | cons subscriber rest =>
          have hrest (s : Subscriber H.Fn) (hmem : s ∈ rest) : s.Takes T.toSignature L a :=
            hs s (List.mem_cons_of_mem _ hmem)
          exact ⟨L, hrefl, .call hheap
            (.tell (hs subscriber List.mem_cons_self) hv ⟨a, hv, hrest, hfirst, htake⟩)⟩
  | tell hs hv htake => exact ⟨L, hrefl, hs.tellTurn hheap hv htake⟩
  | subscribe hid hs htake =>
      obtain ⟨p, hp, htype⟩ := hheap.promises.exists_object hid
      simp only [Task.turn, hp, Promise.subscribe]
      cases hvalue : p.value with
      | none =>
          have hp' : Promise.HasType T.toSignature L ⟨p.ty, none, _ :: p.subscribers⟩ _ :=
            ⟨htype.ty, fun _ heq => by contradiction, fun s' hmem => by
              rcases List.mem_cons.1 hmem with rfl | hmem
              · exact hs
              · exact htype.subscribers s' hmem⟩
          exact ⟨L, hrefl, .ret (hheap.setPromise hid hp') .unit htake⟩
      | some w => exact ⟨L, hrefl, .call hheap (.tell hs (htype.value w hvalue) htake)⟩
  | await hid htake =>
      rw [Task.turn]
      split
      · next hw => exact ⟨L, hrefl, .ret hheap (hheap.promised hid hw) htake⟩
      · exact ⟨L, hrefl, .sleep hheap (.await hid htake) (.await hid htake)⟩
  | awaitUntil hid htake =>
      rw [Task.turn]
      split
      · next w hw =>
          have hv := hheap.promised hid hw
          exact ⟨L, hrefl, .ret hheap (.present (hv.ty_eq ▸ hv)) (hv.ty_eq ▸ htake)⟩
      · exact ⟨L, hrefl, .sleep hheap (.awaitUntil hid htake) (.peek hid htake)⟩
  | peek hid htake =>
      obtain ⟨p, hp, htype⟩ := hheap.promises.exists_object hid
      simp only [Task.turn, hp]
      cases hvalue : p.value with
      | none => exact ⟨L, hrefl, .ret hheap .absent (htype.ty ▸ htake)⟩
      | some w =>
          have hv := htype.value w hvalue
          exact ⟨L, hrefl, .ret hheap (.present (htype.ty ▸ hv)) (htype.ty ▸ htake)⟩
  | receive hid htake =>
      rw [Task.turn]
      split
      · next hexit =>
          cases hheap.received hid hexit with
          | settled ho => exact ⟨L, hrefl, .ret hheap (.ofOutcome ho) htake⟩
      · next hexit =>
          cases hheap.received hid hexit with
          | panicked hpanics => exact ⟨L, hrefl, .raise hheap hpanics htake⟩
      · exact ⟨L, hrefl, .sleep hheap (.receive hid htake) (.lost htake)⟩
  | lost htake => exact ⟨L, hrefl, hheap.emit _, .forever htake, fun _ h => by contradiction⟩
  | collect hid htake =>
      have hfinished (a' e' : Ty) : Future.HasTypes T.toSignature L .finished a' e' := .finished
      rw [Task.turn]
      split
      · next hexit =>
          cases hheap.received hid hexit with
          | settled ho =>
              exact ⟨L, hrefl, .ret (hheap.setFuture fun a' e' _ => hfinished a' e')
                (.present (.ofOutcome ho)) htake⟩
      · next hexit =>
          cases hheap.received hid hexit with
          | panicked hpanics =>
              exact ⟨L, hrefl,
                .raise (hheap.setFuture fun a' e' _ => hfinished a' e') hpanics htake⟩
      · exact ⟨L, hrefl, .sleep hheap (.give .absent htake) (.hang hid htake)⟩
  | hang hid htake =>
      rw [Task.turn]
      split
      · exact ⟨L, hrefl, .run hheap (.collect hid htake)⟩
      · exact ⟨L, hrefl, .ret ((hheap.emit _).setFuture fun _ _ _ => .hung) .absent htake⟩

/-- A reply of a type that a return takes leads to what the stack below takes. -/
theorem Return.Take.resume {back : Return H} {w : Value H.Data H.Fn}
    (h : Return.Take T L (back :: rest) a) (hw : w.HasType T.toSignature L a) :
    (back.resume heap w).IsSafe T L rest := by
  cases back with
  | user c =>
      obtain ⟨b, hvalue, -, htake⟩ := h
      exact .run hheap (.user (hvalue L w (.refl L) hw) htake)
  | answering post frames last applied finish =>
      obtain ⟨b, e, v, r, hpost, hframes, hfinish, htake⟩ := h
      have hi : (Interpretation.reply post frames (.ok w)).HasTypes T.toSignature L v r :=
        hpost.replied hframes (fun w' heq => Except.ok.inj heq ▸ hw)
          fun payload heq => by contradiction
      exact .run hheap (.drive hi hfinish htake)
  | guarded s => exact .ret hheap .unit h
  | guarding id r => exact .ret hheap .unit h.2
  | holding refs => exact .ret hheap hw h
  | driving => exact .ret hheap hw h
  | after task => exact .run hheap h.1
  | polling value error future id => exact .run hheap (.collect h.1 h.2)
  | notifying id v subscribers first =>
      obtain ⟨b, hv, hs, hfirst, htake⟩ := h
      exact .run hheap (.notify hv hs hfirst htake)
  | reading =>
      obtain ⟨b, e, ⟨rfl, htake⟩ | ⟨rfl, htake⟩⟩ := h
      · cases hw with
        | slot hs =>
            rcases hs.read with ⟨o, hread, ho⟩ | ⟨report, rfl, hreport⟩
            · simp only [Return.resume, readTurn, hread]
              exact .ret hheap (.ofOutcome ho) htake
            · exact .raise hheap hreport htake
      · cases hw with
        | absent => exact .ret hheap .absent htake
        | present hw =>
            cases hw with
            | slot hs =>
                rcases hs.read with ⟨o, hread, ho⟩ | ⟨report, rfl, hreport⟩
                · simp only [Return.resume, readTurn, hread]
                  exact .ret hheap (.present (.ofOutcome ho)) htake
                · exact .raise hheap hreport htake
  | givingBack =>
      obtain ⟨b, e, rfl, hslot, hresult⟩ := h
      cases hw with
      | ok hv => exact .ret hheap (.ok hv) hslot
      | err hv =>
          cases hv with
          | slot hs =>
              cases hs with
              | ok hv => exact .ret hheap (.err (.ok hv)) hresult
              | err hv => exact .ret hheap (.err (.err hv)) hresult
              | panicked hreport => exact .ret hheap (.err (.slot (.panicked hreport))) hslot

/-- A panic leads from a return to what the stack below takes. -/
theorem Return.Take.unwind {back : Return H} (h : Return.Take T L (back :: rest) a)
    (hpanics : T.panics payload) :
    (back.unwind heap payload).IsSafe T L rest := by
  cases back with
  | user c =>
      obtain ⟨b, -, hraised, htake⟩ := h
      exact .run hheap (.user (hraised L payload (.refl L) hpanics) htake)
  | answering post frames last applied finish =>
      obtain ⟨b, e, v, r, hpost, hframes, hfinish, htake⟩ := h
      have hi : (Interpretation.reply post frames (.error payload)).HasTypes T.toSignature L v r :=
        hpost.replied hframes (fun w heq => by contradiction)
          fun p heq => Except.error.inj heq ▸ hpanics
      exact .run hheap (.drive hi hfinish htake)
  | guarded s => exact .run hheap (.report h)
  | guarding id r =>
      obtain ⟨⟨b, e, hid⟩, htake⟩ := h
      exact .call hheap (.deliver hid (.panicked hpanics) htake)
  | holding refs => exact .raise hheap hpanics (a := a) h
  | driving => exact .raise hheap hpanics (a := a) h
  | after task => exact .raise hheap hpanics h.2.choose_spec
  | polling value error future id =>
      exact .raise (hheap.setFuture fun _ _ _ => .finished) hpanics h.2
  | notifying id v subscribers first =>
      obtain ⟨b, hv, hs, hfirst, htake⟩ := h
      have hkept (p : Payload) (heq : some (first.getD payload) = some p) : T.panics p := by
        obtain rfl := Option.some.inj heq
        cases first with
        | none => exact hpanics
        | some kept => exact hfirst kept rfl
      exact .run hheap (.notify hv hs hkept htake)
  | reading =>
      obtain ⟨b, e, ⟨-, htake⟩ | ⟨-, htake⟩⟩ := h
      · exact .raise hheap hpanics htake
      · exact .raise hheap hpanics htake
  | givingBack =>
      obtain ⟨b, e, -, hslot, -⟩ := h
      exact .raise hheap hpanics hslot

theorem Move.HasType.turn {move : Move H.Data H.Fn H.Code H.Condition}
    (h : Move.HasType T.toSignature T.code L a move) (htake : Return.Take T L stack a) :
    (move.turn heap).IsSafe T L stack := by
  cases h with
  | run hc => exact .run hheap (.user hc htake)
  | ret hv => exact .ret hheap hv htake
  | raise hpanics => exact .raise hheap hpanics htake
  | ask hq hraised =>
      exact .call hheap (.request (hq.extends (.refl L) fun _ hc => ⟨a, hc, hraised, htake⟩))
  | wait hheld hmissed => exact .sleep hheap (.user hheld htake) (.user hmissed htake)

/-- A thread that keeps to types takes turns that keep to types. -/
theorem Thread.IsSafe.turn {thread : Thread H} {t : ThreadId} {state state' : H.State}
    {turn : Turn H} (h : thread.IsSafe T L) (hstate : T.state L state)
    (hturn : thread.turn? t heap state = some (state', rest, turn)) :
    ∃ L', L.Extends L' ∧ T.state L' state' ∧ turn.IsSafe T L' rest := by
  have hrefl := Types.Extends.refl L
  cases thread.turning hturn with
  | move =>
      obtain ⟨rfl, hmove⟩ := Prod.mk.inj (Option.some.inj hturn)
      cases (h : Control.IsSafe T L _ _) with
      | run htask =>
          cases htask with
          | user hc htake =>
              obtain ⟨hstate', htypes⟩ := T.advance hc hstate hheap
              exact ⟨L, hrefl, hstate', (Prod.mk.inj hmove).2 ▸ htypes.turn hheap htake⟩
  | task _ =>
      cases (h : Control.IsSafe T L _ _) with
      | run htask =>
          obtain ⟨L', hle, hturn'⟩ := htask.turn hheap _
          exact ⟨L', hle, T.state_extends hle hstate, hturn'⟩
  | ret =>
      cases (h : Control.IsSafe T L _ _) with
      | ret hv htake => exact ⟨L, hrefl, hstate, htake.resume hheap hv⟩
  | raise =>
      cases (h : Control.IsSafe T L _ _) with
      | raise hpanics htake => exact ⟨L, hrefl, hstate, htake.unwind hheap hpanics⟩

end Tasks

/-- A thread that is woken does what it went to sleep for. -/
theorem Thread.IsSafe.heard {thread : Thread H} (h : thread.IsSafe T L) (notified : Option Gate) :
    (thread.heard notified).IsSafe T L := by
  obtain ⟨name, control, stack⟩ := thread
  cases notified with
  | none => exact h
  | some gate =>
      simp only [Thread.heard]
      unfold Thread.notified
      split
      · rename_i heq
        obtain ⟨rfl, rfl, rfl⟩ := Thread.mk.inj heq
        split
        · cases (h : Control.IsSafe T L _ _) with
          | asleep hwoken _ => exact .run hwoken
        · exact h
      · exact h

namespace World

variable {w w' : World H} {t : ThreadId} {thread : Thread H}

/-- Nobody wakes who sleeps forever. -/
theorem step_forever {name : Option String} {woken missed : Task H}
    (ht : w.threads[t]? = some ⟨name, .asleep .forever woken missed, stack⟩) :
    w.step? t = none := by
  simp [step?, ht, arrival, isDisconnected, awaits]

theorem IsTyped.rouse {name : Option String} {wait : Wait H} {woken missed : Task H}
    {arrived : Bool} (h : w.IsTyped T L)
    (ht : w.threads[t]? = some ⟨name, .asleep wait woken missed, stack⟩)
    (hstep : w.step? t = some (w.rouse t arrived)) : (w.rouse t arrived).IsTyped T L where
  heap := h.heap
  state := h.state
  threads t' thread ht' := by
    rw [threads_rouse arrived ht] at ht'
    split at ht'
    · obtain rfl := Option.some.inj ht'
      cases (h.threads t _ ht : Control.IsSafe T L _ _) with
      | asleep hwoken hmissed =>
          cases arrived with
          | true => exact .run hwoken
          | false => exact .run hmissed
      | forever =>
          rw [step_forever ht] at hstep
          contradiction
    · exact h.threads t' thread ht'

/-- A turn of a thread that keeps to types leads to a world that keeps to types. -/
theorem Ordered.isTyped_act (hw : w.Ordered) (h : w.IsTyped T L)
    (ht : w.threads[t]? = some thread) (hallows : w.allows thread)
    (hawake : ∀ wait woken missed, thread.control ≠ .asleep wait woken missed) :
    ∃ L', L.Extends L' ∧ (w.act t thread).IsTyped T L' := by
  obtain ⟨state, rest, turn, hturn⟩ := exists_turn_of_allows hallows hawake
  obtain ⟨L', hle, hstate, hsafe⟩ := (h.threads t thread ht).turn h.heap h.state hturn
  have hself : Thread.IsSafe T L' ⟨thread.name, turn.control, turn.pushed ++ rest⟩ := hsafe.control
  rw [(act_of_turn hturn).1]
  refine ⟨L', hle, heap_apply ▸ hsafe.heap, state_apply ▸ hstate, fun t' thread' ht' => ?_⟩
  rw [hw.threads_apply ht] at ht'
  split at ht'
  · obtain rfl := Option.some.inj ht'
    exact hself.heard _
  · split at ht'
    · exact hsafe.born thread' ht'
    · obtain ⟨before, hbefore, rfl⟩ := Option.map_eq_some_iff.1 ht'
      exact ((h.threads t' before hbefore).extends hle).heard _

/-- An action keeps a world to types, perhaps of more objects. -/
theorem Ordered.isTyped_of_does {a : Action} (hw : w.Ordered) (h : w.IsTyped T L)
    (hdoes : w.does a = some w') : ∃ L', L.Extends L' ∧ w'.IsTyped T L' := by
  have hrefl := Types.Extends.refl L
  cases a with
  | time n =>
      obtain rfl := Option.some.inj hdoes
      exact ⟨L, hrefl, h.heap.congr rfl rfl rfl rfl rfl, h.state, h.threads⟩
  | forget keep =>
      obtain rfl := Option.some.inj hdoes
      refine ⟨L, hrefl, h.heap, h.state, fun t thread ht => h.threads t thread ?_⟩
      exact thread_of_forget ht
  | thread t =>
      rcases step_cases hdoes with
        ⟨name, wait, woken, missed, stack, arrived, ht, rfl⟩ | ⟨thread, ht, hawake, hallows, rfl⟩
      · exact ⟨L, hrefl, h.rouse ht hdoes⟩
      · exact hw.isTyped_act h ht hallows hawake

end World

/-- A run that begins with a world that keeps to types keeps to types. -/
theorem Run.exists_types (r : Run H) (h : (r.world 0).IsTyped T L) (n : Nat) :
    ∃ L', L.Extends L' ∧ (r.world n).IsTyped T L' := by
  induction n with
  | zero => exact ⟨L, .refl L, h⟩
  | succ n ih =>
      obtain ⟨L₁, hle, htyped⟩ := ih
      obtain ⟨L₂, hle', htyped'⟩ := (r.ordered n).isTyped_of_does htyped (r.step n)
      exact ⟨L₂, hle.trans hle', htyped'⟩

end Trampoline
