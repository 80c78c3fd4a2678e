import Trampoline.Proofs.Origins

/-!
How interpretations begin. One that is under way after an action was under way before, or has been
started by a request of the host or by a unit of work.
-/

namespace Trampoline

variable {H : Host}

/-- The tasks that start an interpretation. -/
inductive Task.Starts (heap : Heap H.Data H.Fn) : Task H → Node H.Data H.Fn → Finish H.Fn →
    Prop where
  | runBlocking {value error : Ty} {node : Node H.Data H.Fn} :
      Starts heap (.request (.runBlocking value error node)) node
        (.channel value error heap.channels.size)
  | runWith {value error : Ty} {node : Node H.Data H.Fn} {target : Callback H.Fn} :
      Starts heap (.request (.runWith value error node target)) node (.callback value error target)
  | poll {value error : Ty} {future : FutureId} {node : Node H.Data H.Fn} :
      heap.futures[future]? = some (.fresh node) →
        Starts heap (.request (.poll value error future)) node
          (.channel value error heap.channels.size)
  | blockOn {value error : Ty} {node : Node H.Data H.Fn} :
      Starts heap (.request (.blockOn value error node)) node
        (.channel value error heap.channels.size)
  | interpret {node : Node H.Data H.Fn} {finish : Finish H.Fn} :
      Starts heap (.perform (.interpret node finish)) node finish

theorem Thread.mem_held_of_run {thread : Thread H} {notified : Option Gate} {task : Task H}
    (h : (thread.heard notified).control = .run task) : task ∈ thread.control.held := by
  cases notified with
  | none =>
      have hrun : thread.control = .run task := h
      simp [hrun, Control.held]
  | some gate =>
      obtain ⟨name, control, stack⟩ := thread
      simp only [heard] at h
      unfold Thread.notified at h
      split at h
      · rename_i heq
        obtain ⟨rfl, rfl, rfl⟩ := Thread.mk.inj heq
        split at h
        · obtain rfl := Control.run.inj h
          simp [Control.held]
        · contradiction
      · have hrun : control = .run task := h
        simp [hrun, Control.held]

theorem Interpretation.start_injective {D F : Type} {node node' : Node D F}
    (h : Interpretation.start node = .start node') : node = node' :=
  Focus.node.inj (congrArg Interpretation.focus h)

namespace World

variable {w w' : World H} {a : Action} {t : ThreadId} {name : Option String}
  {stack : List (Return H)} {task : Task H}

/-- A thread that goes on with an interpretation where there was none has taken a turn that leads
there. -/
theorem Ordered.hands_of_does (hw : w.Ordered) (h : w.does a = some w')
    (ht' : w'.threads[t]? = some ⟨name, .run task, stack⟩) (hpending : task.pending? ≠ none)
    (hfree : w.pendingAt (.thread t stack.length) = none) :
    ∃ thread, a = .thread t ∧ w.threads[t]? = some thread ∧ thread.Hands w.heap task := by
  have hsame (ht : w.threads[t]? = some ⟨name, .run task, stack⟩) : False :=
    hpending ((pendingAt_run ht).symm.trans hfree)
  cases a with
  | time n =>
      obtain rfl := Option.some.inj h
      exact (hsame ht').elim
  | forget keep =>
      obtain rfl := Option.some.inj h
      exact (hsame (thread_of_forget ht')).elim
  | thread t₀ =>
      rcases step_cases h with
        ⟨name₀, wait, woken, missed, stack₀, arrived, ht, rfl⟩ | ⟨thread, ht, hawake, hallows, rfl⟩
      · -- A sleeping thread holds no interpretation.
        rw [threads_rouse arrived ht] at ht'
        split at ht'
        · obtain ⟨-, hcontrol, -⟩ := Thread.mk.inj (Option.some.inj ht')
          obtain rfl := Control.run.inj hcontrol
          obtain ⟨hwoken, hmissed, -⟩ := (hw.threads t₀ _ ht).control
          cases arrived with
          | true => exact absurd hwoken hpending
          | false => exact absurd hmissed hpending
        · exact (hsame ht').elim
      · have hbrings {state : H.State} {rest : List (Return H)} {turn : Turn H}
            (happly : w.act t₀ thread = World.apply state w.threads w.next t₀ thread.name rest turn)
            (htidy : turn.Tidy) (hturn : ∀ task ∈ turn.held, thread.Hands w.heap task) :
            ∃ thread, Action.thread t₀ = .thread t ∧ w.threads[t]? = some thread ∧
              thread.Hands w.heap task := by
          rw [happly] at ht'
          by_cases htt : t = t₀
          · subst htt
            rw [hw.threads_apply ht, if_pos rfl] at ht'
            have hcontrol := congrArg Thread.control (Option.some.inj ht')
            have hmem := Thread.mem_held_of_run hcontrol
            exact ⟨thread, rfl, ht, hturn task (by simp [Turn.held, hmem])⟩
          · have hat := pendingAt_run ht'
            rw [hw.pendingAt_apply ht _ _ _ htidy, if_neg htt, hfree] at hat
            exact absurd hat.symm hpending
        have hstack := (hw.threads t₀ thread ht).stack
        obtain ⟨name₀, control, stack₀⟩ := thread
        cases control with
        | asleep wait woken missed => exact absurd rfl (hawake wait woken missed)
        | ret v =>
            cases stack₀ with
            | nil => exact absurd hallows (by simp [allows])
            | cons back rest =>
                exact hbrings rfl (Return.resume_tidy (hstack back (by simp)) v)
                  fun task hmem => .ret (back.resume_hands v hmem)
        | raise payload =>
            cases stack₀ with
            | nil => exact absurd hallows (by simp [allows])
            | cons back rest =>
                exact hbrings rfl (Return.unwind_tidy back payload)
                  fun task hmem => .raise (back.unwind_hands payload hmem)
        | run task₀ =>
            by_cases huser : ∃ code reply, task₀ = .user code reply
            · obtain ⟨code, reply, rfl⟩ := huser
              exact hbrings rfl (Move.turn_plain _).toTidy
                fun task hmem => .minor (Move.turn_hands _ hmem)
            · exact hbrings (act_run fun code reply heq => huser ⟨code, reply, heq⟩)
                (Task.turn_tidy task₀) fun task hmem => .task (Task.turn_hands _ task hmem)

/-- A turn that leads to an interpretation and moves none starts it. -/
theorem Ordered.starts_of_hands (hw : w.Ordered) {thread : Thread H}
    {i : Interpretation H.Data H.Fn}
    {last : Kept} {finish : Finish H.Fn} (ht : w.threads[t]? = some thread)
    (hhands : thread.Hands w.heap (.drive i last finish))
    (hshift : w.shift (.thread t) = .stay) :
    ∃ name task stack node, thread = ⟨name, .run task, stack⟩ ∧ i = .start node ∧
      task.Starts w.heap node finish := by
  have hmoves : w.turnShift t thread = .stay := (shift_thread ht).symm.trans hshift
  cases hhands with
  | minor hminor => exact hminor.elim
  | @task name task _ stack hhands =>
      cases hhands with
      | minor hminor => exact hminor.elim
      | request hrequest =>
          cases hrequest with
          | runBlocking => exact ⟨name, _, stack, _, rfl, rfl, .runBlocking⟩
          | runWith => exact ⟨name, _, stack, _, rfl, rfl, .runWith⟩
          | poll hfresh => exact ⟨name, _, stack, _, rfl, rfl, .poll hfresh⟩
          | blockOn => exact ⟨name, _, stack, _, rfl, rfl, .blockOn⟩
      | interpret => exact ⟨name, _, stack, _, rfl, rfl, .interpret⟩
      | next hstep => simp [turnShift, hstep] at hmoves
      | inline hhandoff => simp [turnShift, hhandoff] at hmoves
      | resume => simp [turnShift] at hmoves
  | ret hhands =>
      cases hhands with
      | minor hminor => exact hminor.elim
      | answering => simp [turnShift] at hmoves
      | after =>
          have hsound := (hw.threads t _ ht).stack (.after (.drive i last finish)) (by simp)
          simp [Return.Sound, Task.pending?] at hsound
  | raise hhands =>
      cases hhands with
      | minor hminor => exact hminor.elim
      | answering => simp [turnShift] at hmoves

/-- An action starts the interpretation of a node at a place that was free. -/
structure Begins (w w' : World H) (a : Action) (q : Place) (node : Node H.Data H.Fn)
    (finish : Finish H.Fn) : Prop where
  starts : ∃ t name task stack l, a = .thread t ∧ q = .thread t l ∧
    w.threads[t]? = some ⟨name, .run task, stack⟩ ∧ task.Starts w.heap node finish
  shift : w.shift a = .stay
  free : w.pendingAt q = none
  puts : w.Puts w' q q (.driving (.start node), finish)

/-- An interpretation under way was under way before, or has been started. -/
theorem Sound.origin (hw : w.Sound) (h : w.does a = some w') {q : Place}
    {stage : Stage H.Data H.Fn} {finish : Finish H.Fn}
    (hq : w'.pendingAt q = some (stage, finish)) :
    (∃ p stage₀, w.pendingAt p = some (stage₀, finish) ∧ w.next? a p = some q) ∨
      ∃ node, stage = .driving (.start node) ∧ w.Begins w' a q node finish := by
  obtain ⟨-, hacts⟩ := hw.does h
  generalize hshift : w.shift a = shift at hacts
  have hstays (hother : ∀ p deeds o, shift = .moved p deeds o → q ≠ p)
      (hold : w.pendingAt q = some (stage, finish)) :
      ∃ p stage₀, w.pendingAt p = some (stage₀, finish) ∧ w.next? a p = some q := by
    refine ⟨q, stage, hold, ?_⟩
    simp only [next?, hshift]
    cases shift with
    | moved p deeds o => exact if_neg (hother p deeds o rfl)
    | _ => rfl
  have hputs {p p' : Place} {deeds : List (Deed H.Data H.Fn)} {stage₀ stage' : Stage H.Data H.Fn}
      {finish' : Finish H.Fn} (hmoved : shift = .moved p deeds (some p'))
      (hp : w.pendingAt p = some (stage₀, finish')) (hputs : w.Puts w' p p' (stage', finish')) :
      ∃ p stage₀, w.pendingAt p = some (stage₀, finish) ∧ w.next? a p = some q := by
    rcases hputs.of_pendingAt hq with ⟨rfl, heq⟩ | ⟨-, hne, hold⟩
    · obtain ⟨-, rfl⟩ := Prod.mk.inj heq
      exact ⟨p, stage₀, hp, by simp only [next?, hshift, hmoved, if_true]⟩
    · refine hstays (fun p₀ deeds₀ o hmoved₀ => ?_) hold
      obtain ⟨rfl, -, -⟩ := Shift.moved.inj (hmoved.symm.trans hmoved₀)
      exact hne
  have hrefused {p : Place} {deeds : List (Deed H.Data H.Fn)} {o : Option Place}
      (hmoved : shift = .moved p deeds o) (hnone : w.pendingAt p = none)
      (hsame : w'.pendingAt q = w.pendingAt q) :
      ∃ p stage₀, w.pendingAt p = some (stage₀, finish) ∧ w.next? a p = some q := by
    refine hstays (fun p₀ deeds₀ o₀ hmoved₀ => ?_) (hsame.symm.trans hq)
    obtain ⟨rfl, -, -⟩ := Shift.moved.inj (hmoved.symm.trans hmoved₀)
    rintro rfl
    rw [hsame, hnone] at hq
    contradiction
  cases hacts with
  | keep hidle hcalm hsame =>
      refine .inl (hstays (fun p deeds o hmoved => ?_) ((hsame q).symm.trans hq))
      subst hmoved
      exact hidle.elim
  | @start p node finish' hcalm hfree hputs' =>
      rcases hputs'.of_pendingAt hq with ⟨rfl, heq⟩ | ⟨-, -, hold⟩
      · obtain ⟨rfl, rfl⟩ := Prod.mk.inj heq
        cases q with
        | handoff id =>
            obtain ⟨s, frames, hstage, -⟩ := parked_of_pendingAt hq
            contradiction
        | thread t l =>
            rcases waits_of_pendingAt hq with
              ⟨name, task, stack, ht', rfl, htask⟩ | ⟨post, frames, hstage⟩ | ⟨id, frames, hstage⟩
            · obtain ⟨thread, rfl, ht, hhands⟩ :=
                hw.toOrdered.hands_of_does h ht' (by simp [htask]) hfree
              have hdrive : ∃ last, task = .drive (.start node) last finish := by
                cases task with
                | drive i last finish' =>
                    obtain ⟨hi, rfl⟩ := Prod.mk.inj (Option.some.inj htask)
                    obtain rfl := Stage.driving.inj hi
                    exact ⟨last, rfl⟩
                | _ => simp [Task.pending?] at htask
              obtain ⟨last, rfl⟩ := hdrive
              obtain ⟨name₀, task₀, stack₀, node₀, rfl, hnode, hstarts⟩ :=
                hw.toOrdered.starts_of_hands ht hhands hshift
              refine .inr ⟨node, rfl, ⟨t, name₀, task₀, stack₀, _, rfl, rfl, ht, ?_⟩, hshift, hfree,
                hputs'⟩
              rwa [Interpretation.start_injective hnode]
            · contradiction
            · contradiction
      · exact .inl (hstays (by simp) hold)
  | goOn hcalm hat hstep hnode hparks hfree hputs' => exact .inl (hputs rfl hat hputs')
  | ends hcalm hat hstep hclears =>
      rw [hclears q] at hq
      split at hq
      · contradiction
      · rename_i hne
        refine .inl (hstays (fun p deeds o hmoved => ?_) hq)
        obtain ⟨rfl, -, -⟩ := Shift.moved.inj hmoved
        exact hne
  | suspend hstep hdeeds hat hhandoffs hsleepers hputs' => exact .inl (hputs rfl hat hputs')
  | early hhandoff hhandoffs hsleepers hsame =>
      exact .inl (hrefused rfl (pendingAt_handoff_eq_none (by simp [hhandoff])) (hsame q))
  | wait hhandoff hne hhandoffs hsleepers hsame =>
      exact .inl (hrefused rfl (pendingAt_handoff_eq_none (by simp [hhandoff])) (hsame q))
  | refuse hexit hcalm hsame =>
      refine .inl (hrefused rfl (pendingAt_handoff_eq_none ?_) (hsame q))
      intro s frames finish hhandoff
      exact hexit _ hhandoff
  | @accept t s l id exit frames finish₀ hhandoff hhandoffs hsleepers hfree hputs' =>
      have hat : w.pendingAt (.handoff id) = some (.parked id frames, finish₀) := by
        simp only [pendingAt, Heap.pendingAt, hhandoff]
        rfl
      exact .inl (hputs rfl hat hputs')
  | inline hat hhandoff hhandoffs hsleepers hputs' => exact .inl (hputs rfl hat hputs')
  | park hat hhandoff hhandoffs hsleepers hputs' => exact .inl (hputs rfl hat hputs')

end World

end Trampoline
