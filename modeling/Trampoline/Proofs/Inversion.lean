import Trampoline.Proofs.Actions

/-!
Every action of the world is one of the cases of `World.Acts`. The turns of a thread are taken one
by one: those that leave interpretations and meeting points alone, those that take an
interpretation one step further, and those at a meeting point.
-/

namespace Trampoline

variable {H : Host}

namespace World

section Turns

variable {w : World H} {t : ThreadId} {name : Option String} {control : Control H}
  {stack rest : List (Return H)} {turn : Turn H} {state : H.State}

/-- A thread that does not sleep takes a turn and neither falls asleep at a meeting point nor
notifies one. -/
theorem Ordered.sameSleepers (hw : w.Ordered)
    (ht : w.threads[t]? = some ⟨name, control, stack⟩) (hawake : ∀ id, ¬control.SleepsAt id)
    (hturn : turn.Tidy) (hstays : ∀ id, ¬turn.control.SleepsAt id)
    (hnotified : ∀ id, turn.notified ≠ some (.handoff id)) :
    w.SameSleepers (World.apply state w.threads w.next t name rest turn) := by
  intro t' id
  rw [hw.sleepsAt_apply ht state name rest hturn]
  simp only [hnotified id, ne_eq, not_false_eq_true, and_true]
  split
  · rename_i heq
    subst heq
    constructor
    · exact fun hsleeps => absurd hsleeps (hstays id)
    · rintro ⟨thread, hthread, hsleeps⟩
      obtain rfl := Option.some.inj (hthread.symm.trans ht)
      exact absurd hsleeps (hawake id)
  · rfl

theorem Ordered.calm (hw : w.Ordered) (ht : w.threads[t]? = some ⟨name, control, stack⟩)
    (hawake : ∀ id, ¬control.SleepsAt id) (hturn : turn.Calm w.heap) :
    w.Calm (World.apply state w.threads w.next t name rest turn) where
  handoffs := by rw [heap_apply, hturn.handoffs]
  sleepers := hw.sameSleepers ht hawake hturn.toTidy hturn.awake hturn.notified

/-- A turn that changes what is at one level of a thread's stack. -/
theorem Ordered.puts {l l' : Nat} {below : List (Return H)} {x x' : Pending H.Data H.Fn}
    (hw : w.Ordered) (ht : w.threads[t]? = some ⟨name, control, stack⟩) (hturn : turn.Tidy)
    (hheap : ∀ id, turn.heap.pendingAt id = w.heap.pendingAt id)
    (hold : ∀ level, Thread.pendingAt ⟨name, control, stack⟩ level =
      if level = l then some x else Return.pendingAt below level)
    (hnew : ∀ level, Thread.pendingAt ⟨name, turn.control, turn.pushed ++ rest⟩ level =
      if level = l' then some x' else Return.pendingAt below level)
    (hl : below.length ≤ l) :
    w.pendingAt (.thread t l) = some x ∧
      w.Puts (World.apply state w.threads w.next t name rest turn) (.thread t l) (.thread t l')
        x' := by
  have hbefore (level : Nat) : w.pendingAt (.thread t level) =
      if level = l then some x else Return.pendingAt below level := by
    simp only [pendingAt, ht, Option.bind_some, hold]
  refine ⟨by rw [hbefore, if_pos rfl], ?_⟩
  intro q
  cases q with
  | handoff id => simp [pendingAt, hheap]
  | thread t' level =>
      rw [hw.pendingAt_apply ht state name rest hturn]
      by_cases htt : t' = t
      · subst htt
        rw [if_pos rfl, hnew, hbefore]
        by_cases hl' : level = l'
        · simp [hl']
        · by_cases hlevel : level = l
          · simp [hlevel, Return.pendingAt_of_le hl]
          · simp [hl', hlevel]
      · simp [htt]

/-- A turn after which nothing is left at one level of a thread's stack. -/
theorem Ordered.clears {l : Nat} {below : List (Return H)} {x : Pending H.Data H.Fn}
    (hw : w.Ordered) (ht : w.threads[t]? = some ⟨name, control, stack⟩) (hturn : turn.Tidy)
    (hold : ∀ level, Thread.pendingAt ⟨name, control, stack⟩ level =
      if level = l then some x else Return.pendingAt below level)
    (hnew : ∀ level, Thread.pendingAt ⟨name, turn.control, turn.pushed ++ rest⟩ level =
      Return.pendingAt below level)
    (hl : below.length ≤ l) (t' : ThreadId) (level : Nat) :
    (World.apply state w.threads w.next t name rest turn).pendingAt (.thread t' level) =
      if Place.thread t' level = .thread t l then none else w.pendingAt (.thread t' level) := by
  have hbefore (level : Nat) : w.pendingAt (.thread t level) =
      if level = l then some x else Return.pendingAt below level := by
    simp only [pendingAt, ht, Option.bind_some, hold]
  rw [hw.pendingAt_apply ht state name rest hturn]
  by_cases htt : t' = t
  · subst htt
    rw [if_pos rfl, hnew, hbefore]
    by_cases hlevel : level = l
    · simp [hlevel, Return.pendingAt_of_le hl]
    · simp [hlevel]
  · simp [htt]

/-- A turn that leaves everything on its thread where it is. -/
theorem Ordered.keeps {below : List (Return H)}
    (hw : w.Ordered) (ht : w.threads[t]? = some ⟨name, control, stack⟩) (hturn : turn.Tidy)
    (hold : ∀ level, Thread.pendingAt ⟨name, control, stack⟩ level = Return.pendingAt below level)
    (hnew : ∀ level, Thread.pendingAt ⟨name, turn.control, turn.pushed ++ rest⟩ level =
      Return.pendingAt below level) (t' : ThreadId) (level : Nat) :
    (World.apply state w.threads w.next t name rest turn).pendingAt (.thread t' level) =
      w.pendingAt (.thread t' level) := by
  rw [hw.pendingAt_apply ht state name rest hturn]
  split
  · rename_i heq
    subst heq
    simp only [pendingAt, ht, Option.bind_some, hnew, hold]
  · rfl

/-- A plain turn of a thread keeps the interpretations where they are, or starts one. -/
theorem Acts.of_plain {shift : Shift H.Data H.Fn} (hw : w.Ordered)
    (ht : w.threads[t]? = some ⟨name, control, stack⟩) (hawake : ∀ id, ¬control.SleepsAt id)
    (hturn : turn.Plain w.heap)
    (hold : ∀ level, Thread.pendingAt ⟨name, control, stack⟩ level = Return.pendingAt rest level)
    (hshift : shift = .stay ∨ shift.IsIdle ∧ turn.control.pending? = none) :
    w.Acts (World.apply state w.threads w.next t name rest turn) shift := by
  have hcalm : w.Calm (World.apply state w.threads w.next t name rest turn) :=
    hw.calm ht hawake hturn.toCalm
  have hnew (level : Nat) :
      Thread.pendingAt ⟨name, turn.control, turn.pushed ++ rest⟩ level =
        if level = (turn.pushed ++ rest).length then turn.control.pending?
        else Return.pendingAt rest level := by
    simp only [Thread.pendingAt]
    rw [Return.pendingAt_append hturn.pushed_pending]
  have hheap (id : HandoffId) :
      (World.apply state w.threads w.next t name rest turn).pendingAt (.handoff id) =
        w.pendingAt (.handoff id) := by
    simp only [pendingAt, heap_apply]
    exact Heap.pendingAt_congr hturn.handoffs id
  have hnone (h : turn.control.pending? = none) (q : Place) :
      (World.apply state w.threads w.next t name rest turn).pendingAt q = w.pendingAt q := by
    cases q with
    | handoff id => exact hheap id
    | thread t' level =>
        refine hw.keeps ht hturn.toTidy hold (fun level => ?_) t' level
        rw [Thread.pendingAt_of_control h, Return.pendingAt_append hturn.pushed_pending]
  rcases hshift with rfl | ⟨hidle, hnothing⟩
  · rcases hturn.starts with hnothing | ⟨node, last, finish, hstart⟩
    · exact .keep trivial hcalm (hnone hnothing)
    · have hfree : w.pendingAt (.thread t (turn.pushed ++ rest).length) = none := by
        simp only [pendingAt, ht, Option.bind_some, hold]
        exact Return.pendingAt_of_le (by simp)
      -- The new interpretation is above everything that waits on the thread.
      refine .start hcalm hfree (?_ : w.Puts _ _ _ (.driving (.start node), finish))
      intro q
      cases q with
      | handoff id => simp [hheap]
      | thread t' level =>
          rw [hw.pendingAt_apply ht state name rest hturn.toTidy]
          by_cases htt : t' = t
          · subst htt
            rw [if_pos rfl, hnew, hstart]
            simp only [pendingAt, ht, Option.bind_some, hold]
            by_cases hlevel : level = (turn.pushed ++ rest).length
            · rw [if_pos hlevel, if_pos (congrArg _ hlevel)]
              rfl
            · have hne : Place.thread t' level ≠ .thread t' (turn.pushed ++ rest).length :=
                fun heq => hlevel (Place.thread.inj heq).2
              rw [if_neg hlevel, if_neg hne, if_neg hne]
          · simp [htt]
  · exact .keep hidle hcalm (hnone hnothing)

/-- A calm turn that takes an interpretation on its thread one step further. -/
theorem Acts.of_goOn {l l' : Nat} {below : List (Return H)} {stage stage' : Stage H.Data H.Fn}
    {finish : Finish H.Fn} {deeds : List (Deed H.Data H.Fn)} (hw : w.Ordered)
    (ht : w.threads[t]? = some ⟨name, control, stack⟩) (hawake : ∀ id, ¬control.SleepsAt id)
    (hturn : turn.Calm w.heap)
    (hold : ∀ level, Thread.pendingAt ⟨name, control, stack⟩ level =
      if level = l then some (stage, finish) else Return.pendingAt below level)
    (hnew : ∀ level, Thread.pendingAt ⟨name, turn.control, turn.pushed ++ rest⟩ level =
      if level = l' then some (stage', finish) else Return.pendingAt below level)
    (hl : below.length ≤ l) (hll : l ≤ l') (hstep : stage.Step deeds (some stage'))
    (hnode : stage'.node? = stage.node?) (hparks : stage'.parks? = stage.parks?) :
    w.Acts (World.apply state w.threads w.next t name rest turn)
      (.moved (.thread t l) deeds (some (.thread t l'))) := by
  obtain ⟨hat, hputs⟩ := hw.puts ht hturn.toTidy (Heap.pendingAt_congr hturn.handoffs) hold hnew hl
  refine .goOn (hw.calm ht hawake hturn) hat hstep hnode hparks ?_ hputs
  by_cases heq : l' = l
  · exact .inl heq
  · refine .inr ?_
    simp only [pendingAt, ht, Option.bind_some, hold, heq, if_false]
    exact Return.pendingAt_of_le (Nat.le_trans hl hll)

/-- A calm turn after which an interpretation is over. -/
theorem Acts.of_over {l : Nat} {below : List (Return H)} {stage : Stage H.Data H.Fn}
    {finish : Finish H.Fn} {deeds : List (Deed H.Data H.Fn)} (hw : w.Ordered)
    (ht : w.threads[t]? = some ⟨name, control, stack⟩) (hawake : ∀ id, ¬control.SleepsAt id)
    (hturn : turn.Calm w.heap)
    (hold : ∀ level, Thread.pendingAt ⟨name, control, stack⟩ level =
      if level = l then some (stage, finish) else Return.pendingAt below level)
    (hnew : ∀ level, Thread.pendingAt ⟨name, turn.control, turn.pushed ++ rest⟩ level =
      Return.pendingAt below level)
    (hl : below.length ≤ l) (hstep : stage.Step deeds none) :
    w.Acts (World.apply state w.threads w.next t name rest turn)
      (.moved (.thread t l) deeds none) := by
  have hat : w.pendingAt (.thread t l) = some (stage, finish) := by
    simp only [pendingAt, ht, Option.bind_some, hold, if_true]
  refine .ends (hw.calm ht hawake hturn) hat hstep ?_
  intro q
  cases q with
  | thread t' level => exact hw.clears ht hturn.toTidy hold hnew hl t' level
  | handoff id =>
      simp only [pendingAt, heap_apply, reduceCtorEq, if_false]
      exact Heap.pendingAt_congr hturn.handoffs id

theorem Ordered.acts_drive {i : Interpretation H.Data H.Fn} {last : Kept} {finish : Finish H.Fn}
    (hw : w.Ordered) (ht : w.threads[t]? = some ⟨name, .run (.drive i last finish), stack⟩) :
    w.Acts (World.apply state w.threads w.next t name stack
        (Task.driveTurn ⟨t, name⟩ w.heap i last finish))
      (w.turnShift t ⟨name, .run (.drive i last finish), stack⟩) := by
  have hold (level : Nat) :
      Thread.pendingAt ⟨name, .run (.drive i last finish), stack⟩ level =
        if level = stack.length then some (.driving i, finish)
        else Return.pendingAt stack level := rfl
  simp only [Task.driveTurn, turnShift]
  cases hstep : i.step with
  | next j =>
      exact .of_goOn hw ht (fun _ => not_false) (Turn.calm_run rfl) hold (fun _ => rfl)
        (Nat.le_refl _) (Nat.le_refl _) (.next hstep) rfl rfl
  | ask question post frames =>
      exact .of_goOn hw ht (fun _ => not_false) (Turn.calm_call rfl trivial) hold
        (Thread.pendingAt_of_control rfl _) (Nat.le_refl _) (Nat.le_refl _) (.ask hstep) rfl rfl
  | suspend r scheduler frames =>
      simp only [Heap.newHandoff]
      have htidy : (Turn.seq { w.heap with handoffs := w.heap.handoffs.push (.fresh t) }
          (.submit scheduler (.register r w.heap.handoffs.size))
          (.park w.heap.handoffs.size frames (i.latest last) finish)).Tidy :=
        Turn.tidy_call trivial
      obtain ⟨hat, hputs⟩ := hw.puts ht htidy (Heap.pendingAt_newHandoff w.heap t) hold
        (Thread.pendingAt_of_control rfl _) (Nat.le_refl _)
      refine .suspend hstep rfl hat ?_ ?_ hputs
      · rw [heap_apply]
        rfl
      · exact hw.sameSleepers ht (fun _ => not_false) htidy (fun _ => not_false) (by simp [Turn.seq,
          Turn.call])
  | finish exit =>
      have hconcluding (refs : List Ref) (level : Nat) :
          Thread.pendingAt ⟨name, .run (.conclude exit finish), .holding refs :: stack⟩ level =
            if level = stack.length + 1 then some (.concluding exit, finish)
            else Return.pendingAt stack level := by
        have happend : Return.pendingAt ([.holding refs] ++ stack) level =
            Return.pendingAt stack level :=
          Return.pendingAt_append (by simp [Return.pending?]) level
        simp only [Thread.pendingAt, List.length_cons]
        exact congrArg (ite _ _) happend
      exact .of_goOn hw ht (fun _ => not_false) (Turn.calm_call rfl trivial) hold
        (hconcluding _) (Nat.le_refl _) (Nat.le_succ _) (.finish hstep) rfl rfl

theorem Sound.acts_park {id : HandoffId} {frames : List (Frame H.Data H.Fn)} {last : Kept}
    {finish : Finish H.Fn} (hw : w.Sound)
    (ht : w.threads[t]? = some ⟨name, .run (.park id frames last finish), stack⟩) :
    w.Acts (World.apply state w.threads w.next t name stack
        (Task.parkTurn w.heap id frames last finish))
      (w.turnShift t ⟨name, .run (.park id frames last finish), stack⟩) := by
  have hold (level : Nat) :
      Thread.pendingAt ⟨name, .run (.park id frames last finish), stack⟩ level =
        if level = stack.length then some (.leaving id frames, finish)
        else Return.pendingAt stack level := rfl
  have hhere : w.pendingAt (.thread t stack.length) = some (.leaving id frames, finish) := by
    simp only [pendingAt, ht, Option.bind_some, hold, if_true]
  -- Nobody has parked or resumed the node while its submitter was to leave it.
  obtain ⟨-, -, handoff, -, hhandoff, -, hphase⟩ := hw.parking _ id ⟨_, _, hhere, rfl⟩
  obtain ⟨s, phase⟩ := handoff
  rcases hphase with rfl | ⟨exit, rfl⟩
  · simp only [Task.parkTurn, turnShift, hhandoff, Handoff.leave]
    have htidy : (⟨(w.heap.emit (.parking frames.length)).setHandoff id ⟨s, .parked frames finish⟩,
        [], .ret .unit, some (.handoff id), none⟩ : Turn H).Tidy := ⟨trivial, by simp, by simp⟩
    refine .park hhere hhandoff ?_ ?_ ?_
    · rw [heap_apply]
      rfl
    · intro t' id'
      rw [hw.sleepsAt_apply ht state name stack htidy]
      refine and_congr ?_ (by simp [eq_comm])
      split
      · rename_i heq
        subst heq
        refine ⟨False.elim, ?_⟩
        rintro ⟨thread, hthread, hsleeps⟩
        obtain rfl := Option.some.inj (hthread.symm.trans ht)
        exact hsleeps
      · rfl
    · intro q
      cases q with
      | handoff id' =>
          simp only [pendingAt, heap_apply, Place.handoff.injEq, reduceCtorEq, if_false]
          exact Heap.pendingAt_set hhandoff
            (show _ = w.heap.handoffs.setIfInBounds id ⟨s, .parked frames finish⟩ from rfl) id'
      | thread t' level =>
          simp only [reduceCtorEq, if_false]
          exact hw.clears ht htidy hold (Thread.pendingAt_of_control rfl _) (Nat.le_refl _) t' level
  · simp only [Task.parkTurn, turnShift, hhandoff, Handoff.leave]
    have hheap (id' : HandoffId) :
        (w.heap.setHandoff id ⟨s, .resumed⟩).pendingAt id' = w.heap.pendingAt id' :=
      Heap.pendingAt_set_of_none hhandoff rfl rfl id'
    have htidy : (Turn.run (w.heap.setHandoff id ⟨s, .resumed⟩)
        (.drive (.settle exit frames) last finish)).Tidy := Turn.tidy_run
    obtain ⟨hat, hputs⟩ := hw.puts ht htidy hheap hold (fun _ => rfl) (Nat.le_refl _)
    refine .inline hat hhandoff ?_ ?_ hputs
    · rw [heap_apply]
      rfl
    · exact hw.sameSleepers ht (fun _ => not_false) htidy (fun _ => not_false) (by simp [Turn.run])

section Deliver

variable {id : HandoffId} {exit : Exit (Outcome H.Data H.Fn)} {origin : Origin}

/-- A turn that ends a delivery without the stack of the node keeps every interpretation where it
is. -/
theorem Ordered.keeps_of_deliver (hw : w.Ordered)
    (ht : w.threads[t]? = some ⟨name, .run (.deliver id exit origin), stack⟩)
    (hturn : turn.Tidy) (hpushed : turn.pushed = []) (hcontrol : turn.control.pending? = none)
    (hheap : ∀ id, turn.heap.pendingAt id = w.heap.pendingAt id) (q : Place) :
    (World.apply state w.threads w.next t name stack turn).pendingAt q = w.pendingAt q := by
  cases q with
  | handoff id' => simp only [pendingAt, heap_apply, hheap]
  | thread t' level =>
      refine hw.keeps ht hturn (Thread.pendingAt_of_control rfl _) (fun level => ?_) t' level
      rw [hpushed, List.nil_append, Thread.pendingAt_of_control hcontrol]

theorem Ordered.acts_early (hw : w.Ordered)
    (ht : w.threads[t]? = some ⟨name, .run (.deliver id exit origin), stack⟩)
    (hhandoff : w.heap.handoffs[id]? = some ⟨t, .submitting⟩) :
    w.Acts (World.apply state w.threads w.next t name stack
        (.ret (w.heap.setHandoff id ⟨t, .early exit⟩) .unit))
      (.moved (.handoff id) [.exit exit] (some (.thread t stack.length))) := by
  have hheap (id' : HandoffId) :
      (w.heap.setHandoff id ⟨t, .early exit⟩).pendingAt id' = w.heap.pendingAt id' :=
    Heap.pendingAt_set_of_none hhandoff rfl rfl id'
  have htidy : (Turn.ret (H := H) (w.heap.setHandoff id ⟨t, .early exit⟩) .unit).Tidy :=
    (Turn.plain_ret rfl).toTidy
  refine .early hhandoff ?_ ?_ (hw.keeps_of_deliver ht htidy rfl rfl hheap)
  · rw [heap_apply]
    rfl
  · exact hw.sameSleepers ht (fun _ => not_false) htidy (fun _ => not_false) (by simp [Turn.ret])

theorem Ordered.acts_wait {s : ThreadId} (hw : w.Ordered)
    (ht : w.threads[t]? = some ⟨name, .run (.deliver id exit origin), stack⟩)
    (hhandoff : w.heap.handoffs[id]? = some ⟨s, .submitting⟩) (hs : t ≠ s) :
    w.Acts (World.apply state w.threads w.next t name stack
        (.sleep w.heap (.gate (.handoff id) none) (.deliver id exit origin)
          (.deliver id exit origin)))
      (.moved (.handoff id) [.exit exit] (some (.thread t stack.length))) := by
  have htidy : (Turn.sleep w.heap (.gate (.handoff id) none) (.deliver id exit origin)
      (.deliver id exit origin)).Tidy := Turn.tidy_gate
  refine .wait hhandoff hs ?_ ?_ (hw.keeps_of_deliver ht htidy rfl rfl fun _ => rfl)
  · rw [heap_apply]
    rfl
  · intro t' id'
    rw [hw.sleepsAt_apply ht state name stack htidy]
    split
    · rename_i heq
      subst heq
      have hawake : ¬w.SleepsAt t' id' := by
        rintro ⟨thread, hthread, hsleeps⟩
        obtain rfl := Option.some.inj (hthread.symm.trans ht)
        exact hsleeps
      simp [hawake, Turn.sleep, Control.SleepsAt, eq_comm]
    · rename_i hne
      simp [hne, Turn.sleep]

theorem Ordered.acts_accept {s : ThreadId} {frames : List (Frame H.Data H.Fn)}
    {finish : Finish H.Fn} (hw : w.Ordered)
    (ht : w.threads[t]? = some ⟨name, .run (.deliver id exit origin), stack⟩)
    (hhandoff : w.heap.handoffs[id]? = some ⟨s, .parked frames finish⟩) :
    w.Acts (World.apply state w.threads w.next t name stack
        (.run (w.heap.setHandoff id ⟨s, .resumed⟩) (.resume exit frames finish)))
      (.moved (.handoff id) [.exit exit] (some (.thread t stack.length))) := by
  have hold (level : Nat) :
      Thread.pendingAt ⟨name, .run (.deliver id exit origin), stack⟩ level =
        Return.pendingAt stack level := Thread.pendingAt_of_control rfl _ _
  have htidy : (Turn.run (w.heap.setHandoff id ⟨s, .resumed⟩)
      (.resume exit frames finish)).Tidy := Turn.tidy_run
  refine .accept hhandoff ?_ ?_ ?_ ?_
  · rw [heap_apply]
    rfl
  · exact hw.sameSleepers ht (fun _ => not_false) htidy (fun _ => not_false) (by simp [Turn.run])
  · simp only [pendingAt, ht, Option.bind_some, hold, Return.pendingAt_length]
  · intro q
    cases q with
    | handoff id' =>
        simp only [pendingAt, heap_apply, Place.handoff.injEq, reduceCtorEq, if_false]
        exact Heap.pendingAt_set hhandoff
          (show _ = w.heap.handoffs.setIfInBounds id ⟨s, .resumed⟩ from rfl) id'
    | thread t' level =>
        rw [hw.pendingAt_apply ht state name stack htidy]
        by_cases htt : t' = t
        · subst htt
          simp only [pendingAt, ht, Option.bind_some, hold, Place.thread.injEq, true_and,
            reduceCtorEq, if_false, if_true]
          rfl
        · simp [htt]

theorem Ordered.acts_deliver (hw : w.Ordered)
    (ht : w.threads[t]? = some ⟨name, .run (.deliver id exit origin), stack⟩) :
    w.Acts (World.apply state w.threads w.next t name stack
        (Task.deliverTurn ⟨t, name⟩ w.heap id exit origin))
      (.moved (.handoff id) [.exit exit] (some (.thread t stack.length))) := by
  have hrefuse {turn : Turn H} (hturn : turn.Plain w.heap) (hpushed : turn.pushed = [])
      (hcontrol : turn.control.pending? = none)
      (hexit : ∀ handoff, w.heap.handoffs[id]? = some handoff → handoff.phase.HasExit) :
      w.Acts (World.apply state w.threads w.next t name stack turn)
        (.moved (.handoff id) [.exit exit] (some (.thread t stack.length))) :=
    .refuse hexit (hw.calm ht (fun _ => not_false) hturn.toCalm)
      (hw.keeps_of_deliver ht hturn.toTidy hpushed hcontrol
        (Heap.pendingAt_congr hturn.handoffs))
  simp only [Task.deliverTurn]
  cases hhandoff : w.heap.handoffs[id]? with
  | none => exact hrefuse (Turn.plain_ret rfl) rfl rfl (by simp [hhandoff])
  | some handoff =>
      obtain ⟨s, phase⟩ := handoff
      cases phase with
      | submitting =>
          by_cases hs : t = s
          · subst hs
            simp only [Handoff.offer, if_true]
            exact hw.acts_early ht hhandoff
          · simp only [Handoff.offer, hs, if_false]
            exact hw.acts_wait ht hhandoff hs
      | parked frames finish =>
          simp only [Handoff.offer]
          exact hw.acts_accept ht hhandoff
      | _ =>
          simp only [Handoff.offer]
          split
          · exact hrefuse (Turn.plain_raise rfl) rfl rfl (by simp [hhandoff, Phase.HasExit])
          · exact hrefuse (Turn.plain_ret rfl) rfl rfl (by simp [hhandoff, Phase.HasExit])

end Deliver

theorem Ordered.acts_conclude {exit : Exit (Outcome H.Data H.Fn)} {finish : Finish H.Fn}
    (hw : w.Ordered) (ht : w.threads[t]? = some ⟨name, .run (.conclude exit finish), stack⟩) :
    w.Acts (World.apply state w.threads w.next t name stack
        (Task.concludeTurn w.heap exit finish))
      (.moved (.thread t stack.length) [.finish exit] none) := by
  have hplain : (Task.concludeTurn w.heap exit finish).Plain w.heap :=
    Task.concludeTurn_plain exit finish
  have hold (level : Nat) :
      Thread.pendingAt ⟨name, .run (.conclude exit finish), stack⟩ level =
        if level = stack.length then some (.concluding exit, finish)
        else Return.pendingAt stack level := rfl
  refine .of_over hw ht (fun _ => not_false) hplain.toCalm hold (fun level => ?_) (Nat.le_refl _)
    .conclude
  rw [Thread.pendingAt_of_control (Task.concludeTurn_pending exit finish),
    Return.pendingAt_append hplain.pushed_pending]

/-- One turn of a thread that is about to do a task of the library. -/
theorem Sound.acts_task {task : Task H} (hw : w.Sound)
    (ht : w.threads[t]? = some ⟨name, .run task, stack⟩) :
    w.Acts (World.apply state w.threads w.next t name stack
        (task.turn ⟨t, name⟩ stack w.heap))
      (w.turnShift t ⟨name, .run task, stack⟩) := by
  cases task with
  | drive i last finish => exact hw.acts_drive ht
  | park id frames last finish => exact hw.acts_park ht
  | deliver id exit origin => exact hw.acts_deliver ht
  | resume exit frames finish =>
      have hold (level : Nat) :
          Thread.pendingAt ⟨name, .run (.resume exit frames finish), stack⟩ level =
            if level = stack.length then some (.resuming exit frames, finish)
            else Return.pendingAt stack level := rfl
      exact .of_goOn hw.toOrdered ht (fun _ => not_false) (Turn.calm_run rfl) hold (fun _ => rfl)
        (Nat.le_refl _) (Nat.le_refl _) .resume rfl rfl
  | conclude exit finish => exact hw.acts_conclude ht
  | register r target =>
      refine .of_plain hw.toOrdered ht (fun _ => not_false) (Task.registerTurn_plain target r)
        (Thread.pendingAt_of_control rfl _) (.inr ⟨?_, Task.registerTurn_pending target r⟩)
      cases target <;> trivial
  | _ =>
      exact .of_plain hw.toOrdered ht (fun _ => not_false) (Task.turn_plain rfl)
        (Thread.pendingAt_of_control rfl _) (.inl rfl)

theorem Ordered.acts_ret {v : Value H.Data H.Fn} {back : Return H} (hw : w.Ordered)
    (ht : w.threads[t]? = some ⟨name, .ret v, back :: rest⟩) :
    w.Acts (World.apply state w.threads w.next t name rest (back.resume w.heap v))
      (w.turnShift t ⟨name, .ret v, back :: rest⟩) := by
  have hsound : back.Sound := (hw.threads t _ ht).stack back (by simp)
  have hplain (h : back.pending? = none)
      (hstay : w.turnShift t ⟨name, .ret v, back :: rest⟩ = .stay) :
      w.Acts (World.apply state w.threads w.next t name rest (back.resume w.heap v))
        (w.turnShift t ⟨name, .ret v, back :: rest⟩) := by
    rw [hstay]
    exact .of_plain hw ht (fun _ => not_false) (Return.resume_plain hsound h v)
      (Thread.pendingAt_cons rfl h rest) (.inl rfl)
  cases back with
  | answering post frames last applied finish =>
      exact .of_goOn hw ht (fun _ => not_false) (Turn.calm_run rfl)
        (Thread.pendingAt_of_control rfl _) (fun _ => rfl) (Nat.le_refl _) (Nat.le_refl _) .reply
        rfl rfl
  | after task =>
      cases task with
      | park id frames last finish =>
          exact .of_goOn hw ht (fun _ => not_false) (Turn.calm_run rfl)
            (Thread.pendingAt_of_control rfl _) (fun _ => rfl) (Nat.le_refl _)
              (Nat.le_refl _) .submitted rfl rfl
      | _ => exact hplain rfl rfl
  | _ => exact hplain rfl rfl

theorem Ordered.acts_raise {payload : Payload} {back : Return H} (hw : w.Ordered)
    (ht : w.threads[t]? = some ⟨name, .raise payload, back :: rest⟩) :
    w.Acts (World.apply state w.threads w.next t name rest (back.unwind w.heap payload))
      (w.turnShift t ⟨name, .raise payload, back :: rest⟩) := by
  have hplain (h : back.pending? = none)
      (hstay : w.turnShift t ⟨name, .raise payload, back :: rest⟩ = .stay) :
      w.Acts (World.apply state w.threads w.next t name rest (back.unwind w.heap payload))
        (w.turnShift t ⟨name, .raise payload, back :: rest⟩) := by
    rw [hstay]
    refine .of_plain hw ht (fun _ => not_false) (Return.unwind_plain ?_ payload)
      (Thread.pendingAt_cons rfl h rest) (.inl rfl)
    rintro post frames last applied finish rfl
    contradiction
  cases back with
  | answering post frames last applied finish =>
      exact .of_goOn hw ht (fun _ => not_false) (Turn.calm_run rfl)
        (Thread.pendingAt_of_control rfl _) (fun _ => rfl) (Nat.le_refl _) (Nat.le_refl _) .reply
        rfl rfl
  | after task =>
      cases task with
      | park id frames last finish =>
          exact .of_over hw ht (fun _ => not_false) (Turn.plain_raise rfl).toCalm
            (Thread.pendingAt_of_control rfl _) (Thread.pendingAt_of_control rfl _)
            (Nat.le_refl _) .lost
      | _ => exact hplain rfl rfl
  | _ => exact hplain rfl rfl

theorem Sound.acts_act {thread : Thread H} (hw : w.Sound) (ht : w.threads[t]? = some thread)
    (hallows : w.allows thread) (hawake : ∀ wait woken missed, thread.control ≠ .asleep wait woken
      missed) : w.Acts (w.act t thread) (w.turnShift t thread) := by
  obtain ⟨name, control, stack⟩ := thread
  cases control with
  | run task =>
      cases task with
      | user code reply =>
          exact .of_plain hw.toOrdered ht (fun _ => not_false) (Move.turn_plain _)
            (Thread.pendingAt_of_control rfl _) (.inl rfl)
      | _ => exact hw.acts_task ht
  | ret v =>
      cases stack with
      | nil => exact absurd hallows (by simp [allows])
      | cons back rest => exact hw.acts_ret ht
  | raise payload =>
      cases stack with
      | nil => exact absurd hallows (by simp [allows])
      | cons back rest => exact hw.acts_raise ht
  | asleep wait woken missed => exact absurd rfl (hawake wait woken missed)

theorem Ordered.act_task {task : Task H} (hw : w.Ordered)
    (ht : w.threads[t]? = some ⟨name, .run task, stack⟩) :
    (World.apply state w.threads w.next t name stack
      (task.turn ⟨t, name⟩ stack w.heap)).Ordered :=
  hw.apply ht state name (hw.threads t _ ht).stack (Task.turn_tidy task)

theorem Ordered.act {thread : Thread H} (hw : w.Ordered) (ht : w.threads[t]? = some thread) :
    (w.act t thread).Ordered := by
  have hstack := (hw.threads t thread ht).stack
  obtain ⟨name, control, stack⟩ := thread
  cases control with
  | run task =>
      cases task with
      | user code reply => exact hw.apply ht _ name hstack (Move.turn_plain _).toTidy
      | _ => exact hw.act_task ht
  | ret v =>
      cases stack with
      | nil => exact hw
      | cons back rest =>
          exact hw.apply ht _ name (fun b hb => hstack b (List.mem_cons_of_mem _ hb))
            (Return.resume_tidy (hstack back (by simp)) v)
  | raise payload =>
      cases stack with
      | nil => exact hw
      | cons back rest =>
          exact hw.apply ht _ name (fun b hb => hstack b (List.mem_cons_of_mem _ hb))
            (Return.unwind_tidy back payload)
  | asleep wait woken missed => exact hw

theorem threads_rouse {wait : Wait H} {woken missed : Task H} (arrived : Bool)
    (ht : w.threads[t]? = some ⟨name, .asleep wait woken missed, stack⟩) (t' : ThreadId) :
    (w.rouse t arrived).threads[t']? =
      if t' = t then some ⟨name, .run (if arrived then woken else missed), stack⟩
      else w.threads[t']? := by
  simp only [rouse, Std.TreeMap.getElem?_modify, Nat.compare_eq_eq, ht]
  by_cases htt : t' = t
  · simp [htt]
  · simp [htt, Ne.symm htt]

/-- Waking a thread that sleeps elsewhere than at a meeting point. -/
theorem Ordered.rouse {wait : Wait H} {woken missed : Task H} (arrived : Bool) (hw : w.Ordered)
    (ht : w.threads[t]? = some ⟨name, .asleep wait woken missed, stack⟩)
    (hgate : ∀ id deadline, wait ≠ .gate (.handoff id) deadline) :
    (w.rouse t arrived).Ordered ∧ w.Acts (w.rouse t arrived) .stay := by
  have hsound := hw.threads t _ ht
  have hpending : (Control.run (if arrived then woken else missed)).pending? = none := by
    cases arrived
    · exact hsound.control.2.1
    · exact hsound.control.1
  refine ⟨⟨fun t' hle => ?_, fun t' thread hthread => ?_⟩, .keep trivial ⟨rfl, fun t' id => ?_⟩
    fun q => ?_⟩
  · rw [threads_rouse arrived ht, if_neg (Nat.ne_of_gt (Nat.lt_of_lt_of_le (hw.lt ht) hle))]
    exact hw.numbered t' hle
  · rw [threads_rouse arrived ht] at hthread
    split at hthread
    · obtain rfl := Option.some.inj hthread
      exact ⟨trivial, hsound.stack⟩
    · exact hw.threads t' thread hthread
  · simp only [SleepsAt, threads_rouse arrived ht]
    split
    · rename_i heq
      subst heq
      constructor
      · rintro ⟨thread, hthread, hsleeps⟩
        obtain rfl := Option.some.inj hthread
        exact hsleeps.elim
      · rintro ⟨thread, hthread, hsleeps⟩
        obtain rfl := Option.some.inj (hthread.symm.trans ht)
        cases wait with
        | gate gate deadline =>
            cases gate with
            | handoff id' => exact absurd rfl (hgate id' deadline)
            | promise id' => exact hsleeps.elim
        | _ => exact hsleeps.elim
    · rfl
  · cases q with
    | handoff id => rfl
    | thread t' level =>
        simp only [pendingAt, threads_rouse arrived ht]
        split
        · rename_i heq
          subst heq
          rw [ht, Option.bind_some, Option.bind_some, Thread.pendingAt_of_control hpending,
            Thread.pendingAt_of_control rfl]
        · rfl

theorem threads_forget (keep : ThreadId → Bool) (t : ThreadId) :
    (w.forget keep).threads[t]? =
      w.threads[t]?.filter fun thread => keep t || !thread.ended :=
  Std.TreeMap.getElem?_filter'

theorem thread_of_forget {keep : ThreadId → Bool} {thread : Thread H}
    (ht : (w.forget keep).threads[t]? = some thread) : w.threads[t]? = some thread :=
  Option.eq_some_of_filter_eq_some (threads_forget keep t ▸ ht)

theorem Ordered.forget (hw : w.Ordered) (keep : ThreadId → Bool) :
    (w.forget keep).Ordered ∧ w.Acts (w.forget keep) .stay := by
  refine ⟨⟨fun t hle => ?_, fun t thread hthread => hw.threads t thread (thread_of_forget hthread)⟩,
    .keep trivial ⟨rfl, fun t id => ?_⟩ fun q => ?_⟩
  · rw [threads_forget, hw.numbered t hle]
    rfl
  · simp only [SleepsAt, threads_forget, Option.filter_eq_some_iff]
    constructor
    · rintro ⟨thread, ⟨hthread, -⟩, hsleeps⟩
      exact ⟨thread, hthread, hsleeps⟩
    · rintro ⟨thread, hthread, hsleeps⟩
      refine ⟨thread, ⟨hthread, ?_⟩, hsleeps⟩
      obtain ⟨name, control, stack⟩ := thread
      cases control with
      | asleep wait woken missed => simp [Thread.ended]
      | _ => exact hsleeps.elim
  · cases q with
    | handoff id => rfl
    | thread t level =>
        simp only [pendingAt, threads_forget]
        rcases hthread : w.threads[t]? with _ | thread
        · rfl
        · cases hkeep : keep t || !thread.ended with
          | true => simp [Option.filter, hkeep]
          | false =>
              have hended : thread.ended = true := by simp_all
              simp [Option.filter, hkeep, Thread.pendingAt_of_ended hended]

/-- Nothing but a notification wakes a thread that sleeps at a meeting point. -/
theorem Ordered.step_gate {wait : Wait H} {woken missed : Task H} (hw : w.Ordered)
    (ht : w.threads[t]? = some ⟨name, .asleep wait woken missed, stack⟩) {id : HandoffId}
    {deadline : Option Nat} (hwait : wait = .gate (.handoff id) deadline) : w.step? t = none := by
  obtain ⟨rfl, -⟩ := (hw.threads t _ ht).control.2.2 id deadline hwait
  subst hwait
  simp [step?, ht, arrival, reached, isDisconnected, awaits]

/-- A thread that can go on wakes up or takes a turn. -/
theorem step_cases {w' : World H} (h : w.step? t = some w') :
    (∃ name wait woken missed stack arrived,
        w.threads[t]? = some ⟨name, .asleep wait woken missed, stack⟩ ∧ w' = w.rouse t arrived) ∨
      ∃ thread, w.threads[t]? = some thread ∧
        (∀ wait woken missed, thread.control ≠ .asleep wait woken missed) ∧ w.allows thread ∧
          w' = w.act t thread := by
  rcases ht : w.threads[t]? with _ | ⟨name, control, stack⟩
  · simp [step?, ht] at h
  · cases control with
    | asleep wait woken missed =>
        simp only [step?, ht] at h
        split at h
        · exact .inl ⟨name, wait, woken, missed, stack, _, rfl, (Option.some.inj h).symm⟩
        · split at h
          · exact .inl ⟨name, wait, woken, missed, stack, _, rfl, (Option.some.inj h).symm⟩
          · contradiction
    | _ =>
        simp only [step?, ht] at h
        split at h
        · rename_i hallows
          exact .inr ⟨_, rfl, by simp, hallows, (Option.some.inj h).symm⟩
        · contradiction

theorem act_run {task : Task H} (h : ∀ code reply, task ≠ .user code reply) :
    w.act t ⟨name, .run task, stack⟩ = World.apply w.state w.threads w.next t name stack
      (task.turn ⟨t, name⟩ stack w.heap) := by
  cases task with
  | user code reply => exact absurd rfl (h code reply)
  | _ => rfl

theorem act_eq_apply {thread : Thread H} (hallows : w.allows thread)
    (hawake : ∀ wait woken missed, thread.control ≠ .asleep wait woken missed) :
    ∃ state rest turn, w.act t thread =
      World.apply state w.threads w.next t thread.name rest turn := by
  obtain ⟨name, control, stack⟩ := thread
  cases control with
  | run task =>
      by_cases huser : ∃ code reply, task = .user code reply
      · obtain ⟨code, reply, rfl⟩ := huser
        exact ⟨_, _, _, rfl⟩
      · exact ⟨_, _, _, act_run fun code reply heq => huser ⟨code, reply, heq⟩⟩
  | ret v =>
      cases stack with
      | nil => exact absurd hallows (by simp [allows])
      | cons back rest => exact ⟨_, _, _, rfl⟩
  | raise payload =>
      cases stack with
      | nil => exact absurd hallows (by simp [allows])
      | cons back rest => exact ⟨_, _, _, rfl⟩
  | asleep wait woken missed => exact absurd rfl (hawake wait woken missed)

/-- An action keeps the threads in order and is one of the cases. -/
theorem Sound.does {w' : World H} {a : Action} (hw : w.Sound) (h : w.does a = some w') :
    w'.Ordered ∧ w.Acts w' (w.shift a) := by
  cases a with
  | time n =>
      obtain rfl := Option.some.inj h
      exact ⟨⟨hw.numbered, hw.threads⟩, .keep trivial ⟨rfl, fun _ _ => .rfl⟩
        fun q => by cases q <;> rfl⟩
  | forget keep =>
      obtain rfl := Option.some.inj h
      exact hw.toOrdered.forget keep
  | thread t =>
      rcases step_cases h with
        ⟨name, wait, woken, missed, stack, arrived, ht, rfl⟩ | ⟨thread, ht, hawake, hallows, rfl⟩
      · rw [shift_thread ht]
        refine hw.toOrdered.rouse arrived ht fun id deadline hwait => ?_
        have hstep : w.step? t = some (w.rouse t arrived) := h
        rw [hw.step_gate ht hwait] at hstep
        contradiction
      · rw [shift_thread ht]
        exact ⟨hw.act ht, hw.acts_act ht hallows hawake⟩

end Turns

end World

end Trampoline
