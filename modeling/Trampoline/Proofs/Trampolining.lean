import Trampoline.Proofs.Callers

/-!
Async nodes that are completed on the spot. If the thread that submits a node's registration has
completed the node by the time the submission comes back, the thread goes on with the interpretation
where it left off: the stack is then what it was when the interpretation began, however many nodes
have been reached.
-/

namespace Trampoline

variable {H : Host}

namespace World

variable {w : World H} {a : Action} {t : ThreadId} {l : Nat} {stage : Stage H.Data H.Fn}
  {finish : Finish H.Fn}

/-- An interpretation on a thread keeps its level, unless the thread leaves a node without an exit
or the interpretation has come to its own exit. -/
theorem level_of_next {q : Place} (hp : w.pendingAt (.thread t l) = some (stage, finish))
    (h : w.next? a (.thread t l) = some q) :
    q = .thread t l ∨
      (a = .thread t ∧ ∃ id frames, stage = .leaving id frames ∧
        ∀ s exit, w.heap.handoffs[id]? ≠ some ⟨s, .early exit⟩) ∨
      ∃ i exit, stage = .driving i ∧ i.step = .finish exit ∧ q = .thread t (l + 1) := by
  by_cases hmoved : ∃ deeds o, w.shift a = .moved (.thread t l) deeds o
  · obtain ⟨deeds, o, hshift⟩ := hmoved
    obtain rfl : o = some q := by simpa [next?, hshift] using h
    obtain rfl := action_of_shift hshift
    obtain ⟨name, control, stack, ht, -⟩ := thread_of_pendingAt hp
    rw [shift_thread ht] at hshift
    unfold turnShift at hshift
    split at hshift
    case h_1 i last finish' stack heq =>
        cases heq
        split at hshift
        · rename_i exit hstep
          cases hshift
          rw [pendingAt_run ht] at hp
          obtain ⟨rfl, rfl⟩ := Prod.mk.inj (Option.some.inj hp)
          exact .inr (.inr ⟨i, exit, rfl, hstep, rfl⟩)
        · cases hshift
          exact .inl rfl
    case h_2 id frames last finish' stack heq =>
        cases heq
        split at hshift
        · cases hshift
          exact .inl rfl
        · cases hshift
          rw [pendingAt_run ht] at hp
          obtain ⟨rfl, rfl⟩ := Prod.mk.inj (Option.some.inj hp)
          rename_i hnone
          exact .inr (.inl ⟨rfl, id, frames, rfl, hnone⟩)
    all_goals cases hshift <;> exact .inl rfl
  · have hsame := next?_of_other fun deeds o hshift => hmoved ⟨deeds, o, hshift⟩
    exact .inl (Option.some.inj (h.symm.trans hsame))

end World

/-- A node whose registration is submitted has been reached before, or is reached just then. -/
theorem Stage.Goes.of_submitting {D F : Type} {s : Stage D F} {deeds : List (Deed D F)}
    {id : HandoffId} {frames : List (Frame D F)} (h : s.Goes deeds (some (.submitting id frames))) :
    s = .submitting id frames ∨
      ∃ i register scheduler, s = .driving i ∧ i.step = .suspend register scheduler frames := by
  cases h with
  | rest => exact .inl rfl
  | registered => exact .inl rfl
  | step hstep =>
      cases hstep with
      | suspend hsuspend => exact .inr ⟨_, _, _, rfl, hsuspend⟩

/-- What a thread is like that has started an interpretation above a stack and carries it in the
same activation. -/
inductive Thread.Drives (finish : Finish H.Fn) (base : List (Return H)) :
    Stage H.Data H.Fn → Thread H → Prop where
  | goesOn {name : Option String} {i : Interpretation H.Data H.Fn} {last : Kept} :
      Drives finish base (.driving i) ⟨name, .run (.drive i last finish), base⟩
  /-- It does what the interpretation has asked for. -/
  | answers {name : Option String} {control : Control H} {above : List (Return H)}
      {post : Post H.Data H.Fn} {frames : List (Frame H.Data H.Fn)} {last applied : Kept} :
      Drives finish base (.asking post frames)
        ⟨name, control, above ++ .answering post frames last applied finish :: base⟩
  /-- It submits the registration of a node. -/
  | submits {name : Option String} {control : Control H} {above : List (Return H)}
      {id : HandoffId} {frames : List (Frame H.Data H.Fn)} {last : Kept} :
      Drives finish base (.submitting id frames)
        ⟨name, control, above ++ .after (.park id frames last finish) :: base⟩
  /-- It is back from the submission. -/
  | leaves {name : Option String} {id : HandoffId} {frames : List (Frame H.Data H.Fn)}
      {last : Kept} :
      Drives finish base (.leaving id frames) ⟨name, .run (.park id frames last finish), base⟩
  /-- It takes the exit where it belongs. -/
  | concludes {name : Option String} {exit : Exit (Outcome H.Data H.Fn)} {refs : List Ref} :
      Drives finish base (.concluding exit)
        ⟨name, .run (.conclude exit finish), .holding refs :: base⟩

theorem Thread.Drives.of_submitting {finish : Finish H.Fn} {base : List (Return H)}
    {thread : Thread H} {id : HandoffId} {frames : List (Frame H.Data H.Fn)}
    (h : thread.Drives finish base (.submitting id frames)) :
    ∃ above last, thread.stack = above ++ .after (.park id frames last finish) :: base := by
  cases h with
  | submits => exact ⟨_, _, rfl⟩

/-- A return right above the stack on which the interpretation has been started is the one with
which the interpretation goes on. -/
theorem Thread.Drives.of_suffix {finish finish' : Finish H.Fn} {base : List (Return H)}
    {thread : Thread H} {stage : Stage H.Data H.Fn} {id : HandoffId}
    {frames : List (Frame H.Data H.Fn)} {last : Kept} (h : thread.Drives finish base stage)
    (hsuffix : .after (.park id frames last finish') :: base <:+ thread.stack) :
    stage = .submitting id frames := by
  have hback (above : List (Return H)) {back : Return H}
      (hsuffix : .after (.park id frames last finish') :: base <:+ above ++ back :: base) :
      .after (.park id frames last finish') = back :=
    (List.cons.inj ((List.suffix_of_suffix_length_le hsuffix (List.suffix_append above _)
      (Nat.le_refl _)).eq_of_length rfl)).1
  cases h with
  | goesOn => exact absurd hsuffix.length_le (Nat.not_succ_le_self _)
  | leaves => exact absurd hsuffix.length_le (Nat.not_succ_le_self _)
  | answers => cases hback _ hsuffix
  | submits =>
      cases hback _ hsuffix
      rfl
  | concludes => cases hback [] hsuffix

/-- Whether an interpretation goes on at the level at which it has been started. -/
def Stage.IsGoing {D F : Type} : Stage D F → Prop
  | .parked _ _ => False
  | .resuming _ _ => False
  | .concluding _ => False
  | _ => True

theorem World.drives_of_pendingAt {w : World H} {t : ThreadId} {base : List (Return H)}
    {thread : Thread H} {stage : Stage H.Data H.Fn} {finish : Finish H.Fn}
    (ht : w.threads[t]? = some thread) (hbase : base <:+ thread.stack)
    (hp : w.pendingAt (.thread t base.length) = some (stage, finish)) (hgoing : stage.IsGoing) :
    thread.Drives finish base stage := by
  obtain ⟨name, control, stack, ht', ⟨hl, hcontrol⟩ | ⟨above, back, rest, rfl, hl, hback⟩⟩ :=
    thread_of_pendingAt hp
  · obtain rfl := Option.some.inj (ht.symm.trans ht')
    obtain rfl := hbase.eq_of_length hl.symm
    cases control with
    | run task =>
        cases task with
        | drive i last finish' =>
            obtain ⟨rfl, rfl⟩ := Prod.mk.inj (Option.some.inj hcontrol)
            exact .goesOn
        | park id frames last finish' =>
            obtain ⟨rfl, rfl⟩ := Prod.mk.inj (Option.some.inj hcontrol)
            exact .leaves
        | resume exit frames finish' =>
            obtain ⟨rfl, -⟩ := Prod.mk.inj (Option.some.inj hcontrol)
            exact hgoing.elim
        | conclude exit finish' =>
            obtain ⟨rfl, -⟩ := Prod.mk.inj (Option.some.inj hcontrol)
            exact hgoing.elim
        | _ => contradiction
    | _ => contradiction
  · obtain rfl := Option.some.inj (ht.symm.trans ht')
    have hrest : rest <:+ above ++ back :: rest := (List.suffix_cons back rest).trans
      (List.suffix_append above _)
    have hsuffix := List.suffix_of_suffix_length_le hbase hrest (Nat.le_of_eq hl.symm)
    obtain rfl := hsuffix.eq_of_length hl.symm
    cases back with
    | answering post frames last applied finish' =>
        obtain ⟨rfl, rfl⟩ := Prod.mk.inj (Option.some.inj hback)
        exact .answers
    | after task =>
        cases task with
        | park id frames last finish' =>
            obtain ⟨rfl, rfl⟩ := Prod.mk.inj (Option.some.inj hback)
            exact .submits
        | _ => contradiction
    | _ => contradiction

/-- A thread that is started has to do with a registration only if it is started for it. -/
theorem Thread.Turning.born_isClear {thread thread' : Thread H} {t : ThreadId}
    {heap : Heap H.Data H.Fn} {state state' : H.State} {rest : List (Return H)} {turn : Turn H}
    (h : thread.Turning t heap state state' rest turn) (id : HandoffId)
    (hborn : turn.born = some thread') :
    thread'.IsClear id ∨ ∃ name s register stack kind,
      thread = ⟨name, .run (.submit s (.register register id)), stack⟩ ∧
        heap.schedulers[s]? = some kind ∧ kind.isInline = false := by
  rcases h.born_cases hborn with
    ⟨name, f, rfl⟩ | ⟨name, name', s, work, kind, heq, rfl, hkind, hinline⟩
  · refine .inl ⟨?_, fun back hback => by contradiction⟩
    simp [starting, Control.IsClear, Control.held, Task.registers?]
  · cases work with
    | register register id' =>
        by_cases hid : id' = id
        · subst hid
          exact .inr ⟨name, s, register, thread.stack, kind, heq, hkind, hinline⟩
        · refine .inl ⟨?_, ?_⟩
          · simpa [starting, Control.IsClear, Control.held, Task.registers?] using hid
          · simp [starting, Return.IsClear, Return.guards?, Return.held]
    | _ =>
        refine .inl ⟨?_, ?_⟩
        · simp [starting, Control.IsClear, Control.held, Task.registers?]
        · simp [starting, Return.IsClear, Return.guards?, Return.held]

namespace Run

variable {r : Run H} {b n m : Nat} {t : ThreadId} {base : List (Return H)}

/-- What an interpretation that is on a stack is above stays there. -/
theorem suffix_of_pendingAt {thread thread' : Thread H} {x : Pending H.Data H.Fn}
    (ht : (r.world n).threads[t]? = some thread) (hbase : base <:+ thread.stack)
    (hp : (r.world n).pendingAt (.thread t base.length) = some x)
    (ht' : (r.world (n + 1)).threads[t]? = some thread') : base <:+ thread'.stack := by
  cases (r.ordered n).becomes (r.step n) ht' with
  | waits ht₀ hstack =>
      obtain rfl := Option.some.inj (ht.symm.trans ht₀)
      rwa [hstack]
  | starts _ _ _ _ hnone =>
      rw [ht] at hnone
      contradiction
  | @acts _ _ rest turn _ ht₀ hturn heq =>
      obtain rfl := Option.some.inj (ht.symm.trans ht₀)
      subst heq
      rw [Thread.stack_heard]
      refine List.IsSuffix.trans ?_ (List.suffix_append turn.pushed rest)
      rcases (Thread.turning hturn).pops with rfl | ⟨back, hstack, hcontrol⟩
      · exact hbase
      · rw [hstack] at hbase
        rcases List.suffix_cons_iff.1 hbase with heq | hrest
        · -- The thread would come back to what the interpretation is above.
          obtain ⟨name, control, stack⟩ := thread
          obtain rfl : stack = base := hstack.trans heq.symm
          have hnone : control.pending? = none := by
            rcases hcontrol with ⟨v, rfl, -⟩ | ⟨payload, rfl, -⟩
            · rfl
            · rfl
          simp [World.pendingAt, ht, Thread.pendingAt, hnone] at hp
        · exact hrest

section Clear

variable {k : Nat} {s : ThreadId} {register : Register H.Fn} {scheduler : SchedulerId}
  {id : HandoffId}

/-- An inline scheduler leaves the registration of a node to the thread that has come to it. -/
theorem isClear_or_comes (hstart : (r.world 0).Starting)
    (hcomes : r.ComesTo k s register scheduler id)
    (hinline : ∃ kind, (r.world 0).heap.schedulers[scheduler]? = some kind ∧ kind.isInline = true)
    (hrequest : ∀ m t q register, r.Does m t (.request q) → q.work? ≠ some (.register register id))
    {thread : Thread H} (ht : (r.world n).threads[t]? = some thread) :
    thread.IsClear id ∨ t = s ∧ k < n := by
  induction n generalizing t thread with
  | zero => exact .inl (isClear_of_starting hstart ht)
  | succ n ih =>
      cases (r.ordered n).becomes (r.step n) ht with
      | waits ht₀ hstack hheld hready =>
          rcases ih ht₀ with hclear | ⟨rfl, hk⟩
          · exact .inl (hclear.of_held hstack hheld)
          · exact .inr ⟨rfl, Nat.lt_succ_of_lt hk⟩
      | @acts before state rest turn haction ht₀ hturn heq =>
          rcases ih ht₀ with hclear | ⟨rfl, hk⟩
          · by_cases hcome : ∃ register scheduler, r.ComesTo n t register scheduler id
            · obtain ⟨_, _, hcome⟩ := hcome
              obtain ⟨rfl, rfl, -, -⟩ := hcome.unique hcomes
              exact .inr ⟨rfl, Nat.lt_succ_self n⟩
            · rw [heq]
              exact .inl (isClear_of_turn haction ht₀ hclear hcome (hrequest n t) hturn).1
          · exact .inr ⟨rfl, Nat.lt_succ_of_lt hk⟩
      | @starts t₀ before state rest turn haction ht₀ hturn hborn hnone =>
          rcases (Thread.turning hturn).born_isClear id hborn with
            hclear | ⟨name, s', register', stack, kind, rfl, hkind, hnot⟩
          · exact .inl hclear
          · have hperforms : r.Performs (n + 1) (.register register' id) (.guarded s') :=
              .boundary (Nat.lt_succ_self n) ⟨haction, name, stack, ht₀⟩
            obtain rfl := Return.guarded.inj (hperforms.eq_guarded hstart hcomes hrequest)
            obtain ⟨kind', hkind', hinline'⟩ := exists_scheduler Scheduler.isKept_isInline hinline n
            obtain rfl := Option.some.inj (hkind.symm.trans hkind')
            rw [hnot] at hinline'
            contradiction

/-- Once nobody has to do with the registration of a node any more, nobody will have again. -/
theorem isClear_of_le (hcomes : r.ComesTo k s register scheduler id)
    (hrequest : ∀ m t q register, r.Does m t (.request q) → q.work? ≠ some (.register register id))
    (hk : k < n) (hclear : ∀ (t : ThreadId) (thread : Thread H),
      (r.world n).threads[t]? = some thread → thread.IsClear id) (hnm : n ≤ m) {thread : Thread H}
    (ht : (r.world m).threads[t]? = some thread) : thread.IsClear id := by
  induction hnm generalizing t thread with
  | refl => exact hclear t thread ht
  | @step m hnm ih =>
      have hcome (t : ThreadId) : ¬∃ register scheduler, r.ComesTo m t register scheduler id := by
        rintro ⟨_, _, hcome⟩
        exact absurd (hcome.unique hcomes).1 (Nat.ne_of_gt (Nat.lt_of_lt_of_le hk hnm))
      cases (r.ordered m).becomes (r.step m) ht with
      | waits ht₀ hstack hheld hready => exact (ih ht₀).of_held hstack hheld
      | @acts before state rest turn haction ht₀ hturn heq =>
          rw [heq]
          exact (isClear_of_turn haction ht₀ (ih ht₀) (hcome t) (hrequest m t) hturn).1
      | @starts t₀ before state rest turn haction ht₀ hturn hborn hnone =>
          exact (isClear_of_turn haction ht₀ (ih ht₀) (hcome t₀) (hrequest m t₀) hturn).2 _ hborn

end Clear

/-- When the submission of a registration comes back, its thread has offered an exit to the node
meanwhile. -/
def CompletesEarly (r : Run H) (b : Nat) (p : Place) : Prop :=
  ∀ n id frames, r.stage b p n = some (.leaving id frames) →
    ∃ k t l exit origin, k < n ∧ r.stage b p k = some (.submitting id frames) ∧
      r.place b p k = some (.thread t l) ∧ r.Offers (b + k) t id exit origin

section Early

variable {p : Place} {id : HandoffId} {frames : List (Frame H.Data H.Fn)} {x : Pending H.Data H.Fn}
  (hp : (r.world b).pendingAt p = some x)

include hp

theorem parking_of_stage {stage : Stage H.Data H.Fn} (hs : r.stage b p n = some stage)
    (hparks : stage.parks? = some id) :
    ∃ t l handoff, r.place b p n = some (.thread t l) ∧
      (r.world (b + n)).heap.handoffs[id]? = some handoff ∧ handoff.submitter = t ∧
        (handoff.phase = .submitting ∨ ∃ exit, handoff.phase = .early exit) := by
  obtain ⟨q, hq, hat⟩ := (r.stage_eq_some hp).1 hs
  obtain ⟨t, l, handoff, rfl, hhandoff, hsubmitter, hphase⟩ :=
    (r.sound (b + n)).parking q id ⟨stage, _, hat, hparks⟩
  exact ⟨t, l, handoff, hq, hhandoff, hsubmitter, hphase⟩

/-- A thread that is about to leave a node finds the exit that it has offered. -/
theorem CompletesEarly.early (hearly : r.CompletesEarly b p)
    (hs : r.stage b p n = some (.leaving id frames)) :
    ∃ s exit, (r.world (b + n)).heap.handoffs[id]? = some ⟨s, .early exit⟩ := by
  obtain ⟨k, t, l, exit, origin, hk, hsubmitting, hq, hoffers⟩ := hearly n id frames hs
  obtain ⟨t', l', handoff, hq', hhandoff, hsubmitter, hphase⟩ := parking_of_stage hp hsubmitting rfl
  obtain ⟨rfl, -⟩ := Place.thread.inj (Option.some.inj (hq.symm.trans hq'))
  have hexit : (r.world (b + k + 1)).At id Phase.HasExit := by
    rcases hphase with hphase | ⟨exit', hphase⟩
    · have haccepted : (handoff.offer t exit).2.IsAccepted :=
        (handoff.isAccepted_iff t exit).2 (.inl ⟨hphase, hsubmitter.symm⟩)
      exact (Accepts.hasExit ⟨origin, handoff, hoffers, hhandoff, haccepted⟩).2
    · refine hasExit_le ⟨handoff, hhandoff, ?_⟩ (Nat.le_succ (b + k))
      rw [hphase]
      trivial
  obtain ⟨handoff', hhandoff', hhas⟩ := hasExit_le hexit (show b + k + 1 ≤ b + n by omega)
  obtain ⟨-, -, ⟨s, phase⟩, -, hhandoff'', -, hphase'⟩ := parking_of_stage hp hs rfl
  obtain rfl := Option.some.inj (hhandoff'.symm.trans hhandoff'')
  rcases hphase' with rfl | ⟨exit', rfl⟩
  · exact hhas.elim
  · exact ⟨s, exit', hhandoff''⟩

end Early

/-- How far an interpretation is that is carried in one activation: the thread is above the stack on
which it has been started. -/
inductive Stays (r : Run H) (b : Nat) (t : ThreadId) (base : List (Return H)) (finish : Finish H.Fn)
    (n : Nat) : Stage H.Data H.Fn → Prop where
  | going {thread : Thread H} {stage : Stage H.Data H.Fn} :
      r.place b (.thread t base.length) n = some (.thread t base.length) →
        (r.world (b + n)).threads[t]? = some thread → base <:+ thread.stack → stage.IsGoing →
          Stays r b t base finish n stage
  | concluding {name : Option String} {exit : Exit (Outcome H.Data H.Fn)} {refs : List Ref} :
      r.place b (.thread t base.length) n = some (.thread t (base.length + 1)) →
        (r.world (b + n)).threads[t]? =
            some ⟨name, .run (.conclude exit finish), .holding refs :: base⟩ →
          Stays r b t base finish n (.concluding exit)

section Stays

variable {finish : Finish H.Fn} {stage stage' : Stage H.Data H.Fn} {i : Interpretation H.Data H.Fn}
  {name : Option String} {last : Kept}

/-- A thread whose interpretation has come to its exit goes on to take it where it belongs. -/
theorem next_of_finish {exit : Exit (Outcome H.Data H.Fn)}
    (ht : (r.world n).threads[t]? = some ⟨name, .run (.drive i last finish), base⟩)
    (hstep : i.step = .finish exit) :
    (r.world (n + 1)).threads[t]? = some ⟨name, .run (.drive i last finish), base⟩ ∨
      ∃ refs, (r.world (n + 1)).threads[t]? =
        some ⟨name, .run (.conclude exit finish), .holding refs :: base⟩ := by
  rcases next_of_turn ht rfl with ⟨-, hsame⟩ | ⟨-, -, hnext⟩
  · exact .inl hsame
  · simp only [Task.turn, Task.driveTurn, hstep] at hnext
    exact .inr ⟨_, hnext⟩

theorem drive_of_pendingAt {thread : Thread H} (ht : (r.world n).threads[t]? = some thread)
    (hbase : base <:+ thread.stack)
    (hat : (r.world n).pendingAt (.thread t base.length) = some (.driving i, finish)) :
    ∃ name last, (r.world n).threads[t]? = some ⟨name, .run (.drive i last finish), base⟩ := by
  have hdrives := World.drives_of_pendingAt ht hbase hat trivial
  cases hdrives with
  | goesOn => exact ⟨_, _, ht⟩

/-- What takes an exit where it belongs does so at the level to which its thread has come. -/
theorem conclude_of_pendingAt {exit : Exit (Outcome H.Data H.Fn)} {l : Nat}
    (hat : (r.world n).pendingAt (.thread t l) = some (.concluding exit, finish)) :
    ∃ name task stack, stack.length = l ∧ (r.world n).threads[t]? = some ⟨name, .run task, stack⟩ ∧
      task.pending? = some (.concluding exit, finish) := by
  obtain ⟨t', name, task, stack, hplace, ht, htask⟩ := World.active_of_pendingAt hat trivial
  obtain ⟨rfl, hl⟩ := Place.thread.inj hplace
  exact ⟨name, task, stack, hl.symm, ht, htask⟩

/-- As long as an interpretation is at the level at which it has been started, it goes on there. -/
theorem isGoing_of_goes {thread : Thread H} {deeds : List (Deed H.Data H.Fn)}
    (hgoes : stage.Goes deeds (some stage')) (hgoing : stage.IsGoing)
    (ht : (r.world n).threads[t]? = some thread) (hbase : base <:+ thread.stack)
    (hat : (r.world n).pendingAt (.thread t base.length) = some (stage, finish))
    (hat' : (r.world (n + 1)).pendingAt (.thread t base.length) = some (stage', finish)) :
    stage'.IsGoing := by
  cases hgoes with
  | rest => exact hgoing
  | registered => exact hgoing
  | step hstep =>
      cases hstep with
      | park =>
          obtain ⟨hplace, -⟩ := World.handoff_of_pendingAt hat'
          contradiction
      | deliver => exact hgoing.elim
      | resume => exact hgoing.elim
      | finish hfinish =>
          obtain ⟨name, last, ht₀⟩ := drive_of_pendingAt ht hbase hat
          obtain ⟨name', task, stack, hl, ht', htask⟩ := conclude_of_pendingAt hat'
          rcases next_of_finish ht₀ hfinish with hsame | ⟨refs, hnext⟩
          · rw [hsame] at ht'
            cases ht'
            simp [Task.pending?] at htask
          · rw [hnext] at ht'
            cases ht'
            simp at hl
      | _ => trivial

/-- An interpretation stays with the activation that started it as long as it leaves no node without
an exit. -/
theorem Stays.next {y : Pending H.Data H.Fn}
    (hp : (r.world b).pendingAt (.thread t base.length) = some y) (hfinish : y.2 = finish)
    (hearly : ∀ id frames, stage = .leaving id frames → r.action (b + n) = .thread t →
      ∃ s exit, (r.world (b + n)).heap.handoffs[id]? = some ⟨s, .early exit⟩)
    (h : r.Stays b t base finish n stage)
    (hs : r.stage b (.thread t base.length) n = some stage)
    (hs' : r.stage b (.thread t base.length) (n + 1) = some stage') :
    r.Stays b t base finish (n + 1) stage' := by
  obtain ⟨q, hq, hat⟩ := (r.stage_eq_some hp).1 hs
  obtain ⟨q', hq', hat'⟩ := (r.stage_eq_some hp).1 hs'
  have hnext : (r.world (b + n)).next? (r.action (b + n)) q = some q' := by
    rwa [place, hq] at hq'
  rw [hfinish] at hat hat'
  cases h with
  | going hplace ht hbase hgoing =>
      obtain rfl := Option.some.inj (hq.symm.trans hplace)
      rcases World.level_of_next hat hnext with rfl | ⟨haction, id, frames, rfl, hnone⟩ |
        ⟨i, exit, rfl, hstep, rfl⟩
      · have hgoes := (r.course hp).goes n stage hs
        rw [show (r.course hp).stage (n + 1) = some stage' from hs'] at hgoes
        obtain ⟨name', control', stack', ht', -⟩ := World.thread_of_pendingAt hat'
        exact .going hq' ht' (suffix_of_pendingAt ht hbase hat ht')
          (isGoing_of_goes hgoes hgoing ht hbase hat hat')
      · obtain ⟨s, exit, hhandoff⟩ := hearly id frames rfl haction
        exact absurd hhandoff (hnone s exit)
      · obtain ⟨name, last, ht₀⟩ := drive_of_pendingAt ht hbase hat
        rcases next_of_finish ht₀ hstep with hsame | ⟨refs, hnext'⟩
        · -- The thread would wait on a stack that it does not have.
          obtain ⟨_, _, _, ht', ⟨hl, -⟩ | ⟨above, back, rest, rfl, hl, -⟩⟩ :=
            World.thread_of_pendingAt hat'
          · cases hsame.symm.trans ht'
            omega
          · cases hsame.symm.trans ht'
            simp at hl
            omega
        · have hconclude : (r.world (b + (n + 1))).pendingAt (.thread t (base.length + 1)) =
              some (.concluding exit, finish) := World.pendingAt_run hnext'
          obtain ⟨rfl, -⟩ := Prod.mk.inj (Option.some.inj (hat'.symm.trans hconclude))
          exact .concluding hq' hnext'
  | @concluding name exit refs hplace ht =>
      obtain rfl := Option.some.inj (hq.symm.trans hplace)
      by_cases haction : r.action (b + n) = .thread t
      · have hover : (r.world (b + n)).next? (r.action (b + n)) (.thread t (base.length + 1)) =
            none := by
          rw [haction, World.next?, World.shift_thread ht]
          simp [World.turnShift]
        rw [hover] at hnext
        contradiction
      · have hplace' : (r.world (b + n)).next? (r.action (b + n)) (.thread t (base.length + 1)) =
            some (.thread t (base.length + 1)) :=
          World.next?_of_other fun deeds o hshift => haction (World.action_of_shift hshift)
        obtain rfl := Option.some.inj (hnext.symm.trans hplace')
        have ht' := thread_of_other ht trivial haction
        have hconclude : (r.world (b + (n + 1))).pendingAt (.thread t (base.length + 1)) =
            some (.concluding exit, finish) := World.pendingAt_run ht'
        obtain ⟨rfl, -⟩ := Prod.mk.inj (Option.some.inj (hat'.symm.trans hconclude))
        exact .concluding hq' ht'

/-- An interpretation that completes its nodes early stays with the activation that started it. -/
theorem stays (ht : (r.world b).threads[t]? = some ⟨name, .run (.drive i last finish), base⟩)
    (hearly : r.CompletesEarly b (.thread t base.length))
    (hs : r.stage b (.thread t base.length) n = some stage) : r.Stays b t base finish n stage := by
  have hp := World.pendingAt_run ht
  induction n generalizing stage with
  | zero =>
      have hstart := (r.stage_eq_some hp (n := 0)).2 ⟨_, rfl, hp⟩
      obtain rfl := Option.some.inj (hs.symm.trans hstart)
      exact .going rfl ht (List.suffix_refl base) trivial
  | succ n ih =>
      cases hbefore : r.stage b (.thread t base.length) n with
      | none =>
          rw [r.stage_eq_none_of_le hp hbefore (Nat.le_succ n)] at hs
          contradiction
      | some before =>
          exact (ih hbefore).next hp rfl (fun _ _ h _ => hearly.early hp (h ▸ hbefore)) hbefore hs

theorem Stays.drives {y : Pending H.Data H.Fn}
    (hp : (r.world b).pendingAt (.thread t base.length) = some y) (hfinish : y.2 = finish)
    (h : r.Stays b t base finish n stage) (hs : r.stage b (.thread t base.length) n = some stage) :
    ∃ thread, (r.world (b + n)).threads[t]? = some thread ∧ thread.Drives finish base stage := by
  cases h with
  | @going thread _ hplace ht hbase hgoing =>
      obtain ⟨q, hq, hat⟩ := (r.stage_eq_some hp).1 hs
      obtain rfl := Option.some.inj (hq.symm.trans hplace)
      rw [hfinish] at hat
      exact ⟨thread, ht, World.drives_of_pendingAt ht hbase hat hgoing⟩
  | concluding _ ht => exact ⟨_, ht, .concludes⟩

/-- A thread whose interpretation comes to a node goes on to submit the node's registration. -/
theorem comesTo_of_suspend {id : HandoffId} {register : Register H.Fn} {scheduler : SchedulerId}
    {frames : List (Frame H.Data H.Fn)} {thread : Thread H}
    (ht : (r.world n).threads[t]? = some ⟨name, .run (.drive i last finish), base⟩)
    (hstep : i.step = .suspend register scheduler frames)
    (ht' : (r.world (n + 1)).threads[t]? = some thread)
    (hdrives : thread.Drives finish base (.submitting id frames)) :
    r.ComesTo n t register scheduler id := by
  obtain ⟨above, last', hstack⟩ := hdrives.of_submitting
  rcases next_of_turn ht rfl with ⟨-, hsame⟩ | ⟨haction, -, hnext⟩
  · obtain rfl := Option.some.inj (hsame.symm.trans ht')
    have hlength := congrArg List.length hstack
    simp only [List.length_append, List.length_cons] at hlength
    omega
  · simp only [Task.turn, Task.driveTurn, hstep] at hnext
    obtain rfl := Option.some.inj (hnext.symm.trans ht')
    rw [Thread.stack_heard, ← List.singleton_append, ← List.append_assoc] at hstack
    have hpushed : [] ++ [Return.after (Task.park (r.world n).heap.handoffs.size frames _ finish)] =
      above ++ [.after (.park id frames last' finish)] := List.append_cancel_right hstack
    have hreturn := List.singleton_inj.1 (List.append_inj' hpushed rfl).2
    obtain ⟨rfl, -⟩ := Task.park.inj (Return.after.inj hreturn)
    exact ⟨i, last, finish, frames, ⟨haction, name, base, ht⟩, hstep, rfl⟩

/-- The interpretation comes to its nodes above the stack on which it has been started. -/
theorem exists_comes {id : HandoffId} {frames : List (Frame H.Data H.Fn)}
    (ht : (r.world b).threads[t]? = some ⟨name, .run (.drive i last finish), base⟩)
    (hearly : r.CompletesEarly b (.thread t base.length))
    (hs : r.stage b (.thread t base.length) n = some (.submitting id frames)) :
    ∃ k name control register scheduler, k < n ∧
      (r.world (b + k)).threads[t]? = some ⟨name, control, base⟩ ∧
        r.ComesTo (b + k) t register scheduler id := by
  have hp : (r.world b).pendingAt (.thread t base.length) = some (.driving i, finish) :=
    World.pendingAt_run ht
  induction n with
  | zero =>
      have hstart := (r.stage_eq_some hp (n := 0)).2 ⟨_, rfl, hp⟩
      cases hs.symm.trans hstart
  | succ n ih =>
      cases hbefore : r.stage b (.thread t base.length) n with
      | none =>
          rw [r.stage_eq_none_of_le hp hbefore (Nat.le_succ n)] at hs
          contradiction
      | some before =>
          have hgoes := (r.course hp).goes n before hbefore
          rw [show (r.course hp).stage (n + 1) = some (.submitting id frames) from hs] at hgoes
          rcases hgoes.of_submitting with rfl | ⟨i', register, scheduler, rfl, hstep⟩
          · obtain ⟨k, name, control, register, scheduler, hk, hcomes⟩ := ih hbefore
            exact ⟨k, name, control, register, scheduler, Nat.lt_succ_of_lt hk, hcomes⟩
          · obtain ⟨thread, ht₀, hdrives⟩ := (stays ht hearly hbefore).drives hp rfl hbefore
            obtain ⟨thread', ht', hdrives'⟩ := (stays ht hearly hs).drives hp rfl hs
            cases hdrives with
            | goesOn =>
                exact ⟨n, _, _, register, scheduler, Nat.lt_succ_self n, ht₀,
                  comesTo_of_suspend ht₀ hstep ht' hdrives'⟩

end Stays

/-- One activation carries the interpretation that thread `t` has started at time `b` on a stack. -/
structure Trampolines (r : Run H) (b : Nat) (t : ThreadId) (base : List (Return H))
    (finish : Finish H.Fn) : Prop where
  /-- Its thread goes on with it above this stack, to its end: it is never parked, no delivery goes
  on with it, and whenever a continuation is called the stack is the one from the start. -/
  drives {n : Nat} {stage : Stage H.Data H.Fn} :
    r.stage b (.thread t base.length) n = some stage →
      ∃ thread, (r.world (b + n)).threads[t]? = some thread ∧ thread.Drives finish base stage
  /-- At a node that it has left, it has gone on with the exit on the spot and at no other time, and
  no exit that is delivered to the node finds it parked. -/
  inline {n : Nat} {id : HandoffId} {frames : List (Frame H.Data H.Fn)}
      {i : Interpretation H.Data H.Fn} :
    r.stage b (.thread t base.length) n = some (.leaving id frames) →
      r.stage b (.thread t base.length) (n + 1) = some (.driving i) →
        (∃ exit, r.HandsOver (b + n) id frames finish exit (.thread t base.length) ∧
          ∀ m frames' finish' exit' q, r.HandsOver m id frames' finish' exit' q →
            m = b + n ∧ q = .thread t base.length) ∧
          ∀ m t' exit origin handoff frames' finish', r.Offers m t' id exit origin →
            (r.world m).heap.handoffs[id]? = some handoff →
              (handoff.offer t' exit).2 ≠ .accepted frames' finish'
  /-- Whatever its thread has done for the submission of a node is over when it goes on after that.
  -/
  submitted {m n : Nat} {id : HandoffId} {frames : List (Frame H.Data H.Fn)}
      {stage : Stage H.Data H.Fn} {control : Control H} {stack : List (Return H)} :
    r.stage b (.thread t base.length) m = some (.submitting id frames) →
      r.Turns (b + m) t control stack → r.stage b (.thread t base.length) n = some stage →
        stage ≠ .submitting id frames → ¬r.IsAbove (b + n) t stack
  /-- If the node's scheduler runs work on the spot, and the host does not hand the registration in,
  from then on no thread has anything to do with the registration. -/
  registered {m j n : Nat} {id : HandoffId} {frames : List (Frame H.Data H.Fn)}
      {i : Interpretation H.Data H.Fn} {k : Nat} {register : Register H.Fn}
      {scheduler : SchedulerId}
      {t' : ThreadId} {thread : Thread H} :
    r.stage b (.thread t base.length) m = some (.submitting id frames) → m ≤ j →
      r.stage b (.thread t base.length) j = some (.driving i) → j ≤ n →
        r.ComesTo k t register scheduler id →
          (∃ kind, (r.world 0).heap.schedulers[scheduler]? = some kind ∧ kind.isInline = true) →
            (∀ m t q register, r.Does m t (.request q) → q.work? ≠ some (.register register id)) →
              (r.world (b + n)).threads[t']? = some thread → thread.IsClear id

section Trampolines

variable {finish : Finish H.Fn} {i : Interpretation H.Data H.Fn} {name : Option String}
  {last : Kept}
  {id : HandoffId} {frames : List (Frame H.Data H.Fn)}

/-- An interpretation that leaves a node does so in the turn of its thread. -/
theorem action_of_leaving {thread thread' : Thread H} {j : Interpretation H.Data H.Fn}
    (ht : (r.world n).threads[t]? = some thread)
    (ht' : (r.world (n + 1)).threads[t]? = some thread')
    (hdrives : thread.Drives finish base (.leaving id frames))
    (hdrives' : thread'.Drives finish base (.driving j)) :
    r.action n = .thread t ∧ ∃ name last, (r.world n).threads[t]? =
      some ⟨name, .run (.park id frames last finish), base⟩ := by
  cases hdrives with
  | leaves =>
      refine ⟨Classical.not_not.1 fun haction => ?_, _, _, ht⟩
      have hsame := thread_of_other ht trivial haction
      obtain rfl := Option.some.inj (hsame.symm.trans ht')
      contradiction

theorem HandsOver.not_accepted {q : Place} {exit : Exit (Outcome H.Data H.Fn)} {t' : ThreadId}
    (h : r.HandsOver n id frames finish exit q) (haction : r.action n = .thread t)
    (ht : (r.world n).threads[t]? = some ⟨name, .run (.park id frames last finish), base⟩)
    {exit' : Exit (Outcome H.Data H.Fn)} {origin : Origin} {handoff : Handoff H.Data H.Fn}
    {frames' : List (Frame H.Data H.Fn)} {finish' : Finish H.Fn}
    (hoffers : r.Offers m t' id exit' origin)
    (hhandoff : (r.world m).heap.handoffs[id]? = some handoff) :
    (handoff.offer t' exit').2 ≠ .accepted frames' finish' := by
  intro haccepted
  obtain ⟨haction', name', stack, ht'⟩ := hoffers
  obtain ⟨rfl, -⟩ := (HandsOver.resume haction' ht' hhandoff haccepted).unique h
  obtain rfl := Action.thread.inj (haction'.symm.trans haction)
  cases ht'.symm.trans ht

/-- An interpretation of any length whose nodes all get their exits from its thread while their
registrations are submitted is carried by the one activation that has started it. -/
theorem CompletesEarly.trampolines (hstart : (r.world 0).Starting)
    (ht : (r.world b).threads[t]? = some ⟨name, .run (.drive i last finish), base⟩)
    (hearly : r.CompletesEarly b (.thread t base.length)) : r.Trampolines b t base finish := by
  have hp : (r.world b).pendingAt (.thread t base.length) = some (.driving i, finish) :=
    World.pendingAt_run ht
  have hdrives {n : Nat} {stage : Stage H.Data H.Fn}
      (hs : r.stage b (.thread t base.length) n = some stage) :
      ∃ thread, (r.world (b + n)).threads[t]? = some thread ∧ thread.Drives finish base stage :=
    (stays ht hearly hs).drives hp rfl hs
  constructor
  case drives => exact hdrives
  case inline =>
    intro n id frames j hs hs'
    obtain ⟨thread, ht₀, hleaving⟩ := hdrives hs
    obtain ⟨thread', ht', hdriving⟩ := hdrives hs'
    obtain ⟨haction, name', last', hpark⟩ := action_of_leaving ht₀ ht' hleaving hdriving
    obtain ⟨s, exit, hhandoff⟩ := hearly.early hp hs
    have hhands : r.HandsOver (b + n) id frames finish exit (.thread t base.length) :=
      .inline haction hpark hhandoff rfl
    refine ⟨⟨exit, hhands, ?_⟩, ?_⟩
    · intro m frames' finish' exit' q hhands'
      obtain ⟨hm, -, -, -, hq⟩ := hhands'.unique hhands
      exact ⟨hm, hq⟩
    · intro m t' exit' origin handoff frames' finish' hoffers hhandoff'
      exact hhands.not_accepted haction hpark hoffers hhandoff'
  case submitted =>
    rintro m n id frames stage control stack hs ⟨-, name', ht₀⟩ hs' hne
      ⟨thread', ht', above, hstack, -⟩
    obtain ⟨_, htm, hsubmitting⟩ := hdrives hs
    obtain rfl := Option.some.inj (ht₀.symm.trans htm)
    obtain ⟨above', last', hbelow⟩ := hsubmitting.of_submitting
    obtain ⟨_, htn, hdriving⟩ := hdrives hs'
    obtain rfl := Option.some.inj (ht'.symm.trans htn)
    have hsuffix : .after (.park id frames last' finish) :: base <:+ stack :=
      ⟨above', hbelow.symm⟩
    exact hne (hdriving.of_suffix (hsuffix.trans ⟨above, hstack.symm⟩))
  case registered =>
    intro m j n id frames i' k register scheduler t' thread hs hmj hs' hjn hcomes hinline hrequest
      ht'
    obtain ⟨l, name', control, _, _, hl, hbefore, hcomes'⟩ := exists_comes ht hearly hs
    obtain ⟨rfl, -⟩ := hcomes.unique hcomes'
    refine isClear_of_le hcomes hrequest (show b + l < b + j by omega) ?_ (by omega) ht'
    intro u thread' hu
    rcases isClear_or_comes hstart hcomes hinline hrequest hu with hclear | ⟨rfl, -⟩
    · exact hclear
    · -- What the interpretation is above has been there before the node was reached.
      have hbase : ∀ back ∈ base, back.IsClear id := by
        rcases isClear_or_comes hstart hcomes hinline hrequest hbefore with hclear | ⟨-, hlt⟩
        · exact hclear.stack
        · exact absurd hlt (Nat.lt_irrefl _)
      obtain ⟨_, hj, hdriving⟩ := hdrives hs'
      obtain rfl := Option.some.inj (hu.symm.trans hj)
      cases hdriving with
      | goesOn =>
          refine ⟨?_, hbase⟩
          simp [Control.IsClear, Control.held, Task.registers?]

end Trampolines

end Run

namespace Drill

def link (f : Nat) : Effect Unit Nat .unit .unit :=
  (Effect.asyncOn immediateId ⟨f, ∅⟩ : Effect Unit Nat .unit .unit).map ⟨5, ∅⟩

def chain : Effect Unit Nat (.list .unit) .unit := .sequence [link 2, link 3, link 4]

/-- Three registrations complete their nodes. The first one panics then, and the second one does
something else. -/
def chaining : Script
  | 0 => [.ask (.runBlocking (.list .unit) .unit chain.node)]
  | 2 => [.ask (.complete (.node 0) (.ok .unit)), .raise (.text "late")]
  | 3 => [.ask (.complete (.node 1) (.ok .unit)), .ask (.newPromise .unit)]
  | 4 => [.ask (.complete (.node 2) (.ok .unit))]
  | _ => []

def chained : Run (host chaining) := run chaining [] (List.replicate 94 0)

/-- The stack of the caller that blocks on the chain. -/
def chainBase : List (Return (host chaining)) :=
  [.after (.receive (.list .unit) .unit 0 .blockedForever), .user (0, 1)]

def isLeaving : Stage Unit Nat → Bool
  | .leaving _ _ => true
  | _ => false

/-- The times at which a thread leaves a node are among those of a list. -/
theorem completesEarly_of_times {script : Script} {r : Run (host script)} {b : Nat} {p : Place}
    {x : Pending Unit Nat} (last : Nat) (times : List Nat) (hp : (r.world b).pendingAt p = some x)
    (hover : r.stage b p last = none)
    (hcheck : ∀ n < last, (r.stage b p n).any isLeaving = true → n ∈ times)
    (htimes : ∀ n ∈ times, ∃ id frames k t l exit origin,
      r.stage b p n = some (.leaving id frames) ∧
      k < n ∧ r.stage b p k = some (.submitting id frames) ∧
        r.place b p k = some (.thread t l) ∧ r.Offers (b + k) t id exit origin) :
    r.CompletesEarly b p := by
  intro n id frames hs
  by_cases hn : n < last
  · have hany : (r.stage b p n).any isLeaving = true := by
      rw [hs]
      rfl
    obtain ⟨id', frames', k, t, l, exit, origin, hs', hk, hrest⟩ := htimes n (hcheck n hn hany)
    obtain ⟨rfl, rfl⟩ := Stage.leaving.inj (Option.some.inj (hs'.symm.trans hs))
    exact ⟨k, t, l, exit, origin, hk, hrest⟩
  · rw [r.stage_eq_none_of_le hp hover (Nat.le_of_not_lt hn)] at hs
    contradiction

set_option maxRecDepth 10000 in
theorem chained_completesEarly : chained.CompletesEarly 2 (.thread 0 2) := by
  refine completesEarly_of_times 92 [26, 56, 83] rfl rfl (by decide) ?_
  simp only [List.mem_cons, List.not_mem_nil, or_false, forall_eq_or_imp, forall_eq]
  refine ⟨⟨0, _, 14, 0, 2, .settled (.ok .unit), .completion, rfl, by decide, rfl, rfl, rfl, _, _,
    rfl⟩,
    ⟨1, _, 43, 0, 2, .settled (.ok .unit), .completion, rfl, by decide, rfl, rfl, rfl, _, _, rfl⟩,
    ⟨2, _, 73, 0, 2, .settled (.ok .unit), .completion, rfl, by decide, rfl, rfl, rfl, _, _, rfl⟩⟩

/-- Whether a task does not hand in work. -/
def handsInNothing : Task (host chaining) → Bool
  | .request q => q.work?.isNone
  | _ => true

set_option maxRecDepth 10000 in
/-- The activation that has started the chain ends it, and the panic of the first registration is
long over. -/
theorem chained_trampolines :
    chained.Trampolines 2 0 chainBase (.channel (.list .unit) .unit 0) ∧
      chained.stage 2 (.thread 0 2) 91 =
        some (.concluding (.settled (.ok (.list .unit (.ofList [.unit, .unit, .unit]))))) ∧
        ∀ (t : ThreadId) (thread : Thread (host chaining)),
          (chained.world 88).threads[t]? = some thread → thread.IsClear 0 := by
  have ht : (chained.world 2).threads[0]? =
      some ⟨none, .run (.drive (.start chain.node) ∅ (.channel (.list .unit) .unit 0)),
        chainBase⟩ := rfl
  have htrampolines := Run.CompletesEarly.trampolines (start_starting chaining []) ht
    chained_completesEarly
  refine ⟨htrampolines, rfl, fun t thread ht => ?_⟩
  have hcomes : ∃ register scheduler, chained.ComesTo 8 0 register scheduler 0 ∧
      ∃ kind, (chained.world 0).heap.schedulers[scheduler]? = some kind ∧ kind.isInline = true :=
    ⟨_, _, ⟨_, _, _, _, ⟨rfl, _, _, rfl⟩, rfl, rfl⟩, _, rfl, rfl⟩
  obtain ⟨register, scheduler, hcomes, hinline⟩ := hcomes
  refine htrampolines.registered (m := 14) (j := 84) (n := 86) rfl (by decide) rfl (by decide)
    hcomes
    hinline ?_ ht
  intro m t' q register hdoes hwork
  have hcheck := check_of_does (c := fun _ => handsInNothing) (by decide) hdoes
  simp [handsInNothing, hwork] at hcheck

end Drill

end Trampoline
