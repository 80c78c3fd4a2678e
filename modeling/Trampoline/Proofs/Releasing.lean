import Trampoline.Proofs.Moving

/-!
Schedulers that let go of those who submit to them. A scheduler that starts a thread for its work
comes back from a submission at once. One that runs its work on the spot comes back when the
interpretation of the submitted effect has ended and its exit has been taken to the fiber, or when
the interpretation has been parked; only an interpretation that goes on for all time on the thread
that has submitted it keeps this thread.
-/

namespace Trampoline

variable {H : Host}

theorem Thread.isAbove_run {name : Option String} {task : Task H} {stack : List (Return H)} :
    Thread.IsAbove stack ⟨name, .run task, stack⟩ :=
  ⟨[], rfl, fun _ => List.cons_ne_nil _ _⟩

theorem Thread.isAbove_append {name : Option String} {control : Control H} (above : List (Return H))
    {back : Return H} {stack : List (Return H)} :
    Thread.IsAbove stack ⟨name, control, above ++ back :: stack⟩ :=
  ⟨above ++ [back], by simp, by simp⟩

theorem Thread.isAbove_cons {name : Option String} {control : Control H} {back : Return H}
    {stack : List (Return H)} : Thread.IsAbove stack ⟨name, control, back :: stack⟩ :=
  Thread.isAbove_append []

namespace Run

variable {r : Run H} {n m : Nat} {t : ThreadId} {stack : List (Return H)} {name : Option String}
  {s : SchedulerId} {value error : Ty} {fiber : PromiseId} {v : Value H.Data H.Fn}

/-- From time `n` on a thread is at work above a stack, until it comes back to it with a reply. -/
def FindsBack (r : Run H) (n : Nat) (t : ThreadId) (stack : List (Return H)) : Prop :=
  ∃ m, n ≤ m ∧ (∀ j, n ≤ j → j < m → r.IsAbove j t stack) ∧
    ∃ name v, (r.world m).threads[t]? = some ⟨name, .ret v, stack⟩

theorem FindsBack.of_ret (ht : (r.world n).threads[t]? = some ⟨name, .ret v, stack⟩) :
    r.FindsBack n t stack :=
  ⟨n, Nat.le_refl n, fun _ hnj hjn => by omega, name, v, ht⟩

theorem FindsBack.of_above (h : r.FindsBack m t stack) (hnm : n ≤ m)
    (habove : ∀ j, n ≤ j → j < m → r.IsAbove j t stack) : r.FindsBack n t stack := by
  obtain ⟨d, hmd, habove', hback⟩ := h
  refine ⟨d, Nat.le_trans hnm hmd, fun j hnj hjd => ?_, hback⟩
  rcases Nat.lt_or_ge j m with hjm | hmj
  · exact habove j hnj hjm
  · exact habove' j hmj hjd

theorem Returns.findsBack (h : r.Returns n m t stack) : r.FindsBack (n + 1) t stack :=
  ⟨m, h.lt, h.above, h.back⟩

theorem FindsBack.exists_returns (h : r.FindsBack (n + 1) t stack) :
    ∃ m, r.Returns n m t stack := by
  obtain ⟨m, hnm, habove, hback⟩ := h
  exact ⟨m, hnm, habove, hback⟩

/-- A thread above a stack comes back if it does so from its next turn on. -/
theorem Fair.findsBack {thread : Thread H} (hfair : r.Fair)
    (ht : (r.world n).threads[t]? = some thread) (hready : thread.IsReady)
    (habove : thread.IsAbove stack)
    (hnext : ∀ k, r.action k = .thread t → (r.world k).threads[t]? = some thread →
      r.FindsBack (k + 1) t stack) : r.FindsBack n t stack := by
  obtain ⟨k, hk, haction, hothers, htk⟩ := hfair.exists_first ht hready
  refine (hnext k haction htk).of_above (Nat.le_succ_of_le hk) fun j hnj hjk => ?_
  exact ⟨thread, thread_of_others ht hready hnj fun d hd hdj => hothers d hd (by omega), habove⟩

/-- A thread that comes back to what is on its stack comes back to the stack if it does so from
there. -/
theorem FindsBack.trans {back : Return H} (h : r.FindsBack n t (back :: stack))
    (hthen : ∀ m name v, (r.world m).threads[t]? = some ⟨name, .ret v, back :: stack⟩ →
      r.FindsBack m t stack) : r.FindsBack n t stack := by
  obtain ⟨m, hnm, habove, name, v, ht⟩ := h
  exact (hthen m name v ht).of_above hnm fun j hnj hjm => (habove j hnj hjm).of_cons

/-- It comes through a boundary with a reply. -/
theorem FindsBack.boundary {back : Return H} (h : r.FindsBack n t (back :: stack)) (hfair : r.Fair)
    (hback : back.IsBoundary) : r.FindsBack n t stack := by
  refine h.trans fun m name v ht => ?_
  refine hfair.findsBack ht (List.cons_ne_nil _ _) Thread.isAbove_cons fun k haction htk => ?_
  obtain ⟨v', hresume⟩ := hback.resume (r.world k).heap v
  obtain ⟨-, hnext⟩ := next_of_action haction htk rfl
  rw [hresume] at hnext
  exact .of_ret hnext

/-- It goes on with a task that is to be done whatever the reply. -/
theorem FindsBack.after {task : Task H} (h : r.FindsBack n t (.after task :: stack))
    (hfair : r.Fair) (hthen : ∀ m name, (r.world m).threads[t]? = some ⟨name, .run task, stack⟩ →
      r.FindsBack m t stack) : r.FindsBack n t stack := by
  refine h.trans fun m name v ht => ?_
  refine hfair.findsBack ht (List.cons_ne_nil _ _) Thread.isAbove_cons fun k haction htk => ?_
  exact hthen _ name (next_of_action haction htk rfl).2

theorem FindsBack.give (h : r.FindsBack n t (.after (.give v) :: stack)) (hfair : r.Fair) :
    r.FindsBack n t stack :=
  h.after hfair fun _ _ ht => hfair.findsBack ht trivial Thread.isAbove_run
    fun _ haction htk => .of_ret (next_of_action haction htk rfl).2

/-- A thread that reports to a scheduler whose reports come back comes back. -/
theorem Fair.findsBack_of_report (hfair : r.Fair) (hreports : r.ReportsReturn s)
    {failure : WorkFailure}
    (ht : (r.world n).threads[t]? = some ⟨name, .run (.report s failure), stack⟩) :
    r.FindsBack n t stack :=
  hfair.findsBack ht trivial Thread.isAbove_run fun k haction htk =>
    have ⟨_, hreturns⟩ := hreports k t failure stack ⟨haction, name, htk⟩
    hreturns.findsBack

/-- A call that completes a promise comes back if it has nobody to tell. -/
theorem Fair.findsBack_of_fill (hfair : r.Fair) (hstart : (r.world 0).Starting)
    (hnobody : ∀ m t' subscriber, ¬r.Subscribes fiber m t' subscriber)
    (ht : (r.world n).threads[t]? = some ⟨name, .run (.fill fiber v), stack⟩) :
    r.FindsBack n t stack := by
  have hnotify {n : Nat} {subscribers : List (Subscriber H.Fn)}
      (ht : (r.world n).threads[t]? = some ⟨name, .run (.notify fiber v subscribers none), stack⟩) :
      r.FindsBack n t stack := by
    refine hfair.findsBack ht trivial Thread.isAbove_run fun k haction htk => ?_
    cases subscribers with
    | nil => exact .of_ret (next_of_action haction htk rfl).2
    | cons subscriber rest =>
        have hdoes : r.Does k t (.notify fiber v (subscriber :: rest) none) :=
          ⟨haction, name, stack, htk⟩
        obtain ⟨i, hserves⟩ := hdoes.serves hstart
        cases hserves with
        | onTheSpot hsubscribes => exact absurd hsubscribes (hnobody _ _ _)
        | later hsubscribes => exact absurd hsubscribes (hnobody _ _ _)
  have hwake {n : Nat} {subscribers : List (Subscriber H.Fn)}
      (ht : (r.world n).threads[t]? = some ⟨name, .run (.wake fiber v subscribers), stack⟩) :
      r.FindsBack n t stack :=
    hfair.findsBack ht trivial Thread.isAbove_run fun k haction htk =>
      hnotify (next_of_action haction htk rfl).2
  have htake {n : Nat} (ht : (r.world n).threads[t]? = some ⟨name, .run (.take fiber v), stack⟩) :
      r.FindsBack n t stack := by
    refine hfair.findsBack ht trivial Thread.isAbove_run fun k haction htk => ?_
    obtain ⟨-, hnext⟩ := next_of_action haction htk rfl
    cases hpromise : (r.world k).heap.promises[fiber]? with
    | none =>
        simp only [Task.turn, hpromise] at hnext
        exact .of_ret hnext
    | some promise =>
        simp only [Task.turn, hpromise] at hnext
        exact hwake hnext
  refine hfair.findsBack ht trivial Thread.isAbove_run fun k haction htk => ?_
  obtain ⟨-, hnext⟩ := next_of_action haction htk rfl
  simp only [Task.turn] at hnext
  split at hnext
  · exact .of_ret hnext
  · split at hnext
    · exact htake hnext
    · exact .of_ret hnext

section Inline

variable {above : List (Return H)} {exit : Exit (Outcome H.Data H.Fn)}

theorem FindsBack.guarded (h : r.FindsBack n t (above ++ .guarded s :: stack)) (hfair : r.Fair)
    (habove : above = [] ∨ ∃ refs, above = [.holding refs]) : r.FindsBack n t stack := by
  obtain rfl | ⟨refs, rfl⟩ := habove
  · exact h.boundary hfair trivial
  · exact (h.boundary hfair trivial).boundary hfair trivial

variable (hfair : r.Fair) (hreports : r.ReportsReturn s)

include hfair hreports

/-- A panic that gets to the boundary of a scheduler is reported, and the submission comes back. -/
theorem findsBack_of_raise {payload : Payload}
    (habove : above = [] ∨ ∃ refs, above = [.holding refs])
    (ht : (r.world n).threads[t]? = some ⟨name, .raise payload, above ++ .guarded s :: stack⟩) :
    r.FindsBack n t stack := by
  have hguarded {n : Nat}
      (ht : (r.world n).threads[t]? = some ⟨name, .raise payload, .guarded s :: stack⟩) :
      r.FindsBack n t stack :=
    hfair.findsBack ht (List.cons_ne_nil _ _) Thread.isAbove_cons fun k haction htk =>
      hfair.findsBack_of_report hreports (next_of_action haction htk rfl).2
  obtain rfl | ⟨refs, rfl⟩ := habove
  · exact hguarded ht
  · exact hfair.findsBack ht (List.cons_ne_nil _ _) (Thread.isAbove_append [_])
      fun k haction htk => hguarded (next_of_action haction htk rfl).2

variable (hstart : (r.world 0).Starting)
  (hnobody : ∀ m t' subscriber, ¬r.Subscribes fiber m t' subscriber)

include hstart hnobody

/-- A thread that takes the exit of an effect to its fiber, where nobody waits for it, comes back.
-/
theorem findsBack_of_conclude (habove : above = [] ∨ ∃ refs, above = [.holding refs])
    (ht : (r.world n).threads[t]? =
      some ⟨name, .run (.conclude exit (.fiber value error fiber s)),
        above ++ .guarded s :: stack⟩) :
    r.FindsBack n t stack := by
  refine hfair.findsBack ht trivial (Thread.isAbove_append above) fun k haction htk => ?_
  obtain ⟨-, hnext⟩ := next_of_action haction htk rfl
  cases exit with
  | panicked payload =>
      have hreport := hfair.findsBack_of_report hreports hnext
      have hmark := hreport.after hfair fun m name' ht' =>
        hfair.findsBack_of_fill hstart hnobody ht'
      exact (hmark.give hfair).guarded hfair habove
  | settled o =>
      simp only [Task.turn, Task.concludeTurn] at hnext
      split at hnext
      · exact ((hfair.findsBack_of_fill hstart hnobody hnext).give hfair).guarded hfair habove
      · exact findsBack_of_raise hfair hreports habove hnext

/-- A thread that interprets an effect within the boundary of a scheduler goes on with that, or the
submission comes back. -/
theorem findsBack_or_interprets {thread : Thread H} (ht : (r.world n).threads[t]? = some thread)
    (h : thread.Interprets (.fiber value error fiber s) (.guarded s :: stack)) :
    r.FindsBack n t stack ∨
      (∃ stage, (r.world n).pendingAt (.thread t (stack.length + 1)) =
        some (stage, .fiber value error fiber s)) ∧
      ∃ thread', (r.world (n + 1)).threads[t]? = some thread' ∧
        thread'.Interprets (.fiber value error fiber s) (.guarded s :: stack) := by
  have hret {name : Option String} (above : List (Return H))
      (habove : above = [] ∨ ∃ refs, above = [.holding refs])
      (ht : (r.world n).threads[t]? = some ⟨name, .ret .unit, above ++ .guarded s :: stack⟩) :
      r.FindsBack n t stack :=
    (FindsBack.of_ret ht).guarded hfair habove
  have hconclude {name : Option String} {exit : Exit (Outcome H.Data H.Fn)}
    (above : List (Return H))
      (habove : above = [] ∨ ∃ refs, above = [.holding refs])
      (ht : (r.world n).threads[t]? = some
        ⟨name, .run (.conclude exit (.fiber value error fiber s)), above ++ .guarded s :: stack⟩) :
      r.FindsBack n t stack :=
    findsBack_of_conclude hfair hreports hstart hnobody habove ht
  have hpending : r.FindsBack n t stack ∨
      ∃ stage, (r.world n).pendingAt (.thread t (stack.length + 1)) =
        some (stage, .fiber value error fiber s) := by
    cases h with
    | runs hpending => exact .inr ⟨_, (World.pendingAt_run ht).trans hpending⟩
    | waits hpending => exact .inr ⟨_, (World.pendingAt_back ht).trans hpending⟩
    | @concludes name exit refs => exact .inl (hconclude [_] (.inr ⟨refs, rfl⟩) ht)
    | @ends name refs => exact .inl (hret [_] (.inr ⟨refs, rfl⟩) ht)
    | back => exact .inl (hret [] (.inl rfl) ht)
  rcases hpending with hback | hpending
  · exact .inl hback
  obtain ⟨thread', ht'⟩ := (r.ordered n).exists_thread (r.step n) ht h.ended
  cases (r.ordered n).becomes (r.step n) ht' with
  | waits hold hstack _ hready =>
      obtain rfl := Option.some.inj (ht.symm.trans hold)
      exact .inr ⟨hpending, thread', ht', h.of_waits hstack hready⟩
  | starts _ _ _ _ hnone =>
      rw [hnone] at ht
      contradiction
  | @acts thread₀ state rest turn haction hold hturn hheard =>
      obtain rfl := Option.some.inj (ht.symm.trans hold)
      subst hheard
      rcases h.turn (Thread.turning hturn) with hgoes | ⟨name, rfl⟩ |
        ⟨name, exit, above, rfl, habove⟩ |
        ⟨name, payload, node, frames, last, rfl⟩
      · exact .inr ⟨hpending, _, ht', hgoes.heard _⟩
      · exact .inl (hret [] (.inl rfl) ht)
      · exact .inl (hconclude above habove ht)
      · -- The submission of a registration has panicked.
        refine .inl (hfair.findsBack ht (List.cons_ne_nil _ _) (Thread.isAbove_append [_])
          fun k haction htk => ?_)
        exact findsBack_of_raise hfair hreports (.inl (Eq.refl []))
          (next_of_action haction htk rfl).2

end Inline

/-- The effects that are submitted to a scheduler have been forked on it. Nobody else has work into
their fibers, and nobody subscribes to a fiber before the submission has come back. -/
def HandsOutLate (r : Run H) (s : SchedulerId) : Prop :=
  ∀ n t value error x fiber stack,
    r.Turns n t (.run (.submit s (launched value error x s fiber))) stack →
      (∃ k, r.Launches k value error x s fiber) ∧
        r.IsSealed fiber (launched value error x s fiber) ∧
        ∀ m t' subscriber, r.Subscribes fiber m t' subscriber → ∃ d, d ≤ m ∧ r.Returns n d t stack

/-- An inline scheduler performs work on the spot, within its boundary. -/
theorem Turns.performs {work : Work H.Data H.Fn}
    (hinline : ∃ kind, (r.world 0).heap.schedulers[s]? = some kind ∧ kind.isInline = true)
    (h : r.Turns n t (.run (.submit s work)) stack) :
    ∃ name, (r.world (n + 1)).threads[t]? =
      some ⟨name, .run (.perform work), .guarded s :: stack⟩ := by
  obtain ⟨haction, name, ht⟩ := h
  obtain ⟨kind, hkind, hinline⟩ := r.exists_scheduler Scheduler.isKept_isInline hinline n
  obtain ⟨-, hnext⟩ := next_of_action haction ht rfl
  refine ⟨name, ?_⟩
  cases kind with
  | immediate =>
      simp only [Task.turn, Task.submitTurn, hkind] at hnext
      exact hnext
  | recording submitted failures =>
      simp only [Task.turn, Task.submitTurn, hkind] at hnext
      exact hnext
  | _ => contradiction

/-- An inline scheduler comes back from the submission of every effect, unless the effect goes on
for all time on the thread that has submitted it. -/
theorem releasesSubmitters_of_inline (hfair : r.Fair) (hstart : (r.world 0).Starting)
    (hinline : ∃ kind, (r.world 0).heap.schedulers[s]? = some kind ∧ kind.isInline = true)
    (honce : r.RunsOnce s) (hreports : r.ReportsReturn s) (hlate : r.HandsOutLate s) :
    r.ReleasesSubmitters s := by
  intro n t value error x fiber stack hsubmits
  by_cases hreturns : ∃ m, r.Returns n m t stack
  · exact .inl hreturns
  obtain ⟨⟨_, hlaunch⟩, hsealed, hlate⟩ := hlate n t value error x fiber stack hsubmits
  have hnobody (m : Nat) (t' : ThreadId) (subscriber : Subscriber H.Fn) :
      ¬r.Subscribes fiber m t' subscriber := fun hsubscribes =>
    have ⟨d, _, hd⟩ := hlate m t' subscriber hsubscribes
    hreturns ⟨d, hd⟩
  obtain ⟨-, honce⟩ := honce _ _ _ _ _ _ hsubmits.does
  obtain ⟨name, ht⟩ := hsubmits.performs hinline
  obtain ⟨k, hk, haction, hothers, htk⟩ := hfair.exists_first ht trivial
  have hbegins : r.BeginsAt k (.thread t (stack.length + 1)) x (.fiber value error fiber s) :=
    Turns.begins ⟨haction, name, htk⟩
  -- The thread is above the stack as long as it interprets the effect, and does so for all time.
  have hinterprets (i : Nat) : (∀ j, n + 1 ≤ j → j < k + 1 + i → r.IsAbove j t stack) ∧
      ∃ thread, (r.world (k + 1 + i)).threads[t]? = some thread ∧
        thread.Interprets (.fiber value error fiber s) (.guarded s :: stack) := by
    induction i with
    | zero =>
        refine ⟨fun j hnj hjk => ?_, _, (next_of_action haction htk rfl).2, .runs rfl⟩
        exact ⟨_, thread_of_others ht trivial hnj fun d hd hdj => hothers d hd (by omega),
          Thread.isAbove_cons⟩
    | succ i ih =>
        obtain ⟨habove, thread, hti, hinterprets⟩ := ih
        rcases findsBack_or_interprets hfair hreports hstart hnobody hti hinterprets with
          hback | ⟨-, hnext⟩
        · exact absurd (hback.of_above (by omega) habove).exists_returns hreturns
        · refine ⟨fun j hnj hji => ?_, hnext⟩
          rcases Nat.eq_or_lt_of_le (Nat.le_of_lt_succ hji) with rfl | hlt
          · exact ⟨thread, hti, hinterprets.isAbove⟩
          · exact habove j hnj hlt
  refine .inr ⟨fun m hm => (hinterprets m).1 m hm (by omega), fun m t' exit hdoes => ?_⟩
  -- So the interpretation is still under way after what would have ended it.
  obtain ⟨c, rfl, hends⟩ := hbegins.exists_endsAt hstart hlaunch honce hsealed hdoes
  obtain ⟨habove, thread, htc, hthread⟩ := hinterprets (c + 1)
  rcases findsBack_or_interprets hfair hreports hstart hnobody htc hthread with
    hback | ⟨⟨stage, hat⟩, -⟩
  · exact absurd (hback.of_above (by omega) habove).exists_returns hreturns
  · obtain ⟨k', j, p, node, hj, hbegins', hplace⟩ := exists_begins hat
    obtain ⟨rfl, rfl⟩ := begins_once hstart hlaunch hsealed honce hbegins hbegins'
    obtain rfl : j = c + 1 := by omega
    obtain ⟨-, hover, -⟩ := hends.stage hbegins.pendingAt
    rw [(r.stage_eq_some hbegins.pendingAt).2 ⟨_, hplace, hat⟩] at hover
    contradiction

end Run

namespace Drill

/-- Whether a task at a turn hands in an effect only if it is the given turn, and lets nobody wait
to be told anything. -/
def handsInAt {script : Script} (k n : Nat) : Task (host script) → Bool
  | .submit _ (.interpret _ _) => n == k
  | .subscribe _ _ => false
  | _ => true

theorem stranded_checks {n : Nat} {t : ThreadId} {task : Task (host stranding)}
    (h : stranded.Does n t task) : handsInAt 2 n task :=
  check_of_does (by decide) h

set_option maxRecDepth 4000 in
theorem stranded_runsOnce : stranded.RunsOnce immediateId := by
  have hsubmits : stranded.Does 2 0 (.submit immediateId (.interpret _
      (.fiber .unit .unit 0 immediateId))) := ⟨rfl, _, _, rfl⟩
  have hperforms : stranded.Does 3 0 (.perform (.interpret _
      (.fiber .unit .unit 0 immediateId))) := ⟨rfl, _, _, rfl⟩
  exact Run.runsOnce_of_submits hsubmits hperforms
    (fun h => by simpa [handsInAt] using stranded_checks h)
    fun h => by simpa [performsAt] using check_of_does (c := performsAt 3) (by decide) h

theorem stranded_handsOutLate : stranded.HandsOutLate immediateId := by
  intro n t value error x fiber stack hsubmits
  have hdoes := hsubmits.does
  unfold Run.launched at hdoes
  obtain rfl : n = 2 := by simpa [handsInAt] using stranded_checks hdoes
  have hforks : stranded.Does 2 0 (.submit immediateId (.interpret _
      (.fiber .unit .unit 0 immediateId))) := ⟨rfl, _, _, rfl⟩
  obtain ⟨-, htask⟩ := hdoes.unique hforks
  obtain ⟨-, hwork⟩ := Task.submit.inj htask
  obtain ⟨rfl, hfinish⟩ := Work.interpret.inj hwork
  obtain ⟨rfl, rfl, rfl, -⟩ := Finish.fiber.inj hfinish
  exact ⟨⟨1, ⟨0, _, ⟨rfl, _, _, rfl⟩, .runFiber⟩, rfl⟩, stranded_isSealed _,
    fun m t' subscriber hsubscribes => absurd (stranded_checks hsubscribes.1) (by simp [handsInAt])⟩

set_option maxRecDepth 4000 in
/-- The scheduler lets go of the thread that has forked the effect, when the effect has been parked.
-/
example : stranded.ReleasesSubmitters immediateId :=
  Run.releasesSubmitters_of_inline (Run.fair_ofList (by decide))
    (start_starting stranding []) ⟨.immediate, rfl, rfl⟩ stranded_runsOnce
    (Run.reportsReturn_immediate rfl) stranded_handsOutLate

end Drill

end Trampoline
