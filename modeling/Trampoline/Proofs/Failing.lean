import Trampoline.Proofs.Fibers
import Trampoline.Proofs.Guarding

/-!
The panic of an effect that has been launched into a fiber. Wherever it comes up, the effect ends
with it on some thread, which reports it to the scheduler of the launch and marks the fiber when the
report has come back; nobody can find the mark before, and the panic goes no further.
-/

namespace Trampoline

variable {H : Host}

/-- Whether a value marks a fiber as panicked. -/
def Value.IsMark {D F : Type} : Value D F → Prop
  | .slot _ _ (.panicked _) => True
  | _ => False

theorem Slot.not_isMark_ofOutcome {D F : Type} (value error : Ty) (outcome : Outcome D F) :
    ¬(Value.slot value error (.ofOutcome outcome)).IsMark := by
  cases outcome <;> exact id

/-- Where the mark of a fiber is in hand after a turn. -/
inductive Thread.Marks (fiber : PromiseId) (v : Value H.Data H.Fn) :
    Thread H → List (Return H) → Turn H → Prop where
  | nowhere {thread : Thread H} {rest : List (Return H)} {turn : Turn H} :
      .fill fiber v ∉ turn.held → Marks fiber v thread rest turn
  | conclude {name : Option String} {payload : Payload} {value error : Ty} {s : SchedulerId}
      {stack : List (Return H)} {heap : Heap H.Data H.Fn} :
      v = .slot value error (.panicked (.ofPanic "fiber" payload)) →
        Marks fiber v
          ⟨name, .run (.conclude (.panicked payload) (.fiber value error fiber s)), stack⟩ stack
          ⟨heap, [.after (.fill fiber v), .after (.give .unit)],
            .run (.report s (.ofPanic "fiber" payload)), none, none⟩
  | back {name : Option String} {w : Value H.Data H.Fn} {rest : List (Return H)}
      {heap : Heap H.Data H.Fn} :
      Marks fiber v ⟨name, .ret w, .after (.fill fiber v) :: rest⟩ rest (.run heap (.fill fiber v))

/-- The mark is put on the stack where the effect has panicked, and is in hand when the report has
come back. -/
theorem Thread.Turning.marks {thread : Thread H} {t : ThreadId} {heap : Heap H.Data H.Fn}
    {state state' : H.State} {rest : List (Return H)} {turn : Turn H} {fiber : PromiseId}
    {v : Value H.Data H.Fn} (h : thread.Turning t heap state state' rest turn) (hv : v.IsMark)
    (hfill : thread.control ≠ .run (.request (.fill fiber v))) :
      thread.Marks fiber v rest turn := by
  by_cases hmem : .fill fiber v ∈ turn.held
  · cases h with
    | move => exact (Move.turn_hands _ hmem).elim
    | ret =>
        cases Return.resume_hands _ _ hmem with
        | minor h => exact h.elim
        | after => exact .back
    | raise =>
        cases Return.unwind_hands _ _ hmem with
        | minor h => exact h.elim
    | task =>
        cases Task.turn_hands _ _ hmem with
        | minor h => exact h.elim
        | request hrequest =>
            cases hrequest with
            | fill => exact absurd rfl hfill
            | fillFiber => exact (Slot.not_isMark_ofOutcome _ _ _ hv).elim
            | completedFiber => exact (Slot.not_isMark_ofOutcome _ _ _ hv).elim
        | mark => exact .conclude rfl
        | record => exact (Slot.not_isMark_ofOutcome _ _ _ hv).elim
  · exact .nowhere hmem

/-- A thread that is at work above a stack: it has not come back to it with a reply or a panic. -/
def Thread.IsAbove (stack : List (Return H)) (thread : Thread H) : Prop :=
  ∃ above, thread.stack = above ++ stack ∧ (above = [] → thread.control.held ≠ [])

namespace Run

/-- At time `m` thread `t` comes back, with a reply, to the stack above which it takes its turn at
time `k`. -/
structure Returns (r : Run H) (k m : Nat) (t : ThreadId) (stack : List (Return H)) : Prop where
  lt : k < m
  above : ∀ j, k < j → j < m → ∃ thread, (r.world j).threads[t]? = some thread ∧
    thread.IsAbove stack
  back : ∃ name v, (r.world m).threads[t]? = some ⟨name, .ret v, stack⟩

variable {r : Run H} {k n m : Nat} {t : ThreadId} {fiber : PromiseId} {v : Value H.Data H.Fn}
  {stack : List (Return H)} {value error : Ty} {s : SchedulerId} {payload : Payload}

/-- Before time `n` thread `t` has concluded an effect that has panicked, with this mark to be made
above a stack. -/
def HasConcluded (r : Run H) (n : Nat) (t : ThreadId) (fiber : PromiseId)
    (v : Value H.Data H.Fn) (c : Nat) (stack : List (Return H)) : Prop :=
  c < n ∧ ∃ value error s payload below,
    r.Turns c t (.run (.conclude (.panicked payload) (.fiber value error fiber s))) below ∧
      v = .slot value error (.panicked (.ofPanic "fiber" payload)) ∧
        stack = .after (.give .unit) :: below

/-- A thread that has the mark of a fiber in hand or on its stack has concluded the fiber's effect,
and has it in hand only when it has come back to it with a reply. -/
theorem hasConcluded (hstart : (r.world 0).Starting)
    (hfill : ∀ n t v, ¬r.Does n t (.request (.fill fiber v))) (hv : v.IsMark) {thread : Thread H}
    (ht : (r.world n).threads[t]? = some thread) :
    (∀ stack, .after (.fill fiber v) :: stack <:+ thread.stack →
        ∃ c, r.HasConcluded n t fiber v c stack) ∧
      (.fill fiber v ∈ thread.control.held → ∃ c j w, j < n ∧
        r.HasConcluded j t fiber v c thread.stack ∧
          r.Turns j t (.ret w) (.after (.fill fiber v) :: thread.stack)) := by
  induction n generalizing t thread with
  | zero =>
      obtain ⟨name, code, rfl⟩ := hstart.threads t thread ht
      simp [Thread.starting, Control.held]
  | succ n ih =>
      have hlater {t : ThreadId} {c : Nat} {stack : List (Return H)}
          (h : r.HasConcluded n t fiber v c stack) : r.HasConcluded (n + 1) t fiber v c stack :=
        ⟨Nat.lt_succ_of_lt h.1, h.2⟩
      cases (r.ordered n).becomes (r.step n) ht with
      | @waits before ht₀ hstack hheld =>
          rw [hstack]
          refine ⟨fun stack hsuffix => ?_, fun hmem => ?_⟩
          · obtain ⟨c, hc⟩ := (ih ht₀).1 stack hsuffix
            exact ⟨c, hlater hc⟩
          · obtain ⟨c, j, w, hj, hrest⟩ := (ih ht₀).2 (hheld _ hmem)
            exact ⟨c, j, w, Nat.lt_succ_of_lt hj, hrest⟩
      | @acts before state rest turn haction ht₀ hturn heq =>
          subst heq
          rw [Thread.stack_heard]
          have hbelow (stack : List (Return H))
              (hsuffix : .after (.fill fiber v) :: stack <:+ rest) :
              ∃ c, r.HasConcluded (n + 1) t fiber v c stack := by
            obtain ⟨c, hc⟩ := (ih ht₀).1 _ (hsuffix.trans (Thread.turning hturn).suffix)
            exact ⟨c, hlater hc⟩
          have hcontrol : before.control ≠ .run (.request (.fill fiber v)) := by
            obtain ⟨name, control, stack⟩ := before
            rintro rfl
            exact hfill n t v ⟨haction, name, stack, ht₀⟩
          cases (Thread.turning hturn).marks hv hcontrol with
          | nowhere hnot =>
              refine ⟨fun stack hsuffix =>
                  hbelow stack (suffix_of_append hsuffix fun hmem => hnot ?_),
                fun hmem => (hnot ?_).elim⟩
              · exact List.mem_append_left _
                  (List.mem_append_right _
                    (List.mem_flatMap.2 ⟨_, hmem, List.mem_singleton_self _⟩))
              · exact List.mem_append_left _
                  (List.mem_append_left _ (Thread.mem_held_of_control_heard hmem))
          | @conclude name payload value error s _ heap hmark =>
              refine ⟨fun stack hsuffix => ?_, fun hmem => ?_⟩
              · rcases List.suffix_cons_iff.1 hsuffix with heq | hsuffix
                · obtain ⟨-, rfl⟩ := List.cons.inj heq
                  exact ⟨n, Nat.lt_succ_self n, _, _, _, _, _, ⟨haction, name, ht₀⟩, hmark, rfl⟩
                · rcases List.suffix_cons_iff.1 hsuffix with heq | hsuffix
                  · cases (List.cons.inj heq).1
                  · exact hbelow stack hsuffix
              · have := Thread.mem_held_of_control_heard hmem
                simp [Control.held] at this
          | @back name w _ heap =>
              refine ⟨hbelow, fun hmem => ?_⟩
              obtain ⟨c, hc⟩ := (ih ht₀).1 rest List.suffix_rfl
              exact ⟨c, n, w, Nat.lt_succ_self n, hc, haction, name, ht₀⟩
      | @starts t₀ before state rest turn haction ht₀ hturn hborn =>
          have hcontrol : before.control ≠ .run (.request (.fill fiber v)) := by
            obtain ⟨name, control, stack⟩ := before
            rintro rfl
            exact hfill n t₀ v ⟨haction, name, stack, ht₀⟩
          cases (Thread.turning hturn).marks hv hcontrol with
          | nowhere hnot =>
              have hheld : .fill fiber v ∉ thread.held := fun hmem =>
                hnot (List.mem_append_right _ (by simpa [hborn] using hmem))
              refine ⟨fun stack hsuffix => (hheld ?_).elim, fun hmem => (hheld ?_).elim⟩
              · exact List.mem_append_right _ (List.mem_flatMap.2
                  ⟨_, hsuffix.subset List.mem_cons_self, List.mem_singleton_self _⟩)
              · exact List.mem_append_left _ hmem
          | conclude => contradiction
          | back => contradiction

theorem NextTurn.le (h : r.NextTurn t n m) {j : Nat} (hj : n < j)
    (haction : r.action j = .thread t) :
    m ≤ j :=
  Nat.le_of_not_lt fun hjm => h.between j hj hjm haction

/-- A scheduler comes back, with a reply, from every report that it gets. -/
def ReportsReturn (r : Run H) (s : SchedulerId) : Prop :=
  ∀ n t failure stack, r.Turns n t (.run (.report s failure)) stack → ∃ m, r.Returns n m t stack

/-- The panic of the effect in a fiber ends the effect at time `c` and is reported at time `m`; when
the report has come back, the fiber is marked at time `f`. -/
structure ReportsFirst (r : Run H) (value error : Ty) (fiber : PromiseId) (s : SchedulerId)
    (payload : Payload) (c m f : Nat) (t : ThreadId) (stack : List (Return H)) : Prop where
  concludes :
    r.Turns c t (.run (.conclude (.panicked payload) (.fiber value error fiber s))) stack
  next : r.NextTurn t c m
  reports : r.Turns m t (.run (.report s (.ofPanic "fiber" payload)))
    (.after (.marking value error fiber payload) :: .after (.give .unit) :: stack)
  returns : ∃ d, r.Returns m d t
      (.after (.marking value error fiber payload) :: .after (.give .unit) :: stack) ∧ d < f ∧
    ∀ i, d ≤ i → r.action i = .thread t → i < f →
      ∃ w, r.Turns i t (.ret w)
        (.after (.marking value error fiber payload) :: .after (.give .unit) :: stack)
  marks : r.Turns f t (.run (.marking value error fiber payload)) (.after (.give .unit) :: stack)

theorem ReportsFirst.lt {c m f : Nat}
    (h : r.ReportsFirst value error fiber s payload c m f t stack) : m < f := by
  obtain ⟨d, hreturns, hd, -⟩ := h.returns
  exact Nat.lt_trans hreturns.lt hd

theorem Fair.exists_reportsFirst (hfair : r.Fair) (hreports : r.ReportsReturn s)
    (h : r.Turns n t (.run (.conclude (.panicked payload) (.fiber value error fiber s))) stack) :
    ∃ m f, r.ReportsFirst value error fiber s payload n m f t stack := by
  obtain ⟨m, hnext, hreport⟩ := hfair.exists_turns h
    (fun name => ⟨_, _, _, rfl, rfl, rfl⟩) fun name => trivial
  obtain ⟨d, hreturns⟩ := hreports m t _ _ hreport
  obtain ⟨name, w, ht⟩ := hreturns.back
  obtain ⟨j, hj, haction, hothers, ht'⟩ := hfair.exists_first ht (List.cons_ne_nil _ _)
  obtain ⟨f, hnext', hmarks⟩ := hfair.exists_turns ⟨haction, name, ht'⟩
    (fun name => ⟨_, _, _, rfl, rfl, rfl⟩) fun name => trivial
  refine ⟨m, f, h, hnext, hreport, ⟨d, hreturns, Nat.lt_of_le_of_lt hj hnext'.lt,
    fun i hi hturn hif => ?_⟩, hmarks⟩
  have hij : i = j := by
    rcases Nat.lt_trichotomy i j with hlt | heq | hlt
    · exact absurd hturn (hothers i hi hlt)
    · exact heq
    · exact absurd hturn (hnext'.between i hlt hif)
  exact hij ▸ ⟨w, haction, name, ht'⟩

/-- The call that completes a promise that has no value writes its own. -/
theorem Completes.writes (hstart : (r.world 0).Starting) (h : r.Completes fiber n t v)
    (hnone : (r.world n).heap.promised? fiber = none) : r.Writes fiber n t v := by
  refine ⟨h, fun m t' v' hm h' => ?_⟩
  obtain ⟨y, hy⟩ := Option.isSome_iff_exists.1 (h'.isSome hstart)
  rw [(completion hstart fiber n).2.promised?, written_of_le hy hm] at hnone
  contradiction

section Launched

variable {x : Node H.Data H.Fn} {b c f : Nat} {p : Place} {t' : ThreadId}
  (hstart : (r.world 0).Starting) (hlaunch : r.Launches k value error x s fiber)
  (hsealed : r.IsSealed fiber (launched value error x s fiber))
  (honce : r.PerformsOnce (launched value error x s fiber))

include hstart hlaunch hsealed honce

/-- Whoever completes the fiber with a mark has come back from the report. -/
theorem ReportsFirst.of_fill (h : r.ReportsFirst value error fiber s payload c m f t stack)
    (hdoes : r.Does n t' (.fill fiber v)) (hv : v.IsMark) :
    f ≤ n ∧ v = .slot value error (.panicked (.ofPanic "fiber" payload)) := by
  obtain ⟨haction, name, stack', ht⟩ := hdoes
  obtain ⟨c', j, w, hj, ⟨hc, value', error', s', payload', below, hconcludes, rfl, rfl⟩, hret⟩ :=
    (hasConcluded hstart hsealed.fill hv ht).2 (List.mem_singleton_self _)
  obtain ⟨rfl, rfl, -⟩ := concludes_once hstart hlaunch hsealed honce h.concludes.does
    hconcludes.does
  obtain ⟨hcontrol, rfl⟩ := h.concludes.unique hconcludes
  obtain ⟨hexit, hfinish⟩ := Task.conclude.inj (Control.run.inj hcontrol)
  obtain rfl := Exit.panicked.inj hexit
  obtain ⟨rfl, rfl, -, rfl⟩ := Finish.fiber.inj hfinish
  refine ⟨Nat.le_of_not_lt fun hnf => ?_, rfl⟩
  obtain ⟨d, hreturns, -, hwaits⟩ := h.returns
  have hmj : m < j := by
    refine Nat.lt_of_le_of_ne (h.next.le hc hret.1) ?_
    rintro rfl
    cases (h.reports.unique hret).1
  have hdj : d ≤ j := by
    refine Nat.le_of_not_lt fun hjd => ?_
    obtain ⟨thread, ht', above, hstack, habove⟩ := hreturns.above j hmj hjd
    obtain ⟨-, name'', ht''⟩ := hret
    obtain rfl := Option.some.inj (ht'.symm.trans ht'')
    exact habove (by simpa [Task.marking] using hstack) rfl
  obtain ⟨w', hback⟩ := hwaits n (Nat.le_trans hdj (Nat.le_of_lt hj)) haction hnf
  cases (hback.unique ⟨haction, name, ht⟩).1

/-- The mark is found only after it has been made. -/
theorem ReportsFirst.of_promised (h : r.ReportsFirst value error fiber s payload c m f t stack)
    (hpromised : (r.world n).heap.promised? fiber = some v) (hv : v.IsMark) :
    f < n ∧ v = .slot value error (.panicked (.ofPanic "fiber" payload)) := by
  obtain ⟨g, t', hg, hwrites⟩ := (promised?_eq_some hstart).1 hpromised
  obtain ⟨hle, rfl⟩ := h.of_fill hstart hlaunch hsealed honce hwrites.1.1 hv
  exact ⟨Nat.lt_of_le_of_lt hle hg, rfl⟩

/-- What the fiber holds before the mark is made the host has filled in. -/
theorem ReportsFirst.byHand (h : r.ReportsFirst value error fiber s payload c m f t stack)
    (hpromised : (r.world f).heap.promised? fiber = some v) :
    ∃ g t', g < f ∧ r.FillsByHand g t' fiber v := by
  obtain ⟨g, t', hg, hwrites⟩ := (promised?_eq_some hstart).1 hpromised
  rcases filled_of_launched hstart hlaunch hsealed hwrites.1.1.has with
    ⟨g', t'', hg', hfills⟩ | ⟨c', t'', exit, slot, hc', hconcludes, hslot, rfl⟩
  · exact ⟨g', t'', Nat.lt_trans hg' hg, hfills⟩
  · obtain ⟨-, -, rfl⟩ := concludes_once hstart hlaunch hsealed honce h.concludes.does hconcludes
    obtain rfl := Option.some.inj hslot
    exact absurd hg (Nat.not_lt.2 (h.of_fill hstart hlaunch hsealed honce hwrites.1.1 trivial).1)

omit honce in
/-- The mark is made if nobody has completed the fiber before. -/
theorem ReportsFirst.marked (h : r.ReportsFirst value error fiber s payload c m f t stack)
    (hnone : (r.world f).heap.promised? fiber = none) (hfn : f < n) :
    (r.world n).heap.promised? fiber =
      some (.slot value error (.panicked (.ofPanic "fiber" payload))) := by
  obtain ⟨hk, -⟩ := concludes_eq_launched hstart hlaunch hsealed h.concludes.does
  have hkf : k + 1 ≤ f := by
    have hcm := h.next.lt
    have hmf := h.lt
    omega
  have hthere := promises_size_le (r := r) hkf
  rw [hlaunch.size_succ] at hthere
  have hcompletes :
      r.Completes fiber f t (.slot value error (.panicked (.ofPanic "fiber" payload))) :=
    ⟨h.marks.does, hthere⟩
  exact (promised?_eq_some hstart).2 ⟨f, t, hfn, hcompletes.writes hstart hnone⟩

end Launched

/-- A thread that comes back to a reply which has been left on its stack goes back with it to the
stack below, and has been above that since its turn. -/
theorem Returns.below (h : r.Returns n m t (.after (.give v) :: stack)) (hfair : r.Fair) :
    ∃ i, m < i ∧ r.Returns n i t stack ∧
      ∃ name, (r.world i).threads[t]? = some ⟨name, .ret v, stack⟩ := by
  obtain ⟨name, w, ht⟩ := h.back
  obtain ⟨j, hj, haction, hothers, ht'⟩ := hfair.exists_first ht (List.cons_ne_nil _ _)
  have hgive : (r.world (j + 1)).threads[t]? = some ⟨name, .run (.give v), stack⟩ :=
    (next_of_action haction ht' rfl).2
  obtain ⟨i, hi, haction', hothers', hgive'⟩ := hfair.exists_first hgive trivial
  obtain ⟨-, hthread⟩ := next_of_action haction' hgive' rfl
  refine ⟨i + 1, by omega, ⟨Nat.lt_trans h.lt (by omega), fun k hk hki => ?_, name, v, hthread⟩,
    name, hthread⟩
  rcases Nat.lt_or_ge k m with hkm | hmk
  · obtain ⟨thread, htk, above, habove, -⟩ := h.above k hk hkm
    exact ⟨thread, htk, above ++ [.after (.give v)], by simpa using habove, by simp⟩
  rcases Nat.lt_or_ge j k with hjk | hkj
  · have htk := thread_of_others hgive trivial hjk fun d hd hdk => hothers' d hd (by omega)
    exact ⟨_, htk, [], rfl, by simp [Control.held]⟩
  · have htk := thread_of_others ht (List.cons_ne_nil _ _) hmk fun d hd hdk =>
      hothers d hd (by omega)
    exact ⟨_, htk, [.after (.give v)], rfl, by simp⟩

theorem Returns.gives (h : r.Returns n m t (.after (.give v) :: stack)) (hfair : r.Fair) :
    ∃ i name, m < i ∧ (r.world i).threads[t]? = some ⟨name, .ret v, stack⟩ := by
  obtain ⟨i, hi, -, name, ht⟩ := h.below hfair
  exact ⟨i, name, hi, ht⟩

/-- The action that is `n` actions after time `b` takes the interpretation that is at `p` at time
`b` a step further. -/
def Moves (r : Run H) (b : Nat) (p : Place) (n : Nat) : Prop :=
  ∃ q deeds o, r.place b p n = some q ∧
    (r.world (b + n)).shift (r.action (b + n)) = .moved q deeds o

/-- The panic that has come up in the effect of a fiber, which is at `p` at time `b`, `n` actions
later. -/
structure FailsOnce (r : Run H) (b : Nat) (p : Place) (n : Nat) (value error : Ty)
    (fiber : PromiseId) (s : SchedulerId) (payload : Payload) (c m f : Nat) (t : ThreadId)
    (stack : List (Return H)) : Prop where
  late : b + n ≤ c
  /-- It ends the effect, is reported to the scheduler and makes its mark, in this order. -/
  reportsFirst : r.ReportsFirst value error fiber s payload c m f t stack
  /-- No other report comes of it, to any scheduler: neither where the effect goes on, -/
  once {i m' : Nat} {t' : ThreadId} {s' : SchedulerId} {failure : WorkFailure} :
    r.Moves b p i → r.ReportsFor (b + i) m' t' s' failure →
      m' = m ∧ t' = t ∧ s' = s ∧ failure = .ofPanic "fiber" payload
  /-- nor where a registration has panicked, whose guard does not panic with it again, -/
  guard {stage : Stage H.Data H.Fn} {id : HandoffId} :
    r.stage b p n = some stage → stage.node? = some id →
      ∃ j t' name stack', r.Accepts j t' id (.panicked payload) ∧
        ((r.world (j + 1)).threads[t']? = some ⟨name, .ret .unit, stack'⟩ ∨
          ∃ frames finish, (r.world (j + 1)).threads[t']? =
            some ⟨name, .run (.resume (.panicked payload) frames finish), stack'⟩)
  /-- nor below the effect, to which its thread goes back with a reply. -/
  quiet {e : Nat} : r.Returns f e t (.after (.give .unit) :: stack) →
    ∃ i name, e < i ∧ (r.world i).threads[t]? = some ⟨name, .ret .unit, stack⟩
  /-- The fiber is marked as panicked if nobody has completed it, -/
  marked {i : Nat} : (r.world f).heap.promised? fiber = none → f < i →
    (r.world i).heap.promised? fiber =
      some (.slot value error (.panicked (.ofPanic "fiber" payload)))
  /-- and keeps the outcome that the host has filled in otherwise. -/
  kept {v : Value H.Data H.Fn} : (r.world f).heap.promised? fiber = some v →
    (∃ g t', g < f ∧ r.FillsByHand g t' fiber v) ∧
      ∀ i, f ≤ i → (r.world i).heap.promised? fiber = some v
  /-- Nobody finds a mark before the report has come back. -/
  found {i : Nat} {v : Value H.Data H.Fn} :
    (r.world i).heap.promised? fiber = some v → v.IsMark →
      f < i ∧ v = .slot value error (.panicked (.ofPanic "fiber" payload))
  seen {i : Nat} {t' : ThreadId} {v : Value H.Data H.Fn} :
    r.Sees fiber i t' v → v.IsMark → f < i
  told {i : Nat} {t' : ThreadId} {subscriber : Subscriber H.Fn} {v : Value H.Data H.Fn} :
    r.Tells fiber i t' subscriber v → v.IsMark → f < i

section Panicking

variable {x : Node H.Data H.Fn} {b c f : Nat} {p : Place} {t' : ThreadId}
  {stage : Stage H.Data H.Fn}

theorem mem_history {d : Deed H.Data H.Fn} :
    d ∈ r.history b p n ↔ ∃ j, j < n ∧ d ∈ r.deeds b p j := by
  induction n with
  | zero => simp [history]
  | succ n ih =>
    simp only [history, List.mem_append, ih, Nat.lt_succ_iff_lt_or_eq, or_and_right, exists_or,
      exists_eq_left]

/-- An interpretation in which a panic has come up is concluded with it. -/
theorem Panicking.exists_concludes {x : Pending H.Data H.Fn}
    (hp : (r.world b).pendingAt p = some x) (h : r.Panicking b p payload n) (hfair : r.Fair)
    (hreturn : ∀ s id, r.stage b p n = some s → s.node? = some id → r.FunctionsReturn b p) :
    ∃ c t, b + n ≤ c ∧ r.Does c t (.conclude (.panicked payload) x.2) := by
  obtain ⟨m, hfinishes⟩ := h.finishes hp hfair hreturn
  have hmem : .panicked payload ∈ Deed.finishes (r.history b p m) := by simp [hfinishes]
  obtain ⟨d, hd, hfinish⟩ := List.mem_filterMap.1 hmem
  obtain ⟨j, -, hd⟩ := mem_history.1 hd
  have hnj : n ≤ j := by
    obtain ⟨s, hs⟩ := h.exists_stage
    have hbefore : Deed.finishes (r.history b p n) = [] := by
      rw [← r.course_history hp]
      exact Course.finishes_of_stage (c := r.course hp) hs
    refine Nat.le_of_not_lt fun hjn => ?_
    have hmem := List.mem_filterMap.2 ⟨d, mem_history.2 ⟨j, hjn, hd⟩, hfinish⟩
    simp only [Deed.finishes] at hbefore
    rw [hbefore] at hmem
    contradiction
  cases d with
  | finish exit =>
      obtain rfl := Option.some.inj hfinish
      obtain ⟨t, hdoes⟩ := exists_does_of_finish hp hd
      exact ⟨b + j, t, Nat.add_le_add_left hnj b, hdoes⟩
  | _ => contradiction

theorem NextTurn.first_unique {n' : Nat} (h : r.NextTurn t n m) (h' : r.NextTurn t n' m) :
    n = n' := by
  rcases Nat.lt_trichotomy n n' with hlt | heq | hlt
  · exact absurd h'.first (h.between n' hlt h'.lt)
  · exact heq
  · exact absurd h.first (h'.between n hlt h.lt)

/-- What an effect has to report when it is taken a step further is a panic that ends it in its
fiber. -/
theorem Moves.concludes_of_reportsFor (hstart : (r.world 0).Starting) {x : Pending H.Data H.Fn}
    (hp : (r.world b).pendingAt p = some x) {failure : WorkFailure}
    (h : r.Moves b p n) (hreports : r.ReportsFor (b + n) m t s failure) :
    ∃ payload value error fiber, x.2 = .fiber value error fiber s ∧
      r.Does (b + n) t (.conclude (.panicked payload) x.2) := by
  obtain ⟨hnext, stack, hturns⟩ := hreports
  obtain ⟨n', thread, hnext', ht, hurges⟩ := exists_cause hstart hturns
  obtain rfl := hnext.first_unique hnext'
  obtain ⟨q, deeds, o, hplace, hshift⟩ := h
  rw [hnext.first, World.shift_thread ht] at hshift
  cases hurges with
  | report => contradiction
  | unspawned => contradiction
  | escaped => contradiction
  | @forked name payload _ _ _ _ below =>
      obtain ⟨rfl, -, -⟩ := Shift.moved.inj hshift
      obtain ⟨stage, hat⟩ := r.pendingAt_place hp hplace
      obtain ⟨-, hfinish⟩ := Prod.mk.inj
        (Option.some.inj ((World.pendingAt_run ht).symm.trans hat))
      exact ⟨payload, _, _, _, hfinish.symm, hfinish ▸ ⟨hnext.first, name, below, ht⟩⟩

/-- The report of the panic that ends an effect is the only one that comes of the effect. -/
theorem ReportsFirst.once (hstart : (r.world 0).Starting)
    (hlaunch : r.Launches k value error x s fiber)
    (hsealed : r.IsSealed fiber (launched value error x s fiber))
    (honce : r.PerformsOnce (launched value error x s fiber))
    (hp : (r.world b).pendingAt p = some (stage, .fiber value error fiber s)) {i m' : Nat}
    {s' : SchedulerId} {failure : WorkFailure}
    (h : r.ReportsFirst value error fiber s payload c m f t stack) (hmoves : r.Moves b p i)
    (hreport : r.ReportsFor (b + i) m' t' s' failure) :
    m' = m ∧ t' = t ∧ s' = s ∧ failure = .ofPanic "fiber" payload := by
  obtain ⟨payload', _, _, _, -, hdoes⟩ := hmoves.concludes_of_reportsFor hstart hp hreport
  obtain ⟨heq, rfl, -⟩ := concludes_once hstart hlaunch hsealed honce h.concludes.does hdoes
  obtain ⟨hnext, stack', hturns⟩ := hreport
  rw [← heq] at hnext
  obtain rfl := hnext.unique h.next
  obtain ⟨rfl, rfl⟩ := Task.report.inj (Control.run.inj (hturns.unique h.reports).1)
  exact ⟨rfl, rfl, rfl, rfl⟩

/-- Wherever in the effect of a fiber a panic comes up, it is reported to the scheduler on which the
effect has been launched, once and before anybody can find the fiber marked, and goes no further. -/
theorem Panicking.failsOnce (hstart : (r.world 0).Starting) (hfair : r.Fair)
    (hlaunch : r.Launches k value error x s fiber)
    (hsealed : r.IsSealed fiber (launched value error x s fiber))
    (honce : r.PerformsOnce (launched value error x s fiber)) (hreports : r.ReportsReturn s)
    (hp : (r.world b).pendingAt p = some (stage, .fiber value error fiber s))
    (h : r.Panicking b p payload n)
    (hreturn : ∀ s id, r.stage b p n = some s → s.node? = some id → r.FunctionsReturn b p) :
    ∃ c m f t stack, r.FailsOnce b p n value error fiber s payload c m f t stack := by
  obtain ⟨c, t, hlate, haction, name, stack, ht⟩ := h.exists_concludes hp hfair hreturn
  obtain ⟨m, f, hfirst⟩ := hfair.exists_reportsFirst hreports ⟨haction, name, ht⟩
  have hfound {i : Nat} {v : Value H.Data H.Fn}
      (hpromised : (r.world i).heap.promised? fiber = some v) (hv : v.IsMark) :=
    hfirst.of_promised hstart hlaunch hsealed honce hpromised hv
  refine ⟨c, m, f, t, stack, hlate, hfirst,
    fun hmoves hreport => hfirst.once hstart hlaunch hsealed honce hp hmoves hreport,
    fun hs hnode => ?_,
    fun hreturns => hreturns.gives hfair, hfirst.marked hstart hlaunch hsealed,
    fun hpromised => ⟨hfirst.byHand hstart hlaunch hsealed honce hpromised,
      fun i hi => promised?_of_le hstart hpromised hi⟩, hfound,
    fun hsees hv => (hfound hsees.promised hv).1, fun htells hv => ?_⟩
  · obtain ⟨j, t', haccepts⟩ := h.of_node hs hnode
    obtain ⟨origin, -, ⟨-, name', stack', ht'⟩, -⟩ := id haccepts
    rcases haccepts.next_of_offers ht' with hret | ⟨frames, finish, -, hresume⟩
    · exact ⟨j, t', name', stack', haccepts, .inl hret⟩
    · exact ⟨j, t', name', stack', haccepts, .inr ⟨frames, finish, hresume⟩⟩
  · obtain ⟨⟨g, t'', hg, hwrites⟩, -⟩ := htells.serves hstart
    exact (hfound ((promised?_eq_some hstart).2 ⟨g, t'', hg, hwrites⟩) hv).1

end Panicking

/-- A scheduler whose hook calls no function comes back from every report. -/
theorem reportsReturn_of_hook {kind : Scheduler H.Fn}
    (hkind : (r.world 0).heap.schedulers[s]? = some kind)
    (hhook : ∀ f, kind.hook? ≠ some (.user f)) :
    r.ReportsReturn s := by
  rintro n t failure stack ⟨haction, name, ht⟩
  obtain ⟨kind', hkind', heq⟩ :=
    r.exists_scheduler (Scheduler.isKept_hook kind.hook?) ⟨kind, hkind, rfl⟩ n
  have hturn : ∃ heap, (Task.report s failure).turn ⟨t, name⟩ stack (r.world n).heap =
      .ret heap .unit := by
    simp only [Task.turn, Task.reportTurn, hkind', heq]
    cases hfound : kind.hook? with
    | none => exact ⟨_, rfl⟩
    | some hook =>
        cases hook with
        | log => exact ⟨_, rfl⟩
        | user f => exact absurd hfound (hhook f)
  obtain ⟨heap, hturn⟩ := hturn
  obtain ⟨-, hnext⟩ := next_of_action haction ht rfl
  rw [hturn] at hnext
  exact ⟨n + 1, Nat.lt_succ_self n, fun j hj hjn => by omega, name, .unit, hnext⟩

theorem reportsReturn_immediate
    (himmediate : (r.world 0).heap.schedulers[immediateId]? = some .immediate) :
    r.ReportsReturn immediateId :=
  reportsReturn_of_hook himmediate (by simp [Scheduler.hook?])

end Run

namespace Drill

/-- The first thread forks an effect whose async node the second one completes, and waits for it.
The continuation of the node panics. -/
def stranding : Script
  | 0 => [.ask (.runFiber .unit .unit
      (.flatMap (.async (.user .unit .unit ⟨2, ∅⟩) immediateId) (.map .unit ⟨3, ∅⟩)) immediateId),
    .ask (.awaitFiber 0)]
  | 1 => [.ask (.complete (.node 0) (.ok .unit))]
  | 3 => [.raise (.text "bug")]
  | _ => []

def stranded : Run (host stranding) :=
  run stranding [] (List.replicate 24 0 ++ List.replicate 25 1 ++ List.replicate 4 0)

/-- Whether a task neither completes a promise for the host nor takes work from it. -/
def bringsNothing : Task (host stranding) → Bool
  | .request (.fill _ _) => false
  | .request q => q.work?.isNone
  | _ => true

theorem stranded_isSealed (work : Work Unit Nat) : stranded.IsSealed 0 work := by
  have hnone {n : Nat} {t : ThreadId} {q : Request Unit Nat}
      (hdoes : stranded.Does n t (.request q)) : q.work?.isNone ∧ ∀ v, q ≠ .fill 0 v := by
    have hrequest := check_of_does (c := fun _ => bringsNothing) (by decide) hdoes
    cases q with
    | fill => contradiction
    | _ => exact ⟨hrequest, by simp⟩
  refine ⟨fun n t q value error s node hdoes hwork => ?_, fun n t v hdoes => ?_⟩
  · have hwork' := hwork.symm.trans (Option.isNone_iff_eq_none.1 (hnone hdoes).1)
    contradiction
  · exact (hnone hdoes).2 v rfl

/-- Whether a task at a turn performs an interpretation only if it is the given turn. -/
def performsAt {script : Script} (k n : Nat) : Task (host script) → Bool
  | .perform (.interpret _ _) => n == k
  | _ => true

theorem stranded_performsOnce (node : Node Unit Nat) (finish : Finish Nat) :
    stranded.PerformsOnce (.interpret node finish) := by
  have hthree {n : Nat} {t : ThreadId}
      (hdoes : stranded.Does n t (.perform (.interpret node finish))) : n = 3 := by
    simpa [performsAt] using check_of_does (c := performsAt 3) (by decide) hdoes
  intro n m t t' hdoes hdoes'
  rw [hthree hdoes, hthree hdoes']

set_option maxRecDepth 4000 in
/-- The panic comes up on the second thread, which reports it and marks the fiber. -/
theorem stranded_failsOnce :
    (stranded.world 39).heap.promised? 0 =
        some (.slot .unit .unit (.panicked ⟨"fiber", "bug"⟩)) ∧
      ∃ c m f t stack, stranded.FailsOnce 4 (.thread 0 3) 29 .unit .unit 0 immediateId
        (.text "bug") c m f t stack ∧ f < 39 := by
  have hpanicking : stranded.Panicking 4 (.thread 0 3) (.text "bug") 29 :=
    .called (t := 1) rfl rfl rfl
  have hfair : stranded.Fair := Run.fair_ofList (by decide)
  have hlaunch : stranded.Launches 1 .unit .unit _ immediateId 0 :=
    ⟨⟨0, _, ⟨rfl, _, _, rfl⟩, .runFiber⟩, rfl⟩
  have hmarked : (stranded.world 39).heap.promised? 0 =
      some (.slot .unit .unit (.panicked ⟨"fiber", "bug"⟩)) := rfl
  obtain ⟨c, m, f, t, stack, hfails⟩ := hpanicking.failsOnce (start_starting stranding []) hfair
    hlaunch (stranded_isSealed _) (stranded_performsOnce _ _) (Run.reportsReturn_immediate rfl) rfl
    fun s id hs hnode => by
      obtain rfl := Option.some.inj
        ((show stranded.stage 4 (.thread 0 3) 29 = _ from rfl).symm.trans hs)
      contradiction
  exact ⟨hmarked, c, m, f, t, stack, hfails, (hfails.found hmarked trivial).1⟩

end Drill

end Trampoline
