import Trampoline.Proofs.Combining
import Trampoline.Proofs.Traversing

/-!
Two effects side by side. Both are forked, the first one first, before either is joined; each is
interpreted once whatever comes of the other. The first is joined before the second, so what comes
of both is what would come of the concurrent sequence of the two, with the two values combined if it
is a list of two values: a second effect that has ended earlier, or never ends, makes no difference
to that.
-/

namespace Trampoline

variable {H : Host} {D F : Type}

open Interpretation (settle follow)

/-- An interpretation that goes on as a sequence of two effects decides, with the two values
combined. -/
inductive Interpretation.Combines (value : Ty) (how : Combine F) (rest : List (Frame D F)) :
    Exit (Outcome D F) → Interpretation D F → Prop
  | both {v w : Value D F} {i : Interpretation D F} :
      i.step = follow rest (how.plan v w) →
        Combines value how rest (.settled (.ok (.list value (.ofList [v, w])))) i
  | one {exit : Exit (Outcome D F)} {i : Interpretation D F} :
      (∀ v, exit ≠ .settled (.ok v)) → i.Settles exit rest → Combines value how rest exit i

section Pairing

variable (value error : Ty) (how : Combine F) (rest : List (Frame D F)) (f g : PromiseId)

/-- The continuation below the join of the first of two fibers. -/
def Frame.joinsSecond : Frame D F := .bind (.andThen value value (.join value error g) how)

/-- The continuations of the join of one of two fibers. -/
def Frame.pairs : List (PromiseId × Value D F) → List (Frame D F)
  | [] => joinsSecond value error how g :: rest
  | (_, v) :: _ => Bind.combining value how v ++ rest

variable (slot : PromiseId → Option (Slot D F)) (came : HandoffId → PromiseId → Prop)

/-- How far an interpretation is that joins two fibers to combine their values. -/
inductive Pairing : Nat → Stage D F → Prop
  | joining {done : List (PromiseId × Value D F)} {fiber : PromiseId} {todo : List PromiseId}
      {k : Nat} {stage : Stage D F} :
      Joined slot [f, g] done (fiber :: todo) →
        Joining value error slot came fiber (Frame.pairs value error how rest g done) k stage →
          Pairing (16 * (todo.length + 1) + k) stage
  | between {v : Value D F} :
      slot f = some (.ok v) → v.ty = value →
        Pairing 31
          (.driving (settle (.settled (.ok v)) (Frame.joinsSecond value error how g :: rest)))
  | failing {frame : Frame D F} {v : Value D F} :
      Decides value ([f, g].map slot) (.settled (.error v)) →
        frame.plan (.error v) = .settled (.error v) →
          Pairing 1 (.driving (settle (.settled (.error v)) (frame :: rest)))

end Pairing

section Joiner

variable {value error : Ty} {how : Combine F} {rest : List (Frame D F)} {f g fiber : PromiseId}
  {slot slot' : PromiseId → Option (Slot D F)} {came came' : HandoffId → PromiseId → Prop}
  {done : List (PromiseId × Value D F)} {todo : List PromiseId} {k : Nat} {stage : Stage D F}

/-- One of two fibers is joined first, or is joined when the first one has succeeded. -/
theorem Joined.pair_cases (h : Joined slot [f, g] done (fiber :: todo)) :
    (done = [] ∧ fiber = f ∧ todo = [g]) ∨
      ∃ v, done = [(f, v)] ∧ fiber = g ∧ todo = [] ∧ slot f = some (.ok v) := by
  have hfibers := h.fibers
  rcases done with - | ⟨⟨first, v⟩, - | ⟨second, done⟩⟩
  · obtain ⟨rfl, rfl⟩ := List.cons.inj hfibers
    exact .inl ⟨rfl, rfl, rfl⟩
  · obtain ⟨rfl, hrest⟩ := List.cons.inj hfibers
    obtain ⟨rfl, rfl⟩ := List.cons.inj hrest
    exact .inr ⟨v, rfl, rfl, rfl, h.slots _ List.mem_cons_self⟩
  · have hlength := congrArg List.length hfibers
    simp at hlength

theorem Pairing.mono (hslot : ∀ fiber s, slot fiber = some s → slot' fiber = some s)
    (hcame : ∀ id fiber, came id fiber → came' id fiber)
    (h : Pairing value error how rest f g slot came k stage) :
    Pairing value error how rest f g slot' came' k stage := by
  cases h with
  | joining hjoined h => exact .joining (hjoined.mono hslot) (h.mono hslot hcame)
  | between hs hv => exact .between (hslot _ _ hs) hv
  | failing hdecides hframe => exact .failing (hdecides.mono hslot) hframe

theorem Pairing.ne_asking (h : Pairing value error how rest f g slot came k stage)
    (post : Post D F) (frames : List (Frame D F)) : stage ≠ .asking post frames := by
  cases h with
  | joining _ h => cases h <;> simp
  | _ => simp

/-- It goes on by itself to the second fiber, or to the exit. -/
theorem Pairing.next_or_joins (h : Pairing value error how rest f g slot came k stage) :
    (∃ i j, stage = .driving i ∧ i.step = .next j ∧
        ((∃ k', k' < k ∧ Pairing value error how rest f g slot came k' (.driving j)) ∨
          ∃ exit, Decides value ([f, g].map slot) exit ∧ j.Combines value how rest exit)) ∨
      ∃ done fiber todo k', k = 16 * (todo.length + 1) + k' ∧
        Joined slot [f, g] done (fiber :: todo) ∧
          Joining value error slot came fiber (Frame.pairs value error how rest g done)
            k' stage := by
  cases h with
  | joining hjoined h => exact .inr ⟨_, _, _, _, rfl, hjoined, h⟩
  | @between v hs hv =>
      have hstep := (Bind.proceeds_andThen value value (.join value error g) how).step_runs hv rest
      have hjoined : Joined slot [f, g] [(f, v)] [g] :=
        ⟨rfl, fun d hd => List.mem_singleton.1 hd ▸ hs⟩
      exact .inl ⟨_, _, rfl, hstep, .inl ⟨_, by decide, .joining hjoined .opening⟩⟩
  | @failing frame v hdecides hframe =>
      have hstep : (settle (.settled (.error v)) (frame :: rest)).step =
          .next (settle (.settled (.error v)) rest) := by
        rw [Interpretation.step_settled_cons, hframe]
        rfl
      exact .inl ⟨_, _, rfl, hstep, .inr ⟨_, hdecides, .one (by simp) .refl⟩⟩

/-- A fiber that has not succeeded decides what both come to. -/
theorem Pairing.of_missing {s : Slot D F} {frame : Frame D F}
    (hdecides : Decides value ([f, g].map slot) s.exit) (hs : ∀ v, s ≠ .ok v)
    (hframe : ∀ v, frame.plan (.error v) = .settled (.error v)) :
    Pairing value error how rest f g slot came 1 (.driving (settle s.exit (frame :: rest))) ∨
      ∃ exit, Decides value ([f, g].map slot) exit ∧
        (settle s.exit (frame :: rest)).Combines value how rest exit := by
  cases s with
  | ok v => exact absurd rfl (hs v)
  | err v => exact .inl (.failing hdecides (hframe v))
  | panicked report =>
      exact .inr ⟨_, hdecides, .one (by simp [Slot.exit]) (.of_panicked_cons .refl)⟩

/-- What has been read from the slot of a fiber leads to the other fiber, or to the exit. -/
theorem Pairing.of_reading {s : Slot D F} (hjoined : Joined slot [f, g] done (fiber :: todo))
    (hs : slot fiber = some s) (htypes : ∀ v, s = .ok v → v.ty = value) :
    (∃ k, k < 16 * (todo.length + 1) ∧ Pairing value error how rest f g slot came k
        (.driving (settle s.exit (Frame.pairs value error how rest g done)))) ∨
      ∃ exit, Decides value ([f, g].map slot) exit ∧
        (settle s.exit (Frame.pairs value error how rest g done)).Combines value how rest exit := by
  by_cases hok : ∃ v, s = .ok v
  · obtain ⟨w, rfl⟩ := hok
    rcases hjoined.pair_cases with ⟨rfl, rfl, rfl⟩ | ⟨v, rfl, rfl, rfl, hf⟩
    · exact .inl ⟨31, by simp, .between hs (htypes w rfl)⟩
    · refine .inr ⟨_, @Decides.values _ _ value _ [v, w] (by simp [hf, hs]), .both ?_⟩
      exact (Interpretation.step_settled_cons ..).trans
        (congrArg (follow rest) (Frame.plan_combine (htypes w rfl) how))
  · have hmissing (v : Value D F) : s ≠ .ok v := fun heq => hok ⟨v, heq⟩
    have hdecides := hjoined.decides_first value hs hmissing
    have hone : 1 < 16 * (todo.length + 1) := by omega
    rcases hjoined.pair_cases with ⟨rfl, rfl, rfl⟩ | ⟨v, rfl, rfl, rfl, -⟩
    · exact (Pairing.of_missing hdecides hmissing fun _ => rfl).imp_left fun h => ⟨1, hone, h⟩
    · exact (Pairing.of_missing hdecides hmissing fun _ => rfl).imp_left fun h => ⟨1, hone, h⟩

end Joiner

/-- The way of two effects side by side that have been forked. -/
def Joiner.pair (value error : Ty) (how : Combine F) (rest : List (Frame D F)) (f g : PromiseId) :
    Joiner D F value error [f, g] where
  Under := Pairing value error how rest f g
  Lands exit i := i.Combines value how rest exit
  frames done _ := Frame.pairs value error how rest g done
  bound todo := 16 * (todo.length + 1)
  mono hslot hcame h := h.mono hslot hcame
  ne_asking h := h.ne_asking
  next_or_joins h := h.next_or_joins
  joining hjoined h := .joining hjoined h
  reading hjoined hs htypes := Pairing.of_reading hjoined hs htypes

/-- The effects that join two forks are combined to the effect that joins both. -/
theorem Interpretation.step_joins (value error c : Ty) (how : Combine F) (f g : PromiseId)
    (rest : List (Frame D F)) :
    (settle (.settled (.ok (.joining value error g)))
      (Bind.combining (.effect value error) (.joins value value c error how)
        (.joining value error f) ++ rest)).step =
      .next (settle (.settled (.ok (.effect c error (.flatMap (.join value error f)
        (.andThen value value (.join value error g) how))))) rest) := by
  have hty : (Value.joining value error g : Value D F).ty = .effect value error := rfl
  exact (step_settled_cons ..).trans (congrArg (follow rest) (Frame.plan_combine hty _))

namespace Run

variable {r : Run H} {b n m : Nat} {p q : Place} {value error : Ty} {s : SchedulerId}
  {forks : List (Forked H.Data H.Fn)} {rest frames : List (Frame H.Data H.Fn)}
  {finish : Finish H.Fn} {i j : Interpretation H.Data H.Fn}

theorem Fair.spreads_on (hfair : r.Fair) (h : ∃ n, r.Spreads value error s b p finish n forks i)
    (hstep : i.step = .next j) : ∃ n, r.Spreads value error s b p finish n forks j := by
  obtain ⟨n, h⟩ := h
  obtain ⟨q, hq, hat⟩ := h.there
  obtain ⟨m, hnext⟩ := hfair.spreads_next hat hstep value error s
  exact ⟨n + m, List.append_nil forks ▸ h.trans hq hnext⟩

theorem Fair.spreads_fork (hfair : r.Fair) (hreturn : r.SubmissionsReturn s) {x : Node H.Data H.Fn}
    (h : ∃ n, r.Spreads value error s b p finish n forks
      ⟨.node (.forking value error s x), frames⟩) :
    ∃ fiber n, r.Spreads value error s b p finish n (forks ++ [(x, fiber)])
      (.settle (.settled (.ok (.joining value error fiber))) frames) := by
  obtain ⟨n, h⟩ := h
  obtain ⟨q, hq, hat⟩ := h.there
  obtain ⟨m, fiber, hfork⟩ := hfair.exists_forked hreturn hat
  exact ⟨fiber, n + m, h.trans hq hfork⟩

/-- Two effects side by side are forked, one after the other, before the first fork is joined. -/
theorem Fair.exists_spreads_pair {c : Ty} {x y : Effect H.Data H.Fn value error}
    {how : Combine H.Fn} (hfair : r.Fair) (hreturn : r.SubmissionsReturn s)
    (hp : (r.world b).pendingAt p = some (.driving
      ⟨.node (x.concurrentCombine y s how : Effect H.Data H.Fn c error).node, rest⟩, finish)) :
    ∃ n f g, r.Spreads value error s b p finish n [(x.node, f), (y.node, g)]
      ⟨.node (.join value error f), Frame.pairs value error how rest g []⟩ := by
  have hopening := hfair.spreads_next hp rfl value error s
  have hfirst := hfair.spreads_on hopening rfl
  obtain ⟨f, hfork⟩ := hfair.spreads_fork hreturn hfirst
  have hproceeds := Bind.proceeds_andThen (.effect value error) (.effect value error)
    (.forking value error s y.node) (.joins value value c error how)
  have hsecond := hfair.spreads_on hfork (hproceeds.step_runs rfl _)
  obtain ⟨g, hforks⟩ := hfair.spreads_fork hreturn hsecond
  have hjoins := hfair.spreads_on hforks (Interpretation.step_joins ..)
  have hflat := hfair.spreads_on hjoins (step_flatten ..)
  obtain ⟨n, hjoin⟩ := hfair.spreads_on hflat rfl
  exact ⟨n, f, g, hjoin⟩

/-- What comes of two effects side by side, to be combined above some continuations, that are at `p`
at time `b`: `n` actions later both have been forked. -/
structure Pairs (r : Run H) (b : Nat) (p : Place) (value error : Ty) (s : SchedulerId)
    (how : Combine H.Fn) (rest : List (Frame H.Data H.Fn)) (finish : Finish H.Fn) (n : Nat)
    (f g : Forked H.Data H.Fn) : Prop where
  /-- They have been submitted, the first one first, each into a fiber of its own, and nothing has
  been joined. -/
  spreads : r.Spreads value error s b p finish n [f, g]
    ⟨.node (.join value error f.2), Frame.pairs value error how rest g.2 []⟩
  /-- Each effect is interpreted once, whatever comes of the other. -/
  memoises : ∀ h ∈ [f, g], r.IsUntouched value error h.1 s h.2 → r.Memoises value error h.1 s h.2
  /-- The first fork is joined before the second, and the values are combined if both succeed. -/
  joins {q : Place} : (∀ h ∈ [f, g], r.IsUntouched value error h.1 s h.2) →
    r.place b p n = some q → r.JoinsAll (b + n) q (.pair value error how rest f.2 g.2)
  /-- They come to what a concurrent sequence of two effects yields whose forks end alike. -/
  agrees {r' : Run H} {b' n' : Nat} {p' q q' : Place} {s' : SchedulerId}
    {rest' : List (Frame H.Data H.Fn)} {finish' : Finish H.Fn} {f' g' : Forked H.Data H.Fn}
    {exit : Exit (Outcome H.Data H.Fn)} :
    (∀ h ∈ [f, g], r.IsUntouched value error h.1 s h.2) →
      (∀ fiber ∈ [f.2, g.2], r.SubscribesOnce fiber) → (r'.world 0).Starting →
        r'.Traverses b' p' value error s' rest' finish' n' [f', g'] →
          (∀ h ∈ [f', g'], r'.IsUntouched value error h.1 s' h.2) →
            (∀ fiber ∈ [f'.2, g'.2], r'.SubscribesOnce fiber) →
              r.EndsAlike r' f.2 f'.2 → r.EndsAlike r' g.2 g'.2 →
                r.place b p n = some q → r'.place b' p' n' = some q' →
                  ((∃ m, r.Lands (b + n) q (.pair value error how rest f.2 g.2) m exit) ↔
                    ∃ m, r'.Yields (b' + n') q' value [f'.2, g'.2] rest' m exit)

/-- Two effects side by side, on a scheduler that runs its work once and comes back from
submissions, are forked in their order before the first fork is joined, and go on with what the ends
of the forks decide as a concurrent sequence of the two does, and then with the combination of the
two values. -/
theorem pairs_as_sequenced {c : Ty} {x y : Effect H.Data H.Fn value error} {how : Combine H.Fn}
    (hstart : (r.world 0).Starting)
    (himmediate : (r.world 0).heap.schedulers[immediateId]? = some .immediate) (hfair : r.Fair)
    (honce : r.RunsOnce s) (hreturn : r.SubmissionsReturn s)
    (hp : (r.world b).pendingAt p = some (.driving
      ⟨.node (x.concurrentCombine y s how : Effect H.Data H.Fn c error).node, rest⟩, finish)) :
    ∃ n f g, f.1 = x.node ∧ g.1 = y.node ∧ r.Pairs b p value error s how rest finish n f g := by
  obtain ⟨n, f, g, hspreads⟩ := hfair.exists_spreads_pair hreturn hp
  have hjoins {q : Place}
      (huntouched : ∀ h ∈ [(x.node, f), (y.node, g)], r.IsUntouched value error h.1 s h.2)
      (hq : r.place b p n = some q) : r.JoinsAll (b + n) q (.pair value error how rest f g) :=
    hspreads.joinsAll hstart himmediate hfair huntouched hq fun _ _ =>
      .joining ⟨rfl, by simp⟩ .opening
  refine ⟨n, (x.node, f), (y.node, g), rfl, rfl, hspreads, fun h hh huntouched => ?_, hjoins, ?_⟩
  · obtain ⟨_, _, _, -, -, -, hlaunch, hsubmits⟩ := hspreads.forked h hh
    obtain ⟨hperforms, honce⟩ := honce _ _ _ _ _ _ hsubmits
    exact huntouched.memory hstart hlaunch himmediate hfair hperforms honce
  · intro r' b' n' p' q q' s' rest' finish' f' g' exit h honce hstart' htraverses h' honce'
      hf hg hq hq'
    have hpair := hjoins h hq
    have hsequence := htraverses.gathers h' hq'
    have halike : ∀ e ∈ [(f, f'.2), (g, g'.2)], r.EndsAlike r' e.1 e.2 := by simp [hf, hg]
    have halike' : ∀ e ∈ [(f'.2, f), (g'.2, g)], r'.EndsAlike r e.1 e.2 := by
      simp [hf.symm, hg.symm]
    constructor
    · rintro ⟨m, hlands⟩
      obtain ⟨m', hdecides⟩ := exists_decides_of_alike hstart' halike hlands.decides
      exact hsequence.comes honce' hdecides
    · rintro ⟨m, hyields⟩
      obtain ⟨m', hdecides⟩ := exists_decides_of_alike hstart halike' hyields.decides
      exact hpair.comes honce hdecides

end Run

namespace Drill

/-- Calls a function, and then fails. -/
def failingLate : Effect Unit Nat .unit .text :=
  (.delay ⟨2, ∅⟩ : Effect Unit Nat .unit .text).productR (.fail (.text "first"))

def failingAtOnce : Effect Unit Nat .unit .text := .fail (.text "second")

/-- The first thread pairs two effects on a pool of threads that both fail. -/
def pairing : Script
  | 0 => [.ask (.runBlocking (.pair .unit .unit) .text
      (failingLate.concurrentTuple failingAtOnce 2).node)]
  | _ => []

/-- The second fork is the first one to end. -/
def paired : Run (host pairing) :=
  run pairing [.pool .log] (List.replicate 32 0 ++ List.replicate 12 3 ++ List.replicate 30 2 ++
    List.replicate 4 0 ++ [1])

/-- When the forks are submitted and performed, and when the first one is subscribed to. -/
def isInTurn (n : Nat) : Task (host pairing) → Bool
  | .submit _ (.interpret _ _) => n == 6 || n == 13
  | .perform (.interpret _ (.fiber _ _ fiber _)) => n == if fiber = 0 then 44 else 32
  | .subscribe _ _ => n == 25
  | _ => true

theorem isInTurn_of_does {n : Nat} {t : ThreadId} {task : Task (host pairing)}
    (h : paired.Does n t task) : isInTurn n task :=
  check_of_does (by decide) h

theorem paired_performsOnce (node : Node Unit Nat) (value error : Ty) (fiber : PromiseId)
    (s : SchedulerId) : paired.PerformsOnce (.interpret node (.fiber value error fiber s)) := by
  intro n m t t' hn hm
  have hturn := isInTurn_of_does hn
  have hturn' := isInTurn_of_does hm
  simp only [isInTurn, beq_iff_eq] at hturn hturn'
  exact hturn.trans hturn'.symm

theorem paired_subscribesOnce (fiber : PromiseId) : paired.SubscribesOnce fiber := by
  intro n m t t' _ _ hn hm
  have hturn := isInTurn_of_does hn.1
  have hturn' := isInTurn_of_does hm.1
  simp only [isInTurn, beq_iff_eq] at hturn hturn'
  exact hturn.trans hturn'.symm

set_option maxRecDepth 4000 in
theorem paired_runsOnce : paired.RunsOnce 2 := by
  intro n t value error x fiber hdoes
  refine ⟨?_, paired_performsOnce x value error fiber 2⟩
  have hturn := isInTurn_of_does hdoes
  simp only [isInTurn, Run.launched, Bool.or_eq_true, beq_iff_eq] at hturn
  rcases hturn with rfl | rfl
  · obtain ⟨-, heq⟩ := hdoes.unique (show paired.Does 6 0
      (.submit 2 (.interpret _ (.fiber .unit .text 0 2))) from ⟨rfl, _, _, rfl⟩)
    obtain ⟨-, hwork⟩ := Task.submit.inj heq
    exact hwork ▸ ⟨44, 2, rfl, _, _, rfl⟩
  · obtain ⟨-, heq⟩ := hdoes.unique (show paired.Does 13 0
      (.submit 2 (.interpret _ (.fiber .unit .text 1 2))) from ⟨rfl, _, _, rfl⟩)
    obtain ⟨-, hwork⟩ := Task.submit.inj heq
    exact hwork ▸ ⟨32, 3, rfl, _, _, rfl⟩

/-- A fork that is submitted in the run has one of the first two fibers. -/
theorem fiber_lt_two {b e : Nat} {value error : Ty} {s : SchedulerId} {f : Forked Unit Nat}
    (h : paired.IsForked b e value error s f) : f.2 < 2 := by
  obtain ⟨k, c, t, -, hkc, -, hlaunch, hsubmits⟩ := h
  have hturn := isInTurn_of_does hsubmits
  simp only [isInTurn, Run.launched, Bool.or_eq_true, beq_iff_eq] at hturn
  have hsize := Run.promises_size_le (r := paired) (show k + 1 ≤ 13 by omega)
  have htwo : (paired.world 13).heap.promises.size = 2 := by decide
  rw [hlaunch.size_succ, htwo] at hsize
  exact hsize

set_option maxRecDepth 4000 in
/-- The pair fails as its first fork does, though the second one has failed before. -/
theorem paired_as_sequenced : ∃ n q f g,
    paired.Pairs 2 (.thread 0 2) .unit .text 2 .pair [] (.channel (.pair .unit .unit) .text 0) n
        f g ∧
      paired.place 2 (.thread 0 2) n = some q ∧
        (paired.world 44).heap.slot? f.2 = none ∧
          (paired.world 44).heap.slot? g.2 = some (.err (.text "second")) ∧
            ∃ m, paired.Lands (2 + n) q (.pair .unit .text .pair [] f.2 g.2) m
              (.settled (.error (.text "first"))) := by
  have hstart := start_starting pairing [.pool .log]
  have hfair : paired.Fair := Run.fair_ofList (by decide)
  obtain ⟨n, f, g, -, -, h⟩ := Run.pairs_as_sequenced hstart rfl hfair paired_runsOnce
    (Run.submissionsReturn_pool rfl) (show (paired.world 2).pendingAt (.thread 0 2) =
      some (.driving ⟨.node (failingLate.concurrentCombine failingAtOnce 2 .pair :
        Effect Unit Nat (.pair .unit .unit) .text).node, []⟩,
          .channel (.pair .unit .unit) .text 0) from rfl)
  have hg : g.2 < 2 := fiber_lt_two (h.spreads.forked g (by simp))
  have hfg : f.2 < g.2 := by simpa using h.spreads.fresh
  have hzero : f.2 = 0 := Nat.lt_one_iff.1 (Nat.lt_of_lt_of_le hfg (Nat.le_of_lt_succ hg))
  have hone : g.2 = 1 :=
    Nat.le_antisymm (Nat.le_of_lt_succ hg) (Nat.lt_of_le_of_lt (Nat.zero_le _) hfg)
  obtain ⟨q, hq, -⟩ := h.spreads.there
  have hjoins := h.joins (fun f _ => isUntouched_of_isPlain (by decide) ..) hq
  have hdecides : Decides .unit ([f.2, g.2].map (paired.world 79).heap.slot?)
      (Slot.err (.text "first") : Slot Unit Nat).exit := by
    rw [hzero, hone]
    exact .first (show _ = ([] : List (Value Unit Nat)).map (fun v => some (Slot.ok v)) ++
      some (.err (.text "first")) :: [some (.err (.text "second"))] from rfl) (by rintro v ⟨⟩)
  exact ⟨n, q, f, g, h, hq, hzero ▸ rfl, hone ▸ rfl,
    hjoins.comes (fun fiber _ => paired_subscribesOnce fiber) hdecides⟩

/-- Two effects of which the first one panics. -/
def unheardPair : Effect Unit Nat (.pair .unit .unit) .unit :=
  (calling 3).concurrentTuple (calling 2) 2

/-- The report of the panic panics, too. -/
def unpaired : Run (host (breaking (.runBlocking (.pair .unit .unit) .unit unheardPair.node))) :=
  run _ [brittle] (1 :: (List.replicate 32 0 ++ List.replicate 20 2 ++ List.replicate 16 3 ++
    List.replicate 2 0))

/-- When the forks are submitted and performed. -/
def forksInTurn (n : Nat) :
    Task (host (breaking (.runBlocking (.pair .unit .unit) .unit unheardPair.node))) → Bool
  | .submit _ (.interpret _ _) => n == 7 || n == 14
  | .perform (.interpret _ (.fiber _ _ fiber _)) => n == if fiber = 0 then 33 else 53
  | _ => true

set_option maxRecDepth 4000 in
theorem unpaired_runsOnce : unpaired.RunsOnce 2 := by
  have hcheck {n : Nat} {t : ThreadId} {task : Task (host _)} (h : unpaired.Does n t task) :
      forksInTurn n task := check_of_does (by decide) h
  intro n t value error x fiber hdoes
  have hturn := hcheck hdoes
  simp only [forksInTurn, Run.launched, Bool.or_eq_true, beq_iff_eq] at hturn
  refine ⟨?_, fun k m t₁ t₂ hk hm => ?_⟩
  · rcases hturn with rfl | rfl
    · obtain ⟨-, heq⟩ := hdoes.unique (show unpaired.Does 7 0
        (.submit 2 (.interpret _ (.fiber .unit .unit 0 2))) from ⟨rfl, _, _, rfl⟩)
      obtain ⟨-, hwork⟩ := Task.submit.inj heq
      exact hwork ▸ ⟨33, 2, rfl, _, _, rfl⟩
    · obtain ⟨-, heq⟩ := hdoes.unique (show unpaired.Does 14 0
        (.submit 2 (.interpret _ (.fiber .unit .unit 1 2))) from ⟨rfl, _, _, rfl⟩)
      obtain ⟨-, hwork⟩ := Task.submit.inj heq
      exact hwork ▸ ⟨53, 3, rfl, _, _, rfl⟩
  · have hk := hcheck hk
    have hm := hcheck hm
    simp only [forksInTurn, Run.launched, beq_iff_eq] at hk hm
    exact hk.trans hm.symm

set_option maxRecDepth 4000 in
/-- The first fork ends with a panic, but its fiber is never marked, and the pair does not panic,
though both forks have been performed. -/
theorem unpaired_not_decided :
    unpaired.Fair ∧ unpaired.RunsOnce 2 ∧
      (unpaired.world 3).pendingAt (.thread 0 2) =
        some (.driving ⟨.node unheardPair.node, []⟩, .channel (.pair .unit .unit) .unit 0) ∧
      unpaired.Does 40 2 (.conclude (.panicked (.text "bug")) (.fiber .unit .unit 0 2)) ∧
      (∀ n, (unpaired.world n).heap.slot? 0 = none) ∧
        ∀ n, 3 < n → isBack 0 1 (unpaired.world n) = false :=
  ⟨Run.fair_ofList (by decide), unpaired_runsOnce, rfl, ⟨rfl, _, _, rfl⟩,
    slot?_eq_none (by decide), fun _ => isBack_eq_false (by decide) (by decide)⟩

end Drill

end Trampoline
