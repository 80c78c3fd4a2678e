import Trampoline.Proofs.Joiners

/-!
Concurrent traversals. All items are forked before any fork is joined, each effect is interpreted
once whatever comes of the others, and the forks are joined in the order of the items: the traversal
goes on with what their slots decide, whenever and wherever the forks come to their ends, and waits
as long as the first fork that has not succeeded has no slot.
-/

namespace Trampoline

variable {H : Host}

/-- The way of a concurrent traversal that has forked its items. -/
def Joiner.traversal {D F : Type} (value error : Ty) (rest : List (Frame D F))
    (fibers : List PromiseId) : Joiner D F value error fibers where
  Under slot came := Gathering value error rest slot came fibers
  Lands exit i := i.Settles exit rest
  frames done todo := Frame.adding value (done.map Prod.snd) (todo.map (.join value error)) rest
  bound todo := 16 * (3 * todo.length + 2)
  mono hslot hcame h := h.mono hslot hcame
  ne_asking h := h.ne_asking
  next_or_joins h := h.next_or_joins
  joining hjoined h := .joining hjoined h
  reading hjoined hs htypes := Gathering.of_reading hjoined hs htypes

namespace Run

variable {r : Run H} {b n : Nat} {p q : Place} {value error : Ty} {s : SchedulerId}
  {rest : List (Frame H.Data H.Fn)} {finish : Finish H.Fn}

/-- The interpretation that is at `p` at time `b` still gathers the values of fibers, above some
continuations, `n` actions later; it has submitted nothing. -/
def IsGathering (r : Run H) (b : Nat) (p : Place) (value error : Ty) (fibers : List PromiseId)
    (rest : List (Frame H.Data H.Fn)) (n : Nat) : Prop :=
  ∃ stage k, r.stage b p n = some stage ∧
    Gathering value error rest (r.world (b + n)).heap.slot? (r.CameTo value error b (b + n)) fibers
      k stage ∧ r.submitted b p n = []

/-- The interpretation that is at `p` at time `b` goes on above these continuations, `n` actions
later, with the exit that the slots of the fibers decide; it has submitted nothing. -/
structure Yields (r : Run H) (b : Nat) (p : Place) (value : Ty) (fibers : List PromiseId)
    (rest : List (Frame H.Data H.Fn)) (n : Nat) (exit : Exit (Outcome H.Data H.Fn)) : Prop where
  decides : Decides value (fibers.map (r.world (b + n)).heap.slot?) exit
  stage : ∃ i, r.stage b p n = some (.driving i) ∧ i.Settles exit rest
  submitted : r.submitted b p n = []

/-- What comes of an interpretation that is at `p` at time `b`, above some continuations, when all
items of its traversal have been forked. -/
structure GathersAll (r : Run H) (b : Nat) (p : Place) (value error : Ty) (fibers : List PromiseId)
    (rest : List (Frame H.Data H.Fn)) : Prop where
  /-- It gathers the values of the forks until it goes on with what their slots decide. -/
  course (n : Nat) : r.IsGathering b p value error fibers rest n ∨
    ∃ m exit, m ≤ n ∧ r.Yields b p value fibers rest m exit
  /-- At whatever time something is decided, it is the same. -/
  unique {n m : Nat} {exit exit' : Exit (Outcome H.Data H.Fn)} :
    Decides value (fibers.map (r.world n).heap.slot?) exit →
      Decides value (fibers.map (r.world m).heap.slot?) exit' → exit = exit'
  /-- It waits while the first fork that has not succeeded has no slot. -/
  waits {n : Nat} {vs : List (Value H.Data H.Fn)} {later : List (Option (Slot H.Data H.Fn))} :
    fibers.map (r.world (b + n)).heap.slot? = vs.map (fun v => some (.ok v)) ++ none :: later →
      r.IsGathering b p value error fibers rest n
  /-- It comes to its exit once it is decided, if nobody else subscribes to the fibers. -/
  comes {m : Nat} {exit : Exit (Outcome H.Data H.Fn)} :
    (∀ fiber ∈ fibers, r.SubscribesOnce fiber) →
      Decides value (fibers.map (r.world m).heap.slot?) exit →
        ∃ n, r.Yields b p value fibers rest n exit

/-- What comes of a concurrent traversal that is at `p` at time `b`, above some continuations: `n`
actions later all its items have been forked. -/
structure Traverses (r : Run H) (b : Nat) (p : Place) (value error : Ty) (s : SchedulerId)
    (rest : List (Frame H.Data H.Fn)) (finish : Finish H.Fn) (n : Nat)
    (forks : List (Forked H.Data H.Fn)) : Prop where
  /-- They have been submitted in the order of the items, each into a fiber of its own, and nothing
  has been joined. -/
  spreads : r.Spreads value error s b p finish n forks
    (.settle (.settled (.ok (.list (.effect value error)
      (.ofList ((forks.map Prod.snd).map (.joining value error))))))
        (.bind (.sequence value error) :: rest))
  /-- Each effect is interpreted once, whatever comes of the others. -/
  memoises : ∀ f ∈ forks, r.IsUntouched value error f.1 s f.2 → r.Memoises value error f.1 s f.2
  gathers {q : Place} : (∀ f ∈ forks, r.IsUntouched value error f.1 s f.2) →
    r.place b p n = some q → r.GathersAll (b + n) q value error (forks.map Prod.snd) rest

/-- A traversal whose items have all been forked joins them in their order. -/
theorem Spreads.gathersAll {forks : List (Forked H.Data H.Fn)} (hstart : (r.world 0).Starting)
    (himmediate : (r.world 0).heap.schedulers[immediateId]? = some .immediate) (hfair : r.Fair)
    (h : r.Spreads value error s b p finish n forks
      (.settle (.settled (.ok (.list (.effect value error)
        (.ofList ((forks.map Prod.snd).map (.joining value error))))))
          (.bind (.sequence value error) :: rest)))
    (huntouched : ∀ f ∈ forks, r.IsUntouched value error f.1 s f.2)
    (hq : r.place b p n = some q) :
    r.GathersAll (b + n) q value error (forks.map Prod.snd) rest := by
  have hjoins : r.JoinsAll (b + n) q (.traversal value error rest (forks.map Prod.snd)) :=
    h.joinsAll hstart himmediate hfair huntouched hq fun _ _ => .forked
  have hyields {m : Nat} {exit : Exit (Outcome H.Data H.Fn)}
      (h : r.Lands (b + n) q (.traversal value error rest (forks.map Prod.snd)) m exit) :
      r.Yields (b + n) q value (forks.map Prod.snd) rest m exit :=
    ⟨h.decides, h.stage, h.submitted⟩
  refine ⟨fun m => ?_, hjoins.unique, hjoins.waits, fun honce hdecides => ?_⟩
  · rcases hjoins.course m with hunder | ⟨k, exit, hk, hlands⟩
    · exact .inl hunder
    · exact .inr ⟨k, exit, hk, hyields hlands⟩
  · obtain ⟨m, hlands⟩ := hjoins.comes honce hdecides
    exact ⟨m, hyields hlands⟩

/-- A concurrent traversal on a scheduler that runs its work once and comes back from submissions
forks all items, in their order, before it joins any, and goes on with what the ends of the forks
decide in this order. -/
theorem traverses {α : Type} {items : List α} {f : α → Effect H.Data H.Fn value error}
    (hstart : (r.world 0).Starting)
    (himmediate : (r.world 0).heap.schedulers[immediateId]? = some .immediate) (hfair : r.Fair)
    (honce : r.RunsOnce s) (hreturn : r.SubmissionsReturn s)
    (hp : (r.world b).pendingAt p =
      some (.driving ⟨.node (Effect.concurrentTraverse items s f).node, rest⟩, finish)) :
    ∃ n forks, forks.map Prod.fst = items.map (fun item => (f item).node) ∧
      r.Traverses b p value error s rest finish n forks := by
  have hnode : (Effect.concurrentTraverse items s f).node =
      .concurrent value error s (items.map fun item => (f item).node) := by
    simp [Effect.concurrentTraverse, Effect.sequence, Effect.bind, Effect.start, Node.concurrent,
      Node.forking, Function.comp_def]
  rw [hnode] at hp
  obtain ⟨n, forks, hitems, hspreads⟩ := hfair.exists_spreads_of_concurrent hreturn hp
  refine ⟨n, forks, hitems, hspreads, fun g hg huntouched => ?_, fun huntouched hq =>
    hspreads.gathersAll hstart himmediate hfair huntouched hq⟩
  obtain ⟨k, c, t, -, -, -, hlaunch, hsubmits⟩ := hspreads.forked g hg
  obtain ⟨hperforms, honce⟩ := honce _ _ _ _ _ _ hsubmits
  exact huntouched.memory hstart hlaunch himmediate hfair hperforms honce

end Run

namespace Drill

/-- An effect that calls a function. -/
def calling (f : Nat) : Effect Unit Nat .unit .unit := .delay ⟨f, ∅⟩

/-- The first thread runs two functions side by side on a pool of threads. The second one panics. -/
def traversing : Script
  | 0 => [.ask (.runBlocking (.list .unit) .unit
      (Effect.concurrentTraverse [2, 3] 2 calling).node)]
  | 3 => [.raise (.text "bug")]
  | _ => []

/-- The fork that panics is the first one to end. -/
def traversed : Run (host traversing) :=
  run traversing [.pool .log] (List.replicate 39 0 ++ List.replicate 18 3 ++
    List.replicate 43 2 ++ List.replicate 4 0 ++ [1])

/-- When the forks are made and performed, and when their fibers are subscribed to. -/
def isTimely (n : Nat) : Task (host traversing) → Bool
  | .answer (.fork _ _ _ _) => n == 8 || n == 16
  | .submit _ (.interpret _ _) => n == 9 || n == 17
  | .perform (.interpret _ (.fiber _ _ fiber _)) => n == if fiber = 0 then 57 else 39
  | .subscribe fiber _ => n == if fiber = 0 then 32 else 81
  | _ => true

theorem isTimely_of_does {n : Nat} {t : ThreadId} {task : Task (host traversing)}
    (h : traversed.Does n t task) : isTimely n task :=
  check_of_does (by decide) h

theorem traversed_performsOnce (node : Node Unit Nat) (value error : Ty) (fiber : PromiseId)
    (s : SchedulerId) : traversed.PerformsOnce (.interpret node (.fiber value error fiber s)) := by
  intro n m t t' hn hm
  have htimely := isTimely_of_does hn
  have htimely' := isTimely_of_does hm
  simp only [isTimely, beq_iff_eq] at htimely htimely'
  exact htimely.trans htimely'.symm

theorem traversed_subscribesOnce (fiber : PromiseId) : traversed.SubscribesOnce fiber := by
  intro n m t t' _ _ hn hm
  have htimely := isTimely_of_does hn.1
  have htimely' := isTimely_of_does hm.1
  simp only [isTimely, beq_iff_eq] at htimely htimely'
  exact htimely.trans htimely'.symm

set_option maxRecDepth 4000 in
theorem traversed_runsOnce : traversed.RunsOnce 2 := by
  intro n t value error x fiber hdoes
  refine ⟨?_, traversed_performsOnce x value error fiber 2⟩
  have htimely := isTimely_of_does hdoes
  simp only [isTimely, Run.launched, Bool.or_eq_true, beq_iff_eq] at htimely
  rcases htimely with rfl | rfl
  · obtain ⟨-, heq⟩ := hdoes.unique (show traversed.Does 9 0
      (.submit 2 (.interpret _ (.fiber .unit .unit 0 2))) from ⟨rfl, _, _, rfl⟩)
    obtain ⟨-, hwork⟩ := Task.submit.inj heq
    exact hwork ▸ ⟨57, 2, rfl, _, _, rfl⟩
  · obtain ⟨-, heq⟩ := hdoes.unique (show traversed.Does 17 0
      (.submit 2 (.interpret _ (.fiber .unit .unit 1 2))) from ⟨rfl, _, _, rfl⟩)
    obtain ⟨-, hwork⟩ := Task.submit.inj heq
    exact hwork ▸ ⟨39, 3, rfl, _, _, rfl⟩

set_option maxRecDepth 4000 in
/-- A fork that is made in the run has one of the first two fibers. -/
theorem fiber_lt_of_isForked {b e : Nat} {value error : Ty} {s : SchedulerId}
    {f : Forked Unit Nat} (h : traversed.IsForked b e value error s f) : f.2 < 2 := by
  obtain ⟨k, c, t, -, hkc, -, hlaunch, hsubmits⟩ := h
  have htimely := isTimely_of_does hsubmits
  simp only [isTimely, Run.launched, Bool.or_eq_true, beq_iff_eq] at htimely
  have hsize := Run.promises_size_le (r := traversed) (show k + 1 ≤ 17 by omega)
  have htwo : (traversed.world 17).heap.promises.size = 2 := by decide
  rw [hlaunch.size_succ, htwo] at hsize
  exact hsize

set_option maxRecDepth 4000 in
/-- The traversal panics as its second fork does, which has ended before the first one. -/
theorem traversed_traverses : ∃ n q f g,
    traversed.Traverses 2 (.thread 0 2) .unit .unit 2 [] (.channel (.list .unit) .unit 0) n [f, g] ∧
      traversed.place 2 (.thread 0 2) n = some q ∧
        ∃ m, traversed.Yields (2 + n) q .unit [0, 1] [] m (.panicked (.text "bug")) := by
  have hstart := start_starting traversing [.pool .log]
  have hfair : traversed.Fair := Run.fair_ofList (by decide)
  obtain ⟨n, forks, hitems, h⟩ := Run.traverses hstart rfl hfair traversed_runsOnce
    (Run.submissionsReturn_pool rfl) (show (traversed.world 2).pendingAt (.thread 0 2) =
      some (.driving ⟨.node (Effect.concurrentTraverse [2, 3] 2 calling).node, []⟩,
        .channel (.list .unit) .unit 0) from rfl)
  obtain ⟨f, forks, rfl, -, hrest⟩ := List.map_eq_cons_iff.1 hitems
  obtain ⟨g, forks, rfl, -, hnil⟩ := List.map_eq_cons_iff.1 hrest
  obtain rfl := List.map_eq_nil_iff.1 hnil
  have hg : g.2 < 2 := fiber_lt_of_isForked (h.spreads.forked g (by simp))
  have hfg : f.2 < g.2 := by simpa using h.spreads.fresh
  have hzero : f.2 = 0 := Nat.lt_one_iff.1 (Nat.lt_of_lt_of_le hfg (Nat.le_of_lt_succ hg))
  have hone : g.2 = 1 :=
    Nat.le_antisymm (Nat.le_of_lt_succ hg) (Nat.lt_of_le_of_lt (Nat.zero_le _) hfg)
  have hfibers : [f, g].map Prod.snd = [0, 1] := by
    rw [List.map_cons, List.map_singleton, hzero, hone]
  obtain ⟨q, hq, -⟩ := h.spreads.there
  have hgathers := h.gathers (fun f _ => isUntouched_of_isPlain (by decide) ..) hq
  have hdecides : Decides .unit ([0, 1].map (traversed.world 105).heap.slot?)
      (Slot.panicked ⟨"fiber", "bug"⟩ : Slot Unit Nat).exit :=
    .first (show _ = [Value.unit].map (fun v => some (Slot.ok v)) ++
      some (.panicked ⟨"fiber", "bug"⟩) :: [] from rfl) (by rintro v ⟨⟩)
  rw [hfibers] at hgathers
  exact ⟨n, q, f, g, h, hq, hgathers.comes (fun fiber _ => traversed_subscribesOnce fiber) hdecides⟩

/-- A traversal with one item, whose function panics. -/
def unheardTraversal : Effect Unit Nat (.list .unit) .unit :=
  Effect.concurrentTraverse [3] 2 calling

/-- The report of the panic panics, too. -/
def unheard : Run (host (breaking (.runBlocking (.list .unit) .unit unheardTraversal.node))) :=
  run _ [brittle] (1 :: (List.replicate 29 0 ++ List.replicate 20 2 ++ List.replicate 2 0))

set_option maxRecDepth 4000 in
theorem unheard_runsOnce : unheard.RunsOnce 2 := by
  have hsubmits : unheard.Does 9 0 (.submit 2 (.interpret _ (.fiber .unit .unit 0 2))) :=
    ⟨rfl, _, _, rfl⟩
  have hperforms : unheard.Does 30 2 (.perform (.interpret _ (.fiber .unit .unit 0 2))) :=
    ⟨rfl, _, _, rfl⟩
  refine Run.runsOnce_of_submits hsubmits hperforms (fun hdoes => ?_) fun hdoes => ?_
  · simpa [submitsAt] using check_of_does (c := submitsAt 9) (by decide) hdoes
  · simpa [performsAt] using check_of_does (c := performsAt 30) (by decide) hdoes

set_option maxRecDepth 4000 in
/-- The fork ends with a panic, but its fiber is never marked, and the traversal does not panic. -/
theorem unheard_not_decided :
    unheard.Fair ∧ unheard.RunsOnce 2 ∧
      (unheard.world 3).pendingAt (.thread 0 2) =
        some (.driving ⟨.node unheardTraversal.node, []⟩, .channel (.list .unit) .unit 0) ∧
      unheard.Does 37 2 (.conclude (.panicked (.text "bug")) (.fiber .unit .unit 0 2)) ∧
      (∀ n, (unheard.world n).heap.slot? 0 = none) ∧
        ∀ n, 3 < n → isBack 0 1 (unheard.world n) = false :=
  ⟨Run.fair_ofList (by decide), unheard_runsOnce, rfl, ⟨rfl, _, _, rfl⟩,
    slot?_eq_none (by decide), fun _ => isBack_eq_false (by decide) (by decide)⟩

end Drill

end Trampoline
