import Trampoline.Effect.Concurrent
import Trampoline.Proofs.Course
import Trampoline.Proofs.RecursiveReading

/-!
How far an interpretation of a concurrent traversal is. First it collects the effects that join the
forks, then the values of these. Each step goes on with the next item or comes closer to the exit,
and the exit is the one that the slots of the fibers decide, in the order of the items.
-/

namespace Trampoline

variable {D F : Type}

open Interpretation (settle)

/-- The values, as the items of a list. -/
def Items.ofList (vs : List (Value D F)) : Items D F := vs.foldl .snoc .empty

@[simp] theorem Items.ofList_append_singleton (vs : List (Value D F)) (v : Value D F) :
    ofList (vs ++ [v]) = (ofList vs).snoc v := by
  simp [ofList]

theorem Items.nodesOnto?_ofList (value error : Ty) (nodes : List (Node D F)) :
    (ofList (nodes.map (.effect value error))).nodesOnto? [] = some nodes := by
  have hfold (items : Items D F) (back : List (Node D F)) :
      ((nodes.map (.effect value error)).foldl .snoc items).nodesOnto? back =
        items.nodesOnto? (nodes ++ back) := by
    induction nodes generalizing items with
    | nil => rfl
    | cons x nodes ih => exact ih (items.snoc (.effect value error x))
  rw [ofList, hfold, List.append_nil]
  rfl

theorem Node.collectAll_append_singleton (item : Ty) (collected x : Node D F)
    (front : List (Node D F)) :
    collectAll item collected (front ++ [x]) =
      .flatMap (collectAll item collected front) (.collect item x) := by
  simp [collectAll]

/-- The continuations that collect the values of nodes. -/
def Frame.collects (item : Ty) (nodes : List (Node D F)) : List (Frame D F) :=
  nodes.map fun x => .bind (.collect item x)

/-- The continuations of a node whose value is added to others, before those of further nodes. -/
def Frame.adding (item : Ty) (vs : List (Value D F)) (todo : List (Node D F))
    (rest : List (Frame D F)) : List (Frame D F) :=
  .resume (.append item (.ofList vs)) :: (collects item todo ++ rest)

open Trampoline.Frame (collects adding)

/-- An interpretation that collects the values of nodes: those it has got, the nodes that are left,
and a bound on the steps to go apart from those of the nodes. -/
inductive Collecting (item : Ty) (rest : List (Frame D F)) :
    List (Value D F) → List (Node D F) → Nat → Interpretation D F → Prop
  | opening {front back : List (Node D F)} :
      Collecting item rest [] (front ++ back) (3 * (front ++ back).length + front.length + 2)
        ⟨.node (.collectAll item (.thunk (.succeed (.list item .empty))) front),
          collects item back ++ rest⟩
  | collected {vs : List (Value D F)} {x : Node D F} {todo : List (Node D F)} :
      Collecting item rest vs (x :: todo) (3 * todo.length + 3)
        (settle (.settled (.ok (.list item (.ofList vs)))) (collects item (x :: todo) ++ rest))
  | running {vs : List (Value D F)} {x : Node D F} {todo : List (Node D F)} :
      Collecting item rest vs (x :: todo) (3 * todo.length + 2) ⟨.node x, adding item vs todo rest⟩
  | adding {vs : List (Value D F)} {v : Value D F} {todo : List (Node D F)} :
      v.ty = item →
        Collecting item rest (vs ++ [v]) todo (3 * todo.length + 1)
          (settle (.settled (.ok v)) (adding item vs todo rest))

section Collecting

variable {item : Ty} {rest : List (Frame D F)} {vs : List (Value D F)} {todo : List (Node D F)}
  {k : Nat} {i : Interpretation D F}

theorem step_collected (item : Ty) (vs : List (Value D F)) (x : Node D F) (todo : List (Node D F))
    (rest : List (Frame D F)) :
    (settle (.settled (.ok (.list item (.ofList vs)))) (collects item (x :: todo) ++ rest)).step =
      .next ⟨.node x, adding item vs todo rest⟩ := by
  have hplan : (Bind.collect item x).plan (.list item (.ofList vs)) =
      .answer (.andThen x (.append item (.ofList vs))) := by
    rw [Bind.plan]
    exact Value.expect_of_ty rfl
  simp only [collects, List.map_cons, List.cons_append, Interpretation.step_settled_cons,
    Frame.plan, hplan]
  rfl

theorem step_adding {v : Value D F} (hv : v.ty = item) (vs : List (Value D F))
    (todo : List (Node D F)) (rest : List (Frame D F)) :
    (settle (.settled (.ok v)) (adding item vs todo rest)).step =
      .next (settle (.settled (.ok (.list item (.ofList (vs ++ [v])))))
        (collects item todo ++ rest)) := by
  have hplan : (Resume.append item (.ofList vs)).plan v =
      .settled (.ok (.list item (.ofList (vs ++ [v])))) := by
    rw [Resume.plan, Value.expect_of_ty hv, Items.ofList_append_singleton]
  simp only [adding, Interpretation.step_settled_cons, Frame.plan, hplan]
  rfl

theorem Collecting.start (item : Ty) (rest : List (Frame D F)) (nodes : List (Node D F)) :
    Collecting item rest [] nodes (4 * nodes.length + 2) ⟨.node (.sequence item nodes), rest⟩ := by
  have h := @Collecting.opening D F item rest nodes []
  rw [List.append_nil] at h
  have hk : 3 * nodes.length + nodes.length + 2 = 4 * nodes.length + 2 := by omega
  exact hk ▸ h

/-- Collecting goes on by itself up to the next node, and then with the list of the values. -/
theorem Collecting.step (h : Collecting item rest vs todo k i) :
    (∃ j k', k' < k ∧ i.step = .next j ∧ Collecting item rest vs todo k' j) ∨
      (todo = [] ∧
        i.step = .next (settle (.settled (.ok (.list item (.ofList vs)))) rest)) ∨
      ∃ x todo', todo = x :: todo' ∧ k = 3 * todo'.length + 2 ∧
        i = ⟨.node x, Frame.adding item vs todo' rest⟩ := by
  cases h with
  | @opening front back =>
      rcases List.eq_nil_or_concat front with rfl | ⟨front, x, rfl⟩
      · cases back with
        | nil => exact .inr (.inl ⟨rfl, rfl⟩)
        | cons x back =>
            exact .inl ⟨_, _, by simp only [List.nil_append, List.length_cons]; omega, rfl,
              .collected⟩
      · rw [List.concat_eq_append, Node.collectAll_append_singleton, List.append_assoc]
        exact .inl ⟨_, _, by simp, rfl, @Collecting.opening D F item rest front (x :: back)⟩
  | collected => exact .inl ⟨_, _, Nat.lt_succ_self _, step_collected .., .running⟩
  | running => exact .inr (.inr ⟨_, _, rfl, rfl, rfl⟩)
  | @adding vs v todo hv =>
      rw [step_adding hv]
      cases todo with
      | nil => exact .inr (.inl ⟨rfl, rfl⟩)
      | cons x todo =>
          exact .inl ⟨_, _, by simp only [List.length_cons]; omega, rfl, .collected⟩

end Collecting

/-- The exit with which a reader of a slot goes on. -/
def Slot.exit : Slot D F → Exit (Outcome D F)
  | .ok v => .settled (.ok v)
  | .err v => .settled (.error v)
  | .panicked report => .panicked (.text report.message)

/-- How the exit of a traversal is made up of the slots of its fibers, in the order of the items: a
fiber that has none yet leaves it open, whatever the later ones are. -/
def gather (item : Ty) : List (Value D F) → List (Option (Slot D F)) → Option (Exit (Outcome D F))
  | vs, [] => some (.settled (.ok (.list item (.ofList vs))))
  | vs, some (.ok v) :: slots => gather item (vs ++ [v]) slots
  | _, some (.err v) :: _ => some (.settled (.error v))
  | _, some (.panicked report) :: _ => some (.panicked (.text report.message))
  | _, none :: _ => none

/-- The exit that the slots of the fibers decide, in the order of the items: the list of the values
if all have succeeded, and otherwise what the first that has not succeeded says. -/
inductive Decides (item : Ty) (slots : List (Option (Slot D F))) : Exit (Outcome D F) → Prop
  | values {vs : List (Value D F)} :
      slots = vs.map (fun v => some (.ok v)) →
        Decides item slots (.settled (.ok (.list item (.ofList vs))))
  | first {vs : List (Value D F)} {s : Slot D F} {later : List (Option (Slot D F))} :
      slots = vs.map (fun v => some (.ok v)) ++ some s :: later → (∀ v, s ≠ .ok v) →
        Decides item slots s.exit

section Gather

variable {item : Ty} {vs : List (Value D F)} {slots : List (Option (Slot D F))}
  {exit : Exit (Outcome D F)}

theorem gather_append (ws vs : List (Value D F)) (slots : List (Option (Slot D F))) :
    gather item ws (vs.map (fun v => some (.ok v)) ++ slots) = gather item (ws ++ vs) slots := by
  induction vs generalizing ws with
  | nil => simp
  | cons v vs ih =>
      rw [List.map_cons, List.cons_append, gather, ih, List.append_assoc, List.singleton_append]

theorem decides_of_gather (h : gather item vs slots = some exit) :
    Decides item (vs.map (fun v => some (.ok v)) ++ slots) exit := by
  induction slots generalizing vs with
  | nil =>
      obtain rfl := Option.some.inj h
      exact .values (List.append_nil _)
  | cons o slots ih =>
      cases o with
      | none => contradiction
      | some s =>
          cases s with
          | ok v =>
              have hnext := ih h
              rwa [List.map_append, List.append_assoc] at hnext
          | err v =>
              obtain rfl := Option.some.inj h
              exact .first rfl (by simp)
          | panicked report =>
              obtain rfl := Option.some.inj h
              exact .first rfl (by simp)

theorem gather_eq_some_iff : gather item [] slots = some exit ↔ Decides item slots exit := by
  refine ⟨fun h => decides_of_gather h, fun h => ?_⟩
  cases h with
  | @values vs heq =>
      have h := @gather_append D F item [] vs []
      rw [List.append_nil, ← heq] at h
      exact h
  | @first vs s later heq hs =>
      rw [heq, gather_append]
      cases s with
      | ok v => exact absurd rfl (hs v)
      | err v => rfl
      | panicked report => rfl

theorem Decides.unique {exit' : Exit (Outcome D F)} (h : Decides item slots exit)
    (h' : Decides item slots exit') : exit = exit' :=
  Option.some.inj ((gather_eq_some_iff.2 h).symm.trans (gather_eq_some_iff.2 h'))

/-- A fiber that has no slot leaves the exit open as long as those before it have succeeded. -/
theorem not_decides_of_none {later : List (Option (Slot D F))}
    (h : slots = vs.map (fun v => some (.ok v)) ++ none :: later) : ¬Decides item slots exit := by
  rw [← gather_eq_some_iff, h, gather_append]
  simp [gather]

end Gather

/-- A fork that a traversal has got a fiber for. -/
abbrev Forked (D F : Type) := Node D F × PromiseId

/-- The effect that joins a fiber, as a value. -/
def Value.joining (value error : Ty) (fiber : PromiseId) : Value D F :=
  .effect value error (.join value error fiber)

def Node.forking (value error : Ty) (scheduler : SchedulerId) (x : Node D F) : Node D F :=
  .thunk (.fork value error x scheduler)

/-- The node of a concurrent traversal. -/
def Node.concurrent (value error : Ty) (scheduler : SchedulerId) (xs : List (Node D F)) :
    Node D F :=
  .flatMap (.sequence (.effect value error) (xs.map (.forking value error scheduler)))
    (.sequence value error)

section Gathering

variable (value error : Ty) (rest : List (Frame D F)) (slot : PromiseId → Option (Slot D F))
  (came : HandoffId → PromiseId → Prop)

/-- How far the join of a fiber is, above the continuations that add its value to others. -/
inductive Joining (fiber : PromiseId) (frames : List (Frame D F)) : Nat → Stage D F → Prop
  | opening : Joining fiber frames 9 (.driving ⟨.node (.join value error fiber), frames⟩)
  | coming :
      Joining fiber frames 8
        (.driving ⟨.node (.async (.join value error fiber) immediateId),
          .bind (.unslot value error) :: frames⟩)
  | submitting {id : HandoffId} :
      came id fiber →
        Joining fiber frames 7 (.submitting id (.bind (.unslot value error) :: frames))
  | leaving {id : HandoffId} :
      came id fiber → Joining fiber frames 6 (.leaving id (.bind (.unslot value error) :: frames))
  | parked {id : HandoffId} :
      came id fiber → Joining fiber frames 5 (.parked id (.bind (.unslot value error) :: frames))
  | resuming {s : Slot D F} :
      slot fiber = some s →
        Joining fiber frames 4
          (.resuming (.settled (.ok (.slot value error s))) (.bind (.unslot value error) :: frames))
  | reading {s : Slot D F} :
      slot fiber = some s →
        Joining fiber frames 3 (.driving (settle (.settled (.ok (.slot value error s)))
          (.bind (.unslot value error) :: frames)))

variable {value error slot came} in
/-- A join waits for the exit of a node that it has come to. -/
theorem Joining.hasCome {fiber : PromiseId} {frames : List (Frame D F)} {k : Nat}
    {stage : Stage D F} {id : HandoffId} (h : Joining value error slot came fiber frames k stage)
    (hnode : stage.node? = some id) : came id fiber := by
  cases h with
  | submitting hcame => exact Option.some.inj hnode ▸ hcame
  | leaving hcame => exact Option.some.inj hnode ▸ hcame
  | parked hcame => exact Option.some.inj hnode ▸ hcame
  | _ => contradiction

/-- The fibers of the first forks, whose values have been collected. -/
structure Joined (fibers : List PromiseId) (done : List (PromiseId × Value D F))
    (todo : List PromiseId) : Prop where
  fibers : done.map Prod.fst ++ todo = fibers
  slots : ∀ d ∈ done, slot d.1 = some (.ok d.2)

/-- How far the second half of a concurrent traversal is, above the continuations that are pending
when it starts: the number bounds the steps that are left to the exit which the slots decide. -/
inductive Gathering (fibers : List PromiseId) : Nat → Stage D F → Prop
  | forked :
      Gathering fibers (64 * fibers.length + 64)
        (.driving (settle (.settled (.ok (.list (.effect value error)
          (.ofList (fibers.map (.joining value error)))))) (.bind (.sequence value error) :: rest)))
  | collecting {done : List (PromiseId × Value D F)} {todo : List PromiseId} {k : Nat}
      {i : Interpretation D F} :
      Joined slot fibers done todo →
        Collecting value rest (done.map Prod.snd) (todo.map (.join value error)) k i →
          Gathering fibers (16 * k + 10) (.driving i)
  | joining {done : List (PromiseId × Value D F)} {fiber : PromiseId} {todo : List PromiseId}
      {k : Nat} {stage : Stage D F} :
      Joined slot fibers done (fiber :: todo) →
        Joining value error slot came fiber
            (adding value (done.map Prod.snd) (todo.map (.join value error)) rest) k stage →
          Gathering fibers (16 * (3 * todo.length + 2) + k) stage
  | failing {frame : Frame D F} {frames : List (Frame D F)} {v : Value D F} :
      Decides value (fibers.map slot) (.settled (.error v)) →
        (∀ f ∈ frame :: frames, ∀ reify, f ≠ .reify reify) →
          Gathering fibers (frames.length + 1)
            (.driving (settle (.settled (.error v)) (frame :: frames ++ rest)))

end Gathering

section Mono

variable {value error : Ty} {rest : List (Frame D F)} {slot slot' : PromiseId → Option (Slot D F)}
  {came came' : HandoffId → PromiseId → Prop} {fibers : List PromiseId}
  {done : List (PromiseId × Value D F)} {todo : List PromiseId} {k : Nat} {stage : Stage D F}
  (hslot : ∀ fiber s, slot fiber = some s → slot' fiber = some s)
  (hcame : ∀ id fiber, came id fiber → came' id fiber)

theorem Joined.map_slot (h : Joined slot fibers done todo) :
    fibers.map slot = (done.map Prod.snd).map (fun v => some (.ok v)) ++ todo.map slot := by
  rw [← h.fibers, List.map_append, List.map_map, List.map_map]
  exact congrArg (· ++ _) (List.map_congr_left h.slots)

theorem Joined.decides_values (h : Joined slot fibers done []) (value : Ty) :
    Decides value (fibers.map slot)
      (.settled (.ok (.list value (.ofList (done.map Prod.snd))))) :=
  .values (h.map_slot.trans (List.append_nil _))

theorem Joined.decides_first {fiber : PromiseId} {s : Slot D F}
    (h : Joined slot fibers done (fiber :: todo)) (value : Ty) (hslot : slot fiber = some s)
    (hs : ∀ v, s ≠ .ok v) : Decides value (fibers.map slot) s.exit :=
  .first (by rw [h.map_slot, List.map_cons, hslot]) hs

theorem Joined.mem {fiber : PromiseId} (h : Joined slot fibers done (fiber :: todo)) :
    fiber ∈ fibers := by
  simp [← h.fibers]

theorem Joined.snoc {fiber : PromiseId} {v : Value D F}
    (h : Joined slot fibers done (fiber :: todo)) (hv : slot fiber = some (.ok v)) :
    Joined slot fibers (done ++ [(fiber, v)]) todo where
  fibers := by simpa using h.fibers
  slots d hd := by
    rcases List.mem_append.1 hd with hd | hd
    · exact h.slots d hd
    · obtain rfl := List.mem_singleton.1 hd
      exact hv

include hslot

theorem gather_mono {exit : Exit (Outcome D F)} (fibers : List PromiseId) (vs : List (Value D F))
    (h : gather value vs (fibers.map slot) = some exit) :
    gather value vs (fibers.map slot') = some exit := by
  induction fibers generalizing vs with
  | nil => exact h
  | cons fiber fibers ih =>
      rw [List.map_cons] at h ⊢
      cases hs : slot fiber with
      | none => simp [hs, gather] at h
      | some s =>
          rw [hs] at h
          rw [hslot fiber s hs]
          cases s with
          | ok v => exact ih _ h
          | err v => exact h
          | panicked report => exact h

theorem Decides.mono {exit : Exit (Outcome D F)} (h : Decides value (fibers.map slot) exit) :
    Decides value (fibers.map slot') exit :=
  gather_eq_some_iff.1 (gather_mono hslot fibers [] (gather_eq_some_iff.2 h))

theorem Joined.mono (h : Joined slot fibers done todo) : Joined slot' fibers done todo where
  fibers := h.fibers
  slots d hd := hslot d.1 _ (h.slots d hd)

include hcame

theorem Joining.mono {fiber : PromiseId} {frames : List (Frame D F)}
    (h : Joining value error slot came fiber frames k stage) :
    Joining value error slot' came' fiber frames k stage := by
  cases h with
  | opening => exact .opening
  | coming => exact .coming
  | submitting h => exact .submitting (hcame _ _ h)
  | leaving h => exact .leaving (hcame _ _ h)
  | parked h => exact .parked (hcame _ _ h)
  | resuming h => exact .resuming (hslot _ _ h)
  | reading h => exact .reading (hslot _ _ h)

theorem Gathering.mono (h : Gathering value error rest slot came fibers k stage) :
    Gathering value error rest slot' came' fibers k stage := by
  cases h with
  | forked => exact .forked
  | collecting hjoined h => exact .collecting (hjoined.mono hslot) h
  | joining hjoined h => exact .joining (hjoined.mono hslot) (h.mono hslot hcame)
  | failing h hframes => exact .failing (h.mono hslot) hframes

end Mono

section Step

variable {value error : Ty} {rest : List (Frame D F)} {slot : PromiseId → Option (Slot D F)}
  {came : HandoffId → PromiseId → Prop} {fibers : List PromiseId} {k : Nat}

theorem plan_unslot (value error : Ty) (s : Slot D F) :
    (Bind.unslot value error).plan (.slot value error s) =
      match s.read with
      | .ok outcome => .settled outcome
      | .error payload => .raise payload := by
  rw [Bind.plan]
  exact Value.expect_of_ty rfl

theorem step_unslot (value error : Ty) (s : Slot D F) (frames : List (Frame D F)) :
    (settle (.settled (.ok (.slot value error s))) (.bind (.unslot value error) :: frames)).step =
      .next (settle s.exit frames) := by
  simp only [Interpretation.step_settled_cons, Frame.plan, plan_unslot]
  cases s <;> rfl

theorem deeds_unslot (value error : Ty) (s : Slot D F) (frames : List (Frame D F)) :
    (settle (.settled (.ok (.slot value error s))) (.bind (.unslot value error) :: frames)).deeds =
      [.pop (.bind (.unslot value error)),
        .call (.bind (.unslot value error) (.slot value error s))] := by
  simp only [settle, Interpretation.deeds, Frame.call?, Frame.plan, plan_unslot]
  cases s <;> rfl

theorem plan_flatten (value error : Ty) (x : Node D F) :
    (Bind.flatten value error).plan (.effect value error x) = .answer (.run x) := by
  rw [Bind.plan]
  exact Value.expect_of_ty rfl

/-- A value that is an effect is flattened to the run of this effect. -/
theorem step_flatten (value error : Ty) (x : Node D F) (frames : List (Frame D F)) :
    (settle (.settled (.ok (.effect value error x)))
        (.bind (.flatten value error) :: frames)).step =
      .next ⟨.node x, frames⟩ := by
  simp only [Interpretation.step_settled_cons, Frame.plan, plan_flatten]
  rfl

theorem step_sequence (value error : Ty) (nodes : List (Node D F)) (rest : List (Frame D F)) :
    (settle (.settled (.ok (.list (.effect value error)
      (.ofList (nodes.map (.effect value error)))))) (.bind (.sequence value error) :: rest)).step =
      .next ⟨.node (.sequence value nodes), rest⟩ := by
  have hplan : (Bind.sequence value error).plan (.list (.effect value error)
      (.ofList (nodes.map (.effect value error)))) =
      .answer (.run (.sequence value nodes)) := by
    have hty : (Value.list (.effect value error)
        (.ofList (nodes.map (.effect value error)))).ty = .list (.effect value error) := rfl
    rw [Bind.plan, Value.expect_of_ty hty]
    simp only [Items.nodesOnto?_ofList]
  simp only [Interpretation.step_settled_cons, Frame.plan, hplan]
  rfl

/-- The exit that the slots decide is what an interpretation goes on with, above the continuations
that are pending when the traversal starts. -/
def Gathered (value : Ty) (rest : List (Frame D F)) (slot : PromiseId → Option (Slot D F))
    (fibers : List PromiseId) (i : Interpretation D F) : Prop :=
  ∃ exit, Decides value (fibers.map slot) exit ∧ i.Settles exit rest

/-- What has been read from a slot leads to the next item, or to the exit. -/
theorem Gathering.of_reading {done : List (PromiseId × Value D F)} {fiber : PromiseId}
    {todo : List PromiseId} {s : Slot D F} (hjoined : Joined slot fibers done (fiber :: todo))
    (hs : slot fiber = some s) (htypes : ∀ v, s = .ok v → v.ty = value) :
    (∃ k, k < 16 * (3 * todo.length + 2) ∧
        Gathering value error rest slot came fibers k (.driving (settle s.exit
          (adding value (done.map Prod.snd) (todo.map (.join value error)) rest)))) ∨
      Gathered value rest slot fibers (settle s.exit
        (adding value (done.map Prod.snd) (todo.map (.join value error)) rest)) := by
  have hframes : adding value (done.map Prod.snd) (todo.map (.join value error)) rest =
      (.resume (.append value (.ofList (done.map Prod.snd))) ::
        collects value (todo.map (.join value error))) ++ rest := rfl
  cases s with
  | ok v =>
      have hnext := @Collecting.adding D F value rest (done.map Prod.snd) v
        (todo.map (.join value error)) (htypes v rfl)
      have hvs : done.map Prod.snd ++ [v] = (done ++ [(fiber, v)]).map Prod.snd := by simp
      rw [hvs, List.length_map] at hnext
      exact .inl ⟨_, by omega, .collecting (hjoined.snoc hs) hnext⟩
  | err v =>
      rw [hframes]
      refine .inl ⟨_, ?_, .failing (hjoined.decides_first value hs (by simp)) (by simp [collects])⟩
      simp only [collects, List.length_map]
      omega
  | panicked report =>
      rw [hframes]
      exact .inr ⟨_, hjoined.decides_first value hs (by simp), .panicked⟩

theorem Gathering.ne_asking {stage : Stage D F}
    (h : Gathering value error rest slot came fibers k stage)
    (post : Post D F) (frames : List (Frame D F)) : stage ≠ .asking post frames := by
  cases h with
  | joining _ h => cases h <;> simp
  | _ => simp

/-- A traversal goes on by itself, or comes to its exit, unless it joins a fiber. -/
theorem Gathering.next_or_joins {stage : Stage D F}
    (h : Gathering value error rest slot came fibers k stage) :
    (∃ i j, stage = .driving i ∧ i.step = .next j ∧
        ((∃ k', k' < k ∧ Gathering value error rest slot came fibers k' (.driving j)) ∨
          Gathered value rest slot fibers j)) ∨
      ∃ done fiber todo k', k = 16 * (3 * todo.length + 2) + k' ∧
        Joined slot fibers done (fiber :: todo) ∧
          Joining value error slot came fiber
            (adding value (done.map Prod.snd) (todo.map (.join value error)) rest) k' stage := by
  cases h with
  | forked =>
      have hstep := step_sequence value error (fibers.map (.join value error)) rest
      have hopening := Collecting.start value rest (fibers.map (.join value error))
      have hjoined : Joined slot fibers [] fibers := ⟨rfl, by simp⟩
      rw [List.map_map] at hstep
      refine .inl ⟨_, _, rfl, hstep, .inl ⟨_, ?_, .collecting hjoined hopening⟩⟩
      rw [List.length_map]
      omega
  | @collecting done todo k i hjoined h =>
      rcases h.step with ⟨j, k', hk, hstep, hnext⟩ | ⟨htodo, hstep⟩ | ⟨x, todo', htodo, rfl, rfl⟩
      · exact .inl ⟨i, j, rfl, hstep, .inl ⟨_, by omega, .collecting hjoined hnext⟩⟩
      · obtain rfl := List.map_eq_nil_iff.1 htodo
        exact .inl ⟨i, _, rfl, hstep, .inr ⟨_, hjoined.decides_values value, .refl⟩⟩
      · obtain ⟨fiber, todo, rfl, rfl, rfl⟩ := List.map_eq_cons_iff.1 htodo
        refine .inl ⟨_, _, rfl, rfl, .inl ⟨_, ?_, .joining hjoined .coming⟩⟩
        rw [List.length_map]
        omega
  | joining hjoined h => exact .inr ⟨_, _, _, _, rfl, hjoined, h⟩
  | @failing frame frames v h hframes =>
      have hstep : (settle (.settled (.error v)) (frame :: frames ++ rest)).step =
          .next (settle (.settled (.error v)) (frames ++ rest)) := by
        cases frame with
        | bind b => rfl
        | resume r => rfl
        | reify reify => exact absurd rfl (hframes _ List.mem_cons_self reify)
      refine .inl ⟨_, _, rfl, hstep, ?_⟩
      cases frames with
      | nil => exact .inr ⟨_, h, .refl⟩
      | cons next frames =>
          exact .inl ⟨_, Nat.lt_succ_self _,
            .failing h fun f hf => hframes f (List.mem_cons_of_mem _ hf)⟩

end Step

end Trampoline
