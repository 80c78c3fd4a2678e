import Trampoline.Proofs.Keeping

/-!
What turns pass on. Whatever a turn names has been named by the task that took it or by a scheduler,
can be got hold of from there through objects, or has been made by the turn; and nothing else is put
into objects.
-/

namespace Trampoline

namespace Heap

variable {D F : Type} {heap heap' heap'' : Heap D F} {named : Ref → Prop} {x y : Ref}

/-- What can be got hold of from named objects. -/
inductive Known (heap : Heap D F) (named : Ref → Prop) : Ref → Prop where
  | here {x : Ref} : named x → Known heap named x
  | shown {x y : Ref} : Known heap named y → heap.Names y x → Known heap named x

/-- An object is made that is no sender. -/
def Makes (heap heap' : Heap D F) (x : Ref) : Prop :=
  ¬heap.Has x ∧ heap'.Has x ∧ ∀ id, x ≠ .sender id

def Yields (heap heap' : Heap D F) (named : Ref → Prop) (x : Ref) : Prop :=
  heap.Known named x ∨ heap.Makes heap' x

theorem Known.mono {named' : Ref → Prop} (h : heap.Known named x)
    (hnamed : ∀ x, named x → heap.Known named' x) : heap.Known named' x := by
  induction h with
  | here hx => exact hnamed _ hx
  | shown _ hnames ih => exact .shown ih hnames

theorem Yields.mono (h : heap.Yields heap' named x) (hhas : ∀ x, heap'.Has x → heap''.Has x) :
    heap.Yields heap'' named x :=
  h.imp_right fun ⟨hnot, hnew, hsender⟩ => ⟨hnot, hhas _ hnew, hsender⟩

theorem Yields.here (h : named x) : heap.Yields heap' named x := .inl (.here h)

theorem Yields.shown (h : named y) (hnames : heap.Names y x) : heap.Yields heap' named x :=
  .inl (.shown (.here h) hnames)

/-- A heap becomes another one, in which objects name what they have named, and what can be got hold
of. -/
structure Passes (heap : Heap D F) (named : Ref → Prop) (heap' : Heap D F) : Prop where
  has {x : Ref} : heap.Has x → heap'.Has x
  names {x y : Ref} : heap'.Names y x → heap.Names y x ∨ heap.Yields heap' named x
  schedulers {s : Scheduler F} {x : Ref} :
    s ∈ heap'.schedulers → s.Names x → ∃ s' ∈ heap.schedulers, s'.Names x

namespace Passes

theorem refl (heap : Heap D F) (named : Ref → Prop) : heap.Passes named heap :=
  ⟨id, .inl, fun hs hx => ⟨_, hs, hx⟩⟩

/-- A further change of the heap that leaves the objects as they are, or makes one of them name what
is passed on. -/
theorem after (h : heap.Passes named heap') (hhas : ∀ x, heap'.Has x → heap''.Has x)
    (hnames : ∀ {x y}, heap''.Names y x → heap'.Names y x ∨ heap.Yields heap' named x)
    (hschedulers : heap''.schedulers = heap'.schedulers) : heap.Passes named heap'' where
  has hx := hhas _ (h.has hx)
  names hx := by
    rcases hnames hx with hold | hyields
    · exact (h.names hold).imp_right fun hyields => hyields.mono hhas
    · exact .inr (hyields.mono hhas)
  schedulers hs hx := h.schedulers (hschedulers ▸ hs) hx

theorem emit (h : heap.Passes named heap') (event : Event) : heap.Passes named (heap'.emit event) :=
  h.after (fun x hx => by cases x <;> exact hx) (fun {x y} hx => .inl (by cases y <;> exact hx)) rfl

theorem print (h : heap.Passes named heap') (line : String) :
    heap.Passes named (heap'.print line) :=
  h.after (fun x hx => by cases x <;> exact hx) (fun {x y} hx => .inl (by cases y <;> exact hx)) rfl

theorem modifyScheduler (heap : Heap D F) (named : Ref → Prop) (id : SchedulerId)
    {change : Scheduler F → Scheduler F} (hchange : ∀ s x, (change s).Names x → s.Names x) :
    heap.Passes named (heap.modifyScheduler id change) where
  has {x} h := by cases x <;> exact h
  names {x y} h := .inl (by cases y <;> exact h)
  schedulers {s x} hs hx := by
    obtain ⟨i, hi⟩ := Array.mem_iff_getElem?.1 hs
    simp only [Heap.modifyScheduler, Array.getElem?_modify] at hi
    split at hi
    · obtain ⟨s', hs', rfl⟩ := Option.map_eq_some_iff.1 hi
      exact ⟨s', Array.mem_of_getElem? hs', hchange s' x hx⟩
    · exact ⟨s, Array.mem_of_getElem? hi, hx⟩

end Passes

section Objects

variable {α : Type} {xs : Array α} {i j : Nat} {a b : α}

theorem eq_of_set (h : (xs.setIfInBounds i a)[j]? = some b) : xs[j]? = some b ∨ b = a := by
  rw [Array.getElem?_setIfInBounds] at h
  split at h
  · split at h
    · exact .inr (Option.some.inj h).symm
    · contradiction
  · exact .inl h

theorem eq_of_push (h : (xs.push a)[j]? = some b) : xs[j]? = some b ∨ b = a := by
  rw [Array.getElem?_push] at h
  split at h
  · exact .inr (Option.some.inj h).symm
  · exact .inl h

end Objects

namespace Passes

theorem setHandoff (h : heap.Passes named heap') {id : HandoffId} {handoff : Handoff D F}
    (hnames : ∀ x, handoff.Names x → heap.Yields heap' named x) :
    heap.Passes named (heap'.setHandoff id handoff) := by
  refine h.after (fun x hx => by cases x <;> simpa [Has, Heap.setHandoff] using hx)
    (fun {x y} hx => ?_) rfl
  cases y with
  | handoff id' =>
      obtain ⟨handoff', hid, hx⟩ := hx
      rcases eq_of_set hid with hold | rfl
      · exact .inl ⟨handoff', hold, hx⟩
      · exact .inr (hnames x hx)
  | _ => exact .inl hx

theorem setPromise (h : heap.Passes named heap') {id : PromiseId} {p : Promise D F}
    (hnames : ∀ x, p.Names x → heap.Yields heap' named x) :
    heap.Passes named (heap'.setPromise id p) := by
  refine h.after (fun x hx => by cases x <;> simpa [Has, Heap.setPromise] using hx)
    (fun {x y} hx => ?_) rfl
  cases y with
  | promise id' =>
      obtain ⟨p', hid, hx⟩ := hx
      rcases eq_of_set hid with hold | rfl
      · exact .inl ⟨p', hold, hx⟩
      · exact .inr (hnames x hx)
  | _ => exact .inl hx

theorem setChannel (h : heap.Passes named heap') {id : ChannelId} {c : Channel D F}
    (hnames : ∀ x, c.Names x → heap.Yields heap' named x) :
    heap.Passes named (heap'.setChannel id c) := by
  refine h.after (fun x hx => by cases x <;> simpa [Has, Heap.setChannel] using hx)
    (fun {x y} hx => ?_) rfl
  cases y with
  | receiver id' =>
      obtain ⟨c', hid, hx⟩ := hx
      rcases eq_of_set hid with hold | rfl
      · exact .inl ⟨c', hold, hx⟩
      · exact .inr (hnames x hx)
  | _ => exact .inl hx

theorem setFuture (h : heap.Passes named heap') {id : FutureId} {future : Future D F}
    (hnames : ∀ x, future.Names x → heap.Yields heap' named x) :
    heap.Passes named (heap'.setFuture id future) := by
  refine h.after (fun x hx => by cases x <;> simpa [Has, Heap.setFuture] using hx)
    (fun {x y} hx => ?_) rfl
  cases y with
  | future id' =>
      obtain ⟨future', hid, hx⟩ := hx
      rcases eq_of_set hid with hold | rfl
      · exact .inl ⟨future', hold, hx⟩
      · exact .inr (hnames x hx)
  | _ => exact .inl hx

theorem send (heap : Heap D F) {id : ChannelId} {exit : Exit (Outcome D F)}
    (hnames : ∀ x, exit.Names x → heap.Known named x) :
    heap.Passes named (heap.send id exit) where
  has {x} hx := by cases x <;> simpa [Has, Heap.send] using hx
  names {x y} hx := by
    cases y with
    | receiver id' =>
        obtain ⟨c, hid, hx⟩ := hx
        simp only [Heap.send, Array.getElem?_modify] at hid
        split at hid
        · obtain ⟨c', hc', rfl⟩ := Option.map_eq_some_iff.1 hid
          cases c' with
          | empty => exact .inr (.inl (hnames x hx))
          | full exit' => exact .inl ⟨_, hc', hx⟩
          | closed => exact hx.elim
        · exact .inl ⟨c, hid, hx⟩
    | _ => exact .inl hx
  schedulers hs hx := ⟨_, hs, hx⟩

theorem newHandoff (heap : Heap D F) (named : Ref → Prop) (t : ThreadId) :
    heap.Passes named (heap.newHandoff t).1 where
  has {x} hx := by
    cases x <;> simp only [Has, Heap.newHandoff, Array.size_push] at hx ⊢
    all_goals first | exact hx | exact Nat.lt_succ_of_lt hx
  names {x y} hx := by
    cases y with
    | handoff id =>
        obtain ⟨h, hid, hx⟩ := hx
        rcases eq_of_push hid with hold | rfl
        · exact .inl ⟨h, hold, hx⟩
        · exact hx.elim
    | _ => exact .inl hx
  schedulers hs hx := ⟨_, hs, hx⟩

theorem newPromise (heap : Heap D F) (named : Ref → Prop) (ty : Ty) :
    heap.Passes named (heap.newPromise ty).1 where
  has {x} hx := by
    cases x <;> simp only [Has, Heap.newPromise, Array.size_push] at hx ⊢
    all_goals first | exact hx | exact Nat.lt_succ_of_lt hx
  names {x y} hx := by
    cases y with
    | promise id =>
        obtain ⟨p, hid, hx⟩ := hx
        rcases eq_of_push hid with hold | rfl
        · exact .inl ⟨p, hold, hx⟩
        · simp [Promise.empty] at hx
    | _ => exact .inl hx
  schedulers hs hx := ⟨_, hs, hx⟩

theorem newChannel (heap : Heap D F) (named : Ref → Prop) :
    heap.Passes named heap.newChannel.1 where
  has {x} hx := by
    cases x <;> simp only [Has, Heap.newChannel, Array.size_push] at hx ⊢
    all_goals first | exact hx | exact Nat.lt_succ_of_lt hx
  names {x y} hx := by
    cases y with
    | receiver id =>
        obtain ⟨c, hid, hx⟩ := hx
        rcases eq_of_push hid with hold | rfl
        · exact .inl ⟨c, hold, hx⟩
        · exact hx.elim
    | _ => exact .inl hx
  schedulers hs hx := ⟨_, hs, hx⟩

theorem newFuture (heap : Heap D F) {node : Node D F} (hnode : ∀ x ∈ node.kept, named x) :
    heap.Passes named (heap.newFuture node).1 where
  has {x} hx := by
    cases x <;> simp only [Has, Heap.newFuture, Array.size_push] at hx ⊢
    all_goals first | exact hx | exact Nat.lt_succ_of_lt hx
  names {x y} hx := by
    cases y with
    | future id =>
        obtain ⟨future, hid, hx⟩ := hx
        rcases eq_of_push hid with hold | rfl
        · exact .inl ⟨future, hold, hx⟩
        · exact .inr (.here (hnode x hx))
    | _ => exact .inl hx
  schedulers hs hx := ⟨_, hs, hx⟩

end Passes

theorem makes_newHandoff (heap : Heap D F) (t : ThreadId) :
    heap.Makes (heap.newHandoff t).1 (.handoff heap.handoffs.size) := by
  simp [Makes, Has, newHandoff]

theorem makes_newPromise (heap : Heap D F) (ty : Ty) :
    heap.Makes (heap.newPromise ty).1 (.promise heap.promises.size) := by
  simp [Makes, Has, newPromise]

theorem makes_newChannel (heap : Heap D F) :
    heap.Makes heap.newChannel.1 (.receiver heap.channels.size) := by
  simp [Makes, Has, newChannel]

theorem makes_newFuture (heap : Heap D F) (node : Node D F) :
    heap.Makes (heap.newFuture node).1 (.future heap.futures.size) := by
  simp [Makes, Has, newFuture]

end Heap

variable {H : Host} {heap heap' : Heap H.Data H.Fn} {named : Ref → Prop} {x : Ref} {here : Here}
  {stack : List (Return H)}

/-- What a turn names, and what it puts into objects, has been named, can be got hold of from there,
or has been made by the turn. -/
structure Turn.Keeps (heap : Heap H.Data H.Fn) (named : Ref → Prop) (turn : Turn H) : Prop where
  passes : heap.Passes named turn.heap
  names {x : Ref} : turn.Names x → heap.Yields turn.heap named x

namespace Turn.Keeps

variable {task next woken missed : Task H} {v : Value H.Data H.Fn} {back : Return H}

theorem ret (h : heap.Passes named heap') (hv : ∀ x ∈ v.kept, heap.Yields heap' named x) :
    (Turn.ret (H := H) heap' v).Keeps heap named :=
  ⟨h, fun {x} hx => hv x (by simpa [Turn.ret, Turn.Names] using hx)⟩

theorem raise (h : heap.Passes named heap') (payload : Payload) :
    (Turn.raise (H := H) heap' payload).Keeps heap named :=
  ⟨h, fun {x} hx => by simp [Turn.raise, Turn.Names] at hx⟩

theorem run (h : heap.Passes named heap') (htask : ∀ x, task.Names x → heap.Yields heap' named x) :
    (Turn.run heap' task).Keeps heap named :=
  ⟨h, fun {x} hx => htask x (by simpa [Turn.run, Turn.Names] using hx)⟩

theorem call (h : heap.Passes named heap') (htask : ∀ x, task.Names x → heap.Yields heap' named x)
    (hback : ∀ x, back.Names x → heap.Yields heap' named x) :
    (Turn.call heap' task back).Keeps heap named := by
  refine ⟨h, fun {x} hx => ?_⟩
  rcases (by simpa [Turn.call, Turn.Names] using hx : task.Names x ∨ back.Names x) with hx | hx
  · exact htask x hx
  · exact hback x hx

theorem seq (h : heap.Passes named heap') (htask : ∀ x, task.Names x → heap.Yields heap' named x)
    (hnext : ∀ x, next.Names x → heap.Yields heap' named x) :
    (Turn.seq heap' task next).Keeps heap named := .call h htask hnext

theorem discard (h : heap.Passes named heap')
    (htask : ∀ x, task.Names x → heap.Yields heap' named x) :
    (Turn.discard heap' task).Keeps heap named :=
  .seq h htask fun x hx => by simp [Value.kept] at hx

theorem sleep (h : heap.Passes named heap') (wait : Wait H)
    (hwoken : ∀ x, woken.Names x → heap.Yields heap' named x)
    (hmissed : ∀ x, missed.Names x → heap.Yields heap' named x) :
    (Turn.sleep heap' wait woken missed).Keeps heap named := by
  refine ⟨h, fun {x} hx => ?_⟩
  rcases (by simpa [Turn.sleep, Turn.Names] using hx : woken.Names x ∨ missed.Names x) with hx | hx
  · exact hwoken x hx
  · exact hmissed x hx

end Turn.Keeps

open Heap (Yields)

theorem Ask.turn_keeps {question : Ask H.Data H.Fn} (hnamed : ∀ x, question.Names x → named x) :
    (question.turn (H := H) here heap).Keeps heap named := by
  have hrefl := Heap.Passes.refl heap named
  cases question with
  | call f args => exact .run hrefl fun x hx => .here (hnamed x hx)
  | fork value error source scheduler =>
      refine .seq (.newPromise heap named _) (fun x hx => ?_) fun x hx => ?_
      · simp only [Task.Names, Work.kept, Kept.mem_union, Finish.mem_kept] at hx
        rcases hx with hx | hx | hx
        · exact .here (hnamed x hx)
        · exact .inr (hx ▸ heap.makes_newPromise _)
        · exact hx.elim
      · simp [Value.kept, Node.join, Node.kept, Register.kept, Bind.kept] at hx
        exact .inr (hx ▸ heap.makes_newPromise _)
  | print line => exact .ret (hrefl.print line) fun x hx => by simp [Value.kept] at hx
  | threadName => exact .ret hrefl fun x hx => by simp [Value.kept] at hx
  | emit event => exact .ret (hrefl.emit event) fun x hx => by simp [Value.kept] at hx
  | clock event => exact .ret (hrefl.emit event) fun x hx => by simp [Value.kept] at hx

/-- A turn that starts to interpret a node. -/
theorem Turn.yields_start {node : Node H.Data H.Fn} {finish : Finish H.Fn}
    (hnode : ∀ x ∈ node.kept, heap.Yields heap' named x)
    (hfinish : ∀ x, finish.Names x → heap.Yields heap' named x) (x : Ref)
    (hx : (Task.drive (H := H) (.start node) ∅ finish).Names x) : heap.Yields heap' named x := by
  rcases hx with hx | hx
  · simp [Interpretation.start, Interpretation.Names, Interpretation.latest] at hx
    exact hnode x hx
  · exact hfinish x hx

theorem Heap.yields_unit (x : Ref) (hx : x ∈ (Value.unit : Value H.Data H.Fn).kept) :
    heap.Yields heap' named x := by
  simp [Value.kept] at hx

theorem Request.turn_keeps {q : Request H.Data H.Fn} (hnamed : ∀ x, q.Names x → named x) :
    (q.turn (H := H) stack heap).Keeps heap named := by
  have hrefl := Heap.Passes.refl heap named
  have hq {heap' : Heap H.Data H.Fn} {x : Ref} (hx : q.Names x) : heap.Yields heap' named x :=
    .here (hnamed x hx)
  cases q with
  | runBlocking value error node =>
      exact .seq (.newChannel heap named)
        (Turn.yields_start (fun x hx => hq (by simpa [Names, refs] using hx)) fun _ hx => hx.elim)
        fun x hx => .inr (hx ▸ heap.makes_newChannel)
  | runWith value error node target =>
      exact .discard hrefl (Turn.yields_start (fun x hx => hq (by simp [Names, refs, hx]))
        fun x hx => hq (by simpa [Names, refs] using Or.inr hx))
  | runFiber value error node scheduler =>
      refine .seq (.newPromise heap named _) (fun x hx => ?_) fun x hx => ?_
      · simp only [Task.Names, Work.kept, Kept.mem_union, Finish.mem_kept] at hx
        rcases hx with hx | hx | hx
        · exact hq (by simpa [Names, refs] using hx)
        · exact .inr (hx ▸ heap.makes_newPromise _)
        · exact hx.elim
      · simp [Value.kept] at hx
        exact .inr (hx ▸ heap.makes_newPromise _)
  | runAsync value error node =>
      refine .ret (.newFuture heap fun x hx => hnamed x (by simpa [Names, refs] using hx))
        fun x hx => ?_
      simp [Value.kept] at hx
      exact .inr (hx ▸ heap.makes_newFuture node)
  | poll value error future =>
      have hfuture : named (.future future) := hnamed _ (by simp [Names, refs])
      have habsent (x : Ref) (hx : x ∈ (Value.absent (.result value error) :
          Value H.Data H.Fn).kept) : heap.Yields heap named x := by simp [Value.kept] at hx
      simp only [turn]
      split
      next node hfresh =>
        have hmakes : heap.Yields heap.newChannel.1 named (.receiver heap.channels.size) :=
          .inr heap.makes_newChannel
        have hhas (x : Ref) (hx : heap.newChannel.1.Has x) :
            (heap.newChannel.1.setFuture future (.running heap.channels.size)).Has x := by
          cases x <;> simpa [Heap.Has, Heap.setFuture] using hx
        refine .call ((Heap.Passes.newChannel heap named).setFuture fun x hx => hx ▸ hmakes)
          (Turn.yields_start (fun x hx => .shown hfuture ⟨_, hfresh, hx⟩) fun _ hx => hx.elim)
          fun x hx => ?_
        rcases hx with rfl | rfl
        · exact .here hfuture
        · exact hmakes.mono hhas
      next channel hrunning =>
        refine .run hrefl fun x hx => ?_
        rcases hx with rfl | rfl
        · exact .here hfuture
        · exact .shown hfuture ⟨_, hrunning, rfl⟩
      next => exact .ret hrefl habsent
      next => exact .raise hrefl _
      next => exact .ret hrefl habsent
  | dropFuture future =>
      simp only [turn]
      split
      next channel hrunning =>
        have hclosed : heap.Passes named (heap.setChannel channel .closed) :=
          hrefl.setChannel fun _ hx => hx.elim
        exact .ret (hclosed.setFuture fun _ hx => hx.elim) Heap.yields_unit
      next => exact .ret (hrefl.setFuture fun _ hx => hx.elim) Heap.yields_unit
  | blockOn value error node =>
      simp only [turn]
      split
      · exact .raise hrefl _
      · refine ⟨.newChannel heap named, fun {x} hx => ?_⟩
        simp only [Turn.Names, Control.Names, List.mem_cons, List.not_mem_nil, or_false,
          exists_eq_or_imp, exists_eq_left, reduceCtorEq, false_and, exists_false] at hx
        rcases hx with hx | hx | hx
        · exact Turn.yields_start (fun x hx => hq (by simpa [Names, refs] using hx))
            (fun x (hx : Finish.Names (.channel value error _) x) => hx.elim) x hx
        · exact .inr (hx ▸ heap.makes_newChannel)
        · exact hx.elim
  | complete target outcome =>
      exact .discard hrefl fun x hx => hq (by simpa [Names, refs] using hx)
  | newPromise ty =>
      refine .ret (.newPromise heap named ty) fun x hx => ?_
      simp [Value.kept] at hx
      exact .inr (hx ▸ heap.makes_newPromise ty)
  | fill promise v => exact .run hrefl fun x hx => hq (by simpa [Names, refs] using hx)
  | await promise => exact .run hrefl fun x hx => hq (by simpa [Names, refs] using hx)
  | awaitFor promise nanoseconds =>
      simp only [turn]
      split
      · exact .run hrefl fun x hx => hq (by simpa [Names, refs] using hx)
      · exact .raise hrefl _
  | subscribe promise f =>
      exact .run hrefl fun x hx => hq (by simpa [Names, refs] using hx)
  | newFiber value error =>
      refine .ret (.newPromise heap named _) fun x hx => ?_
      simp [Value.kept] at hx
      exact .inr (hx ▸ heap.makes_newPromise _)
  | completedFiber value error outcome =>
      refine .seq (.newPromise heap named _) (fun x hx => ?_) fun x hx => ?_
      · rcases hx with rfl | hx
        · exact .inr (heap.makes_newPromise _)
        · exact hq (by simpa [Names, refs, Value.kept] using hx)
      · simp [Value.kept] at hx
        exact .inr (hx ▸ heap.makes_newPromise _)
  | fillFiber value error fiber outcome =>
      exact .call hrefl (fun x hx => hq (by simpa [Names, refs, Value.kept] using hx))
        fun _ hx => hx.elim
  | awaitFiber fiber =>
      exact .call hrefl (fun x hx => hq (by simpa [Names, refs] using hx)) fun _ hx => hx.elim
  | awaitFiberFor fiber nanoseconds =>
      simp only [turn]
      split
      · exact .call hrefl (fun x hx => hq (by simpa [Names, refs] using hx)) fun _ hx => hx.elim
      · exact .raise hrefl _
  | observe value error fiber target =>
      exact .run hrefl fun x hx => hq (by simpa [Names, refs] using hx)
  | submit scheduler work => exact .run hrefl fun x hx => hq (by simpa [Names, refs] using hx)
  | report scheduler failure => exact .run hrefl fun x hx => hx.elim
  | perform work => exact .run hrefl fun x hx => hq (by simpa [Names, refs] using hx)
  | spawn name f =>
      simp only [turn]
      split
      · exact .raise hrefl _
      · refine ⟨hrefl, fun {x} hx => ?_⟩
        simp [Turn.Names, Thread.starting, Thread.Names, Value.kept] at hx
        exact hq (by simpa [Names, refs] using hx)

-- The tasks that look at schedulers and objects.
namespace Task

theorem submitTurn_keeps {id : SchedulerId} {work : Work H.Data H.Fn}
    (hwork : ∀ x ∈ work.kept, named x)
    (hschedulers : ∀ s ∈ heap.schedulers, ∀ x, s.Names x → named x) :
    (submitTurn (H := H) heap id work).Keeps heap named := by
  have hrefl := Heap.Passes.refl heap named
  have hcounted : heap.Passes named (heap.modifyScheduler id .counted) := by
    refine .modifyScheduler heap named id fun s x hx => ?_
    cases s <;> exact hx
  have hperform {heap' : Heap H.Data H.Fn} (x : Ref) (hx : (perform (H := H) work).Names x) :
      heap.Yields heap' named x := .here (hwork x hx)
  have hborn {heap' : Heap H.Data H.Fn} {name : Option String}
      (hheap : heap.Passes named heap') : Turn.Keeps (H := H) heap named
        ⟨heap', [], .ret .unit, none, some (.starting name (.perform work) [.guarded id])⟩ := by
    refine ⟨hheap, fun {x} hx => ?_⟩
    simp [Turn.Names, Thread.starting, Thread.Names, Value.kept] at hx
    exact hperform x hx
  simp only [submitTurn]
  split
  next => exact .call hrefl hperform fun _ hx => hx.elim
  next => exact .call hcounted hperform fun _ hx => hx.elim
  next =>
    split
    · exact .raise hcounted _
    · split
      · exact .run hcounted fun _ hx => hx.elim
      · exact hborn hcounted
  next => exact hborn hrefl
  next f hook hid =>
    refine .discard hrefl fun x hx => ?_
    have hf (hx : x ∈ f.kept) : named x :=
      hschedulers _ (Array.mem_of_getElem? hid) x (.inl hx)
    simp [Value.kept] at hx
    rcases hx with hx | hx
    · exact .here (hf hx)
    · exact .here (hwork x hx)
  next => exact .ret hrefl Heap.yields_unit

theorem reportTurn_keeps {id : SchedulerId} {failure : WorkFailure}
    (hschedulers : ∀ s ∈ heap.schedulers, ∀ x, s.Names x → named x) :
    (reportTurn (H := H) heap id failure).Keeps heap named := by
  have hrefl := Heap.Passes.refl heap named
  simp only [reportTurn]
  split
  next s hid =>
    split
    next => exact .ret (hrefl.emit _) Heap.yields_unit
    next f hhook =>
      refine .discard hrefl fun x hx => ?_
      simp [Value.kept] at hx
      refine .here (hschedulers s (Array.mem_of_getElem? hid) x ?_)
      cases s with
      | threads name stackSize spawned hook =>
          obtain rfl := Option.some.inj hhook
          exact hx
      | pool hook =>
          obtain rfl := Option.some.inj hhook
          exact hx
      | custom submit hook =>
          obtain rfl := Option.some.inj hhook
          exact .inr hx
      | immediate => cases Option.some.inj hhook
      | recording submitted failures => cases hhook
    next =>
      refine .ret (.modifyScheduler heap named id fun s x hx => ?_) Heap.yields_unit
      cases s <;> exact hx
  next => exact .ret hrefl Heap.yields_unit

theorem names_of_restore {D F : Type} {value error : Ty} {exit : Exit (Outcome D F)}
    {outcome : Outcome D F} (h : exit.restore value error = .ok outcome)
    (hx : Outcome.Names outcome x) : exit.Names x := by
  unfold Exit.restore at h
  split at h
  · split at h
    · obtain rfl := Except.ok.inj h
      exact hx
    · contradiction
  · split at h
    · obtain rfl := Except.ok.inj h
      exact hx
    · contradiction
  · contradiction

theorem concludeTurn_keeps {exit : Exit (Outcome H.Data H.Fn)} {finish : Finish H.Fn}
    (hexit : ∀ x, exit.Names x → named x) (hfinish : ∀ x, finish.Names x → named x) :
    (concludeTurn (H := H) heap exit finish).Keeps heap named := by
  have hrefl := Heap.Passes.refl heap named
  cases finish with
  | callback value error target =>
      simp only [concludeTurn]
      split
      next outcome hrestore =>
        refine .run hrefl fun x hx => ?_
        rcases hx with hx | hx
        · exact .here (hfinish x hx)
        · exact .here (hexit x (names_of_restore hrestore hx))
      next => exact .raise hrefl _
  | channel value error channel =>
      simp only [concludeTurn]
      split
      · exact .ret (.send heap fun _ hx => hx.elim) Heap.yields_unit
      · split
        next outcome hrestore =>
          exact .ret (.send heap fun x hx => .here (hexit x (names_of_restore hrestore hx)))
            Heap.yields_unit
        next => exact .raise hrefl _
  | fiber value error fiber reporter =>
      simp only [concludeTurn]
      split
      · refine ⟨hrefl.emit _, fun {x} hx => ?_⟩
        simp [Turn.Names, Value.kept, Slot.kept] at hx
        exact .here (hfinish x hx)
      · split
        next outcome hrestore =>
          refine .discard hrefl fun x hx => ?_
          simp [Value.kept] at hx
          rcases hx with hx | hx
          · exact .here (hfinish x hx)
          · exact .here (hexit x (names_of_restore hrestore hx))
        next => exact .raise hrefl _

theorem deliverTurn_keeps {id : HandoffId} {exit : Exit (Outcome H.Data H.Fn)} {origin : Origin}
    (hid : named (.handoff id)) (hexit : ∀ x, exit.Names x → named x) :
    (deliverTurn (H := H) here heap id exit origin).Keeps heap named := by
  have hrefl := Heap.Passes.refl heap named
  have hdeliver (x : Ref) (hx : (deliver (H := H) id exit origin).Names x) :
      heap.Yields heap named x := by
    rcases hx with rfl | hx
    · exact .here hid
    · exact .here (hexit x hx)
  simp only [deliverTurn]
  split
  next => exact .ret hrefl Heap.yields_unit
  next handoff hhandoff =>
    obtain ⟨submitter, phase⟩ := handoff
    cases phase with
    | submitting =>
        simp only [Handoff.offer]
        split
        next hoffer =>
          split at hoffer
          · cases hoffer
          · exact .sleep hrefl _ hdeliver hdeliver
        next hoffer =>
          split at hoffer
          · obtain ⟨rfl, -⟩ := Prod.mk.inj hoffer
            exact .ret (hrefl.setHandoff fun x hx => .here (hexit x hx)) Heap.yields_unit
          · cases hoffer
        next hoffer => split at hoffer <;> cases hoffer
        next hoffer => split at hoffer <;> cases hoffer
    | parked frames finish =>
        refine .run (hrefl.setHandoff fun _ hx => hx.elim) fun x hx => ?_
        rcases hx with hx | hx
        · exact .here (hexit x hx)
        · exact .shown hid ⟨_, hhandoff, hx⟩
    | early exit' =>
        simp only [Handoff.offer]
        split
        · exact .raise hrefl _
        · exact .ret (hrefl.emit _) Heap.yields_unit
    | resumed =>
        simp only [Handoff.offer]
        split
        · exact .raise hrefl _
        · exact .ret (hrefl.emit _) Heap.yields_unit

theorem parkTurn_keeps {id : HandoffId} {frames : List (Frame H.Data H.Fn)} {last : Kept}
    {finish : Finish H.Fn} (hnamed : ∀ x, (park (H := H) id frames last finish).Names x → named x) :
    (parkTurn (H := H) heap id frames last finish).Keeps heap named := by
  have hrefl := Heap.Passes.refl heap named
  have hid : named (.handoff id) := hnamed _ (.inl rfl)
  have hparked (submitter : ThreadId) : Turn.Keeps (H := H) heap named
      ⟨(heap.emit (.parking frames.length)).setHandoff id ⟨submitter, .parked frames finish⟩, [],
        .ret .unit, some (.handoff id), none⟩ := by
    refine ⟨(hrefl.emit _).setHandoff fun x hx => .here (hnamed x (.inr ?_)), fun {x} hx => ?_⟩
    · exact hx.imp_right .inr
    · simp [Turn.Names, Value.kept] at hx
  simp only [parkTurn]
  split
  next => exact .ret hrefl Heap.yields_unit
  next handoff hhandoff =>
    obtain ⟨submitter, phase⟩ := handoff
    cases phase with
    | early exit =>
        refine .run (hrefl.setHandoff fun _ hx => hx.elim) fun x hx => ?_
        rcases hx with (hx | hx | ⟨_, hfocus, hx⟩) | hx
        · exact .here (hnamed x (.inr (.inl hx)))
        · exact .here (hnamed x (.inr (.inr (.inl hx))))
        · obtain rfl := Focus.exit.inj hfocus
          exact .shown hid ⟨_, hhandoff, hx⟩
        · exact .here (hnamed x (.inr (.inr (.inr hx))))
    | submitting => exact hparked submitter
    | parked frames' finish' => exact hparked submitter
    | resumed => exact hparked submitter

theorem driveTurn_keeps {i : Interpretation H.Data H.Fn} {last : Kept} {finish : Finish H.Fn}
    (hi : ∀ x, i.Names last x → named x) (hfinish : ∀ x, finish.Names x → named x) :
    (driveTurn (H := H) here heap i last finish).Keeps heap named := by
  have hrefl := Heap.Passes.refl heap named
  have hstep {x : Ref} (hx : i.step.Names (i.latest last) x) : named x :=
    hi x (Interpretation.names_of_step hx)
  have hlatest {x : Ref} (hx : x ∈ i.latest last) : named x := hi x (.inr (.inl hx))
  simp only [driveTurn]
  split
  next j hj =>
    rw [hj] at hstep
    refine .run hrefl fun x hx => ?_
    rcases hx with hx | hx
    · exact .here (hstep hx)
    · exact .here (hfinish x hx)
  next question post frames hask =>
    rw [hask] at hstep
    refine .call hrefl (fun x hx => .here (hstep (.inl hx))) fun x hx => .here ?_
    rcases hx with hx | hx | hx | hx | hx
    · exact hstep (.inr (.inl hx))
    · exact hstep (.inr (.inr hx))
    · exact hlatest hx
    · exact hi x (Interpretation.names_of_applied hx)
    · exact hfinish x hx
  next register scheduler frames hsuspend =>
    rw [hsuspend] at hstep
    have hmakes : heap.Yields (heap.newHandoff here.thread).1 named
        (.handoff heap.handoffs.size) := .inr (heap.makes_newHandoff _)
    refine .seq (.newHandoff heap named _) (fun x hx => ?_) fun x hx => ?_
    · simp only [Names, Work.kept, Kept.mem_union, Kept.mem_singleton] at hx
      rcases hx with hx | hx
      · exact .here (hstep (.inl hx))
      · exact hx ▸ hmakes
    · rcases hx with rfl | hx | hx | hx
      · exact hmakes
      · exact .here (hstep (.inr hx))
      · exact .here (hlatest hx)
      · exact .here (hfinish x hx)
  next exit hexit =>
    rw [hexit] at hstep
    refine .call hrefl (fun x hx => ?_) fun x hx => ?_
    · rcases hx with hx | hx
      · exact .here (hstep hx)
      · exact .here (hfinish x hx)
    · simp at hx
      rcases hx with hx | hx
      · exact .here (hi x (.inl hx))
      · exact .here (hlatest hx)

theorem registerTurn_keeps {register : Register H.Fn} {target : Callback H.Fn}
    (hregister : ∀ x ∈ register.kept, named x) (htarget : ∀ x ∈ target.kept, named x) :
    (registerTurn (H := H) heap target register).Keeps heap named := by
  have hrefl := Heap.Passes.refl heap named
  cases register with
  | user value error f =>
      refine .discard hrefl fun x hx => ?_
      simp [Value.kept] at hx
      rcases hx with hx | hx
      · exact .here (hregister x hx)
      · exact .here (htarget x hx)
  | join value error fiber =>
      refine .run hrefl fun x hx => ?_
      rcases hx with rfl | hx
      · exact .here (hregister _ (by simp [Register.kept]))
      · exact .here (htarget x hx)
  | sleep nanoseconds =>
      refine .sleep hrefl _ (fun x hx => ?_) fun x hx => ?_
      all_goals
        simp [Value.kept] at hx
        exact .here (htarget x hx)
  | never => exact .ret hrefl Heap.yields_unit

theorem tellTurn_keeps {subscriber : Subscriber H.Fn} {v : Value H.Data H.Fn}
    (hsubscriber : ∀ x, subscriber.Names x → named x) (hv : ∀ x ∈ v.kept, named x) :
    (tellTurn (H := H) heap v subscriber).Keeps heap named := by
  have hrefl := Heap.Passes.refl heap named
  cases subscriber with
  | user f =>
      refine .discard hrefl fun x hx => ?_
      simp at hx
      rcases hx with hx | hx
      · exact .here (hsubscriber x hx)
      · exact .here (hv x hx)
  | join value error target =>
      refine .run hrefl fun x hx => ?_
      rcases hx with hx | hx
      · exact .here (hsubscriber x hx)
      · exact .here (hv x hx)
  | observe value error target =>
      simp only [tellTurn]
      split
      next s =>
        split
        next outcome hread =>
          refine .run hrefl fun x hx => ?_
          rcases hx with hx | hx
          · exact .here (hsubscriber x hx)
          · exact .here (hv x (Slot.names_of_read hread hx))
        next => exact .raise hrefl _
      next => exact .raise hrefl _

end Task

/-- Whatever a turn of a task passes on has been named by the task, or by a scheduler. -/
theorem Task.turn_keeps {task : Task H} (huser : ∀ code reply, task ≠ .user code reply)
    (hnamed : ∀ x, task.Names x → named x)
    (hschedulers : ∀ s ∈ heap.schedulers, ∀ x, s.Names x → named x)
    (henter : ∀ f args x, task = .call f args → x ∈ H.codeRefs (H.enter f.val args) [] →
      named x) : (task.turn here stack heap).Keeps heap named := by
  have hrefl := Heap.Passes.refl heap named
  have hyields {heap' : Heap H.Data H.Fn} (x : Ref) (hx : task.Names x) :
      heap.Yields heap' named x := .here (hnamed x hx)
  have hshown {id : PromiseId} {p : Promise H.Data H.Fn} (hid : named (.promise id))
      (hp : heap.promises[id]? = some p) {heap' : Heap H.Data H.Fn} {x : Ref} (hx : p.Names x) :
      heap.Yields heap' named x := .shown hid ⟨p, hp, hx⟩
  have hpromised {id : PromiseId} {v : Value H.Data H.Fn} (hid : named (.promise id))
      (hv : heap.promised? id = some v) (x : Ref) (hx : x ∈ v.kept) :
      heap.Yields heap named x := by
    unfold Heap.promised? at hv
    split at hv
    next p hp => exact hshown hid hp (.inl ⟨v, hv, hx⟩)
    next => contradiction
  have hreceive {id : ChannelId} {exit : Exit (Outcome H.Data H.Fn)} (hid : named (.receiver id))
      (hreceived : heap.received? id = some exit) (x : Ref) (hx : exit.Names x) :
      heap.Yields heap named x := by
    unfold Heap.received? at hreceived
    split at hreceived
    next hfull =>
      obtain rfl := Option.some.inj hreceived
      exact .shown hid ⟨_, hfull, hx⟩
    next => contradiction
  cases task with
  | give v => exact .ret hrefl hyields
  | user code reply => exact absurd rfl (huser code reply)
  | call f args =>
      refine .run hrefl fun x hx => ?_
      rcases hx with hx | hx
      · exact .here (henter f args x rfl hx)
      · exact hx.elim
  | request q => exact q.turn_keeps hnamed
  | drive i last finish =>
      exact driveTurn_keeps (fun x hx => hnamed x (.inl hx)) fun x hx => hnamed x (.inr hx)
  | answer question => exact question.turn_keeps hnamed
  | park handoff frames last finish => exact parkTurn_keeps hnamed
  | deliver handoff exit origin =>
      exact deliverTurn_keeps (hnamed _ (.inl rfl)) fun x hx => hnamed x (.inr hx)
  | resume exit frames finish =>
      refine .run (hrefl.emit _) fun x hx => ?_
      rcases hx with (hx | hx | ⟨_, hfocus, hx⟩) | hx
      · exact hyields x (.inr (.inl hx))
      · simp [Interpretation.settle, Interpretation.latest] at hx
      · obtain rfl := Focus.exit.inj hfocus
        exact hyields x (.inl hx)
      · exact hyields x (.inr (.inr hx))
  | conclude exit finish =>
      exact concludeTurn_keeps (fun x hx => hnamed x (.inl hx)) fun x hx => hnamed x (.inr hx)
  | submit scheduler work => exact submitTurn_keeps hnamed hschedulers
  | perform work =>
      cases work with
      | register r handoff =>
          refine .call hrefl (fun x hx => hyields x ?_) fun x hx => hyields x ?_
          · simp only [Names, Work.kept, Kept.mem_union] at hx ⊢
            exact hx
          · simp only [Names, Work.kept, Kept.mem_union, Kept.mem_singleton, Return.Names] at hx ⊢
            exact hx.symm
      | interpret node finish =>
          refine .run hrefl (Turn.yields_start (fun x hx => hyields x ?_) fun x hx => hyields x ?_)
          all_goals simp only [Names, Work.kept, Kept.mem_union, Finish.mem_kept]
          · exact .inl hx
          · exact .inr (.inl hx)
      | user f => exact .discard hrefl fun x hx => hyields x (by simpa [Work.kept] using hx)
  | report scheduler failure => exact reportTurn_keeps hschedulers
  | register r target =>
      exact registerTurn_keeps (fun x hx => hnamed x (.inl hx)) fun x hx => hnamed x (.inr hx)
  | invoke target outcome =>
      cases target with
      | node handoff =>
          refine .run hrefl fun x hx => hyields x ?_
          rcases hx with rfl | hx
          · exact .inl (by simp [Callback.kept])
          · exact .inr hx
      | user value error f =>
          exact .discard hrefl fun x hx => hyields x (by simpa [Callback.kept] using hx)
  | fill id v =>
      simp only [turn]
      split
      next => exact .ret hrefl Heap.yields_unit
      next p hp =>
        obtain ⟨ty, value, subscribers⟩ := p
        cases value with
        | none =>
            refine .run (hrefl.setPromise fun x hx => ?_) hyields
            rcases hx with ⟨w, hw, hx⟩ | hx
            · obtain rfl := Option.some.inj hw
              exact hyields x (.inr hx)
            · exact hshown (hnamed _ (.inl rfl)) hp (.inr hx)
        | some w => exact .ret hrefl fun x hx => hyields x (.inr (by simpa [Value.kept] using hx))
  | take id v =>
      simp only [turn]
      split
      next => exact .ret hrefl Heap.yields_unit
      next p hp =>
        have hid : named (.promise id) := hnamed _ (.inl rfl)
        refine .run (hrefl.setPromise fun x hx => ?_) fun x hx => ?_
        · rcases hx with hx | ⟨s, hs, -⟩
          · exact hshown hid hp (.inl hx)
          · exact absurd hs (List.not_mem_nil)
        · rcases hx with rfl | hx | ⟨s, hs, hx⟩
          · exact .here hid
          · exact hyields x (.inr hx)
          · exact hshown hid hp (.inr ⟨s, List.mem_reverse.1 hs, hx⟩)
  | wake id v subscribers =>
      refine ⟨hrefl, fun {x} hx => ?_⟩
      rcases hx with hx | ⟨back, hback, -⟩ | ⟨_, hborn, -⟩
      · exact hyields x hx
      · exact absurd hback List.not_mem_nil
      · contradiction
  | notify id v subscribers first =>
      cases subscribers with
      | nil =>
          cases first with
          | none => exact .ret hrefl fun x hx => by simp [Value.kept] at hx
          | some payload => exact .raise (hrefl.emit _) _
      | cons s rest =>
          refine .call hrefl (fun x hx => hyields x ?_) fun x hx => hyields x ?_
          · rcases hx with hx | hx
            · exact .inr (.inr ⟨s, List.mem_cons_self, hx⟩)
            · exact .inr (.inl hx)
          · rcases hx with hx | hx | ⟨s', hs', hx⟩
            · exact .inl hx
            · exact .inr (.inl hx)
            · exact .inr (.inr ⟨s', List.mem_cons_of_mem _ hs', hx⟩)
  | tell s v =>
      exact tellTurn_keeps (fun x hx => hnamed x (.inl hx)) fun x hx => hnamed x (.inr hx)
  | subscribe id s =>
      simp only [turn]
      split
      next => exact .ret hrefl Heap.yields_unit
      next p hp =>
        have hid : named (.promise id) := hnamed _ (.inl rfl)
        obtain ⟨ty, value, subscribers⟩ := p
        cases value with
        | none =>
            refine .ret (hrefl.setPromise fun x hx => ?_) Heap.yields_unit
            rcases hx with ⟨w, hw, -⟩ | ⟨s', hs', hx⟩
            · cases hw
            · rcases List.mem_cons.1 hs' with rfl | hs'
              · exact hyields x (.inr hx)
              · exact hshown hid hp (.inr ⟨s', hs', hx⟩)
        | some w =>
            refine .call hrefl (fun x hx => ?_) fun x hx => ?_
            · rcases hx with hx | hx
              · exact hyields x (.inr hx)
              · exact hshown hid hp (.inl ⟨w, rfl, hx⟩)
            · obtain rfl := List.mem_singleton.1 hx
              exact .here hid
  | await id =>
      simp only [turn]
      split
      next v hv => exact .ret hrefl (hpromised (hnamed _ rfl) hv)
      next => exact .sleep hrefl _ hyields hyields
  | awaitUntil id time =>
      simp only [turn]
      split
      next v hv =>
        exact .ret hrefl fun x hx => hpromised (hnamed _ rfl) hv x (by simpa [Value.kept] using hx)
      next => exact .sleep hrefl _ hyields hyields
  | peek id =>
      simp only [turn]
      split
      next => exact .ret hrefl fun x hx => by simp [Value.kept] at hx
      next p hp =>
        split
        next v hv =>
          refine .ret hrefl fun x hx => hshown (hnamed _ rfl) hp (.inl ⟨v, hv, ?_⟩)
          simpa [Value.kept] using hx
        next => exact .ret hrefl fun x hx => by simp [Value.kept] at hx
  | receive value error channel warning =>
      simp only [turn]
      split
      next outcome hreceived =>
        refine .ret hrefl fun x hx => hreceive (hnamed _ rfl) hreceived x ?_
        exact Value.mem_kept_ofOutcome.1 hx
      next => exact .raise hrefl _
      next => exact .sleep hrefl _ hyields fun _ hx => hx.elim
  | lost warning =>
      refine .sleep (hrefl.emit _) _ (fun x hx => ?_) fun x hx => ?_
      all_goals simp [Value.kept] at hx
  | collect value error future channel =>
      have hfinished : heap.Passes named (heap.setFuture future .finished) :=
        hrefl.setFuture fun _ hx => hx.elim
      simp only [turn]
      split
      next outcome hreceived =>
        refine .ret hfinished fun x hx =>
          (hreceive (hnamed _ (.inr rfl)) hreceived x ?_).mono fun _ => hfinished.has
        simpa [Value.kept] using hx
      next => exact .raise hfinished _
      next =>
        exact .sleep hrefl _ (fun x hx => by simp [Value.kept] at hx) hyields
  | hang value error future channel =>
      simp only [turn]
      split
      · exact .run hrefl hyields
      · refine .ret ((hrefl.emit _).setFuture fun _ hx => hx.elim) fun x hx => ?_
        simp [Value.kept] at hx

namespace Return

theorem readTurn_keeps {v : Value H.Data H.Fn} (hv : ∀ x ∈ v.kept, named x) :
    (readTurn (H := H) heap v).Keeps heap named := by
  have hrefl := Heap.Passes.refl heap named
  unfold readTurn
  split
  next =>
    split
    next outcome hread =>
      refine .ret hrefl fun x hx => .here (hv x (Slot.names_of_read hread ?_))
      exact Value.mem_kept_ofOutcome.1 hx
    next => exact .raise hrefl _
  next =>
    split
    next outcome hread =>
      refine .ret hrefl fun x hx => .here (hv x (Slot.names_of_read hread ?_))
      simpa [Value.kept] using hx
    next => exact .raise hrefl _
  next => exact .ret hrefl fun x hx => by simp [Value.kept] at hx
  next => exact .ret hrefl fun x hx => .here (hv x hx)

theorem mem_kept_giveBack {D F : Type} {v : Value D F} : x ∈ (giveBack v).kept ↔ x ∈ v.kept := by
  unfold giveBack
  split <;> simp [Value.kept, Slot.kept]

/-- A reply is passed on with what the return has named. -/
theorem resume_keeps {back : Return H} {v : Value H.Data H.Fn} (hv : ∀ x ∈ v.kept, named x)
    (hback : ∀ x, back.Names x → named x) : (back.resume heap v).Keeps heap named := by
  have hrefl := Heap.Passes.refl heap named
  cases back with
  | user code =>
      refine .run hrefl fun x hx => ?_
      rcases hx with hx | hx
      · exact .here (hback x hx)
      · exact .here (hv x hx)
  | answering post frames last applied finish =>
      refine .run hrefl fun x hx => .here ?_
      rcases hx with hx | hx
      · rcases Interpretation.names_of_reply hx with hx | hx | hx | ⟨w, hw, hx⟩
        · exact hback x (.inl hx)
        · exact hback x (.inr (.inl hx))
        · exact hback x (.inr (.inr (.inl hx)))
        · obtain rfl := Except.ok.inj hw
          exact hv x hx
      · exact hback x (.inr (.inr (.inr (.inr hx))))
  | guarded s => exact .ret hrefl Heap.yields_unit
  | guarding id r => exact .ret hrefl Heap.yields_unit
  | holding refs => exact .ret hrefl fun x hx => .here (hv x hx)
  | driving => exact .ret hrefl fun x hx => .here (hv x hx)
  | after task => exact .run hrefl fun x hx => .here (hback x hx)
  | polling value error future id => exact .run hrefl fun x hx => .here (hback x hx)
  | notifying id w subscribers first => exact .run hrefl fun x hx => .here (hback x hx)
  | reading => exact readTurn_keeps hv
  | givingBack => exact .ret hrefl fun x hx => .here (hv x (mem_kept_giveBack.1 hx))

/-- So is a panic. -/
theorem unwind_keeps {back : Return H} (payload : Payload) (hback : ∀ x, back.Names x → named x) :
    (back.unwind heap payload).Keeps heap named := by
  have hrefl := Heap.Passes.refl heap named
  cases back with
  | user code =>
      refine .run hrefl fun x hx => ?_
      rcases hx with hx | hx
      · exact .here (hback x hx)
      · exact hx.elim
  | answering post frames last applied finish =>
      refine .run hrefl fun x hx => .here ?_
      rcases hx with hx | hx
      · rcases Interpretation.names_of_reply hx with hx | hx | hx | ⟨w, hw, -⟩
        · exact hback x (.inl hx)
        · exact hback x (.inr (.inl hx))
        · exact hback x (.inr (.inr (.inl hx)))
        · cases hw
      · exact hback x (.inr (.inr (.inr (.inr hx))))
  | guarded s => exact .run hrefl fun _ hx => hx.elim
  | guarding id r =>
      refine .call hrefl (fun x hx => .here (hback x ?_)) fun x hx => .here (hback x (.inr ?_))
      · exact hx.imp_right False.elim
      · simpa using hx
  | holding refs => exact .raise hrefl _
  | driving => exact .raise hrefl _
  | after task => exact .raise hrefl _
  | polling value error future id =>
      have hfinished : heap.Passes named (heap.setFuture future .finished) :=
        hrefl.setFuture fun _ hx => hx.elim
      exact .raise hfinished _
  | notifying id w subscribers first => exact .run hrefl fun x hx => .here (hback x hx)
  | reading => exact .raise hrefl _
  | givingBack => exact .raise hrefl _

end Return

/-- What a move of the host names. -/
def Move.Names : Move H.Data H.Fn H.Code H.Condition → Ref → Prop
  | .run code, x => x ∈ H.codeRefs code []
  | .ret v, x => x ∈ v.kept
  | .raise _, _ => False
  | .ask q code, x => q.Names x ∨ x ∈ H.codeRefs code []
  | .wait _ _ code, x => x ∈ H.codeRefs code []

theorem Move.names_of_turn {move : Move H.Data H.Fn H.Code H.Condition}
    (h : (move.turn (H := H) heap).Names x) : move.Names x := by
  cases move with
  | raise payload => simp [Move.turn, Turn.raise, Turn.Names] at h
  | _ =>
      simpa [Move.turn, Turn.run, Turn.ret, Turn.call, Turn.sleep, Turn.Names, Move.Names] using h

end Trampoline
