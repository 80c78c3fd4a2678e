import Trampoline.Proofs.Building
import Trampoline.Proofs.Drill
import Trampoline.Proofs.Endings
import Trampoline.Proofs.Replying

/-!
No continuation is handed a value of another type than its own. In a run of a host program that
keeps to the types that it declares, every interpretation of an effect that has been built at two
types calls its continuations with values of the types that they downcast to, inline or from a
parked stack, and settles with values of these two types. So nothing in the run panics with a
mismatch.
-/

namespace Trampoline

section Calls

variable {D F : Type}

/-- The type to which the continuation of a `flatMap` node downcasts. -/
def Bind.expected : Bind D F → Ty
  | .map value _ => value
  | .flatMap value _ => value
  | .replace value _ => value
  | .tap value _ => value
  | .recover value error _ => .result value error
  | .handle value error _ => .result value error
  | .mapError value error _ => .result value error
  | .andThen value _ _ _ => value
  | .next value _ => value
  | .flatten value error => .effect value error
  | .sequence value error => .list (.effect value error)
  | .collect item _ => .list item
  | .timed _ _ _ _ => .instant
  | .unslot value error => .slot value error

/-- The type to which a one-shot continuation downcasts. -/
def Resume.expected : Resume D F → Ty
  | .combine second _ _ => second
  | .append item _ => item
  | .close value error _ => .result value error

/-- Whether a function is called with a value of the type that it expects. -/
def Call.Fits : Call D F → Prop
  | .thunk _ => True
  | .register _ => True
  | .bind b v => v.ty = b.expected
  | .resume r v => v.ty = r.expected
  | .reify r o => Outcome.HasTags r.value r.error o

variable {T : Signature D F} {L : Types} {a b e d v r : Ty}

theorem Bind.HasTypes.expected_eq {bind : Bind D F} (h : bind.HasTypes T L a b e) :
    bind.expected = a := by
  cases h <;> rfl

theorem Resume.HasTypes.expected_eq {resume : Resume D F} (h : resume.HasTypes T L a b e) :
    resume.expected = a := by
  cases h <;> rfl

theorem Value.map_ty_of_forall₂ {vs : List (Value D F)} {tys : List Ty}
    (h : List.Forall₂ (Value.HasType T L) vs tys) : vs.map Value.ty = tys := by
  induction h with
  | nil => rfl
  | cons hv _ ih => rw [List.map_cons, hv.ty_eq, ih]

theorem Outcome.HasTypes.hasTags {o : Outcome D F} (h : Outcome.HasTypes T L o a e) :
    Outcome.HasTags a e o := by
  cases h with
  | ok hv => exact hv.ty_eq
  | error hv => exact hv.ty_eq

theorem Exit.HasTypes.hasTags {exit : Exit (Outcome D F)} (h : exit.HasTypes T L a e) :
    exit.HasTags a e := by
  rintro o rfl
  cases h with
  | settled ho => exact ho.hasTags

theorem Frame.HasTypes.fits {frame : Frame D F} {o : Outcome D F} {c : Call D F}
    (h : frame.HasTypes T L a e b d) (ho : Outcome.HasTypes T L o a e)
    (hc : frame.call? o = some c) : c.Fits := by
  cases h with
  | bind hbind =>
      cases ho with
      | ok hv =>
          obtain rfl := Option.some.inj hc
          exact hv.ty_eq.trans hbind.expected_eq.symm
      | error hv => contradiction
  | resume hresume =>
      cases ho with
      | ok hv =>
          obtain rfl := Option.some.inj hc
          exact hv.ty_eq.trans hresume.expected_eq.symm
      | error hv => contradiction
  | reify =>
      obtain rfl := Option.some.inj hc
      exact ho.hasTags

theorem Plan.call_not_mem_deeds (plan : Plan D F) (c : Call D F) : .call c ∉ plan.deeds := by
  intro hmem
  have hcalls : c ∈ Deed.calls plan.deeds := List.mem_filterMap.2 ⟨_, hmem, rfl⟩
  simp at hcalls

/-- An interpretation calls its continuations with values of the types that they expect. -/
theorem Interpretation.HasTypes.fits {i : Interpretation D F} {c : Call D F}
    (h : i.HasTypes T L v r) (hc : .call c ∈ i.deeds) : c.Fits := by
  cases h with
  | @node _ _ _ _ node _ _ _ =>
      cases node with
      | thunk t =>
          rcases List.mem_cons.1 hc with heq | hmem
          · obtain rfl := Deed.call.inj heq
            trivial
          · exact absurd hmem (t.plan.call_not_mem_deeds c)
      | _ => simp [Interpretation.deeds] at hc
  | exit hexit hframes =>
      cases hexit with
      | panicked => contradiction
      | settled ho =>
          cases hframes with
          | nil => contradiction
          | @cons _ _ _ _ _ _ frame frames hframe hframes =>
              rcases List.mem_cons.1 hc with heq | hmem
              · contradiction
              · rcases List.mem_append.1 hmem with hmem | hmem
                · obtain ⟨c', hc', heq⟩ := List.mem_map.1 hmem
                  obtain rfl := Deed.call.inj heq
                  exact hframe.fits ho (Option.mem_toList.1 hc')
                · exact absurd hmem ((frame.plan _).call_not_mem_deeds c)

/-- The types at which the exit of an interpretation is taken. -/
def Finish.types : Finish F → Ty × Ty
  | .callback value error _ => (value, error)
  | .channel value error _ => (value, error)
  | .fiber value error _ _ => (value, error)

theorem Finish.HasTypes.types_eq {finish : Finish F} (h : finish.HasTypes T L v r) :
    finish.types = (v, r) := by
  cases h <;> rfl

variable (T L) in
/-- A stage of an interpretation that leads to these types. -/
inductive Stage.HasTypes : Stage D F → Ty → Ty → Prop where
  | driving {v r : Ty} {i : Interpretation D F} : i.HasTypes T L v r → HasTypes (.driving i) v r
  | asking {reply a e v r : Ty} {post : Post D F} {frames : List (Frame D F)} :
      post.HasTypes T L reply a e → Frame.HaveTypes T L frames a e v r →
        HasTypes (.asking post frames) v r
  | submitting {a e v r : Ty} {id : HandoffId} {frames : List (Frame D F)} :
      Frame.HaveTypes T L frames a e v r → HasTypes (.submitting id frames) v r
  | leaving {a e v r : Ty} {id : HandoffId} {frames : List (Frame D F)} :
      Frame.HaveTypes T L frames a e v r → HasTypes (.leaving id frames) v r
  | parked {a e v r : Ty} {id : HandoffId} {frames : List (Frame D F)} :
      Frame.HaveTypes T L frames a e v r → HasTypes (.parked id frames) v r
  | resuming {a e v r : Ty} {exit : Exit (Outcome D F)} {frames : List (Frame D F)} :
      exit.HasTypes T L a e → Frame.HaveTypes T L frames a e v r →
        HasTypes (.resuming exit frames) v r
  | concluding {v r : Ty} {exit : Exit (Outcome D F)} :
      exit.HasTypes T L v r → HasTypes (.concluding exit) v r

end Calls

variable {H : Host} {T : H.Typing} {L : Types} {a e : Ty}

section Pending

variable {stage : Stage H.Data H.Fn} {finish : Finish H.Fn}

theorem Task.IsSafe.pending {task : Task H} {takes : Ty → Prop} (h : task.IsSafe T L takes)
    (hpending : task.pending? = some (stage, finish)) :
    ∃ v r, stage.HasTypes T.toSignature L v r ∧ finish.HasTypes T.toSignature L v r := by
  cases h with
  | drive hi hfinish _ =>
      obtain ⟨rfl, rfl⟩ := Prod.mk.inj (Option.some.inj hpending)
      exact ⟨_, _, .driving hi, hfinish⟩
  | park _ hframes hfinish _ =>
      obtain ⟨rfl, rfl⟩ := Prod.mk.inj (Option.some.inj hpending)
      exact ⟨_, _, .leaving hframes, hfinish⟩
  | resume hexit hframes hfinish _ =>
      obtain ⟨rfl, rfl⟩ := Prod.mk.inj (Option.some.inj hpending)
      exact ⟨_, _, .resuming hexit hframes, hfinish⟩
  | conclude hexit hfinish _ =>
      obtain ⟨rfl, rfl⟩ := Prod.mk.inj (Option.some.inj hpending)
      exact ⟨_, _, .concluding hexit, hfinish⟩
  | _ => contradiction

theorem Return.Take.pending {back : Return H} {rest : List (Return H)}
    (h : Return.Take T L (back :: rest) a) (hpending : back.pending? = some (stage, finish)) :
    ∃ v r, stage.HasTypes T.toSignature L v r ∧ finish.HasTypes T.toSignature L v r := by
  cases back with
  | answering post frames last applied finish' =>
      obtain ⟨rfl, rfl⟩ := Prod.mk.inj (Option.some.inj hpending)
      obtain ⟨b, e, v, r, hpost, hframes, hfinish, -⟩ := h
      exact ⟨v, r, .asking hpost hframes, hfinish⟩
  | after task =>
      cases task with
      | park id frames last finish' =>
          obtain ⟨rfl, rfl⟩ := Prod.mk.inj (Option.some.inj hpending)
          cases h.1 with
          | park _ hframes hfinish _ => exact ⟨_, _, .submitting hframes, hfinish⟩
      | _ => contradiction
  | _ => contradiction

/-- The rest of a stack takes something too. -/
theorem Return.Take.exists_rest {back : Return H} {rest : List (Return H)}
    (h : Return.Take T L (back :: rest) a) : ∃ b, Return.Take T L rest b := by
  cases back with
  | user c =>
      obtain ⟨b, -, -, hrest⟩ := h
      exact ⟨b, hrest⟩
  | answering post frames last applied finish =>
      obtain ⟨b, e, v, r, -, -, -, hrest⟩ := h
      exact ⟨_, hrest⟩
  | guarded s => exact ⟨_, h⟩
  | guarding id r => exact ⟨_, h.2⟩
  | holding refs => exact ⟨a, h⟩
  | driving => exact ⟨a, h⟩
  | after task => exact h.2
  | polling value error future id => exact ⟨_, h.2⟩
  | notifying id v subscribers first =>
      obtain ⟨b, -, -, -, hrest⟩ := h
      exact ⟨_, hrest⟩
  | reading =>
      obtain ⟨b, e, ⟨-, hrest⟩ | ⟨-, hrest⟩⟩ := h
      · exact ⟨_, hrest⟩
      · exact ⟨_, hrest⟩
  | givingBack =>
      obtain ⟨b, e, -, hrest, -⟩ := h
      exact ⟨_, hrest⟩

theorem Return.Take.exists_append {above rest : List (Return H)}
    (h : Return.Take T L (above ++ rest) a) : ∃ b, Return.Take T L rest b := by
  induction above generalizing a with
  | nil => exact ⟨a, h⟩
  | cons back above ih => exact ih h.exists_rest.choose_spec

theorem Request.IsSafe.exists_taken {q : Request H.Data H.Fn} {takes : Ty → Prop}
    (h : q.IsSafe T.toSignature L takes) : ∃ b, takes b := by
  cases h <;> exact ⟨_, ‹_›⟩

/-- Every task leads back to the stack. -/
theorem Task.IsSafe.exists_taken {task : Task H} {takes : Ty → Prop}
    (h : task.IsSafe T L takes) : ∃ b, takes b := by
  cases h with
  | request hq => exact hq.exists_taken
  | _ => exact ⟨_, ‹takes _›⟩

theorem Thread.IsSafe.exists_take {name : Option String} {control : Control H}
    {stack : List (Return H)} (h : Thread.IsSafe T L ⟨name, control, stack⟩) :
    ∃ b, Return.Take T L stack b := by
  cases (h : control.IsSafe T L stack) with
  | run htask => exact htask.exists_taken
  | ret _ hstack => exact ⟨_, hstack⟩
  | raise _ hstack => exact ⟨_, hstack⟩
  | asleep hwoken _ => exact hwoken.exists_taken
  | forever hstack => exact ⟨_, hstack⟩

/-- An interpretation under way leads to the types at which its exit is taken. -/
theorem World.IsTyped.pendingAt {w : World H} {p : Place} (h : w.IsTyped T L)
    (hp : w.pendingAt p = some (stage, finish)) :
    ∃ v r, stage.HasTypes T.toSignature L v r ∧ finish.HasTypes T.toSignature L v r := by
  cases p with
  | handoff id =>
      obtain ⟨s, frames, rfl, hhandoff⟩ := parked_of_pendingAt hp
      obtain ⟨⟨a, e⟩, -, htypes⟩ := h.heap.handoffs.exists_type hhandoff
      cases htypes with
      | parked hframes hfinish => exact ⟨_, _, .parked hframes, hfinish⟩
  | thread t level =>
      obtain ⟨name, control, stack, ht, hpending⟩ := thread_of_pendingAt hp
      have hthread := h.threads t _ ht
      rcases hpending with ⟨-, hcontrol⟩ | ⟨above, back, rest, rfl, -, hback⟩
      · cases (hthread : control.IsSafe T L stack) with
        | run htask => exact htask.pending hcontrol
        | _ => contradiction
      · obtain ⟨b, hstack⟩ := hthread.exists_take
        obtain ⟨b', hrest⟩ := hstack.exists_append
        exact hrest.pending hback

end Pending

/-- A stage that goes on with a panic, or ends with it, has one that the program declares. -/
theorem Stage.HasTypes.panics {S : Signature H.Data H.Fn} {v r : Ty} {payload : Payload}
    {frames : List (Frame H.Data H.Fn)}
    (h : Stage.HasTypes S L (.driving (.settle (.panicked payload) frames)) v r) :
    S.panics payload := by
  cases h with
  | driving hi =>
      cases hi with
      | exit hexit _ =>
          cases hexit with
          | panicked hpanics => exact hpanics

/-- A world in which nothing has been made keeps to types if its threads and schedulers do. -/
theorem World.Starting.isTyped {w : World H} (hw : w.Starting)
    (hschedulers : ∀ (id : SchedulerId) s, w.heap.schedulers[id]? = some s →
      s.IsTyped T.toSignature ⟨[], [], [], []⟩)
    (hstate : T.state ⟨[], [], [], []⟩ w.state)
    (hcode : ∀ (t : ThreadId) name code,
      w.threads[t]? = some (.starting name (.user code .start) []) →
      ∃ a, T.code ⟨[], [], [], []⟩ code .start a) : w.IsTyped T ⟨[], [], [], []⟩ where
  heap :=
    { handoffs := by rw [hw.handoffs]; exact .empty
      promises := by rw [hw.promises]; exact .empty
      channels := by rw [hw.channels]; exact .empty
      futures := by rw [hw.futures]; exact .empty
      schedulers := hschedulers }
  state := hstate
  threads t thread ht := by
    obtain ⟨name, code, rfl⟩ := hw.threads t thread ht
    obtain ⟨a, htyped⟩ := hcode t name code ht
    exact .run (.user htyped trivial)

namespace Run

/-- An interpretation whose exit is taken at two types hands on values of the types that are
expected, and settles at the two types. -/
structure KeepsTypes (r : Run H) (b : Nat) (p : Place) (value error : Ty) : Prop where
  /-- Continuations, one-shot continuations and reifiers are called with what they downcast to. -/
  calls : ∀ n c, .call c ∈ r.deeds b p n → c.Fits
  /-- No function panics with a mismatch. -/
  matched : ∀ n frames, r.stage b p n ≠ some (.driving (.settle (.panicked mismatch) frames))
  settles : ∀ n exit, r.EndsAt b p n exit → exit ≠ .panicked mismatch ∧
    ∀ o, exit = .settled o → Outcome.HasTags value error o ∧ exit.restore value error = .ok o

/-- Whatever is handed on in a run is of the type that is expected where it goes. -/
structure ErasesSoundly (S : Signature H.Data H.Fn) (r : Run H) : Prop where
  interpretations : ∀ b p stage finish, (r.world b).pendingAt p = some (stage, finish) →
    r.KeepsTypes b p finish.types.1 finish.types.2
  /-- A reply to a question is an answer, inline or after the interpretation has been parked. -/
  replies : ∀ n (t : ThreadId) name v post frames last applied finish rest,
    (r.world n).threads[t]? =
        some ⟨name, .ret v, .answering post frames last applied finish :: rest⟩ →
      ∃ next, post.answer v = .ok next
  /-- A function of the host program gets arguments of the types that it declares. -/
  functions : ∀ n t f args, r.Does n t (.call f args) →
    ∃ L reply, S.function L f.val (args.map Value.ty) reply
  callbacks : ∀ n t value error f o, r.Does n t (.invoke (.user value error f) o) →
    Outcome.HasTags value error o
  /-- The callback of an effect that joins a fiber gets the slot of the fiber's types. -/
  joins : ∀ n t value error target v, r.Does n t (.tell (.join value error target) v) →
    v.ty = .slot value error
  observers : ∀ n t value error target v, r.Does n t (.tell (.observe value error target) v) →
    ∃ s, v = .slot value error s
  /-- A caller that waits for an effect gets a result of the effect's types. -/
  results : ∀ n t value error id warning o, r.Does n t (.receive value error id warning) →
    (r.world n).heap.received? id = some (.settled o) → Outcome.HasTags value error o
  polls : ∀ n t value error future id o, r.Does n t (.collect value error future id) →
    (r.world n).heap.received? id = some (.settled o) → Outcome.HasTags value error o
  unraised : ∀ n (t : ThreadId) thread, (r.world n).threads[t]? = some thread →
    thread.control ≠ .raise mismatch

variable {r : Run H} {b n : Nat} {p : Place}

/-- A call in the course of an interpretation is one of its registration, or of a step of its
own. -/
theorem exists_of_call {stage : Stage H.Data H.Fn} {finish : Finish H.Fn}
    {c : Call H.Data H.Fn} (hp : (r.world b).pendingAt p = some (stage, finish))
    (hc : .call c ∈ r.deeds b p n) :
    (∃ register, c = .register register) ∨
      ∃ i, r.stage b p n = some (.driving i) ∧ .call c ∈ i.deeds := by
  cases hs : r.stage b p n with
  | none =>
      rw [show r.deeds b p n = [] from ((r.course hp).ended n hs).2] at hc
      contradiction
  | some stage' =>
      have hgoes : stage'.Goes (r.deeds b p n) (r.stage b p (n + 1)) :=
        (r.course hp).goes n stage' hs
      generalize r.deeds b p n = deeds at hc hgoes
      generalize r.stage b p (n + 1) = o at hgoes
      cases hgoes with
      | rest => contradiction
      | registered _ => exact .inl ⟨_, Deed.call.inj (List.mem_singleton.1 hc)⟩
      | step hstep =>
          cases hstep with
          | next _ => exact .inr ⟨_, rfl, hc⟩
          | ask _ => exact .inr ⟨_, rfl, hc⟩
          | suspend _ => exact .inr ⟨_, rfl, hc⟩
          | finish _ => exact .inr ⟨_, rfl, hc⟩
          | @reply post frames answer =>
              have hcalls : c ∈ Deed.calls (post.deeds answer) := List.mem_filterMap.2 ⟨_, hc, rfl⟩
              simp at hcalls
          | _ => simp at hc

section Typed

variable {stage now : Stage H.Data H.Fn} {finish : Finish H.Fn}
  (htypes : ∀ n, ∃ L, (r.world n).IsTyped T L)
  (hp : (r.world b).pendingAt p = some (stage, finish))
include htypes hp

theorem hasTypes_of_stage (hs : r.stage b p n = some now) :
    ∃ L, now.HasTypes T.toSignature L finish.types.1 finish.types.2 := by
  obtain ⟨q, -, hq⟩ := (r.stage_eq_some hp).1 hs
  obtain ⟨L, htyped⟩ := htypes (b + n)
  obtain ⟨v, e, hnow, hfinish⟩ := htyped.pendingAt hq
  exact ⟨L, hfinish.types_eq ▸ hnow⟩

/-- What settles is of the types that the topmost continuation takes. -/
theorem hasTypes_of_settled {o : Outcome H.Data H.Fn} {frame : Frame H.Data H.Fn}
    {frames : List (Frame H.Data H.Fn)}
    (hs : r.stage b p n = some (.driving (.settle (.settled o) (frame :: frames)))) :
    ∃ L a e c d, Outcome.HasTypes T.toSignature L o a e ∧
      frame.HasTypes T.toSignature L a e c d := by
  obtain ⟨L, hnow⟩ := hasTypes_of_stage htypes hp hs
  cases hnow with
  | driving hi =>
      cases hi with
      | exit hexit hframes =>
          cases hexit with
          | settled ho =>
              cases hframes with
              | cons hframe _ => exact ⟨L, _, _, _, _, ho, hframe⟩

theorem keepsTypes (hmismatch : ¬T.panics mismatch) :
    r.KeepsTypes b p finish.types.1 finish.types.2 := by
  refine ⟨fun n c hc => ?_, fun n frames hs => ?_, fun n exit hends => ?_⟩
  · rcases exists_of_call hp hc with ⟨register, rfl⟩ | ⟨i, hs, hmem⟩
    · trivial
    · obtain ⟨L, htyped⟩ := hasTypes_of_stage htypes hp hs
      cases htyped with
      | driving hi => exact hi.fits hmem
  · obtain ⟨L, htyped⟩ := hasTypes_of_stage htypes hp hs
    exact hmismatch htyped.panics
  · obtain ⟨L, htyped⟩ := hasTypes_of_stage htypes hp (hends.stage hp).1
    cases htyped with
    | concluding hexit =>
        refine ⟨?_, ?_⟩
        · rintro rfl
          cases hexit with
          | panicked hpanics => exact hmismatch hpanics
        · rintro o rfl
          have htags := hexit.hasTags o rfl
          exact ⟨htags, Exit.restore_of_hasTags htags⟩

end Typed

/-- The host program of a run keeps to the types that it declares, and does not itself panic as the
library does for a mismatch. -/
def IsTyped (r : Run H) : Prop :=
  ∃ T : H.Typing, ¬T.panics mismatch ∧ ∃ L, (r.world 0).IsTyped T L

theorem IsTyped.types (h : r.IsTyped) :
    ∃ T : H.Typing, ¬T.panics mismatch ∧ ∀ n, ∃ L, (r.world n).IsTyped T L := by
  obtain ⟨T, hmismatch, L, hworld⟩ := h
  exact ⟨T, hmismatch, fun n => (r.exists_types hworld n).imp fun _ htyped => htyped.2⟩

end Run

/-- Types that are erased come back. Effects that are built from the constructors and combinators
have nodes of their types. In a run of a host program that keeps to the types that it declares, and
that does not itself panic as the library does for a mismatch, whatever is handed on is of the type
to which it is downcast, so nothing panics for a mismatch, and what settles is of the types at which
its exit is taken. -/
theorem Run.erasesSoundly (T : H.Typing) (hmismatch : ¬T.panics mismatch) (r : Run H) {L : Types}
    (h : (r.world 0).IsTyped T L) :
    (∀ (L' : Types) (a e : Ty) (x : Effect H.Data H.Fn a e), x.IsMade T.toSignature L' →
      x.node.HasTypes T.toSignature L' a e) ∧ r.ErasesSoundly T.toSignature := by
  have htypes (n : Nat) : ∃ L, (r.world n).IsTyped T L :=
    (r.exists_types h n).imp fun _ htyped => htyped.2
  have hdoes {n : Nat} {t : ThreadId} {task : Task H} (hdoes : r.Does n t task) :
      ∃ L takes, (r.world n).IsTyped T L ∧ task.IsSafe T L takes := by
    obtain ⟨-, name, stack, ht⟩ := hdoes
    obtain ⟨L, htyped⟩ := htypes n
    cases (htyped.threads t _ ht : Control.IsSafe T L _ _) with
    | run htask => exact ⟨L, _, htyped, htask⟩
  refine ⟨fun L' a e x hx => hx.hasTypes, ?_⟩
  exact {
    interpretations := fun b p stage finish hp => keepsTypes htypes hp hmismatch
    replies := fun n t name v post frames last applied finish rest ht => by
      obtain ⟨L, htyped⟩ := htypes n
      cases (htyped.threads t _ ht : Control.IsSafe T L _ _) with
      | ret hv hstack =>
          obtain ⟨b, e, v, r, hpost, -, -, -⟩ := hstack
          obtain ⟨next, hnext, -⟩ := hpost.answer hv
          exact ⟨next, hnext⟩
    functions := fun n t f args h => by
      obtain ⟨L, takes, -, htask⟩ := hdoes h
      cases htask with
      | call hf hargs _ => exact ⟨L, _, Value.map_ty_of_forall₂ hargs ▸ hf⟩
    callbacks := fun n t value error f o h => by
      obtain ⟨L, takes, -, htask⟩ := hdoes h
      cases htask with
      | invoke htarget ho _ =>
          cases htarget with
          | user _ => exact ho.hasTags
    joins := fun n t value error target v h => by
      obtain ⟨L, takes, -, htask⟩ := hdoes h
      cases htask with
      | tell hs hv _ =>
          cases hs with
          | join _ => exact hv.ty_eq
    observers := fun n t value error target v h => by
      obtain ⟨L, takes, -, htask⟩ := hdoes h
      cases htask with
      | tell hs hv _ =>
          cases hs with
          | observe _ =>
              cases hv with
              | slot _ => exact ⟨_, rfl⟩
    results := fun n t value error id warning o h hreceived => by
      obtain ⟨L, takes, htyped, htask⟩ := hdoes h
      cases htask with
      | receive hid _ => exact (htyped.heap.received hid hreceived).hasTags o rfl
    polls := fun n t value error future id o h hreceived => by
      obtain ⟨L, takes, htyped, htask⟩ := hdoes h
      cases htask with
      | collect hid _ => exact (htyped.heap.received hid hreceived).hasTags o rfl
    unraised := fun n t thread ht hraise => by
      obtain ⟨L, htyped⟩ := htypes n
      obtain ⟨name, control, stack⟩ := thread
      obtain rfl : control = .raise mismatch := hraise
      cases (htyped.threads t _ ht : Control.IsSafe T L _ _) with
      | raise hpanics _ => exact hmismatch hpanics }

namespace Relay

theorem refusal_ne_mismatch {name : String} {payload : Payload}
    (h : Scheduler.refusal? name = some payload) : payload ≠ mismatch := by
  obtain ⟨place, -, rfl⟩ := Option.map_eq_some_iff.1 h
  intro heq
  have hsecond := congrArg (fun text : String => text.toList[1]?) (Payload.text.inj heq)
  simp [String.toList_append] at hsecond

/-- The types of the relay's functions: registrations take a callback for units. -/
def signature : Signature Unit Fn where
  data _ _ _ := True
  function _ f tys a :=
    match f with
    | .register _ => tys = [.callback .unit .unit] ∧ a = .unit
    | .receive => tys = [.result .unit .unit] ∧ a = .unit
  panics payload := payload ≠ mismatch
  data_extends _ h := h
  function_extends _ h := h
  panics_text {payload} h := by
    cases payload with
    | text message => exact h
    | number value => simp [mismatch]

/-- Whether a piece of the relay has in hand what is of its types. -/
def Code.IsTyped (L : Types) : Code → Prop
  | .client node => node.HasTypes signature L .unit .unit
  | .leave target _ => target.HasTypes signature L .unit .unit
  | .server => True
  | .leaving _ => True

theorem Code.IsTyped.extends {L L' : Types} {code : Code} (h : code.IsTyped L)
    (hle : L.Extends L') : code.IsTyped L' := by
  cases code with
  | client node => exact Node.HasTypes.extends hle h
  | leave target panics => exact Callback.HasTypes.extends h hle
  | server => trivial
  | leaving panics => trivial

theorem receiver_hasTypes (L : Types) : receiver.HasTypes signature L .unit .unit := by
  have hreceive : signature.function L .receive [.result .unit .unit] .unit := ⟨rfl, rfl⟩
  exact .user hreceive

/-- All code of the relay ends with units. -/
def Code.Ends (L : Types) (code : Code) (_ : Reply Unit Fn) (a : Ty) : Prop :=
  a = .unit ∧ code.IsTyped L

theorem finish_hasType (L : Types) (panics : Bool) :
    Move.HasType (H := host) signature Code.Ends L .unit (finish panics) := by
  cases panics with
  | true => exact .raise (by simp [signature, mismatch])
  | false => exact .ret .unit

theorem complete_hasType {L : Types} {target : Callback Fn} (panics : Bool)
    (htarget : target.HasTypes signature L .unit .unit) :
    Move.HasType (H := host) signature Code.Ends L .unit
      (.ask (.complete target (.ok .unit)) (.leaving panics)) :=
  .ask (.complete htarget (.ok .unit) fun _ _ _ _ => ⟨rfl, trivial⟩) fun _ _ _ _ => ⟨rfl, trivial⟩

/-- The relay keeps to its types: everything settles with units. -/
def typing : host.Typing where
  toSignature := signature
  code := Code.Ends
  state L desk := ∀ target, desk.slot = some target → target.HasTypes signature L .unit .unit
  code_extends hle h := ⟨h.1, h.2.extends hle⟩
  state_extends hle h target htarget := (h target htarget).extends hle
  panics_drivenWithin := by simp [signature, drivenWithin, mismatch]
  panics_polledAgain := by simp [signature, polledAgain, mismatch]
  panics_beyondInstants := by simp [signature, beyondInstants, mismatch]
  panics_refusal := refusal_ne_mismatch
  enter {L f tys a args} hf hargs := by
    cases f with
    | register panics =>
        obtain ⟨rfl, rfl⟩ := hf
        cases hargs with
        | cons hfirst hrest =>
            cases hrest
            cases hfirst with
            | callback htarget => exact ⟨rfl, htarget⟩
    | receive => exact ⟨hf.2, trivial⟩
  advance {L code reply a here heap desk} hcode hdesk _ := by
    obtain ⟨rfl, hcode⟩ := hcode
    cases code with
    | client node =>
        exact ⟨hdesk, .ask (.runWith hcode (receiver_hasTypes L) fun _ _ _ _ => ⟨rfl, trivial⟩)
          fun _ _ _ _ => ⟨rfl, trivial⟩⟩
    | server =>
        have hwait : Move.HasType (H := host) signature Code.Ends L .unit (.wait () none .server) :=
          .wait ⟨rfl, trivial⟩ ⟨rfl, trivial⟩
        cases reply with
        | held =>
            obtain ⟨slot, direct⟩ := desk
            cases slot with
            | some target => exact ⟨hdesk, complete_hasType false (hdesk target rfl)⟩
            | none => exact ⟨hdesk, .ret .unit⟩
        | _ => exact ⟨hdesk, hwait⟩
    | leave target panics =>
        obtain ⟨slot, direct⟩ := desk
        cases direct with
        | true => exact ⟨hdesk, complete_hasType panics hcode⟩
        | false =>
            exact ⟨fun target' heq => Option.some.inj heq ▸ hcode, finish_hasType L panics⟩
    | leaving panics => exact ⟨hdesk, finish_hasType L panics⟩

/-- An effect that reifies how its async node settles, and replaces the result. -/
def reifying : Effect Unit Fn .unit .unit :=
  (Effect.asyncOn immediateId ⟨.register false, ∅⟩ : Effect Unit Fn .unit .unit).attempt.void

theorem reifying_isMade (L : Types) : reifying.IsMade signature L := by
  have hregister : signature.function L (.register false) [.callback .unit .unit] .unit :=
    ⟨rfl, rfl⟩
  exact .void (.attempt (.asyncOn hregister))

theorem start_isTyped {x : Effect Unit Fn .unit .unit}
    (hx : x.IsMade signature ⟨[], [], [], []⟩) (direct : Bool) :
    (start x.node direct).IsTyped typing ⟨[], [], [], []⟩ := by
  refine (start_starting x.node direct).isTyped (fun id s hs => ?_)
    (fun target h => by contradiction)
    fun t name code ht => ?_
  · have hs' : id = 0 ∧ s = .immediate ∨ id = 1 ∧ s = .sleeper := by
      match id, hs with
      | 0, hs => exact .inl ⟨rfl, (Option.some.inj hs).symm⟩
      | 1, hs => exact .inr ⟨rfl, (Option.some.inj hs).symm⟩
    rcases hs' with ⟨-, rfl⟩ | ⟨-, rfl⟩
    · exact .of_log rfl fun _ _ h => by contradiction
    · exact .of_log rfl fun _ _ h => by contradiction
  · rw [threads_start] at ht
    split at ht
    · obtain ⟨-, hcontrol, -⟩ := Thread.mk.inj (Option.some.inj ht)
      cases hcontrol
      exact ⟨.unit, rfl, trivial⟩
    · split at ht
      · obtain ⟨-, hcontrol, -⟩ := Thread.mk.inj (Option.some.inj ht)
        cases hcontrol
        exact ⟨.unit, rfl, hx.hasTypes⟩
      · contradiction

def erasing : Run host :=
  .ofList (start reifying.node false) (start_initial _ _)
    (.replicate 30 (.thread 0) ++ .replicate 30 (.thread 1))

/-- The server hands on a unit to the reifier, and the result of it to the continuation below. -/
theorem erasing_fits :
    erasing.ErasesSoundly signature ∧
      Deed.calls (erasing.history 2 (.thread 0 2) 60) =
        [.register (.user .unit .unit ⟨.register false, ∅⟩),
          .reify ⟨.unit, .unit⟩ (.ok .unit),
          .bind (.replace (.result .unit .unit) .unit) (.ok .unit .unit .unit)] :=
  ⟨(Run.erasesSoundly typing (fun h => h rfl) erasing (start_isTyped (reifying_isMade _) false)).2,
    by rfl⟩

end Relay

end Trampoline
