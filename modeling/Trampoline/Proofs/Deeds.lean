import Trampoline.Interpretation

/-!
What an interpretation does, seen from outside: the continuations it pushes and pops, the functions
it calls, the questions it asks, the async nodes it hands to schedulers, and how it ends. The deeds
of a step depend on the interpretation alone; what comes from the surroundings is a deed of its own.
-/

namespace Trampoline

variable {D F : Type}

/-- A call of a function that is held by a node or by a pending continuation. -/
inductive Call (D F : Type) where
  | thunk (t : Thunk D F)
  | register (r : Register F)
  | bind (b : Bind D F) (v : Value D F)
  | resume (r : Resume D F) (v : Value D F)
  | reify (r : Reify) (outcome : Outcome D F)

/-- A deed of an interpretation, or of its surroundings on its behalf. -/
inductive Deed (D F : Type) where
  | push (frame : Frame D F)
  | pop (frame : Frame D F)
  | call (c : Call D F)
  /-- The function that was called asks the surroundings. -/
  | ask (question : Ask D F)
  /-- The surroundings reply, or the function panics. -/
  | reply (r : Except Payload (Value D F))
  /-- The registration of an async node is handed to its scheduler. -/
  | submit (r : Register F) (scheduler : SchedulerId)
  /-- The async node has got its exit. -/
  | exit (x : Exit (Outcome D F))
  | finish (x : Exit (Outcome D F))

namespace Deed

def call? : Deed D F → Option (Call D F)
  | .call c => some c
  | _ => none

def finish? : Deed D F → Option (Exit (Outcome D F))
  | .finish x => some x
  | _ => none

/-- Whether a deed leaves the pending continuations alone. -/
def IsFlat : Deed D F → Prop
  | .push _ => False
  | .pop _ => False
  | _ => True

def calls (deeds : List (Deed D F)) : List (Call D F) := deeds.filterMap call?

def finishes (deeds : List (Deed D F)) : List (Exit (Outcome D F)) := deeds.filterMap finish?

@[simp] theorem calls_nil : calls ([] : List (Deed D F)) = [] := rfl

@[simp] theorem calls_append (a b : List (Deed D F)) : calls (a ++ b) = calls a ++ calls b :=
  List.filterMap_append

@[simp] theorem finishes_nil : finishes ([] : List (Deed D F)) = [] := rfl

@[simp] theorem finishes_append (a b : List (Deed D F)) :
    finishes (a ++ b) = finishes a ++ finishes b :=
  List.filterMap_append

end Deed

def Next.deeds : Next D F → List (Deed D F)
  | .run _ => []
  | .andThen _ resume => [.push (.resume resume)]
  | .done _ => []

def Plan.deeds : Plan D F → List (Deed D F)
  | .answer next => next.deeds
  | .raise _ => []
  | .ask question _ => [.ask question]

def Post.deeds (post : Post D F) (r : Except Payload (Value D F)) : List (Deed D F) :=
  .reply r ::
    match r with
    | .ok v =>
        match post.answer v with
        | .ok next => next.deeds
        | .error _ => []
    | .error _ => []

@[simp] theorem Deed.calls_next (next : Next D F) : Deed.calls next.deeds = [] := by
  cases next <;> rfl

@[simp] theorem Deed.finishes_next (next : Next D F) : Deed.finishes next.deeds = [] := by
  cases next <;> rfl

@[simp] theorem Deed.calls_plan (plan : Plan D F) : Deed.calls plan.deeds = [] := by
  cases plan with
  | answer next => exact calls_next next
  | raise payload => rfl
  | ask question post => rfl

@[simp] theorem Deed.finishes_plan (plan : Plan D F) : Deed.finishes plan.deeds = [] := by
  cases plan with
  | answer next => exact finishes_next next
  | raise payload => rfl
  | ask question post => rfl

@[simp] theorem Deed.calls_post (post : Post D F) (r : Except Payload (Value D F)) :
    Deed.calls (post.deeds r) = [] := by
  cases r with
  | error payload => rfl
  | ok v =>
      change Deed.calls (match post.answer v with
        | .ok next => next.deeds
        | .error _ => []) = []
      split
      · exact calls_next _
      · rfl

@[simp] theorem Deed.finishes_post (post : Post D F) (r : Except Payload (Value D F)) :
    Deed.finishes (post.deeds r) = [] := by
  cases r with
  | error payload => rfl
  | ok v =>
      change Deed.finishes (match post.answer v with
        | .ok next => next.deeds
        | .error _ => []) = []
      split
      · exact finishes_next _
      · rfl

/-- The function that a continuation calls with an outcome, unless the outcome passes it. -/
def Frame.call? : Frame D F → Outcome D F → Option (Call D F)
  | .bind b, .ok v => some (.bind b v)
  | .resume r, .ok v => some (.resume r v)
  | .reify r, outcome => some (.reify r outcome)
  | .bind _, .error _ => none
  | .resume _, .error _ => none

def Interpretation.deeds : Interpretation D F → List (Deed D F)
  | ⟨.node (.thunk t), _⟩ => .call (.thunk t) :: t.plan.deeds
  | ⟨.node (.async r scheduler), _⟩ => [.submit r scheduler]
  | ⟨.node (.flatMap _ bind), _⟩ => [.push (.bind bind)]
  | ⟨.node (.attempt _ reify), _⟩ => [.push (.reify reify)]
  | ⟨.exit (.panicked _), _⟩ => []
  | ⟨.exit (.settled _), []⟩ => []
  | ⟨.exit (.settled outcome), frame :: _⟩ =>
      .pop frame :: ((frame.call? outcome).toList.map .call ++ (frame.plan outcome).deeds)

/-- The deeds that turn one stack of pending continuations into another: each pop takes the
innermost continuation, which is the one pushed last among those not popped yet. -/
inductive Stacks : List (Frame D F) → List (Deed D F) → List (Frame D F) → Prop
  | nil {frames : List (Frame D F)} : Stacks frames [] frames
  | push {frame : Frame D F} {frames out : List (Frame D F)} {deeds : List (Deed D F)} :
      Stacks (frame :: frames) deeds out → Stacks frames (.push frame :: deeds) out
  | pop {frame : Frame D F} {frames out : List (Frame D F)} {deeds : List (Deed D F)} :
      Stacks frames deeds out → Stacks (frame :: frames) (.pop frame :: deeds) out
  | flat {deed : Deed D F} {frames out : List (Frame D F)} {deeds : List (Deed D F)} :
      deed.IsFlat → Stacks frames deeds out → Stacks frames (deed :: deeds) out

end Trampoline
