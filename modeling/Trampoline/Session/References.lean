import Trampoline.Machine.References
import Trampoline.Session.Code

/-!
What the code and the state of a session keep.
-/

namespace Trampoline.Session

def Built.refsAll (bs : List Built) (refs : List Ref) : List Ref :=
  bs.foldl (fun refs b => b.fx.node.kept.onto refs) refs

def Env.refs (env : Env) (refs : List Ref) : List Ref :=
  match env.sofar with
  | some b => env.scope.kept.onto (b.fx.node.kept.onto refs)
  | none => env.scope.kept.onto refs

def Datum.refsAll (ds : List Datum) (refs : List Ref) : List Ref :=
  ds.foldl (fun refs d => d.kept.onto refs) refs

def Item.refs : Item → List Ref → List Ref
  | .value d, refs => d.kept.onto refs
  | .list items, refs => items.kept.onto refs
  | .result outcome, refs => Outcome.refs outcome refs
  | .promise id, refs => .promise id :: refs
  | .fiber id, refs => .promise id :: refs
  | .effect b, refs => b.fx.node.kept.onto refs
  | .effects bs, refs => Built.refsAll bs refs
  | _, refs => refs

def After.refs : After → List Ref → List Ref
  | .expect _ (some d), refs => d.kept.onto refs
  | .joined _ _ done, refs => Datum.refsAll done refs
  | .polled _ id, refs => .future id :: refs
  | _, refs => refs

def Pending.refs : Pending → List Ref → List Ref
  | .operation _ _ env done _ _, refs =>
      env.refs (done.foldl (fun refs item => item.refs refs) refs)
  | .effects env done _, refs => env.refs (Built.refsAll done refs)
  | .sequence env before _, refs => env.refs (before.kept.onto refs)
  | .iterate env _ _ _ _, refs => env.refs refs
  | .items env _ _ todo done, refs => env.refs (todo.kept.onto (Built.refsAll done refs))
  | .registering target _ env, refs => target.kept.onto (env.refs refs)
  | .within env, refs => env.refs refs
  | .leaving _ env, refs => env.refs refs
  | .ending _ env, refs => env.refs refs
  | .caught, refs => refs
  | .traversed _, refs => refs
  | .bounding _ _, refs => refs

def Focus.refs : Focus → List Ref → List Ref
  | .eval _ env, refs => env.refs refs
  | .build _ env, refs => env.refs refs
  | .give item, refs => item.refs refs
  | .raise _, refs => refs
  | .ask request after, refs => request.refs (after.refs refs)
  | .wait _ _ after, refs => after.refs refs

def Code.refs : Code → List Ref → List Ref
  | .run focus stack, refs =>
      focus.refs (stack.foldl (fun refs pending => pending.refs refs) refs)
  | .suspended after stack, refs =>
      after.refs (stack.foldl (fun refs pending => pending.refs refs) refs)
  | .enqueue _ work, refs => work.kept.onto refs
  | .keepReport _ _, refs => refs

/-- The references in things by name. -/
def Table.refs {α : Type} (kept : α → Kept) (table : Table α) (refs : List Ref) : List Ref :=
  table.foldl (fun refs _ thing => (kept thing).onto refs) refs

/-- What a thread's result keeps as long as nobody has taken it. -/
def Stage.kept : Stage → Kept
  | .ended result => result.kept
  | _ => ∅

/-- The references in the state. What has been logged has lost them. -/
def State.refs (state : State) (refs : List Ref) : List Ref :=
  let refs := state.cells.refs Datum.kept refs
  let refs := state.promises.refs (fun id => {.promise id}) refs
  let refs := state.fibers.refs (fun id => {.promise id}) refs
  let refs := state.callbacks.refs Callback.kept refs
  let refs := state.futures.refs (fun id => {.future id}) refs
  let refs := state.effects.refs (fun x => x.node.kept) refs
  let refs := state.started.foldl (fun refs thread => thread.stage.kept.onto refs) refs
  state.desks.foldl
    (fun refs _ desk => desk.queue.foldl (fun refs work => work.kept.onto refs) refs) refs

end Trampoline.Session
