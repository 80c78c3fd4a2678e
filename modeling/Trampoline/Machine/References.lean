import Trampoline.Machine.Host

/-!
The references in what the machine passes around. Long stacks are searched from one end to the
other, so references are added in front of those found already.
-/

namespace Trampoline

variable {D F : Type}

/-- The objects that a one-shot continuation keeps. -/
def Resume.kept : Resume D F → Kept
  | .combine _ first how => first.kept.union how.kept
  | .append _ items => items.kept
  | .close _ _ _ => ∅

def Frame.kept : Frame D F → Kept
  | .bind b => b.kept
  | .resume r => r.kept
  | .reify _ => ∅

def Frame.refsAll (frames : List (Frame D F)) (refs : List Ref) : List Ref :=
  frames.foldl (fun refs frame => frame.kept.onto refs) refs

def Value.refsAll (values : List (Value D F)) (refs : List Ref) : List Ref :=
  values.foldl (fun refs v => v.kept.onto refs) refs

def Outcome.refs (outcome : Outcome D F) (refs : List Ref) : List Ref :=
  match outcome with
  | .ok v => v.kept.onto refs
  | .error v => v.kept.onto refs

def Exit.refs : Exit (Outcome D F) → List Ref → List Ref
  | .settled outcome, refs => Outcome.refs outcome refs
  | .panicked _, refs => refs

def Next.refs : Next D F → List Ref → List Ref
  | .run node, refs => node.kept.onto refs
  | .andThen node resume, refs => node.kept.onto (resume.kept.onto refs)
  | .done outcome, refs => Outcome.refs outcome refs

/-- The references kept while a reply is awaited. -/
def Post.refs : Post D F → List Ref → List Ref
  | .fixed next, refs => next.refs refs
  | _, refs => refs

def Ask.refs : Ask D F → List Ref → List Ref
  | .call f args, refs => f.kept.onto (Value.refsAll args refs)
  | .fork _ _ source _, refs => source.kept.onto refs
  | _, refs => refs

def Subscriber.refs : Subscriber F → List Ref → List Ref
  | .user f, refs => f.kept.onto refs
  | .join _ _ target, refs => target.kept.onto refs
  | .observe _ _ target, refs => target.kept.onto refs

def Subscriber.refsAll (subscribers : List (Subscriber F)) (refs : List Ref) : List Ref :=
  subscribers.foldl (fun refs subscriber => subscriber.refs refs) refs

def Request.refs : Request D F → List Ref → List Ref
  | .runBlocking _ _ node, refs => node.kept.onto refs
  | .runWith _ _ node target, refs => node.kept.onto (target.kept.onto refs)
  | .runFiber _ _ node _, refs => node.kept.onto refs
  | .runAsync _ _ node, refs => node.kept.onto refs
  | .poll _ _ future, refs => .future future :: refs
  | .dropFuture _, refs => refs
  | .blockOn _ _ node, refs => node.kept.onto refs
  | .complete target outcome, refs => target.kept.onto (Outcome.refs outcome refs)
  | .newPromise _, refs => refs
  | .fill promise v, refs => .promise promise :: (v.kept.onto refs)
  | .await promise, refs => .promise promise :: refs
  | .awaitFor promise _, refs => .promise promise :: refs
  | .subscribe promise f, refs => .promise promise :: (f.kept.onto refs)
  | .newFiber _ _, refs => refs
  | .completedFiber _ _ outcome, refs => Outcome.refs outcome refs
  | .fillFiber _ _ fiber outcome, refs => .promise fiber :: Outcome.refs outcome refs
  | .awaitFiber fiber, refs => .promise fiber :: refs
  | .awaitFiberFor fiber _, refs => .promise fiber :: refs
  | .observe _ _ fiber target, refs => .promise fiber :: (target.kept.onto refs)
  | .submit _ work, refs => work.kept.onto refs
  | .report _ _, refs => refs
  | .perform work, refs => work.kept.onto refs
  | .spawn _ f, refs => f.kept.onto refs

def Reply.refs : Reply D F → List Ref → List Ref
  | .value v, refs => v.kept.onto refs
  | _, refs => refs

def Scheduler.refs : Scheduler F → List Ref → List Ref
  | .threads _ _ _ (.user f), refs => f.kept.onto refs
  | .pool (.user f), refs => f.kept.onto refs
  | .custom submit (.user f), refs => submit.kept.onto (f.kept.onto refs)
  | .custom submit .log, refs => submit.kept.onto refs
  | _, refs => refs

namespace Interpretation

/-- What an interpretation has hold of besides its focus and its stack: the node that it has run
last, until it runs the next one. `last` is the one before the present focus. -/
def latest (last : Kept) : Interpretation D F → Kept
  | ⟨.node node, _⟩ => node.kept
  | ⟨.exit _, _⟩ => last

/-- What the continuation keeps that the next step applies. -/
def applied : Interpretation D F → Kept
  | ⟨.exit _, frame :: _⟩ => frame.kept
  | _ => ∅

def refs (last : Kept) (i : Interpretation D F) (refs : List Ref) : List Ref :=
  let refs := Frame.refsAll i.frames ((i.latest last).onto refs)
  match i.focus with
  | .node _ => refs
  | .exit exit => exit.refs refs

end Interpretation

end Trampoline
